import ArtifactCache.Proofs.Files.Lasting

/-! Ways that go straight. Making directories opens new ways only to new places, unless a path or a
link leads back out of one of the new directories. -/
namespace ArtifactCache.Disk

variable {d d' : Disk} {links : Nat} {p : Place} {ns : List String} {n path path' : String}
  {slash : Bool} {spot : Spot}

/-- Whether no link leads back. -/
def Straight (d : Disk) : Prop :=
  ∀ p target, d.at? p = some (.link target) → ".." ∉ pathNames target

/-- Whether two paths lead to one place. -/
def Meets (d : Disk) (path path' : String) : Prop :=
  ∃ spot spot', d.locate path = .ok spot ∧ d.locate path' = .ok spot' ∧ spot.place = spot'.place

/-- Nothing is below a place where nothing is. -/
theorem IsTree.at?_below_none (hd : d.IsTree) (hp : d.at? p = none) (n : String) :
    d.at? (p ++ [n]) = none := by
  cases hat : d.at? (p ++ [n]) with
  | none => rfl
  | some e =>
    have hdir := hd.above _ _ hat
    rw [List.dropLast_concat, hp] at hdir
    cases hdir

/-- A walk that sets out from a new directory does not leave what is new. -/
theorem Grown.leads_none (h : Grown d d') (hd : d.IsTree) (hl : Leads d' links p ns slash spot)
    (hp : d.at? p = none) (hns : ".." ∉ ns) : d.at? spot.place = none := by
  induction hl with
  | done => exact hp
  | stay _ ih => exact ih hp (List.not_mem_of_not_mem_cons hns)
  | back => exact absurd List.mem_cons_self hns
  | @last _ p n => exact hd.at?_below_none hp n
  | @enter _ p n _ _ _ _ _ _ ih =>
    exact ih (hd.at?_below_none hp n) (List.not_mem_of_not_mem_cons hns)
  | @follow _ p n _ _ _ target _ hat =>
    rcases h.entry (p ++ [n]) with heq | ⟨-, hdir⟩
    · rw [heq, hd.at?_below_none hp n] at hat
      cases hat
    · rw [hdir] at hat
      cases hat

/-- A walk that arrives where more directories are arrived before, or arrives at a new place. -/
theorem Grown.leads_straight (h : Grown d d') (hd : d.IsTree) (hs : d.Straight)
    (hl : Leads d' links p ns slash spot) (hns : ".." ∉ ns) :
    Leads d links p ns slash spot ∨ d.at? spot.place = none := by
  induction hl with
  | done => exact .inl .done
  | stay _ ih => exact (ih (List.not_mem_of_not_mem_cons hns)).imp_left .stay
  | back => exact absurd List.mem_cons_self hns
  | last hn hend => exact .inl (.last hn (h.ends_back hend))
  | @enter _ p n ns _ _ hn hat hrest ih =>
    have hns' := List.not_mem_of_not_mem_cons hns
    rcases h.entry (p ++ [n]) with heq | ⟨hnone, -⟩
    · rw [heq] at hat
      exact (ih hns').imp_left (.enter hn hat)
    · exact .inr (h.leads_none hd hrest hnone hns')
  | @follow _ p n ns _ _ target hn hat _ ih =>
    have hlink : d.at? (p ++ [n]) = some (.link target) := by
      rcases h.entry (p ++ [n]) with heq | ⟨-, hdir⟩
      · rwa [heq] at hat
      · rw [hat] at hdir
        cases hdir
    have hnames : ".." ∉ pathNames target ++ ns :=
      List.not_mem_append (hs _ _ hlink) (List.not_mem_of_not_mem_cons hns)
    exact (ih hnames).imp_left (.follow hn hlink)

/-- What a path leads to where more directories are it led to before, or it is new. -/
theorem Grown.locate_straight (h : Grown d d') (hd : d.IsTree) (hs : d.Straight)
    (hback : ".." ∉ pathNames path) (hl : d'.locate path = .ok spot) :
    d.locate path = .ok spot ∨ d.at? spot.place = none := by
  obtain ⟨hcheck, hl⟩ := locate_eq_ok_iff.1 hl
  have hstart : d'.start path = d.start path := by rw [start, start, h.current]
  rw [hstart] at hl
  refine (h.leads_straight hd hs hl hback).imp_left ?_
  intro hl
  exact locate_eq_ok_iff.2 ⟨hcheck, hl⟩

/-- What a path leads to once a file was put where nothing or a file was it led to before. -/
theorem locate_of_put {content : Content} (hend : d.Ends p)
    (hl : (d.put p (.file content)).locate path = .ok spot) : d.locate path = .ok spot := by
  rw [locate_eq_ok_iff] at hl ⊢
  have hput : ∀ q, q ≠ p → (d.put p (.file content)).at? q = d.at? q := by
    intro q hq
    rw [at?_put _ _ _ _ hend.ne_nil, if_neg hq]
  have hself : (d.put p (.file content)).Ends p := by
    right
    exact ⟨content, by rw [at?_put _ _ _ _ hend.ne_nil, if_pos rfl]⟩
  refine ⟨hl.1, leads_congr hl.2 ?_ ?_⟩
  · intro q hq
    refine (hput q ?_).symm
    rintro rfl
    exact hq hself
  · intro hspot
    by_cases hp : spot.place = p
    · rw [hp]
      exact hend
    · rwa [Ends, hput _ hp] at hspot

end ArtifactCache.Disk
