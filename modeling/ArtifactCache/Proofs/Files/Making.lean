import ArtifactCache.Proofs.Files.Path
import ArtifactCache.Proofs.Files.Tree

/-! Making directories. On the way along a path without names that lead back, either all are there or
the last one is new, and nothing is in it. -/
namespace ArtifactCache

/-- The paths of the directories that a path lies below, innermost first. -/
def Path.above (path : String) : List String := ((Path.parent? path).map Path.ancestors).getD []

namespace Disk

variable {d d' : Disk} {links : Nat} {p : Place} {n : String} {ns ms : List String}
  {slash : Bool} {spot spot' : Spot} {path up : String} {e : IoError}

theorem names_eq_filter (path : String) :
    Path.names path = (pathNames path).filter (· ≠ ".") := by
  rw [Path.names, pathNames, List.filter_filter]
  congr 1
  funext n
  rw [Bool.and_comm]

theorem Leads.eq (h : Leads d links p ns slash spot) (h' : Leads d links p ns slash spot') :
    spot = spot' := by
  have := (walk_of_leads h).symm.trans (walk_of_leads h')
  exact Except.ok.inj this

theorem Leads.named (h : Leads d links p ns slash spot) :
    ∀ n ∈ ns, n = "." ∨ n = ".." ∨ Named n := by
  induction h with
  | done => exact nofun
  | stay _ ih =>
    intro n hn
    rcases List.mem_cons.1 hn with rfl | hn
    · exact .inl rfl
    · exact ih n hn
  | back _ ih =>
    intro n hn
    rcases List.mem_cons.1 hn with rfl | hn
    · exact .inr (.inl rfl)
    · exact ih n hn
  | last hnamed _ =>
    intro n hn
    rw [List.mem_singleton.1 hn]
    exact .inr (.inr hnamed)
  | enter hnamed _ _ ih =>
    intro n hn
    rcases List.mem_cons.1 hn with rfl | hn
    · exact .inr (.inr hnamed)
    · exact ih n hn
  | follow hnamed _ _ ih =>
    intro n hn
    rcases List.mem_cons.1 hn with rfl | hn
    · exact .inr (.inr hnamed)
    · exact ih n (List.mem_append_right _ hn)

/-- Names that say nothing can be left out at the end of a walk. -/
theorem leads_skip (h : Leads d links p (ns ++ ms) slash spot) (slash' : Bool) :
    ∃ s, Leads d links p (ns ++ ms.filter (· ≠ ".")) slash' ⟨spot.place, s⟩ := by
  generalize hall : ns ++ ms = all at h
  induction h generalizing ns ms slash' with
  | @done _ p =>
    obtain ⟨rfl, rfl⟩ := List.append_eq_nil_iff.1 hall
    exact ⟨slash', .done⟩
  | @stay _ _ rest _ _ _ ih =>
    cases ns with
    | nil =>
      cases (hall : ms = "." :: rest)
      exact @ih [] rest slash' rfl
    | cons n ns =>
      cases hall
      obtain ⟨s, hs⟩ := ih slash' rfl
      exact ⟨s, .stay hs⟩
  | @back _ _ rest _ _ _ ih =>
    cases ns with
    | nil =>
      cases (hall : ms = ".." :: rest)
      obtain ⟨s, hs⟩ := @ih [] rest slash' rfl
      exact ⟨s, .back hs⟩
    | cons n ns =>
      cases hall
      obtain ⟨s, hs⟩ := ih slash' rfl
      exact ⟨s, .back hs⟩
  | @last _ _ n _ hn hend =>
    have hkeep : ns ++ ms.filter (· ≠ ".") = [n] := by
      cases ns with
      | nil =>
        rw [List.nil_append] at hall ⊢
        rw [hall, List.filter_cons_of_pos (by simpa using hn.1), List.filter_nil]
      | cons m ns =>
        obtain ⟨rfl, hrest⟩ := List.cons.inj hall
        obtain ⟨rfl, rfl⟩ := List.append_eq_nil_iff.1 hrest
        rfl
    rw [hkeep]
    exact ⟨slash', .last hn hend⟩
  | @enter _ _ n rest _ _ hn hat _ ih =>
    cases ns with
    | nil =>
      rw [List.nil_append] at hall
      obtain ⟨s, hs⟩ := @ih [] rest slash' rfl
      rw [hall, List.filter_cons_of_pos (by simpa using hn.1)]
      exact ⟨s, .enter hn hat hs⟩
    | cons m ns =>
      cases hall
      obtain ⟨s, hs⟩ := ih slash' rfl
      exact ⟨s, .enter hn hat hs⟩
  | @follow _ _ n rest _ _ target hn hat _ ih =>
    cases ns with
    | nil =>
      rw [List.nil_append] at hall
      obtain ⟨s, hs⟩ := @ih (pathNames target) rest _ rfl
      rw [hall, List.filter_cons_of_pos (by simpa using hn.1)]
      exact ⟨s, .follow hn hat hs⟩
    | cons m ns =>
      obtain ⟨rfl, rfl⟩ := List.cons.inj hall
      obtain ⟨s, hs⟩ := @ih (pathNames target ++ ns) ms _ (List.append_assoc _ _ _)
      rw [List.append_assoc] at hs
      exact ⟨s, .follow hn hat hs⟩

theorem leads_names (h : Leads d links p (pathNames path) slash spot) :
    ∃ s, Leads d links p (Path.names path) true ⟨spot.place, s⟩ := by
  rw [names_eq_filter]
  exact @leads_skip d links p [] _ slash spot h true

/-- A path leads to a directory with nothing in it. -/
def Fresh (d : Disk) (path : String) : Prop := ∃ p s,
  Leads d maxLinks (d.start path) (Path.names path) true ⟨p, s⟩ ∧
    d.at? p = some .directory ∧ ∀ n, d.at? (p ++ [n]) = none

/-- What lies in a new directory is not there yet. -/
theorem Fresh.locate (hf : Fresh d up) (hup : Path.parent? path = some up) (hne : up ≠ "")
    (hback : ".." ∉ Path.names path) (hl : d.locate path = .ok spot) : d.at? spot.place = none := by
  obtain ⟨p, s, hleads, hat, hnone⟩ := hf
  obtain ⟨-, hl⟩ := locate_eq_ok_iff.1 hl
  obtain ⟨s', hl⟩ := leads_names hl
  obtain ⟨n, hnames⟩ := Path.names_of_parent_ne hup hne
  have hmem : n ∈ Path.names path := by simp [hnames]
  have hn : Named n := by
    rcases hl.named n hmem with rfl | rfl | hn
    · simp [Path.names] at hmem
    · exact absurd hmem hback
    · exact hn
  have hstart : d.start path = d.start up := by
    rw [start, start, Path.isRooted_of_parent hup]
  rw [hnames, hstart] at hl
  obtain ⟨links', hrest⟩ := leads_append hleads hat (List.cons_ne_nil n [])
  have := hl.eq (hrest true _ (.last hn (.inl (hnone n))))
  rw [show spot.place = p ++ [n] from congrArg Spot.place this]
  exact hnone n

/-- A path leads to the directory that was made there. -/
theorem makeDirectory_leads (h : d.makeDirectory path = .ok d') (slash : Bool) :
    checkPath path = .ok () ∧ ∃ p, d.at? p = none ∧ p ≠ [] ∧ d' = d.put p .directory ∧
      Leads d' maxLinks (d'.start path) (pathNames path) slash ⟨p, slash⟩ := by
  obtain ⟨dir, n, _, hseat, hat, rfl⟩ := makeDirectory_ok h
  obtain ⟨hcheck, hdir, hn, back, s, hnames, hl⟩ := seat_ok hseat
  have hg := grown_put hat
  have hne : dir ++ [n] ≠ [] := by simp
  have hnew : (d.put (dir ++ [n]) .directory).at? (dir ++ [n]) = some .directory := by
    rw [at?_put _ _ _ _ hne, if_pos rfl]
  have hl' := hg.leads hl (by simp [hdir])
  obtain ⟨links', hrest⟩ := leads_append hl' (hg.eq_of_some hdir) (List.cons_ne_nil n [])
  have hall := hrest slash _ (.enter hn hnew .done)
  rw [← hnames] at hall
  exact ⟨hcheck, dir ++ [n], hat, hne, rfl, hall⟩

theorem makeDirectory_fresh (hd : d.IsTree) (h : d.makeDirectory path = .ok d') :
    Fresh d' path := by
  obtain ⟨-, p, hat, hne, rfl, hall⟩ := makeDirectory_leads h true
  obtain ⟨s', hall⟩ := leads_names hall
  refine ⟨p, s', hall, by rw [at?_put _ _ _ _ hne, if_pos rfl], ?_⟩
  intro m
  rw [at?_put _ _ _ _ hne, if_neg (by simp)]
  by_contra hsome
  obtain ⟨e, he⟩ := Option.ne_none_iff_exists'.1 hsome
  have := hd.above _ _ he
  rw [List.dropLast_concat, hat] at this
  cases this

theorem isDirectory_iff : d.isDirectory path = true ↔
    ∃ p s, d.locate path = .ok ⟨p, s⟩ ∧ d.at? p = some .directory := by
  rw [isDirectory]
  constructor
  · intro h
    split at h
    · rename_i p hr
      obtain ⟨s, hl, hat, -⟩ := resolve_eq_ok_iff.1 hr
      exact ⟨p, s, hl, hat⟩
    · cases h
  · rintro ⟨p, s, hl, hat⟩
    rw [resolve_eq_ok_iff.2 ⟨s, hl, hat, fun _ => rfl⟩]

/-- How all the directories along a path came to be there. -/
theorem makeAll_cons_ok {above : List String} (h : d.makeAll (path :: above) = (d', .ok ())) :
    d' = d ∧ (path = "" ∨ d.isDirectory path = true) ∨ path ≠ "" ∧
      (d.makeDirectory path = .ok d' ∨ ∃ d₀, d.makeAll above = (d₀, .ok ()) ∧
        (d.makeDirectory path = .error .noEntry) ∧
        (d₀.makeDirectory path = .ok d' ∨ d' = d₀ ∧ d₀.isDirectory path = true)) := by
  rw [makeAll] at h
  by_cases hpath : path = ""
  · rw [if_pos hpath] at h
    cases h
    exact .inl ⟨rfl, .inl hpath⟩
  rw [if_neg hpath] at h
  cases hmake : d.makeDirectory path with
  | ok d₁ =>
    simp only [hmake] at h
    cases h
    exact .inr ⟨hpath, .inl rfl⟩
  | error e =>
    simp only [hmake] at h
    by_cases he : e = .noEntry
    · rw [if_pos he] at h
      cases habove : d.makeAll above with
      | mk d₀ made =>
        cases made with
        | error e' => simp [habove] at h
        | ok _ =>
          refine .inr ⟨hpath, .inr ⟨d₀, rfl, he ▸ rfl, ?_⟩⟩
          simp only [habove] at h
          cases hmake' : d₀.makeDirectory path with
          | ok d₂ =>
            simp only [hmake'] at h
            cases h
            exact .inl rfl
          | error e' =>
            simp only [hmake', Prod.mk.injEq] at h
            refine .inr ⟨h.1.symm, ?_⟩
            by_contra hdir
            simp [hdir] at h
    · rw [if_neg he] at h
      by_cases hdir : d.isDirectory path = true
      · exact .inl ⟨(congrArg Prod.fst h).symm, .inr hdir⟩
      · simp [hdir] at h

/-- Where all directories along a path were made, they were there, or the last of them is new. -/
theorem makeAll_fresh (hd : d.IsTree) {k : Nat} (hback : ".." ∉ Path.names path)
    (h : d.makeAll (Path.ancestors.go k path) = (d', .ok ())) :
    d' = d ∨ path ≠ "" ∧ Fresh d' path := by
  induction k generalizing path d' with
  | zero =>
    rcases makeAll_cons_ok h with ⟨rfl, -⟩ | ⟨hpath, hmake | ⟨d₀, habove, hmake, hmake'⟩⟩
    · exact .inl rfl
    · exact .inr ⟨hpath, makeDirectory_fresh hd hmake⟩
    · cases habove
      rcases hmake' with hmake' | ⟨rfl, -⟩
      · rw [hmake] at hmake'
        cases hmake'
      · exact .inl rfl
  | succ k ih =>
    rcases makeAll_cons_ok h with ⟨rfl, -⟩ | ⟨hpath, hmake | ⟨d₀, habove, hmake, hmake'⟩⟩
    · exact .inl rfl
    · exact .inr ⟨hpath, makeDirectory_fresh hd hmake⟩
    have hsame : d₀ = d → d' = d := by
      rintro rfl
      rcases hmake' with hmake' | ⟨rfl, -⟩
      · rw [hmake] at hmake'
        cases hmake'
      · rfl
    cases hup : Path.parent? path with
    | none =>
      rw [hup] at habove
      cases habove
      exact .inl (hsame rfl)
    | some up =>
      simp only [hup] at habove
      have hback' : ".." ∉ Path.names up := by
        obtain ⟨n, -, hnames⟩ := Path.names_of_parent hup
        rw [hnames, List.mem_append, not_or] at hback
        exact hback.1
      rcases ih hback' habove with heq | ⟨hne, hf⟩
      · exact .inl (hsame heq)
      · rcases hmake' with hmake' | ⟨rfl, hdir⟩
        · have htree := (makeAll_grown hd (Path.ancestors.go k up)).2
          rw [habove] at htree
          exact .inr ⟨hpath, makeDirectory_fresh htree hmake'⟩
        · obtain ⟨p, s, hl, hat⟩ := isDirectory_iff.1 hdir
          rw [hf.locate hup hne hback hl] at hat
          cases hat

/-- A walk that arrives where more directories are arrived before, or lacked one. -/
theorem Grown.leads_back (h : Grown d d') (hl : Leads d' links p ns slash spot) :
    Leads d links p ns slash spot ∨ d.walk true links p ns slash = .error .noEntry := by
  induction hl with
  | done => exact .inl .done
  | stay _ ih =>
    rw [walk, if_pos rfl]
    exact ih.imp_left .stay
  | back _ ih =>
    rw [walk, if_neg (by decide), if_pos rfl]
    exact ih.imp_left .back
  | last hn hend => exact .inl (.last hn (h.ends_back hend))
  | @enter _ p n ns _ _ hn hat hrest ih =>
    obtain ⟨hdot, hback, hlong⟩ := hn
    rcases h.entry (p ++ [n]) with heq | ⟨hnone, -⟩
    · rw [heq] at hat
      rw [walk, if_neg hdot, if_neg hback, if_neg (Nat.not_lt.2 hlong)]
      simp only [hat]
      exact ih.imp_left (.enter ⟨hdot, hback, hlong⟩ hat)
    · cases ns with
      | nil =>
        cases hrest
        exact .inl (.last ⟨hdot, hback, hlong⟩ (.inl hnone))
      | cons m ns =>
        right
        rw [walk, if_neg hdot, if_neg hback, if_neg (Nat.not_lt.2 hlong)]
        simp [hnone]
  | @follow _ p n ns _ _ target hn hat _ ih =>
    obtain ⟨hdot, hback, hlong⟩ := hn
    rcases h.entry (p ++ [n]) with heq | ⟨-, hdir⟩
    · rw [heq] at hat
      rw [walk, if_neg hdot, if_neg hback, if_neg (Nat.not_lt.2 hlong)]
      simp only [hat, Bool.not_true, Bool.and_false, Bool.false_and, Bool.false_eq_true, if_false]
      exact ih.imp_left (.follow ⟨hdot, hback, hlong⟩ hat)
    · rw [hat] at hdir
      cases hdir

theorem Grown.locate_back (h : Grown d d') (hl : d'.locate path = .ok spot) :
    d.locate path = .ok spot ∨ d.locate path = .error .noEntry := by
  obtain ⟨hcheck, hl⟩ := locate_eq_ok_iff.1 hl
  have hstart : d'.start path = d.start path := by rw [start, start, h.current]
  rw [hstart] at hl
  rcases h.leads_back hl with hl | hw
  · exact .inl (locate_eq_ok_iff.2 ⟨hcheck, hl⟩)
  · right
    rw [Disk.locate, hcheck]
    exact hw

/-- The disk with the directories above a path, and whether they could be made. -/
def makeParents (d : Disk) (path : String) : Disk × Except IoError Unit :=
  match Path.parent? path with
  | some directory => d.makeDirectories directory
  | none => (d, .ok ())

/-- Whether a file cannot be written, or a directory above it cannot be made. -/
def Unwritable (d : Disk) (path : String) : Prop :=
  (∃ e, (d.makeParents path).2 = .error e) ∨ ∃ e, (d.makeParents path).1.writable path = .error e

/-- Whether something else keeps a file from being opened than that there is none. -/
def Refuses (d : Disk) (path : String) : Prop :=
  (∃ e, e ≠ .noEntry ∧ d.resolve path = .error e) ∨ d.isDirectory path = true

theorem makeParents_of_parent (h : Path.parent? path = some up) (d : Disk) :
    d.makeParents path = d.makeDirectories up := by
  rw [makeParents, h]

theorem makeParents_grown (hd : d.IsTree) (path : String) :
    d.Grown (d.makeParents path).1 ∧ (d.makeParents path).1.IsTree := by
  rw [makeParents]
  split
  · exact makeDirectories_grown hd _
  · exact ⟨.refl d, hd⟩

/-- Whether one disk is another one with new directories to which some paths lead. -/
structure Opened (d d' : Disk) (paths : List String) : Prop where
  current : d'.current = d.current
  entry : ∀ p, d'.at? p = d.at? p ∨ d.at? p = none ∧ d'.at? p = some .directory ∧
    ∃ path ∈ paths, ∃ slash, d'.locate path = .ok ⟨p, slash⟩

theorem Opened.grown {paths : List String} (h : Opened d d' paths) : Grown d d' :=
  ⟨h.current, fun p => (h.entry p).imp_right fun ⟨hnone, hdir, _⟩ => ⟨hnone, hdir⟩⟩

theorem Opened.refl (d : Disk) (paths : List String) : Opened d d paths := ⟨rfl, fun _ => .inl rfl⟩

theorem Opened.mono {paths more : List String} (h : Opened d d' paths) (hsub : paths ⊆ more) :
    Opened d d' more := by
  refine ⟨h.current, fun p => ?_⟩
  rcases h.entry p with heq | ⟨hnone, hdir, path, hpath, hleads⟩
  · exact .inl heq
  · exact .inr ⟨hnone, hdir, path, hsub hpath, hleads⟩

theorem Opened.trans {d'' : Disk} {paths : List String} (h : Opened d d' paths)
    (h' : Opened d' d'' paths) : Opened d d'' paths := by
  refine ⟨h'.current.trans h.current, fun p => ?_⟩
  rcases h'.entry p with heq | ⟨hnone', hdir', hleads'⟩
  · rw [heq]
    rcases h.entry p with heq' | ⟨hnone, hdir, path, hpath, slash, hleads⟩
    · exact .inl heq'
    · have hkept := h'.grown.locate hleads (by rw [hdir]; exact nofun)
      exact .inr ⟨hnone, hdir, path, hpath, slash, hkept⟩
  · rcases h.entry p with heq | ⟨-, hdir, -⟩
    · exact .inr ⟨heq ▸ hnone', hdir', hleads'⟩
    · rw [hdir] at hnone'
      cases hnone'

theorem makeDirectory_opened (h : d.makeDirectory path = .ok d') : Opened d d' [path] := by
  obtain ⟨hcheck, p, hnone, hne, rfl, hl⟩ := makeDirectory_leads h (Path.endsInSlash path)
  refine ⟨rfl, fun q => ?_⟩
  rw [at?_put _ _ _ _ hne]
  split
  · rename_i heq
    subst heq
    exact .inr ⟨hnone, rfl, path, List.mem_cons_self, _, locate_eq_ok_iff.2 ⟨hcheck, hl⟩⟩
  · exact .inl rfl

/-- The directories that are made are the ones the paths lead to, whether or not all can be made. -/
theorem makeAll_opened (d : Disk) (paths : List String) : Opened d (d.makeAll paths).1 paths := by
  induction paths with
  | nil => exact .refl d []
  | cons path above ih =>
    have hpath : [path] ⊆ path :: above := by simp
    have habove : above ⊆ path :: above := List.subset_cons_self path above
    rw [makeAll]
    split
    · exact .refl d _
    split
    · rename_i d' hmake
      exact (makeDirectory_opened hmake).mono hpath
    split
    · split
      · rename_i d' e' hmade
        rw [hmade] at ih
        exact ih.mono habove
      · rename_i d' hmade
        rw [hmade] at ih
        split
        · rename_i d'' hmake
          exact (ih.mono habove).trans ((makeDirectory_opened hmake).mono hpath)
        · exact ih.mono habove
    · exact .refl d _

theorem makeParents_opened (d : Disk) (path : String) :
    Opened d (d.makeParents path).1 (Path.above path) := by
  rw [makeParents, Path.above]
  cases Path.parent? path with
  | none => exact .refl d []
  | some directory => exact makeAll_opened d _

/-- Without a name that leads back, a path leads where it led before the directories above it were
made, or nothing is there. -/
theorem makeParents_same (hd : d.IsTree) (hok : (d.makeParents path).2 = .ok ())
    (hback : ".." ∉ Path.names path) (hl : (d.makeParents path).1.locate path = .ok spot) :
    (d.makeParents path).1 = d ∨ (d.makeParents path).1.at? spot.place = none := by
  cases hup : Path.parent? path with
  | none => exact .inl (by rw [makeParents, hup])
  | some up =>
    have hparents := makeParents_of_parent hup d
    rw [hparents] at hok hl ⊢
    have hback' : ".." ∉ Path.names up := by
      obtain ⟨n, -, hnames⟩ := Path.names_of_parent hup
      rw [hnames, List.mem_append, not_or] at hback
      exact hback.1
    rcases makeAll_fresh hd hback' (Prod.ext rfl hok) with hsame | ⟨hne, hfresh⟩
    · exact .inl hsame
    · exact .inr (hfresh.locate hup hne hback hl)

end Disk
end ArtifactCache
