import ArtifactCache.Files.Disk
import ArtifactCache.Proofs.Lookup
import ArtifactCache.Proofs.Result

/-! Walks that arrive somewhere. What is done to a disk behind a walk, or beside it, does not change
where it arrives. -/
namespace ArtifactCache.Disk

variable {d d' : Disk} {links : Nat} {p dir : Place} {n : String} {ns ms : List String}
  {slash : Bool} {spot : Spot} {path : String}

@[simp] theorem at?_nil (d : Disk) : d.at? [] = some .directory := rfl

theorem at?_put (d : Disk) (p : Place) (e : Entry) (q : Place) (hp : p ≠ []) :
    (d.put p e).at? q = if q = p then some e else d.at? q := by
  unfold at? put
  by_cases hq : q = []
  · simp [hq, hp.symm]
  · simp only [hq, if_false, Lookup.lookup_cons_eq, Lookup.lookup_filter_ne]
    by_cases hqp : q = p <;> simp [hqp]

theorem at?_erase (d : Disk) (p : Place) (q : Place) (hp : p ≠ []) :
    (d.erase p).at? q = if q = p then none else d.at? q := by
  unfold at? erase
  by_cases hq : q = []
  · simp [hq, hp.symm]
  · simp only [hq, if_false, Lookup.lookup_filter_ne]

/-- Whether nothing or a file is at a place, so that no walk goes on from there. -/
def Ends (d : Disk) (p : Place) : Prop := d.at? p = none ∨ ∃ content, d.at? p = some (.file content)

theorem Ends.ne_nil (h : d.Ends p) : p ≠ [] := by
  rintro rfl
  rcases h with h | ⟨_, h⟩ <;> simp at h

theorem Ends.not_directory (h : d.Ends p) : d.at? p ≠ some .directory := by
  rcases h with h | ⟨_, h⟩ <;> simp [h]

theorem Ends.not_link (h : d.Ends p) (target : String) : d.at? p ≠ some (.link target) := by
  rcases h with h | ⟨_, h⟩ <;> simp [h]

/-- A name that is looked up as it stands. -/
def Named (n : String) : Prop := n ≠ "." ∧ n ≠ ".." ∧ n.utf8ByteSize ≤ maxName

instance : Decidable (Named n) := inferInstanceAs (Decidable (_ ∧ _))

/-- Where a walk that follows every link arrives. -/
inductive Leads (d : Disk) : Nat → Place → List String → Bool → Spot → Prop
  | done {links : Nat} {p : Place} {slash : Bool} : Leads d links p [] slash ⟨p, slash⟩
  | stay {links : Nat} {p : Place} {ns : List String} {slash : Bool} {spot : Spot}
    (h : Leads d links p ns slash spot) : Leads d links p ("." :: ns) slash spot
  | back {links : Nat} {p : Place} {ns : List String} {slash : Bool} {spot : Spot}
    (h : Leads d links p.dropLast ns slash spot) : Leads d links p (".." :: ns) slash spot
  | last {links : Nat} {p : Place} {n : String} {slash : Bool} (hn : Named n)
    (hend : d.Ends (p ++ [n])) : Leads d links p [n] slash ⟨p ++ [n], slash⟩
  | enter {links : Nat} {p : Place} {n : String} {ns : List String} {slash : Bool} {spot : Spot}
    (hn : Named n) (hat : d.at? (p ++ [n]) = some .directory)
    (h : Leads d links (p ++ [n]) ns slash spot) : Leads d links p (n :: ns) slash spot
  | follow {links : Nat} {p : Place} {n : String} {ns : List String} {slash : Bool} {spot : Spot}
    {target : String} (hn : Named n) (hat : d.at? (p ++ [n]) = some (.link target))
    (h : Leads d links (if Path.isRooted target then [] else p) (pathNames target ++ ns)
      (slash || (ns.isEmpty && Path.endsInSlash target)) spot) :
    Leads d (links + 1) p (n :: ns) slash spot

theorem leads_of_walk (h : d.walk true links p ns slash = .ok spot) :
    Leads d links p ns slash spot := by
  generalize hf : true = follow at h
  fun_induction walk d follow links p ns slash with
  | case1 => cases h; exact .done
  | case2 _ _ _ _ ih => exact .stay (ih h)
  | case3 _ _ _ _ _ ih => exact .back (ih h)
  | case4 => cases h
  | case5 _ _ _ _ ns hdot hback hlong q hat hns =>
    cases h
    rw [List.isEmpty_iff.1 hns]
    exact .last ⟨hdot, hback, Nat.le_of_not_lt hlong⟩ (.inl hat)
  | case6 => cases h
  | case7 _ _ _ _ _ hdot hback hlong _ hat ih =>
    exact .enter ⟨hdot, hback, Nat.le_of_not_lt hlong⟩ hat (ih h)
  | case8 _ _ _ _ ns hdot hback hlong q content hat hns =>
    cases h
    rw [List.isEmpty_iff.1 hns]
    exact .last ⟨hdot, hback, Nat.le_of_not_lt hlong⟩ (.inr ⟨content, hat⟩)
  | case9 => cases h
  | case10 _ _ _ _ _ _ _ _ _ _ _ hstay => simp [← hf] at hstay
  | case11 => cases h
  | case12 _ _ _ _ hdot hback hlong _ _ hat _ _ ih =>
    exact .follow ⟨hdot, hback, Nat.le_of_not_lt hlong⟩ hat (ih h)

theorem walk_of_leads (h : Leads d links p ns slash spot) :
    d.walk true links p ns slash = .ok spot := by
  induction h with
  | done => rw [walk]
  | stay _ ih => rw [walk, if_pos rfl, ih]
  | back _ ih => rw [walk, if_neg (by decide), if_pos rfl, ih]
  | last hn hend =>
    obtain ⟨hdot, hback, hlong⟩ := hn
    rw [walk, if_neg hdot, if_neg hback, if_neg (Nat.not_lt.2 hlong)]
    rcases hend with hat | ⟨content, hat⟩ <;> simp [hat]
  | enter hn hat _ ih =>
    obtain ⟨hdot, hback, hlong⟩ := hn
    rw [walk, if_neg hdot, if_neg hback, if_neg (Nat.not_lt.2 hlong)]
    simp [hat, ih]
  | follow hn hat _ ih =>
    obtain ⟨hdot, hback, hlong⟩ := hn
    rw [walk, if_neg hdot, if_neg hback, if_neg (Nat.not_lt.2 hlong)]
    simp [hat, ih]

/-- A walk goes the same way on a disk that has the same directories and links, if nothing stands
in its way at its end. -/
theorem leads_congr (h : Leads d links p ns slash spot)
    (hgo : ∀ q, ¬ d.Ends q → d'.at? q = d.at? q) (hend : d.Ends spot.place → d'.Ends spot.place) :
    Leads d' links p ns slash spot := by
  induction h with
  | done => exact .done
  | stay _ ih => exact .stay (ih hend)
  | back _ ih => exact .back (ih hend)
  | last hn he => exact .last hn (hend he)
  | enter hn hat _ ih =>
    refine .enter hn ?_ (ih hend)
    rw [hgo _ fun he => he.not_directory hat, hat]
  | follow hn hat _ ih =>
    refine .follow hn ?_ (ih hend)
    rw [hgo _ fun he => he.not_link _ hat, hat]

/-- A walk to a directory can be gone on with. -/
theorem leads_append (h : Leads d links p ns true spot) (hat : d.at? spot.place = some .directory)
    (hms : ms ≠ []) : ∃ links', ∀ slash end_,
      Leads d links' spot.place ms slash end_ → Leads d links p (ns ++ ms) slash end_ := by
  generalize hslash : true = s at h
  induction h with
  | @done links => exact ⟨links, fun _ _ h => h⟩
  | stay _ ih =>
    obtain ⟨links', hrest⟩ := ih hat hslash
    exact ⟨links', fun _ _ h => .stay (hrest _ _ h)⟩
  | back _ ih =>
    obtain ⟨links', hrest⟩ := ih hat hslash
    exact ⟨links', fun _ _ h => .back (hrest _ _ h)⟩
  | last _ he => exact absurd hat he.not_directory
  | enter hn hdir _ ih =>
    obtain ⟨links', hrest⟩ := ih hat hslash
    exact ⟨links', fun _ _ h => .enter hn hdir (hrest _ _ h)⟩
  | @follow links p n ns slash spot target hn hlink _ ih =>
    obtain ⟨links', hrest⟩ := ih hat (by simp [← hslash])
    refine ⟨links', fun slash end_ h => .follow hn hlink ?_⟩
    have hlast : (ns ++ ms).isEmpty = false := by simp [hms]
    change Leads d links _ (pathNames target ++ (ns ++ ms))
      (slash || ((ns ++ ms).isEmpty && Path.endsInSlash target)) end_
    rw [hlast, Bool.false_and, Bool.or_false, ← List.append_assoc]
    exact hrest _ _ h

theorem locate_eq_ok_iff : d.locate path = .ok spot ↔ checkPath path = .ok () ∧
    Leads d maxLinks (d.start path) (pathNames path) (Path.endsInSlash path) spot := by
  rw [locate, Result.bind_eq_ok]
  constructor
  · rintro ⟨_, hcheck, hwalk⟩
    exact ⟨hcheck, leads_of_walk hwalk⟩
  · rintro ⟨hcheck, hleads⟩
    exact ⟨(), hcheck, walk_of_leads hleads⟩

/-- The seat of a path that ends in a name is found by the walk along the names before it. -/
theorem seat_of_names (hcheck : checkPath path = .ok ()) (hnames : pathNames path = ns ++ [n])
    (hn : Named n) : d.seat path = match d.walk true maxLinks (d.start path) ns true with
      | .error e => .error e
      | .ok spot => match d.at? spot.place with
        | some .directory => .ok ⟨spot.place, some n, Path.endsInSlash path⟩
        | some _ => .error .notDirectory
        | none => .error .noEntry := by
  have hlong : ¬ maxName < n.utf8ByteSize := Nat.not_lt.2 hn.2.2
  simp only [seat, hcheck, hnames, List.reverse_append, List.reverse_singleton, List.singleton_append,
    List.reverse_reverse, hn.1, hn.2.1, or_self, hlong, if_false]
  cases d.walk true maxLinks (d.start path) ns true with
  | error e => rfl
  | ok spot =>
    cases hat : d.at? spot.place with
    | none => simp only [bind, Except.bind, hat]; rfl
    | some e => cases e <;> (simp only [bind, Except.bind, hat]; rfl)

theorem seat_ok (h : d.seat path = .ok ⟨dir, some n, slash⟩) : checkPath path = .ok () ∧
    d.at? dir = some .directory ∧ Named n ∧ ∃ back s, pathNames path = back ++ [n] ∧
      Leads d maxLinks (d.start path) back true ⟨dir, s⟩ := by
  obtain ⟨_, hcheck, h⟩ := Result.bind_eq_ok.1 h
  refine ⟨hcheck, ?_⟩
  simp only at h
  split at h
  · cases h
  rename_i last back hnames
  obtain ⟨⟨place, s⟩, hwalk, h⟩ := Result.bind_eq_ok.1 h
  simp only at h
  split at h
  · rename_i hat
    split at h
    · cases h
    rename_i hdots
    split at h
    · cases h
    rename_i hlong
    cases h
    rw [not_or] at hdots
    refine ⟨hat, ⟨hdots.1, hdots.2, Nat.le_of_not_lt hlong⟩, back.reverse, s, ?_, leads_of_walk hwalk⟩
    rw [← List.reverse_reverse (pathNames path), hnames, List.reverse_cons]
  · cases h
  · cases h

theorem makeDirectory_ok (h : d.makeDirectory path = .ok d') : ∃ dir n slash,
    d.seat path = .ok ⟨dir, some n, slash⟩ ∧ d.at? (dir ++ [n]) = none ∧
      d' = d.put (dir ++ [n]) .directory := by
  obtain ⟨⟨dir, name, slash⟩, hseat, h⟩ := Result.bind_eq_ok.1 h
  cases name with
  | none => cases h
  | some n =>
    simp only at h
    split at h
    · cases h
    · rename_i hat
      cases h
      exact ⟨dir, n, slash, hseat, hat, rfl⟩

theorem writable_ok (h : d.writable path = .ok p) :
    d.locate path = .ok ⟨p, false⟩ ∧ d.at? p ≠ some .directory := by
  unfold writable at h
  split at h
  · obtain ⟨_, -, h⟩ := Result.bind_eq_ok.1 h
    cases h
  · obtain ⟨⟨place, slash⟩, hlocate, h⟩ := Result.bind_eq_ok.1 h
    cases slash with
    | true => cases h
    | false =>
      simp only [Bool.false_eq_true, if_false] at h
      split at h
      · cases h
      · cases h
        exact ⟨hlocate, by assumption⟩

theorem writable_of_write_error {content : Content} {e : IoError}
    (h : d.write path content = .error e) : d.writable path = .error e := by
  unfold write at h
  cases hw : d.writable path with
  | error e' =>
    rw [hw] at h
    cases h
    rfl
  | ok p =>
    rw [hw] at h
    cases h

theorem removeFile_ok (h : d.removeFile path = .ok d') : ∃ dir n,
    d.seat path = .ok ⟨dir, some n, false⟩ ∧ d.at? (dir ++ [n]) ≠ some .directory ∧
      d' = d.erase (dir ++ [n]) := by
  obtain ⟨⟨dir, name, slash⟩, hseat, h⟩ := Result.bind_eq_ok.1 h
  cases name with
  | none => cases h
  | some n =>
    simp only at h
    split at h
    · cases h
    · cases h
    · rename_i hdir hat
      cases slash with
      | true => cases h
      | false =>
        cases h
        refine ⟨dir, n, hseat, ?_, rfl⟩
        rw [hat]
        simpa using hdir

/-- Where a path leads that can be resolved, and what is there. -/
theorem resolve_eq_ok_iff {e : Entry} : d.resolve path = .ok (p, e) ↔ ∃ slash,
    d.locate path = .ok ⟨p, slash⟩ ∧ d.at? p = some e ∧ (slash = true → e = .directory) := by
  rw [resolve, Result.bind_eq_ok]
  constructor
  · rintro ⟨⟨q, slash⟩, hlocate, h⟩
    simp only at h
    split at h
    · cases h
    · rename_i hat
      cases h
      exact ⟨slash, hlocate, hat, fun _ => rfl⟩
    · rename_i hat
      split at h
      · cases h
      · rename_i hslash
        cases h
        exact ⟨slash, hlocate, hat, fun h => absurd h hslash⟩
  · rintro ⟨slash, hlocate, hat, hslash⟩
    refine ⟨⟨p, slash⟩, hlocate, ?_⟩
    simp only [hat]
    cases e with
    | directory => rfl
    | _ =>
      cases slash with
      | true => cases hslash rfl
      | false => rfl

theorem resolve_of_none (hlocate : d.locate path = .ok ⟨p, slash⟩) (hat : d.at? p = none) :
    d.resolve path = .error .noEntry := by
  simp [resolve, hlocate, hat, bind, Except.bind, throw, throwThe, MonadExceptOf.throw]

end ArtifactCache.Disk
