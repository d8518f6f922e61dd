import ArtifactCache.Proofs.Files.Making

/-! Disks without links. A path has a place of its own there, whatever is on the disk, and leads to
what is at that place or nowhere. Where names lead back, it leads there only from directories. -/
namespace ArtifactCache.Disk

variable {d d' : Disk} {links : Nat} {p q : Place} {ns ms : List String} {slash : Bool} {spot : Spot}
  {path f : String} {e : Entry}

/-- Where names lead from a place if everything is there. -/
def descend (p : Place) : List String → Place
  | [] => p
  | n :: ns => if n = ".." then descend p.dropLast ns else descend (p ++ [n]) ns

theorem descend_append (p : Place) (ns ms : List String) :
    descend p (ns ++ ms) = descend (descend p ns) ms := by
  induction ns generalizing p with
  | nil => rfl
  | cons n ns ih =>
    rw [List.cons_append, descend, descend]
    split
    · exact ih _
    · exact ih _

theorem descend_of_notMem (h : ".." ∉ ns) (p : Place) : descend p ns = p ++ ns := by
  induction ns generalizing p with
  | nil => simp [descend]
  | cons n ns ih =>
    rw [List.mem_cons, not_or] at h
    rw [descend, if_neg (Ne.symm h.1), ih h.2, List.append_assoc, List.singleton_append]

/-- Whether names lead back from directories only. -/
def Clear (d : Disk) (p : Place) : List String → Prop
  | [] => True
  | n :: ns =>
    if n = ".." then d.at? p = some .directory ∧ d.Clear p.dropLast ns else d.Clear (p ++ [n]) ns

theorem clear_append : d.Clear p (ns ++ ms) ↔ d.Clear p ns ∧ d.Clear (descend p ns) ms := by
  induction ns generalizing p with
  | nil => simp [Clear, descend]
  | cons n ns ih =>
    rw [List.cons_append, Clear, Clear, descend]
    split
    · rw [ih, and_assoc]
    · exact ih

theorem clear_of_notMem (h : ".." ∉ ns) (d : Disk) (p : Place) : d.Clear p ns := by
  induction ns generalizing p with
  | nil => trivial
  | cons n ns ih =>
    rw [List.mem_cons, not_or] at h
    rw [Clear, if_neg (Ne.symm h.1)]
    exact ih h.2 _

/-- Names lead where they led as long as no directory goes away. -/
theorem Clear.mono (h : d.Clear p ns)
    (hdir : ∀ q, d.at? q = some .directory → d'.at? q = some .directory) : d'.Clear p ns := by
  induction ns generalizing p with
  | nil => trivial
  | cons n ns ih =>
    rw [Clear] at h ⊢
    split at h
    · rename_i hback
      rw [if_pos hback]
      exact ⟨hdir _ h.1, ih h.2⟩
    · rename_i hback
      rw [if_neg hback]
      exact ih h

/-- A disk in order without links. -/
structure IsPlain (d : Disk) : Prop where
  tree : d.IsTree
  linkless : ∀ p target, d.at? p ≠ some (.link target)

theorem isPlain_of_entries (hd : d.IsTree)
    (h : ∀ x ∈ d.entries, ∀ target, x.2 ≠ .link target) : d.IsPlain := by
  refine ⟨hd, ?_⟩
  intro p target hp
  by_cases hnil : p = []
  · rw [hnil, at?_nil] at hp
    cases hp
  · rw [at?, if_neg hnil] at hp
    obtain ⟨before, after, hentries, -⟩ := List.lookup_eq_some_iff.1 hp
    exact h (p, .link target) (by simp [hentries]) target rfl

theorem IsPlain.put (h : d.IsPlain) (hp : d.at? p ≠ some .directory)
    (habove : d.at? p.dropLast = some .directory) (content : Content) :
    (d.put p (.file content)).IsPlain := by
  refine ⟨h.tree.put hp habove _, ?_⟩
  intro q target hq
  rw [at?_put _ _ _ _ (ne_nil_of_not_directory hp)] at hq
  split at hq
  · cases hq
  · exact h.linkless q target hq

theorem IsPlain.erase (h : d.IsPlain) (hp : d.at? p ≠ some .directory) : (d.erase p).IsPlain := by
  refine ⟨h.tree.erase hp, ?_⟩
  intro q target hq
  rw [at?_erase _ _ _ (ne_nil_of_not_directory hp)] at hq
  split at hq
  · cases hq
  · exact h.linkless q target hq

theorem IsPlain.grown (h : d.IsPlain) (hg : d.Grown d') (ht : d'.IsTree) : d'.IsPlain := by
  refine ⟨ht, ?_⟩
  intro q target hq
  rcases hg.entry q with heq | ⟨-, hdir⟩
  · exact h.linkless q target (heq ▸ hq)
  · rw [hq] at hdir
    cases hdir

/-- A way to a directory that leads back from directories only starts at one. -/
theorem IsTree.directory_of_clear (h : d.IsTree) (hc : d.Clear p ns)
    (hat : d.at? (descend p ns) = some .directory) : d.at? p = some .directory := by
  induction ns generalizing p with
  | nil => exact hat
  | cons n ns ih =>
    rw [Clear] at hc
    rw [descend] at hat
    split at hc
    · exact hc.1
    · rename_i hback
      rw [if_neg hback] at hat
      have := h.above _ _ (ih hc hat)
      rwa [List.dropLast_concat] at this

/-- Without links, a walk can end at one place only. -/
theorem IsPlain.leads (h : d.IsPlain) (hl : Leads d links p ns slash spot) :
    spot = ⟨descend p (ns.filter (· ≠ ".")), slash⟩ := by
  induction hl with
  | done => rfl
  | stay _ ih => simpa using ih
  | back _ ih => simpa [descend] using ih
  | last hn _ => simp [descend, hn.1, hn.2.1]
  | enter hn _ _ ih => simpa [descend, hn.1, hn.2.1] using ih
  | follow _ hat _ _ => exact absurd hat (h.linkless _ _)

theorem IsPlain.clear (h : d.IsPlain) (hl : Leads d links p ns slash spot)
    (hp : d.at? p = some .directory) : d.Clear p (ns.filter (· ≠ ".")) := by
  induction hl with
  | done => trivial
  | stay _ ih => simpa using ih hp
  | back _ ih => simpa [Clear, hp] using ih (h.tree.above _ _ hp)
  | last hn _ => simp [Clear, hn.1, hn.2.1]
  | enter hn hat _ ih => simpa [Clear, hn.1, hn.2.1] using ih hat
  | follow _ hat _ _ => exact absurd hat (h.linkless _ _)

/-- A walk along names of directories that are there goes on behind them, unless one of the names is
too long. -/
theorem IsTree.walk_append (h : d.IsTree) (hc : d.Clear p (ns.filter (· ≠ ".")))
    (hat : d.at? (descend p (ns.filter (· ≠ "."))) = some .directory) (ms : List String) :
    d.walk true links p (ns ++ ms) slash =
        d.walk true links (descend p (ns.filter (· ≠ "."))) ms slash ∨
      (∃ n ∈ ns, maxName < n.utf8ByteSize) ∧
        d.walk true links p (ns ++ ms) slash = .error .nameTooLong := by
  induction ns generalizing p with
  | nil => exact .inl rfl
  | cons n ns ih =>
    have hmore : (∃ m ∈ ns, maxName < m.utf8ByteSize) → ∃ m ∈ n :: ns, maxName < m.utf8ByteSize :=
      fun ⟨m, hm, hlong⟩ => ⟨m, List.mem_cons_of_mem _ hm, hlong⟩
    rw [List.cons_append, walk]
    by_cases hdot : n = "."
    · subst hdot
      rw [List.filter_cons_of_neg (by simp)] at hc hat ⊢
      rw [if_pos rfl]
      exact (ih hc hat).imp_right (And.imp_left hmore)
    rw [if_neg hdot]
    rw [List.filter_cons_of_pos (by simpa using hdot), Clear] at hc
    rw [List.filter_cons_of_pos (by simpa using hdot), descend] at hat ⊢
    by_cases hback : n = ".."
    · rw [if_pos hback] at hc hat ⊢
      rw [if_pos hback]
      exact (ih hc.2 hat).imp_right (And.imp_left hmore)
    rw [if_neg hback] at hc hat ⊢
    rw [if_neg hback]
    by_cases hlong : maxName < n.utf8ByteSize
    · exact .inr ⟨⟨n, List.mem_cons_self, hlong⟩, by rw [if_pos hlong]⟩
    · simp only [hlong, if_false, h.directory_of_clear hc hat]
      exact (ih hc hat).imp_right (And.imp_left hmore)

/-- A path that ends in the name of a file. -/
structure Filed (path f : String) : Prop where
  last : (Text.splitOn '/' path).getLast? = some f
  ne_empty : f ≠ ""
  ne_dot : f ≠ "."
  ne_back : f ≠ ".."

theorem Filed.pathNames (h : Filed path f) : ∃ back, Disk.pathNames path = back ++ [f] := by
  obtain ⟨init, hinit⟩ := List.getLast?_eq_some_iff.1 h.last
  refine ⟨init.filter (· ≠ ""), ?_⟩
  rw [Disk.pathNames, hinit, List.filter_append]
  simp [h.ne_empty]

theorem Filed.not_slash (h : Filed path f) : Path.endsInSlash path = false :=
  Path.not_slash_of_getLast h.last h.ne_empty

theorem Filed.path_ne (h : Filed path f) : path ≠ "" := by
  rintro rfl
  exact h.ne_empty (Option.some.inj h.last).symm

theorem Filed.parent (h : Filed path f) : ∃ above, Path.parent? path = some above ∧
    Path.fileName? path = some f ∧ Path.names path = Path.names above ++ [f] :=
  Path.parent_of_getLast h.last h.ne_empty h.ne_dot h.ne_back

/-- The place that a path leads to if it leads anywhere. -/
def placeOf (d : Disk) (path : String) : Place := descend (d.start path) (Path.names path)

/-- Whether a path leads back from directories only. -/
structure ClearTo (d : Disk) (path : String) : Prop where
  way : d.Clear (d.start path) (Path.names path)

/-- Whether a path leads to the file at its place if there is one. -/
def Seen (d : Disk) (path : String) : Prop :=
  ∀ content, d.at? (d.placeOf path) = some (.file content) → d.ClearTo path

/-- Whether a path and its names are short enough to be looked up. -/
def Fits (path : String) : Prop :=
  checkPath path = .ok () ∧ ∀ n ∈ Disk.pathNames path, n.utf8ByteSize ≤ maxName

/-- What lies below a path is there as that path is. -/
theorem placeOf_below {base : String} (hroot : Path.isRooted path = Path.isRooted base)
    (hnames : Path.names path = Path.names base ++ ns) (hback : ".." ∉ ns) (d : Disk) :
    d.placeOf path = d.placeOf base ++ ns ∧ (d.ClearTo path ↔ d.ClearTo base) := by
  have hstart : d.start path = d.start base := by rw [start, start, hroot]
  refine ⟨?_, ?_⟩
  · rw [placeOf, placeOf, hstart, hnames, descend_append, descend_of_notMem hback]
  · have hway : d.Clear (d.start path) (Path.names path) ↔
        d.Clear (d.start base) (Path.names base) := by
      rw [hstart, hnames, clear_append, and_iff_left (clear_of_notMem hback _ _)]
    exact ⟨fun h => ⟨hway.1 h.way⟩, fun h => ⟨hway.2 h.way⟩⟩

theorem IsPlain.place_of_locate (h : d.IsPlain) (hl : d.locate path = .ok spot) :
    spot.place = d.placeOf path := by
  obtain ⟨-, hl⟩ := locate_eq_ok_iff.1 hl
  rw [h.leads hl, placeOf, names_eq_filter]

theorem IsPlain.locate (h : d.IsPlain) (hp : Filed path f) (hl : d.locate path = .ok spot) :
    spot = ⟨d.placeOf path, false⟩ := by
  obtain ⟨-, hl⟩ := locate_eq_ok_iff.1 hl
  rw [h.leads hl, placeOf, names_eq_filter, hp.not_slash]

theorem IsPlain.clearTo (h : d.IsPlain) (hl : d.locate path = .ok spot) : d.ClearTo path := by
  obtain ⟨-, hl⟩ := locate_eq_ok_iff.1 hl
  constructor
  rw [names_eq_filter]
  exact h.clear hl (h.tree.start path)

/-- The directory that the last name of a path is looked for in. -/
theorem Filed.split (hp : Filed path f) (d : Disk) : ∃ back, Disk.pathNames path = back ++ [f] ∧
    d.placeOf path = descend (d.start path) (back.filter (· ≠ ".")) ++ [f] ∧
    (d.ClearTo path → d.Clear (d.start path) (back.filter (· ≠ "."))) := by
  obtain ⟨back, hnames⟩ := hp.pathNames
  have hplace : Path.names path = back.filter (· ≠ ".") ++ [f] := by
    rw [names_eq_filter, hnames, List.filter_append]
    simp [hp.ne_dot]
  refine ⟨back, hnames, ?_, ?_⟩
  · rw [placeOf, hplace, descend_append]
    simp [descend, hp.ne_back]
  · intro hc
    have hway := hc.way
    rw [hplace, clear_append] at hway
    exact hway.1

theorem fits_of_locate (hl : d.locate path = .ok spot) : Fits path := by
  obtain ⟨hcheck, hl⟩ := locate_eq_ok_iff.1 hl
  refine ⟨hcheck, ?_⟩
  intro n hn
  rcases hl.named n hn with rfl | rfl | hnamed
  · decide
  · decide
  · exact hnamed.2.2

theorem checkPath_ne_noEntry (hpath : path ≠ "") : checkPath path ≠ .error .noEntry := by
  rw [checkPath, if_neg hpath]
  split
  · exact nofun
  · split <;> exact nofun

/-- A file that is there is found, unless its path is too long, and is never missed. -/
theorem IsPlain.locate_of_file (h : d.IsPlain) (hp : Filed path f) (hc : d.ClearTo path)
    {content : Content} (hat : d.at? (d.placeOf path) = some (.file content)) :
    d.locate path = .ok ⟨d.placeOf path, false⟩ ∨
      ¬ Fits path ∧ ∃ e, e ≠ .noEntry ∧ d.locate path = .error e := by
  obtain ⟨back, hnames, hplace, hclear⟩ := hp.split d
  rw [hplace] at hat ⊢
  have hdir := h.tree.above _ _ hat
  rw [List.dropLast_concat] at hdir
  cases hcheck : checkPath path with
  | error e =>
    refine .inr ⟨fun hfits => ?_, e, ?_, ?_⟩
    · have := hfits.1
      rw [hcheck] at this
      cases this
    · rintro rfl
      exact checkPath_ne_noEntry hp.path_ne hcheck
    · rw [Disk.locate, hcheck]
      rfl
  | ok _ =>
    have hlocate : d.locate path =
        d.walk true maxLinks (d.start path) (Disk.pathNames path) (Path.endsInSlash path) := by
      rw [Disk.locate, hcheck]
      rfl
    rw [hlocate, hnames, hp.not_slash]
    rcases h.tree.walk_append (hclear hc) hdir [f] with hw | ⟨⟨n, hn, hlong⟩, hw⟩
    · rw [hw, walk, if_neg hp.ne_dot, if_neg hp.ne_back]
      by_cases hlong : maxName < f.utf8ByteSize
      · rw [if_pos hlong]
        refine .inr ⟨fun hfits => ?_, .nameTooLong, by decide, rfl⟩
        have := hfits.2 f (by simp [hnames])
        omega
      · rw [if_neg hlong]
        simp only [hat]
        exact .inl rfl
    · refine .inr ⟨fun hfits => ?_, .nameTooLong, by decide, hw⟩
      have := hfits.2 n (by simp [hnames, hn])
      omega

theorem IsPlain.isFile_iff (h : d.IsPlain) (hp : Filed path f) : d.isFile path = true ↔
    Fits path ∧ d.ClearTo path ∧ ∃ content, d.at? (d.placeOf path) = some (.file content) := by
  rw [isFile]
  constructor
  · intro hf
    split at hf
    · rename_i p content hr
      obtain ⟨slash, hl, hat, -⟩ := resolve_eq_ok_iff.1 hr
      have hclear := h.clearTo hl
      cases h.locate hp hl
      exact ⟨fits_of_locate hl, hclear, content, hat⟩
    · cases hf
  · rintro ⟨hfits, hclear, content, hat⟩
    rcases h.locate_of_file hp hclear hat with hl | ⟨hlong, -⟩
    · rw [resolve_eq_ok_iff.2 ⟨false, hl, hat, nofun⟩]
    · exact absurd hfits hlong

theorem IsPlain.resolve_ne_noEntry (h : d.IsPlain) (hp : Filed path f) (hc : d.ClearTo path)
    {content : Content} (hat : d.at? (d.placeOf path) = some (.file content)) :
    d.resolve path ≠ .error .noEntry := by
  rcases h.locate_of_file hp hc hat with hl | ⟨-, e, he, hl⟩
  · rw [resolve_eq_ok_iff.2 ⟨false, hl, hat, nofun⟩]
    exact nofun
  · simp [resolve, hl, bind, Except.bind, he]

end ArtifactCache.Disk
