import ArtifactCache.Proofs.Files.Walk

/-! Disks in order: what is above an entry is a directory. Every operation keeps them so, and making
directories changes nothing that is there. -/
namespace ArtifactCache.Disk

variable {d d' : Disk} {links : Nat} {p q : Place} {ns : List String} {slash : Bool} {spot : Spot}
  {path : String} {paths : List String}

/-- A disk in order. -/
structure IsTree (d : Disk) : Prop where
  current : d.at? d.current = some .directory
  above : ∀ p e, d.at? p = some e → d.at? p.dropLast = some .directory

/-- A disk is in order if what is above each of its entries is a directory. -/
theorem isTree_of_entries (hcurrent : d.at? d.current = some .directory)
    (h : ∀ x ∈ d.entries, d.at? x.1.dropLast = some .directory) : d.IsTree := by
  refine ⟨hcurrent, ?_⟩
  intro p e hp
  by_cases hnil : p = []
  · rw [hnil]
    rfl
  · rw [at?, if_neg hnil] at hp
    obtain ⟨before, after, hentries, -⟩ := List.lookup_eq_some_iff.1 hp
    exact h (p, e) (by simp [hentries])

/-- The disk with one file. -/
def single (p : Place) (content : Content) : Disk :=
  ⟨(p, .file content) :: p.inits.dropLast.map fun q => (q, .directory), []⟩

/-- Whether one disk is another one with more directories. -/
structure Grown (d d' : Disk) : Prop where
  current : d'.current = d.current
  entry : ∀ p, d'.at? p = d.at? p ∨ (d.at? p = none ∧ d'.at? p = some .directory)

theorem Grown.refl (d : Disk) : Grown d d := ⟨rfl, fun _ => .inl rfl⟩

theorem Grown.trans {d'' : Disk} (h : Grown d d') (h' : Grown d' d'') : Grown d d'' := by
  refine ⟨h'.current.trans h.current, ?_⟩
  intro p
  rcases h.entry p with hp | ⟨hnone, hdir⟩
  · rw [← hp]
    exact h'.entry p
  · rcases h'.entry p with hp' | ⟨hnone', -⟩
    · exact .inr ⟨hnone, hp'.trans hdir⟩
    · rw [hdir] at hnone'
      cases hnone'

theorem Grown.eq_of_some (h : Grown d d') {e : Entry} (hp : d.at? p = some e) :
    d'.at? p = some e := by
  rcases h.entry p with heq | ⟨hnone, -⟩
  · rw [heq, hp]
  · rw [hp] at hnone
    cases hnone

/-- Making directories puts no file anywhere. -/
theorem Grown.eq_of_file (h : Grown d d') {content : Content}
    (hp : d'.at? p = some (.file content)) : d.at? p = some (.file content) := by
  rcases h.entry p with heq | ⟨-, hdir⟩
  · rw [← heq, hp]
  · rw [hp] at hdir
    cases hdir

theorem Grown.file_iff (h : Grown d d') (p : Place) (content : Content) :
    d'.at? p = some (.file content) ↔ d.at? p = some (.file content) :=
  ⟨h.eq_of_file, h.eq_of_some⟩

theorem Grown.ends_back (h : Grown d d') (hend : d'.Ends p) : d.Ends p := by
  rcases h.entry p with heq | ⟨hnone, -⟩
  · rwa [Ends, heq] at hend
  · exact .inl hnone

theorem IsTree.start (h : d.IsTree) (path : String) : d.at? (d.start path) = some .directory := by
  rw [Disk.start]
  split
  · rfl
  · exact h.current

/-- A walk ends at a directory, or in a directory at a file or a place where nothing is. -/
theorem IsTree.leads (h : d.IsTree) (hw : Leads d links p ns slash spot)
    (hp : d.at? p = some .directory) : d.at? spot.place = some .directory ∨
      d.Ends spot.place ∧ d.at? spot.place.dropLast = some .directory := by
  induction hw with
  | done => exact .inl hp
  | stay _ ih => exact ih hp
  | back _ ih => exact ih (h.above _ _ hp)
  | last _ he => exact .inr ⟨he, by simpa using hp⟩
  | enter _ hdir _ ih => exact ih hdir
  | follow _ _ _ ih =>
    apply ih
    split
    · rfl
    · exact hp

theorem ne_nil_of_not_directory (h : d.at? p ≠ some .directory) : p ≠ [] := by
  rintro rfl
  exact h rfl

theorem IsTree.put (h : d.IsTree) (hp : d.at? p ≠ some .directory)
    (habove : d.at? p.dropLast = some .directory) (e : Entry) : (d.put p e).IsTree := by
  have hkeep : ∀ q, d.at? q = some .directory → (d.put p e).at? q = some .directory := by
    intro q hq
    have hne : q ≠ p := fun heq => hp (heq ▸ hq)
    rw [at?_put _ _ _ _ (ne_nil_of_not_directory hp), if_neg hne, hq]
  refine ⟨hkeep _ h.current, ?_⟩
  intro q f hq
  rw [at?_put _ _ _ _ (ne_nil_of_not_directory hp)] at hq
  split at hq
  · rename_i heq
    rw [heq]
    exact hkeep _ habove
  · exact hkeep _ (h.above q f hq)

theorem IsTree.erase (h : d.IsTree) (hp : d.at? p ≠ some .directory) : (d.erase p).IsTree := by
  have hkeep : ∀ q, d.at? q = some .directory → (d.erase p).at? q = some .directory := by
    intro q hq
    have hne : q ≠ p := fun heq => hp (heq ▸ hq)
    rw [at?_erase _ _ _ (ne_nil_of_not_directory hp), if_neg hne, hq]
  refine ⟨hkeep _ h.current, ?_⟩
  intro q f hq
  rw [at?_erase _ _ _ (ne_nil_of_not_directory hp)] at hq
  split at hq
  · cases hq
  · exact hkeep _ (h.above q f hq)

theorem grown_put (h : d.at? p = none) : Grown d (d.put p .directory) := by
  have hne : p ≠ [] := ne_nil_of_not_directory (by rw [h]; exact nofun)
  refine ⟨rfl, ?_⟩
  intro q
  rw [at?_put _ _ _ _ hne]
  split
  · rename_i heq
    exact .inr ⟨heq ▸ h, rfl⟩
  · exact .inl rfl

theorem makeDirectory_grown (hd : d.IsTree) (h : d.makeDirectory path = .ok d') :
    Grown d d' ∧ d'.IsTree := by
  obtain ⟨dir, n, slash, hseat, hat, rfl⟩ := makeDirectory_ok h
  refine ⟨grown_put hat, hd.put (by rw [hat]; exact nofun) ?_ _⟩
  rw [List.dropLast_concat]
  exact (seat_ok hseat).2.1

theorem makeAll_grown (hd : d.IsTree) (paths : List String) :
    Grown d (d.makeAll paths).1 ∧ (d.makeAll paths).1.IsTree := by
  induction paths with
  | nil => exact ⟨.refl d, hd⟩
  | cons path above ih =>
    rw [makeAll]
    split
    · exact ⟨.refl d, hd⟩
    split
    · rename_i d' hmake
      exact makeDirectory_grown hd hmake
    rename_i e hmake
    split
    · split
      · rename_i d' e' habove
        rw [habove] at ih
        exact ih
      · rename_i d' habove
        rw [habove] at ih
        split
        · rename_i d'' hmake'
          have hlast := makeDirectory_grown ih.2 hmake'
          exact ⟨ih.1.trans hlast.1, hlast.2⟩
        · exact ih
    · exact ⟨.refl d, hd⟩

theorem makeDirectories_grown (hd : d.IsTree) (path : String) :
    Grown d (d.makeDirectories path).1 ∧ (d.makeDirectories path).1.IsTree :=
  makeAll_grown hd _

theorem Grown.leads (h : Grown d d') (hl : Leads d links p ns slash spot)
    (hat : d.at? spot.place ≠ none) : Leads d' links p ns slash spot := by
  refine leads_congr hl ?_ ?_
  · intro q hq
    rcases h.entry q with heq | ⟨hnone, -⟩
    · exact heq
    · exact absurd (.inl hnone) hq
  · rintro (hnone | ⟨content, hfile⟩)
    · exact absurd hnone hat
    · exact .inr ⟨content, h.eq_of_some hfile⟩

/-- What a path leads to stays where it is when directories are made. -/
theorem Grown.locate (h : Grown d d') (hl : d.locate path = .ok spot)
    (hat : d.at? spot.place ≠ none) : d'.locate path = .ok spot := by
  rw [locate_eq_ok_iff] at hl ⊢
  refine ⟨hl.1, ?_⟩
  rw [Disk.start, h.current]
  exact h.leads hl.2 hat

/-- A path leads to the file that was put where it led. -/
theorem locate_put (hl : d.locate path = .ok spot) (hend : d.Ends spot.place) (content : Content) :
    (d.put spot.place (.file content)).locate path = .ok spot := by
  rw [locate_eq_ok_iff] at hl ⊢
  refine ⟨hl.1, leads_congr hl.2 ?_ ?_⟩
  · intro q hq
    have hne : q ≠ spot.place := fun heq => hq (heq ▸ hend)
    rw [at?_put _ _ _ _ hend.ne_nil, if_neg hne]
  · intro _
    exact .inr ⟨content, by rw [at?_put _ _ _ _ hend.ne_nil, if_pos rfl]⟩

end ArtifactCache.Disk
