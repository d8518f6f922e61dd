import ArtifactCache.Proofs.Files.Lasting

/-! Files have names. A path without a name at its end leads to a directory, if it leads anywhere. -/
namespace ArtifactCache

variable {d : Disk} {path : String}

/-- A path without a name at its end has no names at all, or the last one leads back. -/
theorem Path.names_of_fileName_none (h : Path.fileName? path = none) :
    Path.names path = [] ∨ ∃ ns, Path.names path = ns ++ [".."] := by
  have hnames : Path.names path =
      ((Path.namesBack path).reverse.filter Path.proper).map String.ofList := by
    rw [Path.names_eq, Path.filter_namesBack]
  rw [Path.fileName?] at h
  cases hback : Path.namesBack path with
  | nil =>
    left
    rw [hnames, hback]
    rfl
  | cons n ns =>
    rw [hback] at h
    simp only [ite_eq_left_iff, reduceCtorEq, imp_false, not_not] at h
    rw [hback, List.reverse_cons, List.filter_append, List.map_append] at hnames
    rcases h with rfl | rfl
    · -- A single dot stays only where it is the whole path.
      have hidle := Path.isIdle_of_trimIdle hback
      obtain ⟨rfl, -⟩ : ns = [] ∧ Path.isRooted path = false := by simpa [Path.isIdle] using hidle
      left
      rw [hnames]
      rfl
    · exact .inr ⟨_, hnames⟩

/-- A path that leads to a file ends in a name. -/
theorem Disk.IsTree.fileName_of_isFile (hd : d.IsTree) (h : d.isFile path = true) :
    ∃ name, Path.fileName? path = some name := by
  obtain ⟨p, content, hl, hat⟩ := Disk.isFile_iff_locate.1 h
  obtain ⟨-, hleads⟩ := Disk.locate_eq_ok_iff.1 hl
  obtain ⟨s, hleads⟩ := Disk.leads_names hleads
  have hfile : d.at? p ≠ some .directory := by
    rw [hat]
    exact nofun
  cases hname : Path.fileName? path with
  | some name => exact ⟨name, rfl⟩
  | none =>
    exfalso
    apply hfile
    rcases Path.names_of_fileName_none hname with hnil | ⟨ns, hns⟩
    · rw [hnil] at hleads
      cases hleads
      exact hd.start path
    · rw [hns] at hleads
      obtain ⟨q, s', hback, hq⟩ := Disk.leads_init hd hleads (hd.start path)
      obtain ⟨links', hrest⟩ := Disk.leads_append hback hq (List.cons_ne_nil ".." [])
      cases hleads.eq (hrest true _ (.back .done))
      exact hd.above _ _ hq

end ArtifactCache
