import ArtifactCache.Proofs.Files.Path

/-! Relative paths that do not lead back, and what lies below a directory because it is written so. -/
namespace ArtifactCache.Path

variable {path base rel above name n s t : String} {c : Char}

theorem names_slash (s t : String) : names (s ++ "/" ++ t) = names s ++ names t := by
  simp [names_eq, properNames_append]

/-- Whether paths are read name by name, what stands before a slash apart from what stands behind. -/
def ReadsNames (read : String → List String) : Prop :=
  ∀ s t, read (s ++ "/" ++ t) = read s ++ read t

theorem readsNames_names : ReadsNames names := names_slash

theorem ReadsNames.join {read : String → List String} (h : ReadsNames read) {parts : List String}
    (hne : parts ≠ []) : read (Text.join "/" parts) = parts.flatMap read := by
  induction parts with
  | nil => exact absurd rfl hne
  | cons part parts ih =>
    cases parts with
    | nil => simp [Text.join]
    | cons next parts =>
      rw [Text.join, h, ih (List.cons_ne_nil _ _), ← List.flatMap_cons]
      exact List.cons_ne_nil _ _

theorem names_join_slash (parts : List String) :
    names (Text.join "/" parts) = parts.flatMap names := by
  cases parts with
  | nil => rfl
  | cons part parts => exact readsNames_names.join (List.cons_ne_nil _ _)

theorem mem_of_mem_names (hn : n ∈ names s) (hc : c ∈ n.toList) : c ∈ s.toList := by
  obtain ⟨cs, hcs, rfl⟩ := List.mem_map.1 (List.mem_filter.1 hn).1
  rw [String.toList_ofList] at hc
  exact Text.mem_of_mem_cut hcs hc

theorem names_ne_nil (hc : c ∈ s.toList) (hslash : c ≠ '/') (hdot : c ≠ '.') : names s ≠ [] := by
  obtain ⟨cs, hcs, hmem⟩ := Text.exists_mem_cut hc hslash
  have hproper : proper cs = true := by
    simp only [proper, Bool.and_eq_true, decide_eq_true_eq]
    constructor
    · rintro rfl
      cases hmem
    · rintro rfl
      exact hdot (List.mem_singleton.1 hmem)
  rw [names_eq, properNames, ne_eq, List.map_eq_nil_iff]
  exact List.ne_nil_of_mem (List.mem_filter.2 ⟨hcs, hproper⟩)

/-- A text without slashes is a name. -/
theorem names_eq_singleton (h : '/' ∉ s.toList) (hempty : s ≠ "") (hdot : s ≠ ".") : names s = [s] := by
  rw [names, Text.splitOn_eq_singleton h]
  simp [hempty, hdot]

/-- A text without slashes leads back only if it is the name that does. -/
theorem onward_of_notMem (h : '/' ∉ s.toList) (hback : s ≠ "..") : ".." ∉ names s := by
  rw [names, Text.splitOn_eq_singleton h]
  exact fun hmem => hback (List.mem_singleton.1 (List.mem_filter.1 hmem).1).symm

theorem exists_parent (h : names path ≠ []) : ∃ above, parent? path = some above := by
  cases hback : namesBack path with
  | nil =>
    rw [names_eq, ← filter_namesBack, hback] at h
    exact absurd rfl h
  | cons n ns => exact ⟨_, by rw [parent?, hback]⟩

theorem names_of_parent_of_names (h : parent? path = some above) (hne : names path ≠ []) :
    ∃ n, names path = names above ++ [n] := by
  by_cases habove : above = ""
  · obtain ⟨n, -, hnames⟩ := names_of_parent h
    rw [hnames] at hne ⊢
    cases hn : [n].filter proper with
    | nil => simp [hn, habove, names_eq, properNames_nil] at hne
    | cons m ms =>
      obtain ⟨rfl, rfl⟩ : m = n ∧ ms = [] := by
        by_cases hproper : proper n = true
        · simpa [List.filter_cons_of_pos hproper, eq_comm] using hn
        · simp [List.filter_cons_of_neg hproper] at hn
      exact ⟨_, rfl⟩
  · exact names_of_parent_ne h habove

/-- A relative path that does not lead back. -/
def Inward (rel : String) : Prop := isRooted rel = false ∧ ".." ∉ names rel

instance : Decidable (Inward rel) := inferInstanceAs (Decidable (_ ∧ _))

/-- Whether a path is that of a directory with further names behind it, none of which leads back. -/
def Below (base path : String) : Prop :=
  isRooted path = isRooted base ∧ ∃ ns, ns ≠ [] ∧ ".." ∉ ns ∧ names path = names base ++ ns

theorem Inward.below (h : Inward rel) (hne : names rel ≠ []) (base : String) :
    Below base (join base rel) :=
  ⟨isRooted_join h.1, names rel, hne, h.2, names_join h.1⟩

/-- What lies beside a file that lies below a directory lies below it too. -/
theorem Below.beside (h : Below base path) (hroot : isRooted name = false)
    (hnames : names name = [n]) (hback : n ≠ "..") :
    ∃ above, parent? path = some above ∧ Below base (join above name) := by
  obtain ⟨hrooted, ns, hne, hns, hpath⟩ := h
  obtain ⟨before, last, rfl⟩ := (List.eq_nil_or_concat' ns).resolve_left hne
  have hsome : names path ≠ [] := by simp [hpath]
  obtain ⟨above, habove⟩ := exists_parent hsome
  obtain ⟨m, hm⟩ := names_of_parent_of_names habove hsome
  have hsplit : names above = names base ++ before := by
    rw [hpath, ← List.append_assoc] at hm
    exact (List.append_inj' hm rfl).1.symm
  refine ⟨above, habove, ?_, before ++ [n], by simp, ?_, ?_⟩
  · rw [isRooted_join hroot, isRooted_of_parent habove, hrooted]
  · rw [List.mem_append, List.mem_singleton, not_or]
    exact ⟨fun hmem => hns (List.mem_append_left _ hmem), Ne.symm hback⟩
  · rw [names_join hroot, hsplit, hnames, List.append_assoc]

end ArtifactCache.Path
