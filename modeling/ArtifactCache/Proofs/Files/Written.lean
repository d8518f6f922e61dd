import ArtifactCache.Proofs.Files.Inward

/-! When two paths are apart, so that neither is the other or that of a directory above it. -/
namespace ArtifactCache.Path

variable {α : Type} {xs ys : List α} {a b : α} {p q : String}

/-- Whether neither of two lists continues the other. -/
def Forks (xs ys : List α) : Prop := ¬ xs <+: ys ∧ ¬ ys <+: xs

instance [DecidableEq α] : Decidable (Forks xs ys) := inferInstanceAs (Decidable (_ ∧ _))

theorem Forks.symm (h : Forks xs ys) : Forks ys xs := ⟨h.2, h.1⟩

theorem forks_singleton (h : a ≠ b) : Forks [a] [b] := by
  simp [Forks, h, Ne.symm h]

/-- What has forked does not come together again. -/
theorem Forks.append (h : Forks xs ys) (s t : List α) : Forks (xs ++ s) (ys ++ t) := by
  have hnot : ∀ {xs ys s t : List α}, Forks xs ys → ¬ xs ++ s <+: ys ++ t := by
    intro xs ys s t h hprefix
    rcases List.prefix_or_prefix_of_prefix ((List.prefix_append xs s).trans hprefix)
      (List.prefix_append ys t) with hxs | hys
    · exact h.1 hxs
    · exact h.2 hys
  exact ⟨hnot h, hnot h.symm⟩

theorem Forks.under (h : Forks xs ys) (s : List α) : Forks (s ++ xs) (s ++ ys) := by
  simpa [Forks] using h

/-- Whether a path is that of another one or of a directory above it, as the two are written. -/
def Holds (p q : String) : Prop := q = p ∨ ∃ rest, q = p ++ "/" ++ rest

/-- Whether neither of two paths is the other or that of a directory above it. -/
def Separate (p q : String) : Prop := ¬ Holds p q ∧ ¬ Holds q p

theorem readsNames_splitOn : ReadsNames (Text.splitOn '/') := Text.splitOn_append '/'

theorem holds_iff : Holds p q ↔ Text.splitOn '/' p <+: Text.splitOn '/' q := by
  constructor
  · rintro (rfl | ⟨rest, rfl⟩)
    · exact List.prefix_rfl
    · rw [readsNames_splitOn]
      exact List.prefix_append _ _
  · rintro ⟨rest, hrest⟩
    by_cases hnil : rest = []
    · rw [hnil, List.append_nil] at hrest
      exact .inl (Text.splitOn_inj.1 hrest).symm
    · have hslash : ∀ n ∈ rest, '/' ∉ n.toList := fun n hn =>
        Text.sep_notMem_of_mem_splitOn (hrest ▸ List.mem_append_right _ hn)
      refine .inr ⟨Text.join "/" rest, (@Text.splitOn_inj '/' _ _).1 ?_⟩
      rw [readsNames_splitOn, ← hrest]
      exact congrArg _ (Text.splitOn_join hnil hslash).symm

theorem separate_iff : Separate p q ↔ Forks (Text.splitOn '/' p) (Text.splitOn '/' q) := by
  rw [Separate, holds_iff, holds_iff, Forks]

instance : Decidable (Separate p q) := decidable_of_iff _ separate_iff.symm

end ArtifactCache.Path
