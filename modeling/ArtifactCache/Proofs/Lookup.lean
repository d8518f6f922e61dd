import Mathlib.Data.List.Basic

/-! Looking up keys in a list of entries. -/
namespace ArtifactCache.Lookup

variable {α β : Type} [BEq α] [LawfulBEq α] [DecidableEq α]

theorem lookup_cons_eq (e : α × β) (es : List (α × β)) (j : α) :
    (e :: es).lookup j = if j = e.1 then some e.2 else es.lookup j := by
  rw [List.lookup_cons]
  by_cases hj : j = e.1
  · simp [hj]
  · have hne : (j == e.1) = false := by simpa using hj
    simp [hj, hne]

theorem lookup_filter_ne (es : List (α × β)) (k j : α) :
    (es.filter fun e => e.1 ≠ k).lookup j = if j = k then none else es.lookup j := by
  induction es with
  | nil => simp
  | cons e es ih =>
    by_cases he : e.1 = k
    · rw [List.filter_cons_of_neg (by simp [he]), ih, lookup_cons_eq, he]
      split <;> rfl
    · rw [List.filter_cons_of_pos (by simp [he]), lookup_cons_eq, lookup_cons_eq, ih]
      by_cases hj : j = e.1
      · simp [hj, he]
      · simp [hj]

end ArtifactCache.Lookup
