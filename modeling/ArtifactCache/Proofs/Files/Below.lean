import ArtifactCache.Proofs.Files.Walk
import Mathlib.Data.List.Nodup

/-! What lies below a place on a disk. All that is there is listed, and each place once. -/
namespace ArtifactCache.Disk

variable {α : Type} {d : Disk} {p q : Place} {ns : List String} {e : Entry}

theorem mem_places_of_at? (hp : p ≠ []) (hat : d.at? p = some e) : p ∈ d.entries.map (·.1) := by
  rw [at?, if_neg hp] at hat
  obtain ⟨before, after, hentries, -⟩ := List.lookup_eq_some_iff.1 hat
  simp [hentries]

theorem at?_of_mem_places (h : p ∈ d.entries.map (·.1)) : ∃ e, d.at? p = some e := by
  by_cases hp : p = []
  · exact ⟨.directory, by rw [hp, at?_nil]⟩
  · rw [at?, if_neg hp]
    cases hlookup : d.entries.lookup p with
    | some e => exact ⟨e, rfl⟩
    | none =>
      obtain ⟨x, hx, rfl⟩ := List.mem_map.1 h
      simpa using List.lookup_eq_none_iff.1 hlookup x hx

/-- A place that is written behind another one is some names away from it. -/
theorem drop_eq_some_iff : (if p.isPrefixOf q && p.length < q.length then some (q.drop p.length)
    else none) = some ns ↔ ns ≠ [] ∧ q = p ++ ns := by
  rw [Option.ite_none_right_eq_some, Bool.and_eq_true, List.isPrefixOf_iff_prefix,
    decide_eq_true_eq, Option.some.injEq]
  constructor
  · rintro ⟨⟨⟨rest, rfl⟩, hlength⟩, rfl⟩
    rw [List.drop_left]
    refine ⟨?_, rfl⟩
    rintro rfl
    simp at hlength
  · rintro ⟨hne, rfl⟩
    have hlength : 0 < ns.length := List.length_pos_iff.2 hne
    exact ⟨⟨List.prefix_append _ _, by simpa using hlength⟩, List.drop_left⟩

theorem mem_namesBelow_iff : ns ∈ d.namesBelow p ↔ ns ≠ [] ∧ ∃ e, d.at? (p ++ ns) = some e := by
  rw [namesBelow, List.mem_filterMap]
  simp only [List.mem_eraseDups, drop_eq_some_iff]
  constructor
  · rintro ⟨_, hq, hne, rfl⟩
    exact ⟨hne, at?_of_mem_places hq⟩
  · rintro ⟨hne, e, hat⟩
    exact ⟨_, mem_places_of_at? (by simp [hne]) hat, hne, rfl⟩

theorem mem_below_iff : (ns, e) ∈ d.below p ↔ ns ≠ [] ∧ d.at? (p ++ ns) = some e := by
  rw [below, List.mem_filterMap]
  simp only [Option.map_eq_some_iff, Prod.mk.injEq, mem_namesBelow_iff]
  constructor
  · rintro ⟨_, ⟨hne, -⟩, _, hat, rfl, rfl⟩
    exact ⟨hne, hat⟩
  · rintro ⟨hne, hat⟩
    exact ⟨ns, ⟨hne, e, hat⟩, e, hat, rfl, rfl⟩

/-- A list of which only the first of equal members is kept has none twice. -/
theorem nodup_eraseDups [BEq α] [LawfulBEq α] (xs : List α) : xs.eraseDups.Nodup := by
  cases xs with
  | nil => exact .nil
  | cons x xs =>
    rw [List.eraseDups_cons, List.nodup_cons]
    exact ⟨by simp [List.mem_eraseDups], nodup_eraseDups _⟩
termination_by xs.length
decreasing_by exact Nat.lt_succ_of_le (List.length_filter_le _ _)

theorem nodup_namesBelow (d : Disk) (p : Place) : (d.namesBelow p).Nodup := by
  refine (nodup_eraseDups _).filterMap ?_
  intro q q' ns hq hq'
  rw [(drop_eq_some_iff.1 hq).2, (drop_eq_some_iff.1 hq').2]

end ArtifactCache.Disk
