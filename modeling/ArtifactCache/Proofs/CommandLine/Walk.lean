import ArtifactCache.CommandLine.Run
import ArtifactCache.Proofs.Files.Below
import Mathlib.Data.List.Lex
import Mathlib.Data.String.Basic

/-! The walk through the directories of a repository. It comes to every directory below the path that
has a file of the name that is looked for, to none twice, and in the order of the names on the way. -/
namespace ArtifactCache.CommandLine

variable {d : Disk} {home p q : Place} {base name : String} {directories : List Place}

theorem precedes_iff : precedes p q = true ↔ ¬ q < p := by
  induction p generalizing q with
  | nil => exact iff_of_true rfl (List.not_lt_nil q)
  | cons m ms ih =>
    cases q with
    | nil => exact iff_of_false nofun (not_not_intro (List.nil_lt_cons m ms))
    | cons n ns =>
      rw [List.cons_lt_cons_iff, precedes, Bool.or_eq_true, Bool.and_eq_true, ih,
        decide_eq_true_eq, decide_eq_true_eq]
      rcases lt_trichotomy m n with hlt | rfl | hlt
      · simp [hlt, hlt.asymm, hlt.ne']
      · simp
      · simp [hlt, hlt.asymm, hlt.ne']

/-- Places that are sorted are in order, and one that stands there once only is before the next. -/
theorem pairwise_mergeSort {places : List Place} (h : places.Nodup) :
    (places.mergeSort precedes).Pairwise (· < ·) := by
  have htrans : ∀ p q r, precedes p q = true → precedes q r = true → precedes p r = true := by
    simp only [precedes_iff, not_lt]
    exact fun _ _ _ => le_trans
  have htotal : ∀ p q, (precedes p q || precedes q p) = true := by
    simp only [Bool.or_eq_true, precedes_iff, not_lt]
    exact le_total
  have hsorted := List.pairwise_mergeSort htrans htotal places
  have hnodup := (List.mergeSort_perm places precedes).nodup_iff.2 h
  exact hsorted.imp₂ (fun p q hpq hne => lt_of_le_of_ne (not_lt.1 (precedes_iff.1 hpq)) hne) hnodup

theorem mem_filesNamed_iff : p ∈ filesNamed d home name ↔
    ∃ q content, p = q ++ [name] ∧ d.at? (home ++ (q ++ [name])) = some (.file content) := by
  rw [filesNamed, List.mem_filter, Disk.mem_namesBelow_iff, Bool.and_eq_true, decide_eq_true_eq,
    List.getLast?_eq_some_iff]
  constructor
  · rintro ⟨-, ⟨q, rfl⟩, hfile⟩
    split at hfile
    · rename_i content hat
      exact ⟨q, content, rfl, hat⟩
    · cases hfile
  · rintro ⟨q, content, rfl, hat⟩
    exact ⟨⟨by simp, _, hat⟩, ⟨q, rfl⟩, by rw [hat]⟩

theorem mem_directoriesWith_iff : q ∈ directoriesWith d home name ↔
    ∃ content, d.at? (home ++ (q ++ [name])) = some (.file content) := by
  rw [directoriesWith, List.mem_map]
  simp only [List.mem_mergeSort, mem_filesNamed_iff]
  constructor
  · rintro ⟨_, ⟨q, content, rfl, hat⟩, rfl⟩
    exact ⟨content, by rwa [List.dropLast_concat]⟩
  · rintro ⟨content, hat⟩
    exact ⟨_, ⟨q, content, rfl, hat⟩, List.dropLast_concat⟩

/-- The files that the walk meets, one in each of its directories. -/
theorem map_directoriesWith (d : Disk) (home : Place) (name : String) :
    (directoriesWith d home name).map (· ++ [name]) = (filesNamed d home name).mergeSort precedes := by
  have hsame : ∀ p ∈ (filesNamed d home name).mergeSort precedes, p.dropLast ++ [name] = p := by
    intro p hp
    obtain ⟨q, _, rfl, -⟩ := mem_filesNamed_iff.1 (List.mem_mergeSort.1 hp)
    rw [List.dropLast_concat]
  rw [directoriesWith, List.map_map]
  exact (List.map_congr_left hsame).trans (List.map_id' _)

theorem resolve_of_mem (h : q ∈ trackedDirectories d base name) :
    ∃ home, d.resolve base = .ok (home, .directory) ∧ q ∈ directoriesWith d home name := by
  rw [trackedDirectories] at h
  split at h
  · rename_i home hresolve
    exact ⟨home, hresolve, h⟩
  · cases h

theorem trackedDirectories_eq (h : d.resolve base = .ok (home, .directory)) (name : String) :
    trackedDirectories d base name = directoriesWith d home name := by
  rw [trackedDirectories, h]

/-- What it means that a walk below a path comes to directories: the path leads to a directory, and
they are those below it with a file of the given name in them, which are met in the order of the
names that lead to them. -/
structure Walked (d : Disk) (base name : String) (directories : List Place) : Prop where
  mem : ∀ q, q ∈ directories ↔ ∃ home content, d.resolve base = .ok (home, .directory) ∧
    d.at? (home ++ (q ++ [name])) = some (.file content)
  ordered : (directories.map (· ++ [name])).Pairwise (· < ·)

theorem trackedDirectories_walked (d : Disk) (base name : String) :
    Walked d base name (trackedDirectories d base name) where
  mem q := by
    constructor
    · intro hq
      obtain ⟨home, hresolve, hmem⟩ := resolve_of_mem hq
      obtain ⟨content, hat⟩ := mem_directoriesWith_iff.1 hmem
      exact ⟨home, content, hresolve, hat⟩
    · rintro ⟨home, content, hresolve, hat⟩
      rw [trackedDirectories_eq hresolve]
      exact mem_directoriesWith_iff.2 ⟨content, hat⟩
  ordered := by
    rw [trackedDirectories]
    split
    · rename_i home _
      rw [map_directoriesWith]
      exact pairwise_mergeSort ((Disk.nodup_namesBelow d home).filter _)
    · exact .nil

end ArtifactCache.CommandLine
