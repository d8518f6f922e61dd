import ArtifactCache.Proofs.Files.Making
import ArtifactCache.Repository.Local

/-! Where a local repository lies. The path of one that is there when it is located does not lead
back. -/
namespace ArtifactCache

open Disk (Leads pathNames placePath)

variable {d : Disk} {links : Nat} {p : Place} {n : String} {ns : List String} {slash : Bool}
  {spot : Disk.Spot} {path contentType : String} {r : LocalRepository}

/-- Whether a name is one of a place. -/
def IsPlaceName (n : String) : Prop := n ≠ ".." ∧ '/' ∉ n.toList

theorem slash_notMem_of_mem_pathNames (h : n ∈ pathNames path) : '/' ∉ n.toList :=
  Text.sep_notMem_of_mem_splitOn (List.mem_filter.1 h).1

theorem isPlaceName_concat (hp : ∀ m ∈ p, IsPlaceName m) (hn : IsPlaceName n) :
    ∀ m ∈ p ++ [n], IsPlaceName m := by
  intro m hm
  rcases List.mem_append.1 hm with hm | hm
  · exact hp m hm
  · rw [List.mem_singleton.1 hm]
    exact hn

/-- A walk arrives at a place without names that lead back. -/
theorem leads_isPlaceName (h : Leads d links p ns slash spot) (hns : ∀ n ∈ ns, '/' ∉ n.toList)
    (hp : ∀ n ∈ p, IsPlaceName n) : ∀ n ∈ spot.place, IsPlaceName n := by
  induction h with
  | done => exact hp
  | stay _ ih => exact ih (fun n hn => hns n (List.mem_cons_of_mem _ hn)) hp
  | back _ ih =>
    exact ih (fun n hn => hns n (List.mem_cons_of_mem _ hn))
      fun n hn => hp n ((List.dropLast_sublist _).subset hn)
  | last hn _ => exact isPlaceName_concat hp ⟨hn.2.1, hns _ List.mem_cons_self⟩
  | enter hn _ _ ih =>
    exact ih (fun n hn => hns n (List.mem_cons_of_mem _ hn))
      (isPlaceName_concat hp ⟨hn.2.1, hns _ List.mem_cons_self⟩)
  | follow hn _ _ ih =>
    apply ih
    · intro n hn
      rcases List.mem_append.1 hn with hn | hn
      · exact slash_notMem_of_mem_pathNames hn
      · exact hns n (List.mem_cons_of_mem _ hn)
    · split
      · exact nofun
      · exact hp

/-- The path of a place has no other names than the place. -/
theorem mem_of_mem_names_placePath (h : ∀ n ∈ p, '/' ∉ n.toList)
    (hn : n ∈ Path.names (placePath p)) : n ∈ p := by
  have hpath : placePath p = Path.ofNamesBack true (p.map String.toList).reverse := by
    simp [placePath, Path.ofNamesBack, Function.comp_def]
  have hslash : ∀ cs ∈ (p.map String.toList).reverse, '/' ∉ cs := by
    intro cs hcs
    obtain ⟨m, hm, rfl⟩ := List.mem_map.1 (List.mem_reverse.1 hcs)
    exact h m hm
  rw [hpath, Path.names_ofNamesBack hslash, List.reverse_reverse] at hn
  obtain ⟨cs, hcs, rfl⟩ := List.mem_map.1 hn
  obtain ⟨m, hm, rfl⟩ := List.mem_map.1 (List.mem_filter.1 hcs).1
  rwa [String.ofList_toList]

theorem isRooted_absolute (p : Place) (path : String) :
    Path.isRooted (Path.absolute (placePath p) path) = true := by
  have hnames : ∀ n ∈ Path.names path, '/' ∉ n.toList :=
    fun n hn => Path.slash_notMem_of_mem_names hn
  have hplace : Path.isRooted (placePath p) = true := by
    rw [Path.isRooted_iff, placePath, String.toList_append]
    rfl
  have hempty : ∀ base, Path.isRooted (Path.join base "") = Path.isRooted base :=
    fun base => Path.isRooted_join (by decide)
  have hstart : Path.isRooted (if Text.startsWith path "//" && !Text.startsWith path "///" then "//"
      else if Path.isRooted path then "/" else placePath p) = true := by
    split
    · decide
    · split
      · decide
      · exact hplace
  rw [Path.absolute]
  split
  · rw [hempty, Path.isRooted_foldl_join hnames, hstart]
  · rw [Path.isRooted_foldl_join hnames, hstart]

/-- The path of a repository that was there when it was located does not lead back. -/
theorem LocalRepository.locate_not_back
    (h : LocalRepository.locate d path contentType = .ok r)
    (hdir : d.isDirectory (Path.absolute (placePath d.current) path) = true) :
    ".." ∉ Path.names r.base := by
  rw [LocalRepository.locate] at h
  split at h
  · cases h
  obtain ⟨p, slash, hl, hat⟩ := Disk.isDirectory_iff.1 hdir
  have hresolve := Disk.resolve_eq_ok_iff.2 ⟨slash, hl, hat, fun _ => rfl⟩
  simp only [hresolve] at h
  cases h
  obtain ⟨-, hleads⟩ := Disk.locate_eq_ok_iff.1 hl
  rw [Disk.start, isRooted_absolute, if_pos rfl] at hleads
  have hnames := leads_isPlaceName hleads (fun n hn => slash_notMem_of_mem_pathNames hn)
    (List.forall_mem_nil _)
  intro hmem
  exact (hnames _ (mem_of_mem_names_placePath (fun n hn => (hnames n hn).2) hmem)).1 rfl

end ArtifactCache
