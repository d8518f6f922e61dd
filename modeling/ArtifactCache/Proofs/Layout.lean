import ArtifactCache.Proofs.Layout.DocumentName
import ArtifactCache.Proofs.Version

/-! Where the paths of the layout start, and the names they are made of. -/
namespace ArtifactCache.Layout

open ArtifactCache.Path (names isRooted)
open Version (BuildTime Timed base snapshotWord base_of_timed base_of_not_timed base_base
  base_eq_self_iff)

variable {a : Artifact} {x : Metadata} {naming : Naming} {group key key' part s t : String}

theorem dot_notMem_groupPath (group : String) : '.' ∉ (groupPath group).toList := by
  simp only [groupPath, Text.replaceChar, String.toList_ofList, List.mem_map, not_exists, not_and]
  intro c _
  split <;> simp [*]

/-- The directories of a group never lead back. -/
theorem groupPath_onward (group : String) : ".." ∉ names (groupPath group) :=
  fun h => dot_notMem_groupPath group (Path.mem_of_mem_names h (by decide))

theorem isRooted_groupPath : isRooted (groupPath group) = true ↔
    group.toList.head? = some '.' ∨ group.toList.head? = some '/' := by
  rw [Path.isRooted_iff, groupPath, Text.replaceChar, String.toList_ofList, List.head?_map]
  cases group.toList.head? with
  | none => simp
  | some c =>
    by_cases hc : c = '.' <;> simp [hc]

theorem groupPath_eq_empty : groupPath group = "" ↔ group = "" := by
  rw [← String.toList_eq_nil_iff, groupPath, Text.replaceChar, String.toList_ofList,
    List.map_eq_nil_iff, String.toList_eq_nil_iff]

/-- The name of an artifact's file. -/
def fileName (a : Artifact) (naming : Naming) : String :=
  a.name ++ "-" ++ fileVersion a naming ++ suffix a

theorem artifactPath_eq (a : Artifact) (naming : Naming) : artifactPath a naming =
    groupPath a.group ++ "/" ++ (a.name ++ "/" ++ (a.base ++ "/" ++ fileName a naming)) := by
  simp [artifactPath, fileName, String.append_assoc]

theorem names_artifactPath (a : Artifact) (naming : Naming) : names (artifactPath a naming) =
    names (groupPath a.group) ++
      (names a.name ++ (names a.base ++ names (fileName a naming))) := by
  rw [artifactPath_eq, Path.names_slash, Path.names_slash, Path.names_slash]

theorem dash_mem_fileName (a : Artifact) (naming : Naming) : '-' ∈ (fileName a naming).toList := by
  simp [fileName]

theorem names_fileName_ne_nil (a : Artifact) (naming : Naming) : names (fileName a naming) ≠ [] :=
  Path.names_ne_nil (dash_mem_fileName a naming) (by decide) (by decide)

theorem slash_notMem_suffix (hclassifier : '/' ∉ a.classifier.toList)
    (hextension : '/' ∉ a.extension.toList) : '/' ∉ (suffix a).toList := by
  rw [suffix]
  split <;> split <;> simp [*]

theorem isRooted_artifactPath (h : a.group ≠ "") (naming : Naming) :
    isRooted (artifactPath a naming) = true ↔
      a.group.toList.head? = some '.' ∨ a.group.toList.head? = some '/' := by
  rw [artifactPath_eq, String.append_assoc, Path.isRooted_append (mt groupPath_eq_empty.1 h),
    isRooted_groupPath]

/-- A file is installed under the name that a download of its base version has. -/
theorem artifactPath_base (a : Artifact) :
    artifactPath a .installed = artifactPath { a with version := a.base } .downloaded := by
  have hbase : Artifact.base { a with version := a.base } = a.base := Version.base_base a.version
  simp only [artifactPath, fileVersion, suffix, hbase]

theorem artifactPath_installed_eq_iff (a : Artifact) :
    artifactPath a .installed = artifactPath a .downloaded ↔ a.base = a.version := by
  simp only [artifactPath, fileVersion, String.append_left_inj, String.append_right_inj]

/-- Versions and the names of files. A version is taken apart in one way at most into a build time and
what stands before it; its base version has the snapshot word in the place of the time, and is the
version itself where there is none. An artifact is installed under the path that its base version is
downloaded to, and under the path that it is downloaded to itself just if its version has no build
time. -/
theorem artifactPath_namings (v : String) (a : Artifact) :
    (∀ stem t, Timed v stem t → (∀ stem' t', Timed v stem' t' → stem' = stem ∧ t' = t) ∧
      base v = stem ++ snapshotWord) ∧
    ((∀ stem t, ¬ Timed v stem t) → base v = v) ∧
    base (base v) = base v ∧
    artifactPath a .installed = artifactPath { a with version := base a.version } .downloaded ∧
    (artifactPath a .installed = artifactPath a .downloaded ↔
      ∀ stem t, ¬ Timed a.version stem t) := by
  refine ⟨?_, base_of_not_timed, base_base v, artifactPath_base a, ?_⟩
  · intro stem t h
    exact ⟨fun stem' t' => h.unique, base_of_timed h⟩
  · rw [artifactPath_installed_eq_iff]
    exact base_eq_self_iff

theorem artifactPath_namings_serial :
    let time : BuildTime := ⟨"20240101".toList, "120000".toList, "3".toList, by decide, by decide,
      by decide, by simp⟩
    Timed "1-20240101.120000-3" "1-" time ∧ base "1-20240101.120000-3" = "1-SNAPSHOT" ∧
      (∀ stem t, ¬ Timed "120240101.120000-3" stem t) ∧
      base "120240101.120000-3" = "120240101.120000-3" := by
  intro time
  have htime : Timed "1-20240101.120000-3" "1-" time := ⟨by decide, by decide⟩
  have hplain : ∀ stem t, ¬ Timed "120240101.120000-3" stem t := base_eq_self_iff.1 (by decide)
  let a : Artifact := ⟨"g", "a", "", "jar", "1"⟩
  exact ⟨htime, ((artifactPath_namings _ a).1 _ _ htime).2, hplain,
    (artifactPath_namings _ a).2.1 hplain⟩

theorem names_directory (part s : String) : names (directory part ++ s) = names part ++ names s := by
  rw [directory]
  split
  next hpart => simp [hpart, Path.names_eq, Path.properNames_nil]
  next => rw [Path.names_slash]

theorem isRooted_directory (h : isRooted s = isRooted t) (part : String) :
    isRooted (directory part ++ s) = isRooted (part ++ t) := by
  rw [directory]
  split
  next hpart => simpa [hpart] using h
  next hpart => rw [String.append_assoc, Path.isRooted_append hpart, Path.isRooted_append hpart]

theorem metadataPath_eq (x : Metadata) (key : String) : metadataPath x key =
    directory (groupPath x.group) ++ (directory x.name ++
      (directory x.version ++ documentName x key)) := by
  simp [metadataPath, documentName, String.append_assoc]

theorem names_metadataPath (x : Metadata) (key : String) : names (metadataPath x key) =
    names (groupPath x.group) ++
      (names x.name ++ (names x.version ++ names (documentName x key))) := by
  rw [metadataPath_eq, names_directory, names_directory, names_directory]

theorem isRooted_metadataPath (x : Metadata) (key : String) :
    isRooted (metadataPath x key) = true ↔ x.group.toList.head? = some '.' ∨
      (x.group ++ (x.name ++ (x.version ++ x.type))).toList.head? = some '/' := by
  have hpath : isRooted (metadataPath x key) =
      isRooted (groupPath x.group ++ (x.name ++ (x.version ++ x.type))) := by
    rw [metadataPath_eq]
    exact isRooted_directory (isRooted_directory (isRooted_directory
      (isRooted_documentName x key) _) _) _
  rw [hpath]
  by_cases hgroup : x.group = ""
  · rw [groupPath_eq_empty.2 hgroup, hgroup, String.empty_append, Path.isRooted_iff]
    simp
  · rw [Path.isRooted_append (mt groupPath_eq_empty.1 hgroup), isRooted_groupPath,
      String.toList_append, List.head?_append_of_ne_nil _ (by simpa using hgroup)]

/-- The copies of a document under different keys have different paths. -/
theorem metadataPath_inj (x : Metadata) : metadataPath x key = metadataPath x key' ↔ key = key' := by
  simp only [metadataPath_eq, String.append_right_inj, documentName_inj]

/-- The names of the copies under keys without slashes are different too. -/
theorem names_metadataPath_inj (hkey : '/' ∉ key.toList) (hkey' : '/' ∉ key'.toList) (x : Metadata) :
    names (metadataPath x key) = names (metadataPath x key') ↔ key = key' := by
  refine ⟨fun h => ?_, fun h => h ▸ rfl⟩
  obtain ⟨above, stem, ext, hnames⟩ := exists_names_documentName x
  simpa only [names_metadataPath, List.append_cancel_left_eq, hnames key hkey, hnames key' hkey',
    List.cons.injEq, and_true, String.append_left_inj, String.append_right_inj] using h

end ArtifactCache.Layout
