import ArtifactCache.Proofs.Manager.Branches

/-! Which artifacts have one file: what a path tells of the artifact it is made of. -/
namespace ArtifactCache

variable {a b x y : Artifact} {m : Manager} {r : RemoteRepository} {g g' part part' : String}
  {naming : Layout.Naming} {d : Char}

/-- Whether no field of an artifact has a slash. -/
structure Artifact.Slashless (a : Artifact) : Prop where
  group : '/' ∉ a.group.toList
  name : '/' ∉ a.name.toList
  version : '/' ∉ a.version.toList
  classifier : '/' ∉ a.classifier.toList
  extension : '/' ∉ a.extension.toList

namespace Artifact.Slashless

theorem base (h : a.Slashless) : '/' ∉ a.base.toList := by
  intro hmem
  rcases Version.mem_base hmem with hversion | hword
  · exact h.version hversion
  · revert hword
    decide

theorem fileName (h : a.Slashless) (naming : Layout.Naming) :
    '/' ∉ (Layout.fileName a naming).toList := by
  have hfile : '/' ∉ (Layout.fileVersion a naming).toList := by
    cases naming with
    | installed => exact h.base
    | downloaded => exact h.version
  simp [Layout.fileName, h.name, hfile, Layout.slash_notMem_suffix h.classifier h.extension]

end Artifact.Slashless

namespace Layout

theorem groupPath_inj (h : '/' ∉ g.toList) (h' : '/' ∉ g'.toList) :
    groupPath g = groupPath g' ↔ g = g' := by
  have hback : ∀ {g : String}, '/' ∉ g.toList → Text.replaceChar '/' '.' (groupPath g) = g := by
    intro g h
    apply String.toList_inj.1
    simp only [groupPath, Text.replaceChar, String.toList_ofList, List.map_map]
    refine (List.map_congr_left fun c hc => ?_).trans (List.map_id _)
    have hslash : c ≠ '/' := ne_of_mem_of_not_mem hc h
    by_cases hdot : c = '.' <;> simp [hdot, hslash]
  exact ⟨fun heq => by rw [← hback h, heq, hback h'], fun heq => heq ▸ rfl⟩

theorem splitOn_artifactPath (h : a.Slashless) (naming : Naming) :
    Text.splitOn '/' (artifactPath a naming) =
      Text.splitOn '/' (groupPath a.group) ++ [a.name, a.base, fileName a naming] := by
  rw [artifactPath_eq, Path.readsNames_splitOn, Path.readsNames_splitOn, Path.readsNames_splitOn,
    Text.splitOn_eq_singleton h.name, Text.splitOn_eq_singleton h.base,
    Text.splitOn_eq_singleton (h.fileName naming)]
  rfl

/-- A part of the name of a file that may be left out, with the mark before it. -/
def marked (mark part : String) : String := if part = "" then "" else mark ++ part

theorem suffix_eq (a : Artifact) : suffix a = marked "-" a.classifier ++ marked "." a.extension := rfl

theorem head_marked (mark : Char) (h : (marked (String.singleton mark) part).toList.head? = some d) :
    d = mark := by
  rw [marked] at h
  split at h
  · cases h
  · simpa [eq_comm] using h

theorem marked_inj (mark : Char) :
    marked (String.singleton mark) part = marked (String.singleton mark) part' ↔ part = part' := by
  refine ⟨fun h => ?_, fun h => h ▸ rfl⟩
  have hempty : ∀ s : String, String.singleton mark ++ s ≠ "" := by simp
  simp only [marked] at h
  split at h <;> split at h <;> simp_all

/-- What follows the version does not begin with a digit. -/
theorem head_suffix (h : (suffix a).toList.head? = some d) : d.isDigit = false := by
  rw [suffix_eq, String.toList_append, List.head?_append, Option.or_eq_some_iff] at h
  rcases h with h | ⟨-, h⟩
  · rw [head_marked '-' h]
    decide
  · rw [head_marked '.' h]
    decide

/-- A suffix tells where the extension begins unless there is a dot in the classifier. -/
theorem suffix_inj (ha : '.' ∉ a.classifier.toList) (hb : '.' ∉ b.classifier.toList) :
    suffix a = suffix b ↔ a.classifier = b.classifier ∧ a.extension = b.extension := by
  constructor
  · intro h
    have hfront : ∀ {part : String}, '.' ∉ part.toList →
        ∀ c ∈ (marked "-" part).toList, decide (c ≠ '.') = true := by
      intro part hpart c hc
      rw [marked] at hc
      split at hc
      · cases hc
      · rcases List.mem_cons.1 (by simpa using hc) with rfl | hc
        · decide
        · simpa using ne_of_mem_of_not_mem hc hpart
    have hrest : ∀ part : String, ∀ d, (marked "." part).toList.head? = some d →
        decide (d ≠ '.') = false := by
      intro part d hd
      simp [head_marked '.' hd]
    rw [suffix_eq, suffix_eq, ← String.toList_inj, String.toList_append, String.toList_append] at h
    obtain ⟨hclassifier, hextension⟩ := Text.append_inj_of_stop (hfront ha) (hfront hb)
      (hrest a.extension) (hrest b.extension) h
    exact ⟨(marked_inj '-').1 (String.toList_inj.1 hclassifier),
      (marked_inj '.').1 (String.toList_inj.1 hextension)⟩
  · rintro ⟨hclassifier, hextension⟩
    rw [suffix_eq, suffix_eq, hclassifier, hextension]

/-- The name of a file tells the version and the suffix of artifacts with one name and base version. -/
theorem fileName_inj (hname : x.name = y.name) (hbase : x.base = y.base) :
    fileName x .downloaded = fileName y .downloaded ↔ x.version = y.version ∧ suffix x = suffix y := by
  constructor
  · intro h
    simp only [fileName, hname, String.append_assoc, String.append_right_inj] at h
    rw [← String.toList_inj, String.toList_append, String.toList_append] at h
    obtain ⟨hversion, hsuffix⟩ := Version.append_inj_of_base hbase (fun _ => head_suffix)
      (fun _ => head_suffix) h
    exact ⟨hversion, String.toList_inj.1 hsuffix⟩
  · rintro ⟨hversion, hsuffix⟩
    rw [fileName, fileName, fileVersion, fileVersion, hname, hversion, hsuffix]

end Layout

namespace Manager

/-- The branch of an artifact depends on nothing but its base version. -/
theorem directoriesOf_downloaded (hbase : x.base = y.base) (m : Manager) (r : RemoteRepository) :
    m.directoriesOf (.downloaded x r) = m.directoriesOf (.downloaded y r) := by
  simp only [directoriesOf, Item.isSnapshot, Artifact.isSnapshot, hbase, Item.repository?]

theorem splitOn_downloadedPath (h : a.Slashless) (m : Manager) (r : RemoteRepository) :
    Text.splitOn '/' (m.downloadedPath a r) =
      ((Split.branch (m.directoriesOf (.downloaded a r))).flatMap (Text.splitOn '/') ++
        Text.splitOn '/' (Layout.groupPath a.group)) ++
      [a.name, a.base, Layout.fileName a .downloaded] := by
  have hpath := read_pathOf Path.readsNames_splitOn m (.downloaded a r)
  rw [List.append_assoc, ← Layout.splitOn_artifactPath h]
  exact hpath

/-- Artifacts that were downloaded from one repository have one file just when they have one group, name
and version, and their classifiers and extensions are written alike. -/
theorem downloadedPath_eq_iff (hx : x.Slashless) (hy : y.Slashless) (m : Manager)
    (r : RemoteRepository) : m.downloadedPath x r = m.downloadedPath y r ↔
      x.group = y.group ∧ x.name = y.name ∧ x.version = y.version ∧
        Layout.suffix x = Layout.suffix y := by
  constructor
  · intro h
    rw [← @Text.splitOn_inj '/', splitOn_downloadedPath hx, splitOn_downloadedPath hy] at h
    obtain ⟨hfront, hback⟩ := List.append_inj' h rfl
    simp only [List.cons.injEq, and_true] at hback
    obtain ⟨hname, hbase, hfile⟩ := hback
    rw [directoriesOf_downloaded hbase, List.append_cancel_left_eq, Text.splitOn_inj,
      Layout.groupPath_inj hx.group hy.group] at hfront
    exact ⟨hfront, hname, (Layout.fileName_inj hname hbase).1 hfile⟩
  · rintro ⟨hgroup, hname, hversion, hsuffix⟩
    have hbase : x.base = y.base := by rw [Artifact.base, Artifact.base, hversion]
    rw [← @Text.splitOn_inj '/', splitOn_downloadedPath hx, splitOn_downloadedPath hy,
      directoriesOf_downloaded hbase, hgroup, hname, hbase,
      (Layout.fileName_inj hname hbase).2 ⟨hversion, hsuffix⟩]

/-- Which artifacts without slashes share a file, by the layout and by every manager: those that agree in
group, name and version and in the way that classifier and extension are written together. Where no
classifier has a dot, no two of them do, whatever their versions. -/
theorem artifacts_share_file_iff (hx : x.Slashless) (hy : y.Slashless) :
    (Layout.artifactPath x .downloaded = Layout.artifactPath y .downloaded ↔
      x.group = y.group ∧ x.name = y.name ∧ x.version = y.version ∧
        Layout.suffix x = Layout.suffix y) ∧
    ('.' ∉ x.classifier.toList → '.' ∉ y.classifier.toList → x ≠ y →
      Layout.artifactPath x .downloaded ≠ Layout.artifactPath y .downloaded ∧
      ∀ (m : Manager) (r : RemoteRepository), m.downloadedPath x r ≠ m.downloadedPath y r) := by
  have hlayout : Layout.artifactPath x .downloaded = Layout.artifactPath y .downloaded ↔
      x.group = y.group ∧ x.name = y.name ∧ x.version = y.version ∧
        Layout.suffix x = Layout.suffix y :=
    downloadedPath_eq_iff hx hy ⟨default, .simple⟩ default
  refine ⟨hlayout, fun hxdot hydot hne => ?_⟩
  have hdiffer : ¬ (x.group = y.group ∧ x.name = y.name ∧ x.version = y.version ∧
      Layout.suffix x = Layout.suffix y) := by
    rintro ⟨hgroup, hname, hversion, hsuffix⟩
    obtain ⟨hclassifier, hextension⟩ := (Layout.suffix_inj hxdot hydot).1 hsuffix
    apply hne
    cases x
    cases y
    simp_all
  exact ⟨mt hlayout.1 hdiffer, fun m r => mt (downloadedPath_eq_iff hx hy m r).1 hdiffer⟩

/-- The serial number of a build and a classifier are told apart; a dot in a classifier is not told from
the one before the extension. -/
theorem artifacts_share_file_iff_serial :
    let a : Artifact := ⟨"com.example", "lib", "1", "jar", "1.0-20240101.120000-3"⟩
    let b : Artifact := ⟨"com.example", "lib", "", "jar", "1.0-20240101.120000-31"⟩
    let dotted : Artifact := ⟨"com.example", "lib", "1.jar", "asc", "1.0-20240101.120000-3"⟩
    let signed : Artifact := ⟨"com.example", "lib", "1", "jar.asc", "1.0-20240101.120000-3"⟩
    Layout.artifactPath a .downloaded ≠ Layout.artifactPath b .downloaded ∧
      dotted ≠ signed ∧
      Layout.artifactPath dotted .downloaded = Layout.artifactPath signed .downloaded := by
  intro a b dotted signed
  have ha : a.Slashless := by constructor <;> decide
  have hb : b.Slashless := by constructor <;> decide
  have hdotted : dotted.Slashless := by constructor <;> decide
  have hsigned : signed.Slashless := by constructor <;> decide
  refine ⟨?_, by decide, ?_⟩
  · exact ((artifacts_share_file_iff ha hb).2 (by decide) (by decide) (by decide)).1
  · exact (artifacts_share_file_iff hdotted hsigned).1.2 ⟨rfl, rfl, rfl, by decide⟩

end Manager
end ArtifactCache
