import ArtifactCache.Proofs.Manager.Item
import ArtifactCache.Proofs.Manager.Places
import ArtifactCache.Proofs.Split

/-! Which of the paths that a manager gives stay inside its repository. -/
namespace ArtifactCache

open ArtifactCache.Path (names isRooted Inward Below)

variable {m : Manager} {i : Item}

namespace Manager

/-- The path that a manager gives. -/
def pathOf (m : Manager) : Item → String
  | .installed a => m.installedPath a
  | .downloaded a r => m.downloadedPath a r
  | .installedMetadata x => m.installedMetadataPath x
  | .downloadedMetadata x r context => m.downloadedMetadataPath x r context

/-- The directories of the branch that an item belongs to. -/
def directoriesOf (m : Manager) (i : Item) : List String :=
  match m.mode, i.repository? with
  | .enhanced (.split s) _, none => s.installedNames i.isSnapshot
  | .enhanced (.split s) _, some r => s.downloadedNames i.isSnapshot r.id
  | _, _ => []

/-- Whether the branches of a manager, if it has any, have the names that they have by default. -/
def NamedByDefault (m : Manager) : Prop :=
  ∀ s name, m.mode = .enhanced (.split s) name → s.NamedByDefault

/-- Whether there are directories that have the identifiers of repositories for names. -/
def byRepository (m : Manager) : Bool :=
  match m.mode with
  | .enhanced (.split s) _ => s.byRepository
  | _ => false

theorem pathOf_eq (m : Manager) (i : Item) :
    m.pathOf i = Division.within (Split.path? (m.directoriesOf i)) i.layout := by
  obtain ⟨repository, mode⟩ := m
  cases mode with
  | simple => cases i <;> rfl
  | enhanced division trackingName => cases division <;> cases i <;> rfl

theorem names_pathOf (m : Manager) (i : Item) :
    names (m.pathOf i) = (m.directoriesOf i).flatMap names ++ names i.layout := by
  rw [pathOf_eq]
  cases hb : Split.path? (m.directoriesOf i) with
  | none => rw [Split.names_of_path_eq_none hb]; rfl
  | some b => rw [Division.within, Path.names_slash, Split.names_path hb]

theorem names_pathOf_ne_nil (m : Manager) (i : Item) : names (m.pathOf i) ≠ [] := by
  simp [names_pathOf, i.names_layout_ne_nil]

theorem isRooted_pathOf (m : Manager) (hi : i.Readable) : isRooted (m.pathOf i) = true ↔
    Split.path? (m.directoriesOf i) = none ∧ i.AtRoot := by
  rw [pathOf_eq]
  cases hb : Split.path? (m.directoriesOf i) with
  | none => simpa [Division.within] using Item.isRooted_layout hi
  | some b => simp [Division.within, String.append_assoc, Split.isRooted_path hb]

theorem directories_onward_iff (hm : m.NamedByDefault) (i : Item) :
    ".." ∉ (m.directoriesOf i).flatMap names ↔
      ∀ r, i.repository? = some r → m.byRepository = true → ".." ∉ names r.id := by
  obtain ⟨repository, mode⟩ := m
  cases mode with
  | simple => simp [directoriesOf, byRepository]
  | enhanced division trackingName =>
    cases division with
    | flat => simp [directoriesOf, byRepository]
    | split s =>
      have hs := hm s trackingName rfl
      cases hr : i.repository? with
      | none => simpa [directoriesOf, hr] using Split.installed_onward hs i.isSnapshot
      | some r =>
        simpa [directoriesOf, byRepository, hr] using
          Split.downloaded_onward_iff hs i.isSnapshot r.id

/-- Whether nothing in a coordinate leads out of the repository: an item in no branch does not begin at
the root, no name behind the group leads back, and none does in the identifier of a repository that
names a directory. -/
structure KeepsInside (m : Manager) (i : Item) : Prop where
  front : Split.path? (m.directoriesOf i) = none → ¬ i.AtRoot
  parts : ∀ part ∈ i.parts, ".." ∉ names part
  repository : ∀ r, i.repository? = some r → m.byRepository = true → ".." ∉ names r.id

theorem inward_iff_keepsInside (hm : m.NamedByDefault) (hi : i.Readable) :
    Inward (m.pathOf i) ↔ m.KeepsInside i := by
  have hroot : isRooted (m.pathOf i) = false ↔
      (Split.path? (m.directoriesOf i) = none → ¬ i.AtRoot) := by
    rw [Bool.eq_false_iff, ne_eq, isRooted_pathOf m hi, not_and]
  have hback : ".." ∉ names (m.pathOf i) ↔
      (∀ r, i.repository? = some r → m.byRepository = true → ".." ∉ names r.id) ∧
        ∀ part ∈ i.parts, ".." ∉ names part := by
    rw [names_pathOf, Item.names_layout, List.mem_append, List.mem_append, not_or, not_or,
      directories_onward_iff hm]
    simp [Layout.groupPath_onward]
  rw [Inward, hroot, hback]
  exact ⟨fun ⟨hfront, hrepository, hparts⟩ => ⟨hfront, hparts, hrepository⟩,
    fun h => ⟨h.front, h.repository, h.parts⟩⟩

theorem keepsInside_of_plain (h : i.Plain) : m.KeepsInside i where
  front _ := h.not_atRoot
  parts part hpart := (h.parts part hpart).onward
  repository r hr _ := (h.repository r hr).onward

/-- A path of a readable coordinate is relative and does not lead back just when nothing in the
coordinate leads out of the repository, as nothing does in a plain one; and then the file, and the
tracking file beside it, lie below the path of the repository. -/
theorem pathOf_inside (hm : m.NamedByDefault) (hi : i.Readable) :
    (Inward (m.pathOf i) ↔ m.KeepsInside i) ∧ (i.Plain → m.KeepsInside i) ∧
    (m.KeepsInside i → Below m.repository.base (m.resolve (m.pathOf i)) ∧
      ∀ trackingName, Tracked m trackingName → ∃ file,
        trackingFile? trackingName (m.resolve (m.pathOf i)) = some file ∧
        Below m.repository.base file) := by
  refine ⟨inward_iff_keepsInside hm hi, keepsInside_of_plain, fun hkeeps => ?_⟩
  have hinward := (inward_iff_keepsInside hm hi).2 hkeeps
  have hbelow : Below m.repository.base (m.resolve (m.pathOf i)) :=
    hinward.below (names_pathOf_ne_nil m i) _
  refine ⟨hbelow, fun trackingName ht => ?_⟩
  obtain ⟨above, habove, hfile⟩ :=
    hbelow.beside ht.name_not_rooted ht.names_name ht.plain.ne_back
  exact ⟨_, by rw [trackingFile?, habove]; rfl, hfile⟩

/-- A snapshot of `lib`, downloaded from `central` into a branch of its own. -/
theorem pathOf_inside_central :
    let s : Split := { byOrigin := true, byMaturityDownloaded := true, byRepository := true }
    let m : Manager := ⟨⟨"/repo", ""⟩, .enhanced (.split s) "_remote.repositories"⟩
    let i : Item := .downloaded ⟨"com.example", "lib", "", "jar", "1.0-20240101.120000-3"⟩
      ⟨"central", "https://example.org", "default", none⟩
    m.NamedByDefault ∧ i.Readable ∧ Tracked m "_remote.repositories" ∧
      Inward (m.pathOf i) ∧ Below "/repo" (m.resolve (m.pathOf i)) ∧ ∃ file,
        trackingFile? "_remote.repositories" (m.resolve (m.pathOf i)) = some file ∧
        Below "/repo" file := by
  intro s m i
  have hm : m.NamedByDefault := by
    rintro s' name hmode
    cases hmode
    rfl
  have hi : i.Readable := ⟨"com.example:lib:1.0-20240101.120000-3", rfl⟩
  have ht : Tracked m "_remote.repositories" := ⟨⟨_, rfl⟩, by decide⟩
  have hinward : Inward (m.pathOf i) := by decide
  obtain ⟨hiff, -, hbelow⟩ := pathOf_inside hm hi
  obtain ⟨hfile, htracking⟩ := hbelow (hiff.1 hinward)
  exact ⟨hm, hi, ht, hinward, hfile, htracking _ ht⟩

/-- Coordinates that are read and lead out of the repository: one back out of it, with the tracking file
above the repository, the other one to the root. -/
theorem pathOf_leaves :
    let m : Manager := ⟨⟨"/cache/repo", ""⟩, .enhanced .flat "_remote.repositories"⟩
    let back : Item := .installed ⟨"g", "../../out", "", "jar", "1"⟩
    let rooted : Item := .installed ⟨"/etc", "a", "", "jar", "1"⟩
    m.NamedByDefault ∧ back.Readable ∧ rooted.Readable ∧
      ¬ Inward (m.pathOf back) ∧ ¬ Inward (m.pathOf rooted) ∧
      m.resolve (m.pathOf rooted) = "/etc/a/1/a-1.jar" ∧
      ∃ file, trackingFile? "_remote.repositories" (m.resolve (m.pathOf back)) = some file ∧
        file = "/cache/repo/g/../../out/1/../../_remote.repositories" ∧
        ¬ Below m.repository.base file := by
  intro m back rooted
  have hm : m.NamedByDefault := by
    rintro s name hmode
    cases hmode
  have hfile : trackingFile? "_remote.repositories" (m.resolve (m.pathOf back)) =
      some "/cache/repo/g/../../out/1/../../_remote.repositories" := by decide
  have hnames : names "/cache/repo/g/../../out/1/../../_remote.repositories" =
      names "/cache/repo" ++ ["g", "..", "..", "out", "1", "..", "..", "_remote.repositories"] := by
    decide
  refine ⟨hm, ⟨"g:../../out:1", rfl⟩, ⟨"/etc:a:1", rfl⟩, by decide, by decide, by decide,
    _, hfile, rfl, ?_⟩
  rintro ⟨-, ns, -, hback, hns⟩
  rw [hnames, List.append_cancel_left_eq] at hns
  exact hback (hns ▸ by decide)

end Manager
end ArtifactCache
