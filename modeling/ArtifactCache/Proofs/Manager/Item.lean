import ArtifactCache.Proofs.Coordinate
import ArtifactCache.Proofs.Layout
import ArtifactCache.Proofs.Repository.Remote
import ArtifactCache.Proofs.Version

/-! What lies in a repository, each with its place in the layout and what the place is made of. -/
namespace ArtifactCache

open ArtifactCache.Path (names isRooted)

/-- What a manager can give the path of. -/
inductive Item where
  | installed (a : Artifact)
  | downloaded (a : Artifact) (r : RemoteRepository)
  | installedMetadata (x : Metadata)
  | downloadedMetadata (x : Metadata) (r : RemoteRepository) (context : String)

variable {i : Item} {a : Artifact} {x : Metadata} {s key : String}

namespace Item

/-- Whether there is a text that is read as the coordinate of the item. -/
def Readable : Item → Prop
  | .installed a | .downloaded a _ => ∃ s, Artifact.parse s = .ok a
  | .installedMetadata x | .downloadedMetadata x _ _ => ∃ s, Metadata.parse s = .ok x

/-- The path in a repository without branches. -/
def layout : Item → String
  | .installed a => Layout.artifactPath a .installed
  | .downloaded a _ => Layout.artifactPath a .downloaded
  | .installedMetadata x => Layout.metadataPath x Layout.localKey
  | .downloadedMetadata x r context => Layout.metadataPath x (r.key context)

def repository? : Item → Option RemoteRepository
  | .installed _ | .installedMetadata _ => none
  | .downloaded _ r | .downloadedMetadata _ r _ => some r

def isSnapshot : Item → Bool
  | .installed a | .downloaded a _ => a.isSnapshot
  | .installedMetadata x | .downloadedMetadata x _ _ => x.isSnapshot

def group : Item → String
  | .installed a | .downloaded a _ => a.group
  | .installedMetadata x | .downloadedMetadata x _ _ => x.group

/-- What the layout begins with, before the dots of the group become slashes: fields of a metadata
document that are empty are left out. -/
def front : Item → String
  | .installed a | .downloaded a _ => a.group
  | .installedMetadata x | .downloadedMetadata x _ _ =>
    x.group ++ (x.name ++ (x.version ++ x.type))

/-- What stands behind the group in the layout. -/
def parts : Item → List String
  | .installed a => [a.name, a.base, Layout.fileName a .installed]
  | .downloaded a _ => [a.name, a.base, Layout.fileName a .downloaded]
  | .installedMetadata x => [x.name, x.version, Layout.documentName x Layout.localKey]
  | .downloadedMetadata x r context => [x.name, x.version, Layout.documentName x (r.key context)]

/-- The fields of the coordinate behind the group. -/
def fields : Item → List String
  | .installed a | .downloaded a _ => [a.name, a.version, a.classifier, a.extension]
  | .installedMetadata x | .downloadedMetadata x _ _ => [x.name, x.version, x.type]

/-- Whether the layout begins with a slash. -/
def AtRoot (i : Item) : Prop :=
  i.group.toList.head? = some '.' ∨ i.front.toList.head? = some '/'

theorem names_layout (i : Item) :
    names i.layout = names (Layout.groupPath i.group) ++ i.parts.flatMap names := by
  cases i <;>
    simp [layout, group, parts, Layout.names_artifactPath, Layout.names_metadataPath]

theorem names_layout_ne_nil (i : Item) : names i.layout ≠ [] := by
  rw [names_layout]
  cases i <;>
    simp [parts, Layout.names_fileName_ne_nil, Layout.names_documentName_ne_nil]

end Item

theorem Item.isRooted_layout (hi : i.Readable) : isRooted i.layout = true ↔ i.AtRoot := by
  cases i with
  | installed a =>
    obtain ⟨s, hs⟩ := hi
    exact Layout.isRooted_artifactPath (Artifact.parse_eq_ok_iff.1 hs).2.group_ne _
  | downloaded a r =>
    obtain ⟨s, hs⟩ := hi
    exact Layout.isRooted_artifactPath (Artifact.parse_eq_ok_iff.1 hs).2.group_ne _
  | installedMetadata x => exact Layout.isRooted_metadataPath x _
  | downloadedMetadata x r context => exact Layout.isRooted_metadataPath x _

/-- A text in which there is no slash and that is not the name that leads back. -/
def PlainText (s : String) : Prop := '/' ∉ s.toList ∧ s ≠ ".."

theorem PlainText.onward (h : PlainText s) : ".." ∉ names s :=
  Path.onward_of_notMem h.1 h.2

theorem plainText_of_dash (h : '/' ∉ s.toList) (hdash : '-' ∈ s.toList) : PlainText s := by
  refine ⟨h, ?_⟩
  rintro rfl
  revert hdash
  decide

theorem Artifact.plain_base (h : PlainText a.version) : PlainText a.base := by
  refine ⟨fun hmem => ?_, Version.base_ne_of_ne h.2⟩
  rcases Version.mem_base hmem with hversion | hword
  · exact h.1 hversion
  · revert hword
    decide

theorem plain_fileName {naming : Layout.Naming} (hname : PlainText a.name)
    (hversion : PlainText a.version) (hclassifier : PlainText a.classifier)
    (hextension : PlainText a.extension) : PlainText (Layout.fileName a naming) := by
  have hfile : '/' ∉ (Layout.fileVersion a naming).toList := by
    cases naming with
    | installed => exact (Artifact.plain_base hversion).1
    | downloaded => exact hversion.1
  refine plainText_of_dash ?_ (Layout.dash_mem_fileName a naming)
  simp [Layout.fileName, hname.1, hfile, Layout.slash_notMem_suffix hclassifier.1 hextension.1]

theorem plain_documentName (htype : PlainText x.type) (hkey : '/' ∉ key.toList) :
    PlainText (Layout.documentName x key) :=
  plainText_of_dash (Layout.slash_notMem_documentName htype.1 hkey)
    (Layout.dash_mem_documentName x key)

namespace Item

/-- Whether no field of a coordinate, nor the repository, has a slash or is the name that leads back, and
the group does not begin with a dot. -/
structure Plain (i : Item) : Prop where
  group : '/' ∉ i.group.toList ∧ i.group.toList.head? ≠ some '.'
  fields : ∀ field ∈ i.fields, PlainText field
  repository : ∀ r, i.repository? = some r → PlainText r.id

theorem Plain.not_atRoot (h : i.Plain) : ¬ i.AtRoot := by
  have hfront : '/' ∉ i.front.toList := by
    have hgroup := h.group.1
    have hfields := fun field hmem => (h.fields field hmem).1
    cases i <;> simp_all [Item.front, Item.group, Item.fields]
  rintro (hdot | hslash)
  · exact h.group.2 hdot
  · exact hfront (List.mem_of_head? hslash)

theorem Plain.parts (h : i.Plain) : ∀ part ∈ i.parts, PlainText part := by
  have hartifact : ∀ {a : Artifact} {naming : Layout.Naming},
      (∀ field ∈ [a.name, a.version, a.classifier, a.extension], PlainText field) →
      ∀ part ∈ [a.name, a.base, Layout.fileName a naming], PlainText part := by
    intro a naming hfields
    simp only [List.forall_mem_cons] at hfields ⊢
    obtain ⟨hname, hversion, hclassifier, hextension, hnil⟩ := hfields
    exact ⟨hname, Artifact.plain_base hversion,
      plain_fileName hname hversion hclassifier hextension, hnil⟩
  have hmetadata : ∀ {x : Metadata} {key : String}, '/' ∉ key.toList →
      (∀ field ∈ [x.name, x.version, x.type], PlainText field) →
      ∀ part ∈ [x.name, x.version, Layout.documentName x key], PlainText part := by
    intro x key hkey hfields
    simp only [List.forall_mem_cons] at hfields ⊢
    obtain ⟨hname, hversion, htype, hnil⟩ := hfields
    exact ⟨hname, hversion, plain_documentName htype hkey, hnil⟩
  cases i with
  | installed a => exact hartifact h.fields
  | downloaded a r => exact hartifact h.fields
  | installedMetadata x => exact hmetadata (by decide) h.fields
  | downloadedMetadata x r context =>
    exact hmetadata (RemoteRepository.slash_notMem_key (h.repository r rfl).1 context) h.fields

end Item

end ArtifactCache
