import ArtifactCache.Proofs.Manager.Undivided

/-! The copies of a metadata document, the repository's own and those of other repositories. Which of them
have one path is a matter of their keys. -/
namespace ArtifactCache

open ArtifactCache.Path (names)

variable {c : Config} {m : Manager} {x : Metadata} {r : RemoteRepository} {s t : Option RemoteRepository}
  {context context' : String}

/-- The key of a manager of repositories is too long for that of a repository's own documents. -/
theorem RemoteRepository.key_eq_localKey_iff (r : RemoteRepository) (context : String) :
    r.key context = Layout.localKey ↔ r.members = none ∧ r.id = Layout.localKey := by
  rw [key]
  cases r.members with
  | none => simp
  | some members =>
    refine iff_of_false (fun h => ?_) (fun h => Option.some_ne_none members h.1)
    have hlength := congrArg (fun s : String => s.toList.length) h
    simp [length_digest, Layout.localKey] at hlength

namespace Manager

/-- Whether a manager is simple, or enhanced by a configuration that asks for no branches. -/
def Branchless (m : Manager) : Prop := m.mode = .simple ∨ ∃ c : Config, m.MadeBy c ∧ c.Undivided

/-- The key of a copy of a document. -/
def documentKey (s : Option RemoteRepository) (context : String) : String :=
  match s with
  | none => Layout.localKey
  | some r => r.key context

theorem pathOf_branchless (hm : m.Branchless) (i : Item) : m.pathOf i = i.layout := by
  have hdirectories : m.directoriesOf i = [] := by
    rcases hm with hsimple | ⟨c, hmade, hc⟩
    · simp only [directoriesOf, hsimple]
    · exact directoriesOf_undivided hmade hc i
  rw [pathOf_eq, hdirectories]
  rfl

theorem metadataPath_branchless (hm : m.Branchless) (x : Metadata) (s : Option RemoteRepository)
    (context : String) : m.metadataPath x s context = Layout.metadataPath x (documentKey s context) := by
  cases s with
  | none => exact pathOf_branchless hm (.installedMetadata x)
  | some r => exact pathOf_branchless hm (.downloadedMetadata x r context)

theorem slash_notMem_documentKey (h : ∀ r ∈ s, '/' ∉ r.id.toList) (context : String) :
    '/' ∉ (documentKey s context).toList := by
  cases s with
  | none => exact (by decide : '/' ∉ Layout.localKey.toList)
  | some r => exact RemoteRepository.slash_notMem_key (h r rfl) context

/-- The copy of a document that was obtained from a repository has the path of the repository's own just
when it is one of no manager of repositories and has the reserved key for its identifier; the copies
from two that are no managers have one path just when the two have one identifier. Where there are no
slashes in identifiers, the copies that have different paths are different files. -/
theorem document_copies (hm : m.Branchless) (x : Metadata) :
    (∀ r context context', m.metadataPath x (some r) context = m.metadataPath x none context' ↔
      r.members = none ∧ r.id = Layout.localKey) ∧
    (∀ r t context context', r.members = none → t.members = none →
      (m.metadataPath x (some r) context = m.metadataPath x (some t) context' ↔ r.id = t.id)) ∧
    ∀ s t context context', (∀ r ∈ s, '/' ∉ r.id.toList) → (∀ r ∈ t, '/' ∉ r.id.toList) →
      m.metadataPath x s context ≠ m.metadataPath x t context' →
      names (m.metadataPath x s context) ≠ names (m.metadataPath x t context') := by
  simp only [metadataPath_branchless hm, ne_eq, Layout.metadataPath_inj]
  refine ⟨fun r context _ => r.key_eq_localKey_iff context, ?_, ?_⟩
  · intro r t context context' hr ht
    rw [documentKey, documentKey, RemoteRepository.key, RemoteRepository.key, hr, ht]
  · intro s t context context' hs ht
    rw [Layout.names_metadataPath_inj (slash_notMem_documentKey hs context)
      (slash_notMem_documentKey ht context')]
    exact id

theorem branchless_default :
    (⟨⟨"/r", "enhanced"⟩, .enhanced .flat "_remote.repositories"⟩ : Manager).Branchless := by
  refine .inr ⟨.empty, .inl rfl, ?_⟩
  rintro name hname ⟨value, hvalue, -⟩
  cases hvalue

/-- A manager of repositories that has the reserved key for its identifier, and two repositories. -/
theorem document_copies_reserved :
    let m : Manager := ⟨⟨"/r", "enhanced"⟩, .enhanced .flat "_remote.repositories"⟩
    let x : Metadata := ⟨"g", "a", "1", "docs/maven-metadata.xml"⟩
    let manager : RemoteRepository := ⟨"local", "https://nexus", "default", some ["central"]⟩
    let central : RemoteRepository := { id := "central", url := "https://repo" }
    let other : RemoteRepository := { id := "other", url := "https://other" }
    m.Branchless ∧ m.metadataPath x (some manager) "" ≠ m.metadataPath x none "" ∧
      m.metadataPath x (some central) "" ≠ m.metadataPath x (some other) "" ∧
      names (m.metadataPath x (some central) "") ≠ names (m.metadataPath x (some other) "") := by
  intro m x manager central other
  obtain ⟨hown, hstatic, hnames⟩ := document_copies branchless_default x
  have hdifferent : m.metadataPath x (some central) "" ≠ m.metadataPath x (some other) "" :=
    mt (hstatic central other "" "" rfl rfl).1 (by decide)
  refine ⟨branchless_default, mt (hown manager "" "").1 (by decide), hdifferent, ?_⟩
  apply hnames _ _ _ _ _ _ hdifferent
  · rintro r hr
    cases hr
    decide
  · rintro r hr
    cases hr
    decide

/-- What was downloaded from a repository with the reserved identifier is taken for the repository's own. -/
theorem findMetadata_reserved :
    let m : Manager := ⟨⟨"/r", "enhanced"⟩, .enhanced .flat "_remote.repositories"⟩
    let x : Metadata := ⟨"g", "a", "1", "maven-metadata.xml"⟩
    let r : RemoteRepository := { id := "local", url := "https://repo" }
    let d := Disk.single ["r", "g", "a", "1", "maven-metadata-local.xml"] (.text "")
    m.Branchless ∧ m.metadataPath x (some r) "" = m.metadataPath x none "" ∧
      m.findMetadata d x none "" = some "/r/g/a/1/maven-metadata-local.xml" := by
  intro m x r d
  refine ⟨branchless_default, by decide, ?_⟩
  have hplace : m.resolve (m.metadataPath x none "") = "/r/g/a/1/maven-metadata-local.xml" := by decide
  have hfile : d.locate "/r/g/a/1/maven-metadata-local.xml" =
      .ok ⟨["r", "g", "a", "1", "maven-metadata-local.xml"], false⟩ :=
    Disk.locate_eq_ok_iff.2 ⟨by decide, Disk.leads_of_walk (by cbv)⟩
  have hthere : d.isFile "/r/g/a/1/maven-metadata-local.xml" = true :=
    Disk.isFile_iff_locate.2 ⟨_, .text "", hfile, by decide⟩
  simp only [findMetadata, hplace, hthere, if_true]

end Manager
end ArtifactCache
