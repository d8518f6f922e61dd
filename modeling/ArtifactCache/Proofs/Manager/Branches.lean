import ArtifactCache.Proofs.Files.Written
import ArtifactCache.Proofs.Manager.Inside

/-! What is kept apart by branches: what was installed from what was downloaded, and the downloads of
one repository from those of another. -/
namespace ArtifactCache

open ArtifactCache.Path (names Separate Forks ReadsNames)

variable {m : Manager} {s : Split} {i j : Item} {r t : RemoteRepository} {id id' name : String}
  {trackingName : String} {snapshot snapshot' : Bool} {read : String → List String}

namespace Split

/-- Whether a text is the name of a single directory. -/
def NamesDirectory (id : String) : Prop := id ≠ "" ∧ '/' ∉ id.toList

instance : Decidable (NamesDirectory id) := inferInstanceAs (Decidable (_ ∧ _))

theorem bare_eq_self (h : '/' ∉ name.toList) : bare name = name := by
  have hstays : ∀ c, c ∈ name.toList → decide (c = '/') = false := by
    rintro c hc
    exact decide_eq_false (ne_of_mem_of_not_mem hc h)
  rw [bare, Text.strip_eq_self_iff.2 ⟨fun c hc => hstays c (List.mem_of_head? hc),
    fun c hc => hstays c (List.mem_of_getLast? hc)⟩, String.ofList_toList]

theorem branch_append (dirs dirs' : List String) : branch (dirs ++ dirs') = branch dirs ++ branch dirs' := by
  simp [branch]

theorem branch_cons (h : bare name ≠ "") (dirs : List String) :
    branch (name :: dirs) = bare name :: branch dirs := by
  simp [branch, h]

/-- The name of the directory of downloaded releases or snapshots. -/
def maturity (s : Split) (snapshot : Bool) : String :=
  if snapshot then s.downloadedSnapshots else s.downloadedReleases

/-- The directories above those that are named after repositories. -/
def aboveRepository (s : Split) (snapshot : Bool) : List String :=
  (if s.byOrigin then [s.downloaded] else []) ++
    if s.byMaturityDownloaded && s.repositoryLast then [s.maturity snapshot] else []

theorem downloadedNames_eq (h : s.byRepository = true) (snapshot : Bool) (id : String) :
    ∃ below, s.downloadedNames snapshot id = s.aboveRepository snapshot ++ id :: below := by
  cases hlast : s.repositoryLast <;>
    simp [downloadedNames, aboveRepository, maturity, h, hlast]

/-- Whether releases and snapshots do not get mixed up above the directories of repositories: they are
in directories that are apart, or there are none, or only one for both. -/
def MaturitiesFork (read : String → List String) (s : Split) : Prop :=
  s.repositoryLast = true → s.byMaturityDownloaded = true →
    bare s.downloadedReleases = bare s.downloadedSnapshots ∨
    bare s.downloadedReleases ≠ "" ∧ bare s.downloadedSnapshots ≠ "" ∧
      Forks (read (bare s.downloadedReleases)) (read (bare s.downloadedSnapshots))

theorem aboveRepository_cases (h : s.MaturitiesFork read) (snapshot snapshot' : Bool) :
    branch (s.aboveRepository snapshot) = branch (s.aboveRepository snapshot') ∨
      Forks ((branch (s.aboveRepository snapshot)).flatMap read)
        ((branch (s.aboveRepository snapshot')).flatMap read) := by
  by_cases hsame : snapshot = snapshot'
  · exact .inl (by rw [hsame])
  by_cases hsplit : (s.byMaturityDownloaded && s.repositoryLast) = true
  · obtain ⟨hmaturity, hlast⟩ := Bool.and_eq_true_iff.1 hsplit
    simp only [aboveRepository, if_pos hsplit, branch_append]
    rcases h hlast hmaturity with heq | ⟨hreleases, hsnapshots, hforks⟩
    · left
      cases snapshot <;> cases snapshot' <;> simp [maturity, branch, heq]
    · right
      have hnames : ∀ b, branch [s.maturity b] = [bare (s.maturity b)] := fun b =>
        branch_cons (by cases b <;> assumption) []
      have hmaturities : Forks (read (bare (s.maturity snapshot))) (read (bare (s.maturity snapshot'))) := by
        cases snapshot <;> cases snapshot'
        · exact absurd rfl hsame
        · exact hforks
        · exact hforks.symm
        · exact absurd rfl hsame
      simpa [hnames] using hmaturities.under _
  · exact .inl (by simp only [aboveRepository, if_neg hsplit])

/-- The branches of different repositories part at the latest where they are named. -/
theorem downloaded_forks (h : s.MaturitiesFork read) (hby : s.byRepository = true)
    (hid : NamesDirectory id) (hid' : NamesDirectory id') (hread : read id = [id])
    (hread' : read id' = [id']) (hne : id ≠ id') (snapshot snapshot' : Bool) :
    Forks ((branch (s.downloadedNames snapshot id)).flatMap read)
      ((branch (s.downloadedNames snapshot' id')).flatMap read) := by
  have hbranch : ∀ {id}, NamesDirectory id → read id = [id] → ∀ snapshot, ∃ below,
      (branch (s.downloadedNames snapshot id)).flatMap read =
        (branch (s.aboveRepository snapshot)).flatMap read ++ ([id] ++ below) := by
    intro id hid hread snapshot
    obtain ⟨below, hnames⟩ := downloadedNames_eq hby snapshot id
    have hbare : bare id = id := bare_eq_self hid.2
    refine ⟨(branch below).flatMap read, ?_⟩
    rw [hnames, branch_append, branch_cons (by rw [hbare]; exact hid.1), hbare, List.flatMap_append,
      List.flatMap_cons, hread]
  obtain ⟨below, hbelow⟩ := hbranch hid hread snapshot
  obtain ⟨below', hbelow'⟩ := hbranch hid' hread' snapshot'
  rw [hbelow, hbelow']
  rcases aboveRepository_cases h snapshot snapshot' with habove | habove
  · rw [habove]
    exact ((Path.forks_singleton hne).append _ _).under _
  · exact habove.append _ _

/-- The branches of installed and of downloaded files part at once. -/
theorem origins_fork (hby : s.byOrigin = true) (hinstalled : bare s.installed ≠ "")
    (hdownloaded : bare s.downloaded ≠ "")
    (h : Forks (read (bare s.installed)) (read (bare s.downloaded))) (snapshot snapshot' : Bool)
    (id : String) : Forks ((branch (s.installedNames snapshot)).flatMap read)
      ((branch (s.downloadedNames snapshot' id)).flatMap read) := by
  obtain ⟨below, hbelow⟩ : ∃ below, s.installedNames snapshot = s.installed :: below := by
    simp [installedNames, hby]
  obtain ⟨below', hbelow'⟩ : ∃ below, s.downloadedNames snapshot' id = s.downloaded :: below := by
    simp [downloadedNames, hby]
  rw [hbelow, hbelow', branch_cons hinstalled, branch_cons hdownloaded, List.flatMap_cons,
    List.flatMap_cons]
  exact h.append _ _

end Split

namespace Manager

theorem read_pathOf (h : ReadsNames read) (m : Manager) (i : Item) :
    read (m.pathOf i) = (Split.branch (m.directoriesOf i)).flatMap read ++ read i.layout := by
  rw [pathOf_eq, Split.path?]
  split
  next hnil => rw [hnil, Division.within]; rfl
  next hne => rw [Division.within, h, h.join hne]

theorem directoriesOf_split (hm : m.mode = .enhanced (.split s) trackingName) (i : Item) :
    (i.repository? = none → m.directoriesOf i = s.installedNames i.isSnapshot) ∧
    ∀ r, i.repository? = some r → m.directoriesOf i = s.downloadedNames i.isSnapshot r.id := by
  refine ⟨fun hi => ?_, fun r hi => ?_⟩ <;> simp only [directoriesOf, hm, hi]

/-- What was installed lies apart from what was downloaded. -/
theorem origins_fork (hread : ReadsNames read) (hm : m.mode = .enhanced (.split s) trackingName)
    (hby : s.byOrigin = true) (hinstalled : Split.bare s.installed ≠ "")
    (hdownloaded : Split.bare s.downloaded ≠ "")
    (h : Forks (read (Split.bare s.installed)) (read (Split.bare s.downloaded)))
    (hi : i.repository? = none) (hj : j.repository? = some r) :
    Forks (read (m.pathOf i)) (read (m.pathOf j)) := by
  rw [read_pathOf hread, read_pathOf hread, (directoriesOf_split hm i).1 hi,
    (directoriesOf_split hm j).2 r hj]
  exact (Split.origins_fork hby hinstalled hdownloaded h _ _ _).append _ _

/-- What was downloaded from one repository lies apart from what was downloaded from another. -/
theorem repositories_fork (hread : ReadsNames read) (hm : m.mode = .enhanced (.split s) trackingName)
    (hby : s.byRepository = true) (h : s.MaturitiesFork read) (hi : i.repository? = some r)
    (hj : j.repository? = some t) (hr : Split.NamesDirectory r.id) (ht : Split.NamesDirectory t.id)
    (hreadr : read r.id = [r.id]) (hreadt : read t.id = [t.id]) (hne : r.id ≠ t.id) :
    Forks (read (m.pathOf i)) (read (m.pathOf j)) := by
  rw [read_pathOf hread, read_pathOf hread, (directoriesOf_split hm i).2 r hi,
    (directoriesOf_split hm j).2 t hj]
  exact (Split.downloaded_forks h hby hr ht hreadr hreadt hne _ _).append _ _

/-- By the names of their paths, files are kept apart where the names of the directories are apart. -/
theorem names_pathOf_fork (hm : m.mode = .enhanced (.split s) trackingName) :
    (s.byOrigin = true → Forks (names s.installed) (names s.downloaded) →
      ∀ i j r, i.repository? = none → j.repository? = some r →
        Forks (names (m.pathOf i)) (names (m.pathOf j))) ∧
    (s.byRepository = true → s.MaturitiesFork names →
      ∀ i j r t, i.repository? = some r → j.repository? = some t → Split.NamesDirectory r.id →
        Split.NamesDirectory t.id → r.id ≠ "." → t.id ≠ "." → r.id ≠ t.id →
        Forks (names (m.pathOf i)) (names (m.pathOf j))) := by
  constructor
  · intro hby h i j r hi hj
    rw [← Split.names_bare s.installed, ← Split.names_bare s.downloaded] at h
    have hne : ∀ {xs ys : List String}, Forks xs ys → xs ≠ [] :=
      fun h hnil => h.1 (hnil ▸ List.nil_prefix)
    have hbare : ∀ {name}, names (Split.bare name) ≠ [] → Split.bare name ≠ "" :=
      fun hnames hnil => hnames (by rw [hnil]; rfl)
    exact origins_fork Path.readsNames_names hm hby (hbare (hne h)) (hbare (hne h.symm)) h hi hj
  · intro hby h i j r t hi hj hr ht hrdot htdot hne
    have hnames : ∀ {id}, Split.NamesDirectory id → id ≠ "." → names id = [id] :=
      fun hid hdot => Path.names_eq_singleton hid.2 hid.1 hdot
    exact repositories_fork Path.readsNames_names hm hby h hi hj hr ht (hnames hr hrdot)
      (hnames ht htdot) hne

/-- A manager with branches keeps what was installed apart from what was downloaded if the two have
directories of their own, and the downloads of one repository from those of another if repositories
have; below directories for releases and snapshots they do if those are not mixed up. -/
theorem pathOf_apart (hm : m.mode = .enhanced (.split s) trackingName) :
    (s.byOrigin = true → Split.bare s.installed ≠ "" → Split.bare s.downloaded ≠ "" →
      Separate (Split.bare s.installed) (Split.bare s.downloaded) →
      ∀ i j r, i.repository? = none → j.repository? = some r →
        Separate (m.pathOf i) (m.pathOf j)) ∧
    (s.byRepository = true →
      (s.repositoryLast = true → s.byMaturityDownloaded = true →
        Split.bare s.downloadedReleases = Split.bare s.downloadedSnapshots ∨
        Split.bare s.downloadedReleases ≠ "" ∧ Split.bare s.downloadedSnapshots ≠ "" ∧
          Separate (Split.bare s.downloadedReleases) (Split.bare s.downloadedSnapshots)) →
      ∀ i j r t, i.repository? = some r → j.repository? = some t → Split.NamesDirectory r.id →
        Split.NamesDirectory t.id → r.id ≠ t.id → Separate (m.pathOf i) (m.pathOf j)) := by
  simp only [Path.separate_iff]
  constructor
  · intro hby hinstalled hdownloaded h i j r hi hj
    exact origins_fork Path.readsNames_splitOn hm hby hinstalled hdownloaded h hi hj
  · intro hby h i j r t hi hj hr ht hne
    exact repositories_fork Path.readsNames_splitOn hm hby h hi hj hr ht
      (Text.splitOn_eq_singleton hr.2) (Text.splitOn_eq_singleton ht.2) hne

/-- Releases and snapshots above the repositories, one of which is named like a directory. -/
theorem pathOf_apart_last :
    let s : Split := { byOrigin := true, installed := "/installed/", byMaturityDownloaded := true,
                       byRepository := true, repositoryLast := true }
    let m : Manager := ⟨⟨"/repo", ""⟩, .enhanced (.split s) "_remote.repositories"⟩
    let installed : Item := .installed ⟨"cached.releases", "lib", "", "jar", "1.0"⟩
    let release : Item := .downloaded ⟨"com.example", "lib", "", "jar", "1.0"⟩
      ⟨"central", "https://example.org", "default", none⟩
    let document : Item := .downloadedMetadata ⟨"central", "", "1-SNAPSHOT", "maven-metadata.xml"⟩
      ⟨"releases", "https://example.org", "default", none⟩ ""
    m.pathOf installed = "installed/cached/releases/lib/1.0/lib-1.0.jar" ∧
      m.pathOf release = "cached/releases/central/com/example/lib/1.0/lib-1.0.jar" ∧
      m.pathOf document = "cached/snapshots/releases/central/1-SNAPSHOT/maven-metadata-releases.xml" ∧
      Separate (m.pathOf installed) (m.pathOf release) ∧ Separate (m.pathOf release) (m.pathOf document) := by
  intro s m installed release document
  obtain ⟨horigins, hrepositories⟩ := pathOf_apart (m := m) (s := s) rfl
  refine ⟨by decide, by decide, by decide, ?_, ?_⟩
  · exact horigins rfl (by decide) (by decide) (by decide) installed release _ rfl rfl
  · exact hrepositories rfl (fun _ _ => .inr (by decide)) release document _ _ rfl rfl (by decide)
      (by decide) (by decide)

end Manager
end ArtifactCache
