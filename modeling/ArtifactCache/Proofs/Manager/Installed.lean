import ArtifactCache.Proofs.Manager.Registered
import ArtifactCache.Proofs.Manager.Visits
import ArtifactCache.Proofs.Version

/-! Installed artifacts. Once the installation of an artifact is on record it may be used by
everyone, whatever repositories are named and whatever it is needed for. -/
namespace ArtifactCache

open Manager (Recorded)

variable {m : Manager} {d : Disk} {division : Division} {trackingName : String} {a : Artifact}
  {q : Manager.Request} {contexts : List String}

/-- A timestamped snapshot is installed where its base version is. -/
theorem Manager.installedPath_base (m : Manager) (a : Artifact) :
    m.installedPath { a with version := a.base } = m.installedPath a := by
  have hbase : Artifact.base { a with version := a.base } = a.base := Version.base_base a.version
  simp only [installedPath, Division.installedArtifact, Artifact.isSnapshot, Layout.artifactPath,
    Layout.fileVersion, Layout.suffix, hbase]

/-- A file that is recorded as installed is the first one that is met. -/
theorem Manager.find_installed (hmode : m.mode = .enhanced division trackingName)
    (hversion : q.artifact.version = q.artifact.base)
    (hfile : d.isFile (m.resolve (m.installedPath q.artifact)) = true)
    (hback : Recorded d trackingName (m.resolve (m.installedPath q.artifact)) installedOrigin) :
    m.find d q = .ok ⟨some (m.resolve (m.installedPath q.artifact)), true, none⟩ := by
  obtain ⟨name, record, hname, hrecord, hentry⟩ := hback
  have hlook := look_known q hfile hname hrecord
  have hverdict : Verdict.ofRecord record name q.context q.repositories = .installed := by
    rw [Verdict.ofRecord, if_pos hentry]
  rw [Option.getD_some, hverdict] at hlook
  have hcandidates : m.candidates q = m.resolve (m.installedPath q.artifact) ::
      q.repositories.map fun r => m.resolve (m.downloadedPath q.artifact r) := by
    rw [candidates, if_pos hversion, List.singleton_append]
  exact find_of_first hmode hcandidates hlook rfl

/-- An artifact that was installed, and whose installation is on record, is found where it was
installed: a release or a snapshot by its own version, a snapshot of a certain time by its base
version. -/
theorem Manager.find_add_installed (hd : d.IsTree)
    (hmode : m.mode = .enhanced division trackingName)
    (hfile : d.isFile (m.resolve (m.installedPath a)) = true)
    (hok : (m.add d ⟨a, none, contexts⟩).fault = none)
    (hback : Recorded (m.add d ⟨a, none, contexts⟩).disk trackingName
      (m.resolve (m.installedPath a)) installedOrigin) :
    (a.version = a.base → ∀ repositories context,
      m.find (m.add d ⟨a, none, contexts⟩).disk ⟨a, repositories, context⟩ =
        .ok ⟨some (m.resolve (m.installedPath a)), true, none⟩) ∧
    ∀ repositories context, m.find (m.add d ⟨a, none, contexts⟩).disk
        ⟨{ a with version := a.base }, repositories, context⟩ =
      .ok ⟨some (m.resolve (m.installedPath a)), true, none⟩ := by
  have hthere := (add_lasts hd hok).isFile hfile
  refine ⟨?_, ?_⟩
  · intro hversion repositories context
    exact find_installed hmode hversion hthere hback
  · intro repositories context
    have hversion : a.base = Version.base a.base := (Version.base_base a.version).symm
    rw [← installedPath_base m a] at hthere hback ⊢
    exact find_installed hmode hversion hthere hback

/-- A snapshot of a certain time can be installed, and its installation is on record then. -/
theorem Manager.recorded_snapshot :
    let m : Manager := ⟨⟨"/r", "enhanced"⟩, .enhanced .flat "t"⟩
    let a : Artifact := ⟨"g", "a", "", "jar", "1-20240101.120000-3"⟩
    let d := Disk.single ["r", "g", "a", "1-SNAPSHOT", "a-1-SNAPSHOT.jar"] (.text "")
    let file := m.resolve (m.installedPath a)
    d.IsTree ∧ d.isFile file = true ∧ (m.add d ⟨a, none, []⟩).fault = none ∧
      Recorded (m.add d ⟨a, none, []⟩).disk "t" file installedOrigin := by
  intro m a d file
  obtain ⟨hd, hfile, hp, hnew, -⟩ := Manager.prepared_single
  have hresolve : file = "/r/g/a/1-SNAPSHOT/a-1-SNAPSHOT.jar" := by decide
  have hpath : Manager.trackingFile? "t" file = some "/r/g/a/1-SNAPSHOT/t" := by decide
  have hname : Path.fileName? file = some "a-1-SNAPSHOT.jar" := by decide
  rw [Manager.add_installed rfl]
  obtain ⟨hok, hback⟩ := Manager.register_recorded hpath hname hp hnew
    [installedOrigin] (by decide)
  exact ⟨hd, hresolve ▸ hfile, hok, hback _ List.mem_cons_self⟩

theorem Manager.find_add_installed_snapshot :
    let m : Manager := ⟨⟨"/r", "enhanced"⟩, .enhanced .flat "t"⟩
    let a : Artifact := ⟨"g", "a", "", "jar", "1-20240101.120000-3"⟩
    let d := Disk.single ["r", "g", "a", "1-SNAPSHOT", "a-1-SNAPSHOT.jar"] (.text "")
    let file := m.resolve (m.installedPath a)
    d.IsTree ∧ d.isFile file = true ∧ (m.add d ⟨a, none, []⟩).fault = none ∧
      Recorded (m.add d ⟨a, none, []⟩).disk "t" file installedOrigin ∧
      m.find (m.add d ⟨a, none, []⟩).disk ⟨{ a with version := a.base }, [], ""⟩ =
        .ok ⟨some file, true, none⟩ := by
  intro m a d file
  obtain ⟨hd, hfile, hok, hback⟩ := Manager.recorded_snapshot
  obtain ⟨-, hfound⟩ := Manager.find_add_installed hd rfl hfile hok hback
  exact ⟨hd, hfile, hok, hback, hfound [] ""⟩

/-- A snapshot of a certain time is not found where it was installed. -/
theorem Manager.find_timestamped_snapshot :
    let m : Manager := ⟨⟨"/r", "enhanced"⟩, .enhanced .flat "t"⟩
    let a : Artifact := ⟨"g", "a", "", "jar", "1-20240101.120000-3"⟩
    let d := Disk.single ["r", "g", "a", "1-SNAPSHOT", "a-1-SNAPSHOT.jar"] (.text "")
    let file := m.resolve (m.installedPath a)
    d.IsTree ∧ d.isFile file = true ∧ (m.add d ⟨a, none, []⟩).fault = none ∧
      Recorded (m.add d ⟨a, none, []⟩).disk "t" file installedOrigin ∧
      m.find (m.add d ⟨a, none, []⟩).disk ⟨a, [], ""⟩ = .ok {} ∧
      m.find (m.add d ⟨a, none, []⟩).disk ⟨a, [], ""⟩ ≠ .ok ⟨some file, true, none⟩ := by
  intro m a d file
  obtain ⟨hd, hfile, hok, hback⟩ := Manager.recorded_snapshot
  have hcandidates : m.candidates ⟨a, [], ""⟩ = [] := by decide
  have hfind : m.find (m.add d ⟨a, none, []⟩).disk ⟨a, [], ""⟩ = .ok {} := by
    rw [Manager.find_enhanced rfl, Manager.visits, hcandidates]
    rfl
  refine ⟨hd, hfile, hok, hback, hfind, ?_⟩
  intro hfound
  rw [hfind] at hfound
  cases hfound

end ArtifactCache
