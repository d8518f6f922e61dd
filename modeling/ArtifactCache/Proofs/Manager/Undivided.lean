import ArtifactCache.Proofs.Files.FileName
import ArtifactCache.Proofs.Manager.Availability
import ArtifactCache.Proofs.Manager.Inside
import ArtifactCache.Proofs.Provider

/-! Enhanced managers without branches. They give the paths that a simple manager gives, and what they
let be used is a part of what a simple one does. -/
namespace ArtifactCache

open Manager (Request Answer look recordBeside)

variable {c : Config} {key context trackingName file name : String} {b : Bool} {s : Split}
  {division : Division} {m : Manager} {d : Disk} {q : Request} {answer : Answer}
  {record : Tracking.Record}

/-- Whether a setting is true. -/
def Config.TurnsOn (c : Config) (key : String) : Prop :=
  ∃ value, c.text? key = some value ∧ Text.lowerAscii value = "true"

/-- The names of the settings that ask for branches; the others are about those branches. -/
def Split.branching : List String := ["split", "splitLocal", "splitRemote", "splitRemoteRepository"]

/-- Whether no branches are asked for. -/
def Config.Undivided (c : Config) : Prop := ∀ name ∈ Split.branching, ¬ c.TurnsOn (Split.key name)

theorem Config.eq_false_of_boolean (h : c.boolean key false = .ok b) (hoff : ¬ c.TurnsOn key) :
    b = false := by
  rw [boolean] at h
  split at h
  · exact (Except.ok.inj h).symm
  · rename_i value hvalue
    split at h
    · rename_i htrue
      exact absurd ⟨value, hvalue, htrue⟩ hoff
    · split at h
      · exact (Except.ok.inj h).symm
      · cases h

theorem Split.isFlat_of_ofConfig (h : ofConfig c = .ok s) (hc : c.Undivided) : s.isFlat = true := by
  obtain ⟨byOrigin, horigin, h⟩ := Result.bind_eq_ok.1 h
  obtain ⟨byMaturityInstalled, hinstalled, h⟩ := Result.bind_eq_ok.1 h
  obtain ⟨byMaturityDownloaded, hdownloaded, h⟩ := Result.bind_eq_ok.1 h
  obtain ⟨byRepository, hrepository, h⟩ := Result.bind_eq_ok.1 h
  obtain ⟨repositoryLast, -, h⟩ := Result.bind_eq_ok.1 h
  cases Config.eq_false_of_boolean horigin (hc "split" (by decide))
  cases Config.eq_false_of_boolean hinstalled (hc "splitLocal" (by decide))
  cases Config.eq_false_of_boolean hdownloaded (hc "splitRemote" (by decide))
  cases Config.eq_false_of_boolean hrepository (hc "splitRemoteRepository" (by decide))
  cases h
  rfl

namespace Division

theorem flat_of_choice {choice : Choice} (h : choice.division c = .ok division)
    (hc : c.Undivided) : division = .flat := by
  cases choice with
  | configured =>
    obtain ⟨s, hs, h⟩ := Result.bind_eq_ok.1 h
    rw [Split.isFlat_of_ofConfig hs hc] at h
    exact (Except.ok.inj h).symm
  | alwaysFlat => exact (Except.ok.inj h).symm

theorem flat_of_select {selected : Selected Division} (h : select c context = .ok selected)
    (hc : c.Undivided) : selected.value = .flat := by
  obtain ⟨ranking, hranking, h⟩ := Result.bind_eq_ok.1 h
  rcases Ranking.select_cases ranking context fun choice : Choice => choice.division c with
    ⟨before, x, after, -, -, -, hmade⟩ | ⟨-, f, hf, -⟩
  · rw [hmade] at h
    obtain ⟨division, hdivision, rfl⟩ := Result.map_eq_ok.1 h
    exact flat_of_choice hdivision hc
  · cases hf.symm.trans h

end Division

namespace Manager

/-- The simple manager of the same repository. -/
def simplified (m : Manager) : Manager := ⟨m.repository, .simple⟩

/-- Whether an enhanced manager is the one that is made by a configuration, or one with the branches
that the configuration describes. -/
def MadeBy (m : Manager) (c : Config) : Prop :=
  Factory.enhanced.make c m.repository = .ok m ∨
    ∃ s trackingName, Split.ofConfig c = .ok s ∧ m.mode = .enhanced (.split s) trackingName

theorem flat_of_make (h : Factory.enhanced.make c m.repository = .ok m) (hc : c.Undivided) :
    ∃ trackingName, m.mode = .enhanced .flat trackingName := by
  rw [Factory.make] at h
  split at h
  · cases h
  · obtain ⟨trackingName, -, h⟩ := Result.bind_eq_ok.1 h
    obtain ⟨selected, hselected, h⟩ := Result.bind_eq_ok.1 h
    have hflat := Division.flat_of_select hselected hc
    have hm : (⟨m.repository, .enhanced selected.value trackingName⟩ : Manager) = m :=
      Except.ok.inj h
    exact ⟨trackingName, by rw [← hm, hflat]⟩

theorem directoriesOf_undivided (hm : m.MadeBy c) (hc : c.Undivided) (i : Item) :
    m.directoriesOf i = [] := by
  rcases hm with hmake | ⟨s, trackingName, hs, hmode⟩
  · obtain ⟨trackingName, hmode⟩ := flat_of_make hmake hc
    simp only [directoriesOf, hmode]
  · have hflat := Split.isFlat_of_ofConfig hs hc
    simp only [Split.isFlat, Bool.not_eq_true', Bool.or_eq_false_iff] at hflat
    obtain ⟨⟨⟨horigin, hinstalled⟩, hdownloaded⟩, hrepository⟩ := hflat
    simp only [directoriesOf, hmode]
    cases i.repository? <;>
      simp [Split.installedNames, Split.downloadedNames, horigin, hinstalled, hdownloaded,
        hrepository]

/-- Without branches every path is that of the layout. -/
theorem pathOf_undivided (hm : m.MadeBy c) (hc : c.Undivided) (i : Item) :
    m.pathOf i = m.simplified.pathOf i := by
  rw [pathOf_eq, pathOf_eq, directoriesOf_undivided hm hc]
  rfl

/-- Without branches there is one place where an artifact can lie. -/
theorem eq_simpleFile_of_candidate (hm : m.MadeBy c) (hc : c.Undivided)
    (h : file ∈ m.candidates q) : file = m.simpleFile q.artifact := by
  rcases List.mem_append.1 h with hinstalled | hdownloaded
  · rw [List.mem_ite_nil_right, List.mem_singleton] at hinstalled
    obtain ⟨hversion, rfl⟩ := hinstalled
    have hpath : m.installedPath q.artifact = Layout.artifactPath q.artifact .installed :=
      pathOf_undivided hm hc (.installed q.artifact)
    rw [hpath, simpleFile, Layout.artifactPath, Layout.artifactPath, Layout.fileVersion,
      Layout.fileVersion, hversion]
  · obtain ⟨r, -, rfl⟩ := List.mem_map.1 hdownloaded
    have hpath : m.downloadedPath q.artifact r = Layout.artifactPath q.artifact .downloaded :=
      pathOf_undivided hm hc (.downloaded q.artifact r)
    rw [hpath, simpleFile]

theorem exists_candidates (h : q.repositories ≠ [] ∨ q.artifact.version = q.artifact.base) :
    ∃ file files, m.candidates q = file :: files := by
  apply List.exists_cons_of_ne_nil
  rw [candidates, Ne, List.append_eq_nil_iff]
  rintro ⟨hinstalled, hdownloaded⟩
  rcases h with hrepositories | hversion
  · exact hrepositories (List.map_eq_nil_iff.1 hdownloaded)
  · rw [if_pos hversion] at hinstalled
    exact List.cons_ne_nil _ _ hinstalled

theorem find_simplified (m : Manager) (d : Disk) (q : Request) : m.simplified.find d q =
    .ok (if d.isFile (m.simpleFile q.artifact) then ⟨some (m.simpleFile q.artifact), true, none⟩
      else {}) := rfl

/-- What a simple manager answers lies where the manager looks. -/
theorem of_find_simplified (h : m.simplified.find d q = .ok answer)
    (havailable : answer.available = true) :
    answer.path = some (m.simpleFile q.artifact) ∧ d.isFile (m.simpleFile q.artifact) = true := by
  rw [find_simplified, Except.ok.injEq] at h
  subst h
  split at havailable
  · rename_i hfile
    exact ⟨by rw [if_pos hfile], hfile⟩
  · cases havailable

/-- What the manager lets be used, a simple one does. -/
theorem find_simplified_of_available (hm : m.MadeBy c) (hc : c.Undivided)
    (hmode : m.mode = .enhanced division trackingName) (h : m.find d q = .ok answer)
    (havailable : answer.available = true) :
    ∃ file, answer.path = some file ∧ m.simplified.find d q = .ok ⟨some file, true, none⟩ := by
  rw [find_enhanced hmode] at h
  obtain ⟨file, hpath⟩ := path_of_available h havailable
  obtain ⟨path, available, repository⟩ := answer
  cases hpath
  obtain ⟨v, hv, rfl, verdict, hverdict, -, -⟩ := exists_of_conclude h
  obtain ⟨file, hfile, rfl⟩ := mem_visitsOf hv
  rw [look_file]
  have hthere := isFile_of_verdict hverdict
  have hsame := eq_simpleFile_of_candidate hm hc hfile
  refine ⟨file, rfl, ?_⟩
  rw [find_simplified, ← hsame, if_pos hthere]

/-- A file of which nothing is recorded may be used as if it was installed. -/
theorem find_untracked (hm : m.MadeBy c) (hc : c.Undivided)
    (hmode : m.mode = .enhanced division trackingName) (hd : d.IsTree)
    (hfile : d.isFile (m.simpleFile q.artifact) = true) {record : Option Tracking.Record}
    (hrecord : recordBeside d trackingName (m.simpleFile q.artifact) = .ok record)
    (hnone : ∀ name, Path.fileName? (m.simpleFile q.artifact) = some name →
      isTracked (record.getD .empty) name = false)
    (hasked : q.repositories ≠ [] ∨ q.artifact.version = q.artifact.base) :
    m.find d q = .ok ⟨some (m.simpleFile q.artifact), true, none⟩ := by
  obtain ⟨file, files, hcandidates⟩ := exists_candidates (m := m) hasked
  have hfirst : file ∈ m.candidates q := by
    rw [hcandidates]
    exact List.mem_cons_self
  rw [← eq_simpleFile_of_candidate hm hc hfirst] at hfile hrecord hnone ⊢
  obtain ⟨name, hname⟩ := hd.fileName_of_isFile hfile
  have hlook := look_known q hfile hname hrecord
  rw [Verdict.ofRecord_eq_untracked_iff.2 (hnone name hname)] at hlook
  exact find_of_first hmode hcandidates hlook rfl

/-- An enhanced manager whose configuration asks for no branches gives the paths that the simple manager
of its repository gives. What it lets be used the simple one does, at the same path; and it lets a file
be used that the simple one does, if the record beside the file can be read and has no entry of it, for
a request that names a repository or the artifact by its base version. -/
theorem undivided_restricts (hc : c.Undivided) (hm : m.MadeBy c)
    (hmode : m.mode = .enhanced division trackingName) :
    (∀ i, m.pathOf i = m.simplified.pathOf i) ∧
    (∀ d q answer, m.find d q = .ok answer → answer.available = true →
      ∃ file, answer.path = some file ∧ m.simplified.find d q = .ok ⟨some file, true, none⟩) ∧
    ∀ d q answer, Disk.IsTree d → m.simplified.find d q = .ok answer → answer.available = true →
      ∃ file, answer.path = some file ∧ ∀ record, recordBeside d trackingName file = .ok record →
        (∀ name, Path.fileName? file = some name → isTracked (record.getD .empty) name = false) →
        (q.repositories ≠ [] ∨ q.artifact.version = q.artifact.base) →
        m.find d q = .ok ⟨some file, true, none⟩ := by
  refine ⟨pathOf_undivided hm hc, ?_, ?_⟩
  · intro d q answer h havailable
    exact find_simplified_of_available hm hc hmode h havailable
  · intro d q answer hd h havailable
    obtain ⟨hpath, hfile⟩ := of_find_simplified h havailable
    exact ⟨_, hpath, fun _ => find_untracked hm hc hmode hd hfile⟩

/-- Names of branches do not matter where there are none; a snapshot without a record is installed. -/
theorem undivided_restricts_snapshot :
    let c := (((Config.empty.set trackingNameKey "t").set (Split.key "split") "False").set
      (Split.key "remotePrefix") "x").set (Split.key "splitRemoteRepositoryLast") "true"
    let m : Manager := ⟨⟨"/r", "enhanced"⟩, .enhanced .flat "t"⟩
    let q : Request := ⟨⟨"g", "a", "", "jar", "1-SNAPSHOT"⟩, [], ""⟩
    let d := Disk.single ["r", "g", "a", "1-SNAPSHOT", "a-1-SNAPSHOT.jar"] (.text "")
    let answer : Answer := ⟨some "/r/g/a/1-SNAPSHOT/a-1-SNAPSHOT.jar", true, none⟩
    c.Undivided ∧ m.MadeBy c ∧ d.IsTree ∧ m.simplified.find d q = .ok answer ∧
      m.find d q = .ok answer := by
  intro c m q d answer
  obtain ⟨hd, hfile, -, -, hnone⟩ := prepared_single
  have hc : c.Undivided := by
    have hoff : ∀ name ∈ Split.branching,
        (c.text? (Split.key name)).map Text.lowerAscii ≠ some "true" := by decide
    rintro name hname ⟨value, hvalue, htrue⟩
    apply hoff name hname
    rw [hvalue, Option.map_some, htrue]
  have hm : m.MadeBy c := by
    have htext : Text.trim (c.textOr trackingNameKey defaultTrackingName) = "t" := by decide
    have hflat : ∃ selected, Division.select c (Division.context m.repository) = .ok selected ∧
        selected.value = .flat := ⟨_, rfl, rfl⟩
    obtain ⟨selected, hselected, hvalue⟩ := hflat
    left
    rw [Factory.make, if_neg (by decide), Config.trackingName, htext, if_pos (by decide)]
    simp only [bind, Except.bind, hselected, hvalue]
    rfl
  have hplace : m.simpleFile q.artifact = "/r/g/a/1-SNAPSHOT/a-1-SNAPSHOT.jar" := by decide
  have hsimple : m.simplified.find d q = .ok answer := by
    rw [find_simplified, hplace, if_pos hfile]
  have hmode : m.mode = .enhanced .flat "t" := rfl
  obtain ⟨-, -, hup⟩ := undivided_restricts hc hm hmode
  obtain ⟨file, hpath, hfind⟩ := hup d q answer hd hsimple rfl
  cases hpath
  have hrecord : recordBeside d "t" "/r/g/a/1-SNAPSHOT/a-1-SNAPSHOT.jar" = .ok none := hnone
  refine ⟨hc, hm, hd, hsimple, hfind none hrecord ?_ (.inr (by decide))⟩
  intro name _
  rfl

end Manager
end ArtifactCache
