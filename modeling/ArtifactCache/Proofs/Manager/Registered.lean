import ArtifactCache.Proofs.Manager.Visits
import ArtifactCache.Proofs.Tracking.Prepared

/-! What a registration does: it updates the tracking file beside the file of the arrival, once for
each context, and each update reads what the one before it has written. -/
namespace ArtifactCache.Manager

open Tracking (Updated)

variable {m : Manager} {d : Disk} {division : Division} {trackingName file path name : String}
  {origins : List String} {x : Arrival} {place : Place} {old r : Tracking.Record}

/-- Whether the record beside a file holds an origin of it. -/
def Recorded (d : Disk) (trackingName file origin : String) : Prop :=
  ∃ name record, Path.fileName? file = some name ∧
    recordBeside d trackingName file = .ok (some record) ∧
    record.contains (entryKey name origin) = true

/-- All that is set when origins of a file are registered is their keys. -/
theorem exists_of_originChanges {key value : String}
    (h : (originChanges name origins).get? key = some (some value)) :
    ∃ o ∈ origins, key = entryKey name o ∧ value = "" := by
  rw [get?_originChanges] at h
  split at h
  · rename_i hkey
    obtain ⟨o, ho, rfl⟩ := hkey
    cases h
    exact ⟨o, ho, rfl, rfl⟩
  · cases h

/-- What the registration of a file did that succeeded. -/
theorem register_ok (h : (register d trackingName file origins).fault = none) :
    (register d trackingName file origins).disk = d ∨
    ∃ path name record, trackingFile? trackingName file = some path ∧
      Path.fileName? file = some name ∧ Tracking.update d path (originChanges name origins) =
        ((register d trackingName file origins).disk, .ok record) := by
  rw [register] at h ⊢
  cases hpath : trackingFile? trackingName file with
  | none => exact .inl rfl
  | some path =>
    cases hname : Path.fileName? file with
    | none => exact .inl rfl
    | some name =>
      simp only [hpath, hname] at h
      cases hupdate : Tracking.update d path (originChanges name origins) with
      | mk d' answer =>
        cases answer with
        | ok record => exact .inr ⟨path, name, record, rfl, rfl, by simp only [hupdate]⟩
        | error f => simp only [hupdate, reduceCtorEq] at h

theorem register_eq (hpath : trackingFile? trackingName file = some path)
    (hname : Path.fileName? file = some name) (hp : Tracking.Prepared d path place)
    (hr : Tracking.existing d path place = .ok r) :
    register d trackingName file origins =
      { disk := Tracking.keep d place (r.apply (originChanges name origins))
        updates := [⟨path, originChanges name origins, r.apply (originChanges name origins)⟩] } := by
  simp only [register, hpath, hname, hp.update_eq hr]

/-- Origins are registered, and they are on record then if what is written comes back as it was. -/
theorem register_recorded (hpath : trackingFile? trackingName file = some path)
    (hname : Path.fileName? file = some name) (hp : Tracking.Prepared d path place)
    (hr : Tracking.existing d path place = .ok r) (origins : List String)
    (hs : ∀ e ∈ (r.apply (originChanges name origins)).entries, Tracking.Storable e.1 e.2) :
    (register d trackingName file origins).fault = none ∧
      ∀ o ∈ origins, Recorded (register d trackingName file origins).disk trackingName file o := by
  rw [register_eq hpath hname hp hr]
  refine ⟨rfl, fun o ho => ⟨name, r.apply (originChanges name origins), hname, ?_, ?_⟩⟩
  · rw [recordBeside, hpath]
    exact hp.read_keep_storable hs
  · rw [KeyMap.contains, Tracking.get?_apply, get?_originChanges, if_pos ⟨o, ho, rfl⟩]
    rfl

theorem registerAll_singleton :
    registerAll d trackingName origins [file] = register d trackingName file origins := by
  rw [registerAll]
  cases hfault : (register d trackingName file origins).fault with
  | some f => rfl
  | none =>
    simp only [registerAll, List.append_nil, ← hfault]

theorem add_installed (hmode : m.mode = .enhanced division trackingName) (d : Disk) (a : Artifact)
    (contexts : List String) : m.add d ⟨a, none, contexts⟩ =
      register d trackingName (m.resolve (m.installedPath a)) [installedOrigin] := by
  simp only [add, hmode, arrivalFiles, arrivalOrigins, registerAll_singleton]

theorem add_downloaded (hmode : m.mode = .enhanced division trackingName) (d : Disk) (a : Artifact)
    (repository : RemoteRepository) (context : String) :
    m.add d ⟨a, some repository, [context]⟩ = register d trackingName
      (m.resolve (m.downloadedPath a repository)) [repository.key context] := by
  simp only [add, hmode, arrivalFiles, arrivalOrigins, List.map_cons, List.map_nil,
    registerAll_singleton]

/-- What more registrations of a file do after the first. -/
theorem registerAll_again {n : Nat} {d' : Disk}
    (hpath : trackingFile? trackingName file = some path) (hname : Path.fileName? file = some name)
    (h : Updated d path place (originChanges name origins) old r d')
    (hok : (registerAll d' trackingName origins (List.replicate n file)).fault = none) :
    ∃ r', Updated d path place (originChanges name origins) old r'
      (registerAll d' trackingName origins (List.replicate n file)).disk := by
  induction n generalizing d' r with
  | zero => exact ⟨r, h⟩
  | succ n ih =>
    rw [List.replicate_succ, registerAll] at hok ⊢
    cases hfirst : (register d' trackingName file origins).fault with
    | some f => simp [hfirst] at hok
    | none =>
      simp only [hfirst] at hok ⊢
      rcases register_ok hfirst with hsame | ⟨path', name', r', hpath', hname', hupdate⟩
      · rw [hsame] at hok ⊢
        exact ih h hok
      · cases hpath.symm.trans hpath'
        cases hname.symm.trans hname'
        exact ih (h.again hupdate) hok

/-- The file that an arrival is about. -/
def arrivalFile (m : Manager) (x : Arrival) : String :=
  match x.repository with
  | none => m.resolve (m.installedPath x.artifact)
  | some r => m.resolve (m.downloadedPath x.artifact r)

theorem arrivalFiles_eq (m : Manager) (x : Arrival) :
    ∃ n, m.arrivalFiles x = List.replicate n (m.arrivalFile x) := by
  rw [arrivalFiles, arrivalFile]
  cases x.repository with
  | none => exact ⟨1, rfl⟩
  | some r => exact ⟨x.contexts.length, List.map_const' ..⟩

/-- What a registration did that succeeded. -/
theorem add_updated (hd : d.IsTree) (hmode : m.mode = .enhanced division trackingName)
    (hok : (m.add d x).fault = none) : (m.add d x).disk = d ∨
    ∃ path name place old r, trackingFile? trackingName (m.arrivalFile x) = some path ∧
      Path.fileName? (m.arrivalFile x) = some name ∧
      Updated d path place (originChanges name (arrivalOrigins x)) old r (m.add d x).disk := by
  obtain ⟨n, hn⟩ := arrivalFiles_eq m x
  simp only [add, hmode, hn] at hok ⊢
  clear hn
  generalize m.arrivalFile x = file at hok ⊢
  induction n with
  | zero => exact .inl rfl
  | succ n ih =>
    rw [List.replicate_succ, registerAll] at hok ⊢
    cases hfirst : (register d trackingName file (arrivalOrigins x)).fault with
    | some f => simp [hfirst] at hok
    | none =>
      simp only [hfirst] at hok ⊢
      rcases register_ok hfirst with hsame | ⟨path, name, r, hpath, hname, hupdate⟩
      · rw [hsame] at hok ⊢
        exact ih hok
      · obtain ⟨place, old, hupdated⟩ := Tracking.updated_of_update hd hupdate
        obtain ⟨r', hlast⟩ := registerAll_again hpath hname hupdated hok
        exact .inr ⟨path, name, place, old, r', hpath, hname, hlast⟩

/-- The files of a repository are there after a registration, and so are its directories. -/
theorem add_lasts (hd : d.IsTree) (hok : (m.add d x).fault = none) : d.Lasts (m.add d x).disk := by
  cases hmode : m.mode with
  | simple =>
    simp only [add, hmode]
    exact .refl d
  | enhanced division trackingName =>
    rcases add_updated hd hmode hok with hsame | ⟨path, name, place, old, r, -, -, hupdated⟩
    · rw [hsame]
      exact .refl d
    · exact hupdated.lasts hd

/-- The tracking file beside the only file of a disk can be written. -/
theorem prepared_single :
    let d := Disk.single ["r", "g", "a", "1-SNAPSHOT", "a-1-SNAPSHOT.jar"] (.text "")
    d.IsTree ∧ d.isFile "/r/g/a/1-SNAPSHOT/a-1-SNAPSHOT.jar" = true ∧
      Tracking.Prepared d "/r/g/a/1-SNAPSHOT/t" ["r", "g", "a", "1-SNAPSHOT", "t"] ∧
      Tracking.existing d "/r/g/a/1-SNAPSHOT/t" ["r", "g", "a", "1-SNAPSHOT", "t"] = .ok .empty ∧
      Tracking.read d "/r/g/a/1-SNAPSHOT/t" = .ok none := by
  intro d
  have hd : d.IsTree := Disk.isTree_of_entries rfl (by decide)
  have hfile : d.locate "/r/g/a/1-SNAPSHOT/a-1-SNAPSHOT.jar" =
      .ok ⟨["r", "g", "a", "1-SNAPSHOT", "a-1-SNAPSHOT.jar"], false⟩ :=
    Disk.locate_eq_ok_iff.2 ⟨by decide, Disk.leads_of_walk (by cbv)⟩
  have hup : d.locate "/r/g/a/1-SNAPSHOT" = .ok ⟨["r", "g", "a", "1-SNAPSHOT"], false⟩ :=
    Disk.locate_eq_ok_iff.2 ⟨by decide, Disk.leads_of_walk (by cbv)⟩
  have hl : d.locate "/r/g/a/1-SNAPSHOT/t" = .ok ⟨["r", "g", "a", "1-SNAPSHOT", "t"], false⟩ :=
    Disk.locate_eq_ok_iff.2 ⟨by decide, Disk.leads_of_walk (by cbv)⟩
  have hnone := Tracking.read_of_none (Disk.resolve_of_none hl (by decide))
  refine ⟨hd, Disk.isFile_iff_locate.2 ⟨_, .text "", hfile, by decide⟩, ?_, rfl, hnone⟩
  exact .of_isDirectory hd (by decide) (Disk.isDirectory_iff.2 ⟨_, _, hup, by decide⟩)
    (Disk.writable_of_locate (by decide) hl (by decide))

end ArtifactCache.Manager
