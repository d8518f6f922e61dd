import ArtifactCache.Manager.Find

/-!
# Registering artifacts

An enhanced manager records where a file that was put into the repository comes from.
-/

namespace ArtifactCache.Manager

/-- A change that was made to a tracking file, and what it holds since. -/
structure Update where
  path : String
  changes : Tracking.Changes
  record : Tracking.Record

/-- The state after some changes, the changes, and what put an end to them, if anything did. -/
structure Registered where
  disk : Disk
  updates : List Update := []
  fault : Option Fault := none

/-- The changes that give a file the given origins. -/
def originChanges (name : String) (origins : List String) : Tracking.Changes :=
  .ofList (origins.map fun origin => (entryKey name origin, some ""))

/-- Records the origins of a file. -/
def register (d : Disk) (trackingName file : String) (origins : List String) : Registered :=
  match trackingFile? trackingName file, Path.fileName? file with
  | some path, some name =>
    let changes := originChanges name origins
    match Tracking.update d path changes with
    | (d, .ok record) => { disk := d, updates := [⟨path, changes, record⟩] }
    | (d, .error f) => { disk := d, fault := some f }
  | _, _ => { disk := d }

/-- Records the origins of files, one after the other, as long as that succeeds. -/
def registerAll (d : Disk) (trackingName : String) (origins : List String) :
    List String → Registered
  | [] => { disk := d }
  | file :: files =>
    let first := register d trackingName file origins
    match first.fault with
    | some _ => first
    | none =>
      let rest := registerAll first.disk trackingName origins files
      { rest with updates := first.updates ++ rest.updates }

/-- The files whose origins an arrival gives, one for each context. -/
def arrivalFiles (m : Manager) (x : Arrival) : List String :=
  match x.repository with
  | none => [m.resolve (m.installedPath x.artifact)]
  | some r => x.contexts.map fun _ => m.resolve (m.downloadedPath x.artifact r)

/-- The origins that an arrival gives to its files. -/
def arrivalOrigins (x : Arrival) : List String :=
  match x.repository with
  | none => [installedOrigin]
  | some r => x.contexts.map r.key

/-- Registers an arrival. -/
def add (m : Manager) (d : Disk) (x : Arrival) : Registered :=
  match m.mode with
  | .simple => { disk := d }
  | .enhanced _ trackingName =>
    registerAll d trackingName (arrivalOrigins x) (m.arrivalFiles x)

/-- What is written down at the end of a registration. -/
def arrivalEntry (x : Arrival) : Log.Entry :=
  ⟨.debug, part "enhanced", match x.repository with
    | none => "Registered " ++ x.artifact.display ++ " as a local install"
    | some r =>
      if x.contexts.isEmpty then "No context given for " ++ x.artifact.display ++ ", nothing registered"
      else "Registered " ++ x.artifact.display ++ " as obtained from " ++ r.id⟩

/-- The entries about a registration. -/
def addLog (m : Manager) (d : Disk) (x : Arrival) : List Log.Entry :=
  match m.mode with
  | .simple => []
  | .enhanced .. =>
    let done := m.add d x
    done.updates.map (fun u => Tracking.updateEntry u.path u.changes u.record) ++
      (if done.fault.isNone then [arrivalEntry x] else [])

end ArtifactCache.Manager
