import ArtifactCache.Manager.Origin

/-!
# Finding artifacts

An enhanced manager looks at the places where an artifact can lie, one after the other, until it
meets a file that may be used or a record that cannot be read.
-/

namespace ArtifactCache.Manager

/-- The tracking file beside a file. -/
def trackingFile? (trackingName file : String) : Option String :=
  (Path.parent? file).map fun directory => Path.join directory trackingName

/-- The record beside a file. -/
def recordBeside (d : Disk) (trackingName file : String) : Except Fault (Option Tracking.Record) :=
  match trackingFile? trackingName file with
  | some path => Tracking.read d path
  | none => .ok none

/-- What was met at a place where an artifact can lie. -/
inductive Finding
  | nothing
  | unreadable (fault : Fault)
  | known (record : Option Tracking.Record) (verdict : Verdict)

/-- A place that was looked at. -/
structure Visit where
  file : String
  finding : Finding

namespace Visit

/-- Whether nothing further is looked at. -/
def isLast (v : Visit) : Bool :=
  match v.finding with
  | .nothing => false
  | .unreadable _ => true
  | .known _ verdict => verdict.accepts

/-- The fault that was met. -/
def fault? (v : Visit) : Option Fault :=
  match v.finding with
  | .unreadable f => some f
  | _ => none

/-- What is known of the file that was met. -/
def verdict? (v : Visit) : Option Verdict :=
  match v.finding with
  | .known _ verdict => some verdict
  | _ => none

end Visit

/-- Looks at one place. -/
def look (d : Disk) (trackingName : String) (q : Request) (file : String) : Visit :=
  if d.isFile file then
    match Path.fileName? file with
    | none => ⟨file, .nothing⟩
    | some name =>
      match recordBeside d trackingName file with
      | .error f => ⟨file, .unreadable f⟩
      | .ok record =>
        ⟨file, .known record
          (.ofRecord (record.getD .empty) name q.context q.repositories)⟩
  else ⟨file, .nothing⟩

/-- The places where an artifact can lie: as an installed one, unless it is a snapshot of a certain
time, and as one that was downloaded from each of the repositories. -/
def candidates (m : Manager) (q : Request) : List String :=
  (if q.artifact.version = q.artifact.base then [m.resolve (m.installedPath q.artifact)] else []) ++
    q.repositories.map fun r => m.resolve (m.downloadedPath q.artifact r)

/-- Looks at places in order up to the last that has to be looked at. -/
def visitsOf (d : Disk) (trackingName : String) (q : Request) : List String → List Visit
  | [] => []
  | file :: files =>
    let v := look d trackingName q file
    if v.isLast then [v] else v :: visitsOf d trackingName q files

/-- The places that an enhanced manager looks at. -/
def visits (m : Manager) (d : Disk) (trackingName : String) (q : Request) : List Visit :=
  visitsOf d trackingName q (m.candidates q)

/-- What visits add up to: the last file that was met, and what is known of it. -/
def conclude (vs : List Visit) : Except Fault Answer :=
  match vs.findSome? Visit.fault? with
  | some f => .error f
  | none =>
    let met := vs.filterMap fun v => v.verdict?.map fun verdict => (v.file, verdict)
    match met.getLast? with
    | none => .ok {}
    | some (file, verdict) =>
      .ok { path := some file, available := verdict.accepts, repository := verdict.repository? }

/-- The file that a simple manager takes for an artifact. -/
def simpleFile (m : Manager) (a : Artifact) : String :=
  m.resolve (Layout.artifactPath a .downloaded)

/-- Finds an artifact. -/
def find (m : Manager) (d : Disk) (q : Request) : Except Fault Answer :=
  match m.mode with
  | .simple =>
    let file := m.simpleFile q.artifact
    .ok (if d.isFile file then { path := some file, available := true } else {})
  | .enhanced _ trackingName => conclude (m.visits d trackingName q)

/-- The part of the program that writes down what a manager does. -/
def part (name : String) : String := Log.part ("manager::" ++ name)

/-- The entries about one place that was looked at. -/
def visitLog (trackingName : String) (v : Visit) : List Log.Entry :=
  match v.finding with
  | .known record verdict =>
    let read := match trackingFile? trackingName v.file, record with
      | some path, some r => [Tracking.readEntry path r]
      | _, _ => []
    read ++ [match verdict with
      | .installed => ⟨.trace, part "enhanced", v.file ++ " is a local install"⟩
      | .obtained r => ⟨.trace, part "enhanced", v.file ++ " was obtained from " ++ r.id⟩
      | .untracked =>
        ⟨.trace, part "enhanced", v.file ++ " is not tracked, treating it as a local install"⟩
      | .foreign => ⟨.debug, part "enhanced",
          v.file ++ " exists but was not obtained from any of the requested repositories"⟩]
  | _ => []

/-- The entries about finding an artifact. -/
def findLog (m : Manager) (d : Disk) (q : Request) : List Log.Entry :=
  match m.mode with
  | .simple =>
    let file := m.simpleFile q.artifact
    if d.isFile file then
      [⟨.trace, part "simple", "Found " ++ q.artifact.display ++ " at " ++ file⟩]
    else []
  | .enhanced _ trackingName => (m.visits d trackingName q).flatMap (visitLog trackingName)

end ArtifactCache.Manager
