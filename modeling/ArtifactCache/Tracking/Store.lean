import ArtifactCache.Fault
import ArtifactCache.Files.Disk
import ArtifactCache.Log
import ArtifactCache.Tracking.Format

/-!
# Tracking files

Reading, changing and deleting the records that are kept on disk.
-/

namespace ArtifactCache.Tracking

/-- New values for keys; a key without one is removed. -/
abbrev Changes := KeyMap (Option String)

/-- Applies one change. -/
def Record.change (r : Record) (key : String) : Option String → Record
  | some value => r.insert key value
  | none => r.erase key

/-- Applies changes in the order of their keys. -/
def Record.apply (r : Record) (changes : Changes) : Record :=
  changes.entries.foldl (fun r c => Record.change r c.1 c.2) r

/-- The record in the text of the tracking file at `path`. -/
def load (path text : String) : Except Fault Record :=
  match parse text.toList with
  | .ok r => .ok r
  | .error f => .error (.trackingFormat path (.syntaxFailure f))

/-- The record in the tracking file at `path`, or none if there is no such file. -/
def read (d : Disk) (path : String) : Except Fault (Option Record) :=
  match d.readText path with
  | .ok text => (load path text).map some
  | .error e => if e = .noEntry then .ok none else .error (.trackingIo path e)

/-- The record in the tracking file that lies or is to lie at a place. -/
def existing (d : Disk) (path : String) (place : Place) : Except Fault Record :=
  match d.at? place with
  | some (.file (.text text)) => load path text
  | some (.file (.bytes _)) => .error (.trackingIo path .notText)
  | _ => .ok .empty

/-- Applies changes to the tracking file at `path`, which is made if it is missing, together with
the directories above it. Nothing else is changed, and nothing is written if anything that is modelled
here fails: not modelled are a lock that cannot be had and a write that fails once the file is open. -/
def update (d : Disk) (path : String) (changes : Changes) : Disk × Except Fault Record :=
  let (d, made) := match Path.parent? path with
    | some directory => d.makeDirectories directory
    | none => (d, .ok ())
  match made with
  | .error e => (d, .error (.trackingIo path e))
  | .ok () =>
    match d.writable path with
    | .error e => (d, .error (.trackingIo path (if e = .noEntry then .kind .notFound else e)))
    | .ok place =>
      match existing d path place with
      | .error f => (d, .error f)
      | .ok r =>
        let r := r.apply changes
        (d.put place (.file (.text (String.ofList (render r)))), .ok r)

/-- Deletes the tracking file at `path`; answers none if there is no such file. -/
def delete (d : Disk) (path : String) : Except Fault (Option Disk) :=
  match d.resolve path with
  | .error e => if e = .noEntry then .ok none else .error (.trackingIo path e)
  | .ok (_, .directory) => .error (.trackingIo path .isDirectory)
  | .ok _ =>
    match d.removeFile path with
    | .ok d => .ok (some d)
    | .error e => if e = .noEntry then .ok none else .error (.trackingIo path e)

/-- The part of the program that writes down what happens to tracking files. -/
def part : String := Log.part "tracking"

/-- The entry about a tracking file that was read. -/
def readEntry (path : String) (r : Record) : Log.Entry :=
  ⟨.trace, part, "Read " ++ toString r.size ++ " entries from " ++ path⟩

/-- The entry about a tracking file that was changed. -/
def updateEntry (path : String) (changes : Changes) (r : Record) : Log.Entry :=
  ⟨.debug, part, "Updated " ++ path ++ " with " ++ toString changes.size ++ " change(s), " ++
    toString r.size ++ " entries now"⟩

/-- The entry about a tracking file that was deleted. -/
def deleteEntry (path : String) : Log.Entry := ⟨.debug, part, "Deleted " ++ path⟩

end ArtifactCache.Tracking
