import ArtifactCache.CommandLine.Run

/-!
# Program

Loads what a command can look at from the file system, runs the command, and brings back what it
changed.
-/

namespace ArtifactCache.Program

open CommandLine (Invocation Environment)

/-- What is at a path, if anything is; of files, only those with the given names are read. A link is
taken to lead where it finally does. -/
def entryAt (names : List String) (path name : String) : IO (Option Entry) := do
  let file ← try some <$> IO.FS.realPath path catch _ => pure none
  match file with
  | none => return none
  | some real =>
    let parent ← IO.FS.realPath ((Path.parent? path).getD "/")
    let here := if path = "/" then "/" else Path.join parent.toString name
    if real.toString ≠ here then return some (.link real.toString)
    if ← real.isDir then return some .directory
    if !names.contains name then return some (.file (.bytes []))
    let bytes ← IO.FS.readBinFile path
    return some (.file (match String.fromUTF8? bytes with
      | some text => .text text
      | none => .bytes bytes.toList))

/-- Loads what is at a place and, if `deep`, everything below it. -/
partial def loadPlace (names : List String) (deep : Bool) (d : Disk) (p : Place) : IO Disk := do
  let path := Disk.placePath p
  match ← entryAt names path (p.getLast?.getD "") with
  | none => return d
  | some .directory =>
    let d := if p = [] then d else d.put p .directory
    if !deep then return d
    let children ← (← IO.FS.realPath path).readDir
    children.foldlM (fun d child => loadPlace names true d (p ++ [child.fileName])) d
  | some (.link target) =>
    let d := d.put p (.link target)
    let q := Disk.pathNames target
    if (d.at? q).isSome then return d
    let d ← (List.range q.length).foldlM (fun d n => loadPlace names false d (q.take n)) d
    loadPlace names deep d q
  | some e => return d.put p e

/-- Loads what a path leads to and everything on the way. -/
def loadPath (names : List String) (d : Disk) (path : String) : IO Disk := do
  let p := Disk.pathNames (Path.absolute (Disk.placePath d.current) path)
  let d ← (List.range p.length).foldlM (fun d n => loadPlace names false d (p.take n)) d
  loadPlace names true d p

/-- The paths that a command can look at, besides its configuration. -/
def pathsOf (home : String) (i : Invocation) : List String :=
  let base := i.options.localRepo.getD (LocalRepository.defaultPath home)
  match i.command with
  | .showRecord directory _ | .resetRecord directory => [base, Path.join base directory]
  | _ => [base]

/-- The disk as far as a command can look at it. -/
def loadDisk (e : Environment) (i : Invocation) : IO Disk := do
  let current := Disk.pathNames (← IO.currentDir).toString
  let d : Disk := { current }
  let d ← match i.options.config with
    | none => pure d
    | some path => loadPath [(Path.fileName? path).getD ""] d path
  let name := match CommandLine.loadConfig i.options |>.run.run { disk := d } with
    | (.ok c, _) => (c.trackingName.toOption).getD defaultTrackingName
    | (.error _, _) => defaultTrackingName
  (pathsOf e.home i).foldlM (loadPath [name]) d

/-- Brings one entry to the file system. -/
def storeEntry (p : Place) (e : Entry) : IO Unit := do
  let path := Disk.placePath p
  match e with
  | .directory => IO.FS.createDirAll path
  | .file (.text text) => IO.FS.writeFile path text
  | _ => pure ()

/-- Brings the difference between two disks to the file system. -/
def storeChanges (before after : Disk) : IO Unit := do
  let changed := after.entries.filter fun x => before.at? x.1 ≠ some x.2
  for x in changed.mergeSort (fun x y => x.1.length ≤ y.1.length) do
    storeEntry x.1 x.2
  for x in before.entries do
    if (after.at? x.1).isNone then IO.FS.removeFile (Disk.placePath x.1)

/-- Runs a command line; answers the exit code. -/
def runArguments (arguments : List String) : IO UInt32 := do
  let e : Environment :=
    { home := (← IO.getEnv "HOME").getD ".", localRepo := ← IO.getEnv "LOCAL_REPO" }
  let disk ← match CommandLine.parse e.localRepo arguments with
    | .ok i => loadDisk e i
    | .error _ => pure {}
  let outcome := CommandLine.run e disk arguments
  storeChanges disk outcome.disk
  IO.print outcome.output
  IO.eprint outcome.errors
  return UInt32.ofNat outcome.code

end ArtifactCache.Program

/-- Runs the command line. -/
def main (arguments : List String) : IO UInt32 :=
  ArtifactCache.Program.runArguments arguments
