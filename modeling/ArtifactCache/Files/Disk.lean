import ArtifactCache.Files.Path
import ArtifactCache.IoError

/-!
# Disk

A tree of directories, files and links, and what the operating system does with paths in it.
-/

namespace ArtifactCache

/-- What a file holds: text, or bytes that are none. -/
inductive Content
  | text (text : String)
  | bytes (bytes : List UInt8)
  deriving DecidableEq

/-- What is found under a name. -/
inductive Entry
  | directory
  | file (content : Content)
  | link (target : String)
  deriving DecidableEq

/-- The names that lead from the root to an entry. -/
abbrev Place := List String

/-- A tree of entries, and the directory that paths without a root start from. -/
structure Disk where
  entries : List (Place × Entry) := []
  current : Place := []

namespace Disk

/-- The entry at a place; the root is always a directory. -/
def at? (d : Disk) (p : Place) : Option Entry :=
  if p = [] then some .directory else d.entries.lookup p

/-- The disk with another entry at a place. -/
def put (d : Disk) (p : Place) (e : Entry) : Disk :=
  { d with entries := (p, e) :: d.entries.filter fun x => x.1 ≠ p }

/-- The disk without the entry at a place. -/
def erase (d : Disk) (p : Place) : Disk :=
  { d with entries := d.entries.filter fun x => x.1 ≠ p }

/-- How many links are followed at most. -/
def maxLinks : Nat := 40

/-- How many bytes a name may have. -/
def maxName : Nat := 255

/-- How many bytes a path may have. -/
def maxPath : Nat := 4095

/-- Where a path leads. -/
structure Spot where
  place : Place
  /-- Whether the path insists on a directory. -/
  slash : Bool

/-- The names of a path between its slashes. -/
def pathNames (path : String) : List String := (Text.splitOn '/' path).filter (· ≠ "")

/-- Walks from a place along names. All names but the last have to be there; a link is followed, the
last one only if `follow` or a slash behind it says so. -/
def walk (d : Disk) (follow : Bool) (links : Nat) (p : Place) (names : List String) (slash : Bool) :
    Except IoError Spot :=
  match names with
  | [] => .ok ⟨p, slash⟩
  | n :: ns =>
    if n = "." then walk d follow links p ns slash
    else if n = ".." then walk d follow links p.dropLast ns slash
    else if maxName < n.utf8ByteSize then .error .nameTooLong
    else
      let q := p ++ [n]
      match d.at? q with
      | none => if ns.isEmpty then .ok ⟨q, slash⟩ else .error .noEntry
      | some .directory => walk d follow links q ns slash
      | some (.file _) => if ns.isEmpty then .ok ⟨q, slash⟩ else .error .notDirectory
      | some (.link target) =>
        if ns.isEmpty && !follow && !slash then .ok ⟨q, slash⟩
        else match links with
          | 0 => .error .tooManyLinks
          | links + 1 =>
            walk d follow links (if Path.isRooted target then [] else p) (pathNames target ++ ns)
              (slash || (ns.isEmpty && Path.endsInSlash target))
termination_by (links, names.length)

/-- Whether the operating system takes a text for a path at all. -/
def checkPath (path : String) : Except IoError Unit :=
  if path.toList.contains '\x00' then .error .nulInName
  else if path = "" then .error .noEntry
  else if maxPath < path.utf8ByteSize then .error .nameTooLong
  else .ok ()

/-- Where the walk along a path starts. -/
def start (d : Disk) (path : String) : Place := if Path.isRooted path then [] else d.current

/-- Where a path leads when links are followed. -/
def locate (d : Disk) (path : String) : Except IoError Spot := do
  checkPath path
  d.walk true maxLinks (d.start path) (pathNames path) (Path.endsInSlash path)

/-- The last name of a path and the directory it is looked for in. -/
structure Seat where
  directory : Place
  /-- There is none when the path leads to the root, or its last name is `.` or `..`. -/
  name : Option String
  slash : Bool

/-- The directory and the last name of a path; a link at the end is not followed. -/
def seat (d : Disk) (path : String) : Except IoError Seat := do
  checkPath path
  let slash := Path.endsInSlash path
  match (pathNames path).reverse with
  | [] => return ⟨[], none, slash⟩
  | last :: back =>
    let spot ← d.walk true maxLinks (d.start path) back.reverse true
    match d.at? spot.place with
    | some .directory => pure ()
    | some _ => throw .notDirectory
    | none => throw .noEntry
    if last = "." ∨ last = ".." then return ⟨spot.place, none, slash⟩
    else if maxName < last.utf8ByteSize then throw .nameTooLong
    else return ⟨spot.place, some last, slash⟩

/-- The place and the entry that a path leads to. -/
def resolve (d : Disk) (path : String) : Except IoError (Place × Entry) := do
  let spot ← d.locate path
  match d.at? spot.place with
  | none => throw .noEntry
  | some .directory => return (spot.place, .directory)
  | some e => if spot.slash then throw .notDirectory else return (spot.place, e)

def isDirectory (d : Disk) (path : String) : Bool :=
  match d.resolve path with
  | .ok (_, .directory) => true
  | _ => false

def isFile (d : Disk) (path : String) : Bool :=
  match d.resolve path with
  | .ok (_, .file _) => true
  | _ => false

/-- The path of a place. -/
def placePath (p : Place) : String := "/" ++ Text.join "/" p

/-- The path without links and names that lead back of what a path leads to. -/
def canonical (d : Disk) (path : String) : Except IoError String := do
  return placePath (← d.resolve path).1

/-- The text of a file. -/
def readText (d : Disk) (path : String) : Except IoError String := do
  match ← d.resolve path with
  | (_, .file (.text s)) => return s
  | (_, .file (.bytes _)) => throw .notText
  | (_, _) => throw .isDirectory

/-- Where a file that is to be written lies or comes to lie. -/
def writable (d : Disk) (path : String) : Except IoError Place := do
  if Path.endsInSlash path then
    let _ ← d.seat path
    throw .isDirectory
  let spot ← d.locate path
  if spot.slash then throw .isDirectory
  match d.at? spot.place with
  | some .directory => throw .isDirectory
  | _ => return spot.place

/-- Writes a file. -/
def write (d : Disk) (path : String) (content : Content) : Except IoError Disk := do
  return d.put (← d.writable path) (.file content)

/-- Makes a directory in one that is there. -/
def makeDirectory (d : Disk) (path : String) : Except IoError Disk := do
  let seat ← d.seat path
  match seat.name with
  | none => throw .alreadyExists
  | some n =>
    let p := seat.directory ++ [n]
    match d.at? p with
    | some _ => throw .alreadyExists
    | none => return d.put p .directory

/-- Makes the first of the paths a directory, and before it as many of the following ones, which it
lies below, as are missing. -/
def makeAll (d : Disk) : List String → Disk × Except IoError Unit
  | [] => (d, .ok ())
  | path :: above =>
    if path = "" then (d, .ok ())
    else match d.makeDirectory path with
      | .ok d => (d, .ok ())
      | .error e =>
        if e = .noEntry then
          match d.makeAll above with
          | (d, .error e) => (d, .error e)
          | (d, .ok ()) => match d.makeDirectory path with
            | .ok d => (d, .ok ())
            | .error e => (d, if d.isDirectory path then .ok () else .error e)
        else (d, if d.isDirectory path then .ok () else .error e)

/-- Makes a directory and all those above it that are missing. Those that could be made stay, even if
one below them could not. -/
def makeDirectories (d : Disk) (path : String) : Disk × Except IoError Unit :=
  d.makeAll (Path.ancestors path)

/-- Makes a link. -/
def makeLink (d : Disk) (target path : String) : Except IoError Disk := do
  checkPath target
  let seat ← d.seat path
  match seat.name with
  | none => throw .alreadyExists
  | some n =>
    let p := seat.directory ++ [n]
    match d.at? p with
    | some _ => throw .alreadyExists
    | none => if seat.slash then throw .noEntry else return d.put p (.link target)

/-- Removes a file or a link. -/
def removeFile (d : Disk) (path : String) : Except IoError Disk := do
  let seat ← d.seat path
  match seat.name with
  | none => throw .isDirectory
  | some n =>
    let p := seat.directory ++ [n]
    match d.at? p with
    | none => throw .noEntry
    | some .directory => throw .isDirectory
    | some _ => if seat.slash then throw .notDirectory else return d.erase p

/-- Removes what a path leads to, with everything below it; a link at the end is not followed. -/
def removeAll (d : Disk) (path : String) : Except IoError Disk := do
  let seat ← d.seat path
  match seat.name with
  | none => throw (.code 22)
  | some n =>
    let p := seat.directory ++ [n]
    match d.at? p with
    | none => throw .noEntry
    | some _ => return { d with entries := d.entries.filter fun x => !p.isPrefixOf x.1 }

/-- The names that lead from a place to the entries below it. -/
def namesBelow (d : Disk) (p : Place) : List Place :=
  (d.entries.map (·.1)).eraseDups.filterMap fun q =>
    if p.isPrefixOf q && p.length < q.length then some (q.drop p.length) else none

/-- Everything below a place: the names that lead to it from there, and what it is. -/
def below (d : Disk) (p : Place) : List (Place × Entry) :=
  (d.namesBelow p).filterMap fun names => (d.at? (p ++ names)).map fun e => (names, e)

end Disk
end ArtifactCache
