import ArtifactCache.Manager.Add
import ArtifactCache.Proofs.Files.Making
import ArtifactCache.Proofs.Tracking.RoundTrip
import Mathlib.Data.Finset.Dedup
import Mathlib.Data.Finset.Union

/-! What a repository with tracking files amounts to: a set of origins, each of a file in a directory.
A run of commands is carried out on a disk and in such a ledger. -/
namespace ArtifactCache

open Manager (Request Answer Arrival)

variable {m : Manager} {trackingName rel directory : String}

/-- The directory of a file, as the names that lead to it from the repository. -/
def directoryOf (rel : String) : List String := (Path.names rel).dropLast

/-- The name of a file. -/
def nameOf (rel : String) : String := (Path.names rel).getLastD ""

/-- Where the files of a repository lie, and which origins they have: a directory, the name of a file
in it, and the key of a repository, which is empty for an installed file. -/
structure Ledger where
  files : Finset (List String)
  origins : Finset (List String × String × String)

namespace Ledger

/-- What is known of a file. -/
def verdict (l : Ledger) (q : Request) (rel : String) : Verdict :=
  if (directoryOf rel, nameOf rel, "") ∈ l.origins then .installed
  else match q.repositories.find? fun r =>
      (directoryOf rel, nameOf rel, r.key q.context) ∈ l.origins with
    | some r => .obtained r
    | none =>
      if ∃ t ∈ l.origins, t.1 = directoryOf rel ∧ t.2.1 = nameOf rel then .foreign else .untracked

/-- Goes on to find an artifact among paths, after what has been met. -/
def findAmong (l : Ledger) (m : Manager) (q : Request) (met : Answer) : List String → Answer
  | [] => met
  | rel :: rels =>
    if Path.names rel ∈ l.files then
      let v := l.verdict q rel
      let answer := { path := some (m.resolve rel), available := v.accepts, repository := v.repository? }
      if v.accepts then answer else l.findAmong m q answer rels
    else l.findAmong m q met rels

end Ledger

/-- The paths of an artifact below the repository: as an installed one, unless it is a snapshot of a
certain time, and as one that was downloaded from each of the repositories. -/
def Manager.paths (m : Manager) (q : Request) : List String :=
  (if q.artifact.version = q.artifact.base then [m.installedPath q.artifact] else []) ++
    q.repositories.map (m.downloadedPath q.artifact)

namespace Ledger

/-- Finds an artifact. -/
def find (l : Ledger) (m : Manager) (q : Request) : Answer := l.findAmong m q {} (m.paths q)

/-- Gives a file origins. -/
def register (l : Ledger) (rel : String) (origins : List String) : Ledger :=
  { l with
    origins := l.origins ∪ (origins.map fun o => (directoryOf rel, nameOf rel, o)).toFinset }

/-- Registers an arrival: an installed file, or in each context the file that was downloaded with the
keys of all contexts. -/
def add (l : Ledger) (m : Manager) (x : Arrival) : Ledger :=
  match x.repository with
  | none => l.register (m.installedPath x.artifact) [""]
  | some r => x.contexts.foldl
      (fun l _ => l.register (m.downloadedPath x.artifact r) (x.contexts.map r.key)) l

/-- Forgets the origins of all files in a directory. -/
def forget (l : Ledger) (directory : String) : Ledger :=
  { l with origins := l.origins.filter fun t => t.1 ≠ Path.names directory }

end Ledger

/-- What is done to a repository. -/
inductive Command
  | place (rel : String) (content : Content)
  | remove (rel : String)
  | add (x : Arrival)
  | forget (directory : String)
  | find (q : Request)

/-- Carries out a command in a ledger. -/
def Ledger.step (l : Ledger) (m : Manager) : Command → Ledger × Option Answer
  | .place rel _ => ({ l with files := insert (Path.names rel) l.files }, none)
  | .remove rel => ({ l with files := l.files.erase (Path.names rel) }, none)
  | .add x => (l.add m x, none)
  | .forget directory => (l.forget directory, none)
  | .find q => (l, some (l.find m q))

/-- Carries out commands in a ledger; answers what was found. -/
def Ledger.run (l : Ledger) (m : Manager) : List Command → List Answer
  | [] => []
  | c :: cs =>
    let (l, answer) := l.step m c
    answer.toList ++ l.run m cs

namespace Manager

/-- Writes a file below the repository, with the directories above it. -/
def place (m : Manager) (d : Disk) (rel : String) (content : Content) : Except Fault Disk :=
  match d.makeParents (m.resolve rel) with
  | (_, .error e) => .error (.io e)
  | (d, .ok ()) => (d.write (m.resolve rel) content).mapError .io

/-- Carries out a command on a disk. -/
def step (m : Manager) (trackingName : String) (d : Disk) :
    Command → Except Fault (Disk × Option Answer)
  | .place rel content => (m.place d rel content).map fun d => (d, none)
  | .remove rel => ((d.removeFile (m.resolve rel)).mapError .io).map fun d => (d, none)
  | .add x => match (m.add d x).fault with
    | some f => .error f
    | none => .ok ((m.add d x).disk, none)
  | .forget directory =>
    (Tracking.delete d (Path.join (m.resolve directory) trackingName)).map fun d' =>
      (d'.getD d, none)
  | .find q => (m.find d q).map fun answer => (d, some answer)

/-- Carries out commands on a disk up to the first that fails; answers what was found. -/
def run (m : Manager) (trackingName : String) (d : Disk) : List Command → Except Fault (List Answer)
  | [] => .ok []
  | c :: cs =>
    match m.step trackingName d c with
    | .error f => .error f
    | .ok (d, answer) => (m.run trackingName d cs).map (answer.toList ++ ·)

/-- Whether the operating system does not let the origins of files be recorded one after the other. -/
def DeniedAmong (trackingName : String) (origins : List String) (d : Disk) : List String → Prop
  | [] => False
  | file :: files =>
    (∃ path, trackingFile? trackingName file = some path ∧ d.Unwritable path) ∨
      (register d trackingName file origins).fault = none ∧
        DeniedAmong trackingName origins (register d trackingName file origins).disk files

/-- Whether the operating system does not let a command be carried out. -/
def Denied (m : Manager) (trackingName : String) (d : Disk) : Command → Prop
  | .place rel _ => d.Unwritable (m.resolve rel)
  | .remove rel => ∃ e, d.removeFile (m.resolve rel) = .error e
  | .add x => DeniedAmong trackingName (arrivalOrigins x) d (m.arrivalFiles x)
  | .forget directory => d.Refuses (Path.join (m.resolve directory) trackingName)
  | .find q => ∃ file ∈ m.candidates q, d.isFile file = true ∧
      ∃ path, trackingFile? trackingName file = some path ∧ d.Refuses path

/-- Whether the operating system stops commands from being carried out at some point. -/
def Stopped (m : Manager) (trackingName : String) (d : Disk) : List Command → Prop
  | [] => False
  | c :: cs => m.Denied trackingName d c ∨ ∃ d' answer,
      m.step trackingName d c = .ok (d', answer) ∧ m.Stopped trackingName d' cs

end Manager

/-- Whether the operating system is to blame for a fault. -/
def Fault.isSystem : Fault → Bool
  | .trackingIo .. => true
  | .io _ => true
  | _ => false

/-- A path below a repository whose names are looked up as they stand, to a file that is no tracking
file and whose name has no `>` in it. -/
structure Proper (trackingName rel : String) : Prop where
  names : ∀ n ∈ Text.splitOn '/' rel, n ≠ "" ∧ n ≠ "." ∧ n ≠ ".."
  plain : '>' ∉ (nameOf rel).toList
  artifact : nameOf rel ≠ trackingName

/-- What may be done to a repository so that its tracking files can be told from other files and their
entries are read as they were written. -/
def Command.Admissible (m : Manager) (trackingName : String) : Command → Prop
  | .place rel _ => Proper trackingName rel
  | .remove rel => Proper trackingName rel
  | .add x => match x.repository with
    | none => Proper trackingName (m.installedPath x.artifact) ∧
        Tracking.Storable (entryKey (nameOf (m.installedPath x.artifact)) "") ""
    | some r => ∀ context ∈ x.contexts, Proper trackingName (m.downloadedPath x.artifact r) ∧
        Tracking.Storable (entryKey (nameOf (m.downloadedPath x.artifact r)) (r.key context)) ""
  | .forget directory => directory = "" ∨
      ∀ n ∈ Text.splitOn '/' directory, n ≠ "" ∧ n ≠ "." ∧ n ≠ ".."
  | .find q => ∀ rel ∈ m.paths q, Proper trackingName rel

end ArtifactCache
