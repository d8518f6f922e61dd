import ArtifactCache.Manager.Basic

/-!
# Origins

Keys in a record have the form `file>origin`. The origin of an installed file is empty; that of a
downloaded file is the key of the repository it came from.
-/

namespace ArtifactCache

/-- The origin of installed files. -/
def installedOrigin : String := ""

/-- The key under which a record holds an origin of a file. -/
def entryKey (file origin : String) : String := file ++ ">" ++ origin

/-- Whether a record holds any origin of a file. -/
def isTracked (r : Tracking.Record) (file : String) : Bool :=
  r.keys.any fun key => Text.startsWith key (file ++ ">")

/-- Adds a key of a record to the files it is about; a key without an origin is about none. -/
def addOrigin (files : KeyMap (List String)) (key : String) : KeyMap (List String) :=
  match Text.splitOnce '>' key with
  | some (file, origin) => files.insert file ((files.get? file).getD [] ++ [origin])
  | none => files

/-- The origins in a record by file, in the order of their keys. -/
def originsByFile (r : Tracking.Record) : KeyMap (List String) :=
  r.keys.foldl addOrigin .empty

/-- What a record says of a file to those who may have it from certain repositories. -/
inductive Verdict
  | installed
  | obtained (repository : RemoteRepository)
  | untracked
  | foreign
  deriving DecidableEq

namespace Verdict

/-- The first of the repositories from which, in the context, a file came. -/
def source? (r : Tracking.Record) (file context : String) (repositories : List RemoteRepository) :
    Option RemoteRepository :=
  repositories.find? fun s => r.contains (entryKey file (s.key context))

/-- What a record says of a file. A file it does not mention counts as installed. -/
def ofRecord (r : Tracking.Record) (file context : String) (repositories : List RemoteRepository) :
    Verdict :=
  if r.contains (entryKey file installedOrigin) then .installed
  else match source? r file context repositories with
    | some s => .obtained s
    | none => if isTracked r file then .foreign else .untracked

/-- Whether the file may be used. -/
def accepts : Verdict → Bool
  | .foreign => false
  | _ => true

/-- The repository the file came from. -/
def repository? : Verdict → Option RemoteRepository
  | .obtained r => some r
  | _ => none

end Verdict
end ArtifactCache
