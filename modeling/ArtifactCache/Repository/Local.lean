import ArtifactCache.Fault
import ArtifactCache.Files.Disk

/-!
# Local repositories

Directories that hold artifacts.
-/

namespace ArtifactCache

/-- A directory that holds artifacts, or will once it is made. -/
structure LocalRepository where
  base : String
  contentType : String
  deriving DecidableEq, Inhabited

namespace LocalRepository

def display (r : LocalRepository) : String := r.base ++ " (" ++ r.contentType ++ ")"

/-- The repository at a path: a directory under its canonical path, or a path that leads nowhere
yet, as seen from the root. -/
def locate (d : Disk) (path contentType : String) : Except Fault LocalRepository :=
  if path = "" then .error (.invalidRepository path .emptyPath)
  else
    let path := Path.absolute (Disk.placePath d.current) path
    match d.resolve path with
    | .error _ => .ok ⟨path, contentType⟩
    | .ok (place, .directory) => .ok ⟨Disk.placePath place, contentType⟩
    | .ok _ => .error (.invalidRepository path .notDirectory)

/-- The repository of a user, below the user's home directory. -/
def defaultPath (home : String) : String :=
  Path.join (Path.join home ".local-repo") "repository"

/-- The path of something in a repository. -/
def resolve (r : LocalRepository) (relative : String) : String := Path.join r.base relative

end LocalRepository
end ArtifactCache
