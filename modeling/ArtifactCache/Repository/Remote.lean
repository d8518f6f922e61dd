import ArtifactCache.Sha256

/-!
# Remote repositories

Where artifacts come from, and the key under which a file remembers it.
-/

namespace ArtifactCache

/-- A place artifacts are downloaded from. A repository manager answers for other repositories,
its members, which are known by their identifiers. -/
structure RemoteRepository where
  id : String
  url : String
  contentType : String := "default"
  members : Option (List String) := none
  deriving DecidableEq, Inhabited

namespace RemoteRepository

def display (r : RemoteRepository) : String := r.id ++ " (" ++ r.url ++ ")"

/-- The text whose digest tells apart what a repository manager serves in a context. -/
def scope (members : List String) (context : String) : String :=
  context ++ String.join ((members.mergeSort (· ≤ ·)).map ("\n" ++ ·))

/-- The identifier of a repository; that of a repository manager is followed by the digest of the
context and of its sorted members. -/
def key (r : RemoteRepository) (context : String) : String :=
  match r.members with
  | none => r.id
  | some members => r.id ++ "-" ++ Sha256.digest (scope members context).toUTF8.toList

end RemoteRepository

end ArtifactCache
