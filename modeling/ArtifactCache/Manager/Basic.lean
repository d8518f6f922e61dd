import ArtifactCache.Division
import ArtifactCache.Tracking.Store

/-!
# Managers

A manager knows where the artifacts and metadata documents of a local repository lie. A simple one
takes every file for granted; an enhanced one divides the repository into branches and keeps, in
each directory, a record of where the files in it come from.
-/

namespace ArtifactCache

/-- How a repository is managed. -/
inductive Manager.Mode
  | simple
  | enhanced (division : Division) (trackingName : String)
  deriving DecidableEq

/-- The manager of a local repository. -/
structure Manager where
  repository : LocalRepository
  mode : Manager.Mode
  deriving DecidableEq

namespace Manager

/-- The path of an installed artifact. -/
def installedPath (m : Manager) (a : Artifact) : String :=
  match m.mode with
  | .simple => Layout.artifactPath a .installed
  | .enhanced d _ => d.installedArtifact a

/-- The path of an artifact that was downloaded from a repository; it does not depend on the
context. -/
def downloadedPath (m : Manager) (a : Artifact) (r : RemoteRepository) : String :=
  match m.mode with
  | .simple => Layout.artifactPath a .downloaded
  | .enhanced d _ => d.downloadedArtifact a r

/-- The path of the repository's own copy of a metadata document. -/
def installedMetadataPath (m : Manager) (x : Metadata) : String :=
  match m.mode with
  | .simple => Layout.metadataPath x Layout.localKey
  | .enhanced d _ => d.installedMetadata x

/-- The path of a metadata document that was downloaded from a repository in a context. -/
def downloadedMetadataPath (m : Manager) (x : Metadata) (r : RemoteRepository)
    (context : String) : String :=
  match m.mode with
  | .simple => Layout.metadataPath x (r.key context)
  | .enhanced d _ => d.downloadedMetadata x r context

/-- The whole path of something in the repository. -/
def resolve (m : Manager) (relative : String) : String := m.repository.resolve relative

/-- The path of a metadata document, of the repository's own copy without a remote repository. -/
def metadataPath (m : Manager) (x : Metadata) (r : Option RemoteRepository) (context : String) :
    String :=
  match r with
  | some r => m.downloadedMetadataPath x r context
  | none => m.installedMetadataPath x

/-- The file of a metadata document, if there is one. -/
def findMetadata (m : Manager) (d : Disk) (x : Metadata) (r : Option RemoteRepository)
    (context : String) : Option String :=
  let file := m.resolve (m.metadataPath x r context)
  if d.isFile file then some file else none

/-- A request for an artifact: from which repositories it may come, and for what it is needed. -/
structure Request where
  artifact : Artifact
  repositories : List RemoteRepository
  context : String

/-- What is known of a requested artifact: a file that was found, whether it may be used, and the
repository it comes from, if it was not installed. -/
structure Answer where
  path : Option String := none
  available : Bool := false
  repository : Option RemoteRepository := none
  deriving DecidableEq

/-- Notice of a file that has been put into the repository: without a repository it was installed,
with one it was downloaded in the given contexts. -/
structure Arrival where
  artifact : Artifact
  repository : Option RemoteRepository
  contexts : List String

end Manager
end ArtifactCache
