import ArtifactCache.Config

/-!
# Branches

A repository can be split into branches: directories above the usual layout that keep installed
files apart from downloaded ones, releases apart from snapshots, and the downloads of different
repositories apart from each other.
-/

namespace ArtifactCache

/-- Which branches there are, and the names of their directories. -/
structure Split where
  byOrigin : Bool := false
  installed : String := "installed"
  byMaturityInstalled : Bool := false
  installedReleases : String := "releases"
  installedSnapshots : String := "snapshots"
  downloaded : String := "cached"
  byMaturityDownloaded : Bool := false
  downloadedReleases : String := "releases"
  downloadedSnapshots : String := "snapshots"
  byRepository : Bool := false
  repositoryLast : Bool := false
  deriving DecidableEq

namespace Split

/-- The key of a setting about branches. -/
def key (name : String) : String := "local-repository.enhanced." ++ name

/-- The branches that a configuration asks for. -/
def ofConfig (c : Config) : Except Fault Split := do
  let d : Split := {}
  return {
    byOrigin := ← c.boolean (key "split") d.byOrigin
    installed := c.textOr (key "localPrefix") d.installed
    byMaturityInstalled := ← c.boolean (key "splitLocal") d.byMaturityInstalled
    installedReleases := c.textOr (key "localReleasesPrefix") d.installedReleases
    installedSnapshots := c.textOr (key "localSnapshotsPrefix") d.installedSnapshots
    downloaded := c.textOr (key "remotePrefix") d.downloaded
    byMaturityDownloaded := ← c.boolean (key "splitRemote") d.byMaturityDownloaded
    downloadedReleases := c.textOr (key "remoteReleasesPrefix") d.downloadedReleases
    downloadedSnapshots := c.textOr (key "remoteSnapshotsPrefix") d.downloadedSnapshots
    byRepository := ← c.boolean (key "splitRemoteRepository") d.byRepository
    repositoryLast := ← c.boolean (key "splitRemoteRepositoryLast") d.repositoryLast }

/-- Whether there are no branches at all. -/
def isFlat (s : Split) : Bool :=
  !(s.byOrigin || s.byMaturityInstalled || s.byMaturityDownloaded || s.byRepository)

/-- A name without slashes at its ends. -/
def bare (name : String) : String := String.ofList (Text.strip (· = '/') name.toList)

/-- The directories of a branch, one below the other; names that are only slashes do not count. -/
def branch (names : List String) : List String := (names.map bare).filter (· ≠ "")

/-- The directories above an installed file. -/
def installedNames (s : Split) (snapshot : Bool) : List String :=
  (if s.byOrigin then [s.installed] else []) ++
    if s.byMaturityInstalled then [if snapshot then s.installedSnapshots else s.installedReleases]
    else []

/-- The directories above a file that was downloaded from the repository `id`. -/
def downloadedNames (s : Split) (snapshot : Bool) (id : String) : List String :=
  (if s.byOrigin then [s.downloaded] else []) ++
    (if s.byRepository && !s.repositoryLast then [id] else []) ++
    (if s.byMaturityDownloaded then
      [if snapshot then s.downloadedSnapshots else s.downloadedReleases] else []) ++
    if s.byRepository && s.repositoryLast then [id] else []

/-- The path of a branch, if it has any directories. -/
def path? (names : List String) : Option String :=
  match branch names with
  | [] => none
  | names => some (Text.join "/" names)

end Split
end ArtifactCache
