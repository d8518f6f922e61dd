import ArtifactCache.Layout
import ArtifactCache.Repository.Local
import ArtifactCache.Repository.Remote
import ArtifactCache.Selection
import ArtifactCache.Split

/-!
# Division

How a repository is divided: not at all, or into branches. Which it is, is itself a matter of
selection.
-/

namespace ArtifactCache

/-- How a repository is divided. -/
inductive Division
  | flat
  | split (split : Split)
  deriving DecidableEq

namespace Division

/-- The branch of installed files. -/
def installed? (d : Division) (snapshot : Bool) : Option String :=
  match d with
  | .flat => none
  | .split s => Split.path? (s.installedNames snapshot)

/-- The branch of files that were downloaded from a repository. -/
def downloaded? (d : Division) (snapshot : Bool) (r : RemoteRepository) : Option String :=
  match d with
  | .flat => none
  | .split s => Split.path? (s.downloadedNames snapshot r.id)

/-- A path within a branch. -/
def within (branch : Option String) (path : String) : String :=
  match branch with
  | none => path
  | some b => b ++ "/" ++ path

/-- The path of an installed artifact. -/
def installedArtifact (d : Division) (a : Artifact) : String :=
  within (d.installed? a.isSnapshot) (Layout.artifactPath a .installed)

/-- The path of an artifact that was downloaded from a repository. -/
def downloadedArtifact (d : Division) (a : Artifact) (r : RemoteRepository) : String :=
  within (d.downloaded? a.isSnapshot r) (Layout.artifactPath a .downloaded)

/-- The path of a repository's own metadata document. -/
def installedMetadata (d : Division) (m : Metadata) : String :=
  within (d.installed? m.isSnapshot) (Layout.metadataPath m Layout.localKey)

/-- The path of a metadata document that was downloaded from a repository in a context. -/
def downloadedMetadata (d : Division) (m : Metadata) (r : RemoteRepository)
    (context : String) : String :=
  within (d.downloaded? m.isSnapshot r) (Layout.metadataPath m (r.key context))

/-- The ways to choose a division. -/
inductive Choice
  | configured
  | alwaysFlat
  deriving DecidableEq

/-- The division a choice leads to. -/
def Choice.division (choice : Choice) (c : Config) : Except Fault Division :=
  match choice with
  | .configured => do
    let s ← Split.ofConfig c
    return if s.isFlat then .flat else .split s
  | .alwaysFlat => .ok .flat

/-- The choices there are. -/
def choices : Registry Choice :=
  .ofList [⟨"default", Numeral.Binary.ofNat Numeral.single 10, .configured⟩,
    ⟨"noop", Numeral.Binary.ofNat Numeral.single 0, .alwaysFlat⟩]

/-- The job of a choice, as a configuration names it. -/
def job : String := "prefix-composer"

/-- What a division is selected for. -/
def context (r : LocalRepository) : String := "local repository " ++ r.display

/-- Selects a division. -/
def select (c : Config) (context : String) : Except Fault (Selected Division) := do
  (← Ranking.ofRegistry choices c job).select context fun choice => choice.division c

/-- The entries about the selection of a division. -/
def selectionLog (c : Config) (context : String) : List Log.Entry :=
  Ranking.log choices c job ++
    match Ranking.ofRegistry choices c job with
    | .ok r => r.selectionLog context (fun choice => choice.division c) fun _ => []
    | .error _ => []

end Division
end ArtifactCache
