import ArtifactCache.Manager.Basic

/-!
# Provider

Which manager a local repository gets is a matter of selection among factories.
-/

namespace ArtifactCache

/-- The kinds of manager that can be made. -/
inductive Factory
  | enhanced
  | simple
  deriving DecidableEq

namespace Factory

def name : Factory → String
  | .enhanced => "enhanced"
  | .simple => "simple"

/-- The types of repository a factory makes managers for. -/
def types : Factory → List String
  | .enhanced => ["", "default", "enhanced"]
  | .simple => ["", "simple"]

/-- Makes the manager of a repository. -/
def make (f : Factory) (c : Config) (r : LocalRepository) : Except Fault Manager :=
  if !f.types.contains r.contentType then
    .error (.unsupportedRepository f.name r.base r.contentType)
  else match f with
    | .simple => .ok ⟨r, .simple⟩
    | .enhanced => do
      let trackingName ← c.trackingName
      let division ← Division.select c (Division.context r)
      return ⟨r, .enhanced division.value trackingName⟩

/-- What making a manager writes down. -/
def makeLog (f : Factory) (c : Config) (r : LocalRepository) : List Log.Entry :=
  match f with
  | .simple => []
  | .enhanced =>
    if f.types.contains r.contentType && c.trackingName.toOption.isSome then
      Division.selectionLog c (Division.context r)
    else []

end Factory

namespace Provider

/-- The factories there are. -/
def factories : Registry Factory :=
  .ofList [⟨"enhanced", Numeral.Binary.ofNat Numeral.single 10, .enhanced⟩,
    ⟨"simple", Numeral.Binary.ofNat Numeral.single 0, .simple⟩]

/-- The job of a factory, as a configuration names it. -/
def job : String := "local-repository-manager"

/-- Selects the manager of a repository. -/
def select (c : Config) (r : LocalRepository) : Except Fault (Selected Manager) := do
  (← Ranking.ofRegistry factories c job).select (Division.context r) fun f => f.make c r

/-- The entry about the manager that was selected. -/
def selectedEntry (r : LocalRepository) (s : Selected Manager) : Log.Entry :=
  ⟨.info, Log.part "provider", "Using " ++ s.name ++ " local repository manager for " ++ r.base⟩

/-- The entries about the selection of a manager. -/
def log (c : Config) (r : LocalRepository) : List Log.Entry :=
  Ranking.log factories c job ++
    (match Ranking.ofRegistry factories c job with
    | .ok ranking => ranking.selectionLog (Division.context r) (fun f => f.make c r)
        fun f => f.makeLog c r
    | .error _ => []) ++
    (match select c r with
    | .ok s => [selectedEntry r s]
    | .error _ => [])

end Provider
end ArtifactCache
