import ArtifactCache.Config
import ArtifactCache.Log

/-!
# Ranking

Components that do the same job are registered by name with a priority. A configuration brings
them into an order and may disable some of them.
-/

namespace ArtifactCache

open Numeral (Binary)

/-- A named component. -/
structure Component (α : Type) where
  name : String
  priority : Binary
  value : α

/-- Components in the order in which their names were first registered. -/
structure Registry (α : Type) where
  components : List (Component α)

namespace Registry

variable {α : Type}

def empty : Registry α := ⟨[]⟩

/-- Puts a component in the place of one with its name, or at the end. -/
def put (c : Component α) : List (Component α) → List (Component α)
  | [] => [c]
  | d :: ds => if d.name = c.name then c :: ds else d :: put c ds

def register (r : Registry α) (c : Component α) : Registry α := ⟨put c r.components⟩

/-- The registry after the given components were registered in order. -/
def ofList (cs : List (Component α)) : Registry α := cs.foldl register empty

def names (r : Registry α) : List String := r.components.map (·.name)

end Registry

/-- A component with the priority that a configuration gives it. -/
structure Candidate (α : Type) where
  name : String
  priority : Binary
  enabled : Bool
  value : α

/-- The candidates for a job, best first. -/
structure Ranking (α : Type) where
  job : String
  candidates : List (Candidate α)

namespace Ranking

variable {α : Type}

/-- The key of a setting about the choice of components for a job. -/
def key (job setting : String) : String := "selector." ++ job ++ "." ++ setting

/-- The names that come first, in this order. -/
def order (c : Config) (job : String) : List String := c.items (key job "order")

/-- The names that are not to be used. -/
def disabled (c : Config) (job : String) : List String := c.items (key job "disabled")

/-- The candidate that a configuration makes of a component. -/
def candidate (c : Config) (job : String) (x : Component α) : Except Fault (Candidate α) := do
  let priority := (← c.number? (key job ("priority." ++ x.name))).getD x.priority
  return ⟨x.name, priority, !(disabled c job).contains x.name, x.value⟩

/-- Whether `x` has to stand before `y`: by its place in the order, else by its priority. -/
def before (order : List String) (x y : Candidate α) : Bool :=
  match order.idxOf? x.name, order.idxOf? y.name with
  | some i, some j => i < j
  | some _, none => true
  | none, some _ => false
  | none, none => Binary.lt y.priority x.priority

/-- Puts `x` behind the last of the candidates, which are given last first, that it does not have
to stand before. -/
def place (order : List String) (x : Candidate α) : List (Candidate α) → List (Candidate α)
  | [] => [x]
  | y :: ys => if before order x y then y :: place order x ys else x :: y :: ys

/-- The candidates in order; those that neither has to stand before the other keep their order. Each
is inserted among those that came before it. That is what any stable sort comes to if `before` is
consistent. Among priorities that are no numbers it is not, and then the result is that of a sort that
inserts, which is how up to 20 candidates are sorted. -/
def arrange (order : List String) (xs : List (Candidate α)) : List (Candidate α) :=
  (xs.foldl (fun placed x => place order x placed) []).reverse

/-- Ranks the registered components for a job. -/
def ofRegistry (r : Registry α) (c : Config) (job : String) : Except Fault (Ranking α) := do
  return ⟨job, arrange (order c job) (← r.components.mapM (candidate c job))⟩

/-- The names in the configuration that no component has. -/
def unknownNames (r : Registry α) (c : Config) (job : String) : List String :=
  (order c job ++ disabled c job).filter fun name => !r.names.contains name

/-- The entries about ranking: a warning for each unknown name. -/
def log (r : Registry α) (c : Config) (job : String) : List Log.Entry :=
  (unknownNames r c job).map fun name =>
    ⟨.warn, Log.part "selector",
      "Ignoring unknown " ++ job ++ " '" ++ name ++ "' in selection overrides"⟩

/-- The candidates that may be used. -/
def enabled (r : Ranking α) : List (Candidate α) := r.candidates.filter (·.enabled)

end Ranking

/-- A priority in words. -/
def priorityText (x : Binary) : String := Binary.display Numeral.single x

/-- A candidate in words. -/
def Candidate.describe {α : Type} (c : Candidate α) : String :=
  c.name ++ " (" ++ priorityText c.priority ++ (if c.enabled then ")" else ", disabled)")

/-- All candidates in words. -/
def Ranking.describe {α : Type} (r : Ranking α) : String :=
  "[" ++ Text.join ", " (r.candidates.map Candidate.describe) ++ "]"

end ArtifactCache
