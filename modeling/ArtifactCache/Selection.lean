import ArtifactCache.Ranking

/-!
# Selection

The enabled candidates are tried in order until one of them can do the job. A fault in the
configuration ends the search, since every candidate reads the same one.
-/

namespace ArtifactCache

open Numeral (Binary)

/-- What was selected, and the candidate it comes from. -/
structure Selected (β : Type) where
  value : β
  name : String
  priority : Binary

/-- A candidate that was tried and what came of it. -/
structure Attempt (α β : Type) where
  candidate : Candidate α
  outcome : Except Fault β

namespace Attempt

variable {α β : Type}

/-- Whether no further candidate has to be tried. -/
def isDecisive (a : Attempt α β) : Bool :=
  match a.outcome with
  | .ok _ => true
  | .error f => f.isConfig

/-- The candidate's name and why it was rejected. -/
def failure? (a : Attempt α β) : Option (String × Fault) :=
  match a.outcome with
  | .ok _ => none
  | .error f => some (a.candidate.name, f)

end Attempt

namespace Ranking

variable {α β : Type}

/-- Tries candidates up to the first decisive attempt. -/
def attemptsOn (make : α → Except Fault β) : List (Candidate α) → List (Attempt α β)
  | [] => []
  | c :: cs =>
    let a : Attempt α β := ⟨c, make c.value⟩
    if a.isDecisive then [a] else a :: attemptsOn make cs

/-- The attempts of a selection, in order. -/
def attempts (r : Ranking α) (make : α → Except Fault β) : List (Attempt α β) :=
  attemptsOn make r.enabled

/-- What to report when every candidate was rejected: of a single one its own fault. -/
def rejection (r : Ranking α) (context : String) : List (String × Fault) → Fault
  | [] => .noMatchingComponent r.job (.noneEnabled r.job context r.describe) []
  | [(_, fault)] => fault
  | failures => .noMatchingComponent r.job (.allRejected r.job context r.describe) failures

/-- Selects the first candidate that can do the job. -/
def select (r : Ranking α) (context : String) (make : α → Except Fault β) :
    Except Fault (Selected β) :=
  let tried := r.attempts make
  match tried.find? Attempt.isDecisive with
  | some ⟨c, .ok value⟩ => .ok ⟨value, c.name, c.priority⟩
  | some ⟨_, .error fault⟩ => .error fault
  | none => .error (r.rejection context (tried.filterMap Attempt.failure?))

/-- The entry about one attempt. -/
def attemptLog? (job context : String) (a : Attempt α β) : Option Log.Entry :=
  match a.outcome with
  | .ok _ => some ⟨.debug, Log.part "selector",
      "Selected " ++ job ++ " '" ++ a.candidate.name ++ "' with priority " ++
        priorityText a.candidate.priority ++ " for " ++ context⟩
  | .error fault =>
    if fault.isConfig then none
    else some ⟨.debug, Log.part "selector",
      job ++ " '" ++ a.candidate.name ++ "' rejected " ++ context ++ ": " ++ fault.message⟩

/-- The entries about a selection; what a candidate itself writes down comes before its attempt. -/
def selectionLog (r : Ranking α) (context : String) (make : α → Except Fault β)
    (inner : α → List Log.Entry) : List Log.Entry :=
  (r.attempts make).flatMap fun a =>
    inner a.candidate.value ++ (attemptLog? r.job context a).toList

end Ranking
end ArtifactCache
