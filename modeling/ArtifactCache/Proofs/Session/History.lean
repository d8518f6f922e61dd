import Mathlib.Data.List.Basic
import ArtifactCache.Session

/-! Calls to a registry of sessions, and what came of them. After any run of calls the sessions that there
are, their handlers and the next number are determined by the history of the run. -/
namespace ArtifactCache.Sessions

/-- What can be asked of the sessions. -/
inductive Call where
  | begin (provider : Config → LocalRepository → Except Fault (Selected Manager)) (c : Config)
      (r : LocalRepository)
  | register (id : Nat) (x : Handler)
  | finish (id : Nat)

/-- What came of a call. -/
inductive Event where
  | begun (session : Session)
  | registered (id : Nat) (x : Handler)
  | ended (id : Nat) (ran : List Handler) (result : Except Fault Unit)
  | refused (f : Fault)

def step (s : Sessions) : Call → Sessions × Event
  | .begin provider c r =>
    match s.beginWith provider c r with
    | .ok (s', session) => (s', .begun session)
    | .error f => (s, .refused f)
  | .register id x =>
    match s.register id x with
    | .ok s' => (s', .registered id x)
    | .error f => (s, .refused f)
  | .finish id =>
    match s.finish id with
    | .ok (s', ran) => (s', .ended id ran (report id ran))
    | .error f => (s, .refused f)

/-- A run of calls, with what came of each of them. -/
def run (s : Sessions) : List Call → Sessions × List Event
  | [] => (s, [])
  | call :: calls =>
    let (s', e) := s.step call
    let (s'', es) := s'.run calls
    (s'', e :: es)

namespace Event

def begun? : Event → Option Nat
  | .begun session => some session.id
  | _ => none

def ended? : Event → Option Nat
  | .ended id _ _ => some id
  | _ => none

/-- The handler that a session accepted. -/
def accepted? (id : Nat) : Event → Option Handler
  | .registered id' x => if id' = id then some x else none
  | _ => none

/-- The handlers of a session that ran. -/
def ran (id : Nat) : Event → List Handler
  | .ended id' ran _ => if id' = id then ran else []
  | _ => []

/-- The session that something came of. -/
def session? : Event → Option Nat
  | .begun session => some session.id
  | .registered id _ => some id
  | .ended id _ _ => some id
  | .refused _ => none

end Event

variable {h : List Event} {id : Nat}

/-- The sessions that were begun, in the order in which they were. -/
def begun (h : List Event) : List Nat := h.filterMap Event.begun?

def ended (h : List Event) : List Nat := h.filterMap Event.ended?

/-- The handlers that a session accepted, in the order in which it did. -/
def accepted (h : List Event) (id : Nat) : List Handler := h.filterMap (Event.accepted? id)

/-- The handlers of a session that ran, in the order in which they did. -/
def ranOf (h : List Event) (id : Nat) : List Handler := h.flatMap (Event.ran id)

/-- The sessions that were begun and did not end. -/
def live (h : List Event) : List Nat := (begun h).filter fun id => id ∉ ended h

/-- The sessions there are after a history. -/
def after (h : List Event) : Sessions where
  nextId := (begun h).length + 1
  active := (live h).reverse.map fun id => (id, accepted h id)

section
variable (h : List Event) (e : Event) (id : Nat)

@[simp] theorem begun_snoc : begun (h ++ [e]) = begun h ++ e.begun?.toList := by
  cases hb : e.begun? <;> simp [begun, hb]

@[simp] theorem ended_snoc : ended (h ++ [e]) = ended h ++ e.ended?.toList := by
  cases hb : e.ended? <;> simp [ended, hb]

@[simp] theorem accepted_snoc :
    accepted (h ++ [e]) id = accepted h id ++ (e.accepted? id).toList := by
  cases hb : e.accepted? id <;> simp [accepted, hb]

@[simp] theorem ranOf_snoc : ranOf (h ++ [e]) id = ranOf h id ++ e.ran id := by
  simp [ranOf]

end

attribute [simp] Event.begun? Event.ended? Event.accepted? Event.ran Event.session?

theorem mem_live : id ∈ live h ↔ id ∈ begun h ∧ id ∉ ended h := by
  simp [live]

end ArtifactCache.Sessions
