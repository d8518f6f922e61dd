import ArtifactCache.KeyMap
import ArtifactCache.Sync.Lock

/-!
# Contexts

A context is a claim on a lock, shared or exclusive. It belongs to the thread that first acquired
it; to acquire it again only counts, and to close it gives everything back.
-/

namespace ArtifactCache.Sync

variable {θ : Type} [DecidableEq θ]

/-- Where a context stands: not held, waited for by a thread that began after some number of
releases, or held by a thread that acquired it so many times. -/
inductive Phase (θ : Type)
  | idle
  | waiting (thread : θ) (ticket : Nat)
  | held (thread : θ) (times : Nat)
  deriving DecidableEq

/-- A claim on a lock. -/
structure Context (θ : Type) where
  shared : Bool
  phase : Phase θ := .idle
  deriving DecidableEq

/-- A lock and the contexts on it, by name. -/
structure Group (θ : Type) where
  lock : Lock θ := {}
  contexts : KeyMap (Context θ)

namespace Group

/-- The group with another phase of a context. -/
def setPhase (s : Group θ) (name : String) (c : Context θ) (phase : Phase θ) (lock : Lock θ) :
    Group θ :=
  { lock, contexts := s.contexts.insert name { c with phase } }

/-- A thread acquires a context: at once, or it begins to wait. -/
def acquire (s : Group θ) (t : θ) (name : String) : Group θ :=
  match s.contexts.get? name with
  | none => s
  | some c =>
    match c.phase with
    | .held owner times => s.setPhase name c (.held owner (times + 1)) s.lock
    | .waiting .. => s
    | .idle =>
      let ticket := s.lock.releases
      if c.shared then
        if s.lock.canShare t ticket then s.setPhase name c (.held t 1) (s.lock.share t)
        else s.setPhase name c (.waiting t ticket) s.lock
      else
        if s.lock.canOwn t then s.setPhase name c (.held t 1) (s.lock.own t)
        else s.setPhase name c (.waiting t ticket) s.lock.queue

/-- Gives back what a context holds, whichever thread asks for it. -/
def close (s : Group θ) (name : String) : Group θ :=
  match s.contexts.get? name with
  | some c =>
    match c.phase with
    | .held owner _ =>
      s.setPhase name c .idle (if c.shared then s.lock.unshare owner else s.lock.disown owner)
    | _ => s
  | none => s

/-- Closes a context and does away with it. -/
def drop (s : Group θ) (name : String) : Group θ :=
  let s := s.close name
  { s with contexts := s.contexts.erase name }

/-- Whether a waiting call on a context can go on. -/
def canProceed (s : Group θ) (c : Context θ) : Bool :=
  match c.phase with
  | .waiting t ticket => if c.shared then s.lock.canShare t ticket else s.lock.canOwn t
  | _ => false

/-- Lets a waiting call go on, if it can. -/
def grant (s : Group θ) (name : String) : Group θ :=
  match s.contexts.get? name with
  | some c =>
    match c.phase with
    | .waiting t _ =>
      if s.canProceed c then
        s.setPhase name c (.held t 1) (if c.shared then s.lock.share t else s.lock.unqueue.own t)
      else s
    | _ => s
  | none => s

/-- The name of a context whose waiting call can go on, if there is one. -/
def ready? (s : Group θ) : Option String :=
  (s.contexts.entries.find? fun e => s.canProceed e.2).map (·.1)

/-- Lets up to `n` waiting calls go on, one after the other; answers also for which contexts. -/
def settle : Nat → Group θ → Group θ × List String
  | 0, s => (s, [])
  | n + 1, s =>
    match s.ready? with
    | none => (s, [])
    | some name =>
      let (s, names) := settle n (s.grant name)
      (s, name :: names)

/-- Lets waiting calls go on until none of them can. -/
def quiesce (s : Group θ) : Group θ × List String := s.settle s.contexts.size

end Group

/-- What a thread can do with a context. -/
inductive Action
  | acquire
  | close
  | drop
  deriving DecidableEq

namespace Group

/-- A thread's call on a context. -/
def call (s : Group θ) (t : θ) (name : String) : Action → Group θ
  | .acquire => s.acquire t name
  | .close => s.close name
  | .drop => s.drop name

/-- Whether a call waits on a context. -/
def isWaiting (s : Group θ) (name : String) : Bool :=
  match s.contexts.get? name with
  | some ⟨_, .waiting ..⟩ => true
  | _ => false

/-- A call, and all waiting calls that can go on after it; answers also, in order, the names of the
contexts of the calls that returned. -/
def step (s : Group θ) (t : θ) (name : String) (action : Action) : Group θ × List String :=
  let called := s.call t name action
  let returned := if called.isWaiting name then [] else [name]
  let (settled, woken) := called.quiesce
  (settled, (returned ++ woken).mergeSort (· ≤ ·))

end Group

/-- A context that nobody holds. -/
def Context.fresh (shared : Bool) : Context θ := { shared }

/-- A lock that nobody holds, and contexts on it. -/
def Group.fresh (contexts : List (String × Bool)) : Group θ :=
  { contexts := .ofList (contexts.map fun c => (c.1, Context.fresh c.2)) }

end ArtifactCache.Sync
