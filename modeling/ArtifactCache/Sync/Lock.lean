/-!
# Shared and exclusive lock

A lock that threads may take again while they hold it. Any number of threads share it, or one has
it for itself. A thread that starts to share it waits behind those that want it for themselves, but
not behind a second one: once the exclusive side has been released since it began to wait, only a
thread that has the lock for itself holds it back.
-/

namespace ArtifactCache.Sync

variable {θ : Type} [DecidableEq θ]

/-- The state of a lock: the thread that has it for itself with the number of its holds, the number
of shared holds of each thread, how many calls wait for the exclusive side, and how often that side
was released. -/
structure Lock (θ : Type) where
  writer : Option (θ × Nat) := none
  readers : List (θ × Nat) := []
  waitingWriters : Nat := 0
  releases : Nat := 0

namespace Lock

/-- How often a thread shares the lock. -/
def shares (l : Lock θ) (t : θ) : Nat := (l.readers.lookup t).getD 0

/-- Whether a thread can share the lock that began to wait after the given number of releases. -/
def canShare (l : Lock θ) (t : θ) (ticket : Nat) : Bool :=
  match l.writer with
  | some (owner, _) => owner = t
  | none => (l.readers.lookup t).isSome || l.waitingWriters == 0 || ticket < l.releases

/-- Whether a thread can have the lock for itself. -/
def canOwn (l : Lock θ) (t : θ) : Bool :=
  match l.writer with
  | some (owner, _) => owner = t
  | none => l.readers.all fun r => r.1 = t

/-- Sets a thread's number of shared holds. -/
def setShares (t : θ) (n : Nat) (readers : List (θ × Nat)) : List (θ × Nat) :=
  let others := readers.filter fun r => r.1 ≠ t
  if n = 0 then others else (t, n) :: others

/-- One more shared hold. -/
def share (l : Lock θ) (t : θ) : Lock θ :=
  { l with readers := setShares t (l.shares t + 1) l.readers }

/-- One more exclusive hold. -/
def own (l : Lock θ) (t : θ) : Lock θ :=
  { l with writer := some (t, (l.writer.map (·.2)).getD 0 + 1) }

/-- One shared hold less. -/
def unshare (l : Lock θ) (t : θ) : Lock θ :=
  { l with readers := setShares t (l.shares t - 1) l.readers }

/-- One exclusive hold less; the last one is a release. -/
def disown (l : Lock θ) (t : θ) : Lock θ :=
  match l.writer with
  | some (owner, n) =>
    if owner ≠ t then l
    else if 1 < n then { l with writer := some (owner, n - 1) }
    else { l with writer := none, releases := l.releases + 1 }
  | none => l

/-- One more call that waits for the exclusive side. -/
def queue (l : Lock θ) : Lock θ := { l with waitingWriters := l.waitingWriters + 1 }

/-- One call less that waits for the exclusive side. -/
def unqueue (l : Lock θ) : Lock θ := { l with waitingWriters := l.waitingWriters - 1 }

end Lock
end ArtifactCache.Sync
