import ArtifactCache.Provider

/-!
# Sessions

A session is work on a local repository under one configuration and with one manager. When it ends,
the handlers that were registered for it run, newest first, all of them, whatever they report.
-/

namespace ArtifactCache

/-- Something that is done when a session ends, and how it will come out. -/
structure Handler where
  label : String
  fault : Option Fault

/-- Work on a local repository. -/
structure Session where
  id : Nat
  config : Config
  manager : Manager
  managerName : String

/-- The sessions that were opened and have not ended, each with its handlers in the order of their
registration, and the number of the next one. -/
structure Sessions where
  nextId : Nat := 1
  active : List (Nat × List Handler) := []

namespace Sessions

/-- Opens a session, if the provider can select a manager. -/
def beginWith (s : Sessions) (provider : Config → LocalRepository → Except Fault (Selected Manager))
    (c : Config) (r : LocalRepository) : Except Fault (Sessions × Session) := do
  let selected ← provider c r
  return ({ nextId := s.nextId + 1, active := (s.nextId, []) :: s.active },
    ⟨s.nextId, c, selected.value, selected.name⟩)

/-- Opens a session with the provider of the factories there are. -/
def begin (s : Sessions) (c : Config) (r : LocalRepository) : Except Fault (Sessions × Session) :=
  s.beginWith Provider.select c r

/-- The handlers of a session that has not ended. -/
def handlers? (s : Sessions) (id : Nat) : Option (List Handler) := s.active.lookup id

def isActive (s : Sessions) (id : Nat) : Bool := (s.handlers? id).isSome

/-- How many sessions have not ended. -/
def count (s : Sessions) : Nat := s.active.length

/-- Registers a handler of a session. -/
def register (s : Sessions) (id : Nat) (h : Handler) : Except Fault Sessions :=
  if s.isActive id then
    .ok { s with active := s.active.map fun e => if e.1 = id then (e.1, e.2 ++ [h]) else e }
  else .error (.session (.inactive id))

/-- What handlers that ran report together. -/
def report (id : Nat) (ran : List Handler) : Except Fault Unit :=
  match ran.filterMap Handler.fault with
  | [] => .ok ()
  | faults => .error (.sessionEnd id faults)

/-- Ends a session; answers also which handlers ran, in the order in which they did. -/
def finish (s : Sessions) (id : Nat) : Except Fault (Sessions × List Handler) :=
  match s.handlers? id with
  | some hs => .ok ({ s with active := s.active.filter fun e => e.1 ≠ id }, hs.reverse)
  | none => .error (.session (.inactive id))

/-- The part of the program that writes down what happens to sessions. -/
def part : String := Log.part "session"

/-- The entry about a session that was opened. -/
def openedEntry (id : Nat) (r : LocalRepository) : Log.Entry :=
  ⟨.debug, part, "Opened session " ++ toString id ++ " on " ++ r.display⟩

/-- The entry about a session that was ended. -/
def endedEntry (id : Nat) (ran : List Handler) : Log.Entry :=
  ⟨.debug, part, "Ended session " ++ toString id ++ ": " ++ toString ran.length ++ " handler(s), " ++
    toString (ran.filterMap Handler.fault).length ++ " failed"⟩

end Sessions
end ArtifactCache
