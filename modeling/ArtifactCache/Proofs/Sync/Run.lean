import ArtifactCache.Proofs.KeyMap
import ArtifactCache.Sync.Context

/-! Runs of threads over the contexts of one lock: which calls there can be, and what they change. -/
namespace ArtifactCache.Sync

variable {θ : Type} [DecidableEq θ]

/-- Whether a thread holds a context, shared or not. -/
def Context.heldBy (shared : Bool) (t : θ) (c : Context θ) : Bool :=
  c.shared == shared && match c.phase with
    | .held owner _ => owner = t
    | _ => false

/-- The thread that waits in a call, and how often the lock had been released when it began. -/
def Phase.ticket? : Phase θ → Option (θ × Nat)
  | .waiting thread ticket => some (thread, ticket)
  | _ => none

/-- Whether a call waits on a context that is not shared. -/
def Context.awaitsExclusive (c : Context θ) : Bool :=
  !c.shared && match c.phase with
    | .waiting .. => true
    | _ => false

namespace Group

variable {s s' u : Group θ} {t : θ} {name : String} {shared : Bool}

/-- How many contexts a thread holds; one that was acquired several times counts once. -/
def held (s : Group θ) (shared : Bool) (t : θ) : Nat := s.contexts.count (Context.heldBy shared t)

/-- How many calls wait for the exclusive side. -/
def exclusiveWaits (s : Group θ) : Nat := s.contexts.count Context.awaitsExclusive

/-- A thread holds a context. -/
def Holds (s : Group θ) (shared : Bool) (t : θ) : Prop :=
  ∃ name times, s.contexts.get? name = some ⟨shared, .held t times⟩

/-- A thread waits for a context in a call that has not returned. -/
def Awaits (s : Group θ) (shared : Bool) (t : θ) : Prop :=
  ∃ name ticket, s.contexts.get? name = some ⟨shared, .waiting t ticket⟩

def Blocked (s : Group θ) (t : θ) : Prop := ∃ shared, s.Awaits shared t

/-- No waiting call can go on. -/
def Quiescent (s : Group θ) : Prop :=
  ∀ name c, s.contexts.get? name = some c → s.canProceed c = false

/-- One step of a run: a new context, a call, or a waiting call that goes on. A call has its context
for itself until it returns, and a thread makes one call at a time. -/
inductive Step : Group θ → Group θ → Prop
  | create {s : Group θ} {name : String} (shared : Bool) (hnew : s.contexts.get? name = none) :
    Step s { s with contexts := s.contexts.insert name (.fresh shared) }
  | call {s : Group θ} {t : θ} {name : String} (action : Action)
    (hfree : s.isWaiting name = false) (hready : ¬ s.Blocked t) : Step s (s.call t name action)
  | grant (s : Group θ) (name : String) : Step s (s.grant name)

/-- The states that runs lead to. -/
inductive Reachable : Group θ → Prop
  | fresh (contexts : List (String × Bool)) : Reachable (.fresh contexts)
  | step {s s' : Group θ} (h : Reachable s) (hs : Step s s') : Reachable s'

/-- How a context can move from phase to phase, and the lock with it. -/
inductive Move (s : Group θ) : Bool → Phase θ → Phase θ → Lock θ → Prop
  | again (shared : Bool) (t : θ) (n : Nat) : Move s shared (.held t n) (.held t (n + 1)) s.lock
  | share {t : θ} {ticket : Nat} (hready : ¬ s.Blocked t) (h : s.lock.canShare t ticket = true) :
    Move s true .idle (.held t 1) (s.lock.share t)
  | own {t : θ} (hready : ¬ s.Blocked t) (h : s.lock.canOwn t = true) :
    Move s false .idle (.held t 1) (s.lock.own t)
  | shareAtLast {t : θ} {ticket : Nat} (h : s.lock.canShare t ticket = true) :
    Move s true (.waiting t ticket) (.held t 1) (s.lock.share t)
  | ownAtLast {t : θ} {ticket : Nat} (h : s.lock.canOwn t = true) :
    Move s false (.waiting t ticket) (.held t 1) (s.lock.unqueue.own t)
  | awaitShared {t : θ} {ticket : Nat} (hready : ¬ s.Blocked t)
    (h : s.lock.canShare t ticket = false) : Move s true .idle (.waiting t ticket) s.lock
  | awaitExclusive {t : θ} (ticket : Nat) (hready : ¬ s.Blocked t)
    (h : s.lock.canOwn t = false) : Move s false .idle (.waiting t ticket) s.lock.queue
  | unshare (t : θ) (n : Nat) : Move s true (.held t n) .idle (s.lock.unshare t)
  | disown (t : θ) (n : Nat) : Move s false (.held t n) .idle (s.lock.disown t)

/-- What a step is made of. -/
inductive Change : Group θ → Group θ → Prop
  | none (s : Group θ) : Change s s
  | create {s : Group θ} {name : String} (shared : Bool) (hnew : s.contexts.get? name = none) :
    Change s { s with contexts := s.contexts.insert name (.fresh shared) }
  | remove {s : Group θ} {name : String}
    (hidle : ∀ c, s.contexts.get? name = some c → c.phase = .idle) :
    Change s { s with contexts := s.contexts.erase name }
  | move {s : Group θ} {name : String} {c : Context θ} {phase : Phase θ} {lock : Lock θ}
    (hc : s.contexts.get? name = some c) (hm : Move s c.shared c.phase phase lock) :
    Change s (s.setPhase name c phase lock)

theorem acquire_change (hready : ¬ s.Blocked t) (name : String) :
    Change s (s.acquire t name) := by
  unfold acquire
  split
  · exact .none s
  · rename_i c hc
    obtain ⟨shared, phase⟩ := c
    cases phase with
    | held owner times => exact .move hc (.again shared owner times)
    | waiting owner ticket => exact .none s
    | idle =>
      cases shared with
      | true =>
        simp only [if_true]
        split
        · rename_i hcan
          exact .move hc (.share hready hcan)
        · rename_i hcan
          exact .move hc (.awaitShared hready (by simpa using hcan))
      | false =>
        simp only [Bool.false_eq_true, if_false]
        split
        · rename_i hcan
          exact .move hc (.own hready hcan)
        · rename_i hcan
          exact .move hc (.awaitExclusive _ hready (by simpa using hcan))

theorem close_change (s : Group θ) (name : String) : Change s (s.close name) := by
  unfold close
  split
  · rename_i c hc
    obtain ⟨shared, phase⟩ := c
    cases phase with
    | held owner times =>
      cases shared with
      | true => exact .move hc (.unshare owner times)
      | false => exact .move hc (.disown owner times)
    | waiting owner ticket => exact .none s
    | idle => exact .none s
  · exact .none s

theorem grant_change (s : Group θ) (name : String) : Change s (s.grant name) := by
  unfold grant
  split
  · rename_i c hc
    obtain ⟨shared, phase⟩ := c
    cases phase with
    | held owner times => exact .none s
    | idle => exact .none s
    | waiting t ticket =>
      dsimp only
      split
      · rename_i hcan
        cases shared with
        | true => exact .move hc (.shareAtLast (by simpa [canProceed] using hcan))
        | false => exact .move hc (.ownAtLast (by simpa [canProceed] using hcan))
      · exact .none s
  · exact .none s

/-- A context that no call waits on is idle once it is closed. -/
theorem close_idle (hfree : s.isWaiting name = false) {c : Context θ}
    (hc : (s.close name).contexts.get? name = some c) : c.phase = .idle := by
  unfold isWaiting at hfree
  unfold close at hc
  cases hget : s.contexts.get? name with
  | none => simp [hget] at hc
  | some b =>
    obtain ⟨shared, phase⟩ := b
    cases phase with
    | held owner times =>
      simp only [hget, setPhase, KeyMap.get?_insert_self, Option.some.injEq] at hc
      rw [← hc]
    | waiting owner ticket => simp [hget] at hfree
    | idle =>
      simp only [hget, Option.some.injEq] at hc
      rw [← hc]

/-- A step is one change, after which a context that is idle may be done away with. -/
theorem Step.change (h : Step s s') : ∃ u, Change s u ∧ (u = s' ∨
    ∃ name, (∀ c, u.contexts.get? name = some c → c.phase = .idle) ∧
      s' = { u with contexts := u.contexts.erase name }) := by
  cases h with
  | create shared hnew => exact ⟨_, .create shared hnew, .inl rfl⟩
  | grant name => exact ⟨_, grant_change s name, .inl rfl⟩
  | @call t name action hfree hready =>
    cases action with
    | acquire => exact ⟨_, acquire_change hready name, .inl rfl⟩
    | close => exact ⟨_, close_change s name, .inl rfl⟩
    | drop => exact ⟨_, close_change s name, .inr ⟨name, fun c hc => close_idle hfree hc, rfl⟩⟩

/-- Every step is at most two changes. -/
theorem Step.changes (h : Step s s') : ∃ u, Change s u ∧ Change u s' := by
  obtain ⟨u, hu, rfl | ⟨name, hidle, rfl⟩⟩ := h.change
  · exact ⟨u, hu, .none u⟩
  · exact ⟨u, hu, .remove hidle⟩

/-- What holds at the start and survives every change holds in every state of a run. -/
theorem Reachable.invariant {P : Group θ → Prop} (h : Reachable s)
    (hfresh : ∀ contexts, P (.fresh contexts)) (hchange : ∀ s s', P s → Change s s' → P s') :
    P s := by
  induction h with
  | fresh contexts => exact hfresh contexts
  | step _ hs ih =>
    obtain ⟨u, hu, hs'⟩ := hs.changes
    exact hchange _ _ (hchange _ _ ih hu) hs'

omit [DecidableEq θ] in
theorem fresh_get? {contexts : List (String × Bool)} {c : Context θ}
    (h : (Group.fresh contexts : Group θ).contexts.get? name = some c) : c.phase = .idle := by
  have hall : ∀ (es : List (String × Context θ)) (m : KeyMap (Context θ)),
      (∀ e ∈ es, e.2.phase = .idle) → (∀ k c, m.get? k = some c → c.phase = .idle) →
      ∀ k c, (es.foldl (fun m e => m.insert e.1 e.2) m).get? k = some c → c.phase = .idle := by
    intro es
    induction es with
    | nil => exact fun m _ hm => hm
    | cons e es ih =>
      intro m hes hm
      apply ih _ fun x hx => hes x (List.mem_cons_of_mem _ hx)
      intro k c hk
      rw [KeyMap.get?_insert] at hk
      split at hk
      · cases hk
        exact hes e List.mem_cons_self
      · exact hm k c hk
  refine hall _ .empty ?_ (by simp) name c h
  intro e he
  obtain ⟨x, _, rfl⟩ := List.mem_map.1 he
  rfl

theorem held_pos_iff : 0 < s.held shared t ↔ s.Holds shared t := by
  unfold held Holds
  rw [KeyMap.count_pos_iff]
  constructor
  · rintro ⟨name, ⟨b, phase⟩, hget, hheld⟩
    cases phase with
    | held owner times =>
      simp only [Context.heldBy, Bool.and_eq_true, beq_iff_eq, decide_eq_true_eq] at hheld
      exact ⟨name, times, by rw [hget, hheld.1, hheld.2]⟩
    | _ => simp [Context.heldBy] at hheld
  · rintro ⟨name, times, hget⟩
    exact ⟨name, _, hget, by simp [Context.heldBy]⟩

omit [DecidableEq θ] in
theorem exclusiveWaits_pos_iff : 0 < s.exclusiveWaits ↔ ∃ t, s.Awaits false t := by
  unfold exclusiveWaits Awaits
  rw [KeyMap.count_pos_iff]
  constructor
  · rintro ⟨name, ⟨b, phase⟩, hget, hwait⟩
    cases phase with
    | waiting owner ticket =>
      simp only [Context.awaitsExclusive, Bool.and_true, Bool.not_eq_true'] at hwait
      exact ⟨owner, name, ticket, by rw [hget, hwait]⟩
    | _ => simp [Context.awaitsExclusive] at hwait
  · rintro ⟨t, name, ticket, hget⟩
    exact ⟨name, _, hget, by simp [Context.awaitsExclusive]⟩

instance (s : Group θ) (t : θ) : Decidable (s.Blocked t) :=
  decidable_of_iff (∃ e ∈ s.contexts.entries, ∃ ticket ∈ e.2.phase.ticket?, ticket.1 = t) (by
    unfold Blocked Awaits
    constructor
    · rintro ⟨⟨name, shared, phase⟩, he, ⟨u, ticket⟩, hw, rfl⟩
      cases phase with
      | waiting thread k =>
        cases hw
        exact ⟨shared, name, ticket, (KeyMap.mem_entries_iff _).1 he⟩
      | _ => cases hw
    · rintro ⟨shared, name, ticket, hget⟩
      exact ⟨_, (KeyMap.mem_entries_iff _).2 hget, (t, ticket), rfl, rfl⟩)

/-- Two threads share the lock, and each of them waits to have it for itself. -/
def upgraders : Group Nat :=
  ((((Group.fresh [("a", true), ("b", true), ("c", false), ("d", false)]).call 1 "a" .acquire).call
    2 "b" .acquire).call 1 "c" .acquire).call 2 "d" .acquire

theorem upgraders_reachable : upgraders.Reachable :=
  .step (.step (.step (.step (.fresh _) (.call _ (by decide) (by decide)))
    (.call _ (by decide) (by decide))) (.call _ (by decide) (by decide)))
    (.call _ (by decide) (by decide))

end Group
end ArtifactCache.Sync
