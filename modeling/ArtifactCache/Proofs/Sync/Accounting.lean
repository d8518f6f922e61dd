import ArtifactCache.Proofs.Sync.Lock
import ArtifactCache.Proofs.Sync.Run

/-! The lock keeps account of its contexts: its counts are the numbers of contexts that are held and
waited for, in every state of every run. -/
namespace ArtifactCache.Sync.Group

section Waits

variable {θ : Type} {s : Group θ} {u : θ}

theorem exclusiveWaits_setPhase {name : String} {c : Context θ}
    (hc : s.contexts.get? name = some c) (phase : Phase θ) (lock : Lock θ) :
    (s.setPhase name c phase lock).exclusiveWaits +
        KeyMap.weight Context.awaitsExclusive (some c) =
      s.exclusiveWaits + KeyMap.weight Context.awaitsExclusive (some { c with phase }) := by
  have h := KeyMap.count_insert Context.awaitsExclusive s.contexts name { c with phase }
  rw [hc] at h
  exact h

theorem weight_awaitsExclusive_held (b : Bool) (n : Nat) :
    KeyMap.weight Context.awaitsExclusive (some ⟨b, .held u n⟩) = 0 := by
  simp [KeyMap.weight, Context.awaitsExclusive]

theorem weight_awaitsExclusive_idle (b : Bool) :
    KeyMap.weight Context.awaitsExclusive (some (⟨b, .idle⟩ : Context θ)) = 0 := by
  simp [KeyMap.weight, Context.awaitsExclusive]

theorem weight_awaitsExclusive_waiting (b : Bool) (ticket : Nat) :
    KeyMap.weight Context.awaitsExclusive (some ⟨b, .waiting u ticket⟩) =
      if b = true then 0 else 1 := by
  cases b <;> simp [KeyMap.weight, Context.awaitsExclusive]

theorem weight_awaitsExclusive_of_idle {o : Option (Context θ)}
    (h : ∀ c, o = some c → c.phase = .idle) : KeyMap.weight Context.awaitsExclusive o = 0 := by
  cases o with
  | none => rfl
  | some c =>
    obtain ⟨b, phase⟩ := c
    cases h _ rfl
    exact weight_awaitsExclusive_idle b

end Waits

variable {θ : Type} [DecidableEq θ] {s s' : Group θ} {t u : θ} {shared : Bool}

/-- The counts of the lock are those of the contexts. -/
structure Accounted (s : Group θ) : Prop where
  tidy : s.lock.Tidy
  exclusive : s.lock.Exclusive
  shares : ∀ t, s.lock.shares t = s.held true t
  owns : ∀ t, s.lock.owns t = s.held false t
  waiting : s.lock.waitingWriters = s.exclusiveWaits

theorem held_setPhase {name : String} {c : Context θ} (hc : s.contexts.get? name = some c)
    (phase : Phase θ) (lock : Lock θ) (shared : Bool) (t : θ) :
    (s.setPhase name c phase lock).held shared t +
        KeyMap.weight (Context.heldBy shared t) (some c) =
      s.held shared t + KeyMap.weight (Context.heldBy shared t) (some { c with phase }) := by
  have h := KeyMap.count_insert (Context.heldBy shared t) s.contexts name { c with phase }
  rw [hc] at h
  exact h

theorem weight_heldBy_held (b : Bool) (n : Nat) :
    KeyMap.weight (Context.heldBy shared t) (some ⟨b, .held u n⟩) =
      if b = shared ∧ t = u then 1 else 0 := by
  by_cases hb : b = shared
  · by_cases hu : t = u
    · simp [KeyMap.weight, Context.heldBy, hb, hu]
    · have hut : u ≠ t := fun he => hu he.symm
      simp [KeyMap.weight, Context.heldBy, hu, hut]
  · simp [KeyMap.weight, Context.heldBy, hb]

theorem weight_heldBy_idle (b : Bool) :
    KeyMap.weight (Context.heldBy shared t) (some ⟨b, .idle⟩) = 0 := by
  simp [KeyMap.weight, Context.heldBy]

theorem weight_heldBy_waiting (b : Bool) (ticket : Nat) :
    KeyMap.weight (Context.heldBy shared t) (some ⟨b, .waiting u ticket⟩) = 0 := by
  simp [KeyMap.weight, Context.heldBy]

theorem accounted_fresh (contexts : List (String × Bool)) :
    (Group.fresh contexts : Group θ).Accounted := by
  have hheld : ∀ shared (t : θ), (Group.fresh contexts : Group θ).held shared t = 0 := by
    intro shared t
    apply Nat.eq_zero_of_not_pos
    rw [held_pos_iff]
    rintro ⟨name, times, hget⟩
    cases fresh_get? hget
  have hwaits : (Group.fresh contexts : Group θ).exclusiveWaits = 0 := by
    apply Nat.eq_zero_of_not_pos
    rw [exclusiveWaits_pos_iff]
    rintro ⟨t, name, ticket, hget⟩
    cases fresh_get? hget
  refine ⟨⟨by simp [fresh], by simp [fresh]⟩, ?_, ?_, ?_, ?_⟩
  · intro t u ht
    exact absurd ht (Nat.lt_irrefl 0)
  · intro t
    rw [hheld]
    rfl
  · intro t
    rw [hheld]
    rfl
  · rw [hwaits]
    rfl

/-- Accounts stay right when the lock counts what the phase of a context adds and takes away. -/
theorem accounted_setPhase {name : String} {c : Context θ} {phase : Phase θ} {lock : Lock θ}
    (h : s.Accounted) (hc : s.contexts.get? name = some c) (ht : lock.Tidy) (he : lock.Exclusive)
    (hshares : ∀ t, lock.shares t + KeyMap.weight (Context.heldBy true t) (some c) =
      s.lock.shares t + KeyMap.weight (Context.heldBy true t) (some { c with phase }))
    (howns : ∀ t, lock.owns t + KeyMap.weight (Context.heldBy false t) (some c) =
      s.lock.owns t + KeyMap.weight (Context.heldBy false t) (some { c with phase }))
    (hwaiting : lock.waitingWriters + KeyMap.weight Context.awaitsExclusive (some c) =
      s.lock.waitingWriters + KeyMap.weight Context.awaitsExclusive (some { c with phase })) :
    (s.setPhase name c phase lock).Accounted := by
  refine ⟨ht, he, ?_, ?_, ?_⟩
  · intro t
    have hheld := held_setPhase hc phase lock true t
    have := hshares t
    rw [h.shares] at this
    exact Nat.add_right_cancel (this.trans hheld.symm)
  · intro t
    have hheld := held_setPhase hc phase lock false t
    have := howns t
    rw [h.owns] at this
    exact Nat.add_right_cancel (this.trans hheld.symm)
  · have hwaits := exclusiveWaits_setPhase hc phase lock
    rw [h.waiting] at hwaiting
    exact Nat.add_right_cancel (hwaiting.trans hwaits.symm)

/-- A context that did not count begins to share the lock. -/
theorem accounted_share {name : String} {phase : Phase θ} {ticket : Nat} (h : s.Accounted)
    (hc : s.contexts.get? name = some ⟨true, phase⟩)
    (hheld : ∀ b u, KeyMap.weight (Context.heldBy b u) (some (⟨true, phase⟩ : Context θ)) = 0)
    (hwaits : KeyMap.weight Context.awaitsExclusive (some (⟨true, phase⟩ : Context θ)) = 0)
    (hcan : s.lock.canShare t ticket = true) :
    (s.setPhase name ⟨true, phase⟩ (.held t 1) (s.lock.share t)).Accounted := by
  apply accounted_setPhase h hc (Lock.tidy_share h.tidy t)
    (Lock.exclusive_share h.tidy h.exclusive hcan)
  · intro u
    simp [weight_heldBy_held, hheld, Lock.shares_share]
  · intro u
    simp [weight_heldBy_held, hheld, Lock.share, Lock.owns]
  · rw [weight_awaitsExclusive_held, hwaits]
    rfl

theorem accounted_move {name : String} {c : Context θ} {phase : Phase θ} {lock : Lock θ}
    (h : s.Accounted) (hc : s.contexts.get? name = some c)
    (hm : Move s c.shared c.phase phase lock) : (s.setPhase name c phase lock).Accounted := by
  obtain ⟨b, p⟩ := c
  cases hm with
  | again b t n =>
    apply accounted_setPhase h hc h.tidy h.exclusive
    all_goals simp only [weight_heldBy_held, weight_awaitsExclusive_held, implies_true]
  | share hready hcan =>
    exact accounted_share h hc (fun _ _ => weight_heldBy_idle _) (weight_awaitsExclusive_idle _) hcan
  | @own t hready hcan =>
    apply accounted_setPhase h hc (Lock.tidy_own h.tidy _)
      (Lock.exclusive_own h.tidy h.exclusive hcan)
    · intro u
      simp [weight_heldBy_held, weight_heldBy_idle, Lock.own, Lock.shares]
    · intro u
      simp [weight_heldBy_held, weight_heldBy_idle, Lock.owns_own h.tidy hcan]
    · rw [weight_awaitsExclusive_held, weight_awaitsExclusive_idle]
      rfl
  | shareAtLast hcan =>
    exact accounted_share h hc (fun _ _ => weight_heldBy_waiting _ _)
      (weight_awaitsExclusive_waiting _ _) hcan
  | @ownAtLast t ticket hcan =>
    have hwait : 0 < s.lock.waitingWriters := by
      rw [h.waiting, exclusiveWaits_pos_iff]
      exact ⟨t, name, ticket, hc⟩
    have htidy : s.lock.unqueue.Tidy := ⟨h.tidy.readers, h.tidy.writer⟩
    apply accounted_setPhase h hc (Lock.tidy_own htidy _)
      (Lock.exclusive_own htidy h.exclusive hcan)
    · intro u
      simp [weight_heldBy_held, weight_heldBy_waiting, Lock.own, Lock.unqueue, Lock.shares]
    · intro u
      rw [Lock.owns_own htidy hcan]
      simp [weight_heldBy_held, weight_heldBy_waiting, Lock.unqueue, Lock.owns]
    · rw [weight_awaitsExclusive_held, weight_awaitsExclusive_waiting]
      exact Nat.sub_add_cancel hwait
  | @awaitShared t ticket hready hcan =>
    apply accounted_setPhase h hc h.tidy h.exclusive
    all_goals simp [weight_heldBy_idle, weight_heldBy_waiting, weight_awaitsExclusive_idle,
      weight_awaitsExclusive_waiting]
  | @awaitExclusive t ticket hready hcan =>
    have htidy : s.lock.queue.Tidy := ⟨h.tidy.readers, h.tidy.writer⟩
    have hexclusive : s.lock.queue.Exclusive := h.exclusive
    apply accounted_setPhase h hc htidy hexclusive
    · intro u
      simp [weight_heldBy_idle, weight_heldBy_waiting, Lock.queue, Lock.shares]
    · intro u
      simp [weight_heldBy_idle, weight_heldBy_waiting, Lock.queue, Lock.owns]
    · simp [weight_awaitsExclusive_idle, weight_awaitsExclusive_waiting, Lock.queue]
  | unshare t n =>
    have hpos : 0 < s.lock.shares t := by
      rw [h.shares, held_pos_iff]
      exact ⟨name, n, hc⟩
    apply accounted_setPhase h hc (Lock.tidy_unshare h.tidy t)
      (Lock.exclusive_unshare h.exclusive t)
    · intro u
      rw [weight_heldBy_held, weight_heldBy_idle, Lock.shares_unshare]
      by_cases hu : u = t
      · subst hu
        simpa using Nat.sub_add_cancel hpos
      · simp [hu]
    · intro u
      simp [weight_heldBy_held, weight_heldBy_idle, Lock.unshare, Lock.owns]
    · rw [weight_awaitsExclusive_held, weight_awaitsExclusive_idle]
      rfl
  | disown t n =>
    have hpos : 0 < s.lock.owns t := by
      rw [h.owns, held_pos_iff]
      exact ⟨name, n, hc⟩
    apply accounted_setPhase h hc (Lock.tidy_disown h.tidy _)
      (Lock.exclusive_disown h.exclusive t)
    · intro u
      simp [weight_heldBy_held, weight_heldBy_idle, Lock.shares_disown]
    · intro u
      rw [weight_heldBy_held, weight_heldBy_idle, Lock.owns_disown]
      by_cases hu : u = t
      · subst hu
        simpa using Nat.sub_add_cancel hpos
      · simp [hu]
    · rw [weight_awaitsExclusive_held, weight_awaitsExclusive_idle]
      exact Lock.waitingWriters_disown s.lock t

theorem weight_heldBy_of_idle {o : Option (Context θ)} (h : ∀ c, o = some c → c.phase = .idle) :
    KeyMap.weight (Context.heldBy shared t) o = 0 := by
  cases o with
  | none => rfl
  | some c =>
    obtain ⟨b, phase⟩ := c
    cases h _ rfl
    exact weight_heldBy_idle b

/-- A context that is idle does not count, so it can come and go. -/
theorem accounted_contexts (h : s.Accounted) {contexts : KeyMap (Context θ)}
    (hheld : ∀ b t, contexts.count (Context.heldBy b t) = s.held b t)
    (hwaits : contexts.count Context.awaitsExclusive = s.exclusiveWaits) :
    Accounted { s with contexts } :=
  ⟨h.tidy, h.exclusive, fun t => (h.shares t).trans (hheld true t).symm,
    fun t => (h.owns t).trans (hheld false t).symm, h.waiting.trans hwaits.symm⟩

theorem accounted_change (h : s.Accounted) (hs : Change s s') : s'.Accounted := by
  cases hs with
  | none => exact h
  | move hc hm => exact accounted_move h hc hm
  | @create name shared hnew =>
    apply accounted_contexts h
    · intro b t
      have := KeyMap.count_insert (Context.heldBy b t) s.contexts name (.fresh shared)
      rwa [hnew, Context.fresh, weight_heldBy_idle] at this
    · have := KeyMap.count_insert Context.awaitsExclusive s.contexts name (.fresh shared)
      rwa [hnew, Context.fresh, weight_awaitsExclusive_idle] at this
  | @remove name hidle =>
    apply accounted_contexts h
    · intro b t
      have := KeyMap.count_erase (Context.heldBy b t) s.contexts name
      rwa [weight_heldBy_of_idle hidle] at this
    · have := KeyMap.count_erase Context.awaitsExclusive s.contexts name
      rwa [weight_awaitsExclusive_of_idle hidle] at this

theorem Reachable.accounted (h : s.Reachable) : s.Accounted :=
  h.invariant accounted_fresh fun _ _ hs hc => accounted_change hs hc

theorem Accounted.owns_pos_iff (h : s.Accounted) : 0 < s.lock.owns t ↔ s.Holds false t := by
  rw [h.owns, held_pos_iff]

theorem Accounted.shares_pos_iff (h : s.Accounted) : 0 < s.lock.shares t ↔ s.Holds true t := by
  rw [h.shares, held_pos_iff]

theorem Accounted.waiting_pos_iff (h : s.Accounted) :
    0 < s.lock.waitingWriters ↔ ∃ t, s.Awaits false t := by
  rw [h.waiting, exclusiveWaits_pos_iff]

/-- The writer is kept with the number of contexts that it holds. -/
theorem Accounted.writer_iff (h : s.Accounted) (t : θ) (n : Nat) :
    s.lock.writer = some (t, n) ↔ 0 < n ∧ n = s.held false t := by
  constructor
  · intro hw
    refine ⟨h.tidy.writer _ hw, ?_⟩
    rw [← h.owns, Lock.owns, hw]
    simp
  · rintro ⟨hpos, hn⟩
    rw [hn, ← h.owns] at hpos
    obtain ⟨m, hm⟩ := (Lock.owns_pos_iff h.tidy).1 hpos
    have hmn : m = n := by
      rw [hn, ← h.owns, Lock.owns, hm]
      simp
    rw [hm, hmn]

/-- Nobody is beside a thread that holds a context that is not shared. -/
theorem Accounted.eq_of_holds (h : s.Accounted) (ht : s.Holds false t) (hu : s.Holds shared u) :
    u = t := by
  have howns := h.owns_pos_iff.2 ht
  cases shared with
  | true => exact h.exclusive t u howns (h.shares_pos_iff.2 hu)
  | false => exact Lock.eq_of_owns_pos h.tidy howns (h.owns_pos_iff.2 hu)

/-- The lock and its contexts agree: the lock counts the contexts that each thread shares and keeps
no count of zero, it names the one thread that has it for itself, nobody is beside that thread, and
when nothing is held or waited for, it is as at the start but for the number of releases. -/
structure Balanced (s : Group θ) : Prop where
  shares : ∀ t, s.lock.shares t = s.held true t
  entries : ∀ r ∈ s.lock.readers, s.lock.readers.lookup r.1 = some r.2 ∧ 0 < r.2
  writer : ∀ t n, s.lock.writer = some (t, n) ↔ 0 < n ∧ n = s.held false t
  noWriter : s.lock.writer = none ↔ ∀ t, ¬ s.Holds false t
  waiting : s.lock.waitingWriters = s.exclusiveWaits
  alone : ∀ t u shared, s.Holds false t → s.Holds shared u → u = t
  free : (∀ shared t, ¬ s.Holds shared t ∧ ¬ s.Awaits shared t) →
    s.lock = { releases := s.lock.releases }

theorem Accounted.noWriter_iff (h : s.Accounted) :
    s.lock.writer = none ↔ ∀ t, ¬ s.Holds false t := by
  rw [Lock.writer_eq_none_iff h.tidy]
  constructor
  · intro hnone t ht
    have := h.owns_pos_iff.2 ht
    rw [hnone t] at this
    exact absurd this (Nat.lt_irrefl 0)
  · intro hnone t
    exact Nat.eq_zero_of_not_pos fun hpos => hnone t (h.owns_pos_iff.1 hpos)

theorem Accounted.lock_eq (h : s.Accounted)
    (hfree : ∀ shared t, ¬ s.Holds shared t ∧ ¬ s.Awaits shared t) :
    s.lock = { releases := s.lock.releases } := by
  have hwriter : s.lock.writer = none := h.noWriter_iff.2 fun t => (hfree false t).1
  have hreaders : s.lock.readers = [] := by
    rw [List.eq_nil_iff_forall_not_mem]
    intro r hr
    exact (hfree true r.1).1 (h.shares_pos_iff.1 (Lock.shares_pos_of_mem h.tidy hr))
  have hwaiting : s.lock.waitingWriters = 0 := by
    apply Nat.eq_zero_of_not_pos
    rw [h.waiting_pos_iff]
    rintro ⟨t, ht⟩
    exact (hfree false t).2 ht
  rw [← hwriter, ← hreaders, ← hwaiting]

theorem reachable_balanced (h : s.Reachable) : s.Balanced :=
  have ha := h.accounted
  { shares := ha.shares
    entries := ha.tidy.readers
    writer := ha.writer_iff
    noWriter := ha.noWriter_iff
    waiting := ha.waiting
    alone := fun _ _ _ ht hu => ha.eq_of_holds ht hu
    free := ha.lock_eq }

theorem upgraders_balanced : upgraders.Reachable ∧ upgraders.Balanced ∧
    upgraders.held true 1 = 1 ∧ upgraders.exclusiveWaits = 2 :=
  ⟨upgraders_reachable, reachable_balanced upgraders_reachable, by decide, by decide⟩

end ArtifactCache.Sync.Group
