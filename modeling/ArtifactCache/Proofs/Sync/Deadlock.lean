import ArtifactCache.Proofs.Sync.Accounting

/-! Who can wait for whom. When no waiting call can go on, either a thread that does not wait has
still to close a context, or two threads that share the lock both want it for themselves. -/
namespace ArtifactCache.Sync.Group

variable {θ : Type} [DecidableEq θ] {s s' : Group θ} {t u : θ} {shared : Bool} {name : String}

theorem Accounted.canShare_of_owner (h : s.Accounted) (ht : s.Holds false t) (ticket : Nat) :
    s.lock.canShare t ticket = true :=
  (Lock.canShare_iff h.tidy).2 (.inl (h.owns_pos_iff.2 ht))

theorem Accounted.canOwn_of_owner (h : s.Accounted) (ht : s.Holds false t) :
    s.lock.canOwn t = true :=
  (Lock.canOwn_iff h.tidy).2 (.inl (h.owns_pos_iff.2 ht))

theorem Accounted.canShare_of_sharer (h : s.Accounted) (ht : s.Holds true t) (ticket : Nat) :
    s.lock.canShare t ticket = true := by
  rw [Lock.canShare_iff h.tidy]
  by_cases howner : ∃ u, s.Holds false u
  · obtain ⟨u, hu⟩ := howner
    rw [← h.eq_of_holds hu ht] at hu
    exact .inl (h.owns_pos_iff.2 hu)
  · refine .inr ⟨?_, .inl (h.shares_pos_iff.2 ht)⟩
    intro u
    exact Nat.eq_zero_of_not_pos fun hpos => howner ⟨u, h.owns_pos_iff.1 hpos⟩

theorem Accounted.canOwn_of_sole (h : s.Accounted) (howner : ∀ u, s.Holds false u → u = t)
    (hsole : ∀ u, s.Holds true u → u = t) : s.lock.canOwn t = true := by
  rw [Lock.canOwn_iff h.tidy]
  by_cases ht : s.Holds false t
  · exact .inl (h.owns_pos_iff.2 ht)
  · refine .inr ⟨?_, fun u hu => hsole u (h.shares_pos_iff.1 hu)⟩
    intro u
    apply Nat.eq_zero_of_not_pos
    intro hpos
    have hu := h.owns_pos_iff.1 hpos
    exact ht (howner u hu ▸ hu)

/-- A call waits for the exclusive side because another thread holds a context. -/
theorem Accounted.other_holder (h : s.Accounted) (hcan : s.lock.canOwn t = false) :
    ∃ u shared, u ≠ t ∧ s.Holds shared u := by
  by_contra hno
  have hall : ∀ shared u, s.Holds shared u → u = t := by
    intro shared u hu
    by_contra hne
    exact hno ⟨u, shared, hne, hu⟩
  have := h.canOwn_of_sole (hall false) (hall true)
  rw [this] at hcan
  cases hcan

/-- A thread waits in one call at a time, and if it holds a context meanwhile, it shares the lock
and wants it for itself. -/
structure Orderly (s : Group θ) : Prop where
  single : ∀ {t n m b c i j}, s.contexts.get? n = some ⟨b, .waiting t i⟩ →
    s.contexts.get? m = some ⟨c, .waiting t j⟩ → n = m
  upgrade : ∀ {t b c}, s.Holds b t → s.Awaits c t → b = true ∧ c = false

theorem Move.to_waiting {b : Bool} {p : Phase θ} {ticket : Nat} {lock : Lock θ}
    (hm : Move s b p (.waiting t ticket) lock) : ¬ s.Blocked t ∧
      (b = true → s.lock.canShare t ticket = false) ∧ (b = false → s.lock.canOwn t = false) := by
  cases hm with
  | awaitShared hready hcan => exact ⟨hready, fun _ => hcan, nofun⟩
  | awaitExclusive _ hready hcan => exact ⟨hready, nofun, fun _ => hcan⟩

theorem Move.to_held {b : Bool} {p : Phase θ} {n : Nat} {lock : Lock θ}
    (hm : Move s b p (.held t n) lock) :
    ¬ s.Blocked t ∨ (∃ k, p = .held t k) ∨ ∃ ticket, p = .waiting t ticket := by
  cases hm with
  | again => exact .inr (.inl ⟨_, rfl⟩)
  | share hready => exact .inl hready
  | own hready => exact .inl hready
  | shareAtLast => exact .inr (.inr ⟨_, rfl⟩)
  | ownAtLast => exact .inr (.inr ⟨_, rfl⟩)

omit [DecidableEq θ] in
/-- What the contexts are after one of them moved. -/
theorem get?_setPhase {c d : Context θ} {phase : Phase θ} {lock : Lock θ} {n : String}
    (h : (s.setPhase name c phase lock).contexts.get? n = some d) :
    (n = name ∧ d = { c with phase }) ∨ (n ≠ name ∧ s.contexts.get? n = some d) := by
  have hget := KeyMap.get?_insert s.contexts name n { c with phase }
  rw [show (s.contexts.insert name { c with phase }).get? n = some d from h] at hget
  by_cases hn : n = name
  · rw [if_pos hn] at hget
    exact .inl ⟨hn, Option.some.inj hget⟩
  · rw [if_neg hn] at hget
    exact .inr ⟨hn, hget.symm⟩

theorem orderly_move {c : Context θ} {phase : Phase θ} {lock : Lock θ} (ha : s.Accounted)
    (h : s.Orderly) (hc : s.contexts.get? name = some c)
    (hm : Move s c.shared c.phase phase lock) : (s.setPhase name c phase lock).Orderly := by
  constructor
  · intro t n m b d i j hn hw
    rcases get?_setPhase hn with ⟨rfl, hb⟩ | ⟨-, hnOld⟩
    · rcases get?_setPhase hw with ⟨rfl, -⟩ | ⟨-, hwOld⟩
      · rfl
      · cases hb
        exact absurd ⟨d, m, j, hwOld⟩ hm.to_waiting.1
    · rcases get?_setPhase hw with ⟨rfl, hd⟩ | ⟨-, hwOld⟩
      · cases hd
        exact absurd ⟨b, n, i, hnOld⟩ hm.to_waiting.1
      · exact h.single hnOld hwOld
  · rintro t b d ⟨n, times, hn⟩ ⟨m, ticket, hw⟩
    rcases get?_setPhase hn with ⟨rfl, hb⟩ | ⟨-, hnOld⟩
    · rcases get?_setPhase hw with ⟨rfl, hd⟩ | ⟨hne, hwOld⟩
      · cases hb.trans hd.symm
      · cases hb
        rcases hm.to_held with hready | ⟨k, hk⟩ | ⟨k, hk⟩
        · exact absurd ⟨d, m, ticket, hwOld⟩ hready
        · exact h.upgrade ⟨n, k, by rw [hc, ← hk]⟩ ⟨m, ticket, hwOld⟩
        · have hcw : s.contexts.get? n = some ⟨c.shared, .waiting t k⟩ := by rw [hc, ← hk]
          exact absurd (h.single hwOld hcw) hne
    · have hold : s.Holds b t := ⟨n, times, hnOld⟩
      rcases get?_setPhase hw with ⟨rfl, hd⟩ | ⟨-, hwOld⟩
      · -- The thread has just begun to wait, so it cannot have had the side it asks for.
        cases hd
        obtain ⟨-, hshare, hown⟩ := hm.to_waiting
        cases hs : c.shared with
        | true =>
          have := hshare hs
          cases b with
          | true => simp [ha.canShare_of_sharer hold] at this
          | false => simp [ha.canShare_of_owner hold] at this
        | false =>
          have := hown hs
          cases b with
          | true => exact ⟨rfl, rfl⟩
          | false => simp [ha.canOwn_of_owner hold] at this
      · exact h.upgrade hold ⟨m, ticket, hwOld⟩

theorem orderly_change (ha : s.Accounted) (h : s.Orderly) (hs : Change s s') : s'.Orderly := by
  cases hs with
  | none => exact h
  | move hc hm => exact orderly_move ha h hc hm
  | @create name shared hnew =>
    have hold : ∀ {n b phase}, (s.contexts.insert name (.fresh shared)).get? n = some ⟨b, phase⟩ →
        phase ≠ .idle → s.contexts.get? n = some ⟨b, phase⟩ := by
      intro n b phase hn hp
      rw [KeyMap.get?_insert] at hn
      split at hn
      · cases hn
        exact absurd rfl hp
      · exact hn
    refine ⟨fun hn hm => h.single (hold hn nofun) (hold hm nofun), ?_⟩
    rintro t b c ⟨n, times, hn⟩ ⟨m, ticket, hm⟩
    exact h.upgrade ⟨n, times, hold hn nofun⟩ ⟨m, ticket, hold hm nofun⟩
  | @remove name hidle =>
    have hold : ∀ {n c}, (s.contexts.erase name).get? n = some c → s.contexts.get? n = some c := by
      intro n c hn
      rw [KeyMap.get?_erase] at hn
      split at hn
      · cases hn
      · exact hn
    refine ⟨fun hn hm => h.single (hold hn) (hold hm), ?_⟩
    rintro t b c ⟨n, times, hn⟩ ⟨m, ticket, hm⟩
    exact h.upgrade ⟨n, times, hold hn⟩ ⟨m, ticket, hold hm⟩

omit [DecidableEq θ] in
theorem orderly_fresh (contexts : List (String × Bool)) :
    (Group.fresh contexts : Group θ).Orderly := by
  constructor
  · intro t n m b c i j hn
    cases fresh_get? hn
  · rintro t b c ⟨n, times, hn⟩ -
    cases fresh_get? hn

theorem Reachable.orderly (h : s.Reachable) : s.Orderly :=
  (h.invariant (P := fun s => s.Accounted ∧ s.Orderly)
    (fun contexts => ⟨accounted_fresh contexts, orderly_fresh contexts⟩)
    fun _ _ ⟨ha, ho⟩ hc => ⟨accounted_change ha hc, orderly_change ha ho hc⟩).2

omit [DecidableEq θ] in
theorem Orderly.owner_not_blocked (h : s.Orderly) (ht : s.Holds false t) : ¬ s.Blocked t := by
  rintro ⟨c, hc⟩
  cases (h.upgrade ht hc).1

theorem Quiescent.canOwn_eq_false (h : s.Quiescent) (ht : s.Awaits false t) :
    s.lock.canOwn t = false := by
  obtain ⟨name, ticket, hc⟩ := ht
  simpa [canProceed] using h name _ hc

theorem Quiescent.canShare_eq_false (h : s.Quiescent) (ht : s.Awaits true t) :
    ∃ ticket, s.lock.canShare t ticket = false := by
  obtain ⟨name, ticket, hc⟩ := ht
  exact ⟨ticket, by simpa [canProceed] using h name _ hc⟩

/-- Whoever waits for the exclusive side waits for a thread that goes on, or for an upgrade. -/
theorem Quiescent.exclusive_wait (hq : s.Quiescent) (ha : s.Accounted) (ho : s.Orderly)
    (ht : s.Awaits false t) :
    ∃ u, u ≠ t ∧ ((¬ s.Blocked u ∧ ∃ shared, s.Holds shared u) ∨
      (s.Holds true u ∧ s.Awaits false u)) := by
  obtain ⟨u, shared, hne, hu⟩ := ha.other_holder (hq.canOwn_eq_false ht)
  refine ⟨u, hne, ?_⟩
  by_cases hb : s.Blocked u
  · obtain ⟨c, hc⟩ := hb
    obtain ⟨rfl, rfl⟩ := ho.upgrade hu hc
    exact .inr ⟨hu, hc⟩
  · exact .inl ⟨hb, shared, hu⟩

/-- Whoever waits to share the lock waits for a thread that has it for itself or wants to. -/
theorem Quiescent.shared_wait (hq : s.Quiescent) (ha : s.Accounted) (ht : s.Awaits true t) :
    (∃ u, s.Holds false u) ∨ ∃ u, s.Awaits false u := by
  obtain ⟨ticket, hcan⟩ := hq.canShare_eq_false ht
  by_cases howner : ∃ u, s.Holds false u
  · exact .inl howner
  · refine .inr (ha.waiting_pos_iff.1 ?_)
    apply Nat.pos_of_ne_zero
    intro hzero
    have hnone : ∀ u, s.lock.owns u = 0 := by
      intro u
      exact Nat.eq_zero_of_not_pos fun hpos => howner ⟨u, ha.owns_pos_iff.1 hpos⟩
    have hfree : s.lock.canShare t ticket = true :=
      (Lock.canShare_iff ha.tidy).2 (.inr ⟨hnone, .inr (.inl hzero)⟩)
    rw [hfree] at hcan
    cases hcan

/-- A call that acquires a context returns at once. -/
def AcquiresAtOnce (s : Group θ) (t : θ) (name : String) : Prop :=
  s.isWaiting name = false → (s.call t name .acquire).isWaiting name = false

theorem acquiresAtOnce (hcan : ∀ c, s.contexts.get? name = some c →
    if c.shared then s.lock.canShare t s.lock.releases = true else s.lock.canOwn t = true) :
    s.AcquiresAtOnce t name := by
  intro hfree
  change (s.acquire t name).isWaiting name = false
  unfold acquire
  cases hget : s.contexts.get? name with
  | none => exact hfree
  | some c =>
    have := hcan c hget
    obtain ⟨b, phase⟩ := c
    cases phase with
    | held owner times => simp [setPhase, isWaiting]
    | waiting owner ticket => simp [isWaiting, hget] at hfree
    | idle => cases b <;> simp_all [setPhase, isWaiting]

/-- Waiting ends unless two threads that share the lock both want it for themselves: when no call
can go on, a thread that does not wait holds a context, or there are two such threads. Who has the
lock for itself never waits, who shares it never waits to share it, who alone shares it never
waits, and if nothing is held, nobody waits on. -/
structure WaitsForUpgradesOnly (s : Group θ) : Prop where
  blocked : s.Quiescent → ∀ t, s.Blocked t →
    (∃ u shared, ¬ s.Blocked u ∧ s.Holds shared u) ∨
      ∃ u v, u ≠ v ∧ (s.Holds true u ∧ s.Awaits false u) ∧ (s.Holds true v ∧ s.Awaits false v)
  owner : ∀ t, s.Holds false t → ¬ s.Blocked t ∧ ∀ name, s.AcquiresAtOnce t name
  sharer : ∀ t, s.Holds true t → ¬ s.Awaits true t ∧
    ∀ name c, s.contexts.get? name = some c → c.shared = true → s.AcquiresAtOnce t name
  sole : ∀ t, s.Holds true t → (∀ u, s.Holds true u → u = t) →
    (s.Quiescent → ¬ s.Blocked t) ∧ ∀ name, s.AcquiresAtOnce t name
  free : s.Quiescent → (∀ shared t, ¬ s.Holds shared t) → ∀ t, ¬ s.Blocked t

theorem blocked_cases (ha : s.Accounted) (ho : s.Orderly) (hq : s.Quiescent) (ht : s.Blocked t) :
    (∃ u shared, ¬ s.Blocked u ∧ s.Holds shared u) ∨
      ∃ u v, u ≠ v ∧ (s.Holds true u ∧ s.Awaits false u) ∧
        (s.Holds true v ∧ s.Awaits false v) := by
  have hexclusive : ∀ w, s.Awaits false w →
      (∃ u shared, ¬ s.Blocked u ∧ s.Holds shared u) ∨
        ∃ u v, u ≠ v ∧ (s.Holds true u ∧ s.Awaits false u) ∧
          (s.Holds true v ∧ s.Awaits false v) := by
    intro w hw
    obtain ⟨u, -, ⟨hu, b, hb⟩ | ⟨huh, huw⟩⟩ := hq.exclusive_wait ha ho hw
    · exact .inl ⟨u, b, hu, hb⟩
    · obtain ⟨v, hne, ⟨hv, b, hb⟩ | hv⟩ := hq.exclusive_wait ha ho huw
      · exact .inl ⟨v, b, hv, hb⟩
      · exact .inr ⟨u, v, hne.symm, ⟨huh, huw⟩, hv⟩
  obtain ⟨c, hc⟩ := ht
  cases c with
  | false => exact hexclusive t hc
  | true =>
    rcases hq.shared_wait ha hc with ⟨u, hu⟩ | ⟨u, hu⟩
    · exact .inl ⟨u, false, ho.owner_not_blocked hu, hu⟩
    · exact hexclusive u hu

theorem Accounted.canOwn_of_sole_sharer (h : s.Accounted) (ht : s.Holds true t)
    (hsole : ∀ u, s.Holds true u → u = t) : s.lock.canOwn t = true :=
  h.canOwn_of_sole (fun _ hu => (h.eq_of_holds hu ht).symm) hsole

theorem reachable_waitsForUpgradesOnly (h : s.Reachable) : s.WaitsForUpgradesOnly := by
  have ha := h.accounted
  have ho := h.orderly
  constructor
  · intro hq t ht
    exact blocked_cases ha ho hq ht
  · intro t ht
    refine ⟨ho.owner_not_blocked ht, fun name => acquiresAtOnce fun c _ => ?_⟩
    split
    · exact ha.canShare_of_owner ht _
    · exact ha.canOwn_of_owner ht
  · intro t ht
    refine ⟨fun hw => (by cases (ho.upgrade ht hw).2), fun name c hc hshared => ?_⟩
    apply acquiresAtOnce
    intro d hd
    rw [hc] at hd
    cases hd
    rw [if_pos hshared]
    exact ha.canShare_of_sharer ht _
  · intro t ht hsole
    have hcan := ha.canOwn_of_sole_sharer ht hsole
    refine ⟨?_, fun name => acquiresAtOnce fun c _ => ?_⟩
    · rintro hq ⟨c, hc⟩
      obtain ⟨-, rfl⟩ := ho.upgrade ht hc
      rw [hq.canOwn_eq_false hc] at hcan
      cases hcan
    · split
      · exact ha.canShare_of_sharer ht _
      · exact hcan
  · intro hq hfree t ht
    rcases blocked_cases ha ho hq ht with ⟨u, b, -, hu⟩ | ⟨u, v, -, ⟨hu, -⟩, -⟩
    · exact hfree b u hu
    · exact hfree true u hu

theorem upgraders_waitsForUpgradesOnly : upgraders.Reachable ∧ upgraders.WaitsForUpgradesOnly ∧
    upgraders.Blocked 1 ∧ upgraders.Blocked 2 :=
  ⟨upgraders_reachable, reachable_waitsForUpgradesOnly upgraders_reachable, by decide, by decide⟩

end ArtifactCache.Sync.Group
