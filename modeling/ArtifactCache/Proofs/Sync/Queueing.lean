import ArtifactCache.Proofs.Sync.Deadlock
import Mathlib.Order.Basic
import Mathlib.Order.Nat

/-! Who waits behind whom. A thread that begins to share the lock waits behind those that wait to have
it for themselves, until the exclusive side has once been released. -/
namespace ArtifactCache.Sync

variable {θ : Type} [DecidableEq θ]

namespace Lock

variable {l : Lock θ}

/-- The last exclusive hold that is given back is a release. -/
theorem releases_disown (h : l.Tidy) (t : θ) :
    (l.disown t).releases = l.releases + if l.owns t = 1 then 1 else 0 := by
  rcases disown_cases l t with ⟨hnone, hdisown⟩ | ⟨n, hw, hn, hdisown⟩ | ⟨n, hw, hn, hdisown⟩
  · simp [hdisown, hnone]
  · have hne : n ≠ 1 := by omega
    simp [hdisown, owns, hw, hne]
  · have hone : n = 1 := Nat.le_antisymm hn (h.writer _ hw)
    simp [hdisown, owns, hw, hone]

end Lock

namespace Group

variable {s s' : Group θ} {t : θ} {name : String} {shared : Bool} {ticket : Nat}
  {σ : ℕ → Group θ} {i j k : ℕ}

/-- From one state to the next the exclusive side is released: the thread that held it does not hold
it any more. -/
def Releases (s s' : Group θ) : Prop := ∃ t, s.Holds false t ∧ ¬ s'.Holds false t

/-- Every move leaves the owner of the lock as it is, or counts a release. -/
theorem Move.releases {b : Bool} {p phase : Phase θ} {lock : Lock θ} (ha : s.Accounted)
    (hm : Move s b p phase lock) :
    lock.releases = s.lock.releases ∧ (∀ t, 0 < s.lock.owns t → 0 < lock.owns t) ∨
      lock.releases = s.lock.releases + 1 ∧ ∃ t, 0 < s.lock.owns t ∧ lock.owns t = 0 := by
  cases hm with
  | again => exact .inl ⟨rfl, fun _ => id⟩
  | share => exact .inl ⟨rfl, fun _ => id⟩
  | own hready hcan =>
    refine .inl ⟨rfl, fun t ht => ?_⟩
    rw [Lock.owns_own ha.tidy hcan]
    omega
  | shareAtLast => exact .inl ⟨rfl, fun _ => id⟩
  | ownAtLast hcan =>
    have htidy : s.lock.unqueue.Tidy := ⟨ha.tidy.readers, ha.tidy.writer⟩
    refine .inl ⟨rfl, fun t (ht : 0 < s.lock.unqueue.owns t) => ?_⟩
    rw [Lock.owns_own htidy hcan]
    omega
  | awaitShared => exact .inl ⟨rfl, fun _ => id⟩
  | awaitExclusive => exact .inl ⟨rfl, fun _ => id⟩
  | unshare => exact .inl ⟨rfl, fun _ => id⟩
  | disown t n =>
    rw [Lock.releases_disown ha.tidy]
    by_cases hone : s.lock.owns t = 1
    · exact .inr ⟨by rw [if_pos hone], t, by omega, by rw [Lock.owns_disown, if_pos rfl, hone]⟩
    · refine .inl ⟨by rw [if_neg hone, Nat.add_zero], fun u hu => ?_⟩
      rw [Lock.owns_disown]
      by_cases hut : u = t
      · rw [hut] at hu ⊢
        rw [if_pos rfl]
        omega
      · rwa [if_neg hut]

/-- The number of releases goes up by one where the exclusive side is released, and stays the same
elsewhere. -/
theorem Step.releases (h : s.Reachable) (hs : Step s s') :
    s'.lock.releases = s.lock.releases ∧ ¬ Releases s s' ∨
      s'.lock.releases = s.lock.releases + 1 ∧ Releases s s' := by
  have ha := h.accounted
  have ha' := (h.step hs).accounted
  have hlock : s'.lock.releases = s.lock.releases ∧
        (∀ t, 0 < s.lock.owns t → 0 < s'.lock.owns t) ∨
      s'.lock.releases = s.lock.releases + 1 ∧ ∃ t, 0 < s.lock.owns t ∧ s'.lock.owns t = 0 := by
    obtain ⟨u, hu, hlast⟩ := hs.change
    have hsame : s'.lock = u.lock := by
      rcases hlast with rfl | ⟨-, -, rfl⟩
      · rfl
      · rfl
    rw [hsame]
    cases hu with
    | none => exact .inl ⟨rfl, fun _ => id⟩
    | create => exact .inl ⟨rfl, fun _ => id⟩
    | remove => exact .inl ⟨rfl, fun _ => id⟩
    | move hc hm => exact hm.releases ha
  rcases hlock with ⟨heq, hkept⟩ | ⟨heq, t, ht, hnone⟩
  · refine .inl ⟨heq, ?_⟩
    rintro ⟨t, ht, hnot⟩
    exact hnot (ha'.owns_pos_iff.1 (hkept t (ha.owns_pos_iff.2 ht)))
  · refine .inr ⟨heq, t, ha.owns_pos_iff.1 ht, fun hholds => ?_⟩
    have := ha'.owns_pos_iff.2 hholds
    omega

/-- A call that waits goes on waiting or is granted what it waits for. -/
theorem Change.waiting (hs : Change s s')
    (hw : s.contexts.get? name = some ⟨shared, .waiting t ticket⟩) :
    s'.contexts.get? name = some ⟨shared, .waiting t ticket⟩ ∨
      s'.contexts.get? name = some ⟨shared, .held t 1⟩ ∧
        s.canProceed ⟨shared, .waiting t ticket⟩ = true := by
  cases hs with
  | none => exact .inl hw
  | @create other b hnew =>
    have hne : name ≠ other := by
      rintro rfl
      cases hnew.symm.trans hw
    left
    rw [KeyMap.get?_insert, if_neg hne, hw]
  | @remove other hidle =>
    have hne : name ≠ other := by
      rintro rfl
      cases hidle _ hw
    left
    rw [KeyMap.get?_erase, if_neg hne, hw]
  | @move other c phase lock hc hm =>
    by_cases hne : name = other
    · subst hne
      cases hc.symm.trans hw
      right
      cases hm with
      | shareAtLast hcan => exact ⟨KeyMap.get?_insert_self _ _ _, hcan⟩
      | ownAtLast hcan => exact ⟨KeyMap.get?_insert_self _ _ _, hcan⟩
    · left
      rw [setPhase, KeyMap.get?_insert, if_neg hne, hw]

theorem Step.waiting (hs : Step s s')
    (hw : s.contexts.get? name = some ⟨shared, .waiting t ticket⟩) :
    s'.contexts.get? name = some ⟨shared, .waiting t ticket⟩ ∨
      s'.contexts.get? name = some ⟨shared, .held t 1⟩ ∧
        s.canProceed ⟨shared, .waiting t ticket⟩ = true := by
  obtain ⟨u, hu, rfl | ⟨other, hidle, rfl⟩⟩ := hs.change
  · exact hu.waiting hw
  · have hkept : ∀ c, u.contexts.get? name = some c → c.phase ≠ .idle →
        (u.contexts.erase other).get? name = some c := by
      intro c hc hphase
      have hne : name ≠ other := by
        rintro rfl
        exact hphase (hidle c hc)
      rw [KeyMap.get?_erase, if_neg hne, hc]
    rcases hu.waiting hw with h | ⟨h, hcan⟩
    · exact .inl (hkept _ h nofun)
    · exact .inr ⟨hkept _ h nofun, hcan⟩

/-- When a thread can share the lock: it has the lock for itself, or nobody has, and the thread shares
the lock already, or nobody waits to have it, or it was released after the thread began. -/
theorem Accounted.canShare_iff (h : s.Accounted) : s.lock.canShare t ticket = true ↔
    s.Holds false t ∨ (∀ u, ¬ s.Holds false u) ∧
      (s.Holds true t ∨ (∀ u, ¬ s.Awaits false u) ∨ ticket < s.lock.releases) := by
  have hwriter : (∀ u, s.lock.owns u = 0) ↔ ∀ u, ¬ s.Holds false u := by
    simp only [← h.owns_pos_iff, Nat.pos_iff_ne_zero, ne_eq, not_not]
  have hwaiting : s.lock.waitingWriters = 0 ↔ ∀ u, ¬ s.Awaits false u := by
    rw [← not_exists, ← h.waiting_pos_iff, Nat.pos_iff_ne_zero, not_not]
  rw [Lock.canShare_iff h.tidy, h.owns_pos_iff, h.shares_pos_iff, hwriter, hwaiting]

theorem grant_get?_iff (hw : s.contexts.get? name = some ⟨true, .waiting t ticket⟩) :
    (s.grant name).contexts.get? name = some ⟨true, .held t 1⟩ ↔
      s.lock.canShare t ticket = true := by
  have hproceed : s.canProceed ⟨true, .waiting t ticket⟩ = s.lock.canShare t ticket := rfl
  simp only [grant, hw, hproceed]
  split
  · rename_i hcan
    exact iff_of_true (KeyMap.get?_insert_self _ _ _) hcan
  · rename_i hcan
    rw [hw]
    exact iff_of_false (by simp) hcan

/-- A run, state by state. Where nothing more happens, a state follows itself. -/
structure Execution (σ : ℕ → Group θ) : Prop where
  start : ∃ contexts, σ 0 = .fresh contexts
  next : ∀ k, Step (σ k) (σ (k + 1))

/-- At a step a thread asks to share the lock: it acquires a shared context that nobody holds. -/
structure Asks (σ : ℕ → Group θ) (i : ℕ) (t : θ) (name : String) : Prop where
  context : (σ i).contexts.get? name = some ⟨true, .idle⟩
  ready : ¬ (σ i).Blocked t
  call : σ (i + 1) = (σ i).call t name .acquire

/-- A call that was made at a step has not returned up to a later state. -/
def WaitsUntil (σ : ℕ → Group θ) (i j : ℕ) (name : String) : Prop :=
  ∀ k, i < k → k ≤ j → (σ k).isWaiting name = true

/-- After the step at which a call was made, and before a later state, the exclusive side was
released. -/
def ReleasedBetween (σ : ℕ → Group θ) (i j : ℕ) : Prop :=
  ∃ k, i < k ∧ k < j ∧ Releases (σ k) (σ (k + 1))

theorem Execution.reachable (h : Execution σ) (k : ℕ) : (σ k).Reachable := by
  induction k with
  | zero =>
    obtain ⟨contexts, hstart⟩ := h.start
    rw [hstart]
    exact .fresh contexts
  | succ k ih => exact ih.step (h.next k)

theorem Execution.releases_le (h : Execution σ) (hij : i ≤ j) :
    (σ i).lock.releases ≤ (σ j).lock.releases := by
  induction j, hij using Nat.le_induction with
  | base => exact le_rfl
  | succ j hij ih =>
    rcases (h.next j).releases (h.reachable j) with ⟨heq, -⟩ | ⟨heq, -⟩
    · rwa [heq]
    · rw [heq]
      omega

/-- What comes of asking to share the lock. -/
theorem Asks.asked (h : Asks σ i t name) : (σ (i + 1)).lock.releases = (σ i).lock.releases ∧
    (σ (i + 1)).contexts.get? name = some ⟨true,
      if (σ i).lock.canShare t (σ i).lock.releases then .held t 1
      else .waiting t (σ i).lock.releases⟩ := by
  rw [h.call]
  simp only [Group.call, acquire, h.context, if_true]
  split
  · exact ⟨rfl, KeyMap.get?_insert_self _ _ _⟩
  · exact ⟨rfl, KeyMap.get?_insert_self _ _ _⟩

/-- A call that waits keeps the number of releases that it began with. -/
theorem Asks.waiting (ha : Asks σ i t name) (h : Execution σ) (hij : i < j)
    (hw : WaitsUntil σ i j name) :
    (σ j).contexts.get? name = some ⟨true, .waiting t (σ i).lock.releases⟩ := by
  induction j, hij using Nat.le_induction with
  | base =>
    have hfirst := hw (i + 1) (Nat.lt_succ_self i) le_rfl
    obtain ⟨-, hget⟩ := ha.asked
    split at hget
    · simp [isWaiting, hget] at hfirst
    · exact hget
  | succ j hij ih =>
    have hlast := hw (j + 1) (by omega) le_rfl
    rcases (h.next j).waiting (ih fun k hik hkj => hw k hik (by omega)) with hget | ⟨hget, -⟩
    · exact hget
    · simp [isWaiting, hget] at hlast

/-- The number of releases that a call began with is exceeded once the exclusive side was released. -/
theorem Asks.lt_releases_iff (ha : Asks σ i t name) (h : Execution σ) (hij : i < j) :
    (σ i).lock.releases < (σ j).lock.releases ↔ ReleasedBetween σ i j := by
  induction j, hij using Nat.le_induction with
  | base =>
    rw [ha.asked.1]
    refine iff_of_false (Nat.lt_irrefl _) ?_
    rintro ⟨k, hik, hk, -⟩
    omega
  | succ j hij ih =>
    have hmore : ReleasedBetween σ i (j + 1) ↔
        ReleasedBetween σ i j ∨ Releases (σ j) (σ (j + 1)) := by
      constructor
      · rintro ⟨k, hik, hkj, hk⟩
        rcases Nat.lt_succ_iff_lt_or_eq.1 hkj with hkj | rfl
        · exact .inl ⟨k, hik, hkj, hk⟩
        · exact .inr hk
      · rintro (⟨k, hik, hkj, hk⟩ | hlast)
        · exact ⟨k, hik, by omega, hk⟩
        · exact ⟨j, hij, Nat.lt_succ_self j, hlast⟩
    have hle := h.releases_le (Nat.le_of_lt hij)
    rw [hmore, ← ih]
    rcases (h.next j).releases (h.reachable j) with ⟨heq, hnot⟩ | ⟨heq, hreleases⟩
    · rw [heq]
      simp [hnot]
    · exact iff_of_true (by omega) (.inr hreleases)

theorem Asks.not_holds (ha : Asks σ i t name) (h : Execution σ) (hij : i < j)
    (hw : WaitsUntil σ i j name) : ¬ (σ j).Holds shared t := by
  intro hholds
  cases ((h.reachable j).orderly.upgrade hholds ⟨name, _, ha.waiting h hij hw⟩).2

/-- A thread that has no part in the lock begins to wait where another waits to have it for itself. -/
theorem Asks.begins_to_wait (ha : Asks σ i t name) (h : Execution σ)
    (hnone : ∀ shared, ¬ (σ i).Holds shared t) (hwriter : ∃ u, (σ i).Awaits false u) :
    (σ (i + 1)).isWaiting name = true := by
  have hcan : ¬ (σ i).lock.canShare t (σ i).lock.releases = true := by
    rw [(h.reachable i).accounted.canShare_iff]
    rintro (hholds | ⟨-, hholds | hnowriter | hlt⟩)
    · exact hnone false hholds
    · exact hnone true hholds
    · obtain ⟨u, hu⟩ := hwriter
      exact hnowriter u hu
    · exact Nat.lt_irrefl _ hlt
  obtain ⟨-, hget⟩ := ha.asked
  rw [if_neg hcan] at hget
  simp [isWaiting, hget]

/-- A call that has waited returns after a release, or when nobody waits for the exclusive side. -/
theorem Asks.granted (ha : Asks σ i t name) (h : Execution σ) (hij : i < j)
    (hw : WaitsUntil σ i j name) (hreturned : (σ (j + 1)).isWaiting name = false) :
    (σ (j + 1)).contexts.get? name = some ⟨true, .held t 1⟩ ∧
      (ReleasedBetween σ i j ∨ ∀ u, ¬ (σ j).Awaits false u) := by
  rcases (h.next j).waiting (ha.waiting h hij hw) with hget | ⟨hget, hcan⟩
  · simp [isWaiting, hget] at hreturned
  · refine ⟨hget, ?_⟩
    rcases (h.reachable j).accounted.canShare_iff.1 hcan with
      hholds | ⟨-, hholds | hnowriter | hlt⟩
    · exact absurd hholds (ha.not_holds h hij hw)
    · exact absurd hholds (ha.not_holds h hij hw)
    · exact .inr hnowriter
    · exact .inl ((ha.lt_releases_iff h hij).1 hlt)

/-- After a release a call that has waited goes on unless another thread has the lock for itself. -/
theorem Asks.admitted (ha : Asks σ i t name) (h : Execution σ) (hw : WaitsUntil σ i j name)
    (hreleased : ReleasedBetween σ i j) :
    ((σ j).grant name).contexts.get? name = some ⟨true, .held t 1⟩ ↔
      ∀ u, ¬ (σ j).Holds false u := by
  have hij : i < j := by
    obtain ⟨k, hik, hkj, -⟩ := hreleased
    exact hik.trans hkj
  have hlt := (ha.lt_releases_iff h hij).2 hreleased
  rw [grant_get?_iff (ha.waiting h hij hw), (h.reachable j).accounted.canShare_iff]
  simp [ha.not_holds h hij hw, hlt]

theorem Asks.shares_at_once (ha : Asks σ i t name) (h : Execution σ)
    (hholds : (σ i).Holds shared t) :
    (σ (i + 1)).contexts.get? name = some ⟨true, .held t 1⟩ := by
  have haccounted := (h.reachable i).accounted
  have hcan : (σ i).lock.canShare t (σ i).lock.releases = true := by
    cases shared with
    | true => exact haccounted.canShare_of_sharer hholds _
    | false => exact haccounted.canShare_of_owner hholds _
  obtain ⟨-, hget⟩ := ha.asked
  rwa [if_pos hcan] at hget

/-- Waiting writers hold back new readers, and only those: a thread that asks to share the lock while
another waits to have it for itself begins to wait; it is let in only after the exclusive side has been
released, or when nobody waits for that side any more; once that side has been released, only a thread
that has the lock for itself holds it back; and one that has a part in the lock shares it at once. To
acquire a shared context that is held already only counts. -/
structure HoldsBackNewReaders (σ : ℕ → Group θ) : Prop where
  waits : ∀ i t name, Asks σ i t name → (∀ shared, ¬ (σ i).Holds shared t) →
    (∃ u, (σ i).Awaits false u) → (σ (i + 1)).isWaiting name = true
  granted : ∀ i j t name, Asks σ i t name → i < j → WaitsUntil σ i j name →
    (σ (j + 1)).isWaiting name = false →
    (σ (j + 1)).contexts.get? name = some ⟨true, .held t 1⟩ ∧
      (ReleasedBetween σ i j ∨ ∀ u, ¬ (σ j).Awaits false u)
  admitted : ∀ i j t name, Asks σ i t name → WaitsUntil σ i j name → ReleasedBetween σ i j →
    (((σ j).grant name).contexts.get? name = some ⟨true, .held t 1⟩ ↔
      ∀ u, ¬ (σ j).Holds false u)
  atOnce : ∀ i t name shared, (σ i).Holds shared t → Asks σ i t name →
    (σ (i + 1)).contexts.get? name = some ⟨true, .held t 1⟩
  counted : ∀ i t u name n, (σ i).contexts.get? name = some ⟨true, .held u n⟩ →
    σ (i + 1) = (σ i).call t name .acquire →
    (σ (i + 1)).contexts.get? name = some ⟨true, .held u (n + 1)⟩

theorem execution_holdsBackNewReaders (h : Execution σ) : HoldsBackNewReaders σ where
  waits _ _ _ ha := ha.begins_to_wait h
  granted _ _ _ _ ha := ha.granted h
  admitted _ _ _ _ ha := ha.admitted h
  atOnce _ _ _ _ hholds ha := ha.shares_at_once h hholds
  counted i t u name n hheld hcall := by
    rw [hcall]
    simp only [Group.call, acquire, hheld]
    exact KeyMap.get?_insert_self _ _ _

/-- A reader asks between two writers, and is let in between them. -/
def writersAndReader : ℕ → Group Nat
  | 0 => .fresh [("first", true), ("late", true), ("one", false), ("two", false)]
  | 1 => (writersAndReader 0).call 1 "first" .acquire
  | 2 => (writersAndReader 1).call 2 "one" .acquire
  | 3 => (writersAndReader 2).call 3 "late" .acquire
  | 4 => (writersAndReader 3).call 4 "two" .acquire
  | 5 => (writersAndReader 4).call 1 "first" .close
  | 6 => (writersAndReader 5).grant "one"
  | 7 => (writersAndReader 6).call 2 "one" .close
  | k + 8 => (writersAndReader (k + 7)).grant "late"

theorem execution_writersAndReader : Execution writersAndReader := by
  refine ⟨⟨_, rfl⟩, fun k => ?_⟩
  match k with
  | 0 => exact .call .acquire (by decide) (by decide)
  | 1 => exact .call .acquire (by decide) (by decide)
  | 2 => exact .call .acquire (by decide) (by decide)
  | 3 => exact .call .acquire (by decide) (by decide)
  | 4 => exact .call .close (by decide) (by decide)
  | 5 => exact .grant _ _
  | 6 => exact .call .close (by decide) (by decide)
  | k + 7 => exact .grant _ _

theorem execution_holdsBackNewReaders_between : Execution writersAndReader ∧
    HoldsBackNewReaders writersAndReader ∧
    (writersAndReader 3).isWaiting "late" = true ∧ (writersAndReader 7).isWaiting "late" = true ∧
    (writersAndReader 8).contexts.get? "late" = some ⟨true, .held 3 1⟩ ∧
    (writersAndReader 8).isWaiting "two" = true :=
  ⟨execution_writersAndReader, execution_holdsBackNewReaders execution_writersAndReader,
    by decide, by decide, by decide, by decide⟩

end Group
end ArtifactCache.Sync
