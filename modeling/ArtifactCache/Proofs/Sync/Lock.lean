import ArtifactCache.Proofs.Lookup
import ArtifactCache.Sync.Lock
import Mathlib.Tactic.ByContra

/-! What each operation does to the holds that a lock keeps, and what its two guards ask for. -/
namespace ArtifactCache.Sync.Lock

variable {θ : Type} [DecidableEq θ] {l : Lock θ} {t u : θ} {n : Nat} {readers : List (θ × Nat)}

/-- How often a thread has the lock for itself. -/
def owns (l : Lock θ) (t : θ) : Nat :=
  match l.writer with
  | some (owner, n) => if owner = t then n else 0
  | none => 0

/-- Every thread has one entry among the readers, and no count that is kept is zero. -/
structure Tidy (l : Lock θ) : Prop where
  readers : ∀ r ∈ l.readers, l.readers.lookup r.1 = some r.2 ∧ 0 < r.2
  writer : ∀ w, l.writer = some w → 0 < w.2

/-- While a thread has the lock for itself, no other one shares it. -/
def Exclusive (l : Lock θ) : Prop := ∀ t u, 0 < l.owns t → 0 < l.shares u → u = t

theorem lookup_setShares (t u : θ) (n : Nat) (readers : List (θ × Nat)) :
    (setShares t n readers).lookup u =
      if u = t then (if n = 0 then none else some n) else readers.lookup u := by
  unfold setShares
  by_cases hu : u = t
  · subst hu
    by_cases hn : n = 0
    · simpa [hn] using fun a b _ hne he => hne he.symm
    · simp [hn]
  · have hut : (u == t) = false := by simpa using hu
    by_cases hn : n = 0
    · simp only [hn, if_true, if_neg hu]
      rw [Lookup.lookup_filter_ne, if_neg hu]
    · simp only [hn, if_false, if_neg hu, List.lookup_cons, hut]
      rw [Lookup.lookup_filter_ne, if_neg hu]

theorem shares_share (l : Lock θ) (t u : θ) :
    (l.share t).shares u = l.shares u + if u = t then 1 else 0 := by
  simp only [shares, share, lookup_setShares]
  by_cases hu : u = t <;> simp [hu]

theorem shares_unshare (l : Lock θ) (t u : θ) :
    (l.unshare t).shares u = l.shares u - if u = t then 1 else 0 := by
  simp only [unshare, shares, lookup_setShares]
  by_cases hu : u = t
  · subst hu
    by_cases hn : (l.readers.lookup u).getD 0 - 1 = 0 <;> simp [hn]
  · simp [hu]

theorem tidy_setShares (h : l.Tidy) (t : θ) (n : Nat) :
    Tidy { l with readers := setShares t n l.readers } := by
  refine ⟨?_, h.writer⟩
  intro r hr
  change r ∈ setShares t n l.readers at hr
  change (setShares t n l.readers).lookup r.1 = some r.2 ∧ 0 < r.2
  have hold : r ∈ l.readers.filter (fun r => r.1 ≠ t) →
      (setShares t n l.readers).lookup r.1 = some r.2 ∧ 0 < r.2 := by
    intro hr
    rw [List.mem_filter] at hr
    have hne : r.1 ≠ t := by simpa using hr.2
    rw [lookup_setShares, if_neg hne]
    exact h.readers r hr.1
  by_cases hn : n = 0
  · apply hold
    simpa [setShares, hn] using hr
  · simp only [setShares, hn, if_false, List.mem_cons] at hr
    rcases hr with rfl | hr
    · simp only [lookup_setShares, if_true, hn, if_false]
      exact ⟨trivial, Nat.pos_of_ne_zero hn⟩
    · exact hold hr

theorem tidy_share (h : l.Tidy) (t : θ) : (l.share t).Tidy := tidy_setShares h t _

theorem tidy_unshare (h : l.Tidy) (t : θ) : (l.unshare t).Tidy := tidy_setShares h t _

theorem shares_pos_of_mem (h : l.Tidy) {r : θ × Nat} (hr : r ∈ l.readers) : 0 < l.shares r.1 := by
  have := h.readers r hr
  simpa [shares, this.1] using this.2

theorem lookup_isSome_iff (h : l.Tidy) : (l.readers.lookup t).isSome ↔ 0 < l.shares t := by
  constructor
  · intro hs
    obtain ⟨r, hr, he⟩ := List.lookup_isSome_iff.1 hs
    have := shares_pos_of_mem h hr
    rwa [← eq_of_beq he] at this
  · intro hs
    cases hl : l.readers.lookup t with
    | none => simp [shares, hl] at hs
    | some n => rfl

theorem owns_pos_iff (h : l.Tidy) : 0 < l.owns t ↔ ∃ n, l.writer = some (t, n) := by
  unfold owns
  cases hw : l.writer with
  | none => simp
  | some w =>
    have := h.writer w hw
    by_cases ht : w.1 = t
    · simp only [ht, if_true, this, true_iff]
      exact ⟨w.2, by rw [← ht]⟩
    · simp only [ht, if_false, Nat.lt_irrefl, Option.some.injEq, false_iff, not_exists]
      intro n hn
      exact ht (by rw [hn])

theorem writer_eq_none_iff (h : l.Tidy) : l.writer = none ↔ ∀ t, l.owns t = 0 := by
  constructor
  · intro hw t
    simp [owns, hw]
  · intro hall
    cases hw : l.writer with
    | none => rfl
    | some w =>
      have := (owns_pos_iff h).2 ⟨w.2, hw⟩
      rw [hall] at this
      exact absurd this (Nat.lt_irrefl 0)

/-- Only one thread has the lock for itself. -/
theorem eq_of_owns_pos (h : l.Tidy) (ht : 0 < l.owns t) (hu : 0 < l.owns u) : u = t := by
  obtain ⟨n, hn⟩ := (owns_pos_iff h).1 ht
  obtain ⟨m, hm⟩ := (owns_pos_iff h).1 hu
  rw [hn] at hm
  cases hm
  rfl

/-- The exclusive side is given to its owner, and otherwise only to a thread that shares the lock
with no other. -/
theorem canOwn_iff (h : l.Tidy) : l.canOwn t = true ↔
    0 < l.owns t ∨ ((∀ u, l.owns u = 0) ∧ ∀ u, 0 < l.shares u → u = t) := by
  rw [owns_pos_iff h, ← writer_eq_none_iff h]
  unfold canOwn
  cases hw : l.writer with
  | some w => simp [Prod.ext_iff, eq_comm]
  | none =>
    simp only [List.all_eq_true, decide_eq_true_eq, reduceCtorEq, exists_false, true_and, false_or]
    constructor
    · intro hall u hu
      obtain ⟨r, hr, he⟩ := List.lookup_isSome_iff.1 ((lookup_isSome_iff h).2 hu)
      rw [eq_of_beq he]
      exact hall r hr
    · intro hall r hr
      exact hall r.1 (shares_pos_of_mem h hr)

theorem canShare_iff (h : l.Tidy) {ticket : Nat} : l.canShare t ticket = true ↔
    0 < l.owns t ∨ ((∀ u, l.owns u = 0) ∧
      (0 < l.shares t ∨ l.waitingWriters = 0 ∨ ticket < l.releases)) := by
  rw [owns_pos_iff h, ← writer_eq_none_iff h]
  unfold canShare
  cases hw : l.writer with
  | some w => simp [Prod.ext_iff, eq_comm]
  | none => simp [lookup_isSome_iff h, or_assoc]

theorem owns_own (h : l.Tidy) (hcan : l.canOwn t = true) (u : θ) :
    (l.own t).owns u = l.owns u + if u = t then 1 else 0 := by
  have hafter : (l.own t).owns u = if t = u then (l.writer.map (·.2)).getD 0 + 1 else 0 := rfl
  rw [hafter]
  rcases (canOwn_iff h).1 hcan with hown | ⟨hnone, -⟩
  · obtain ⟨n, hn⟩ := (owns_pos_iff h).1 hown
    by_cases hu : u = t
    · simp [owns, hn, hu]
    · have hut : t ≠ u := fun he => hu he.symm
      simp [owns, hn, hu, hut]
  · have hw := (writer_eq_none_iff h).2 hnone
    by_cases hu : u = t
    · simp [owns, hw, hu]
    · have hut : t ≠ u := fun he => hu he.symm
      simp [owns, hw, hu, hut]

/-- An exclusive hold that is given back is one less for the owner, who is none any more after the last;
no other thread has one to give back. -/
theorem disown_cases (l : Lock θ) (t : θ) :
    (l.owns t = 0 ∧ l.disown t = l) ∨
    (∃ n, l.writer = some (t, n) ∧ 1 < n ∧ l.disown t = { l with writer := some (t, n - 1) }) ∨
    ∃ n, l.writer = some (t, n) ∧ n ≤ 1 ∧
      l.disown t = { l with writer := none, releases := l.releases + 1 } := by
  cases hw : l.writer with
  | none => exact .inl ⟨by rw [owns, hw], by rw [disown, hw]⟩
  | some w =>
    obtain ⟨owner, n⟩ := w
    by_cases ho : owner = t
    · by_cases hn : 1 < n
      · exact .inr (.inl ⟨n, by rw [ho], hn, by simp [disown, hw, ho, hn]⟩)
      · exact .inr (.inr ⟨n, by rw [ho], Nat.le_of_not_lt hn, by simp [disown, hw, ho, hn]⟩)
    · exact .inl ⟨by simp [owns, hw, ho], by simp [disown, hw, ho]⟩

theorem owns_disown (l : Lock θ) (t u : θ) :
    (l.disown t).owns u = l.owns u - if u = t then 1 else 0 := by
  rcases disown_cases l t with ⟨hnone, hdisown⟩ | ⟨n, hw, hn, hdisown⟩ | ⟨n, hw, hn, hdisown⟩
  · by_cases hu : u = t <;> simp [hdisown, hu, hnone]
  · rw [hdisown]
    by_cases hu : t = u <;> simp [owns, hw, hu, eq_comm]
  · rw [hdisown]
    by_cases hu : t = u <;> simp [owns, hw, hu, hn]

theorem tidy_own (h : l.Tidy) (t : θ) : (l.own t).Tidy := by
  refine ⟨h.readers, ?_⟩
  intro w hw
  simp only [own, Option.some.injEq] at hw
  rw [← hw]
  exact Nat.succ_pos _

theorem tidy_disown (h : l.Tidy) (t : θ) : (l.disown t).Tidy := by
  rcases disown_cases l t with ⟨-, hdisown⟩ | ⟨n, -, hn, hdisown⟩ | ⟨n, -, -, hdisown⟩
  · rwa [hdisown]
  · rw [hdisown]
    refine ⟨h.readers, ?_⟩
    rintro w hw
    cases hw
    exact Nat.sub_pos_of_lt hn
  · rw [hdisown]
    exact ⟨h.readers, nofun⟩

theorem exclusive_share (h : l.Tidy) (he : l.Exclusive) {ticket : Nat}
    (hcan : l.canShare t ticket = true) : (l.share t).Exclusive := by
  intro a u ha hu
  change 0 < l.owns a at ha
  rw [shares_share] at hu
  by_cases hut : u = t
  · rcases (canShare_iff h).1 hcan with hown | ⟨hnone, -⟩
    · rw [hut]
      exact eq_of_owns_pos h ha hown
    · rw [hnone a] at ha
      exact absurd ha (Nat.lt_irrefl 0)
  · exact he a u ha (by simpa [hut] using hu)

theorem exclusive_own (h : l.Tidy) (he : l.Exclusive) (hcan : l.canOwn t = true) :
    (l.own t).Exclusive := by
  intro a u ha hu
  change 0 < l.shares u at hu
  rw [owns_own h hcan] at ha
  rcases (canOwn_iff h).1 hcan with hown | ⟨hnone, hsole⟩
  · have hat : a = t := by
      by_contra hne
      rw [if_neg hne] at ha
      exact hne (eq_of_owns_pos h hown ha)
    rw [hat]
    exact he t u hown hu
  · have hat : a = t := by
      by_contra hne
      rw [if_neg hne, hnone a] at ha
      exact absurd ha (Nat.lt_irrefl 0)
    rw [hat]
    exact hsole u hu

theorem exclusive_unshare (he : l.Exclusive) (t : θ) : (l.unshare t).Exclusive := by
  intro a u ha hu
  rw [shares_unshare] at hu
  exact he a u ha (by omega)

theorem shares_disown (l : Lock θ) (t u : θ) : (l.disown t).shares u = l.shares u := by
  rcases disown_cases l t with ⟨-, h⟩ | ⟨_, -, -, h⟩ | ⟨_, -, -, h⟩ <;> rw [h] <;> rfl

theorem waitingWriters_disown (l : Lock θ) (t : θ) :
    (l.disown t).waitingWriters = l.waitingWriters := by
  rcases disown_cases l t with ⟨-, h⟩ | ⟨_, -, -, h⟩ | ⟨_, -, -, h⟩ <;> rw [h]

theorem exclusive_disown (he : l.Exclusive) (t : θ) : (l.disown t).Exclusive := by
  intro a u ha hu
  rw [owns_disown] at ha
  rw [shares_disown] at hu
  exact he a u (by omega) hu

end ArtifactCache.Sync.Lock
