import ArtifactCache.Proofs.Sync.Run

/-! After a call the waiting calls go on one by one, until none of them can: that takes no more
turns than there are contexts, and ends in a state of the run. -/
namespace ArtifactCache.Sync.Group

variable {θ : Type} [DecidableEq θ] {s : Group θ} {t : θ} {name : String}

/-- How many calls wait. -/
def waits (s : Group θ) : Nat := s.contexts.count fun c => c.phase.ticket?.isSome

omit [DecidableEq θ] in
theorem waits_le_size (s : Group θ) : s.waits ≤ s.contexts.size :=
  KeyMap.count_le_size _ s.contexts

theorem ticket?_isSome_of_canProceed {c : Context θ} (h : s.canProceed c = true) :
    c.phase.ticket?.isSome = true := by
  obtain ⟨shared, phase⟩ := c
  cases phase with
  | waiting => rfl
  | _ => simp [canProceed] at h

theorem ready?_eq_some (h : s.ready? = some name) :
    ∃ c, s.contexts.get? name = some c ∧ s.canProceed c = true := by
  unfold ready? at h
  obtain ⟨e, he, rfl⟩ := Option.map_eq_some_iff.1 h
  exact ⟨e.2, (KeyMap.mem_entries_iff _).1 (List.mem_of_find?_eq_some he), by
    simpa using List.find?_some he⟩

theorem quiescent_of_ready?_eq_none (h : s.ready? = none) : s.Quiescent := by
  intro name c hc
  unfold ready? at h
  rw [Option.map_eq_none_iff, List.find?_eq_none] at h
  simpa using h (name, c) ((KeyMap.mem_entries_iff _).2 hc)

theorem quiescent_of_waits_eq_zero (h : s.waits = 0) : s.Quiescent := by
  intro name c hc
  by_contra hp
  have hpos := (KeyMap.count_pos_iff (fun c : Context θ => c.phase.ticket?.isSome) s.contexts).2
    ⟨name, c, hc, ticket?_isSome_of_canProceed (by simpa using hp)⟩
  exact absurd h (Nat.pos_iff_ne_zero.1 hpos)

/-- A call that goes on waits no longer. -/
theorem waits_grant (h : s.ready? = some name) : (s.grant name).waits + 1 = s.waits := by
  obtain ⟨⟨shared, phase⟩, hc, hp⟩ := ready?_eq_some h
  cases phase with
  | waiting t ticket =>
    have hcount := KeyMap.count_insert (fun c : Context θ => c.phase.ticket?.isSome) s.contexts name
      ⟨shared, .held t 1⟩
    rw [hc] at hcount
    simp only [grant, hc, hp, if_true]
    exact hcount
  | _ => simp [canProceed] at hp

theorem settle_quiescent {n : Nat} (h : s.waits ≤ n) : (s.settle n).1.Quiescent := by
  induction n generalizing s with
  | zero => exact quiescent_of_waits_eq_zero (Nat.le_zero.1 h)
  | succ n ih =>
    unfold settle
    cases hr : s.ready? with
    | none => exact quiescent_of_ready?_eq_none hr
    | some name =>
      apply ih
      have := waits_grant hr
      omega

theorem settle_reachable (h : s.Reachable) (n : Nat) : (s.settle n).1.Reachable := by
  induction n generalizing s with
  | zero => exact h
  | succ n ih =>
    unfold settle
    cases s.ready? with
    | none => exact h
    | some name => exact ih (h.step (.grant s name))

/-- A call and all that can go on after it lead from states of a run to states of it in which
nothing more happens by itself. -/
theorem step_reachable_quiescent (h : s.Reachable) (hfree : s.isWaiting name = false)
    (hready : ¬ s.Blocked t) (action : Action) :
    (s.step t name action).1.Reachable ∧ (s.step t name action).1.Quiescent :=
  ⟨settle_reachable (h.step (.call action hfree hready)) _, settle_quiescent (waits_le_size _)⟩

end ArtifactCache.Sync.Group
