import Mathlib.Data.List.Range
import ArtifactCache.Proofs.Session.History

/-! The life of a session over whole runs: its number is new, what it accepted runs when it ends and at no
other time, and nothing that is asked of another session concerns it. -/
namespace ArtifactCache.Sessions

variable {h : List Event} {e : Event} {id : Nat} {session : Session} {ran : List Handler} {f : Fault}

theorem handlers?_after (h : List Event) (id : Nat) :
    (after h).handlers? id = if id ∈ live h then some (accepted h id) else none := by
  rw [handlers?, after]
  split
  next hlive => exact List.lookup_graph _ (List.mem_reverse.2 hlive)
  next hlive =>
    rw [List.lookup_eq_none_iff]
    simp only [List.mem_map, List.mem_reverse]
    rintro _ ⟨id', hid', rfl⟩
    have hne : id ≠ id' := fun he => hlive (he ▸ hid')
    simpa using hne

theorem isActive_after : (after h).isActive id = true ↔ id ∈ live h := by
  rw [isActive, handlers?_after]
  split <;> simp [*]

/-- What the history of every run keeps. -/
structure Orderly (h : List Event) : Prop where
  numbered : begun h = List.range' 1 (begun h).length
  ended_begun : ∀ id ∈ ended h, id ∈ begun h
  accepted_begun : ∀ id, id ∉ begun h → accepted h id = []
  ran : ∀ id, ranOf h id = if id ∈ ended h then (accepted h id).reverse else []

theorem Orderly.nil : Orderly [] where
  numbered := rfl
  ended_begun := nofun
  accepted_begun _ _ := rfl
  ran _ := rfl

theorem Orderly.increasing (ho : Orderly h) : (begun h).Pairwise (· < ·) := by
  rw [ho.numbered]
  exact List.pairwise_lt_range'

theorem Orderly.lt_next (ho : Orderly h) (hid : id ∈ begun h) : id < (begun h).length + 1 := by
  rw [ho.numbered, List.mem_range'_1] at hid
  omega

theorem Orderly.next_not_begun (ho : Orderly h) : (begun h).length + 1 ∉ begun h :=
  fun hmem => Nat.lt_irrefl _ (ho.lt_next hmem)

theorem Orderly.refused (ho : Orderly h) (f : Fault) : Orderly (h ++ [.refused f]) where
  numbered := by simpa using ho.numbered
  ended_begun := by simpa using ho.ended_begun
  accepted_begun := by simpa using ho.accepted_begun
  ran := by simpa using ho.ran

theorem Orderly.begun (ho : Orderly h) (hid : session.id = (begun h).length + 1) :
    Orderly (h ++ [.begun session]) where
  numbered := by
    simp only [begun_snoc, Event.begun?, Option.toList_some, List.length_append,
      List.length_singleton, hid]
    rw [List.range'_1_concat, ← ho.numbered, Nat.add_comm 1]
  ended_begun id hmem := by
    have hended : id ∈ ended h := by simpa using hmem
    simp [ho.ended_begun id hended]
  accepted_begun id hmem := by
    have hbegun : id ∉ Sessions.begun h := fun hin => hmem (by simp [hin])
    simp [ho.accepted_begun id hbegun]
  ran := by simpa using ho.ran

theorem Orderly.registered (ho : Orderly h) (hlive : id ∈ live h) (x : Handler) :
    Orderly (h ++ [.registered id x]) where
  numbered := by simpa using ho.numbered
  ended_begun := by simpa using ho.ended_begun
  accepted_begun id' hmem := by
    have hbegun : id' ∉ Sessions.begun h := by simpa using hmem
    have hne : id ≠ id' := fun he => hbegun (he ▸ (mem_live.1 hlive).1)
    simp [hne, ho.accepted_begun id' hbegun]
  ran id' := by
    by_cases hid : id = id'
    · subst hid
      simp [ho.ran, (mem_live.1 hlive).2]
    · simp [hid, ho.ran]

theorem Orderly.ended (ho : Orderly h) (hlive : id ∈ live h) (result : Except Fault Unit) :
    Orderly (h ++ [.ended id (accepted h id).reverse result]) where
  numbered := by simpa using ho.numbered
  ended_begun id' hmem := by
    have hended : id' ∈ Sessions.ended h ∨ id' = id := by simpa using hmem
    rcases hended with hended | rfl
    · simpa using ho.ended_begun id' hended
    · simpa using (mem_live.1 hlive).1
  accepted_begun := by simpa using ho.accepted_begun
  ran id' := by
    by_cases hid : id = id'
    · subst hid
      simp [ho.ran, (mem_live.1 hlive).2]
    · have hne : id' ≠ id := fun he => hid he.symm
      simp [hid, hne, ho.ran]

theorem after_refused : after (h ++ [.refused f]) = after h := by
  simp [after, live]

theorem after_begun (ho : Orderly h) (hid : session.id = (begun h).length + 1) :
    after (h ++ [.begun session]) =
      { nextId := (begun h).length + 2, active := (session.id, []) :: (after h).active } := by
  have hbegun : session.id ∉ begun h := hid ▸ ho.next_not_begun
  have hended : session.id ∉ ended h := fun hmem => hbegun (ho.ended_begun _ hmem)
  have hlive : live (h ++ [.begun session]) = live h ++ [session.id] := by
    simp [live, hended]
  simp [after, hlive, ho.accepted_begun _ hbegun]

theorem register_after (hlive : id ∈ live h) (x : Handler) :
    (after h).register id x = .ok (after (h ++ [.registered id x])) := by
  have hsame : live (h ++ [.registered id x]) = live h := by simp [live]
  rw [register, if_pos (isActive_after.2 hlive)]
  simp only [after, hsame, List.map_map, begun_snoc, Event.begun?, Option.toList_none,
    List.append_nil]
  congr 2
  refine List.map_congr_left fun id' _ => ?_
  by_cases hid : id' = id
  · simp [hid]
  · simp [hid, Ne.symm hid]

theorem finish_after (hlive : id ∈ live h) (result : Except Fault Unit) :
    (after h).finish id =
      .ok (after (h ++ [.ended id (accepted h id).reverse result]), (accepted h id).reverse) := by
  have hleft : live (h ++ [.ended id (accepted h id).reverse result]) =
      (live h).filter fun id' => id' ≠ id := by
    simp only [live, List.filter_filter, begun_snoc, Event.begun?, Option.toList_none,
      List.append_nil]
    refine List.filter_congr fun id' _ => ?_
    simp [and_comm]
  rw [finish, handlers?_after, if_pos hlive]
  simp [after, hleft, List.filter_map, List.filter_reverse, Function.comp_def]

theorem report_eq_ok : report id ran = .ok () ↔ ∀ x ∈ ran, x.fault = none := by
  rw [report, ← List.filterMap_eq_nil_iff]
  split
  next hnil => exact iff_of_true rfl hnil
  next hne => exact iff_of_false nofun hne

theorem report_of_ne_ok (hr : report id ran ≠ .ok ()) :
    report id ran = .error (.sessionEnd id (ran.filterMap Handler.fault)) := by
  rw [report] at hr ⊢
  split at hr
  next hnil => exact absurd rfl hr
  next => rfl

/-- What is to come of a call after a history. -/
def Answers (h : List Event) : Call → Event → Prop
  | .begin provider c r, e =>
    match provider c r with
    | .ok selected => ∃ id, (∀ earlier ∈ begun h, earlier < id) ∧
        e = .begun ⟨id, c, selected.value, selected.name⟩
    | .error f => e = .refused f
  | .register id x, e =>
    if id ∈ live h then e = .registered id x else e = .refused (.session (.inactive id))
  | .finish id, e =>
    if id ∈ live h then ∃ result, e = .ended id (accepted h id).reverse result ∧
      (result = .ok () ↔ ∀ x ∈ accepted h id, x.fault = none) ∧
      (result ≠ .ok () →
        result = .error (.sessionEnd id ((accepted h id).reverse.filterMap Handler.fault)))
    else e = .refused (.session (.inactive id))

/-- A call takes the sessions after a history to those after one event more. -/
structure Follows (h : List Event) (call : Call) (e : Event) : Prop where
  step_eq : (after h).step call = (after (h ++ [e]), e)
  orderly : Orderly (h ++ [e])
  answers : Answers h call e

theorem follows_begin (ho : Orderly h)
    (provider : Config → LocalRepository → Except Fault (Selected Manager)) (c : Config)
    (r : LocalRepository) : ∃ e, Follows h (.begin provider c r) e := by
  cases hp : provider c r with
  | error f =>
    exact ⟨.refused f, by simp [step, beginWith, hp, bind, Except.bind, after_refused],
      ho.refused f, by simp [Answers, hp]⟩
  | ok selected =>
    refine ⟨.begun ⟨(begun h).length + 1, c, selected.value, selected.name⟩, ?_, ho.begun rfl, ?_⟩
    · rw [after_begun ho rfl]
      simp [step, beginWith, hp, bind, Except.bind, pure, Except.pure, after]
    · simp only [Answers, hp]
      exact ⟨_, fun earlier hmem => ho.lt_next hmem, rfl⟩

theorem follows_register (ho : Orderly h) (id : Nat) (x : Handler) :
    ∃ e, Follows h (.register id x) e := by
  by_cases hlive : id ∈ live h
  · exact ⟨.registered id x, by simp [step, register_after hlive], ho.registered hlive x,
      by simp [Answers, hlive]⟩
  · have hinactive : (after h).isActive id = false := by simpa using mt isActive_after.1 hlive
    exact ⟨.refused (.session (.inactive id)), by simp [step, register, hinactive, after_refused],
      ho.refused _, by simp [Answers, hlive]⟩

theorem follows_finish (ho : Orderly h) (id : Nat) : ∃ e, Follows h (.finish id) e := by
  by_cases hlive : id ∈ live h
  · let ran := (accepted h id).reverse
    refine ⟨.ended id ran (report id ran), ?_, ho.ended hlive _, ?_⟩
    · simp only [step, finish_after hlive (report id ran), ran]
    · simp only [Answers, hlive, if_true]
      exact ⟨_, rfl, by simp [report_eq_ok, ran], report_of_ne_ok⟩
  · exact ⟨.refused (.session (.inactive id)),
      by simp [step, finish, handlers?_after, hlive, after_refused], ho.refused _,
      by simp [Answers, hlive]⟩

theorem follows_call (ho : Orderly h) (call : Call) : ∃ e, Follows h call e := by
  cases call with
  | begin provider c r => exact follows_begin ho provider c r
  | register id x => exact follows_register ho id x
  | finish id => exact follows_finish ho id

theorem run_after (ho : Orderly h) (calls : List Call) :
    ∃ es, (after h).run calls = (after (h ++ es), es) ∧ Orderly (h ++ es) := by
  induction calls generalizing h with
  | nil => exact ⟨[], by simp [run], by simpa using ho⟩
  | cons call calls ih =>
    obtain ⟨e, he⟩ := follows_call ho call
    obtain ⟨es, hrun, hes⟩ := ih he.orderly
    refine ⟨e :: es, ?_, by simpa using hes⟩
    simp only [run, he.step_eq, hrun, List.append_assoc, List.singleton_append]

/-- The sessions after a run are those that its history leaves. -/
theorem run_eq (calls : List Call) :
    ∃ h, run {} calls = (after h, h) ∧ Orderly h := by
  obtain ⟨h, hrun, ho⟩ := run_after .nil calls
  exact ⟨h, hrun, ho⟩

theorem handlers?_others (he : e.session? ≠ some id) :
    (after (h ++ [e])).handlers? id = (after h).handlers? id := by
  simp only [handlers?_after, mem_live, begun_snoc, ended_snoc, accepted_snoc]
  cases e with
  | begun session =>
    have hne : id ≠ session.id := fun hid => he (by simp [hid])
    simp [hne]
  | registered id' x =>
    have hne : id' ≠ id := fun hid => he (by simp [hid])
    simp [hne]
  | ended id' ran result =>
    have hne : id ≠ id' := fun hid => he (by simp [hid])
    simp [hne]
  | refused f => simp

/-- What a call after a run answers and leaves, and what has run by then. -/
structure Lifecycle (s : Sessions) (h : List Event) (call : Call) (s' : Sessions) (e : Event) :
    Prop where
  increasing : (begun (h ++ [e])).Pairwise (· < ·)
  answers : Answers h call e
  refused : ∀ f, e = .refused f → s' = s
  handlers : ∀ id, s'.handlers? id =
    if id ∈ live (h ++ [e]) then some (accepted (h ++ [e]) id) else none
  others : ∀ id, e.session? ≠ some id →
    s'.isActive id = s.isActive id ∧ s'.handlers? id = s.handlers? id
  ran : ∀ id, ranOf (h ++ [e]) id =
    if id ∈ ended (h ++ [e]) then (accepted (h ++ [e]) id).reverse else []

/-- Every call of every run: numbers of sessions increase, a call is answered by what came before it and
concerns its own session only, a call that is refused changes nothing, and what ran of a session is what
it accepted, newest first, if it ended, and nothing before. -/
theorem run_lifecycle (calls : List Call) (call : Call) :
    let (s, h) := run {} calls
    let (s', e) := s.step call
    Lifecycle s h call s' e := by
  obtain ⟨h, hrun, ho⟩ := run_eq calls
  obtain ⟨e, he⟩ := follows_call ho call
  simp only [hrun, he.step_eq]
  refine ⟨he.orderly.increasing, he.answers, ?_, handlers?_after _, ?_, he.orderly.ran⟩
  · rintro f rfl
    exact after_refused
  · intro id hid
    have hsame := handlers?_others (h := h) hid
    exact ⟨by rw [isActive, hsame, isActive], hsame⟩

/-- The second of three handlers fails; the other session and the failed opening do not matter to them. -/
example (c : Config) (r : LocalRepository) (m : Selected Manager) (f f' : Fault) :
    let h := (run {} [.begin (fun _ _ => .ok m) c r, .register 1 ⟨"a", none⟩,
      .begin (fun _ _ => .error f) c r, .begin (fun _ _ => .ok m) c r, .register 2 ⟨"x", none⟩,
      .register 1 ⟨"b", some f'⟩, .register 1 ⟨"c", none⟩, .finish 1, .register 1 ⟨"d", none⟩]).2
    begun h = [1, 2] ∧ ranOf h 1 = [⟨"c", none⟩, ⟨"b", some f'⟩, ⟨"a", none⟩] ∧ ranOf h 2 = [] :=
  ⟨rfl, rfl, rfl⟩

end ArtifactCache.Sessions
