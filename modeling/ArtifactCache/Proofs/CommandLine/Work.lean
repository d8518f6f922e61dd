import ArtifactCache.CommandLine.Run
import ArtifactCache.Proofs.Provider

/-! Parts of a run, one after the other. What they print is added to what was printed before. -/
namespace ArtifactCache.CommandLine

variable {α β : Type} {p q : Progress} {home name : String} {o : Options} {x : Opened}

theorem bind_run (x : Work α) (f : α → Work β) (p : Progress) :
    (x >>= f).run.run p = match x.run.run p with
      | (.ok a, q) => (f a).run.run q
      | (.error e, q) => (.error e, q) := by
  change (do let (a, s) ← x.run.run p; (ExceptT.bindCont f a).run s : Id _) = _
  rcases x.run.run p with ⟨_ | a, q⟩
  · rfl
  · rfl

/-- What follows a part of a run that succeeds starts from what the run has come to. -/
theorem run_bind {x : Work α} {f : α → Work β} {a : α} (h : x.run.run p = (.ok a, q)) :
    (x >>= f).run.run p = (f a).run.run q := by
  rw [bind_run, h]

/-- A part of a run that fails ends it. -/
theorem run_bind_error {x : Work α} {f : α → Work β} {e : Failure}
    (h : x.run.run p = (.error e, q)) : (x >>= f).run.run p = (.error e, q) := by
  rw [bind_run, h]

theorem say_run (line : String) (p : Progress) :
    (say line).run.run p = (.ok (), { p with output := p.output ++ [line] }) := rfl

theorem note_run (entries : List Log.Entry) (p : Progress) :
    (note entries).run.run p = (.ok (), { p with log := p.log ++ entries }) := rfl

theorem forM_say_run (xs : List α) (f : α → String) (p : Progress) :
    (xs.forM fun x => say (f x)).run.run p =
      (.ok (), { p with output := p.output ++ xs.map f }) := by
  induction xs generalizing p with
  | nil =>
    rw [List.map_nil, List.append_nil]
    rfl
  | cons x xs ih =>
    change (say (f x) >>= fun _ => xs.forM fun x => say (f x)).run.run p = _
    rw [run_bind (say_run _ _), ih, List.append_assoc, List.map_cons, List.singleton_append]

/-- Parts of a run that only write things down, one after the other. -/
theorem mapM_run {xs : List α} {f : α → Work β} {g : α → β} {e : α → List Log.Entry}
    (h : ∀ x ∈ xs, ∀ log, (f x).run.run { p with log } =
      (.ok (g x), { p with log := log ++ e x })) (log : List Log.Entry) :
    (xs.mapM f).run.run { p with log } =
      (.ok (xs.map g), { p with log := log ++ xs.flatMap e }) := by
  induction xs generalizing log with
  | nil =>
    rw [List.mapM_nil, List.map_nil, List.flatMap_nil, List.append_nil]
    rfl
  | cons x xs ih =>
    have hrest := ih fun y hy => h y (List.mem_cons_of_mem _ hy)
    rw [List.mapM_cons, run_bind (h x List.mem_cons_self log), run_bind (hrest _),
      List.flatMap_cons, List.append_assoc]
    rfl

/-- A run that succeeds does so part by part. -/
theorem run_bind_eq_ok {x : Work α} {f : α → Work β} {b : β}
    (h : (x >>= f).run.run p = (.ok b, q)) :
    ∃ a p', x.run.run p = (.ok a, p') ∧ (f a).run.run p' = (.ok b, q) := by
  rcases hx : x.run.run p with ⟨_ | a, p'⟩
  · rw [run_bind_error hx] at h
    cases h
  · rw [run_bind hx] at h
    exact ⟨a, p', rfl, h⟩

theorem attempt_eq_ok {what : String} {r : Except Fault α} {a : α}
    (h : (attempt what r).run.run p = (.ok a, q)) : r = .ok a := by
  cases r with
  | error f => cases h
  | ok b =>
    cases h
    rfl

/-- The manager of a session that was opened keeps its records where the session says. -/
theorem trackingName_of_openSession {division : Division}
    (h : (openSession home o).run.run p = (.ok x, q))
    (hmode : x.session.manager.mode = .enhanced division name) :
    x.session.config.trackingName = .ok name := by
  rw [openSession] at h
  obtain ⟨_, _, -, h⟩ := run_bind_eq_ok h
  obtain ⟨r, _, -, h⟩ := run_bind_eq_ok h
  obtain ⟨c, _, -, h⟩ := run_bind_eq_ok h
  obtain ⟨_, _, -, h⟩ := run_bind_eq_ok h
  obtain ⟨⟨sessions, session⟩, _, hbegin, h⟩ := run_bind_eq_ok h
  obtain ⟨_, _, -, h⟩ := run_bind_eq_ok h
  cases h
  obtain ⟨s, hselect, heq⟩ := Result.bind_eq_ok.1 (attempt_eq_ok hbegin)
  cases heq
  exact Provider.trackingName_of_select hselect hmode

/-- A session is opened on a repository that is there if a manager of it can be made. -/
theorem openSession_run {path type level : String} {defines : List String} {c : Config}
    {r : LocalRepository} {s : Selected Manager}
    (hlocate : LocalRepository.locate p.disk path type = .ok r)
    (hassign : Config.empty.assignAll defines = .ok c) (hselect : Provider.select c r = .ok s) :
    ∃ x q, (openSession home ⟨some path, type, none, defines, level⟩).run.run p = (.ok x, q) ∧
      x.session.manager = s.value ∧ q.disk = p.disk ∧ q.output = p.output := by
  have hget : (get : Work Progress).run.run p = (.ok p, p) := rfl
  have hexpect : (expect (LocalRepository.locate p.disk path type)).run.run p = (.ok r, p) := by
    rw [hlocate]
    rfl
  have hload : (loadConfig ⟨some path, type, none, defines, level⟩).run.run p = (.ok c, p) := by
    change (expect (Config.empty.assignAll defines)).run.run p = _
    rw [hassign]
    rfl
  have hattempt : ∀ what q, (attempt what (Sessions.begin {} c r)).run.run q =
      (.ok (⟨2, [(1, [])]⟩, ⟨1, c, s.value, s.name⟩), q) := by
    intro what q
    rw [Sessions.begin, Sessions.beginWith, hselect]
    rfl
  refine ⟨?_, ?_, ?run, ?manager, ?disk, ?output⟩
  case run =>
    rw [openSession, run_bind hget]
    refine (run_bind hexpect).trans ?_
    rw [run_bind hload, run_bind (note_run _ _), run_bind (hattempt _ _), run_bind (note_run _ _)]
    rfl
  all_goals rfl

/-- A part of a run that is followed by one that prints nothing has printed all. -/
theorem output_bind {x : Work α} {f : α → Work β}
    (h : ∀ a q, ((f a).run.run q).2.output = q.output) :
    ((x >>= f).run.run p).2.output = (x.run.run p).2.output := by
  rcases hx : x.run.run p with ⟨_ | a, q⟩
  · rw [run_bind_error hx]
  · rw [run_bind hx]
    exact h a q

theorem expect_output (r : Except Fault α) (p : Progress) :
    ((expect r).run.run p).2.output = p.output := by
  cases r <;> rfl

theorem closeSession_output (x : Opened) (p : Progress) :
    ((closeSession x).run.run p).2.output = p.output := by
  rw [closeSession, output_bind, expect_output]
  rintro ⟨_, ran⟩ q
  rw [run_bind (note_run _ _)]
  exact expect_output _ _

/-- A part of a run whose failure is held back comes to what it comes to. -/
theorem caught_run (work : Work α) (p : Progress) :
    (tryCatch (work.map Except.ok) fun f => pure (Except.error f) :
      Work (Except Failure α)).run.run p = (.ok (work.run.run p).1, (work.run.run p).2) := by
  unfold ExceptT.run StateT.run
  simp only [tryCatch, tryCatchThe, MonadExceptOf.tryCatch, ExceptT.tryCatch, ExceptT.map,
    ExceptT.mk, bind, StateT.bind]
  rcases work p with ⟨_ | a, q⟩
  · rfl
  · rfl

/-- What is done while the lock is held prints what it prints without. -/
theorem holding_output (shared : Bool) (work : Work α) (p : Progress) : ∃ log,
    ((holding shared work).run.run p).2.output = (work.run.run { p with log }).2.output := by
  constructor
  case h =>
    rw [holding, run_bind (note_run _ _), run_bind (caught_run work _), run_bind (note_run _ _)]
    cases (work.run.run { p with log := _ }).1 with
    | ok a => rfl
    | error f => rfl

/-- What is done with the tracking files of a repository prints what it prints without a session and
without the lock. -/
theorem runTracking_output (shared : Bool) (work : String → String → Work Unit)
    (hopen : (openSession home o).run.run p = (.ok x, q))
    (hname : x.session.config.trackingName = .ok name) : ∃ log,
    ((runTracking home o shared work).run.run p).2.output =
      ((work x.session.manager.repository.base name).run.run { q with log }).2.output := by
  have hexpect : (expect x.session.config.trackingName).run.run q = (.ok name, q) := by
    rw [hname]
    rfl
  rw [runTracking, run_bind hopen, run_bind hexpect,
    output_bind fun _ _ => closeSession_output x _]
  exact holding_output _ _ _

end ArtifactCache.CommandLine
