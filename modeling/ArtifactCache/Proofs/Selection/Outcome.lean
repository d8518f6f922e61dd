import ArtifactCache.Proofs.Selection
import ArtifactCache.Proofs.Text

/-! What a selection comes to: which candidates are tried, and what is answered or reported. -/
namespace ArtifactCache.Ranking

open Numeral (Binary)

variable {α β : Type} {r : Ranking α} {make make' : α → Except Fault β} {context : String}
  {cs : List (Candidate α)} {failures : List (String × Fault)}

/-- What stands for a candidate in a list of all: its name and its priority, and that it is disabled
if it is. -/
def item (x : Candidate α) : String :=
  if x.enabled then x.name ++ " (" ++ Binary.display Numeral.single x.priority ++ ")"
  else x.name ++ " (" ++ Binary.display Numeral.single x.priority ++ ", disabled)"

/-- Whether a text lists all candidates in order, those that are disabled among them. -/
def ListedIn (r : Ranking α) (text : String) : Prop :=
  ∃ front back, text = front ++ ("[" ++ ", ".intercalate (r.candidates.map item) ++ "]") ++ back

theorem describe_eq_item (x : Candidate α) : x.describe = item x := by
  rw [Candidate.describe, item, priorityText]
  split
  · rfl
  · rfl

theorem describe_eq (r : Ranking α) :
    r.describe = "[" ++ ", ".intercalate (r.candidates.map item) ++ "]" := by
  rw [describe, Text.join_eq_intercalate, List.map_congr_left fun x _ => describe_eq_item x]

/-- What a selection comes to, given the candidates that were tried: the first one that can do the job
is selected, one that finds fault with the configuration ends the search, a single one that is rejected
leaves its own fault, and else the faults of all are reported. -/
inductive Concludes (r : Ranking α) (make : α → Except Fault β) :
    List (Candidate α) → Except Fault (Selected β) → Prop
  | selected {before after : List (Candidate α)} {x : Candidate α} {value : β}
    (henabled : r.enabled = before ++ x :: after) (hbefore : Rejected make before)
    (hx : make x.value = .ok value) :
    Concludes r make (before ++ [x]) (.ok ⟨value, x.name, x.priority⟩)
  | misconfigured {before after : List (Candidate α)} {x : Candidate α} {key : String}
    {problem : SettingProblem} (henabled : r.enabled = before ++ x :: after)
    (hbefore : Rejected make before) (hx : make x.value = .error (.config key problem)) :
    Concludes r make (before ++ [x]) (.error (.config key problem))
  | single {x : Candidate α} {fault : Fault} (henabled : r.enabled = [x])
    (hx : make x.value = .error fault) (hfault : fault.isConfig = false) :
    Concludes r make [x] (.error fault)
  | rejected {problem : SelectionProblem} {failures : List (String × Fault)}
    (hcount : r.enabled.length ≠ 1) (hrejected : Rejected make r.enabled)
    (hfailures : List.Forall₂ (fun x failure => failure.1 = x.name ∧
      make x.value = .error failure.2) r.enabled failures)
    (hlisted : r.ListedIn problem.message) :
    Concludes r make r.enabled (.error (.noMatchingComponent r.job problem failures))

theorem map_candidate (make : α → Except Fault β) (cs : List (Candidate α)) :
    (cs.map fun x => (⟨x, make x.value⟩ : Attempt α β)).map (·.candidate) = cs := by
  rw [List.map_map]
  exact List.map_id cs

theorem isConfig_iff {fault : Fault} :
    fault.isConfig = true ↔ ∃ key problem, fault = .config key problem := by
  cases fault <;> simp [Fault.isConfig]

theorem concludes_of_decides {before after : List (Candidate α)} {x : Candidate α}
    (henabled : r.enabled = before ++ x :: after) (hbefore : Rejected make before)
    (hx : Decides make x) : Concludes r make (before ++ [x]) (r.select context make) := by
  rw [select_of_decides henabled hbefore hx]
  cases hmake : make x.value with
  | ok value => exact .selected henabled hbefore hmake
  | error fault =>
    obtain ⟨key, problem, rfl⟩ := isConfig_iff.1 (hx fault hmake)
    exact .misconfigured henabled hbefore hmake

theorem listedIn_append (r : Ranking α) (front : String) : r.ListedIn (front ++ r.describe) :=
  ⟨front, "", by rw [describe_eq, String.append_empty]⟩

theorem concludes_of_rejected (h : Rejected make r.enabled) :
    Concludes r make r.enabled (r.select context make) := by
  rw [select_eq_rejection h]
  have hfailures := failures_of_rejected h
  generalize (r.enabled.map fun x => (⟨x, make x.value⟩ : Attempt α β)).filterMap
    Attempt.failure? = failures at hfailures
  have hlength := hfailures.length_eq
  match failures with
  | [] =>
    exact .rejected (by simp [hlength]) h hfailures (listedIn_append r _)
  | [(name, fault)] =>
    obtain ⟨x, hx⟩ := List.length_eq_one_iff.1 hlength
    rw [hx] at hfailures h ⊢
    obtain ⟨f, hf, hconfig⟩ := h x List.mem_cons_self
    cases hfailures with
    | cons hfailure =>
      cases hf.symm.trans hfailure.2
      exact .single hx hf hconfig
  | _ :: _ :: _ =>
    exact .rejected (by simp [hlength]) h hfailures (listedIn_append r _)

/-- Candidates behind those that are tried do not matter. -/
theorem attemptsOn_congr
    (h : ∀ a ∈ attemptsOn make cs, make' a.candidate.value = make a.candidate.value) :
    attemptsOn make' cs = attemptsOn make cs := by
  induction cs with
  | nil => rfl
  | cons x cs ih =>
    have hmem : ⟨x, make x.value⟩ ∈ attemptsOn make (x :: cs) := by
      rw [attemptsOn]
      split <;> exact List.mem_cons_self
    have hx : make' x.value = make x.value := h _ hmem
    rw [attemptsOn, attemptsOn, hx]
    split
    · rfl
    · rename_i hnot
      rw [attemptsOn, if_neg hnot] at h
      rw [ih fun a ha => h a (List.mem_cons_of_mem _ ha)]

/-- A selection tries the enabled candidates in order up to the first that decides, and comes to what
those make of it. What it would get from the others does not matter. -/
theorem select_concludes (r : Ranking α) (context : String) (make : α → Except Fault β) :
    Concludes r make ((r.attempts make).map (·.candidate)) (r.select context make) ∧
    ∀ make' : α → Except Fault β,
      (∀ x ∈ (r.attempts make).map (·.candidate), make' x.value = make x.value) →
      (r.attempts make').map (·.candidate) = (r.attempts make).map (·.candidate) ∧
        r.select context make' = r.select context make := by
  constructor
  · rcases decides_or_rejected make r.enabled with
      ⟨before, x, after, henabled, hbefore, hx⟩ | hrejected
    · rw [attempts_of_decides henabled hbefore hx, List.map_append, map_candidate]
      exact concludes_of_decides henabled hbefore hx
    · rw [attempts_of_rejected hrejected, map_candidate]
      exact concludes_of_rejected hrejected
  · intro make' h
    have hattempts : r.attempts make' = r.attempts make :=
      attemptsOn_congr fun a ha => h _ (List.mem_map_of_mem ha)
    exact ⟨by rw [hattempts], by rw [select, select, hattempts]⟩

/-- Two candidates are rejected, one of them for a selection of its own that failed, and one is not
tried since it is disabled. The report names all three. -/
theorem select_concludes_nested :
    let nested : Fault := .noMatchingComponent "inner" (.stated "none") []
    let refused : Fault := .session (.inactive 7)
    let number := Numeral.Binary.ofNat Numeral.single
    let r : Ranking Nat := ⟨"job", [⟨"a", number 3, true, 0⟩, ⟨"off", number 2, false, 1⟩,
      ⟨"b", number 1, true, 2⟩]⟩
    let make : Nat → Except Fault String := fun n => .error (if n = 0 then nested else refused)
    let make' : Nat → Except Fault String := fun n => if n = 1 then .ok "off" else make n
    let problem : SelectionProblem :=
      .allRejected "job" "tests" "[a (3), off (2, disabled), b (1)]"
    (∀ x ∈ (r.attempts make).map (·.candidate), make' x.value = make x.value) ∧
      Concludes r make ((r.attempts make).map (·.candidate)) (r.select "tests" make) ∧
      (r.attempts make).map (·.candidate.name) = ["a", "b"] ∧
      r.select "tests" make' = r.select "tests" make ∧
      r.select "tests" make =
        .error (.noMatchingComponent "job" problem [("a", nested), ("b", refused)]) ∧
      problem.message = "Cannot select a job for tests using the available candidates " ++
        "[a (3), off (2, disabled), b (1)]" ∧
      r.ListedIn problem.message := by
  intro nested refused number r make make' problem
  have htried : (r.attempts make).map (·.candidate.value) = [0, 2] := rfl
  have hsame : ∀ x ∈ (r.attempts make).map (·.candidate), make' x.value = make x.value := by
    intro x hx
    have hvalue : x.value ∈ (r.attempts make).map (·.candidate.value) := by
      obtain ⟨a, ha, rfl⟩ := List.mem_map.1 hx
      exact List.mem_map_of_mem ha
    have hne : x.value ≠ 1 := by
      intro hone
      rw [htried, hone] at hvalue
      revert hvalue
      decide
    exact if_neg hne
  obtain ⟨hconcludes, hothers⟩ := select_concludes r "tests" make
  have hlist : r.describe = "[a (3), off (2, disabled), b (1)]" := by decide
  have hselect : r.select "tests" make =
      .error (.noMatchingComponent "job" problem [("a", nested), ("b", refused)]) := by
    change Except.error (Fault.noMatchingComponent "job"
      (.allRejected "job" "tests" r.describe) [("a", nested), ("b", refused)]) = _
    rw [hlist]
  have hmessage : problem.message = "Cannot select a job for tests using the available candidates " ++
      r.describe := by
    rw [hlist]
    decide
  have hlisted : r.ListedIn problem.message := by
    rw [hmessage]
    exact listedIn_append r _
  rw [hlist] at hmessage
  exact ⟨hsame, hconcludes, rfl, (hothers make' hsame).2, hselect, hmessage, hlisted⟩

end ArtifactCache.Ranking
