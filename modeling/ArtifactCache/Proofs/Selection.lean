import ArtifactCache.Proofs.Result
import ArtifactCache.Selection
import Mathlib.Data.List.Basic
import Mathlib.Data.List.Forall2
import Mathlib.Data.List.Induction

/-! Selection. Candidates are tried in order, those that were rejected before the one that decides what
comes of it. -/
namespace ArtifactCache

variable {α β : Type} {r : Ranking α} {make : α → Except Fault β} {context job : String}
  {before after cs : List (Candidate α)} {x y : Candidate α} {xs ys : List (Candidate α)}
  {c : Config} {registry : Registry α} {component : Component α} {order : List String}

namespace Ranking

/-- Whether none of the candidates can do the job, and none finds fault with the configuration. -/
def Rejected (make : α → Except Fault β) (cs : List (Candidate α)) : Prop :=
  ∀ x ∈ cs, ∃ f, make x.value = .error f ∧ f.isConfig = false

/-- Whether no further candidate is tried after this one. -/
def Decides (make : α → Except Fault β) (x : Candidate α) : Prop :=
  ∀ f, make x.value = .error f → f.isConfig = true

theorem isDecisive_iff : Attempt.isDecisive ⟨x, make x.value⟩ = true ↔ Decides make x := by
  rw [Attempt.isDecisive, Decides]
  cases make x.value with
  | ok value => simp
  | error f => simp

theorem not_decides_iff :
    ¬ Decides make x ↔ ∃ f, make x.value = .error f ∧ f.isConfig = false := by
  simp [Decides]

/-- Some candidate decides, or all are rejected. -/
theorem decides_or_rejected (make : α → Except Fault β) (cs : List (Candidate α)) :
    (∃ before x after, cs = before ++ x :: after ∧ Rejected make before ∧ Decides make x) ∨
      Rejected make cs := by
  induction cs with
  | nil => exact .inr nofun
  | cons x cs ih =>
    by_cases hx : Decides make x
    · exact .inl ⟨[], x, cs, rfl, nofun, hx⟩
    · have hrejected := not_decides_iff.1 hx
      rcases ih with ⟨before, y, after, rfl, hbefore, hy⟩ | hcs
      · exact .inl ⟨x :: before, y, after, rfl, List.forall_mem_cons.2 ⟨hrejected, hbefore⟩, hy⟩
      · exact .inr (List.forall_mem_cons.2 ⟨hrejected, hcs⟩)

theorem attemptsOn_append (h : Rejected make before) (cs : List (Candidate α)) :
    attemptsOn make (before ++ cs) =
      before.map (fun x => ⟨x, make x.value⟩) ++ attemptsOn make cs := by
  induction before with
  | nil => rfl
  | cons x before ih =>
    obtain ⟨hx, hbefore⟩ := List.forall_mem_cons.1 h
    have hnot : ¬ Attempt.isDecisive ⟨x, make x.value⟩ = true := by
      rw [isDecisive_iff]
      exact not_decides_iff.2 hx
    rw [List.cons_append, attemptsOn, if_neg hnot, ih hbefore]
    rfl

theorem find?_rejected (h : Rejected make before) :
    (before.map fun x => (⟨x, make x.value⟩ : Attempt α β)).find? Attempt.isDecisive = none := by
  rw [List.find?_eq_none]
  intro a ha
  obtain ⟨x, hx, rfl⟩ := List.mem_map.1 ha
  rw [isDecisive_iff]
  exact not_decides_iff.2 (h x hx)

theorem attempts_of_decides (henabled : r.enabled = before ++ x :: after)
    (hbefore : Rejected make before) (hx : Decides make x) :
    r.attempts make = before.map (fun y => ⟨y, make y.value⟩) ++ [⟨x, make x.value⟩] := by
  rw [attempts, henabled, attemptsOn_append hbefore, attemptsOn, if_pos (isDecisive_iff.2 hx)]

/-- The first candidate that decides makes the selection. -/
theorem select_of_decides (henabled : r.enabled = before ++ x :: after)
    (hbefore : Rejected make before) (hx : Decides make x) :
    r.select context make = (make x.value).map fun value => ⟨value, x.name, x.priority⟩ := by
  have hfind : (r.attempts make).find? Attempt.isDecisive = some ⟨x, make x.value⟩ := by
    rw [attempts_of_decides henabled hbefore hx, List.find?_append, find?_rejected hbefore,
      List.find?_cons_of_pos (isDecisive_iff.2 hx)]
    rfl
  simp only [select, hfind]
  cases make x.value <;> rfl

theorem attempts_of_rejected (h : Rejected make r.enabled) :
    r.attempts make = r.enabled.map fun x => ⟨x, make x.value⟩ := by
  have := attemptsOn_append h []
  rwa [List.append_nil, attemptsOn, List.append_nil] at this

/-- Every candidate that was rejected is put down with its own fault. -/
theorem failures_of_rejected (h : Rejected make cs) :
    List.Forall₂ (fun x failure => failure.1 = x.name ∧ make x.value = .error failure.2) cs
      ((cs.map fun x => (⟨x, make x.value⟩ : Attempt α β)).filterMap Attempt.failure?) := by
  induction cs with
  | nil => exact .nil
  | cons x cs ih =>
    obtain ⟨⟨f, hf, -⟩, hcs⟩ := List.forall_mem_cons.1 h
    have hfailure : Attempt.failure? ⟨x, make x.value⟩ = some (x.name, f) := by
      rw [Attempt.failure?, hf]
    rw [List.map_cons, List.filterMap_cons_some hfailure]
    exact .cons ⟨rfl, hf⟩ (ih hcs)

theorem select_eq_rejection (h : Rejected make r.enabled) :
    r.select context make = .error (r.rejection context
      ((r.enabled.map fun x => (⟨x, make x.value⟩ : Attempt α β)).filterMap Attempt.failure?)) := by
  simp only [select, attempts_of_rejected h, find?_rejected h]

/-- A selection fails if all candidates are rejected, for no fault of the configuration. -/
theorem select_of_rejected (h : Rejected make r.enabled) :
    ∃ f, r.select context make = .error f ∧ f.isConfig = false := by
  refine ⟨_, select_eq_rejection h, ?_⟩
  have hfailures := failures_of_rejected h
  generalize (r.enabled.map fun x => (⟨x, make x.value⟩ : Attempt α β)).filterMap
    Attempt.failure? = failures at hfailures
  generalize r.enabled = cs at h hfailures
  cases hfailures with
  | nil => rfl
  | @cons x failure cs failures hx hrest =>
    cases hrest with
    | nil =>
      obtain ⟨f, hf, hconfig⟩ := h x List.mem_cons_self
      cases hf.symm.trans hx.2
      exact hconfig
    | cons => rfl

/-- What came of a selection: the first candidate that decides made it, or all were rejected. -/
theorem select_cases (r : Ranking α) (context : String) (make : α → Except Fault β) :
    (∃ before x after, r.enabled = before ++ x :: after ∧ Rejected make before ∧ Decides make x ∧
      r.select context make = (make x.value).map fun value => ⟨value, x.name, x.priority⟩) ∨
    Rejected make r.enabled ∧ ∃ f, r.select context make = .error f ∧ f.isConfig = false := by
  rcases decides_or_rejected make r.enabled with
    ⟨before, x, after, henabled, hbefore, hx⟩ | hrejected
  · exact .inl ⟨before, x, after, henabled, hbefore, hx, select_of_decides henabled hbefore hx⟩
  · exact .inr ⟨hrejected, select_of_rejected hrejected⟩

theorem place_perm (order : List String) (x : Candidate α) (ys : List (Candidate α)) :
    (place order x ys).Perm (x :: ys) := by
  induction ys with
  | nil => exact .refl _
  | cons y ys ih =>
    rw [place]
    split
    · exact (ih.cons y).trans (.swap x y ys)
    · exact .refl _

theorem arrange_concat (order : List String) (xs : List (Candidate α)) (x : Candidate α) :
    arrange order (xs ++ [x]) = (place order x (arrange order xs).reverse).reverse := by
  rw [arrange, arrange, List.foldl_append, List.reverse_reverse]
  rfl

/-- Candidates that are put into order stay the same. -/
theorem arrange_perm (order : List String) (xs : List (Candidate α)) :
    (arrange order xs).Perm xs := by
  induction xs using List.reverseRecOn with
  | nil => exact .nil
  | append_singleton xs x ih =>
    rw [arrange_concat]
    have hplaced := place_perm order x (arrange order xs).reverse
    have hbehind := ((List.reverse_perm _).trans ih).cons x
    have hlast := (List.perm_append_singleton x xs).symm
    exact (List.reverse_perm _).trans ((hplaced.trans hbehind).trans hlast)

theorem mem_reverse_arrange : x ∈ (arrange order xs).reverse ↔ x ∈ xs := by
  rw [List.mem_reverse, (arrange_perm order xs).mem_iff]

theorem candidate_ok (h : candidate c job component = .ok x) : x.name = component.name ∧
    x.value = component.value ∧ x.enabled = !(disabled c job).contains component.name := by
  obtain ⟨priority, -, hx⟩ := Result.bind_eq_ok.1 h
  cases hx
  exact ⟨rfl, rfl, rfl⟩

theorem mem_of_mapM {f : Component α → Except Fault (Candidate α)} {components : List (Component α)}
    (h : components.mapM f = .ok xs) : (∀ x ∈ xs, ∃ component ∈ components, f component = .ok x) ∧
      ∀ component ∈ components, ∃ x ∈ xs, f component = .ok x := by
  induction components generalizing xs with
  | nil =>
    cases h
    exact ⟨nofun, nofun⟩
  | cons component components ih =>
    rw [List.mapM_cons] at h
    obtain ⟨x, hx, h⟩ := Result.bind_eq_ok.1 h
    obtain ⟨ys, hys, h⟩ := Result.bind_eq_ok.1 h
    cases h
    obtain ⟨hfrom, hto⟩ := ih hys
    simp only [List.forall_mem_cons, List.exists_mem_cons_iff]
    exact ⟨⟨.inl hx, fun y hy => .inr (hfrom y hy)⟩, .inl hx, fun d hd => .inr (hto d hd)⟩

/-- The candidates for a job are the components that are registered for it. -/
theorem mem_candidates (h : ofRegistry registry c job = .ok r) :
    (∀ x ∈ r.candidates, ∃ component ∈ registry.components, candidate c job component = .ok x) ∧
      ∀ component ∈ registry.components, ∃ x ∈ r.candidates, candidate c job component = .ok x := by
  obtain ⟨xs, hxs, hr⟩ := Result.bind_eq_ok.1 h
  cases hr
  simp only [(arrange_perm _ xs).mem_iff]
  exact mem_of_mapM hxs

end Ranking
end ArtifactCache
