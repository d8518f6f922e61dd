import ArtifactCache.Proofs.Config
import ArtifactCache.Proofs.Numeral.Value
import ArtifactCache.Proofs.Registry
import ArtifactCache.Proofs.Selection
import Mathlib.Data.List.Nodup
import Mathlib.Data.Prod.Lex
import Mathlib.Order.OrderDual

/-! Ranking. Candidates are sorted by a key in which all that counts is put together: the place in the
order, the priority and the time of registration. -/
namespace ArtifactCache

open Numeral (Binary)
open Registry (IsLatest)

namespace Ranking

variable {α : Type} {c c' : Config} {job : String} {order order' names names' : List String}
  {x y z : Candidate α} {xs ys placed : List (Candidate α)} {d : Component α}
  {registry : Registry α} {r : Ranking α}

/-- The priority that a configuration gives to a name. -/
def given? (c : Config) (job name : String) : Option Binary :=
  (c.text? (priorityKey job name)).bind fun text => Binary.read? Numeral.single (Text.trim text)

/-- The priority of a component: the one that the configuration gives it, else its own. -/
def effective (c : Config) (job : String) (d : Component α) : Binary :=
  (given? c job d.name).getD d.priority

/-- The candidate for a component, where its priority can be understood. -/
def made (c : Config) (job : String) (d : Component α) : Candidate α :=
  ⟨d.name, effective c job d, !(disabled c job).contains d.name, d.value⟩

theorem given?_of_number? {p : Option Binary} (h : c.number? (priorityKey job d.name) = .ok p) :
    given? c job d.name = p := by
  rw [Config.number?] at h
  rw [given?]
  cases htext : c.text? (priorityKey job d.name) with
  | none =>
    rw [htext] at h
    cases h
    rfl
  | some text =>
    rw [htext] at h
    dsimp only at h
    rw [Option.bind_some]
    cases hread : Binary.read? Numeral.single (Text.trim text) with
    | none =>
      rw [hread] at h
      cases h
    | some q =>
      rw [hread] at h
      cases h
      rfl

theorem candidate_eq_made (h : candidate c job d = .ok x) : x = made c job d := by
  obtain ⟨p, hp, hx⟩ := Result.bind_eq_ok.1 h
  cases hx
  rw [made, effective, given?_of_number? hp]

theorem mapM_candidate {ds : List (Component α)} (h : ds.mapM (candidate c job) = .ok xs) :
    xs = ds.map (made c job) := by
  induction ds generalizing xs with
  | nil =>
    cases h
    rfl
  | cons d ds ih =>
    rw [List.mapM_cons] at h
    obtain ⟨x, hx, h⟩ := Result.bind_eq_ok.1 h
    obtain ⟨ys, hys, h⟩ := Result.bind_eq_ok.1 h
    cases h
    rw [List.map_cons, candidate_eq_made hx, ih hys]

/-- What components are ranked as, if they can be ranked. -/
theorem eq_of_ofRegistry (h : ofRegistry registry c job = .ok r) :
    r = ⟨job, arrange (Ranking.order c job) (registry.components.map (made c job))⟩ := by
  obtain ⟨xs, hxs, hr⟩ := Result.bind_eq_ok.1 h
  cases hr
  rw [mapM_candidate hxs]

theorem mem_candidates_iff (h : ofRegistry registry c job = .ok r) :
    x ∈ r.candidates ↔ ∃ d ∈ registry.components, made c job d = x := by
  rw [eq_of_ofRegistry h, (arrange_perm _ _).mem_iff, List.mem_map]

/-- One candidate has to stand before another if it comes first in the order, or if neither is
there and its priority is the higher one. -/
theorem before_iff : before order x y = true ↔ order.idxOf x.name < order.idxOf y.name ∨
    x.name ∉ order ∧ y.name ∉ order ∧ Binary.lt y.priority x.priority = true := by
  have hidx : ∀ name, order.idxOf name = (order.idxOf? name).getD order.length :=
    fun name => List.idxOf_eq_getD_idxOf? name order
  have hmem : ∀ name i, order.idxOf? name = some i → name ∈ order ∧ order.idxOf name = i := by
    intro name i h
    refine ⟨?_, by rw [hidx, h]; rfl⟩
    by_contra hnot
    rw [List.idxOf?_eq_none_iff.2 hnot] at h
    cases h
  rw [before]
  cases hx : order.idxOf? x.name with
  | some i =>
    obtain ⟨hxmem, hxi⟩ := hmem _ _ hx
    cases hy : order.idxOf? y.name with
    | some j => simp [hxmem, hxi, (hmem _ _ hy).2]
    | none =>
      have hynot := List.idxOf?_eq_none_iff.1 hy
      have := List.idxOf_lt_length_iff.2 hxmem
      simpa [hxmem, List.idxOf_eq_length_iff.2 hynot] using this
  | none =>
    have hxnot := List.idxOf?_eq_none_iff.1 hx
    cases hy : order.idxOf? y.name with
    | some j =>
      obtain ⟨hymem, -⟩ := hmem _ _ hy
      simp [hymem, List.idxOf_eq_length_iff.2 hxnot, List.idxOf_le_length]
    | none =>
      have hynot := List.idxOf?_eq_none_iff.1 hy
      simp [hxnot, hynot]

/-- Whether one candidate stands before another in a ranking of names that were registered in the
given order. -/
def Precedes (order names : List String) (x y : Candidate α) : Prop :=
  x.name ∈ order ∧ y.name ∈ order ∧ order.idxOf x.name < order.idxOf y.name ∨
  x.name ∈ order ∧ y.name ∉ order ∨
  x.name ∉ order ∧ y.name ∉ order ∧
    (y.priority.value < x.priority.value ∨
      x.priority.value = y.priority.value ∧ names.idxOf x.name < names.idxOf y.name)

/-- What candidates are sorted by. -/
def sortKey (order names : List String) (x : Candidate α) :
    ℕ ×ₗ (WithBot (WithTop ℚ))ᵒᵈ ×ₗ ℕ :=
  toLex (order.idxOf x.name, toLex (OrderDual.toDual x.priority.value, names.idxOf x.name))

theorem sortKey_lt_iff : sortKey order names x < sortKey order names y ↔
    order.idxOf x.name < order.idxOf y.name ∨ order.idxOf x.name = order.idxOf y.name ∧
      (y.priority.value < x.priority.value ∨
        x.priority.value = y.priority.value ∧ names.idxOf x.name < names.idxOf y.name) := by
  simp only [sortKey, Prod.Lex.toLex_lt_toLex, OrderDual.toDual_lt_toDual, OrderDual.toDual_inj]

/-- Names are at the same place in an order only if they are the same or both not in it. -/
theorem idxOf_eq_iff {a b : String} :
    order.idxOf a = order.idxOf b ↔ a = b ∨ a ∉ order ∧ b ∉ order := by
  by_cases ha : a ∈ order
  · simp [List.idxOf_inj ha, ha]
  · rw [List.idxOf_eq_length_iff.2 ha, eq_comm, List.idxOf_eq_length_iff]
    constructor
    · exact fun hb => .inr ⟨ha, hb⟩
    · rintro (rfl | ⟨-, hb⟩)
      · exact ha
      · exact hb

theorem precedes_iff (h : x.name = y.name → x = y) :
    Precedes order names x y ↔ sortKey order names x < sortKey order names y := by
  rw [sortKey_lt_iff, Precedes, idxOf_eq_iff]
  by_cases hname : x.name = y.name
  · obtain rfl := h hname
    simp
  · by_cases hx : x.name ∈ order
    · by_cases hy : y.name ∈ order
      · simp [hname, hx, hy]
      · have hlt := List.idxOf_lt_length_iff.2 hx
        simp [hname, hx, hy, hlt]
    · by_cases hy : y.name ∈ order
      · simp [hname, hx, hy, List.idxOf_le_length]
      · simp [hname, hx, hy]

/-- Whether the priority of a candidate is a number, if it counts. -/
def Comparable (order : List String) (x : Candidate α) : Prop :=
  x.name ∉ order → x.priority ≠ .nan

/-- A candidate is put before others that were registered earlier just where its key is less. -/
theorem before_iff_sortKey (hx : Comparable order x) (hy : Comparable order y)
    (hlater : names.idxOf y.name < names.idxOf x.name) :
    before order x y = true ↔ sortKey order names x < sortKey order names y := by
  have hname : x.name ≠ y.name := by
    intro h
    rw [h] at hlater
    exact absurd hlater (Nat.lt_irrefl _)
  rw [before_iff, sortKey_lt_iff, idxOf_eq_iff]
  refine or_congr_right ?_
  constructor
  · rintro ⟨hxnot, hynot, hlt⟩
    exact ⟨.inr ⟨hxnot, hynot⟩, .inl ((Binary.lt_iff (hy hynot) (hx hxnot)).1 hlt)⟩
  · rintro ⟨heq | ⟨hxnot, hynot⟩, hlt | ⟨-, hlt⟩⟩
    · exact absurd heq hname
    · exact absurd heq hname
    · exact ⟨hxnot, hynot, (Binary.lt_iff (hy hynot) (hx hxnot)).2 hlt⟩
    · exact absurd hlater (Nat.lt_asymm hlt)

section Sorted

variable {κ : Type} [LinearOrder κ] {key : Candidate α → κ}

/-- A candidate finds its place among sorted ones, which are given last first. -/
theorem pairwise_place (h : placed.Pairwise fun a b => key b < key a)
    (hx : ∀ y ∈ placed, (before order x y = true ↔ key x < key y) ∧ key y ≠ key x) :
    (place order x placed).Pairwise fun a b => key b < key a := by
  induction placed with
  | nil => exact List.pairwise_singleton _ _
  | cons y ys ih =>
    obtain ⟨hy, hys⟩ := List.pairwise_cons.1 h
    obtain ⟨⟨hbefore, hne⟩, hrest⟩ := List.forall_mem_cons.1 hx
    rw [place]
    split
    · rename_i hlt
      refine List.pairwise_cons.2 ⟨?_, ih hys hrest⟩
      intro z hz
      rcases List.mem_cons.1 ((place_perm order x ys).mem_iff.1 hz) with rfl | hz
      · exact hbefore.1 hlt
      · exact hy z hz
    · rename_i hnot
      have hyx : key y < key x := lt_of_le_of_ne (not_lt.1 fun h => hnot (hbefore.2 h)) hne
      refine List.pairwise_cons.2 ⟨?_, h⟩
      intro z hz
      rcases List.mem_cons.1 hz with rfl | hz
      · exact hyx
      · exact (hy z hz).trans hyx

/-- Candidates are sorted by a key, if each is put before an earlier one just where its key is
less. -/
theorem pairwise_arrange (h : xs.Pairwise fun y x =>
    (before order x y = true ↔ key x < key y) ∧ key y ≠ key x) :
    (arrange order xs).Pairwise fun a b => key a < key b := by
  induction xs using List.reverseRecOn with
  | nil => exact .nil
  | append_singleton xs x ih =>
    obtain ⟨hxs, -, hlast⟩ := List.pairwise_append.1 h
    rw [arrange_concat, List.pairwise_reverse]
    refine pairwise_place (List.pairwise_reverse.2 (ih hxs)) ?_
    intro y hy
    exact hlast y (mem_reverse_arrange.1 hy) x (List.mem_singleton_self x)

/-- In a sorted list one stands before the other just where its key is less. -/
theorem pair_sublist_iff (h : xs.Pairwise fun a b => key a < key b) (hx : x ∈ xs) (hy : y ∈ xs) :
    [x, y].Sublist xs ↔ key x < key y := by
  constructor
  · exact List.pairwise_iff_forall_sublist.1 h
  · intro hlt
    obtain ⟨before, after, rfl⟩ := List.append_of_mem hx
    obtain ⟨-, hxafter, hbetween⟩ := List.pairwise_append.1 h
    rcases List.mem_append.1 hy with hy | hy
    · exact absurd (hbetween y hy x List.mem_cons_self) (lt_asymm hlt)
    · rcases List.mem_cons.1 hy with rfl | hy
      · exact absurd hlt (lt_irrefl _)
      · exact ((List.singleton_sublist.2 hy).cons_cons x).trans (List.sublist_append_right _ _)

end Sorted

/-- What a ranking of components that were registered one after the other is to be: every name once,
with the component that was registered last and the priority and the state that the configuration
gives it, and in order. -/
structure Ranks (cs : List (Component α)) (c : Config) (job : String) (r : Ranking α) : Prop where
  sameJob : r.job = job
  once : (r.candidates.map (·.name)).Nodup
  names : ∀ name, name ∈ r.candidates.map (·.name) ↔ name ∈ cs.map (·.name)
  made : ∀ x ∈ r.candidates, ∃ d, IsLatest cs d ∧ x.name = d.name ∧ x.value = d.value ∧
    x.priority = effective c job d ∧ (x.enabled = true ↔ x.name ∉ disabled c job)
  sorted : ∀ x ∈ r.candidates, ∀ y ∈ r.candidates, [x, y].Sublist r.candidates ↔
    Precedes (Ranking.order c job) (cs.map (·.name)) x y

theorem sortKey_ne (h : names.idxOf x.name ≠ names.idxOf y.name) :
    sortKey order names x ≠ sortKey order names y :=
  fun heq => h (congrArg (fun k => (ofLex (ofLex k).2).2) heq)

/-- The candidates that are made of registered components are put into the order of their keys. -/
theorem pairwise_candidates (cs : List (Component α))
    (hnan : ∀ d, IsLatest cs d → d.name ∉ order → effective c job d ≠ .nan) :
    (arrange order ((Registry.ofList cs).components.map (made c job))).Pairwise fun a b =>
      sortKey order (cs.map (·.name)) a < sortKey order (cs.map (·.name)) b := by
  refine pairwise_arrange ?_
  have hnames := Registry.names_ofList_pairwise cs
  rw [Registry.names, List.pairwise_map] at hnames
  rw [List.pairwise_map]
  refine hnames.imp_of_mem ?_
  intro d e hd he hlt
  refine ⟨before_iff_sortKey ?_ ?_ hlt, sortKey_ne hlt.ne⟩
  · exact hnan e ((Registry.mem_ofList cs).1 he)
  · exact hnan d ((Registry.mem_ofList cs).1 hd)

theorem ranks_of_ofRegistry {cs : List (Component α)} (h : ofRegistry (.ofList cs) c job = .ok r)
    (hnan : ∀ d, IsLatest cs d → d.name ∉ Ranking.order c job → effective c job d ≠ .nan) :
    Ranks cs c job r := by
  rw [eq_of_ofRegistry h]
  have hperm := arrange_perm (Ranking.order c job)
    ((Registry.ofList cs).components.map (made c job))
  have hnames : ((Registry.ofList cs).components.map (made c job)).map (·.name) =
      (Registry.ofList cs).names := by
    rw [List.map_map]
    rfl
  have honce : ((arrange (Ranking.order c job)
      ((Registry.ofList cs).components.map (made c job))).map (·.name)).Nodup := by
    rw [(hperm.map (·.name)).nodup_iff, hnames]
    exact Registry.nodup_names_ofList cs
  refine ⟨rfl, honce, ?_, ?_, ?_⟩
  · intro name
    rw [(hperm.map (·.name)).mem_iff, hnames, Registry.mem_names_ofList]
  · intro x hx
    obtain ⟨d, hd, rfl⟩ := List.mem_map.1 (hperm.mem_iff.1 hx)
    exact ⟨d, (Registry.mem_ofList cs).1 hd, rfl, rfl, rfl, by simp [made]⟩
  · intro x hx y hy
    rw [precedes_iff (List.inj_on_of_nodup_map honce hx hy)]
    exact pair_sublist_iff (pairwise_candidates cs hnan) hx hy

/-- Whether two lists give the same known names in the same order, repetitions aside. -/
def Agree (names order order' : List String) : Prop :=
  (order.filter (names.contains ·)).eraseDups = (order'.filter (names.contains ·)).eraseDups

/-- Which of two known names comes first does not depend on other names or on repetitions. -/
theorem idxOf_lt_eraseDups {p : String → Bool} {a b : String} (ha : p a = true) (hb : p b = true)
    (order : List String) : (order.filter p).eraseDups.idxOf a < (order.filter p).eraseDups.idxOf b ↔
      order.idxOf a < order.idxOf b := by
  induction order generalizing p with
  | nil => rfl
  | cons name order ih =>
    by_cases hname : p name = true
    · rw [List.filter_cons_of_pos hname, List.eraseDups_cons, List.filter_filter]
      by_cases hna : name = a
      · subst hna
        by_cases hnb : name = b
        · simp [hnb]
        · simp [hnb]
      · by_cases hnb : name = b
        · subst hnb
          simp [List.idxOf_cons]
        · have hrest := @ih (fun n => !(n == name) && p n) (by simp [ha, Ne.symm hna])
            (by simp [hb, Ne.symm hnb])
          simpa [List.idxOf_cons, hna, hnb] using hrest
    · have hna : name ≠ a := fun h => hname (h ▸ ha)
      have hnb : name ≠ b := fun h => hname (h ▸ hb)
      rw [List.filter_cons_of_neg hname, ih ha hb]
      simp [hna, hnb]

theorem Agree.idxOf_lt (h : Agree names order order') {a b : String} (ha : a ∈ names)
    (hb : b ∈ names) : order.idxOf a < order.idxOf b ↔ order'.idxOf a < order'.idxOf b := by
  have ha' : names.contains a = true := by simpa using ha
  have hb' : names.contains b = true := by simpa using hb
  rw [← idxOf_lt_eraseDups ha' hb' order, h, idxOf_lt_eraseDups ha' hb' order']

theorem Agree.mem_iff (h : Agree names order order') {a : String} (ha : a ∈ names) :
    a ∈ order ↔ a ∈ order' := by
  have hmem : ∀ l : List String, a ∈ (l.filter (names.contains ·)).eraseDups ↔ a ∈ l := by
    intro l
    rw [List.mem_eraseDups, List.mem_filter]
    simp [ha]
  rw [← hmem order, h, hmem order']

theorem Agree.before_eq (h : Agree names order order') (hx : x.name ∈ names)
    (hy : y.name ∈ names) : before order x y = before order' x y := by
  rw [Bool.eq_iff_iff, before_iff, before_iff, h.idxOf_lt hx hy, h.mem_iff hx, h.mem_iff hy]

theorem place_congr (h : ∀ y ∈ placed, before order x y = before order' x y) :
    place order x placed = place order' x placed := by
  induction placed with
  | nil => rfl
  | cons y ys ih =>
    obtain ⟨hy, hys⟩ := List.forall_mem_cons.1 h
    rw [place, place, hy, ih hys]

theorem arrange_congr (h : ∀ x ∈ xs, ∀ y ∈ xs, before order x y = before order' x y) :
    arrange order xs = arrange order' xs := by
  induction xs using List.reverseRecOn with
  | nil => rfl
  | append_singleton xs x ih =>
    have hxs : ∀ {y}, y ∈ xs → y ∈ xs ++ [x] := List.mem_append_left _
    have hx : x ∈ xs ++ [x] := List.mem_append_right _ (List.mem_singleton_self x)
    rw [arrange_concat, arrange_concat, ih fun a ha b hb => h a (hxs ha) b (hxs hb),
      place_congr fun y hy => h x hx y (hxs (mem_reverse_arrange.1 hy))]

theorem mapM_congr {β : Type} {f g : Component α → Except Fault β} {ds : List (Component α)}
    (h : ∀ d ∈ ds, f d = g d) : ds.mapM f = ds.mapM g := by
  induction ds with
  | nil => rfl
  | cons d ds ih =>
    obtain ⟨hd, hds⟩ := List.forall_mem_cons.1 h
    rw [List.mapM_cons, List.mapM_cons, hd, ih hds]

/-- Of the names in a configuration only those that are registered count, and of the places of a name
only the first. -/
theorem ofRegistry_congr (registry : Registry α)
    (horder : Agree registry.names (Ranking.order c job) (Ranking.order c' job))
    (hdisabled : ∀ name ∈ registry.names, name ∈ disabled c job ↔ name ∈ disabled c' job)
    (hgiven : ∀ name ∈ registry.names,
      c.text? (priorityKey job name) = c'.text? (priorityKey job name)) :
    ofRegistry registry c job = ofRegistry registry c' job := by
  have hcandidate : ∀ d ∈ registry.components, candidate c job d = candidate c' job d := by
    intro d hd
    have hname : d.name ∈ registry.names := List.mem_map_of_mem hd
    have hnumber : c.number? (priorityKey job d.name) = c'.number? (priorityKey job d.name) := by
      rw [Config.number?, Config.number?, hgiven _ hname]
    have hcontains : (disabled c job).contains d.name = (disabled c' job).contains d.name := by
      rw [Bool.eq_iff_iff, List.contains_iff_mem, List.contains_iff_mem]
      exact hdisabled _ hname
    rw [candidate, candidate, ← priorityKey, hnumber, hcontains]
  rw [ofRegistry, ofRegistry, mapM_congr hcandidate]
  cases hxs : registry.components.mapM (candidate c' job) with
  | error f => rfl
  | ok xs =>
    have hnames : ∀ x ∈ xs, x.name ∈ registry.names := by
      intro x hx
      rw [mapM_candidate hxs] at hx
      obtain ⟨d, hd, rfl⟩ := List.mem_map.1 hx
      exact List.mem_map_of_mem hd
    exact congrArg (fun ys => Except.ok (⟨job, ys⟩ : Ranking α)) <| arrange_congr
      fun x hx y hy => horder.before_eq (hnames x hx) (hnames y hy)

theorem agree_congr (h : ∀ name, name ∈ names ↔ name ∈ names') :
    Agree names order order' ↔ Agree names' order order' := by
  have hcontains : (names.contains ·) = (names'.contains ·) := by
    funext name
    rw [Bool.eq_iff_iff, List.contains_iff_mem, List.contains_iff_mem]
    exact h name
  rw [Agree, Agree, hcontains]

/-- Components cannot be ranked just when the configuration gives one of them, enabled or not, a
priority that cannot be read. Else every name is ranked once, in order, with what was registered last
under it, if the priorities that count are numbers. Names in the configuration that are unknown or
stand there again change nothing. -/
theorem ofRegistry_ranks (cs : List (Component α)) (c : Config) (job : String) :
    ((∃ name ∈ cs.map (·.name), c.NotNumber (priorityKey job name) ∧ ∃ problem,
        ofRegistry (.ofList cs) c job = .error (.config (priorityKey job name) problem)) ∨
      (∀ name ∈ cs.map (·.name), ¬ c.NotNumber (priorityKey job name)) ∧
        ∃ r, ofRegistry (.ofList cs) c job = .ok r ∧
          ((∀ d, IsLatest cs d → d.name ∉ Ranking.order c job → effective c job d ≠ .nan) →
            Ranks cs c job r)) ∧
    ∀ c' : Config, Agree (cs.map (·.name)) (Ranking.order c job) (Ranking.order c' job) →
      (∀ name ∈ cs.map (·.name), name ∈ disabled c job ↔ name ∈ disabled c' job) →
      (∀ name ∈ cs.map (·.name),
        c.text? (priorityKey job name) = c'.text? (priorityKey job name)) →
      ofRegistry (.ofList cs) c job = ofRegistry (.ofList cs) c' job := by
  have hnames : ∀ name, name ∈ (Registry.ofList cs).names ↔ name ∈ cs.map (·.name) :=
    fun _ => Registry.mem_names_ofList cs
  constructor
  · rcases ofRegistry_blames (.ofList cs) c job with
      ⟨r, hr, hgood⟩ | ⟨key, problem, hr, d, hd, rfl, hbad⟩
    · refine .inr ⟨?_, r, hr, ranks_of_ofRegistry hr⟩
      intro name hname hbad
      obtain ⟨d, hd, rfl⟩ := List.mem_map.1 ((hnames name).2 hname)
      exact hgood _ ⟨d, hd, rfl, hbad⟩
    · exact .inl ⟨d.name, (hnames _).1 (List.mem_map_of_mem hd), hbad, problem, hr⟩
  · intro c' horder hdisabled hgiven
    refine ofRegistry_congr _ ((agree_congr hnames).2 horder) ?_ ?_
    · exact fun name hname => hdisabled name ((hnames name).1 hname)
    · exact fun name hname => hgiven name ((hnames name).1 hname)

/-- A component that is registered again keeps its place, one that is in the order comes first, and
one that is disabled is ranked by the priority that it is given. -/
theorem ofRegistry_ranks_again :
    let number := Binary.ofNat Numeral.single
    let cs : List (Component Nat) :=
      [⟨"a", number 1, 0⟩, ⟨"b", number 2, 1⟩, ⟨"c", number 3, 2⟩, ⟨"a", number 3, 3⟩,
        ⟨"d", number 0, 4⟩]
    let c := ((Config.empty.set (Ranking.key "job" "order") "z, d,z,d").set
      (Ranking.key "job" "disabled") "b, z").set (priorityKey "job" "b") "5"
    (∀ d, IsLatest cs d → d.name ∉ Ranking.order c "job" → effective c "job" d ≠ .nan) ∧
      ∃ r, ofRegistry (.ofList cs) c "job" = .ok r ∧ Ranks cs c "job" r ∧
        r.candidates.map (fun x => (x.name, x.value, x.enabled)) =
          [("d", 4, true), ("b", 1, false), ("a", 3, true), ("c", 2, true)] := by
  intro number cs c
  have hnan : ∀ d, IsLatest cs d → d.name ∉ Ranking.order c "job" → effective c "job" d ≠ .nan := by
    intro d hd _
    have hall : ∀ d ∈ cs, effective c "job" d ≠ .nan := by decide
    exact hall d hd.mem
  obtain ⟨r, hr, hcandidates⟩ : ∃ r, ofRegistry (.ofList cs) c "job" = .ok r ∧
      r.candidates.map (fun x => (x.name, x.value, x.enabled)) =
        [("d", 4, true), ("b", 1, false), ("a", 3, true), ("c", 2, true)] := ⟨_, rfl, by decide⟩
  rcases (ofRegistry_ranks cs c "job").1 with ⟨name, -, -, problem, herror⟩ | ⟨-, r', hr', hranks⟩
  · cases hr.symm.trans herror
  · cases hr.symm.trans hr'
    exact ⟨hnan, r, hr, hranks hnan, hcandidates⟩

end Ranking
end ArtifactCache
