import ArtifactCache.Proofs.KeyMap
import ArtifactCache.Proofs.Ranking
import Mathlib.Data.List.Chain

/-! What the priority of one candidate means to the others: nothing, as long as it is a number. A
candidate whose priority is no number holds up those behind it. -/
namespace ArtifactCache

open Numeral (Binary)
open Registry (IsLatest)

namespace Ranking

variable {α β : Type} {c c' : Config} {job name : String} {order : List String}
  {x y z : Candidate α} {xs placed : List (Candidate α)} {d : Component α} {r r' : Ranking α}
  {p : Candidate α → Bool} {make : α → Except Fault β} {context : String} {s : Selected β}

theorem mem_of_idxOf_lt {a b : String} (h : order.idxOf a < order.idxOf b) : a ∈ order :=
  List.idxOf_lt_length_iff.1 (h.trans_le List.idxOf_le_length)

theorem not_before_of_before (h : before order x y = true) : ¬ before order y x = true := by
  rw [before_iff] at h ⊢
  rcases h with hxy | ⟨hx, hy, hlt⟩
  · rintro (hyx | ⟨-, hx, -⟩)
    · exact Nat.lt_asymm hxy hyx
    · exact hx (mem_of_idxOf_lt hxy)
  · rintro (hyx | ⟨-, -, hlt'⟩)
    · exact hy (mem_of_idxOf_lt hyx)
    · obtain ⟨hynan, hxnan⟩ := Binary.ne_nan_of_lt hlt
      exact lt_asymm ((Binary.lt_iff hynan hxnan).1 hlt) ((Binary.lt_iff hxnan hynan).1 hlt')

/-- Whoever does not have to stand before a candidate that can be compared does not have to stand
before one that it does not have to stand before either. -/
theorem Comparable.not_before_trans (hz : Comparable order z) (hxz : ¬ before order x z = true)
    (hzy : ¬ before order z y = true) : ¬ before order x y = true := by
  rw [before_iff] at hxz hzy ⊢
  rw [not_or] at hxz hzy
  rintro (hxy | ⟨hx, hy, hlt⟩)
  · exact hxz.1 (hxy.trans_le (Nat.not_lt.1 hzy.1))
  · by_cases hmem : z.name ∈ order
    · refine hzy.1 ?_
      rw [List.idxOf_eq_length_iff.2 hy]
      exact List.idxOf_lt_length_iff.2 hmem
    · obtain ⟨hynan, hxnan⟩ := Binary.ne_nan_of_lt hlt
      have hznan := hz hmem
      have hle : z.priority.value ≤ y.priority.value := by
        rw [← not_lt, ← Binary.lt_iff hynan hznan]
        exact fun h => hzy.2 ⟨hmem, hy, h⟩
      have hle' : x.priority.value ≤ z.priority.value := by
        rw [← not_lt, ← Binary.lt_iff hznan hxnan]
        exact fun h => hxz.2 ⟨hx, hmem, h⟩
      exact absurd ((Binary.lt_iff hynan hxnan).1 hlt) (not_lt.2 (hle'.trans hle))

/-- Whether none of the candidates, which are given last first, has to stand before the next one. -/
def Settled (order : List String) (placed : List (Candidate α)) : Prop :=
  placed.IsChain fun x y => ¬ before order x y = true

theorem settled_place (h : Settled order placed) (x : Candidate α) :
    Settled order (place order x placed) := by
  induction placed with
  | nil => exact .singleton x
  | cons y ys ih =>
    rw [place]
    split
    · rename_i hbefore
      have hys := ih h.of_cons
      cases ys with
      | nil => exact .cons_cons (not_before_of_before hbefore) (.singleton x)
      | cons z zs =>
        rw [place] at hys ⊢
        split
        · rename_i hxz
          rw [if_pos hxz] at hys
          exact .cons_cons (List.isChain_cons_cons.1 h).1 hys
        · rename_i hxz
          rw [if_neg hxz] at hys
          exact .cons_cons (not_before_of_before hbefore) hys
    · rename_i hnot
      exact .cons_cons hnot h

/-- A candidate that stays behind one that is left out also stays behind those before that one. -/
theorem place_filter_of_settled (h : Settled order (y :: placed))
    (hout : ∀ z ∈ placed, p z = false → Comparable order z) :
    place order y (placed.filter p) = y :: placed.filter p := by
  induction placed with
  | nil => rfl
  | cons z zs ih =>
    obtain ⟨hyz, hzs⟩ := List.isChain_cons_cons.1 h
    by_cases hz : p z = true
    · rw [List.filter_cons_of_pos hz, place, if_neg hyz]
    · rw [List.filter_cons_of_neg hz]
      refine ih ?_ fun w hw => hout w (List.mem_cons_of_mem _ hw)
      cases zs with
      | nil => exact .singleton y
      | cons w ws =>
        obtain ⟨hzw, hws⟩ := List.isChain_cons_cons.1 hzs
        have hcomparable := hout z List.mem_cons_self (by simpa using hz)
        exact .cons_cons (hcomparable.not_before_trans hyz hzw) hws

theorem filter_place (h : Settled order placed)
    (hout : ∀ z ∈ placed, p z = false → Comparable order z) (hy : p y = true) :
    (place order y placed).filter p = place order y (placed.filter p) := by
  induction placed with
  | nil => simp [place, hy]
  | cons z zs ih =>
    have hzs := ih h.of_cons fun w hw => hout w (List.mem_cons_of_mem _ hw)
    rw [place]
    split
    · rename_i hbefore
      by_cases hz : p z = true
      · rw [List.filter_cons_of_pos hz, List.filter_cons_of_pos hz, hzs, place, if_pos hbefore]
      · rw [List.filter_cons_of_neg hz, List.filter_cons_of_neg hz, hzs]
    · rename_i hnot
      rw [List.filter_cons_of_pos hy, place_filter_of_settled (.cons_cons hnot h) hout]

theorem filter_place_of_out (hx : p x = false) (placed : List (Candidate α)) :
    (place order x placed).filter p = placed.filter p := by
  have hnot : ¬ p x = true := by simp [hx]
  induction placed with
  | nil => rw [place, List.filter_cons_of_neg hnot]
  | cons y ys ih =>
    rw [place]
    split
    · rw [List.filter_cons, List.filter_cons, ih]
    · rw [List.filter_cons_of_neg hnot]

theorem settled_arrange (order : List String) (xs : List (Candidate α)) :
    Settled order (arrange order xs).reverse := by
  induction xs using List.reverseRecOn with
  | nil => exact .nil
  | append_singleton xs x ih =>
    rw [arrange_concat, List.reverse_reverse]
    exact settled_place ih x

/-- The order of candidates is the same without some of them, if these can be compared. -/
theorem filter_arrange (hout : ∀ z ∈ xs, p z = false → Comparable order z) :
    (arrange order xs).filter p = arrange order (xs.filter p) := by
  induction xs using List.reverseRecOn with
  | nil => rfl
  | append_singleton xs x ih =>
    have hxs : ∀ z ∈ xs, p z = false → Comparable order z :=
      fun z hz => hout z (List.mem_append_left _ hz)
    have hplaced : ∀ z ∈ (arrange order xs).reverse, p z = false → Comparable order z :=
      fun z hz => hxs z (mem_reverse_arrange.1 hz)
    rw [arrange_concat, List.filter_reverse, List.filter_append]
    by_cases hp : p x = true
    · rw [filter_place (settled_arrange order xs) hplaced hp, List.filter_reverse, ih hxs,
        List.filter_cons_of_pos hp, List.filter_nil, arrange_concat]
    · rw [filter_place_of_out (by simpa using hp), List.filter_reverse, ih hxs,
        List.reverse_reverse, List.filter_cons_of_neg hp, List.filter_nil, List.append_nil]

/-- Where candidates that are rejected stand does not matter to what is selected. -/
theorem select_of_filter (h : r.enabled.filter p = r'.enabled.filter p)
    (hout : ∀ x, x ∈ r.enabled ∨ x ∈ r'.enabled → p x = false →
      ∃ f, make x.value = .error f ∧ f.isConfig = false)
    (hs : r.select context make = .ok s) : r'.select context make = .ok s := by
  rcases select_cases r context make with
    ⟨before, x, after, henabled, hbefore, hx, hselect⟩ | ⟨-, f, hf, -⟩
  · have hpx : p x = true := by
      by_contra hnot
      refine not_decides_iff.2 (hout x (.inl ?_) (by simpa using hnot)) hx
      rw [henabled]
      exact List.mem_append_right _ List.mem_cons_self
    rw [henabled, List.filter_append, List.filter_cons_of_pos hpx] at h
    obtain ⟨before', rest, henabled', hfilter, hrest⟩ := List.filter_eq_append_iff.1 h.symm
    obtain ⟨between, after', rfl, hbetween, -, -⟩ := List.filter_eq_cons_iff.1 hrest
    have hrejected : Rejected make (before' ++ between) := by
      intro y hy
      have hmem : y ∈ r'.enabled := by
        rw [henabled', ← List.append_assoc]
        exact List.mem_append_left _ hy
      by_cases hpy : p y = true
      · rcases List.mem_append.1 hy with hy | hy
        · have := List.mem_filter.2 ⟨hy, hpy⟩
          rw [hfilter] at this
          exact hbefore y (List.mem_filter.1 this).1
        · exact absurd hpy (hbetween y hy)
      · exact hout y (.inr hmem) (by simpa using hpy)
    rw [← List.append_assoc] at henabled'
    rw [select_of_decides henabled' hrejected hx, ← hselect, hs]
  · cases hf.symm.trans hs

theorem key_inj {a b : String} : key job a = key job b ↔ a = b := by
  rw [key, key, String.append_right_inj]

theorem priorityKey_inj {a b : String} : priorityKey job a = priorityKey job b ↔ a = b := by
  rw [priorityKey, priorityKey, key_inj, String.append_right_inj]

theorem orderKey_ne : key job "order" ≠ priorityKey job name := by
  rw [priorityKey, Ne, key_inj]
  intro h
  have := congrArg String.toList h
  simp at this

theorem disabledKey_ne : key job "disabled" ≠ priorityKey job name := by
  rw [priorityKey, Ne, key_inj]
  intro h
  have := congrArg String.toList h
  simp at this

/-- Whether two configurations differ at most in the priority that they give to a name. -/
def DifferAt (job name : String) (c c' : Config) : Prop :=
  ∀ key, key ≠ priorityKey job name → c.text? key = c'.text? key

theorem differAt_set (c : Config) (text : String) :
    DifferAt job name c (c.set (priorityKey job name) text) := by
  intro key hkey
  have hget := KeyMap.get?_insert c.settings (priorityKey job name) key text
  rw [if_neg hkey] at hget
  exact hget.symm

theorem DifferAt.order_eq (h : DifferAt job name c c') :
    Ranking.order c job = Ranking.order c' job := by
  rw [Ranking.order, Ranking.order, Config.items, Config.items, h _ orderKey_ne]

theorem DifferAt.disabled_eq (h : DifferAt job name c c') : disabled c job = disabled c' job := by
  rw [disabled, disabled, Config.items, Config.items, h _ disabledKey_ne]

theorem DifferAt.made_eq (h : DifferAt job name c c')
    (heffective : d.name = name → effective c job d = effective c' job d) :
    made c job d = made c' job d := by
  rw [made, made, h.disabled_eq]
  by_cases hname : d.name = name
  · rw [heffective hname]
  · rw [effective, effective, given?, given?, h _ fun heq => hname (priorityKey_inj.1 heq)]

theorem filter_made (name : String) (ds : List (Component α)) :
    (ds.map (made c job)).filter (·.name ≠ name) =
      (ds.filter (·.name ≠ name)).map (made c job) := by
  rw [List.filter_map]
  rfl

/-- The candidates of other names are the same, in the same order. -/
theorem DifferAt.others_eq {cs : List (Component α)} (h : DifferAt job name c c')
    (hr : ofRegistry (.ofList cs) c job = .ok r) (hr' : ofRegistry (.ofList cs) c' job = .ok r')
    (hnan : name ∈ Ranking.order c job ∨ ∀ d, IsLatest cs d → d.name = name →
      (effective c job d = .nan ↔ effective c' job d = .nan)) :
    r.candidates.filter (·.name ≠ name) = r'.candidates.filter (·.name ≠ name) := by
  rw [eq_of_ofRegistry hr, eq_of_ofRegistry hr', ← h.order_eq]
  dsimp only
  by_cases hsame : ∃ d, IsLatest cs d ∧ d.name = name ∧ effective c job d = effective c' job d
  · -- There is no other candidate of the name, so all candidates are the same.
    obtain ⟨d, hd, hname, heffective⟩ := hsame
    have hmade : ∀ e ∈ (Registry.ofList cs).components, made c job e = made c' job e := by
      intro e he
      refine h.made_eq fun hename => ?_
      rw [((Registry.mem_ofList cs).1 he).eq_of_name hd (hename.trans hname.symm), heffective]
    rw [List.map_congr_left hmade]
  · have hcomparable : ∀ d ∈ (Registry.ofList cs).components, d.name = name →
        Comparable (Ranking.order c job) (made c job d) ∧
          Comparable (Ranking.order c job) (made c' job d) := by
      intro d hd hname
      have hlatest := (Registry.mem_ofList cs).1 hd
      rcases hnan with hmem | hnan
      · have hin : d.name ∈ Ranking.order c job := by rwa [hname]
        exact ⟨fun hnot => absurd hin hnot, fun hnot => absurd hin hnot⟩
      · have hiff := hnan d hlatest hname
        have hne : effective c job d ≠ .nan := by
          intro hc
          exact hsame ⟨d, hlatest, hname, hc.trans (hiff.1 hc).symm⟩
        exact ⟨fun _ => hne, fun _ => hne ∘ hiff.2⟩
    rw [filter_arrange, filter_arrange, filter_made, filter_made]
    · congr 1
      refine List.map_congr_left fun d hd => h.made_eq fun hname => ?_
      have hne : d.name ≠ name := by simpa using (List.mem_filter.1 hd).2
      exact absurd hname hne
    · intro z hz hp
      obtain ⟨d, hd, rfl⟩ := List.mem_map.1 hz
      exact (hcomparable d hd (by simpa [made] using hp)).2
    · intro z hz hp
      obtain ⟨d, hd, rfl⟩ := List.mem_map.1 hz
      exact (hcomparable d hd (by simpa [made] using hp)).1

/-- A candidate whose component rejects is rejected, if it is enabled at all. -/
theorem rejects_of_enabled {cs : List (Component α)} (hr : ofRegistry (.ofList cs) c job = .ok r)
    (hrejects : name ∈ disabled c job ∨ ∀ d, IsLatest cs d → d.name = name →
      ∃ f, make d.value = .error f ∧ f.isConfig = false)
    (hx : x ∈ r.enabled) (hname : x.name = name) :
    ∃ f, make x.value = .error f ∧ f.isConfig = false := by
  obtain ⟨hx, henabled⟩ := List.mem_filter.1 hx
  obtain ⟨d, hd, rfl⟩ := (mem_candidates_iff hr).1 hx
  have hdname : d.name = name := hname
  rcases hrejects with hmem | hrejects
  · rw [← hdname] at hmem
    simp [made, hmem] at henabled
  · exact hrejects d ((Registry.mem_ofList cs).1 hd) hdname

/-- The priority that a configuration gives to one name does not disturb the other candidates: they are
ranked in the same order, and if the one is disabled or rejected, the same is selected. But the
priority has to be a number, unless the name is in the order or it is none under both
configurations. -/
theorem ofRegistry_others {cs : List (Component α)} (h : DifferAt job name c c')
    (hr : ofRegistry (.ofList cs) c job = .ok r) (hr' : ofRegistry (.ofList cs) c' job = .ok r')
    (hnan : name ∈ Ranking.order c job ∨ ∀ d, IsLatest cs d → d.name = name →
      (effective c job d = .nan ↔ effective c' job d = .nan)) :
    r.candidates.filter (·.name ≠ name) = r'.candidates.filter (·.name ≠ name) ∧
    ∀ (β : Type) (context : String) (make : α → Except Fault β),
      (name ∈ disabled c job ∨ ∀ d, IsLatest cs d → d.name = name →
        ∃ f, make d.value = .error f ∧ f.isConfig = false) →
      ∀ s, r.select context make = .ok s ↔ r'.select context make = .ok s := by
  have hothers := h.others_eq hr hr' hnan
  refine ⟨hothers, ?_⟩
  intro β context make hrejects s
  have henabled : r.enabled.filter (·.name ≠ name) = r'.enabled.filter (·.name ≠ name) := by
    rw [enabled, enabled, List.filter_comm, hothers, List.filter_comm]
  have hrejects' := hrejects
  rw [h.disabled_eq] at hrejects'
  have hboth : ∀ x, x ∈ r.enabled ∨ x ∈ r'.enabled → decide (x.name ≠ name) = false →
      ∃ f, make x.value = .error f ∧ f.isConfig = false := by
    intro x hx hname
    have hxname : x.name = name := by simpa using hname
    rcases hx with hx | hx
    · exact rejects_of_enabled hr hrejects hx hxname
    · exact rejects_of_enabled hr' hrejects' hx hxname
  exact ⟨select_of_filter henabled hboth,
    select_of_filter henabled.symm fun x hx => hboth x hx.symm⟩

/-- A priority that is raised from below all others to the middle leaves the two others as they are. -/
theorem ofRegistry_others_raised :
    let number := Binary.ofNat Numeral.single
    let cs : List (Component Nat) := [⟨"a", number 1, 0⟩, ⟨"x", number 0, 1⟩, ⟨"b", number 3, 2⟩]
    let c := Config.empty.set (Ranking.key "job" "disabled") "x"
    let c' := c.set (priorityKey "job" "x") "2"
    ∃ r r', DifferAt "job" "x" c c' ∧ ofRegistry (.ofList cs) c "job" = .ok r ∧
      ofRegistry (.ofList cs) c' "job" = .ok r' ∧
      r.candidates.map (·.name) = ["b", "a", "x"] ∧ r'.candidates.map (·.name) = ["b", "x", "a"] ∧
      r.candidates.filter (·.name ≠ "x") = r'.candidates.filter (·.name ≠ "x") ∧
      ∀ s, r.select "" (fun n => .ok n) = .ok s ↔ r'.select "" (fun n => .ok n) = .ok s := by
  intro number cs c c'
  have hdiffer : DifferAt "job" "x" c c' := differAt_set c "2"
  have hnan : ∀ d, IsLatest cs d → d.name = "x" →
      (effective c "job" d = .nan ↔ effective c' "job" d = .nan) := by
    intro d hd _
    have hall : ∀ d ∈ cs, effective c "job" d ≠ .nan ∧ effective c' "job" d ≠ .nan := by decide
    exact iff_of_false (hall d hd.mem).1 (hall d hd.mem).2
  obtain ⟨r, r', hr, hr', hnames, hnames'⟩ : ∃ r r', ofRegistry (.ofList cs) c "job" = .ok r ∧
      ofRegistry (.ofList cs) c' "job" = .ok r' ∧ r.candidates.map (·.name) = ["b", "a", "x"] ∧
      r'.candidates.map (·.name) = ["b", "x", "a"] := ⟨_, _, rfl, rfl, by decide, by decide⟩
  obtain ⟨hothers, hselect⟩ := ofRegistry_others hdiffer hr hr' (.inr hnan)
  exact ⟨r, r', hdiffer, hr, hr', hnames, hnames', hothers,
    hselect Nat "" _ (.inl (by decide))⟩

/-- A priority that is no number: the candidate behind it, which is better than the one before it, does
not come past it, and the worse one is selected. -/
theorem ofRegistry_others_nan :
    let number := Binary.ofNat Numeral.single
    let cs : List (Component Nat) := [⟨"a", number 1, 0⟩, ⟨"x", number 0, 1⟩, ⟨"b", number 2, 2⟩]
    let c := Config.empty.set (Ranking.key "job" "disabled") "x"
    let c' := c.set (priorityKey "job" "x") "NaN"
    ∃ r r', DifferAt "job" "x" c c' ∧ ofRegistry (.ofList cs) c "job" = .ok r ∧
      ofRegistry (.ofList cs) c' "job" = .ok r' ∧ "x" ∈ disabled c "job" ∧
      (r.candidates.filter (·.name ≠ "x")).map (·.name) = ["b", "a"] ∧
      (r'.candidates.filter (·.name ≠ "x")).map (·.name) = ["a", "b"] ∧
      (∃ s, r.select "" (fun n => .ok n) = .ok s ∧ s.name = "b") ∧
      ∃ s, r'.select "" (fun n => .ok n) = .ok s ∧ s.name = "a" := by
  intro number cs c c'
  exact ⟨_, _, differAt_set c "NaN", rfl, rfl, by decide, by decide, by decide,
    ⟨_, rfl, rfl⟩, ⟨_, rfl, rfl⟩⟩

end Ranking
end ArtifactCache
