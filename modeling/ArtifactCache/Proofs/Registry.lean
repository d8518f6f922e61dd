import ArtifactCache.Ranking
import Mathlib.Data.List.Basic
import Mathlib.Data.List.Induction
import Mathlib.Data.List.Nodup

/-! Registration. A registry holds every name once, in the order in which the names were first
registered, with the component that was registered last under it. -/
namespace ArtifactCache.Registry

variable {α : Type} {c d : Component α} {cs ds : List (Component α)}

/-- Whether a component is the last of the given ones that has its name. -/
def IsLatest (cs : List (Component α)) (d : Component α) : Prop :=
  ∃ before after, cs = before ++ d :: after ∧ ∀ e ∈ after, e.name ≠ d.name

theorem isLatest_snoc :
    IsLatest (cs ++ [c]) d ↔ d = c ∨ d.name ≠ c.name ∧ IsLatest cs d := by
  constructor
  · rintro ⟨before, after, heq, hafter⟩
    rcases List.eq_nil_or_concat after with rfl | ⟨after, e, rfl⟩
    · obtain ⟨-, hlast⟩ := List.append_inj' heq rfl
      exact .inl (List.singleton_inj.1 hlast).symm
    · rw [List.concat_eq_append, ← List.cons_append, ← List.append_assoc] at heq
      obtain ⟨hcs, he⟩ := List.append_inj' heq rfl
      rw [List.concat_eq_append, ← (List.cons.inj he).1] at hafter
      exact .inr ⟨(hafter c (by simp)).symm, before, after, hcs,
        fun e he => hafter e (List.mem_append_left _ he)⟩
  · rintro (rfl | ⟨hne, before, after, rfl, hafter⟩)
    · exact ⟨cs, [], rfl, nofun⟩
    · refine ⟨before, after ++ [c], by simp, ?_⟩
      intro e he
      rcases List.mem_append.1 he with he | he
      · exact hafter e he
      · rw [List.mem_singleton.1 he]
        exact hne.symm

theorem IsLatest.mem (h : IsLatest cs d) : d ∈ cs := by
  obtain ⟨before, after, rfl, -⟩ := h
  simp

theorem names_put (c : Component α) (ds : List (Component α)) :
    (put c ds).map (·.name) = if c.name ∈ ds.map (·.name) then ds.map (·.name)
      else ds.map (·.name) ++ [c.name] := by
  induction ds with
  | nil => simp [put]
  | cons d ds ih =>
    rw [put]
    by_cases hd : d.name = c.name
    · simp [hd]
    · have hcd : c.name ≠ d.name := fun h => hd h.symm
      rw [if_neg hd, List.map_cons, ih, List.map_cons]
      by_cases hmem : c.name ∈ ds.map (·.name)
      · rw [if_pos hmem, if_pos (List.mem_cons_of_mem _ hmem)]
      · rw [if_neg hmem, if_neg (by simpa [hcd] using hmem), List.cons_append]

theorem mem_put_iff (h : (ds.map (·.name)).Nodup) :
    d ∈ put c ds ↔ d = c ∨ d.name ≠ c.name ∧ d ∈ ds := by
  induction ds with
  | nil => simp [put]
  | cons e ds ih =>
    rw [List.map_cons, List.nodup_cons] at h
    rw [put]
    by_cases he : e.name = c.name
    · rw [if_pos he, List.mem_cons, List.mem_cons]
      constructor
      · rintro (rfl | hd)
        · exact .inl rfl
        · refine .inr ⟨?_, .inr hd⟩
          rw [← he]
          intro hname
          exact h.1 (hname ▸ List.mem_map_of_mem hd)
      · rintro (rfl | ⟨hne, rfl | hd⟩)
        · exact .inl rfl
        · exact absurd he hne
        · exact .inr hd
    · rw [if_neg he, List.mem_cons, List.mem_cons, ih h.2]
      constructor
      · rintro (rfl | rfl | ⟨hne, hd⟩)
        · exact .inr ⟨he, .inl rfl⟩
        · exact .inl rfl
        · exact .inr ⟨hne, .inr hd⟩
      · rintro (rfl | ⟨hne, rfl | hd⟩)
        · exact .inr (.inl rfl)
        · exact .inl rfl
        · exact .inr (.inr ⟨hne, hd⟩)

theorem ofList_snoc (cs : List (Component α)) (c : Component α) :
    ofList (cs ++ [c]) = (ofList cs).register c := by
  rw [ofList, List.foldl_append]
  rfl

theorem names_ofList_snoc (cs : List (Component α)) (c : Component α) :
    (ofList (cs ++ [c])).names = if c.name ∈ (ofList cs).names then (ofList cs).names
      else (ofList cs).names ++ [c.name] := by
  rw [ofList_snoc]
  exact names_put c (ofList cs).components

theorem mem_names_ofList (cs : List (Component α)) {name : String} :
    name ∈ (ofList cs).names ↔ name ∈ cs.map (·.name) := by
  induction cs using List.reverseRecOn with
  | nil => rfl
  | append_singleton cs c ih =>
    rw [names_ofList_snoc, List.map_append, List.mem_append, ← ih]
    split
    · rename_i hmem
      constructor
      · exact .inl
      · rintro (hname | hname)
        · exact hname
        · rw [List.mem_singleton.1 hname]
          exact hmem
    · exact List.mem_append

/-- The names stand in the order in which they were first registered, each once. -/
theorem names_ofList_pairwise (cs : List (Component α)) : (ofList cs).names.Pairwise
    fun a b => (cs.map (·.name)).idxOf a < (cs.map (·.name)).idxOf b := by
  induction cs using List.reverseRecOn with
  | nil => exact .nil
  | append_singleton cs c ih =>
    have hold : ∀ {a}, a ∈ (ofList cs).names →
        ((cs ++ [c]).map (·.name)).idxOf a = (cs.map (·.name)).idxOf a := by
      intro a ha
      rw [List.map_append, List.idxOf_append, if_pos ((mem_names_ofList cs).1 ha)]
    have hkept : (ofList cs).names.Pairwise fun a b =>
        ((cs ++ [c]).map (·.name)).idxOf a < ((cs ++ [c]).map (·.name)).idxOf b := by
      refine ih.imp_of_mem ?_
      intro a b ha hb hlt
      rwa [hold ha, hold hb]
    rw [names_ofList_snoc]
    split
    · exact hkept
    · rename_i hnew
      refine List.pairwise_append.2 ⟨hkept, List.pairwise_singleton _ _, ?_⟩
      intro a ha b hb
      -- A name that is new comes behind all that have been registered.
      rw [List.mem_singleton.1 hb, hold ha, List.map_append, List.idxOf_append,
        if_neg fun h => hnew ((mem_names_ofList cs).2 h)]
      have := List.idxOf_lt_length_iff.2 ((mem_names_ofList cs).1 ha)
      omega

theorem nodup_names_ofList (cs : List (Component α)) : (ofList cs).names.Nodup :=
  (names_ofList_pairwise cs).imp fun hlt h => absurd (h ▸ hlt) (Nat.lt_irrefl _)

/-- The components of a registry are those that were registered last under their names. -/
theorem mem_ofList (cs : List (Component α)) :
    d ∈ (ofList cs).components ↔ IsLatest cs d := by
  induction cs using List.reverseRecOn with
  | nil =>
    refine iff_of_false List.not_mem_nil ?_
    rintro ⟨before, after, h, -⟩
    cases before <;> cases h
  | append_singleton cs c ih =>
    rw [ofList_snoc, isLatest_snoc, ← ih]
    exact mem_put_iff (nodup_names_ofList cs)

/-- Under each name there is one component that was registered last. -/
theorem IsLatest.eq_of_name (hd : IsLatest cs d) (hc : IsLatest cs c) (h : d.name = c.name) :
    d = c :=
  List.inj_on_of_nodup_map (nodup_names_ofList cs) ((mem_ofList cs).2 hd) ((mem_ofList cs).2 hc) h

end ArtifactCache.Registry
