import ArtifactCache.KeyMap
import ArtifactCache.Proofs.Lookup
import Mathlib.Tactic.ByContra

/-! A map seen through its look-ups: what insertion and removal do to them, what a run of changes
under different keys adds up to, and how many values have a property. -/
namespace ArtifactCache.KeyMap

open Lookup (lookup_cons_eq lookup_filter_ne)

variable {β γ : Type} {m n : KeyMap β} {k j : String} {v w : β} {es : List (String × β)}

theorem lookup_eq_none_of_lt (h : ∀ x ∈ es, k < x.1) : es.lookup k = none := by
  rw [List.lookup_eq_none_iff]
  intro x hx
  simpa using String.ne_of_lt (h x hx)

theorem lookup_cons_eq_none_of_lt {e : String × β} (hk : k < e.1) (he : ∀ x ∈ es, e.1 < x.1) :
    (e :: es).lookup k = none := by
  apply lookup_eq_none_of_lt
  intro x hx
  rcases List.mem_cons.1 hx with rfl | hx
  · exact hk
  · exact String.lt_trans hk (he x hx)

theorem lookup_put (h : es.Pairwise (·.1 < ·.1)) (k j : String) (v : β) :
    (put k v es).lookup j = if j = k then some v else es.lookup j := by
  induction es with
  | nil => simp [put, lookup_cons_eq]
  | cons e es ih =>
    obtain ⟨he, hes⟩ := List.pairwise_cons.1 h
    simp only [put]
    split
    · rw [lookup_cons_eq]
    · split
      · rename_i hk
        subst hk
        simp only [lookup_cons_eq]
        by_cases hj : j = e.1 <;> simp [hj]
      · rename_i hk
        simp only [lookup_cons_eq, ih hes]
        by_cases hj : j = e.1
        · have hjk : j ≠ k := fun h => hk (h.symm.trans hj)
          simp [hj, hj ▸ hjk]
        · simp [hj]

@[simp] theorem get?_empty : (empty : KeyMap β).get? k = none := rfl

theorem get?_insert (m : KeyMap β) (k j : String) (v : β) :
    (m.insert k v).get? j = if j = k then some v else m.get? j :=
  lookup_put m.sorted k j v

@[simp] theorem get?_insert_self (m : KeyMap β) (k : String) (v : β) :
    (m.insert k v).get? k = some v := by simp [get?_insert]

theorem get?_erase (m : KeyMap β) (k j : String) :
    (m.erase k).get? j = if j = k then none else m.get? j :=
  lookup_filter_ne m.entries k j

theorem mem_entries_iff (m : KeyMap β) : (k, v) ∈ m.entries ↔ m.get? k = some v := by
  obtain ⟨es, h⟩ := m
  change (k, v) ∈ es ↔ es.lookup k = some v
  induction es with
  | nil => simp
  | cons e es ih =>
    obtain ⟨he, hes⟩ := List.pairwise_cons.1 h
    rw [List.mem_cons, lookup_cons_eq, ih hes]
    by_cases hk : k = e.1
    · have hn : es.lookup k = none := lookup_eq_none_of_lt (hk ▸ he)
      simp [hk ▸ hn, hk, Prod.ext_iff, eq_comm]
    · simp [hk, Prod.ext_iff]

theorem get?_isSome_iff_mem_keys (m : KeyMap β) : (m.get? k).isSome ↔ k ∈ m.keys := by
  simp only [Option.isSome_iff_exists, ← mem_entries_iff, keys, List.mem_map, Prod.exists]
  constructor
  · rintro ⟨v, hv⟩
    exact ⟨k, v, hv, rfl⟩
  · rintro ⟨a, v, hv, rfl⟩
    exact ⟨v, hv⟩

theorem nodup_keys (m : KeyMap β) : m.keys.Nodup :=
  List.pairwise_map.2 (m.sorted.imp String.ne_of_lt)

/-- Sorted lists with the same look-ups begin with the same key. -/
theorem head_eq_of_lookup {e f : String × β} {fs : List (String × β)} (he : ∀ x ∈ es, e.1 < x.1)
    (hf : ∀ x ∈ fs, f.1 < x.1) (h : ∀ k, (e :: es).lookup k = (f :: fs).lookup k) : e.1 = f.1 := by
  by_contra hne
  have htotal : e.1 < f.1 ∨ f.1 < e.1 := by
    by_contra hn
    rw [not_or, String.not_lt, String.not_lt] at hn
    exact hne (String.le_antisymm hn.2 hn.1)
  rcases htotal with hlt | hlt
  · have hn := lookup_cons_eq_none_of_lt hlt hf
    simp [← h e.1, lookup_cons_eq] at hn
  · have hn := lookup_cons_eq_none_of_lt hlt he
    simp [h f.1, lookup_cons_eq] at hn

/-- A sorted list is determined by its look-ups. -/
theorem entries_eq_of_lookup {es fs : List (String × β)} (hes : es.Pairwise (·.1 < ·.1))
    (hfs : fs.Pairwise (·.1 < ·.1)) (h : ∀ k, es.lookup k = fs.lookup k) : es = fs := by
  induction es generalizing fs with
  | nil =>
    cases fs with
    | nil => rfl
    | cons f fs => simpa [lookup_cons_eq] using h f.1
  | cons e es ih =>
    obtain ⟨he, hes⟩ := List.pairwise_cons.1 hes
    cases fs with
    | nil => simpa [lookup_cons_eq] using h e.1
    | cons f fs =>
      obtain ⟨hf, hfs⟩ := List.pairwise_cons.1 hfs
      have hkey := head_eq_of_lookup he hf h
      have hval : e.2 = f.2 := by
        simpa [lookup_cons_eq, hkey] using h e.1
      have htail : es = fs := by
        apply ih hes hfs
        intro k
        by_cases hk : k = e.1
        · rw [hk, lookup_eq_none_of_lt he, lookup_eq_none_of_lt (hkey ▸ hf)]
        · simpa [lookup_cons_eq, hk, ← hkey] using h k
      rw [htail, Prod.ext hkey hval]

theorem ext_get? (h : ∀ k, m.get? k = n.get? k) : m = n :=
  ext (entries_eq_of_lookup m.sorted n.sorted h)

/-- Changes under different keys do not disturb each other. -/
theorem get?_foldl {f : KeyMap β → String × γ → KeyMap β} {g : γ → Option β}
    (hf : ∀ m e j, (f m e).get? j = if j = e.1 then g e.2 else m.get? j)
    {cs : List (String × γ)} (hcs : cs.Pairwise (·.1 < ·.1)) (m : KeyMap β) (k : String) :
    (cs.foldl f m).get? k = ((cs.lookup k).map g).getD (m.get? k) := by
  induction cs generalizing m with
  | nil => simp
  | cons c cs ih =>
    obtain ⟨hc, hcs⟩ := List.pairwise_cons.1 hcs
    rw [List.foldl_cons, ih hcs, hf]
    by_cases hk : k = c.1
    · rw [hk, lookup_eq_none_of_lt hc]
      simp [lookup_cons_eq]
    · simp [lookup_cons_eq, hk]

theorem foldl_insert_entries (m : KeyMap β) :
    m.entries.foldl (fun m e => m.insert e.1 e.2) empty = m := by
  apply ext_get?
  intro k
  rw [get?_foldl (g := some) (fun m e j => get?_insert m e.1 j e.2) m.sorted]
  cases h : m.get? k with
  | none => simp [show m.entries.lookup k = none from h]
  | some v => simp [show m.entries.lookup k = some v from h]

/-- A map is made up of its entries in any order. -/
theorem foldl_insert_of_perm (h : es.Perm m.entries) :
    es.foldl (fun m e => m.insert e.1 e.2) empty = m := by
  refine (h.foldl_eq' ?_ empty).trans (foldl_insert_entries m)
  intro e he f hf n
  apply ext_get?
  intro k
  simp only [get?_insert]
  by_cases hkey : e.1 = f.1
  · have hvalue : some e.2 = some f.2 := by
      rw [← (mem_entries_iff m).1 (h.subset he), ← (mem_entries_iff m).1 (h.subset hf), hkey]
    rw [hkey, Option.some.inj hvalue]
  · by_cases hk : k = e.1
    · simp [hk, hkey]
    · simp [hk]

/-- Of several values under one key the last is kept; under a key that does not occur there is
none. -/
theorem get?_foldl_insert_of_forall {es : List (String × β)} (h : ∀ e ∈ es, e.2 = v)
    (m : KeyMap β) (k : String) :
    (es.foldl (fun m e => m.insert e.1 e.2) m).get? k =
      if k ∈ es.map (·.1) then some v else m.get? k := by
  induction es generalizing m with
  | nil => simp
  | cons e es ih =>
    rw [List.foldl_cons, ih (fun x hx => h x (List.mem_cons_of_mem _ hx)), get?_insert,
      h e List.mem_cons_self]
    by_cases hes : k ∈ es.map (·.1)
    · simp [hes]
    · simp [hes]

/-- How many values have a property. -/
def count (p : β → Bool) (m : KeyMap β) : Nat := m.entries.countP fun e => p e.2

/-- What an entry that may be missing adds to a count. -/
def weight (p : β → Bool) : Option β → Nat
  | none => 0
  | some v => if p v then 1 else 0

theorem countP_put (p : β → Bool) (h : es.Pairwise (·.1 < ·.1)) (k : String) (v : β) :
    (put k v es).countP (fun e => p e.2) + weight p (es.lookup k) =
      es.countP (fun e => p e.2) + weight p (some v) := by
  induction es with
  | nil => simp [put, weight, List.countP_cons]
  | cons e es ih =>
    obtain ⟨he, hes⟩ := List.pairwise_cons.1 h
    simp only [put]
    split
    · rename_i hk
      rw [lookup_cons_eq_none_of_lt hk he]
      simp [weight, List.countP_cons]
    · split
      · rename_i hk
        simp only [List.countP_cons, lookup_cons_eq, hk, if_true, weight]
        omega
      · rename_i hk
        have := ih hes
        simp only [List.countP_cons, lookup_cons_eq, hk, if_false]
        omega

theorem count_insert (p : β → Bool) (m : KeyMap β) (k : String) (v : β) :
    (m.insert k v).count p + weight p (m.get? k) = m.count p + weight p (some v) :=
  countP_put p m.sorted k v

theorem count_erase (p : β → Bool) (m : KeyMap β) (k : String) :
    (m.erase k).count p + weight p (m.get? k) = m.count p := by
  obtain ⟨es, h⟩ := m
  change (es.filter fun e => e.1 ≠ k).countP (fun e => p e.2) + weight p (es.lookup k) =
    es.countP fun e => p e.2
  induction es with
  | nil => simp [weight]
  | cons e es ih =>
    obtain ⟨he, hes⟩ := List.pairwise_cons.1 h
    by_cases hk : k = e.1
    · have hall : (es.filter fun x => decide (x.1 ≠ k)) = es := by
        rw [List.filter_eq_self]
        intro x hx
        simpa using Ne.symm (String.ne_of_lt (hk ▸ he x hx))
      rw [List.filter_cons_of_neg (by simp [hk]), hall, lookup_cons_eq, if_pos hk,
        List.countP_cons]
      rfl
    · rw [List.filter_cons_of_pos (by simpa using fun h => hk h.symm), lookup_cons_eq, if_neg hk,
        List.countP_cons, List.countP_cons, ← ih hes]
      omega

theorem count_pos_iff (p : β → Bool) (m : KeyMap β) :
    0 < m.count p ↔ ∃ k v, m.get? k = some v ∧ p v = true := by
  unfold count
  rw [List.countP_pos_iff]
  constructor
  · rintro ⟨⟨k, v⟩, he, hp⟩
    exact ⟨k, v, (mem_entries_iff m).1 he, hp⟩
  · rintro ⟨k, v, hk, hp⟩
    exact ⟨(k, v), (mem_entries_iff m).2 hk, hp⟩

theorem count_le_size (p : β → Bool) (m : KeyMap β) : m.count p ≤ m.size :=
  List.countP_le_length

end ArtifactCache.KeyMap
