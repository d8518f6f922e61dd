/-!
# Maps with text keys

A finite map from strings, kept as its entries in key order, so that two maps with the same
entries are equal.
-/

namespace ArtifactCache

/-- A finite map from strings; keys are compared by code points. -/
structure KeyMap (β : Type) where
  entries : List (String × β)
  sorted : entries.Pairwise (·.1 < ·.1)

namespace KeyMap

variable {β : Type}

@[ext] theorem ext {m n : KeyMap β} (h : m.entries = n.entries) : m = n := by
  cases m; cases n; simp_all

def empty : KeyMap β := ⟨[], .nil⟩

instance : Inhabited (KeyMap β) := ⟨empty⟩

instance [DecidableEq β] : DecidableEq (KeyMap β) := fun m n =>
  if h : m.entries = n.entries then isTrue (ext h) else isFalse fun e => h (e ▸ rfl)

/-- Puts an entry at its place in a sorted list, in the place of one with the same key. -/
def put (k : String) (v : β) : List (String × β) → List (String × β)
  | [] => [(k, v)]
  | e :: es =>
    if k < e.1 then (k, v) :: e :: es
    else if k = e.1 then (k, v) :: es
    else e :: put k v es

theorem mem_put {k : String} {v : β} {x : String × β} {es : List (String × β)}
    (h : x ∈ put k v es) : x = (k, v) ∨ x ∈ es := by
  induction es with
  | nil => simp_all [put]
  | cons e es ih =>
    simp only [put] at h
    split at h
    · simpa using h
    · split at h
      · simp at h; rcases h with h | h <;> simp [h]
      · simp at h
        rcases h with h | h
        · simp [h]
        · rcases ih h with h | h <;> simp [h]

theorem pairwise_put {k : String} {v : β} {es : List (String × β)}
    (h : es.Pairwise (·.1 < ·.1)) : (put k v es).Pairwise (·.1 < ·.1) := by
  induction es with
  | nil => simp [put]
  | cons e es ih =>
    obtain ⟨he, hes⟩ := List.pairwise_cons.1 h
    simp only [put]
    split
    · rename_i hk
      refine List.pairwise_cons.2 ⟨fun x hx => ?_, h⟩
      rcases List.mem_cons.1 hx with rfl | hx
      · exact hk
      · exact String.lt_trans hk (he x hx)
    · split
      · rename_i hk
        exact List.pairwise_cons.2 ⟨fun x hx => hk ▸ he x hx, hes⟩
      · rename_i hlt hne
        refine List.pairwise_cons.2 ⟨fun x hx => ?_, ih hes⟩
        rcases mem_put hx with rfl | hx
        · have hle : e.1 ≤ k := String.not_lt.1 hlt
          exact Classical.byContradiction fun hn => hne (String.le_antisymm (String.not_lt.1 hn) hle)
        · exact he x hx

/-- The map with `v` at `k`. -/
def insert (m : KeyMap β) (k : String) (v : β) : KeyMap β :=
  ⟨put k v m.entries, pairwise_put m.sorted⟩

/-- The map without the key `k`. -/
def erase (m : KeyMap β) (k : String) : KeyMap β :=
  ⟨m.entries.filter fun e => e.1 ≠ k, m.sorted.filter _⟩

/-- The value at `k`. -/
def get? (m : KeyMap β) (k : String) : Option β :=
  m.entries.lookup k

def contains (m : KeyMap β) (k : String) : Bool :=
  (m.get? k).isSome

def keys (m : KeyMap β) : List String :=
  m.entries.map (·.1)

def size (m : KeyMap β) : Nat :=
  m.entries.length

/-- The map of a list of entries; of several entries with one key the last counts. -/
def ofList (es : List (String × β)) : KeyMap β :=
  es.foldl (fun m e => m.insert e.1 e.2) empty

end KeyMap
end ArtifactCache
