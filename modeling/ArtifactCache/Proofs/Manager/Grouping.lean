import ArtifactCache.Proofs.Manager.Origin

/-! The origins in a record, put together by file. Nothing is lost or added, and a file has a group
just if it is tracked. -/
namespace ArtifactCache

open Tracking (Record)

variable {r : Record} {keys origins : List String} {key name origin : String}

/-- The origins of a file among some keys, in the order of the keys. -/
def originsAmong (keys : List String) (name : String) : List String :=
  keys.filterMap fun key =>
    (Text.splitOnce '>' key).bind fun p => if p.1 = name then some p.2 else none

theorem origin_of_key_iff :
    ((Text.splitOnce '>' key).bind fun p => if p.1 = name then some p.2 else none) = some origin ↔
      key = entryKey name origin ∧ '>' ∉ name.toList := by
  rw [Option.bind_eq_some_iff]
  simp only [Prod.exists, Option.ite_none_right_eq_some, Option.some.injEq, splitOnce_mark_iff]
  constructor
  · rintro ⟨name, origin, ⟨rfl, hname⟩, rfl, rfl⟩
    exact ⟨rfl, hname⟩
  · rintro ⟨rfl, hname⟩
    exact ⟨name, origin, ⟨rfl, hname⟩, rfl, rfl⟩

theorem mem_originsAmong_iff :
    origin ∈ originsAmong keys name ↔ entryKey name origin ∈ keys ∧ '>' ∉ name.toList := by
  rw [originsAmong, List.mem_filterMap]
  simp only [origin_of_key_iff]
  constructor
  · rintro ⟨_, hkey, rfl, hname⟩
    exact ⟨hkey, hname⟩
  · rintro ⟨hkey, hname⟩
    exact ⟨_, hkey, rfl, hname⟩

/-- The keys of a file stand in the order in which they were. -/
theorem map_originsAmong_sublist (keys : List String) (name : String) :
    ((originsAmong keys name).map (entryKey name)).Sublist keys := by
  induction keys with
  | nil => exact .slnil
  | cons key keys ih =>
    rw [originsAmong, List.filterMap_cons]
    split
    · exact ih.cons key
    next origin horigin =>
      rw [List.map_cons, ← (origin_of_key_iff.1 horigin).1]
      exact ih.cons_cons key

/-- What adding a key does to the groups. -/
theorem get?_addOrigin (files : KeyMap (List String)) (key name : String) :
    (addOrigin files key).get? name =
      if originsAmong [key] name = [] then files.get? name
      else some ((files.get? name).getD [] ++ originsAmong [key] name) := by
  rw [addOrigin, originsAmong, List.filterMap_cons, List.filterMap_nil]
  cases hkey : Text.splitOnce '>' key with
  | none => simp
  | some p =>
    by_cases hname : p.1 = name
    · simp [hname]
    · simp [hname, Ne.symm hname, KeyMap.get?_insert]

/-- The group of a file has the origins of that file; there is none without any. -/
theorem get?_foldl_addOrigin (keys : List String) (name : String) :
    (keys.foldl addOrigin .empty).get? name =
      if originsAmong keys name = [] then none else some (originsAmong keys name) := by
  induction keys using List.reverseRecOn with
  | nil => rfl
  | append_singleton keys key ih =>
    have happend : originsAmong (keys ++ [key]) name =
        originsAmong keys name ++ originsAmong [key] name := List.filterMap_append
    rw [List.foldl_append, List.foldl_cons, List.foldl_nil, get?_addOrigin, ih, happend]
    by_cases hkey : originsAmong [key] name = []
    · simp [hkey]
    · by_cases hkeys : originsAmong keys name = []
      · simp [hkey, hkeys]
      · simp [hkey, hkeys]

theorem mem_originsByFile_iff : (name, origins) ∈ (originsByFile r).entries ↔
    origins = originsAmong r.keys name ∧ origins ≠ [] := by
  rw [KeyMap.mem_entries_iff, originsByFile, get?_foldl_addOrigin]
  split
  next hnil =>
    refine iff_of_false nofun ?_
    rintro ⟨rfl, hne⟩
    exact hne hnil
  next hne =>
    rw [Option.some.injEq]
    constructor
    · rintro rfl
      exact ⟨rfl, hne⟩
    · rintro ⟨rfl, -⟩
      rfl

/-- The keys of a record, group by group. -/
def keysByFile (files : KeyMap (List String)) : List String :=
  files.entries.flatMap fun e => e.2.map (entryKey e.1)

theorem mem_keysByFile_iff :
    key ∈ keysByFile (originsByFile r) ↔ key ∈ r.keys ∧ '>' ∈ key.toList := by
  rw [keysByFile, List.mem_flatMap]
  constructor
  · rintro ⟨⟨name, origins⟩, he, hkey⟩
    obtain ⟨origin, horigin, rfl⟩ := List.mem_map.1 hkey
    rw [(mem_originsByFile_iff.1 he).1] at horigin
    exact ⟨(mem_originsAmong_iff.1 horigin).1, by simp [toList_entryKey]⟩
  · rintro ⟨hkey, hmark⟩
    obtain ⟨name, origin, hcut, hname⟩ := List.eq_append_cons_of_mem hmark
    have heq : key = entryKey (String.ofList name) (String.ofList origin) :=
      String.toList_inj.1 (by simp [toList_entryKey, hcut])
    have hmem : String.ofList origin ∈ originsAmong r.keys (String.ofList name) :=
      mem_originsAmong_iff.2 ⟨heq ▸ hkey, by simpa using hname⟩
    refine ⟨(_, _), mem_originsByFile_iff.2 ⟨rfl, List.ne_nil_of_mem hmem⟩, ?_⟩
    rw [heq]
    exact List.mem_map_of_mem hmem

theorem nodup_keysByFile (r : Record) : (keysByFile (originsByFile r)).Nodup := by
  rw [keysByFile, List.nodup_flatMap]
  constructor
  · rintro ⟨name, origins⟩ he
    rw [(mem_originsByFile_iff.1 he).1]
    exact (map_originsAmong_sublist r.keys name).nodup r.nodup_keys
  · refine (originsByFile r).sorted.imp_of_mem ?_
    rintro ⟨name, origins⟩ ⟨name', origins'⟩ he he' hlt key hkey hkey'
    obtain ⟨origin, horigin, rfl⟩ := List.mem_map.1 hkey
    obtain ⟨origin', horigin', heq⟩ := List.mem_map.1 hkey'
    rw [(mem_originsByFile_iff.1 he).1] at horigin
    rw [(mem_originsByFile_iff.1 he').1] at horigin'
    have hname := (entryKey_inj (mem_originsAmong_iff.1 horigin).2
      (mem_originsAmong_iff.1 horigin').2 heq.symm).1
    exact String.ne_of_lt hlt hname

theorem mem_group_iff (hname : '>' ∉ name.toList) (origin : String) :
    origin ∈ ((originsByFile r).get? name).getD [] ↔ r.contains (entryKey name origin) = true := by
  have hgroup : ((originsByFile r).get? name).getD [] = originsAmong r.keys name := by
    rw [originsByFile, get?_foldl_addOrigin]
    by_cases hnil : originsAmong r.keys name = []
    · simp [hnil]
    · simp [hnil]
  rw [hgroup, mem_originsAmong_iff, KeyMap.contains, KeyMap.get?_isSome_iff_mem_keys]
  exact and_iff_left hname

theorem mem_keys_originsByFile_iff :
    name ∈ (originsByFile r).keys ↔ '>' ∉ name.toList ∧ isTracked r name = true := by
  rw [← KeyMap.get?_isSome_iff_mem_keys, originsByFile, get?_foldl_addOrigin, isTracked_iff]
  constructor
  · intro h
    split at h
    · cases h
    next hne =>
      obtain ⟨origin, horigin⟩ := List.exists_mem_of_ne_nil _ hne
      obtain ⟨hkey, hname⟩ := mem_originsAmong_iff.1 horigin
      exact ⟨hname, origin, hkey⟩
  · rintro ⟨hname, origin, horigin⟩
    rw [if_neg (List.ne_nil_of_mem (mem_originsAmong_iff.2 ⟨horigin, hname⟩))]
    rfl

/-- What it means that the origins in a record are put together by file: every key with a mark is in
one group, once, and nothing else is; the keys of a group are in order; the group of a file has the
origins that the record holds for it, and the files are those that are tracked. -/
structure Grouped (r : Record) (files : KeyMap (List String)) : Prop where
  nodup : (keysByFile files).Nodup
  mem : ∀ key, key ∈ keysByFile files ↔ key ∈ r.keys ∧ '>' ∈ key.toList
  ordered : ∀ e ∈ files.entries, (e.2.map (entryKey e.1)).Sublist r.keys
  origins : ∀ name, '>' ∉ name.toList → ∀ origin,
    origin ∈ (files.get? name).getD [] ↔ r.contains (entryKey name origin) = true
  names : ∀ name, name ∈ files.keys ↔ '>' ∉ name.toList ∧ isTracked r name = true

theorem grouped_originsByFile (r : Record) : Grouped r (originsByFile r) where
  nodup := nodup_keysByFile r
  mem _ := mem_keysByFile_iff
  ordered := by
    rintro ⟨name, origins⟩ he
    rw [(mem_originsByFile_iff.1 he).1]
    exact map_originsAmong_sublist r.keys name
  origins _ hname := mem_group_iff hname
  names _ := mem_keys_originsByFile_iff

end ArtifactCache
