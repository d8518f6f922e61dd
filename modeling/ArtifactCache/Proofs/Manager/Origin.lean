import ArtifactCache.Proofs.Manager.Ledger

/-! Origins as keys of a record. A record that holds the origins of a directory says the same of each
file in it as the ledger does. -/
namespace ArtifactCache

open Tracking (Record Storable Legible)

variable {r : Record} {l : Ledger} {q : Manager.Request} {file name origin origin' rel : String}
  {directory : List String} {cs ds es fs : List Char}

theorem takeWhile_mark (h : '>' ∉ cs) (es : List Char) :
    (cs ++ '>' :: es).takeWhile (· ≠ '>') = cs := by
  rw [List.takeWhile_append_of_pos, List.takeWhile_cons_of_neg (by simp), List.append_nil]
  intro c hc
  have : c ≠ '>' := by
    rintro rfl
    exact h hc
  simpa using this

theorem toList_entryKey (name origin : String) :
    (entryKey name origin).toList = name.toList ++ '>' :: origin.toList := by
  simp [entryKey]

theorem startsWith_entryKey_self (name origin : String) :
    Text.startsWith (entryKey name origin) (name ++ ">") = true := by
  rw [Text.startsWith, List.isPrefixOf_iff_prefix, toList_entryKey]
  exact ⟨origin.toList, by simp⟩

theorem splitOnce_mark_iff {key : String} :
    Text.splitOnce '>' key = some (name, origin) ↔ key = entryKey name origin ∧ '>' ∉ name.toList :=
  Text.splitOnce_eq_some_iff

/-- A file is tracked when a record has a key of it. -/
theorem isTracked_iff : isTracked r name = true ↔ ∃ origin, entryKey name origin ∈ r.keys := by
  rw [isTracked, List.any_eq_true]
  constructor
  · rintro ⟨key, hkey, hstarts⟩
    rw [Text.startsWith, List.isPrefixOf_iff_prefix] at hstarts
    obtain ⟨rest, hrest⟩ := hstarts
    have heq : key = entryKey name (String.ofList rest) :=
      String.toList_inj.1 (by simp [toList_entryKey, ← hrest])
    exact ⟨_, heq ▸ hkey⟩
  · rintro ⟨origin, hkey⟩
    exact ⟨_, hkey, startsWith_entryKey_self name origin⟩

/-- Only a file that is not tracked is treated as one. -/
theorem Verdict.ofRecord_eq_untracked_iff {context : String}
    {repositories : List RemoteRepository} :
    Verdict.ofRecord r name context repositories = .untracked ↔ isTracked r name = false := by
  constructor
  · intro h
    rw [ofRecord] at h
    split at h
    · cases h
    · split at h
      · cases h
      · split at h
        next => cases h
        next htracked => simpa using htracked
  · intro h
    have hnone : ∀ origin, r.contains (entryKey name origin) = false := by
      intro origin
      rw [Bool.eq_false_iff]
      intro hkey
      have htracked := isTracked_iff.2 ⟨origin, (KeyMap.get?_isSome_iff_mem_keys r).1 hkey⟩
      rw [h] at htracked
      cases htracked
    have hsource : source? r name context repositories = none := by
      rw [source?, List.find?_eq_none]
      intro s _
      rw [hnone]
      exact Bool.false_ne_true
    rw [ofRecord, hnone, hsource, h]
    rfl

theorem head_entryKey (name origin origin' : String) :
    (entryKey name origin).toList.head? = (entryKey name origin').toList.head? := by
  rw [toList_entryKey, toList_entryKey]
  cases name.toList <;> rfl

/-- The keys of a file begin with the same character. -/
theorem legible_entryKey {value : String} (h : Legible (entryKey name origin) value)
    (origin' : String) : Legible (entryKey name origin') "" := by
  obtain ⟨c, hc, hblank⟩ := h.head
  exact ⟨⟨c, (head_entryKey name origin' origin).trans hc, hblank⟩, rfl⟩

/-- A key begins with a file and a mark just when it is about that file. -/
theorem startsWith_entryKey (hfile : '>' ∉ file.toList) (hname : '>' ∉ name.toList) :
    Text.startsWith (entryKey name origin) (file ++ ">") = true ↔ name = file := by
  rw [Text.startsWith, List.isPrefixOf_iff_prefix, toList_entryKey]
  constructor
  · rintro ⟨rest, hrest⟩
    have hcut : file.toList ++ '>' :: rest = name.toList ++ '>' :: origin.toList := by
      simpa using hrest
    have := congrArg (List.takeWhile (· ≠ '>')) hcut
    rw [takeWhile_mark hfile, takeWhile_mark hname] at this
    exact (String.toList_inj.1 this).symm
  · rintro rfl
    exact ⟨origin.toList, by simp⟩

theorem entryKey_inj (hfile : '>' ∉ file.toList) (hname : '>' ∉ name.toList)
    (h : entryKey file origin = entryKey name origin') : file = name ∧ origin = origin' := by
  have hcut := congrArg String.toList h
  rw [toList_entryKey, toList_entryKey] at hcut
  have hfirst := congrArg (List.takeWhile (· ≠ '>')) hcut
  rw [takeWhile_mark hfile, takeWhile_mark hname] at hfirst
  rw [hfirst] at hcut
  have hrest := List.append_cancel_left hcut
  exact ⟨String.toList_inj.1 hfirst, String.toList_inj.1 (List.cons.inj hrest).2⟩

/-- Whether a record holds the origins of the files in a directory, in entries that are read as they
are written. -/
structure Holds (l : Ledger) (directory : List String) (r : Record) : Prop where
  storable : ∀ e ∈ r.entries, Storable e.1 e.2
  contains : ∀ key, r.contains key = true ↔
    ∃ name origin, key = entryKey name origin ∧ (directory, name, origin) ∈ l.origins

/-- Whether no name of a file in a ledger holds the mark between it and its origin. -/
def Ledger.Unmarked (l : Ledger) : Prop := ∀ t ∈ l.origins, '>' ∉ t.2.1.toList

theorem Holds.contains_entryKey (h : Holds l directory r) (hl : l.Unmarked)
    (hfile : '>' ∉ file.toList) (origin : String) :
    r.contains (entryKey file origin) = decide ((directory, file, origin) ∈ l.origins) := by
  rw [Bool.eq_iff_iff, h.contains, decide_eq_true_iff]
  constructor
  · rintro ⟨name, origin', hkey, hmem⟩
    obtain ⟨rfl, rfl⟩ := entryKey_inj hfile (hl _ hmem) hkey
    exact hmem
  · intro hmem
    exact ⟨file, origin, rfl, hmem⟩

theorem Holds.tracks (h : Holds l directory r) (hl : l.Unmarked) (hfile : '>' ∉ file.toList) :
    isTracked r file = true ↔ ∃ t ∈ l.origins, t.1 = directory ∧ t.2.1 = file := by
  have hkeys : ∀ origin, entryKey file origin ∈ r.keys ↔ (directory, file, origin) ∈ l.origins := by
    intro origin
    rw [← KeyMap.get?_isSome_iff_mem_keys, ← KeyMap.contains, h.contains_entryKey hl hfile,
      decide_eq_true_iff]
  simp only [isTracked_iff, hkeys]
  constructor
  · rintro ⟨origin, hmem⟩
    exact ⟨_, hmem, rfl, rfl⟩
  · rintro ⟨⟨_, _, origin⟩, hmem, rfl, rfl⟩
    exact ⟨origin, hmem⟩

/-- A record says of a file what the ledger says. -/
theorem Holds.verdict (h : Holds l (directoryOf rel) r) (hl : l.Unmarked)
    (hfile : '>' ∉ (nameOf rel).toList) :
    Verdict.ofRecord r (nameOf rel) q.context q.repositories = l.verdict q rel := by
  have hsource : (fun s : RemoteRepository => r.contains (entryKey (nameOf rel) (s.key q.context))) =
      fun s => decide ((directoryOf rel, nameOf rel, s.key q.context) ∈ l.origins) := by
    funext s
    exact h.contains_entryKey hl hfile _
  have htracked : isTracked r (nameOf rel) =
      decide (∃ t ∈ l.origins, t.1 = directoryOf rel ∧ t.2.1 = nameOf rel) := by
    rw [Bool.eq_iff_iff, h.tracks hl hfile, decide_eq_true_iff]
  rw [Verdict.ofRecord, Ledger.verdict, Verdict.source?, hsource, installedOrigin,
    h.contains_entryKey hl hfile, htracked]
  generalize q.repositories.find? (fun s =>
    decide ((directoryOf rel, nameOf rel, s.key q.context) ∈ l.origins)) = found
  cases found with
  | none => simp only [decide_eq_true_eq]
  | some s => simp only [decide_eq_true_eq]

end ArtifactCache
