import ArtifactCache.Proofs.KeyMap
import ArtifactCache.Proofs.Result
import ArtifactCache.Proofs.Tracking.Syntax
import ArtifactCache.Tracking.Format

/-! What a tracking file that was written is read as. Every record that is read has trimmed keys and
values, and of the trimmed entries those come back that name no section and hold no vertical tab and
no form feed. -/
namespace ArtifactCache.Tracking

open Text (isBlank strip)

variable {s t : Reading} {c : Cursor} {next : Cursor} {x : Char} {seen rest text : List Char}
  {r m : Record} {key value : String} {es : List (String × String)}

/-- An entry without blanks at the ends of its key and its value, and with a key at all. -/
structure Trimmed (key value : String) : Prop where
  key_ne : key ≠ ""
  key_trim : Text.trim key = key
  value_trim : Text.trim value = value

/-- What reading one thing does to what has been understood. -/
inductive Effect (s : Reading) : Reading → Prop
  | keep : Effect s s
  | openSection : Effect s { s with inSection := true }
  | key (text : List Char) : Effect s { s with pending := strip isBlank text }
  | value (text : List Char) (h : s.pending ≠ []) : Effect s { s with
      pending := []
      record := if s.inSection then s.record
        else s.record.insert (String.ofList s.pending) (String.ofList (strip isBlank text)) }

theorem readSection_effect (h : readSection s seen rest = .ok (t, c)) : Effect s t := by
  obtain ⟨p, -, hp⟩ := Result.bind_eq_ok.1 h
  cases hp
  exact .openSection

theorem readKey_effect (h : readKey s seen rest = .ok (t, c)) : Effect s t := by
  obtain ⟨p, -, hp⟩ := Result.bind_eq_ok.1 h
  cases hp
  exact .key p.1

theorem readValue_effect (hs : s.pending ≠ []) (h : readValue s seen rest = .ok (t, c)) :
    Effect s t := by
  obtain ⟨p, -, hp⟩ := Result.bind_eq_ok.1 h
  cases hp
  exact .value p.1 hs

theorem toLine_map_eq {e : Except Failure (Reading × Cursor)} (h : toLine <$> e = .ok (t, next)) :
    ∃ c, e = .ok (t, c) := by
  obtain ⟨p, hp, hline⟩ := Result.map_eq_ok.1 h
  cases hline
  exact ⟨p.2, hp⟩

theorem readIndented_effect (h : readIndented s c = .ok (t, next)) : Effect s t := by
  unfold readIndented at h
  split at h
  · obtain ⟨c', hc⟩ := toLine_map_eq h
    exact readSection_effect hc
  · cases h
    exact .keep
  · cases h
    exact .keep
  · split at h
    · rename_i p hp
      cases h
      exact readKey_effect (c := p.2) hp
    · cases h
      exact .keep

theorem readItem_effect (h : readItem s seen x rest = .ok (t, next)) : Effect s t := by
  unfold readItem at h
  split at h
  · split at h
    · cases h
      exact .keep
    · cases h
  split at h
  · obtain ⟨c, hc⟩ := toLine_map_eq h
    exact readSection_effect hc
  split at h
  · split at h
    · cases h
    · rename_i hs
      obtain ⟨c, hc⟩ := toLine_map_eq h
      exact readValue_effect hs hc
  split at h
  · exact readIndented_effect h
  split at h
  · cases h
    exact .keep
  · obtain ⟨c, hc⟩ := toLine_map_eq h
    exact readKey_effect hc

theorem readItems_nil (s : Reading) (seen : List Char) : readItems s ⟨seen, []⟩ = .ok s.record := by
  rw [readItems]

theorem readItems_cons (h : readItem s seen x rest = .ok (t, next)) :
    readItems s ⟨seen, x :: rest⟩ = readItems t next := by
  rw [readItems]
  simp only
  split
  · rename_i hf
    rw [hf] at h
    cases h
  · rename_i hok
    rw [hok] at h
    cases h
    rfl

/-- What every item keeps still holds at the end. -/
theorem readItems_run {I : Reading → Prop} (hI : ∀ s t, Effect s t → I s → I t) (hs : I s)
    (h : readItems s c = .ok m) : ∃ t, I t ∧ t.record = m := by
  fun_induction readItems s c with
  | case1 => exact ⟨_, hs, Except.ok.inj h⟩
  | case2 => cases h
  | case3 _ _ _ _ _ _ _ hitem _ ih => exact ih (hI _ _ (readItem_effect hitem) hs) h

/-- What has been understood is trimmed. -/
structure Neat (s : Reading) : Prop where
  pending : strip isBlank s.pending = s.pending
  record : ∀ k v, s.record.get? k = some v → Trimmed k v

theorem neat_step (h : Effect s t) (hs : Neat s) : Neat t := by
  cases h with
  | keep => exact hs
  | openSection => exact ⟨hs.pending, hs.record⟩
  | key text => exact ⟨Text.strip_strip _ _, hs.record⟩
  | value text hp =>
    refine ⟨rfl, ?_⟩
    intro k v hk
    by_cases hsec : s.inSection = true
    · simp only [hsec, if_true] at hk
      exact hs.record k v hk
    · simp only [hsec, Bool.false_eq_true, if_false, KeyMap.get?_insert] at hk
      split at hk
      · rename_i hkey
        cases hk
        rw [hkey]
        refine ⟨by simpa using hp, ?_, ?_⟩
        · simp [Text.trim, hs.pending]
        · simp [Text.trim, Text.strip_strip]
      · exact hs.record k v hk

/-- The entries of a tracking file are trimmed, whatever it looks like. -/
theorem parse_trimmed (h : parse text = .ok m) (hk : m.get? key = some value) :
    Trimmed key value := by
  unfold parse at h
  split at h
  · cases h
    cases hk
  · obtain ⟨t, ht, rfl⟩ := readItems_run (fun s t => neat_step)
      ⟨rfl, fun _ _ hk => by cases hk⟩ h
    exact ht.record key value hk

/-- Nothing is recorded once a section was opened. -/
theorem readItems_inSection (hs : s.inSection = true) (h : readItems s c = .ok m) :
    m = s.record := by
  have hstep : ∀ t u, Effect t u → t.inSection = true ∧ t.record = s.record →
      u.inSection = true ∧ u.record = s.record := by
    rintro t u htu ⟨hsec, hrec⟩
    cases htu with
    | keep => exact ⟨hsec, hrec⟩
    | openSection => exact ⟨rfl, hrec⟩
    | key => exact ⟨hsec, hrec⟩
    | value => simp [hsec, hrec]
  obtain ⟨t, ⟨-, ht⟩, rfl⟩ := readItems_run hstep ⟨hs, rfl⟩ h
  exact ht

end ArtifactCache.Tracking
