import ArtifactCache.Proofs.Tracking.RoundTrip

/-! Exactly which records come back from their text. Blanks at an end, an empty key, a bracket before a
key and two characters keep an entry from coming back; between others every other character may stand. -/
namespace ArtifactCache.Tracking

open Text (isBlank strip)

variable {c : Char} {cs ds : List Char} {key value : String} {m : Record}

/-- Whether a text comes back from where a value stands. -/
structure Survives (text : String) : Prop where
  trim : Text.trim text = text
  unfed : Unfed text.toList

/-- Whether a text comes back from where a key stands. -/
structure SurvivesAsKey (key : String) : Prop extends Survives key where
  ne_empty : key ≠ ""
  head : key.toList.head? ≠ some '['

theorem storable_iff : Storable key value ↔ SurvivesAsKey key ∧ Survives value := by
  constructor
  · rintro ⟨⟨hne, hkey, hvalue⟩, hhead, hkeyUnfed, hvalueUnfed⟩
    exact ⟨⟨⟨hkey, hkeyUnfed⟩, hne, hhead⟩, hvalue, hvalueUnfed⟩
  · rintro ⟨⟨⟨hkey, hkeyUnfed⟩, hne, hhead⟩, hvalue, hvalueUnfed⟩
    exact ⟨⟨hne, hkey, hvalue⟩, hhead, hkeyUnfed, hvalueUnfed⟩

/-- Only the ends of a text decide whether it is trimmed. -/
theorem trim_iff_ends {s : String} : Text.trim s = s ↔
    (∀ c, s.toList.head? = some c → isBlank c = false) ∧
      ∀ c, s.toList.getLast? = some c → isBlank c = false := by
  rw [← Text.strip_eq_self_iff]
  constructor
  · exact strip_of_trim
  · intro h
    rw [Text.trim, h, String.ofList_toList]

/-- A text that comes back does so with any other character between two of its own. -/
theorem Survives.between (h : Survives (String.ofList (cs ++ ds))) (hcs : cs ≠ []) (hds : ds ≠ [])
    (hv : c ≠ '\x0b') (hf : c ≠ '\x0c') : Survives (String.ofList (cs ++ c :: ds)) := by
  obtain ⟨htrim, hunfed⟩ := h
  rw [trim_iff_ends, String.toList_ofList, List.head?_append_of_ne_nil _ hcs,
    List.getLast?_append_of_ne_nil _ hds] at htrim
  rw [String.toList_ofList] at hunfed
  refine ⟨?_, ?_⟩
  · rw [trim_iff_ends, String.toList_ofList, List.head?_append_of_ne_nil _ hcs,
      List.getLast?_append_of_ne_nil _ (List.cons_ne_nil c ds), List.getLast?_cons_of_ne_nil hds]
    exact htrim
  · rw [String.toList_ofList]
    simp only [Unfed, List.mem_append, List.mem_cons, not_or] at hunfed ⊢
    exact ⟨⟨hunfed.1.1, hv.symm, hunfed.1.2⟩, hunfed.2.1, hf.symm, hunfed.2.2⟩

theorem SurvivesAsKey.between (h : SurvivesAsKey (String.ofList (cs ++ ds))) (hcs : cs ≠ [])
    (hds : ds ≠ []) (hv : c ≠ '\x0b') (hf : c ≠ '\x0c') :
    SurvivesAsKey (String.ofList (cs ++ c :: ds)) := by
  have hhead := h.head
  rw [String.toList_ofList, List.head?_append_of_ne_nil _ hcs] at hhead
  refine ⟨h.toSurvives.between hcs hds hv hf, by simp, ?_⟩
  rwa [String.toList_ofList, List.head?_append_of_ne_nil _ hcs]

theorem parse_render_survives :
    parse (render m) = .ok m ↔ (∀ key ∈ m.keys, SurvivesAsKey key) ∧
      ∀ key value, m.get? key = some value → Survives value := by
  rw [parse_render_iff]
  constructor
  · intro h
    refine ⟨?_, ?_⟩
    · intro key hkey
      obtain ⟨e, he, rfl⟩ := List.mem_map.1 hkey
      exact (storable_iff.1 (h e he)).1
    · intro key value hvalue
      exact (storable_iff.1 (h (key, value) ((KeyMap.mem_entries_iff m).2 hvalue))).2
  · rintro ⟨hkeys, hvalues⟩ ⟨key, value⟩ he
    exact storable_iff.2 ⟨hkeys key (List.mem_map_of_mem he),
      hvalues key value ((KeyMap.mem_entries_iff m).1 he)⟩

/-- A record that comes back does so with another entry that does. -/
theorem parse_render_insert (h : parse (render m) = .ok m) (hkey : SurvivesAsKey key)
    (hvalue : Survives value) :
    parse (render (m.insert key value)) = .ok (m.insert key value) := by
  rw [parse_render_iff] at h ⊢
  intro e he
  rcases KeyMap.mem_put he with rfl | he
  · exact storable_iff.2 ⟨hkey, hvalue⟩
  · exact h e he

/-- A record comes back from its text just when all of its keys and values do. Any character but the
vertical tab and the form feed may then be put between two others in a key or in a value. -/
theorem parse_render_exactly (m : Record) :
    (parse (render m) = .ok m ↔ (∀ key ∈ m.keys, SurvivesAsKey key) ∧
      ∀ key value, m.get? key = some value → Survives value) ∧
    (parse (render m) = .ok m → ∀ cs ds : List Char, cs ≠ [] → ds ≠ [] →
      ∀ c, c ≠ '\x0b' → c ≠ '\x0c' →
        (∀ value, m.get? (String.ofList (cs ++ ds)) = some value →
          parse (render (m.insert (String.ofList (cs ++ c :: ds)) value)) =
            .ok (m.insert (String.ofList (cs ++ c :: ds)) value)) ∧
        ∀ key, m.get? key = some (String.ofList (cs ++ ds)) →
          parse (render (m.insert key (String.ofList (cs ++ c :: ds)))) =
            .ok (m.insert key (String.ofList (cs ++ c :: ds)))) := by
  refine ⟨parse_render_survives, ?_⟩
  intro h cs ds hcs hds c hv hf
  obtain ⟨hkeys, hvalues⟩ := parse_render_survives.1 h
  have hkey : ∀ key value, m.get? key = some value → SurvivesAsKey key := by
    intro key value hget
    exact hkeys key ((KeyMap.get?_isSome_iff_mem_keys m).1 (by rw [hget]; rfl))
  refine ⟨?_, ?_⟩
  · intro value hget
    exact parse_render_insert h ((hkey _ _ hget).between hcs hds hv hf) (hvalues _ _ hget)
  · intro key hget
    exact parse_render_insert h (hkey _ _ hget) ((hvalues _ _ hget).between hcs hds hv hf)

/-- Marks of the format, quotes, blanks and characters that cannot be printed, each in the middle of a
key and of a value. -/
theorem parse_render_exactly_marks :
    let m : Record := .ofList [("a>b", "xy")]
    parse (render m) = .ok m ∧
      ∀ c ∈ ['=', ':', ';', '#', '[', ']', '\\', '"', ' ', '\n', '\r', '\t', '\x00', '\x1b', '\x7f'],
        parse (render (m.insert (String.ofList (['a'] ++ c :: ['>', 'b'])) "xy")) =
          .ok (m.insert (String.ofList (['a'] ++ c :: ['>', 'b'])) "xy") ∧
        parse (render (m.insert "a>b" (String.ofList (['x'] ++ c :: ['y'])))) =
          .ok (m.insert "a>b" (String.ofList (['x'] ++ c :: ['y']))) := by
  intro m
  have h : parse (render m) = .ok m := parse_render_iff.2 (by decide)
  refine ⟨h, ?_⟩
  intro c hc
  have hplain : c ≠ '\x0b' ∧ c ≠ '\x0c' := by
    constructor
    · rintro rfl
      exact absurd hc (by decide)
    · rintro rfl
      exact absurd hc (by decide)
  obtain ⟨-, hbetween⟩ := parse_render_exactly m
  have hinner := fun cs ds hcs hds => hbetween h cs ds hcs hds c hplain.1 hplain.2
  refine ⟨?_, ?_⟩
  · exact (hinner ['a'] ['>', 'b'] (by simp) (by simp)).1 "xy" (by decide)
  · exact (hinner ['x'] ['y'] (by simp) (by simp)).2 "a>b" (by decide)

end ArtifactCache.Tracking
