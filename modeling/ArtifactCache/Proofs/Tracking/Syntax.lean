import ArtifactCache.Proofs.Text
import ArtifactCache.Tracking.Syntax
import Mathlib.Data.List.Basic

/-! How escaped texts are read. All characters come back but the vertical tab and the form feed:
their escapes are written, but they are read as the letters in them. -/
namespace ArtifactCache.Tracking

variable {stop : Stop} {c x : Char} {cs ds seen rest text w r : List Char} {place : Cursor}
  {f : Failure}

/-- A text without vertical tabs and form feeds. -/
def Unfed (cs : List Char) : Prop := '\x0b' ∉ cs ∧ '\x0c' ∉ cs

instance (cs : List Char) : Decidable (Unfed cs) := inferInstanceAs (Decidable (_ ∧ _))

/-- What is read as a unit, and what it stands for. -/
inductive Token : List Char → List Char → Prop
  | plain {c : Char} (hc : c ≠ '\\') : Token [c] [c]
  | pair {c : Char} (hc : c ≠ 'x') : Token ['\\', c] (unescapeChar c)
  | code {a b c d x : Char} (hx : charOfCode? [a, b, c, d] = some x) :
    Token ['\\', 'x', a, b, c, d] [x]

theorem readText_token (h : Token w r) (hstop : ∀ c, w = [c] → stop.accepts c = false)
    (seen rest : List Char) : readText stop seen (w ++ rest) =
      (readText stop (w.reverse ++ seen) rest).map fun p => (r ++ p.1, p.2) := by
  cases h with
  | @plain c hc =>
    change readText stop seen (c :: rest) = (readText stop (c :: seen) rest).map _
    rw [readText]
    · rw [if_neg (by simp [hstop c rfl])]
      cases readText stop (c :: seen) rest <;> rfl
    all_goals simp_all
  | @pair c hc =>
    change readText stop seen ('\\' :: c :: rest) = (readText stop (c :: '\\' :: seen) rest).map _
    rw [readText]
    · rw [if_neg hc]
      cases readText stop (c :: '\\' :: seen) rest <;> rfl
    all_goals simp_all
  | @code a b c d x hx =>
    change readText stop seen ('\\' :: 'x' :: a :: b :: c :: d :: rest) =
      (readText stop (d :: c :: b :: a :: 'x' :: '\\' :: seen) rest).map _
    rw [readText, hx]
    cases readText stop (d :: c :: b :: a :: 'x' :: '\\' :: seen) rest <;> rfl

theorem readText_accepts (hc : c ≠ '\\') (h : stop.accepts c = true) (seen rest : List Char) :
    readText stop seen (c :: rest) = .ok ([], ⟨seen, c :: rest⟩) := by
  rw [readText]
  · rw [if_pos h]
  all_goals simp_all

/-- What the written form of a character is read as. -/
def readBack (c : Char) : Char :=
  if c = '\x0b' then 'v' else if c = '\x0c' then 'f' else c

theorem readBack_eq_self (hv : c ≠ '\x0b') (hf : c ≠ '\x0c') : readBack c = c := by
  simp [readBack, hv, hf]

theorem unfed_map_readBack (cs : List Char) : Unfed (cs.map readBack) := by
  have hne : ∀ c, readBack c ≠ '\x0b' ∧ readBack c ≠ '\x0c' := by
    intro c
    by_cases hv : c = '\x0b'
    · subst hv
      decide
    · by_cases hf : c = '\x0c'
      · subst hf
        decide
      · rw [readBack_eq_self hv hf]
        exact ⟨hv, hf⟩
  constructor
  · intro hmem
    obtain ⟨c, -, hc⟩ := List.mem_map.1 hmem
    exact (hne c).1 hc
  · intro hmem
    obtain ⟨c, -, hc⟩ := List.mem_map.1 hmem
    exact (hne c).2 hc

theorem map_readBack (h : Unfed cs) : cs.map readBack = cs := by
  have hid : ∀ c ∈ cs, readBack c = id c := by
    intro c hc
    apply readBack_eq_self
    · rintro rfl
      exact h.1 hc
    · rintro rfl
      exact h.2 hc
  rw [List.map_congr_left hid, List.map_id]

theorem charOfCode?_hex (hc : c.toNat < 32 ∨ c = '\x7f') :
    (Text.hex 4 c.toNat).toList.length = 4 ∧
      charOfCode? (Text.hex 4 c.toNat).toList = some c := by
  rcases hc with hlow | rfl
  · have hall : ∀ n < 32, (Text.hex 4 n).toList.length = 4 ∧
        charOfCode? (Text.hex 4 n).toList = some (Char.ofNat n) := by decide
    have := hall c.toNat hlow
    rwa [Char.ofNat_toNat] at this
  · decide

theorem escapeChar_token (c : Char) : Token (escapeChar c) [readBack c] := by
  by_cases hr : reserved c = true
  · simp only [reserved, Bool.or_eq_true, decide_eq_true_eq] at hr
    rcases hr with (((rfl | rfl) | rfl) | rfl) | rfl
    all_goals exact .pair (by decide)
  · by_cases hn : c = '\x00' ∨ c = '\x07' ∨ c = '\x08' ∨ c = '\x0b' ∨ c = '\x0c' ∨ c = '\n' ∨
        c = '\t' ∨ c = '\r'
    · rcases hn with rfl | rfl | rfl | rfl | rfl | rfl | rfl | rfl
      all_goals exact .pair (by decide)
    · simp only [not_or] at hn
      obtain ⟨h0, h7, h8, hv, hf, hl, ht, hc⟩ := hn
      have hback : readBack c = c := readBack_eq_self hv hf
      simp only [escapeChar, hr, h0, h7, h8, hv, hf, hl, ht, hc, Bool.false_eq_true, if_false, hback]
      split
      · rename_i hlow
        obtain ⟨hlen, hcode⟩ := charOfCode?_hex (c := c) (by simpa using hlow)
        obtain ⟨a, b, d, e, hdigits⟩ := List.length_eq_four.1 hlen
        rw [hdigits] at hcode ⊢
        exact .code hcode
      · refine .plain ?_
        rintro rfl
        exact hr rfl

/-- A character is written behind a backslash, or as it is if it marks nothing. -/
theorem escapeChar_cases (c : Char) : (∃ t, escapeChar c = '\\' :: t) ∨
    (escapeChar c = [c] ∧ reserved c = false ∧ c ≠ '\n' ∧ c ≠ '\r') := by
  by_cases hmark : reserved c = true ∨ c = '\n' ∨ c = '\r'
  · left
    rcases hmark with hr | rfl | rfl
    · exact ⟨[c], by simp [escapeChar, hr]⟩
    · exact ⟨['n'], by decide⟩
    · exact ⟨['r'], by decide⟩
  · simp only [not_or, Bool.not_eq_true] at hmark
    obtain ⟨hr, hl, hn⟩ := hmark
    generalize hw : escapeChar c = w
    simp only [escapeChar, hr, hl, hn, Bool.false_eq_true, if_false] at hw
    repeat' split at hw
    all_goals
      first
      | exact .inl ⟨_, hw.symm⟩
      | exact .inr ⟨hw.symm, hr, hl, hn⟩

theorem escape_cons (c : Char) (cs : List Char) : escape (c :: cs) = escapeChar c ++ escape cs :=
  List.flatMap_cons

/-- No character is written so that a key or a value would seem to end. -/
theorem accepts_eq_false_of_escapeChar (hstop : stop ≠ .bracket) {d : Char}
    (h : escapeChar c = [d]) : stop.accepts d = false := by
  rcases escapeChar_cases c with ⟨t, ht⟩ | ⟨hc, hr, hl, hn⟩
  · rw [ht] at h
    cases h
    cases stop <;> rfl
  · rw [hc] at h
    cases h
    cases stop with
    | separator =>
      simp only [reserved, Bool.or_eq_false_iff, decide_eq_false_iff_not] at hr
      simp [Stop.accepts, hr]
    | bracket => exact absurd rfl hstop
    | lineEnd => simp [Stop.accepts, hl, hn]

/-- An escaped text is read up to the first character behind it. -/
theorem readText_escape (hstop : stop ≠ .bracket) (hb : x ≠ '\\') (hx : stop.accepts x = true)
    (cs seen rest : List Char) : readText stop seen (escape cs ++ x :: rest) =
      .ok (cs.map readBack, ⟨(escape cs).reverse ++ seen, x :: rest⟩) := by
  induction cs generalizing seen with
  | nil => exact readText_accepts hb hx seen rest
  | cons c cs ih =>
    rw [escape_cons, List.append_assoc,
      readText_token (escapeChar_token c) fun d hd => accepts_eq_false_of_escapeChar hstop hd, ih]
    simp [Except.map]

end ArtifactCache.Tracking
