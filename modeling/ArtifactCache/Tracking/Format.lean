import ArtifactCache.KeyMap
import ArtifactCache.Tracking.Syntax

/-!
# Tracking files

The text of a tracking file: one `key=value` line for each entry under a fixed heading. Reading is
more liberal than writing: comments, sections, indented lines and `:` as separator are understood.
-/

namespace ArtifactCache.Tracking

open Text (isBlank strip)

/-- The entries of a tracking file. -/
abbrev Record := KeyMap String

/-- The comment at the head of every tracking file that is written. -/
def heading : String :=
  "#NOTE: This is an internal tracking file of the local repository, " ++
    "its format can be changed without prior notice.\n"

/-- The line of one entry. -/
def entryLine (key value : String) : List Char :=
  escape key.toList ++ '=' :: escape value.toList ++ ['\n']

def render (r : Record) : List Char :=
  heading.toList ++ r.entries.flatMap fun e => entryLine e.1 e.2

/-- What has been understood so far: the key that waits for its value, whether a section was
opened, and the entries outside sections. -/
structure Reading where
  pending : List Char
  inSection : Bool
  record : Record

/-- Skips blanks and line ends, but stops at a line that begins with a space or a tab. -/
def skipToLine : List Char → List Char → Cursor
  | seen, [] => ⟨seen, []⟩
  | seen, c :: rest =>
    if c = '\n' ∨ c = '\r' then
      if rest.head? = some ' ' ∨ rest.head? = some '\t' then ⟨c :: seen, rest⟩
      else skipToLine (c :: seen) rest
    else if isBlank c then skipToLine (c :: seen) rest
    else ⟨seen, c :: rest⟩

/-- Skips a comment with the line feed that ends it. -/
def skipComment : List Char → List Char → Cursor
  | seen, [] => ⟨seen, []⟩
  | seen, c :: rest =>
    if c = '\n' then ⟨c :: seen, rest⟩ else skipComment (c :: seen) rest

/-- Reads a section name after its bracket. -/
def readSection (s : Reading) (seen rest : List Char) : Except Failure (Reading × Cursor) := do
  let (_, place) ← readText .bracket seen rest
  pure ({ s with inSection := true }, ⟨place.rest.take 1 ++ place.seen, place.rest.drop 1⟩)

/-- Reads a key up to its separator. -/
def readKey (s : Reading) (seen rest : List Char) : Except Failure (Reading × Cursor) := do
  let (text, place) ← readText .separator seen rest
  pure ({ s with pending := strip isBlank text }, place)

/-- Reads the value after a separator and gives it to the pending key. -/
def readValue (s : Reading) (seen rest : List Char) : Except Failure (Reading × Cursor) := do
  let start := Cursor.skipWhile (fun c => isBlank c && c != '\n' && c != '\r') seen rest
  let (text, place) ← readText .lineEnd start.seen start.rest
  let value := String.ofList (strip isBlank text)
  let record :=
    if s.inSection then s.record else s.record.insert (String.ofList s.pending) value
  pure ({ s with pending := [], record }, place)

/-- Moves on to the next thing to be read. -/
def toLine (x : Reading × Cursor) : Reading × Cursor :=
  (x.1, skipToLine x.2.seen x.2.rest)

/-- Reads what begins at `c`, after blanks at the head of its line. A key that cannot be read there
is passed over. -/
def readIndented (s : Reading) : Cursor → Except Failure (Reading × Cursor)
  | ⟨seen, '[' :: rest⟩ => toLine <$> readSection s ('[' :: seen) rest
  | ⟨seen, '\n' :: rest⟩ => .ok (s, ⟨'\n' :: seen, rest⟩)
  | ⟨seen, '\r' :: rest⟩ => .ok (s, ⟨'\r' :: seen, rest⟩)
  | ⟨seen, rest⟩ =>
    match readKey s seen rest with
    | .ok x => .ok (toLine x)
    | .error f => .ok (toLine (s, f.place))

/-- Reads what begins with the character `c`. -/
def readItem (s : Reading) (seen : List Char) (c : Char) (rest : List Char) :
    Except Failure (Reading × Cursor) :=
  if c = ';' ∨ c = '#' then
    if Cursor.atLineStart ⟨seen, c :: rest⟩ then .ok (toLine (s, skipComment (c :: seen) rest))
    else .error ⟨.commentAfterText, ⟨seen, c :: rest⟩⟩
  else if c = '[' then toLine <$> readSection s (c :: seen) rest
  else if c = '=' ∨ c = ':' then
    if s.pending = [] then .error ⟨.missingKey, ⟨seen, c :: rest⟩⟩
    else toLine <$> readValue s (c :: seen) rest
  else if c = ' ' ∨ c = '\t' then
    readIndented s (Cursor.skipWhile (fun c => c == ' ' || c == '\t') (c :: seen) rest)
  else if c = '\n' ∨ c = '\r' then .ok (toLine (s, ⟨c :: seen, rest⟩))
  else toLine <$> readKey s seen (c :: rest)

theorem skipToLine_length (seen rest : List Char) :
    (skipToLine seen rest).rest.length ≤ rest.length := by
  fun_induction skipToLine seen rest with
  | case1 => exact Nat.le_refl _
  | case2 => exact Nat.le_succ _
  | case3 _ _ _ _ _ ih => exact Nat.le_succ_of_le ih
  | case4 _ _ _ _ _ ih => exact Nat.le_succ_of_le ih
  | case5 => exact Nat.le_refl _

theorem skipComment_length (seen rest : List Char) :
    (skipComment seen rest).rest.length ≤ rest.length := by
  fun_induction skipComment seen rest with
  | case1 => exact Nat.le_refl _
  | case2 => exact Nat.le_succ _
  | case3 _ _ _ _ ih => exact Nat.le_succ_of_le ih

theorem readSection_length {s t : Reading} {seen rest : List Char} {c : Cursor}
    (h : readSection s seen rest = .ok (t, c)) : c.rest.length ≤ rest.length := by
  simp only [readSection, bind, Except.bind] at h
  split at h
  · cases h
  · rename_i v hv
    have := (readText_length hv).1
    simp [pure, Except.pure] at h
    simp only [← h.2, List.length_tail]
    omega

theorem readKey_length {s t : Reading} {seen rest : List Char} {c : Cursor}
    (h : readKey s seen rest = .ok (t, c)) :
    c.rest.length ≤ rest.length ∧
      ∀ x r, rest = x :: r → Stop.accepts .separator x = false → c.rest.length < rest.length := by
  simp only [readKey, bind, Except.bind] at h
  split at h
  · cases h
  · rename_i v hv
    simp [pure, Except.pure] at h
    rw [← h.2]
    exact readText_length hv

theorem readValue_length {s t : Reading} {seen rest : List Char} {c : Cursor}
    (h : readValue s seen rest = .ok (t, c)) : c.rest.length ≤ rest.length := by
  simp only [readValue, bind, Except.bind] at h
  split at h
  · cases h
  · rename_i v hv
    have := (readText_length hv).1
    have := Cursor.skipWhile_length (fun c => isBlank c && c != '\n' && c != '\r') seen rest
    simp [pure, Except.pure] at h
    rw [← h.2]
    omega

theorem toLine_length (x : Reading × Cursor) : (toLine x).2.rest.length ≤ x.2.rest.length :=
  skipToLine_length _ _

theorem codeFailure_length (stop : Stop) (k : Nat) (seen rest : List Char) :
    (codeFailure stop k seen rest).place.rest.length ≤ rest.length := by
  fun_induction codeFailure stop k seen rest with
  | case1 => exact Nat.le_refl _
  | case2 => exact Nat.le_refl _
  | case3 => exact Nat.le_succ _
  | case4 _ _ _ _ ih => exact Nat.le_succ_of_le (Nat.le_succ_of_le ih)
  | case5 => exact Nat.le_succ _
  | case6 => exact Nat.le_refl _
  | case7 _ _ _ _ _ _ _ ih => exact Nat.le_succ_of_le ih

theorem readText_failure_length {stop : Stop} {seen rest : List Char} {f : Failure}
    (h : readText stop seen rest = .error f) : f.place.rest.length ≤ rest.length := by
  fun_induction readText stop seen rest generalizing f with
  | case1 => simp_all
  | case2 => simp at h; simp [← h]
  | case3 => simp_all
  | case4 => simp at h; simp [← h]
  | case5 seen a b c d rest x hx ih | case8 seen c rest _ hx ih | case10 seen c rest _ _ _ hs ih =>
    simp only [bind, Except.bind] at h
    split at h
    · rename_i hv
      have := ih hv
      cases h
      simp only [List.length_cons]
      omega
    · simp [pure, Except.pure] at h
  | case6 seen a b c d rest hx =>
    simp at h
    have := codeFailure_length stop 4 ('x' :: '\\' :: seen) (a :: b :: c :: d :: rest)
    rw [← h]
    simp only [List.length_cons] at this ⊢
    omega
  | case7 seen rest =>
    simp at h
    have := codeFailure_length stop 4 ('x' :: '\\' :: seen) rest
    rw [← h]
    simp only [List.length_cons]
    omega
  | case9 => simp at h

theorem readKey_failure_length {s : Reading} {seen rest : List Char} {f : Failure}
    (h : readKey s seen rest = .error f) : f.place.rest.length ≤ rest.length := by
  simp only [readKey, bind, Except.bind] at h
  split at h
  · rename_i hv
    cases h
    exact readText_failure_length hv
  · simp [pure, Except.pure] at h

theorem toLine_map_length {e : Except Failure (Reading × Cursor)} {n : Nat} {t : Reading} {c : Cursor}
    (h : toLine <$> e = .ok (t, c)) (he : ∀ t c, e = .ok (t, c) → c.rest.length ≤ n) :
    c.rest.length ≤ n := by
  cases e with
  | error => cases h
  | ok x =>
    have hx : toLine x = (t, c) := by simpa [Functor.map, Except.map] using h
    have := toLine_length x
    rw [hx] at this
    exact Nat.le_trans this (he x.1 x.2 rfl)

theorem readIndented_length {s t : Reading} {p c : Cursor} (h : readIndented s p = .ok (t, c)) :
    c.rest.length ≤ p.rest.length := by
  unfold readIndented at h
  split at h
  · have := toLine_map_length h fun _ _ he => readSection_length he
    simp only [List.length_cons]
    omega
  · simp at h; simp [← h.2]
  · simp at h; simp [← h.2]
  · rename_i seen rest _ _ _
    split at h
    · rename_i x hx
      simp at h
      have := toLine_length x
      rw [h] at this
      have := (readKey_length (c := x.2) (t := x.1) hx).1
      simp only at *
      omega
    · rename_i f hf
      simp at h
      have := toLine_length (s, f.place)
      rw [h] at this
      have := readKey_failure_length hf
      simp only at *
      omega

/-- Every item takes at least one character. -/
theorem readItem_length {s t : Reading} {seen : List Char} {x : Char} {rest : List Char} {c : Cursor}
    (h : readItem s seen x rest = .ok (t, c)) : c.rest.length ≤ rest.length := by
  unfold readItem at h
  split at h
  · split at h
    · simp at h
      have := toLine_length (s, skipComment (x :: seen) rest)
      rw [h] at this
      exact Nat.le_trans this (skipComment_length _ _)
    · cases h
  · split at h
    · exact toLine_map_length h fun _ _ he => readSection_length he
    · split at h
      · split at h
        · cases h
        · exact toLine_map_length h fun _ _ he => readValue_length he
      · split at h
        · rename_i hb
          have hle := readIndented_length h
          have hskip : ∀ seen' : List Char,
              (Cursor.skipWhile (fun c => c == ' ' || c == '\t') seen' (x :: rest)).rest.length
                ≤ rest.length := by
            intro seen'
            have hx : (x == ' ' || x == '\t') = true := by simpa using hb
            simp only [Cursor.skipWhile, hx, if_true]
            exact Cursor.skipWhile_length _ _ _
          exact Nat.le_trans hle (Cursor.skipWhile_length _ _ _)
        · split at h
          · simp at h
            have := toLine_length (s, (⟨x :: seen, rest⟩ : Cursor))
            rw [h] at this
            exact this
          · rename_i hsep _ _
            refine toLine_map_length h fun _ _ he => ?_
            have := (readKey_length he).2 x rest rfl (by simpa [Stop.accepts] using hsep)
            simp only [List.length_cons] at this
            omega

/-- Reads to the end of the input. -/
def readItems (s : Reading) (c : Cursor) : Except Failure Record :=
  match hrest : c.rest with
  | [] => .ok s.record
  | x :: rest =>
    match hitem : readItem s c.seen x rest with
    | .error f => .error f
    | .ok (t, next) =>
      have : next.rest.length < c.rest.length := by
        have := readItem_length hitem
        simp only [hrest, List.length_cons]
        omega
      readItems t next
termination_by c.rest.length

/-- The entries of a tracking file. A file of blanks only has none. -/
def parse (text : List Char) : Except Failure Record :=
  if text.all isBlank then .ok .empty
  else readItems ⟨[], false, .empty⟩ (.start text)

end ArtifactCache.Tracking
