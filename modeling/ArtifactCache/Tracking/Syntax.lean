import ArtifactCache.Text.Quoted
import ArtifactCache.Tracking.Cursor

/-!
# The text of tracking files

How keys, values and section names are written and read: which characters are escaped, where a
text ends, and what can be wrong with it.
-/

namespace ArtifactCache.Tracking

open Text (isBlank)

/-- The characters written with a backslash before them. -/
def reserved (c : Char) : Bool :=
  c = '\\' || c = ';' || c = '#' || c = '=' || c = ':'

/-- How one character of a key or value is written. -/
def escapeChar (c : Char) : List Char :=
  if reserved c then ['\\', c]
  else if c = '\x00' then ['\\', '0']
  else if c = '\x07' then ['\\', 'a']
  else if c = '\x08' then ['\\', 'b']
  else if c = '\x0b' then ['\\', 'v']
  else if c = '\x0c' then ['\\', 'f']
  else if c = '\n' then ['\\', 'n']
  else if c = '\t' then ['\\', 't']
  else if c = '\r' then ['\\', 'r']
  else if c.toNat < 0x20 || c = '\x7f' then '\\' :: 'x' :: (Text.hex 4 c.toNat).toList
  else [c]

def escape (cs : List Char) : List Char :=
  cs.flatMap escapeChar

/-- What a backslash and a letter other than `x` stand for; a line feed is dropped. -/
def unescapeChar (c : Char) : List Char :=
  if c = '0' then ['\x00']
  else if c = 'a' then ['\x07']
  else if c = 'b' then ['\x08']
  else if c = 't' then ['\t']
  else if c = 'r' then ['\r']
  else if c = 'n' then ['\n']
  else if c = '\n' then []
  else [c]

/-- The character with the given hexadecimal code point; a plus sign may stand before the digits. -/
def charOfCode? (cs : List Char) : Option Char :=
  let digits := match cs with
    | '+' :: ds => ds
    | _ => cs
  match Text.natOfDigits? 16 digits with
  | some n => if h : n.isValidChar then some (Char.ofNatAux n h) else none
  | none => none

/-- Where a text ends. -/
inductive Stop
  | separator
  | bracket
  | lineEnd
  deriving DecidableEq

def Stop.accepts : Stop → Char → Bool
  | .separator, c => c = '=' || c = ':'
  | .bracket, c => c = ']'
  | .lineEnd, c => c = '\n' || c = '\r'

/-- The ends of a text; nothing stands for the end of the input. -/
def Stop.expected : Stop → List (Option Char)
  | .separator => [some '=', some ':']
  | .bracket => [some ']']
  | .lineEnd => [some '\n', some '\r', none]

/-- What can be wrong with a tracking file. -/
inductive Problem
  | commentAfterText
  | missingKey
  | unfinished (stop : Stop)
  | badCode
  | brokenEscape (found : Option Char)

def Problem.message : Problem → String
  | .commentAfterText => "doesn't support inline comment"
  | .missingKey => "missing key"
  | .unfinished stop =>
    "expecting \"[" ++ Text.join ", " (stop.expected.map Text.quoteOption) ++ "]\" but found EOF."
  | .badCode => "unknown character in \\xHH form"
  | .brokenEscape found => "expecting \"\\\\n\" but found \"" ++ Text.quoteOption found ++ "\"."

/-- A problem and the place where it was met. -/
structure Failure where
  problem : Problem
  place : Cursor

def Failure.message (f : Failure) : String :=
  toString f.place.line ++ ":" ++ toString f.place.column ++ " " ++ f.problem.message

/-- What is wrong with a code of `k` more characters that does not name a character. -/
def codeFailure (stop : Stop) : Nat → List Char → List Char → Failure
  | 0, seen, rest => ⟨.badCode, ⟨seen, rest⟩⟩
  | _ + 1, seen, [] => ⟨.unfinished stop, ⟨seen, []⟩⟩
  | k + 1, seen, '\\' :: '\n' :: rest =>
    if k = 0 then ⟨.badCode, ⟨'\\' :: seen, '\n' :: rest⟩⟩
    else codeFailure stop k ('\n' :: '\\' :: seen) rest
  | _ + 1, seen, '\\' :: rest => ⟨.brokenEscape rest.head?, ⟨'\\' :: seen, rest⟩⟩
  | k + 1, seen, c :: rest =>
    if k = 0 then ⟨.badCode, ⟨seen, c :: rest⟩⟩ else codeFailure stop k (c :: seen) rest

/-- Reads a text up to its end, which is not consumed; escapes are undone. -/
def readText (stop : Stop) : List Char → List Char → Except Failure (List Char × Cursor)
  | seen, [] =>
    if stop = .lineEnd then .ok ([], ⟨seen, []⟩) else .error ⟨.unfinished stop, ⟨seen, []⟩⟩
  | seen, '\\' :: [] =>
    if stop = .lineEnd then .ok (['\\'], ⟨'\\' :: seen, []⟩)
    else .error ⟨.unfinished stop, ⟨'\\' :: seen, []⟩⟩
  | seen, '\\' :: 'x' :: a :: b :: c :: d :: rest =>
    match charOfCode? [a, b, c, d] with
    | some x => do
      let (text, place) ← readText stop (d :: c :: b :: a :: 'x' :: '\\' :: seen) rest
      pure (x :: text, place)
    | none => .error (codeFailure stop 4 ('x' :: '\\' :: seen) (a :: b :: c :: d :: rest))
  | seen, '\\' :: c :: rest =>
    if c = 'x' then .error (codeFailure stop 4 ('x' :: '\\' :: seen) rest)
    else do
      let (text, place) ← readText stop (c :: '\\' :: seen) rest
      pure (unescapeChar c ++ text, place)
  | seen, c :: rest =>
    if stop.accepts c then .ok ([], ⟨seen, c :: rest⟩)
    else do
      let (text, place) ← readText stop (c :: seen) rest
      pure (c :: text, place)

/-- A text ends no earlier than it begins, and moves on if its first character is no end. -/
theorem readText_length {stop : Stop} {seen rest : List Char} {text : List Char} {place : Cursor}
    (h : readText stop seen rest = .ok (text, place)) :
    place.rest.length ≤ rest.length ∧
      ∀ c r, rest = c :: r → stop.accepts c = false → place.rest.length < rest.length := by
  fun_induction readText stop seen rest generalizing text place with
  | case1 => simp_all; grind
  | case2 => simp_all
  | case3 => simp_all; grind
  | case4 => simp_all
  | case5 seen a b c d rest x hx ih =>
    simp only [bind, Except.bind] at h
    split at h
    · cases h
    · rename_i v hv
      obtain ⟨t, p⟩ := v
      have := (ih hv).1
      simp [pure, Except.pure] at h
      obtain ⟨-, rfl⟩ := h
      simp only [List.length_cons]
      exact ⟨by omega, fun _ _ _ _ => by omega⟩
  | case6 => simp_all
  | case7 => simp_all
  | case8 seen c rest _ hx ih =>
    simp only [bind, Except.bind] at h
    split at h
    · cases h
    · rename_i v hv
      obtain ⟨t, p⟩ := v
      have := (ih hv).1
      simp [pure, Except.pure] at h
      obtain ⟨-, rfl⟩ := h
      simp only [List.length_cons]
      exact ⟨by omega, fun _ _ _ _ => by omega⟩
  | case9 seen c rest _ _ _ hs =>
    simp at h
    obtain ⟨-, rfl⟩ := h
    refine ⟨by simp, fun x r hr hx => ?_⟩
    cases hr
    simp_all
  | case10 seen c rest _ _ _ hs ih =>
    simp only [bind, Except.bind] at h
    split at h
    · cases h
    · rename_i v hv
      obtain ⟨t, p⟩ := v
      have := (ih hv).1
      simp [pure, Except.pure] at h
      obtain ⟨-, rfl⟩ := h
      simp only [List.length_cons]
      exact ⟨by omega, fun _ _ _ _ => by omega⟩

end ArtifactCache.Tracking
