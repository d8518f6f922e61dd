/-!
# A place in a text

What has been read, newest character first, and what is still to be read.
-/

namespace ArtifactCache.Tracking

/-- A place between two characters of a text; the current character is the first of `rest`. -/
structure Cursor where
  seen : List Char
  rest : List Char

namespace Cursor

def start (text : List Char) : Cursor := ⟨[], text⟩

/-- Moves past the longest run of characters that satisfy `p`. -/
def skipWhile (p : Char → Bool) : List Char → List Char → Cursor
  | seen, [] => ⟨seen, []⟩
  | seen, c :: rest => if p c then skipWhile p (c :: seen) rest else ⟨seen, c :: rest⟩

/-- Whether the current character is the first of its line. -/
def atLineStart (c : Cursor) : Bool :=
  c.seen.head?.all (· == '\n')

/-- The characters up to and including the current one, newest first. -/
def reached (c : Cursor) : List Char :=
  c.rest.head?.toList ++ c.seen

/-- The line of the current character, from one; a line feed belongs to the line it opens. -/
def line (c : Cursor) : Nat :=
  c.reached.count '\n' + 1

/-- The column of the current character; a line feed has column one and the character after it two. -/
def column (c : Cursor) : Nat :=
  (c.reached.takeWhile (· ≠ '\n')).length + 1

theorem skipWhile_length (p : Char → Bool) (seen rest : List Char) :
    (skipWhile p seen rest).rest.length ≤ rest.length := by
  induction rest generalizing seen with
  | nil => simp [skipWhile]
  | cons c rest ih =>
    simp only [skipWhile]
    split
    · have := ih (c :: seen); simp only [List.length_cons]; omega
    · simp

end Cursor
end ArtifactCache.Tracking
