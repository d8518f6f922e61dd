/-!
# Places in a document

What is left of a document and how far into it that is, with the classes of characters that the
tokens of a document are made of.
-/

namespace ArtifactCache.Yaml

/-- A place in a document. -/
structure Mark where
  rest : List Char
  index : Nat
  line : Nat
  column : Nat

def isSpace (c : Char) : Bool := c = ' '

def isBlank (c : Char) : Bool := c = ' ' || c = '\t'

/-- The characters that end a line. -/
def isBreak (c : Char) : Bool :=
  c = '\n' || c = '\r' || c = '\u0085' || c = '\u2028' || c = '\u2029'

def isWordChar (c : Char) : Bool :=
  c.isAlphanum || c = '_' || c = '-'

/-- The characters a document may hold. -/
def isPrintable (c : Char) : Bool :=
  let n := c.toNat
  n == 9 || n == 10 || n == 13 || (0x20 ≤ n && n ≤ 0x7E) || n == 0x85 ||
    (0xA0 ≤ n && n ≤ 0xD7FF) || (0xE000 ≤ n && n ≤ 0xFFFD) || 0x10000 ≤ n

namespace Mark

def start (text : List Char) : Mark := ⟨text, 0, 0, 0⟩

/-- The character `n` places on. -/
def peek (m : Mark) (n : Nat) : Option Char := m.rest[n]?

def at? (m : Mark) (n : Nat) (p : Char → Bool) : Bool := (m.peek n).any p

def is (m : Mark) (c : Char) : Bool := m.peek 0 == some c

def atBlank (m : Mark) : Bool := m.at? 0 isBlank

def atBreak (m : Mark) : Bool := m.at? 0 isBreak

def atEnd (m : Mark) : Bool := m.rest.isEmpty

/-- Whether `n` places on there is no character, a blank or the end of a line. -/
def gapAt (m : Mark) (n : Nat) : Bool := (m.peek n).all fun c => isBlank c || isBreak c

def atGap (m : Mark) : Bool := m.gapAt 0

/-- Moves over one character of a line. -/
def next (m : Mark) : Mark :=
  { m with rest := m.rest.drop 1, index := m.index + 1, column := m.column + 1 }

/-- Moves over `n` characters of a line. -/
def skip (n : Nat) (m : Mark) : Mark :=
  { m with rest := m.rest.drop n, index := m.index + n, column := m.column + n }

/-- Moves over the end of a line, which is read as a line feed unless it is a separator of its own. -/
def readBreak (m : Mark) : List Char × Mark :=
  let beyond (n : Nat) : Mark :=
    { rest := m.rest.drop n, index := m.index + n, line := m.line + 1, column := 0 }
  match m.rest with
  | '\r' :: '\n' :: _ => (['\n'], beyond 2)
  | c :: _ =>
    if c = '\u2028' ∨ c = '\u2029' then ([c], beyond 1)
    else if isBreak c then (['\n'], beyond 1)
    else ([], m)
  | [] => ([], m)

/-- Moves over the longest run of characters that satisfy `p`. -/
def takeWhile (p : Char → Bool) (m : Mark) : List Char × Mark :=
  let run := m.rest.takeWhile p
  (run, m.skip run.length)

def skipWhile (p : Char → Bool) (m : Mark) : Mark := (m.takeWhile p).2

/-- Whether a line begins here with three times `c` and a gap. -/
def atDocumentMarker (m : Mark) (c : Char) : Bool :=
  m.column == 0 && m.is c && m.peek 1 == some c && m.peek 2 == some c && m.gapAt 3

end Mark
end ArtifactCache.Yaml
