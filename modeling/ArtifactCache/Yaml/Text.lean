import ArtifactCache.Text
import ArtifactCache.Yaml.Mark

/-!
# Texts in a document

Plain, quoted and block texts: where they end, and how their lines are joined.
-/

namespace ArtifactCache.Yaml

/-- Why a document cannot be read. -/
abbrev Problem := String

/-- The blanks and line ends between two words of a text. -/
structure Gap where
  blanks : List Char := []
  firstBreak : List Char := []
  moreBreaks : List Char := []
  broken : Bool := false

/-- What a gap is read as: its blanks, or its line ends with a single line feed as a space. -/
def Gap.fold (g : Gap) : List Char :=
  if !g.broken then g.blanks
  else if g.firstBreak.head? = some '\n' then
    if g.moreBreaks.isEmpty then [' '] else g.moreBreaks
  else g.firstBreak ++ g.moreBreaks

/-- Reads a gap; within an indented text a tab may not stand where the indentation is. -/
def readGap (indent : Option Int) : Nat → Gap → Mark → Except Problem (Gap × Mark)
  | 0, g, m => .ok (g, m)
  | fuel + 1, g, m =>
    match m.peek 0 with
    | none => .ok (g, m)
    | some c =>
      if isBlank c then
        if g.broken && c == '\t' && indent.any ((m.column : Int) < ·) then
          .error "found a tab character that violates indentation"
        else
          let blanks := if g.broken then g.blanks else g.blanks ++ [c]
          readGap indent fuel { g with blanks } m.next
      else if isBreak c then
        let (b, m) := m.readBreak
        if g.broken then readGap indent fuel { g with moreBreaks := g.moreBreaks ++ b } m
        else readGap indent fuel { g with blanks := [], firstBreak := b, broken := true } m
      else .ok (g, m)

/-- Whether a plain text ends at this character. -/
def endsPlain (inFlow : Bool) (m : Mark) : Bool :=
  (m.is ':' && m.gapAt 1) || (inFlow && m.at? 0 fun c => c ∈ [',', '[', ']', '\x7b', '\x7d'])

/-- Reads the characters of a word of a plain text. -/
def readWord (inFlow : Bool) : Nat → List Char → Mark → Except Problem (List Char × Mark)
  | 0, acc, m => .ok (acc.reverse, m)
  | fuel + 1, acc, m =>
    if m.atGap then .ok (acc.reverse, m)
    else if inFlow && m.is ':' && m.at? 1 fun c => c ∈ [',', '?', '[', ']', '\x7b', '\x7d'] then
      .error "found unexpected ':'"
    else if endsPlain inFlow m then .ok (acc.reverse, m)
    else match m.peek 0 with
      | some c => readWord inFlow fuel (c :: acc) m.next
      | none => .ok (acc.reverse, m)

/-- Reads a plain text: words with the gaps between them. The last gap is not part of it; whether it
held the end of a line is returned too. -/
def readPlain (inFlow : Bool) (indent : Int) :
    Nat → Gap → List Char → Mark → Except Problem (List Char × Bool × Mark)
  | 0, g, acc, m => .ok (acc, g.broken, m)
  | fuel + 1, g, acc, m =>
    if m.atDocumentMarker '-' || m.atDocumentMarker '.' || m.is '#' then .ok (acc, g.broken, m)
    else do
      let (word, after) ← readWord inFlow (m.rest.length + 1) [] m
      let (acc, g) := if word.isEmpty then (acc, g) else (acc ++ g.fold ++ word, {})
      if after.atBlank || after.atBreak then
        let (g, m) ← readGap (some indent) (after.rest.length + 1) g after
        if !inFlow && (m.column : Int) < indent then pure (acc, g.broken, m)
        else readPlain inFlow indent fuel g acc m
      else pure (acc, g.broken, after)

/-- What a letter after a backslash stands for in a quoted text. -/
def escapes : List (Char × Char) :=
  [('0', '\x00'), ('a', '\x07'), ('b', '\x08'), ('t', '\t'), ('\t', '\t'), ('n', '\n'), ('v', '\x0b'),
   ('f', '\x0c'), ('r', '\r'), ('e', '\x1b'), (' ', ' '), ('\x22', '\x22'), ('/', '/'), ('\\', '\\'),
   ('N', '\u0085'), ('_', '\u00a0'), ('L', '\u2028'), ('P', '\u2029')]

/-- How many digits follow a letter that announces a code point. -/
def codeLength (c : Char) : Nat :=
  if c = 'x' then 2 else if c = 'u' then 4 else if c = 'U' then 8 else 0

/-- Reads the character after a backslash. -/
def readEscape (m : Mark) : Except Problem (Char × Mark) :=
  match m.peek 1 with
  | none => .error "found unknown escape character"
  | some c =>
    match escapes.lookup c with
    | some x => .ok (x, m.skip 2)
    | none =>
      let n := codeLength c
      if n = 0 then .error "found unknown escape character"
      else
        let digits := (m.rest.drop 2).take n
        match if digits.length = n then Text.natOfDigits? 16 digits else none with
        | none => .error "did not find expected hexdecimal number"
        | some code =>
          if h : code.isValidChar then .ok (Char.ofNatAux code h, m.skip (2 + n))
          else .error "found invalid Unicode character escape code"

/-- Reads the characters of a quoted text up to a gap or the closing quote. The flag tells that a
backslash stood at the end of a line. -/
def readQuotedWord (quote : Char) :
    Nat → List Char → Mark → Except Problem (List Char × Bool × Mark)
  | 0, acc, m => .ok (acc.reverse, false, m)
  | fuel + 1, acc, m =>
    if m.atGap then .ok (acc.reverse, false, m)
    else if quote = '\x27' ∧ m.is quote ∧ m.peek 1 = some quote then
      readQuotedWord quote fuel (quote :: acc) (m.skip 2)
    else if m.is quote then .ok (acc.reverse, false, m)
    else if quote = '\x22' ∧ m.is '\\' then
      if m.at? 1 isBreak then .ok (acc.reverse, true, m.next.readBreak.2)
      else do
        let (c, m) ← readEscape m
        readQuotedWord quote fuel (c :: acc) m
    else match m.peek 0 with
      | some c => readQuotedWord quote fuel (c :: acc) m.next
      | none => .ok (acc.reverse, false, m)

/-- Reads a quoted text after its opening quote. -/
def readQuoted (quote : Char) : Nat → List Char → Mark → Except Problem (List Char × Mark)
  | 0, acc, m => .ok (acc, m)
  | fuel + 1, acc, m => do
    if m.atDocumentMarker '-' || m.atDocumentMarker '.' then
      throw "found unexpected document indicator"
    if m.atEnd then throw "found unexpected end of stream"
    let (word, joined, m) ← readQuotedWord quote (m.rest.length + 1) [] m
    let acc := acc ++ word
    if m.is quote then pure (acc, m.next)
    else
      let (g, m) ← readGap none (m.rest.length + 1) { broken := joined } m
      readQuoted quote fuel (acc ++ g.fold) m

/-- What becomes of the line ends after a block text. -/
inductive Chomping
  | clip
  | strip
  | keep
  deriving DecidableEq

/-- Skips the indentation and the empty lines before the next line of a block text. An indentation
of zero is yet to be found: it is that of the deepest line skipped, but not less than `least`. -/
def readIndentation (least : Nat) :
    Nat → Nat → Nat → List Char → Mark → Except Problem (Nat × List Char × Mark)
  | 0, indent, _, breaks, m => .ok (indent, breaks, m)
  | fuel + 1, indent, deepest, breaks, m =>
    let wanted := if indent = 0 then m.rest.length else indent - m.column
    let run := (m.rest.take wanted).takeWhile isSpace
    let m := m.skip run.length
    let deepest := max deepest m.column
    if (indent = 0 || m.column < indent) && m.is '\t' then
      .error "found a tab character where an indentation space is expected"
    else if m.atBreak then
      let (b, m) := m.readBreak
      readIndentation least fuel indent deepest (breaks ++ b) m
    else .ok (if indent = 0 then max deepest (max least 1) else indent, breaks, m)

/-- Reads the lines of a block text. -/
def readBlockLines (literal : Bool) (least indent : Nat) :
    Nat → (lineBreak moreBreaks : List Char) → (afterBlank : Bool) → List Char → Mark →
      Except Problem (List Char × List Char × List Char × Mark)
  | 0, lineBreak, more, _, acc, m => .ok (acc, lineBreak, more, m)
  | fuel + 1, lineBreak, more, afterBlank, acc, m =>
    if m.column == indent && !m.atEnd then do
      let blankHere := m.atBlank
      let join :=
        if !literal && lineBreak.head? == some '\n' && !afterBlank && !blankHere then
          if more.isEmpty then [' '] else []
        else lineBreak
      let (line, m) := m.takeWhile fun c => !isBreak c
      let (b, m) := m.readBreak
      let (_, breaks, m) ← readIndentation least (m.rest.length + 1) indent 0 [] m
      readBlockLines literal least indent fuel b breaks blankHere (acc ++ join ++ more ++ line) m
    else pure (acc, lineBreak, more, m)

/-- Reads a block text after its `|` or `>`, within the given indentation. -/
def readBlock (literal : Bool) (parent : Int) (m : Mark) : Except Problem (List Char × Mark) := do
  let chompingAt (m : Mark) : Option Chomping :=
    if m.is '+' then some .keep else if m.is '-' then some .strip else none
  let digitAt (m : Mark) : Option Nat := (m.peek 0).bind (Text.digitValue? 10)
  let (chomping, digit, m) := match chompingAt m with
    | some c => (c, digitAt m.next, if (digitAt m.next).isSome then m.skip 2 else m.next)
    | none => match digitAt m with
      | some d => match chompingAt m.next with
        | some c => (c, some d, m.skip 2)
        | none => (Chomping.clip, some d, m.next)
      | none => (Chomping.clip, none, m)
  if digit = some 0 then throw "found an indentation indicator equal to 0"
  let m := m.skipWhile isBlank
  let m := if m.is '#' then m.skipWhile fun c => !isBreak c else m
  if !(m.atEnd || m.atBreak) then throw "did not find expected comment or line break"
  let m := m.readBreak.2
  let least := (parent + 1).toNat
  let given := match digit with
    | some d => (max parent 0).toNat + d
    | none => 0
  let (indent, breaks, m) ← readIndentation least (m.rest.length + 1) given 0 [] m
  let (text, lineBreak, more, m) ←
    readBlockLines literal least indent (m.rest.length + 1) [] breaks false [] m
  let tail := match chomping with
    | .strip => []
    | .clip => lineBreak
    | .keep => lineBreak ++ more
  pure (text ++ tail, m)

end ArtifactCache.Yaml
