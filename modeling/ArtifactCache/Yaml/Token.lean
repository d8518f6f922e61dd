import ArtifactCache.Yaml.Text

/-!
# Tokens of a document

The marks that indentation, brackets and indicators leave. A key is known as one only when its colon
is met, so its token is put back where the key began.
-/

namespace ArtifactCache.Yaml

/-- A token. The ends of block collections have tokens of their own. -/
inductive Token
  | versionDirective (major minor : Nat)
  | tagDirective (handle stem : String)
  | documentStart
  | documentEnd
  | blockSequence
  | blockMapping
  | blockEnd
  | flowSequence
  | flowSequenceEnd
  | flowMapping
  | flowMappingEnd
  | blockEntry
  | flowEntry
  | key
  | value
  | alias (name : String)
  | anchor (name : String)
  | tag (handle suffix : String)
  | text (content : String) (plain : Bool)
  deriving DecidableEq

/-- A place where a key may have begun: the number of its first token, where it stands, and whether
nothing but a key may stand there. -/
structure Candidate where
  token : Nat
  mark : Mark
  required : Bool

/-- The state of reading tokens. There is one possible key for each open bracket and one for the
block around them; `indents` holds the indentations of the open block collections. -/
structure Reader where
  mark : Mark
  tokens : Array Token := #[]
  indent : Int := -1
  indents : List Int := []
  keyAllowed : Bool := true
  keys : List (Option Candidate) := [none]

namespace Reader

def inFlow (r : Reader) : Bool := 1 < r.keys.length

def push (r : Reader) (t : Token) : Reader := { r with tokens := r.tokens.push t }

/-- Moves to the first character that is no blank, line end or comment. -/
def toNextToken : Nat → Reader → Reader
  | 0, r => r
  | fuel + 1, r =>
    let m := if r.mark.column = 0 ∧ r.mark.is '\ufeff' then r.mark.next else r.mark
    let tabs := r.inFlow || !r.keyAllowed
    let m := m.skipWhile fun c => isSpace c || (tabs && c == '\t')
    let m := if m.is '#' then m.skipWhile fun c => !isBreak c else m
    if m.atBreak then
      toNextToken fuel { r with mark := m.readBreak.2, keyAllowed := r.keyAllowed || !r.inFlow }
    else { r with mark := m }

/-- Whether a key that began at `k` can no longer be one at `m`. -/
def isStale (m : Mark) (k : Candidate) : Bool :=
  k.mark.line < m.line || k.mark.index + 1024 < m.index

/-- Gives up the possible keys that can no longer be ones. -/
def dropStaleKeys (r : Reader) : Except Problem Reader := do
  let keys ← r.keys.mapM fun
    | some k =>
      if isStale r.mark k then
        if k.required then throw "could not find expected ':'" else pure none
      else pure (some k)
    | none => pure none
  pure { r with keys }

/-- Gives up the possible key of the innermost collection. -/
def dropKey (r : Reader) : Except Problem Reader :=
  match r.keys with
  | some k :: rest =>
    if k.required then .error "could not find expected ':'" else .ok { r with keys := none :: rest }
  | _ => .ok r

/-- Notes that a key may begin here. -/
def noteKey (r : Reader) : Except Problem Reader :=
  if r.keyAllowed then do
    let required := !r.inFlow && r.indent == (r.mark.column : Int)
    let r ← r.dropKey
    pure { r with keys := some ⟨r.tokens.size, r.mark, required⟩ :: r.keys.tail }
  else .ok r

/-- Ends the block collections that are indented deeper than `column`. -/
def unindent (column : Int) : Nat → Reader → Reader
  | 0, r => r
  | fuel + 1, r =>
    if !r.inFlow && column < r.indent then
      match r.indents with
      | outer :: rest =>
        unindent column fuel ({ r with indent := outer, indents := rest }.push .blockEnd)
      | [] => r
    else r

def unindentTo (r : Reader) (column : Int) : Reader := unindent column (r.indents.length + 1) r

/-- Begins a block collection at `column`, if that is deeper than where the reader is. -/
def indentTo (r : Reader) (column : Nat) (position : Option Nat) (t : Token) : Reader :=
  if !r.inFlow && r.indent < (column : Int) then
    let tokens := match position with
      | some i => r.tokens.toList.insertIdx i t |>.toArray
      | none => r.tokens.push t
    { r with indents := r.indent :: r.indents, indent := column, tokens }
  else r

/-- Reads `n` characters as the token `t`. -/
def take (r : Reader) (n : Nat) (t : Token) : Reader :=
  { r with mark := r.mark.skip n }.push t

def forbidKeys (r : Reader) : Reader := { r with keyAllowed := false }

def allowKeys (r : Reader) : Reader := { r with keyAllowed := true }

/-- Ends every open block collection. -/
def closeBlocks (r : Reader) : Except Problem Reader := do
  let r ← (r.unindentTo (-1)).dropKey
  pure r.forbidKeys

/-! ### Names and tags -/

/-- The characters of a tag beside letters, digits, `_` and `-`; the last three only where the tag
has an end of its own. -/
def isTagChar (wide : Bool) (c : Char) : Bool :=
  isWordChar c || c ∈ [';', '/', '?', ':', '@', '&', '=', '+', '$', '.', '!', '~', '*', '\x27', '(', ')'] ||
    (wide && c ∈ [',', '[', ']'])

/-- Reads the characters of a tag; a percent sign and two digits stand for a byte. -/
def readTagChars (wide : Bool) : Nat → List Char → Mark → Except Problem (List Char × Mark)
  | 0, acc, m => .ok (acc.reverse, m)
  | fuel + 1, acc, m =>
    match m.peek 0 with
    | some '%' => do
      let (c, m) ← readTagEscape m
      readTagChars wide fuel (c :: acc) m
    | some c =>
      if isTagChar wide c then readTagChars wide fuel (c :: acc) m.next else .ok (acc.reverse, m)
    | none => .ok (acc.reverse, m)
where
  /-- Reads the bytes of one character. -/
  readTagEscape (m : Mark) : Except Problem (Char × Mark) := do
    let byteAt (i : Nat) : Option Nat :=
      if m.peek (3 * i) = some '%' then
        let ds := (m.rest.drop (3 * i + 1)).take 2
        if ds.length = 2 then Text.natOfDigits? 16 ds else none
      else none
    match byteAt 0 with
    | none => throw "did not find URI escaped octet"
    | some b =>
      let width := if b < 0x80 then 1 else if b / 0x20 = 6 then 2 else if b / 0x10 = 14 then 3
        else if b / 8 = 30 then 4 else 0
      if width = 0 then throw "found an incorrect leading UTF-8 octet"
      match (List.range width).mapM byteAt with
      | none => throw "did not find URI escaped octet"
      | some bytes =>
        match String.fromUTF8? ⟨(bytes.map Nat.toUInt8).toArray⟩ with
        | some s =>
          match s.toList with
          | [c] => pure (c, m.skip (3 * width))
          | _ => throw "found an incorrect trailing UTF-8 octet"
        | none => throw "found an incorrect trailing UTF-8 octet"

/-- Reads the part of a tag after its handle, which begins with `head`. -/
def readTagSuffix (wide : Bool) (head : List Char) (m : Mark) : Except Problem (String × Mark) := do
  let (cs, m) ← readTagChars wide (m.rest.length + 1) [] m
  if head.isEmpty && cs.isEmpty then throw "did not find expected tag URI"
  pure (String.ofList (head.drop 1 ++ cs), m)

/-- Reads a handle: an exclamation mark, a word, and perhaps another exclamation mark. -/
def readTagHandle (directive : Bool) (m : Mark) : Except Problem (List Char × Mark) := do
  if !m.is '!' then throw "did not find expected '!'"
  let (word, m) := m.next.takeWhile isWordChar
  if m.is '!' then pure ('!' :: word ++ ['!'], m.next)
  else if directive && !word.isEmpty then throw "did not find expected '!'"
  else pure ('!' :: word, m)

/-- Reads a tag. -/
def readTag (r : Reader) : Except Problem Reader := do
  let m := r.mark
  let (handle, suffix, m) ←
    if m.peek 1 = some '<' then do
      let (suffix, m) ← readTagSuffix true [] (m.skip 2)
      if !m.is '>' then throw "did not find the expected '>'"
      pure ("", suffix, m.next)
    else do
      let (handle, after) ← readTagHandle false m
      if 2 ≤ handle.length ∧ handle.getLast? = some '!' then
        let (suffix, m) ← readTagSuffix false [] after
        pure (String.ofList handle, suffix, m)
      else
        let (suffix, m) ← readTagSuffix false handle after
        pure (if suffix = "" then ("", "!", m) else ("!", suffix, m))
  if !(m.atGap || (r.inFlow && m.is ',')) then
    throw "did not find expected whitespace or line break"
  pure ({ r with mark := m }.push (.tag handle suffix))

/-- Reads the name of an anchor or of an alias after its sign. -/
def readName (r : Reader) (t : String → Token) : Except Problem Reader := do
  let (name, m) := r.mark.next.takeWhile isWordChar
  let ended := m.atGap || m.at? 0 fun c => c ∈ ['?', ':', ',', ']', '\x7d', '%', '@', '\x60']
  if name.isEmpty || !ended then
    throw "did not find expected alphabetic or numeric character"
  pure ({ r with mark := m }.push (t (String.ofList name)))

/-! ### Directives -/

/-- Reads a part of a version: up to nine digits. -/
def readVersionPart (m : Mark) : Except Problem (Nat × Mark) := do
  let (ds, m) := m.takeWhile Char.isDigit
  if 9 < ds.length then throw "found extremely long version number"
  match Text.natOfDigits? 10 ds with
  | some n => pure (n, m)
  | none => throw "did not find expected version number"

/-- Reads a directive with the rest of its line. -/
def readDirective (r : Reader) : Except Problem Reader := do
  let (name, m) := r.mark.next.takeWhile isWordChar
  if name.isEmpty then throw "could not find expected directive name"
  if !m.atGap then throw "found unexpected non-alphabetical character"
  let m := m.skipWhile isBlank
  let (t, m) ←
    if name = "YAML".toList then do
      let (major, m) ← readVersionPart m
      if !m.is '.' then throw "did not find expected digit or '.' character"
      let (minor, m) ← readVersionPart m.next
      pure (Token.versionDirective major minor, m)
    else if name = "TAG".toList then do
      let (handle, m) ← readTagHandle true m
      if !m.atBlank then throw "did not find expected whitespace"
      let (stem, m) ← readTagSuffix true [] (m.skipWhile isBlank)
      if !m.atGap then throw "did not find expected whitespace or line break"
      pure (Token.tagDirective (String.ofList handle) stem, m)
    else throw "found unknown directive name"
  let m := m.skipWhile isBlank
  let m := if m.is '#' then m.skipWhile fun c => !isBreak c else m
  if !(m.atEnd || m.atBreak) then throw "did not find expected comment or line break"
  pure ({ r with mark := m.readBreak.2 }.push t)

/-! ### Indicators -/

/-- Opens a bracket. -/
def openFlow (r : Reader) (t : Token) : Except Problem Reader := do
  let r ← r.noteKey
  pure ({ r with keys := none :: r.keys }.allowKeys.take 1 t)

/-- Closes a bracket. -/
def closeFlow (r : Reader) (t : Token) : Except Problem Reader := do
  let r ← r.dropKey
  let keys := if r.inFlow then r.keys.tail else r.keys
  pure ({ r with keys }.forbidKeys.take 1 t)

/-- Reads a dash before an entry. -/
def readBlockEntry (r : Reader) : Except Problem Reader := do
  if !r.inFlow && !r.keyAllowed then
    throw "block sequence entries are not allowed in this context"
  let r ← (r.indentTo r.mark.column none .blockSequence).dropKey
  pure (r.allowKeys.take 1 .blockEntry)

/-- Reads a question mark before a key. -/
def readKey (r : Reader) : Except Problem Reader := do
  if !r.inFlow && !r.keyAllowed then throw "mapping keys are not allowed in this context"
  let r ← (r.indentTo r.mark.column none .blockMapping).dropKey
  pure ({ r with keyAllowed := !r.inFlow }.take 1 .key)

/-- Reads a colon before a value; what stood before it on the line is its key. -/
def readValue (r : Reader) : Except Problem Reader :=
  match r.keys with
  | some k :: rest =>
    let r := { r with tokens := (r.tokens.toList.insertIdx k.token .key).toArray }
    let r := r.indentTo k.mark.column (some k.token) .blockMapping
    pure ({ r with keys := none :: rest }.forbidKeys.take 1 .value)
  | _ => do
    if !r.inFlow && !r.keyAllowed then throw "mapping values are not allowed in this context"
    let r := r.indentTo r.mark.column none .blockMapping
    pure ({ r with keyAllowed := !r.inFlow }.take 1 .value)

/-- Reads a text that may be a key. -/
def readKeyText (r : Reader) (read : Mark → Except Problem (List Char × Bool × Mark)) (plain : Bool) :
    Except Problem Reader := do
  let r ← r.noteKey
  let (cs, broken, m) ← read r.mark
  pure ({ r with mark := m, keyAllowed := broken }.push (.text (String.ofList cs) plain))

/-- Whether a plain text begins here. -/
def beginsPlain (r : Reader) : Bool :=
  let m := r.mark
  let indicators :=
    ['-', '?', ':', ',', '[', ']', '\x7b', '\x7d', '#', '&', '*', '!', '|', '>', '\x27', '\x22', '%',
     '@', '\x60']
  (!m.atGap && !m.at? 0 (· ∈ indicators)) ||
    (m.is '-' && !m.at? 1 isBlank) ||
    (!r.inFlow && (m.is '?' || m.is ':') && !m.gapAt 1)

/-- Reads the token at a character that is no blank. -/
def readToken (r : Reader) : Except Problem Reader := do
  let m := r.mark
  if m.column == 0 && m.is '%' then (← r.closeBlocks).readDirective
  else if m.atDocumentMarker '-' then pure ((← r.closeBlocks).take 3 .documentStart)
  else if m.atDocumentMarker '.' then pure ((← r.closeBlocks).take 3 .documentEnd)
  else if m.is '[' then r.openFlow .flowSequence
  else if m.is '\x7b' then r.openFlow .flowMapping
  else if m.is ']' then r.closeFlow .flowSequenceEnd
  else if m.is '\x7d' then r.closeFlow .flowMappingEnd
  else if m.is ',' then pure ((← r.dropKey).allowKeys.take 1 .flowEntry)
  else if m.is '-' && m.gapAt 1 then r.readBlockEntry
  else if m.is '?' && (r.inFlow || m.gapAt 1) then r.readKey
  else if m.is ':' && (r.inFlow || m.gapAt 1) then r.readValue
  else if m.is '*' then (← r.noteKey).forbidKeys.readName .alias
  else if m.is '&' then (← r.noteKey).forbidKeys.readName .anchor
  else if m.is '!' then (← r.noteKey).forbidKeys.readTag
  else if (m.is '|' || m.is '>') && !r.inFlow then do
    let r ← r.dropKey
    let (cs, m) ← readBlock (m.is '|') r.indent m.next
    pure ({ r with mark := m }.allowKeys.push (.text (String.ofList cs) false))
  else if m.is '\x27' || m.is '\x22' then
    let quote := if m.is '\x27' then '\x27' else '\x22'
    r.readKeyText (fun m => do
      let (cs, m) ← readQuoted quote (m.rest.length + 1) [] m.next
      pure (cs, false, m)) false
  else if r.beginsPlain then
    r.readKeyText (fun m => readPlain r.inFlow (r.indent + 1) (m.rest.length + 1) {} [] m) true
  else throw "found character that cannot start any token"

/-- Reads tokens to the end of the document. -/
def readAll : Nat → Reader → Except Problem Reader
  | 0, r => .ok r
  | fuel + 1, r => do
    let r ← (toNextToken (r.mark.rest.length + 1) r).dropStaleKeys
    let r := r.unindentTo r.mark.column
    if r.mark.atEnd then
      r.closeBlocks
    else readAll fuel (← r.readToken)

end Reader

/-- The tokens of a text. -/
def tokens (text : List Char) : Except Problem (List Token) := do
  let text := match text with
    | '\ufeff' :: rest => rest
    | _ => text
  if !text.all isPrintable then throw "control characters are not allowed"
  let r ← Reader.readAll (text.length + 1) { mark := .start text }
  pure r.tokens.toList

end ArtifactCache.Yaml
