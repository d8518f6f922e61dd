import ArtifactCache.Yaml.Token

/-!
# Nodes of a document

The tree that the tokens of a document describe.
-/

namespace ArtifactCache.Yaml

/-- What may stand before a node: a tag, and an anchor, which is known by a number. -/
structure Properties where
  anchor : Option Nat := none
  tag : Option String := none

/-- A node; an alias stands for the node with the number of its anchor. -/
inductive Node
  | alias (anchor : Nat)
  | text (properties : Properties) (content : String) (plain : Bool)
  | sequence (properties : Properties) (items : List Node)
  | mapping (properties : Properties) (entries : List (Node × Node))

instance : Inhabited Node := ⟨.alias 0⟩

/-- A node that is left out. -/
def Node.blank (p : Properties) : Node := .text p "" true

/-- The tokens still to be read and the numbers of the anchors met so far. An anchor gets the number
of names known when it is met, so a name used again takes the number of the next new name. -/
structure Source where
  tokens : List Token
  anchors : List (String × Nat) := []
  handles : List (String × String) := []

/-- Reads something off the tokens. -/
abbrev Parser := StateT Source (Except Problem)

namespace Parser

def next : Parser (Option Token) := do return (← get).tokens.head?

def advance : Parser Unit := modify fun s => { s with tokens := s.tokens.drop 1 }

/-- Whether the next token is one of these. -/
def nextIs (ts : List Token) : Parser Bool := do
  return (← next).any (· ∈ ts)

/-- The handles that need no directive. -/
def standardHandles : List (String × String) := [("!", "!"), ("!!", "tag:yaml.org,2002:")]

/-- The tag with its handle replaced by what that stands for. -/
def resolveTag (handle suffix : String) : Parser String := do
  if handle = "" then return suffix
  match ((← get).handles ++ standardHandles).lookup handle with
  | some stem => return stem ++ suffix
  | none => throw "found undefined tag handle"

/-- Gives a name a number. -/
def declareAnchor (name : String) : Parser Nat := do
  let s ← get
  let number := s.anchors.length
  set { s with anchors := (name, number) :: s.anchors.filter (·.1 ≠ name) }
  return number

def anchor? : Parser (Option String) := do
  match ← next with
  | some (.anchor name) => advance; return some name
  | _ => return none

def tag? : Parser (Option String) := do
  match ← next with
  | some (.tag handle suffix) => advance; return some (← resolveTag handle suffix)
  | _ => return none

/-- Reads an anchor and a tag, in either order. -/
def properties : Parser Properties := do
  let first ← anchor?
  let tag ← tag?
  let name ← if first.isSome || tag.isNone then pure first else anchor?
  match name with
  | some name => return { anchor := some (← declareAnchor name), tag }
  | none => return { tag }

/-- The properties of a text; the tag `!` only says that it has none. -/
def ofText (p : Properties) : Properties :=
  if p.tag = some "!" then { p with tag := none } else p

/-- A node left out, which is allowed after an anchor or a tag. -/
def missing (p : Properties) : Parser Node :=
  if p.anchor.isSome || p.tag.isSome then return .blank p
  else throw "did not find expected node content"

/-- Reads the comma between two items. -/
def separator (close : Token) (problem : Problem) (first : Bool) : Parser Unit := do
  if first || (← nextIs [close]) then return
  if ← nextIs [.flowEntry] then advance else throw problem

mutual

/-- Reads a node. Block collections are read only where `block` allows them, and a sequence without
an indentation of its own only where `indentless` does. -/
def node : Nat → (block indentless : Bool) → Parser Node
  | 0, _, _ => throw "too deeply nested"
  | fuel + 1, block, indentless => do
    if let some (.alias name) ← next then
      advance
      match (← get).anchors.lookup name with
      | some number => return .alias number
      | none => throw "unknown anchor"
    let p ← properties
    match ← next with
    | some (.text content plain) => advance; return .text (ofText p) content plain
    | some .flowSequence => advance; return .sequence p (← flowItems fuel true)
    | some .flowMapping => advance; return .mapping p (← flowEntries fuel true)
    | some .blockEntry =>
      if indentless then return .sequence p (← indentlessItems fuel) else missing p
    | some .blockSequence =>
      if block then advance; return .sequence p (← blockItems fuel) else missing p
    | some .blockMapping =>
      if block then advance; return .mapping p (← blockEntries fuel) else missing p
    | _ => missing p

/-- Reads a node, or none at all before one of the given tokens. -/
def nodeUnless : Nat → List Token → (block indentless : Bool) → Parser Node
  | 0, _, _, _ => throw "too deeply nested"
  | fuel + 1, ends, block, indentless => do
    if ← nextIs ends then return .blank {} else node fuel block indentless

/-- Reads the entries of an indented sequence. -/
def blockItems : Nat → Parser (List Node)
  | 0 => throw "too deeply nested"
  | fuel + 1 => do
    match ← next with
    | some .blockEntry =>
      advance
      let item ← nodeUnless fuel [.blockEntry, .blockEnd] true false
      return item :: (← blockItems fuel)
    | some .blockEnd => advance; return []
    | _ => throw "did not find expected '-' indicator"

/-- Reads the entries of a sequence that is indented like the key before it. -/
def indentlessItems : Nat → Parser (List Node)
  | 0 => throw "too deeply nested"
  | fuel + 1 => do
    if ← nextIs [.blockEntry] then
      advance
      let item ← nodeUnless fuel [.blockEntry, .key, .value, .blockEnd] true false
      return item :: (← indentlessItems fuel)
    else return []

/-- Reads the entries of an indented mapping. -/
def blockEntries : Nat → Parser (List (Node × Node))
  | 0 => throw "too deeply nested"
  | fuel + 1 => do
    match ← next with
    | some .key =>
      advance
      let k ← nodeUnless fuel [.key, .value, .blockEnd] true true
      let v ← value fuel [.key, .value, .blockEnd] true
      return (k, v) :: (← blockEntries fuel)
    | some .blockEnd => advance; return []
    | _ => throw "did not find expected key"

/-- Reads a colon and what follows it; a value may be left out with its colon. -/
def value : Nat → List Token → (block : Bool) → Parser Node
  | 0, _, _ => throw "too deeply nested"
  | fuel + 1, ends, block => do
    if ← nextIs [.value] then
      advance
      nodeUnless fuel ends block block
    else return .blank {}

/-- Reads the items of a sequence in brackets; a pair among them is a mapping of one entry. -/
def flowItems : Nat → (first : Bool) → Parser (List Node)
  | 0, _ => throw "too deeply nested"
  | fuel + 1, first => do
    separator .flowSequenceEnd "did not find expected ',' or ']'" first
    match ← next with
    | some .flowSequenceEnd => advance; return []
    | some .key =>
      advance
      let ends := [.value, .flowEntry, .flowSequenceEnd]
      let bare ← nextIs ends
      let k ← nodeUnless fuel ends false false
      if bare then advance
      let v ← value fuel [.flowEntry, .flowSequenceEnd] false
      return .mapping {} [(k, v)] :: (← flowItems fuel false)
    | _ =>
      let item ← node fuel false false
      return item :: (← flowItems fuel false)

/-- Reads the entries of a mapping in braces; an entry may be a key alone. -/
def flowEntries : Nat → (first : Bool) → Parser (List (Node × Node))
  | 0, _ => throw "too deeply nested"
  | fuel + 1, first => do
    separator .flowMappingEnd "did not find expected ',' or a brace" first
    match ← next with
    | some .flowMappingEnd => advance; return []
    | some .key =>
      advance
      let k ← nodeUnless fuel [.value, .flowEntry, .flowMappingEnd] false false
      let v ← value fuel [.flowEntry, .flowMappingEnd] false
      return (k, v) :: (← flowEntries fuel false)
    | _ =>
      let k ← node fuel false false
      return (k, .blank {}) :: (← flowEntries fuel false)

end

/-- Reads the directives before a document. -/
def directives : Nat → (versioned : Bool) → Parser Unit
  | 0, _ => throw "too many directives"
  | fuel + 1, versioned => do
    match ← next with
    | some (.versionDirective major minor) =>
      if versioned then throw "found duplicate %YAML directive"
      if major ≠ 1 ∨ (minor ≠ 1 ∧ minor ≠ 2) then throw "found incompatible YAML document"
      advance
      directives fuel true
    | some (.tagDirective handle stem) =>
      let s ← get
      if (s.handles.lookup handle).isSome then throw "found duplicate %TAG directive"
      set { s with handles := s.handles ++ [(handle, stem)] }
      advance
      directives fuel versioned
    | _ => return

def nextIsDirective : Parser Bool := do
  return (← next).any fun
    | .versionDirective .. | .tagDirective .. => true
    | _ => false

/-- Reads a document, of which the tokens are all there are. -/
def document (fuel : Nat) : Parser Node := do
  let begun := (← nextIsDirective) || (← nextIs [.documentStart])
  if begun then
    directives fuel false
    if !(← nextIs [.documentStart]) then throw "did not find expected <document start>"
    advance
  let bare := (← next).isNone || (← nextIsDirective) || (← nextIs [.documentStart, .documentEnd])
  let root ← if begun && bare then pure (.blank {}) else node fuel true false
  if (← get).tokens.all (· = .documentEnd) then return root else throw "more than one document"

end Parser

/-- The only document of a list of tokens; no tokens at all are no document. -/
def document? (ts : List Token) : Except Problem (Option Node) :=
  if ts.isEmpty then .ok none
  else (Parser.document (4 * ts.length + 8)).run { tokens := ts } |>.map (some ·.1)

end ArtifactCache.Yaml
