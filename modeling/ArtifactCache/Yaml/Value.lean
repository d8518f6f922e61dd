import ArtifactCache.KeyMap
import ArtifactCache.Yaml.Node
import ArtifactCache.Yaml.Number

/-!
# Values of a document

What the nodes of a document stand for, once aliases are followed and texts are understood.
-/

namespace ArtifactCache.Yaml

/-- A value. -/
inductive Value
  | null
  | bool (b : Bool)
  | number (n : Number)
  | string (s : String)
  | sequence (items : List Value)
  | mapping (entries : List (Value × Value))
  | tagged (tag : String) (value : Value)

instance : Inhabited Value := ⟨.null⟩

namespace Value

mutual

/-- Whether two values are the same; the order of the entries of a mapping does not count. -/
def same : Value → Value → Bool
  | .null, .null => true
  | .bool a, .bool b => a == b
  | .number m, .number n => m == n
  | .string s, .string t => s == t
  | .sequence xs, .sequence ys => sameItems xs ys
  | .mapping xs, .mapping ys => xs.length == ys.length && sameEntries xs ys
  | .tagged s x, .tagged t y => s == t && same x y
  | _, _ => false

def sameItems : List Value → List Value → Bool
  | [], [] => true
  | x :: xs, y :: ys => same x y && sameItems xs ys
  | _, _ => false

/-- Whether every entry of the first list is in the second. -/
def sameEntries : List (Value × Value) → List (Value × Value) → Bool
  | [], _ => true
  | (k, v) :: xs, ys => ys.any (fun y => same k y.1 && same v y.2) && sameEntries xs ys

end

/-- How deeply collections may be nested. -/
def maxDepth : Nat := 128

/-- How often aliases may be followed for each event of a document. -/
def aliasesPerEvent : Nat := 100

/-- The words of YAML for true and false. -/
def bool? (s : String) : Option Bool :=
  if s ∈ ["true", "True", "TRUE"] then some true
  else if s ∈ ["false", "False", "FALSE"] then some false
  else none

/-- Whether a word stands for nothing. -/
def isNullWord (s : String) : Bool := s ∈ ["null", "Null", "NULL", "~"]

/-- What a plain text without a tag stands for. -/
def ofPlain (s : String) : Except Problem Value :=
  if s = "" || isNullWord s then .ok .null
  else match bool? s with
    | some b => .ok (.bool b)
    | none => match readNumber s.toList with
      | .number n => .ok (.number n)
      | .tooLarge => .error "integer out of range"
      | .notNumber => .ok (.string s)

/-- What a text with one of the standard tags stands for. -/
def ofTagged (tag s : String) : Except Problem Value :=
  if tag = "tag:yaml.org,2002:bool" then
    match bool? s with
    | some b => .ok (.bool b)
    | none => .error "expected a boolean"
  else if tag = "tag:yaml.org,2002:int" then
    match nonNegative? s.toList, negative? s.toList with
    | some n, _ => if n < Nat.pow 2 64 then .ok (.number (.whole n)) else .error "expected an integer"
    | none, some n => if n ≤ Nat.pow 2 63 then .ok (.number (.whole (-n))) else .error "expected an integer"
    | none, none => .error "expected an integer"
  else if tag = "tag:yaml.org,2002:float" then
    match real? s.toList with
    | some x => .ok (.number (.real x))
    | none => .error "expected a float"
  else if tag = "tag:yaml.org,2002:null" then
    if isNullWord s then .ok .null else .error "expected null"
  else .ok (.string s)

/-- What a text stands for, given its tag. -/
def ofText (tag : Option String) (s : String) (plain : Bool) : Except Problem Value :=
  match tag with
  | some t => ofTagged t s
  | none => if plain then ofPlain s else .ok (.string s)

/-- A tag of the document's own, as it is shown: without its exclamation mark unless that is all. -/
def ownTag? (tag : Option String) : Option String :=
  match tag.map String.toList with
  | some ['!'] => some "!"
  | some ('!' :: cs) => some (String.ofList cs)
  | _ => none

/-- Puts a tag of the document's own before a value. -/
def wrap (tag : Option String) (v : Value) : Value :=
  match ownTag? tag with
  | some t => .tagged t v
  | none => v

/-- Following aliases uses up a budget. -/
abbrev Budgeted := StateT Nat (Except Problem)

/-- What the numbers of anchors stand for. -/
abbrev Table := List (Nat × Node)

/-- The node itself, or the one an alias stands for. -/
def follow (table : Table) : Node → Budgeted Node
  | .alias n => do
    let left ← get
    if left = 0 then throw "repetition limit exceeded"
    set (left - 1)
    match table.lookup n with
    | some node => return node
    | none => throw "unknown anchor"
  | node => return node

/-- The entries of a mapping below the top; a key may not be repeated. -/
def ofEntries (value : Node → Budgeted Value) :
    List (Value × Value) → List (Node × Node) → Budgeted (List (Value × Value))
  | acc, [] => return acc.reverse
  | acc, (k, v) :: rest => do
    let k ← value k
    if acc.any fun e => same k e.1 then throw "duplicate entry"
    let v ← value v
    ofEntries value ((k, v) :: acc) rest

/-- The value of a node that is no collection. -/
def ofLeaf : Node → Budgeted Value
  | .text p s plain =>
    match ownTag? p.tag with
    | some t => return .tagged t (← ofText none s plain)
    | none => ofText p.tag s plain
  | _ => throw "recursion limit exceeded"

/-- The value of a node; the depth is how many more collections may be nested. -/
def ofNode (table : Table) : (depth : Nat) → Node → Budgeted Value
  | 0, n => do ofLeaf (← follow table n)
  | depth + 1, n => do
    match ← follow table n with
    | .sequence p items => return wrap p.tag (.sequence (← items.mapM (ofNode table depth)))
    | .mapping p entries => return wrap p.tag (.mapping (← ofEntries (ofNode table depth) [] entries))
    | leaf => ofLeaf leaf

end Value

mutual

/-- The nodes with anchors, in the order of the document. -/
def Node.anchored : Node → Value.Table
  | .alias _ => []
  | .text p s plain => p.anchor.toList.map (·, .text p s plain)
  | .sequence p items => p.anchor.toList.map (·, .sequence p items) ++ anchoredItems items
  | .mapping p entries => p.anchor.toList.map (·, .mapping p entries) ++ anchoredEntries entries

def anchoredItems : List Node → Value.Table
  | [] => []
  | n :: ns => n.anchored ++ anchoredItems ns

def anchoredEntries : List (Node × Node) → Value.Table
  | [] => []
  | (k, v) :: rest => k.anchored ++ v.anchored ++ anchoredEntries rest

end

mutual

/-- How many events a node is made of: one for a text or an alias, two for the ends of a collection. -/
def Node.events : Node → Nat
  | .alias _ => 1
  | .text .. => 1
  | .sequence _ items => 2 + eventsOfItems items
  | .mapping _ entries => 2 + eventsOfEntries entries

def eventsOfItems : List Node → Nat
  | [] => 0
  | n :: ns => n.events + eventsOfItems ns

def eventsOfEntries : List (Node × Node) → Nat
  | [] => 0
  | (k, v) :: rest => k.events + v.events + eventsOfEntries rest

end

/-- The text of a key, whatever its tag. -/
def keyText (table : Value.Table) (n : Node) : Value.Budgeted String := do
  match ← Value.follow table n with
  | .text _ s _ => return s
  | _ => throw "invalid type of key"

/-- The entries of a document that is a mapping with texts as keys; of several entries with one key
the last counts. A document without content is an empty mapping. -/
def readMapping (text : String) : Except Problem (KeyMap Value) := do
  match ← document? (← tokens text.toList) with
  | none => return .empty
  | some (.text _ s plain) => if s = "" && plain then return .empty else throw "invalid type"
  | some (.mapping p entries) =>
    let root := Node.mapping p entries
    let table := root.anchored.reverse
    let read : Value.Budgeted (List (String × Value)) := entries.mapM fun (k, v) => do
      return (← keyText table k, ← Value.ofNode table (Value.maxDepth - 1) v)
    let (pairs, _) ← read.run (Value.aliasesPerEvent * root.events)
    return .ofList pairs
  | some _ => throw "invalid type"

end ArtifactCache.Yaml
