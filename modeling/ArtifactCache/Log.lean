import ArtifactCache.Text

/-!
# Log

What is written down about a run beside its results, and which of it is shown.
-/

namespace ArtifactCache.Log

/-- How much a line matters, from the most to the least. -/
inductive Level
  | error
  | warn
  | info
  | debug
  | trace
  deriving DecidableEq

namespace Level

def rank : Level → Nat
  | .error => 1
  | .warn => 2
  | .info => 3
  | .debug => 4
  | .trace => 5

def name : Level → String
  | .error => "ERROR"
  | .warn => "WARN"
  | .info => "INFO"
  | .debug => "DEBUG"
  | .trace => "TRACE"

end Level

/-- One line, with the part of the program it comes from. -/
structure Entry where
  level : Level
  source : String
  text : String
  deriving DecidableEq

/-- The part of the program that is called `name`. -/
def part (name : String) : String := "local_repo::" ++ name

/-- An entry as it is shown; further lines of its text are indented. -/
def Entry.line (e : Entry) : String :=
  let padding := String.ofList (List.replicate (5 - e.level.name.length) ' ')
  "[" ++ e.level.name ++ padding ++ " " ++ e.source ++ "] " ++
    Text.join "\n    " (Text.splitOn '\n' e.text)

/-- Up to which level the entries of a part are shown; a rule without a name is for all parts. -/
structure Rule where
  source : Option String
  limit : Nat

/-- Which entries are shown. -/
structure Filter where
  rules : List Rule
  mention : Option String

/-- The number of a word for a level, zero for none at all. -/
def limit? (word : String) : Option Nat :=
  ["off", "error", "warn", "info", "debug", "trace"].findIdx? (· = Text.lowerAscii word)

/-- A rule, or the text that is none. A name alone shows everything of the part so called. -/
def Rule.parse (s : String) : Except String Rule :=
  match Text.splitOn '=' s with
  | [word] => match limit? word with
    | some n => .ok ⟨none, n⟩
    | none => .ok ⟨some word, Level.trace.rank⟩
  | [name, word] =>
    let word := Text.trim word
    if word = "" then .ok ⟨some name, Level.trace.rank⟩
    else match limit? word with
      | some n => .ok ⟨some name, n⟩
      | none => .error ("invalid logging spec '" ++ word ++ "'")
  | _ => .error ("invalid logging spec '" ++ s ++ "'")

/-- Adds a rule in the place of one for the same part. -/
def addRule (rule : Rule) : List Rule → List Rule
  | [] => [rule]
  | r :: rs => if r.source = rule.source then rule :: rs else r :: addRule rule rs

/-- Rules between commas, then, after a slash, a text that entries have to mention. -/
def Filter.parse (s : String) : Filter × List String :=
  let split (names : String) (mention : Option String) : Filter × List String :=
    let pieces := ((Text.splitOn ',' names).map Text.trim).filter (· ≠ "")
    let readings := pieces.map Rule.parse
    (⟨(readings.filterMap Except.toOption).foldl (fun rules r => addRule r rules) [], mention⟩,
      readings.filterMap fun
        | .error problem => some problem
        | .ok _ => none)
  match Text.splitOn '/' s with
  | [names] => split names none
  | [names, mention] => split names (some mention)
  | _ => (⟨[], none⟩, ["invalid logging spec '" ++ s ++ "' (too many '/'s)"])

/-- How well a rule fits a part: by the length of its name in bytes, if the part's name begins
with it. -/
def Rule.fit? (r : Rule) (source : String) : Option Nat :=
  match r.source with
  | none => some 0
  | some name => if Text.startsWith source name then some name.utf8ByteSize else none

/-- The rule for a part: of those that fit best, the last. -/
def ruleFor? (source : String) : List Rule → Option (Nat × Rule)
  | [] => none
  | r :: rs =>
    match r.fit? source, ruleFor? source rs with
    | some n, some (m, best) => if m < n then some (n, r) else some (m, best)
    | some n, none => some (n, r)
    | none, best => best

/-- Up to which level the entries of a part are shown; without any rules only errors are. -/
def Filter.limitOf (f : Filter) (source : String) : Nat :=
  if f.rules.isEmpty then Level.error.rank
  else match ruleFor? source f.rules with
    | some (_, r) => r.limit
    | none => 0

/-- Whether `part` occurs in a text. -/
def occurs (part : List Char) : List Char → Bool
  | [] => part.isEmpty
  | c :: cs => part.isPrefixOf (c :: cs) || occurs part cs

/-- Whether an entry is shown. -/
def Filter.shows (f : Filter) (e : Entry) : Bool :=
  e.level.rank ≤ f.limitOf e.source && (f.mention.all fun part => occurs part.toList e.text.toList)

/-- The lines of the entries that are shown. -/
def Filter.lines (f : Filter) (entries : List Entry) : List String :=
  (entries.filter f.shows).map Entry.line

end ArtifactCache.Log
