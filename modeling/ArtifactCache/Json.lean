import ArtifactCache.Text

/-!
# JSON

Values written as JSON over several lines, two blanks further in for each level.
-/

namespace ArtifactCache

/-- A JSON value. -/
inductive Json
  | null
  | bool (value : Bool)
  | nat (value : Nat)
  | text (value : String)
  | list (items : List Json)
  | object (fields : List (String × Json))

namespace Json

instance : Inhabited Json := ⟨.null⟩

/-- A text, or null. -/
def ofOption : Option String → Json
  | some s => .text s
  | none => .null

/-- A character as it is written within quotes. -/
def escape (c : Char) : String :=
  if c = '\x22' then "\\\""
  else if c = '\\' then "\\\\"
  else if c = '\x08' then "\\b"
  else if c = '\x0c' then "\\f"
  else if c = '\n' then "\\n"
  else if c = '\r' then "\\r"
  else if c = '\t' then "\\t"
  else if c.toNat < 32 then "\\u" ++ Text.hex 4 c.toNat
  else String.singleton c

/-- A text in quotes. -/
def quote (s : String) : String := "\"" ++ String.join (s.toList.map escape) ++ "\""

/-- The blanks at the beginning of a line. -/
def indent (level : Nat) : String := String.ofList (List.replicate (2 * level) ' ')

mutual

/-- A value that is nested in so many others. -/
def render (level : Nat) : Json → String
  | .null => "null"
  | .bool b => if b then "true" else "false"
  | .nat n => toString n
  | .text s => quote s
  | .list [] => "[]"
  | .list (x :: xs) => "[\n" ++ renderItems (level + 1) (x :: xs) ++ "\n" ++ indent level ++ "]"
  | .object [] => "\x7b\x7d"
  | .object (x :: xs) =>
    "\x7b\n" ++ renderFields (level + 1) (x :: xs) ++ "\n" ++ indent level ++ "\x7d"

/-- Items on lines of their own. -/
def renderItems (level : Nat) : List Json → String
  | [] => ""
  | x :: xs => indent level ++ render level x ++ (if xs.isEmpty then "" else ",\n") ++
      renderItems level xs

/-- Fields on lines of their own. -/
def renderFields (level : Nat) : List (String × Json) → String
  | [] => ""
  | (k, x) :: xs => indent level ++ quote k ++ ": " ++ render level x ++
      (if xs.isEmpty then "" else ",\n") ++ renderFields level xs

end

/-- A value on its own. -/
def pretty (j : Json) : String := j.render 0

end Json
end ArtifactCache
