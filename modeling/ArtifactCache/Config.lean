import ArtifactCache.Fault
import ArtifactCache.KeyMap
import ArtifactCache.Numeral.Decimal
import ArtifactCache.Yaml.Value

/-!
# Configuration

The settings of a session: texts under keys, understood when they are asked for.
-/

namespace ArtifactCache

/-- The settings of a session. -/
structure Config where
  settings : KeyMap String
  deriving DecidableEq

/-- The name of the setting that names tracking files. -/
def trackingNameKey : String := "local-repository.tracking-filename"

def defaultTrackingName : String := "_remote.repositories"

/-- Whether a name can be that of a file in any directory. -/
def isPlainName (name : String) : Bool :=
  name ≠ "" && name ≠ "." && name ≠ ".." && !name.toList.any (fun c => c = '/' || c = '\\')

namespace Config

def empty : Config := ⟨.empty⟩

instance : Inhabited Config := ⟨empty⟩

def size (c : Config) : Nat := c.settings.size

/-- The configuration with another value for a key. -/
def set (c : Config) (key value : String) : Config := ⟨c.settings.insert key value⟩

/-- The text of a value that has one. -/
def scalarText? : Yaml.Value → Option String
  | .bool b => some (if b then "true" else "false")
  | .number n => some n.display
  | .string s => some s
  | _ => none

/-- Adds an entry of a document; nothing is added for the null value. -/
def addEntry (c : Config) (entry : String × Yaml.Value) : Config :=
  match scalarText? entry.2 with
  | some text => c.set entry.1 text
  | none => c

/-- Whether a value is neither null nor a text. -/
def isIgnored (v : Yaml.Value) : Bool :=
  match v with
  | .null => false
  | v => (scalarText? v).isNone

/-- The configuration of a document, and the keys whose values it ignores. -/
def ofYaml (text : String) : Except Fault (Config × List String) :=
  match Yaml.readMapping text with
  | .error problem => .error (.yaml problem)
  | .ok m =>
    .ok (m.entries.foldl addEntry empty, (m.entries.filter fun e => isIgnored e.2).map (·.1))

/-- Applies an assignment `KEY=VALUE`; blanks around key and value do not count. -/
def assign (c : Config) (assignment : String) : Except Fault Config :=
  match Text.splitOnce '=' assignment with
  | none => .error (.config assignment .notAssignment)
  | some (key, value) => .ok (c.set (Text.trim key) (Text.trim value))

/-- Applies assignments in order. -/
def assignAll (c : Config) (assignments : List String) : Except Fault Config :=
  assignments.foldlM assign c

/-- The text of a setting. -/
def text? (c : Config) (key : String) : Option String := c.settings.get? key

def textOr (c : Config) (key default : String) : String := (c.text? key).getD default

/-- A setting that is true or false, in any case of letters. -/
def boolean (c : Config) (key : String) (default : Bool) : Except Fault Bool :=
  match c.text? key with
  | none => .ok default
  | some value =>
    if Text.lowerAscii value = "true" then .ok true
    else if Text.lowerAscii value = "false" then .ok false
    else .error (.config key (.notBoolean value))

/-- A setting that is a number. -/
def number? (c : Config) (key : String) : Except Fault (Option Numeral.Binary) :=
  match c.text? key with
  | none => .ok none
  | some value => match Numeral.Binary.read? Numeral.single (Text.trim value) with
    | some x => .ok (some x)
    | none => .error (.config key (.notNumber value))

/-- A setting that is a list with commas; blank items are left out. -/
def items (c : Config) (key : String) : List String :=
  match c.text? key with
  | none => []
  | some value => ((Text.splitOn ',' value).map Text.trim).filter (· ≠ "")

/-- The name of tracking files. -/
def trackingName (c : Config) : Except Fault String :=
  let name := Text.trim (c.textOr trackingNameKey defaultTrackingName)
  if isPlainName name then .ok name else .error (.config trackingNameKey (.notFileName name))

end Config
end ArtifactCache
