import ArtifactCache.Text

/-!
# Arguments

What the arguments of the command line ask for. The settings that every command knows may stand
before or behind its name; if one of them is given at several places, the innermost counts.
-/

namespace ArtifactCache.CommandLine

/-- An option with a value. -/
inductive Setting
  | localRepo
  | type
  | config
  | define
  | logLevel
  | repo
  | context
  deriving DecidableEq

/-- An option without a value. -/
inductive Flag
  | json
  | force
  | metadata
  | absolute
  deriving DecidableEq

/-- The long name of an option with a value; a definition has only a short one. -/
def Setting.name? : Setting → Option String
  | .localRepo => some "local-repo"
  | .type => some "type"
  | .config => some "config"
  | .define => none
  | .logLevel => some "log-level"
  | .repo => some "repo"
  | .context => some "context"

def Flag.name : Flag → String
  | .json => "json"
  | .force => "force"
  | .metadata => "metadata"
  | .absolute => "absolute"

/-- The settings that every command knows. -/
def globals : List Setting := [.localRepo, .type, .config, .define, .logLevel]

/-- What may be given up to the name of the next command, or behind the last one. -/
structure Level where
  settings : List Setting := []
  repeatable : List Setting := []
  flags : List Flag := []
  commands : List String := []
  /-- How many arguments without a name may be given; without a number, any number. -/
  places : Option Nat := some 0
  hasVersion : Bool := false

/-- Why nothing is done. -/
inductive Stop
  | misuse
  | help
  | version
  deriving DecidableEq

/-- What was given at a level. -/
structure Given where
  settings : List (Setting × String) := []
  flags : List Flag := []
  places : List String := []

/-- What an argument is. -/
inductive Token
  | escape
  | setting (setting : Setting) (value : Option String)
  | flag (flag : Flag)
  | stop (stop : Stop)
  | place

namespace Level

/-- All settings that are known at a level. -/
def known (l : Level) : List Setting := globals ++ l.settings

/-- An argument with a long name, perhaps with a value behind `=`. -/
def readLong (l : Level) (body : String) : Token :=
  let (name, value) := match Text.splitOnce '=' body with
    | some (name, value) => (name, some value)
    | none => (body, none)
  match l.known.find? (fun s => s.name? = some name), l.flags.find? (fun f => f.name = name) with
  | some s, _ => .setting s value
  | none, some f => if value.isNone then .flag f else .stop .misuse
  | none, none =>
    if value.isSome then .stop .misuse
    else if name = "help" then .stop .help
    else if name = "version" && l.hasVersion then .stop .version
    else .stop .misuse

/-- An argument with a short name; what follows the name is its value. -/
def readShort (l : Level) (name : Char) (rest : List Char) : Token :=
  if name = 'D' then
    .setting .define <| match rest with
      | [] => none
      | '=' :: value => some (String.ofList value)
      | value => some (String.ofList value)
  else if name = 'h' then .stop .help
  else if name = 'V' && l.hasVersion then .stop .version
  else .stop .misuse

/-- What an argument is. -/
def read (l : Level) (argument : String) : Token :=
  match argument.toList with
  | ['-', '-'] => .escape
  | '-' :: '-' :: body => l.readLong (String.ofList body)
  | '-' :: name :: rest => l.readShort name rest
  | _ => .place

/-- Whether a value must not be empty. -/
def needsText (s : Setting) : Bool := s = .localRepo || s = .config

/-- Takes a setting. -/
def giveSetting (l : Level) (g : Given) (s : Setting) (value : String) : Except Stop Given :=
  let again := (g.settings.any fun e => e.1 = s) && s ≠ .define && !l.repeatable.contains s
  if again || (needsText s && value = "") then .error .misuse
  else .ok { g with settings := g.settings ++ [(s, value)] }

/-- Takes a flag, once. -/
def giveFlag (g : Given) (f : Flag) : Except Stop Given :=
  if g.flags.contains f then .error .misuse else .ok { g with flags := g.flags ++ [f] }

/-- Takes an argument without a name, if there is a place for it. -/
def givePlace (l : Level) (g : Given) (value : String) : Except Stop Given :=
  if l.commands.isEmpty && l.places.all (g.places.length < ·) then
    .ok { g with places := g.places ++ [value] }
  else .error .misuse

/-- Whether an argument cannot be the value of the one before it. -/
def isNamed (argument : String) : Bool :=
  match argument.toList with
  | '-' :: _ :: _ => true
  | _ => false

/-- Reads arguments up to the name of a command; answers also that name and what follows it. -/
def scan (l : Level) (g : Given) : List String → Except Stop (Given × Option (String × List String))
  | [] => .ok (g, none)
  | argument :: rest =>
    match l.read argument with
    | .escape => (rest.foldlM l.givePlace g).map (·, none)
    | .setting s (some value) => do scan l (← l.giveSetting g s value) rest
    | .setting s none =>
      match rest with
      | [] => .error .misuse
      | value :: rest =>
        if isNamed value then .error .misuse else do scan l (← l.giveSetting g s value) rest
    | .flag f => do scan l (← giveFlag g f) rest
    | .stop s => .error s
    | .place =>
      if l.commands.contains argument then .ok (g, some (argument, rest))
      else if argument = "help" && !l.commands.isEmpty then .error .help
      else do scan l (← l.givePlace g argument) rest

end Level

/-- What a command line asks for. -/
inductive Command
  | path (coordinate : String) (repo : Option String) (context : String) (metadata absolute : Bool)
  | find (coordinates repos : List String) (context : String) (json : Bool)
  | add (coordinate : String) (repo : Option String) (contexts : List String) (force : Bool)
  | showRecord (directory : String) (json : Bool)
  | listRecords (json : Bool)
  | resetRecord (directory : String)

/-- What every command is told. -/
structure Options where
  localRepo : Option String
  type : String
  config : Option String
  defines : List String
  logLevel : String

/-- A command and what it is told. -/
structure Invocation where
  options : Options
  command : Command

namespace Given

/-- The values of a setting, in order. -/
def values (g : Given) (s : Setting) : List String :=
  (g.settings.filter fun e => e.1 = s).map (·.2)

/-- The value of a setting that is given at most once. -/
def value? (g : Given) (s : Setting) : Option String := (g.values s).head?

end Given

/-- The values of a setting at the innermost of the levels, which are given from the outermost on,
that has any. -/
def innermost (levels : List Given) (s : Setting) : List String :=
  ((levels.reverse.map fun g => g.values s).find? (· ≠ [])).getD []

/-- What is said at all levels together. A repository may also be named in the environment, unless
its name there is empty. -/
def options (environment : Option String) (levels : List Given) : Except Stop Options :=
  if environment = some "" && levels.any fun g => (g.value? .localRepo).isNone then .error .misuse
  else .ok
    { localRepo := (innermost levels .localRepo).head?.or environment
      type := (innermost levels .type).head?.getD ""
      config := (innermost levels .config).head?
      defines := innermost levels .define
      logLevel := (innermost levels .logLevel).head?.getD "warn" }

def topLevel : Level :=
  { commands := ["path", "find", "add", "tracking"], hasVersion := true }

def pathLevel : Level :=
  { settings := [.repo, .context], flags := [.metadata, .absolute], places := some 1 }

def findLevel : Level :=
  { settings := [.repo, .context], repeatable := [.repo], flags := [.json], places := none }

def addLevel : Level :=
  { settings := [.repo, .context], repeatable := [.context], flags := [.force], places := some 1 }

def trackingLevel : Level := { commands := ["show", "list", "reset"] }

def showLevel : Level := { flags := [.json], places := some 1 }

def listLevel : Level := { flags := [.json] }

def resetLevel : Level := { places := some 1 }

/-- Reads the arguments of a command that has no further ones. -/
def scanLast (l : Level) (arguments : List String) : Except Stop Given :=
  (l.scan {} arguments).map (·.1)

/-- The command that was asked for behind its name, and what was given at each level. -/
def parseCommand (name : String) (arguments : List String) :
    Except Stop (Command × List Given) := do
  match name with
  | "path" =>
    let g ← scanLast pathLevel arguments
    match g.places with
    | [coordinate] =>
      return (.path coordinate (g.value? .repo) ((g.value? .context).getD "")
        (g.flags.contains .metadata) (g.flags.contains .absolute), [g])
    | _ => throw .misuse
  | "find" =>
    let g ← scanLast findLevel arguments
    if g.places.isEmpty then throw .misuse
    return (.find g.places (g.values .repo) ((g.value? .context).getD "") (g.flags.contains .json), [g])
  | "add" =>
    let g ← scanLast addLevel arguments
    match g.places with
    | [coordinate] =>
      let contexts := g.values .context
      return (.add coordinate (g.value? .repo) (if contexts.isEmpty then [""] else contexts)
        (g.flags.contains .force), [g])
    | _ => throw .misuse
  | _ =>
    let (outer, next) ← trackingLevel.scan {} arguments
    match next with
    | some ("show", rest) =>
      let g ← scanLast showLevel rest
      match g.places with
      | [directory] =>
        if directory = "" then throw .misuse
        return (.showRecord directory (g.flags.contains .json), [outer, g])
      | _ => throw .misuse
    | some ("list", rest) =>
      let g ← scanLast listLevel rest
      return (.listRecords (g.flags.contains .json), [outer, g])
    | some (_, rest) =>
      let g ← scanLast resetLevel rest
      match g.places with
      | [directory] =>
        if directory = "" then throw .misuse
        return (.resetRecord directory, [outer, g])
      | _ => throw .misuse
    | none => throw .misuse

/-- What the arguments ask for, given the repository that the environment names. -/
def parse (environment : Option String) (arguments : List String) : Except Stop Invocation := do
  let (top, next) ← topLevel.scan {} arguments
  match next with
  | none => throw .misuse
  | some (name, rest) =>
    let (command, levels) ← parseCommand name rest
    return ⟨← options environment (top :: levels), command⟩

end ArtifactCache.CommandLine
