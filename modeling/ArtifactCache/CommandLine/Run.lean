import ArtifactCache.CommandLine.Arguments
import ArtifactCache.CommandLine.Report
import ArtifactCache.Json
import ArtifactCache.Manager.Add
import ArtifactCache.Session
import ArtifactCache.Url.Check

/-!
# Running commands

What a command line does to the disk, what it prints and what it writes down.
-/

namespace ArtifactCache.CommandLine

/-- What a run has come to so far. -/
structure Progress where
  disk : Disk
  output : List String := []
  log : List Log.Entry := []

/-- A part of a run, which may fail; what was done before stays done. -/
abbrev Work := ExceptT Failure (StateM Progress)

/-- Prints a line. -/
def say (line : String) : Work Unit := modify fun p => { p with output := p.output ++ [line] }

/-- Writes something down. -/
def note (entries : List Log.Entry) : Work Unit := modify fun p => { p with log := p.log ++ entries }

/-- Goes on with a result, or fails with its fault. -/
def expect {α : Type} (r : Except Fault α) : Work α :=
  match r with
  | .ok x => pure x
  | .error f => throw (.ofFault f)

/-- Goes on with a result, or fails in the attempt because of its fault. -/
def attempt {α : Type} (what : String) (r : Except Fault α) : Work α :=
  match r with
  | .ok x => pure x
  | .error f => throw (.within what (.ofFault f))

/-- A repository named on the command line, `ID` or `ID=URL`. -/
def parseRepository (s : String) : Work RemoteRepository := do
  let (id, url) ← match Text.splitOnce '=' s with
    | none => pure (s, "")
    | some (id, url) => match Url.check url with
      | .ok () => pure (id, url)
      | .error p =>
        throw ⟨"Invalid URL for repository '" ++ id ++ "': " ++ url, [p.message]⟩
  if id = "" then throw ⟨"Repository id must not be empty in '" ++ s ++ "'", []⟩
  return { id, url }

/-- An artifact named on the command line. -/
def parseArtifact (s : String) : Work Artifact :=
  attempt ("Cannot parse artifact coordinate '" ++ s ++ "'") (Artifact.parse s)

/-- A metadata document named on the command line. -/
def parseMetadata (s : String) : Work Metadata :=
  attempt ("Cannot parse metadata coordinate '" ++ s ++ "'") (Metadata.parse s)

/-- The configuration in a file, and the keys whose values it ignores. -/
def readConfig (d : Disk) (path : String) : Except Fault (Config × List String) :=
  match d.readText path with
  | .ok text => Config.ofYaml text
  | .error e => .error (.io e)

/-- The entry about a value of a configuration that is ignored. -/
def ignoredEntry (key : String) : Log.Entry :=
  ⟨.warn, Log.part "config", "Ignoring non-scalar configuration value for '" ++ key ++ "'"⟩

/-- The configuration of a run: a file, if there is one, and the definitions on top of it. -/
def loadConfig (o : Options) : Work Config := do
  let c ← match o.config with
    | none => pure .empty
    | some path => do
      let (c, ignored) ← attempt ("Failed to load configuration " ++ path)
        (readConfig (← get).disk path)
      note (ignored.map ignoredEntry)
      pure c
  expect (c.assignAll o.defines)

/-- A session, and the sessions it is one of. -/
structure Opened where
  sessions : Sessions
  session : Session

/-- Opens a session on the repository of a run. -/
def openSession (home : String) (o : Options) : Work Opened := do
  let path := o.localRepo.getD (LocalRepository.defaultPath home)
  let r ← expect (LocalRepository.locate (← get).disk path o.type)
  let c ← loadConfig o
  note (Provider.log c r)
  let (sessions, session) ←
    attempt ("Failed to open local repository " ++ r.display) (Sessions.begin {} c r)
  note [Sessions.openedEntry session.id r]
  return ⟨sessions, session⟩

/-- Ends the session of a run. -/
def closeSession (x : Opened) : Work Unit := do
  let (_, ran) ← expect (x.sessions.finish x.session.id)
  note [Sessions.endedEntry x.session.id ran]
  expect (Sessions.report x.session.id ran)

/-- Does something while the lock is held, and gives the lock back even if that fails. -/
def holding {α : Type} (shared : Bool) (work : Work α) : Work α := do
  let part := Log.part "sync"
  let mode := if shared then "shared" else "exclusive"
  note [⟨.trace, part, "Acquiring " ++ mode ++ " sync context"⟩]
  let result ← tryCatch (work.map Except.ok) fun f => pure (Except.error f)
  note [⟨.trace, part, "Released sync context after 1 hold(s)"⟩]
  match result with
  | .ok x => return x
  | .error f => throw f

/-- Prints the path of an artifact or a metadata document. -/
def runPath (home : String) (o : Options) (coordinate : String) (repo : Option String)
    (context : String) (metadata absolute : Bool) : Work Unit := do
  let r ← repo.mapM parseRepository
  let x ← openSession home o
  let m := x.session.manager
  let relative ←
    if metadata then do
      pure (m.metadataPath (← parseMetadata coordinate) r context)
    else do
      let a ← parseArtifact coordinate
      pure (match r with
        | some r => m.downloadedPath a r
        | none => m.installedPath a)
  say (if absolute then m.resolve relative else relative)
  closeSession x

/-- What was found for a coordinate, as JSON. -/
def answerJson (coordinate : String) (a : Manager.Answer) : Json :=
  .object [("coordinate", .text coordinate), ("available", .bool a.available),
    ("path", .ofOption a.path), ("repository", .ofOption (a.repository.map (·.id)))]

/-- What was found for a coordinate, as a line. -/
def answerLine (coordinate : String) (a : Manager.Answer) : String :=
  match a.path with
  | none => coordinate ++ ": missing"
  | some path =>
    if a.available then
      coordinate ++ ": available from " ++ (a.repository.map (·.id)).getD "local" ++ " at " ++ path
    else coordinate ++ ": not available from the requested repositories (found " ++ path ++ ")"

/-- Looks for one artifact and writes down how. -/
def findOne (m : Manager) (q : Manager.Request) : Work (Except Fault Manager.Answer) := do
  let d := (← get).disk
  note (m.findLog d q)
  return m.find d q

/-- Prints whether artifacts are available. -/
def runFind (home : String) (o : Options) (coordinates repos : List String) (context : String)
    (json : Bool) : Work Unit := do
  let rs ← repos.mapM parseRepository
  let artifacts ← coordinates.mapM parseArtifact
  let x ← openSession home o
  let m := x.session.manager
  let results ← holding true (artifacts.mapM fun a => findOne m ⟨a, rs, context⟩)
  let answers ← (coordinates.zip results).mapM fun (coordinate, result) => do
    let a ← attempt ("Failed to look up " ++ coordinate) result
    pure (coordinate, a)
  if json then say (Json.list (answers.map fun (c, a) => answerJson c a)).pretty
  else answers.forM fun (c, a) => say (answerLine c a)
  closeSession x

/-- Registers an arrival and writes down how. -/
def register (m : Manager) (x : Manager.Arrival) : Work Unit := do
  let d := (← get).disk
  note (m.addLog d x)
  let done := m.add d x
  modify fun p => { p with disk := done.disk }
  match done.fault with
  | none => pure ()
  | some f => throw (.within ("Failed to register " ++ x.artifact.display) (.ofFault f))

/-- Registers where an artifact comes from. -/
def runAdd (home : String) (o : Options) (coordinate : String) (repo : Option String)
    (contexts : List String) (force : Bool) : Work Unit := do
  let a ← parseArtifact coordinate
  let r ← repo.mapM parseRepository
  let x ← openSession home o
  let m := x.session.manager
  let paths := match r with
    | some r => contexts.map fun _ => m.downloadedPath a r
    | none => [m.installedPath a]
  if !force then
    paths.forM fun relative => do
      let file := m.resolve relative
      if !(← get).disk.isFile file then
        throw ⟨"No file for " ++ a.display ++ " at " ++ file ++
          "; place the artifact before registering it", []⟩
  holding false (register m ⟨a, r, contexts⟩)
  let origin := (r.map (·.id)).getD "local install"
  paths.forM fun relative =>
    say ("Registered " ++ a.display ++ " (" ++ origin ++ ") at " ++ relative)
  closeSession x

/-- Reads a tracking file and writes that down. -/
def readTracking (path : String) : Work (Option Tracking.Record) := do
  let r ← expect (Tracking.read (← get).disk path)
  note ((r.map (Tracking.readEntry path)).toList)
  return r

/-- An origin as it is shown. -/
def originText (origin : String) : String := if origin = "" then "(local install)" else origin

/-- The origins of a file as they are shown. -/
def originsLine (entry : String × List String) : String :=
  "  " ++ entry.1 ++ ": " ++ Text.join ", " (entry.2.map originText)

/-- Prints the record in a tracking file. -/
def showRecord (path : String) (json : Bool) : Work Unit := do
  match ← readTracking path with
  | none => say (if json then "\x7b\x7d" else "No tracking file at " ++ path)
  | some r =>
    let files := (originsByFile r).entries
    if json then
      say (Json.object (files.map fun (file, origins) => (file, .list (origins.map .text)))).pretty
    else do
      say path
      files.forM fun entry => say (originsLine entry)

/-- What is told of one tracking file: the directory it is in, how many files it is about, and how
many entries it has. -/
structure Summary where
  directory : String
  files : Nat
  entries : Nat

def Summary.json (s : Summary) : Json :=
  .object [("directory", .text s.directory), ("files", .nat s.files), ("entries", .nat s.entries)]

def Summary.line (s : Summary) : String :=
  s.directory ++ "  " ++ toString s.files ++ " file(s), " ++ toString s.entries ++ " entr" ++
    (if s.entries = 1 then "y" else "ies")

/-- Whether `p` comes before `q`: by the first name in which they differ. -/
def precedes : Place → Place → Bool
  | [], _ => true
  | _ :: _, [] => false
  | m :: ms, n :: ns => m < n || (m = n && precedes ms ns)

/-- The files of the given name below a place, each by the names that lead to it. A link is none,
whatever it leads to, and what lies behind one is not looked at. -/
def filesNamed (d : Disk) (base : Place) (name : String) : List Place :=
  (d.namesBelow base).filter fun p =>
    p.getLast? = some name && (match d.at? (base ++ p) with | some (.file _) => true | _ => false)

/-- The directories below a place that have a file of the given name, in order. -/
def directoriesWith (d : Disk) (base : Place) (name : String) : List Place :=
  ((filesNamed d base name).mergeSort precedes).map List.dropLast

/-- The directories below a path that have a tracking file. -/
def trackedDirectories (d : Disk) (base name : String) : List Place :=
  match d.resolve base with
  | .ok (place, .directory) => directoriesWith d place name
  | _ => []

/-- Prints which tracking files there are. -/
def listRecords (base name : String) (json : Bool) : Work Unit := do
  let directories := trackedDirectories (← get).disk base name
  let summaries ← directories.mapM fun p => do
    let directory := Text.join "/" p
    let r ← readTracking (Path.join ((p.foldl Path.join base)) name)
    let r := r.getD .empty
    pure (⟨directory, (originsByFile r).size, r.size⟩ : Summary)
  if json then say (Json.list (summaries.map Summary.json)).pretty
  else if summaries.isEmpty then say ("No tracking files found in: " ++ base)
  else summaries.forM fun s => say s.line

/-- Deletes a tracking file. -/
def resetRecord (path : String) : Work Unit := do
  match ← expect (Tracking.delete (← get).disk path) with
  | none => say ("No tracking file at " ++ path)
  | some d =>
    modify fun p => { p with disk := d }
    note [Tracking.deleteEntry path]
    say ("Deleted " ++ path)

/-- Does something with the tracking files of a repository: it is told where the repository is and
what they are called. -/
def runTracking (home : String) (o : Options) (shared : Bool) (work : String → String → Work Unit) :
    Work Unit := do
  let x ← openSession home o
  let name ← expect x.session.config.trackingName
  holding shared (work x.session.manager.repository.base name)
  closeSession x

/-- Runs a command. -/
def runCommand (home : String) (i : Invocation) : Work Unit :=
  match i.command with
  | .path coordinate repo context metadata absolute =>
    runPath home i.options coordinate repo context metadata absolute
  | .find coordinates repos context json => runFind home i.options coordinates repos context json
  | .add coordinate repo contexts force => runAdd home i.options coordinate repo contexts force
  | .showRecord directory json =>
    runTracking home i.options true fun base name =>
      showRecord (Path.join (Path.join base directory) name) json
  | .listRecords json => runTracking home i.options true fun base name => listRecords base name json
  | .resetRecord directory =>
    runTracking home i.options false fun base name =>
      resetRecord (Path.join (Path.join base directory) name)

/-- What a run takes from the environment. -/
structure Environment where
  home : String
  localRepo : Option String := none

/-- What comes of a run. -/
structure Outcome where
  disk : Disk
  code : Nat
  output : String := ""
  errors : String := ""

def versionLine : String := "local-repo 0.4.0\n"

def usage : String := "Usage: local-repo [OPTIONS] <COMMAND>\n"

/-- Lines with a line break after each. -/
def unlines (lines : List String) : String := String.join (lines.map (· ++ "\n"))

/-- Runs a command line. -/
def run (e : Environment) (d : Disk) (arguments : List String) : Outcome :=
  match parse e.localRepo arguments with
  | .error .version => { disk := d, code := 0, output := versionLine }
  | .error .help => { disk := d, code := 0, output := usage }
  | .error .misuse => { disk := d, code := 2, errors := usage }
  | .ok i =>
    let (filter, warnings) := Log.Filter.parse i.options.logLevel
    let (result, p) := ((runCommand e.home i).run.run { disk := d })
    let (code, report) := match result with
      | .ok () => (0, "")
      | .error f => (1, f.report)
    { disk := p.disk
      code
      output := unlines p.output
      errors := unlines (warnings.map fun w => "warning: " ++ w ++ ", ignoring it") ++
        unlines (filter.lines p.log) ++ report }

end ArtifactCache.CommandLine
