import ArtifactCache.IoError
import ArtifactCache.Tracking.Syntax

/-!
# Faults

Everything that can go wrong in the repository layer, as data, and the one place where it is put
into words. That something is not cached is no fault.
-/

namespace ArtifactCache

/-- Why a text is no coordinate. -/
inductive CoordinateProblem
  | artifactFields
  | emptyField
  | metadataFields
  | stated (text : String)

def CoordinateProblem.message : CoordinateProblem → String
  | .artifactFields => "expected group:artifact[:extension[:classifier]]:version"
  | .emptyField => "group, artifact and version must not be empty"
  | .metadataFields => "expected group:artifact:version:type with a non-empty type"
  | .stated t => t

/-- Why a configuration value cannot be used. -/
inductive SettingProblem
  | notAssignment
  | notBoolean (value : String)
  | notNumber (value : String)
  | notFileName (value : String)
  | stated (text : String)

def SettingProblem.message : SettingProblem → String
  | .notAssignment => "expected KEY=VALUE"
  | .notBoolean v => "expected a boolean, got '" ++ v ++ "'"
  | .notNumber v => "expected a number, got '" ++ v ++ "'"
  | .notFileName v => "'" ++ v ++ "' is not a plain file name"
  | .stated t => t

/-- Why a directory cannot be a local repository. -/
inductive RepositoryProblem
  | emptyPath
  | notDirectory
  | stated (text : String)

def RepositoryProblem.message : RepositoryProblem → String
  | .emptyPath => "base path is empty"
  | .notDirectory => "base path is not a directory"
  | .stated t => t

/-- Why a call on a session is refused. -/
inductive SessionProblem
  | inactive (session : Nat)
  | stated (text : String)

def SessionProblem.message : SessionProblem → String
  | .inactive n => "session " ++ toString n ++ " is not active"
  | .stated t => t

/-- Why a tracking file cannot be understood. -/
inductive FormatProblem
  | syntaxFailure (failure : Tracking.Failure)
  | stated (text : String)

def FormatProblem.message : FormatProblem → String
  | .syntaxFailure f => f.message
  | .stated t => t

/-- Why no candidate was selected. -/
inductive SelectionProblem
  | noneEnabled (kind context candidates : String)
  | allRejected (kind context candidates : String)
  | stated (text : String)

def SelectionProblem.message : SelectionProblem → String
  | .noneEnabled kind context candidates =>
    "No " ++ kind ++ " available for " ++ context ++ "; candidates " ++ candidates
  | .allRejected kind context candidates =>
    "Cannot select a " ++ kind ++ " for " ++ context ++ " using the available candidates " ++ candidates
  | .stated t => t

/-- What can go wrong. -/
inductive Fault
  | trackingIo (path : String) (cause : IoError)
  | lockContention (path : String) (attempts : Nat) (cause : IoError)
  | trackingFormat (path : String) (problem : FormatProblem)
  | invalidRepository (path : String) (problem : RepositoryProblem)
  | unsupportedRepository (factory path contentType : String)
  | noMatchingComponent (kind : String) (problem : SelectionProblem) (failures : List (String × Fault))
  | config (key : String) (problem : SettingProblem)
  | coordinate (text : String) (problem : CoordinateProblem)
  | session (problem : SessionProblem)
  | sessionEnd (session : Nat) (errors : List Fault)
  | lockPoisoned (context : String)
  | io (cause : IoError)
  | yaml (problem : String)

namespace Fault

instance : Inhabited Fault := ⟨.lockPoisoned ""⟩

mutual

/-- The fault in words. -/
def message : Fault → String
  | .trackingIo path cause => "Tracking file I/O error for " ++ path ++ ": " ++ cause.text
  | .lockContention path attempts cause =>
    "Tracking file I/O error for " ++ path ++ ": lock not acquired after " ++ toString attempts ++
      " attempts: " ++ cause.text
  | .trackingFormat path problem => "Malformed tracking file " ++ path ++ ": " ++ problem.message
  | .invalidRepository path problem => "Invalid local repository " ++ path ++ ": " ++ problem.message
  | .unsupportedRepository factory path contentType =>
    factory ++ " cannot handle local repository " ++ path ++ " with type '" ++ contentType ++ "'"
  | .noMatchingComponent _ problem failures => problem.message ++ failureLines failures
  | .config key problem => "Configuration error for '" ++ key ++ "': " ++ problem.message
  | .coordinate text problem => "Invalid coordinate '" ++ text ++ "': " ++ problem.message
  | .session problem => "Session error: " ++ problem.message
  | .sessionEnd id errors =>
    "Session " ++ toString id ++ " ended with " ++ toString errors.length ++
      " failed handler(s)" ++ errorLines errors
  | .lockPoisoned context => "Lock poisoned: " ++ context
  | .io cause => "I/O error: " ++ cause.text
  | .yaml problem => "YAML parsing error: " ++ problem

/-- One line for each candidate that was tried. -/
def failureLines : List (String × Fault) → String
  | [] => ""
  | (name, fault) :: rest => "\n  " ++ name ++ ": " ++ fault.message ++ failureLines rest

/-- One line for each failed handler. -/
def errorLines : List Fault → String
  | [] => ""
  | fault :: rest => "\n  " ++ fault.message ++ errorLines rest

end

/-- What the fault goes back to, outermost first. -/
def causes : Fault → List String
  | .trackingIo _ cause | .lockContention _ _ cause | .io cause => [cause.text]
  | .yaml problem => [problem]
  | _ => []

/-- Whether records of origin could not be read or kept. -/
def isTrackingFailure : Fault → Bool
  | .trackingIo .. | .lockContention .. | .trackingFormat .. => true
  | _ => false

/-- Whether the fault lies in a configuration value. -/
def isConfig : Fault → Bool
  | .config .. => true
  | _ => false

end Fault
end ArtifactCache
