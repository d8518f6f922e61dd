import ArtifactCache.Fault
import ArtifactCache.Version

/-!
# Coordinates

The names of artifacts, `group:name[:extension[:classifier]]:version`, and of metadata documents,
`group:name:version:type`.
-/

namespace ArtifactCache

/-- A file that a build can depend on. -/
structure Artifact where
  group : String
  name : String
  classifier : String
  extension : String
  version : String
  deriving DecidableEq, Inhabited

namespace Artifact

/-- The version without a build time. -/
def base (a : Artifact) : String := Version.base a.version

def isSnapshot (a : Artifact) : Bool := Version.isSnapshot a.base

/-- Reads a coordinate; without an extension it is that of a `jar`. -/
def parse (s : String) : Except Fault Artifact :=
  let accept (group name extension classifier version : String) : Except Fault Artifact :=
    if group = "" ∨ name = "" ∨ version = "" then .error (.coordinate s .emptyField)
    else .ok { group, name, classifier, extension, version }
  match Text.splitOn ':' s with
  | [g, n, v] => accept g n "jar" "" v
  | [g, n, e, v] => accept g n e "" v
  | [g, n, e, c, v] => accept g n e c v
  | _ => .error (.coordinate s .artifactFields)

/-- The coordinate of an artifact; an empty classifier is left out. -/
def display (a : Artifact) : String :=
  a.group ++ ":" ++ a.name ++ ":" ++ a.extension ++
    (if a.classifier = "" then "" else ":" ++ a.classifier) ++ ":" ++ a.version

end Artifact

/-- A document about artifacts, kept beside them. -/
structure Metadata where
  group : String
  name : String
  version : String
  type : String
  deriving DecidableEq, Inhabited

namespace Metadata

def isSnapshot (m : Metadata) : Bool := Version.isSnapshot m.version

/-- Reads a coordinate; only the type has to be given. -/
def parse (s : String) : Except Fault Metadata :=
  match Text.splitOn ':' s with
  | [g, n, v, t] =>
    if t = "" then .error (.coordinate s .metadataFields)
    else .ok { group := g, name := n, version := v, type := t }
  | _ => .error (.coordinate s .metadataFields)

def display (m : Metadata) : String :=
  m.group ++ ":" ++ m.name ++ ":" ++ m.version ++ ":" ++ m.type

end Metadata
end ArtifactCache
