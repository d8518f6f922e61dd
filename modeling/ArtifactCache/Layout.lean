import ArtifactCache.Coordinate

/-!
# Layout

Where artifacts and metadata documents lie below a repository.
-/

namespace ArtifactCache.Layout

/-- Which version the name of a file carries: that of an installed file has no build time. -/
inductive Naming
  | installed
  | downloaded
  deriving DecidableEq

/-- The version in the name of an artifact's file. -/
def fileVersion (a : Artifact) : Naming → String
  | .installed => a.base
  | .downloaded => a.version

/-- What follows the version in the name of an artifact's file. -/
def suffix (a : Artifact) : String :=
  (if a.classifier = "" then "" else "-" ++ a.classifier) ++
    (if a.extension = "" then "" else "." ++ a.extension)

/-- The directories of a group. -/
def groupPath (group : String) : String := Text.replaceChar '.' '/' group

/-- The path of an artifact's file. -/
def artifactPath (a : Artifact) (naming : Naming) : String :=
  groupPath a.group ++ "/" ++ a.name ++ "/" ++ a.base ++ "/" ++
    a.name ++ "-" ++ fileVersion a naming ++ suffix a

/-- The text before the last `sep` and the text from it on, if there is one. -/
def cutLast (sep : Char) : List Char → Option (List Char × List Char)
  | [] => none
  | c :: cs =>
    match cutLast sep cs with
    | some (pre, post) => some (c :: pre, post)
    | none => if c = sep then some ([], c :: cs) else none

/-- Puts a key into the last segment of a type: before its last dot, or at its end. The segments above
it stay as they are. -/
def insertKey (key type : List Char) : List Char :=
  insertInLast key (Text.cut '/' type)
where
  insertInName (key name : List Char) : List Char :=
    match cutLast '.' name with
    | some (stem, ext) => stem ++ '-' :: key ++ ext
    | none => name ++ '-' :: key
  insertInLast (key : List Char) : List (List Char) → List Char
    | [] => []
    | [name] => insertInName key name
    | directory :: segments => directory ++ '/' :: insertInLast key segments

/-- A part of a path with a slash after it; nothing for an empty part. -/
def directory (part : String) : String :=
  if part = "" then "" else part ++ "/"

/-- The path of a metadata document that was obtained under the given key. -/
def metadataPath (m : Metadata) (key : String) : String :=
  directory (groupPath m.group) ++ directory m.name ++ directory m.version ++
    String.ofList (insertKey key.toList m.type.toList)

/-- The key of a repository's own metadata documents. -/
def localKey : String := "local"

end ArtifactCache.Layout
