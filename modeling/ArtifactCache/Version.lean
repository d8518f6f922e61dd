import ArtifactCache.Text

/-!
# Versions

A snapshot that was given a build time has a version such as `1.0-20240101.120000-3`; its base
version has the word `SNAPSHOT` in the place of the time.
-/

namespace ArtifactCache.Version

def snapshotWord : String := "SNAPSHOT"

/-- Takes `n` digits off the front. -/
def dropDigits (n : Nat) (cs : List Char) : Option (List Char) :=
  if n ≤ cs.length && (cs.take n).all Char.isDigit then some (cs.drop n) else none

/-- Takes the character `c` off the front. -/
def dropChar (c : Char) : List Char → Option (List Char)
  | [] => none
  | d :: ds => if d = c then some ds else none

/-- Takes a build time, written backwards, off the front: a serial number, a dash, six digits, a
dot and eight digits. -/
def dropBuildTime (cs : List Char) : Option (List Char) := do
  let serial := cs.takeWhile Char.isDigit
  guard (serial ≠ [])
  let cs ← dropChar '-' (cs.dropWhile Char.isDigit)
  let cs ← dropDigits 6 cs
  let cs ← dropChar '.' cs
  dropDigits 8 cs

/-- The text before the build time of a version, if it has one: nothing, or one line up to a dash. -/
def stem? (version : List Char) : Option (List Char) :=
  match dropBuildTime version.reverse with
  | some [] => some []
  | some (c :: cs) => if c = '-' ∧ '\n' ∉ cs then some (c :: cs).reverse else none
  | none => none

/-- The version with its build time, if it has one, replaced by the snapshot word. -/
def base (version : String) : String :=
  match stem? version.toList with
  | some stem => String.ofList stem ++ snapshotWord
  | none => version

/-- Whether a version ends in the snapshot word. -/
def isSnapshot (version : String) : Bool :=
  Text.endsWith version snapshotWord

end ArtifactCache.Version
