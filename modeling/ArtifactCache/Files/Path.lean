import ArtifactCache.Text

/-!
# Paths

Paths as text: names between slashes. A name `.` after the first and an empty name say nothing and
are passed over; everything else is kept as it is written.
-/

namespace ArtifactCache.Path

/-- Whether a path starts at the root. -/
def isRooted (path : String) : Bool := Text.startsWith path "/"

/-- Whether a path ends in a slash. -/
def endsInSlash (path : String) : Bool := Text.endsWith path "/"

/-- The path `rel` as seen from `base`. -/
def join (base rel : String) : String :=
  if isRooted rel then rel
  else if base = "" || endsInSlash base then base ++ rel
  else base ++ "/" ++ rel

/-- Whether a name at the front or, if `first` is false, behind another one says nothing. -/
def isIdle (first : Bool) (name : List Char) : Bool :=
  name = [] || (name = ['.'] && !first)

/-- Takes names that say nothing off the end; the names are given last first. -/
def trimIdle (rooted : Bool) : List (List Char) → List (List Char)
  | [] => []
  | n :: ns => if isIdle (ns.isEmpty && !rooted) n then trimIdle rooted ns else n :: ns

/-- The names of a path behind the root, last first, without those at the end that say nothing. -/
def namesBack (path : String) : List (List Char) :=
  let cs := path.toList
  let names := Text.cut '/' (if isRooted path then cs.drop 1 else cs)
  trimIdle (isRooted path) names.reverse

/-- The path of names that are given last first. -/
def ofNamesBack (rooted : Bool) (names : List (List Char)) : String :=
  (if rooted then "/" else "") ++ Text.join "/" (names.reverse.map String.ofList)

/-- The path without its last name. -/
def parent? (path : String) : Option String :=
  match namesBack path with
  | [] => none
  | _ :: ns => some (ofNamesBack (isRooted path) (trimIdle (isRooted path) ns))

/-- The last name of a path, unless it leads back. -/
def fileName? (path : String) : Option String :=
  match namesBack path with
  | [] => none
  | n :: _ => if n = ['.'] ∨ n = ['.', '.'] then none else some (String.ofList n)

/-- The names of a path, without those that say nothing. -/
def names (path : String) : List String :=
  (Text.splitOn '/' path).filter fun n => n ≠ "" && n ≠ "."

/-- The path as seen from the root; names that lead back are kept, and so are a slash at the end
and exactly two slashes at the front. -/
def absolute (current path : String) : String :=
  let start :=
    if Text.startsWith path "//" && !Text.startsWith path "///" then "//"
    else if isRooted path then "/"
    else current
  let whole := (names path).foldl join start
  if endsInSlash path then join whole "" else whole

/-- The path and those it lies below, innermost first. -/
def ancestors (path : String) : List String := go path.length path
where
  go : Nat → String → List String
    | 0, path => [path]
    | n + 1, path => path :: (match parent? path with
      | none => []
      | some above => go n above)

end ArtifactCache.Path
