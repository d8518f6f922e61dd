import ArtifactCache.Fault

/-!
# Reports of failure

A failure is told with everything that it goes back to.
-/

namespace ArtifactCache.CommandLine

/-- Why a command failed, and what that goes back to, outermost first. -/
structure Failure where
  message : String
  causes : List String := []

namespace Failure

def ofFault (f : Fault) : Failure := ⟨f.message, f.causes⟩

/-- The failure of what was attempted because of another failure. -/
def within (attempt : String) (f : Failure) : Failure := ⟨attempt, f.message :: f.causes⟩

/-- A cause on lines of its own: the first one behind `head`, further ones behind as many blanks. -/
def causeLines (head cause : String) : String :=
  let blanks := String.ofList (List.replicate head.length ' ')
  head ++ Text.join ("\n" ++ blanks) (Text.splitOn '\n' cause)

/-- The number of a cause, right-aligned. -/
def number (n : Nat) : String :=
  let digits := toString n
  String.ofList (List.replicate (5 - digits.length) ' ') ++ digits ++ ": "

/-- Several causes with their numbers. -/
def numbered (n : Nat) : List String → List String
  | [] => []
  | cause :: rest => causeLines (number n) cause :: numbered (n + 1) rest

/-- The causes as they are shown; a single one has no number. -/
def causeText : List String → String
  | [] => ""
  | [cause] => "\n\nCaused by:\n" ++ causeLines "    " cause
  | causes => "\n\nCaused by:\n" ++ Text.join "\n" (numbered 0 causes)

/-- The failure as it is shown. -/
def report (f : Failure) : String := "Error: " ++ f.message ++ causeText f.causes ++ "\n"

end Failure
end ArtifactCache.CommandLine
