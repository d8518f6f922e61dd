import ArtifactCache.Url.Host

/-!
# URLs

Which texts are absolute URLs: a scheme and, for schemes that need them and behind two slashes, a
host and perhaps a port number. What comes after that is never wrong.
-/

namespace ArtifactCache.Url

/-- How a scheme is read on. -/
inductive Kind
  | file
  | special
  | other
  deriving DecidableEq

def kindOf (scheme : String) : Kind :=
  if scheme = "file" then .file
  else if scheme ∈ ["http", "https", "ws", "wss", "ftp"] then .special
  else .other

def isSlash (c : Char) : Bool := c = '/' || c = '\\'

/-- Whether a character ends the part of a URL that names a host. -/
def endsAuthority (kind : Kind) (c : Char) : Bool :=
  c = '/' || c = '?' || c = '#' || (kind = .special && c = '\\')

/-- The characters that count: those between the blanks and control characters at both ends, without
tabs and line breaks. -/
def significant (s : String) : List Char :=
  (Text.strip (·.toNat ≤ 32) s.toList).filter fun c => c ≠ '\t' && c ≠ '\n' && c ≠ '\r'

/-- The scheme, in small letters, and what follows its colon. -/
def scheme? (cs : List Char) : Option (String × List Char) :=
  match cs, Text.cutOnce ':' cs with
  | c :: _, some (name, rest) =>
    if c.isAlpha && name.all fun d => d.isAlphanum || d = '+' || d = '-' || d = '.' then
      some (Text.lowerAscii (String.ofList name), rest)
    else none
  | _, _ => none

/-- What stands before and after the last `@`. -/
def cutLastAt (cs : List Char) : Option (List Char × List Char) :=
  match cs with
  | [] => none
  | c :: cs =>
    match cutLastAt cs with
    | some (user, rest) => some (c :: user, rest)
    | none => if c = '@' then some ([], cs) else none

/-- The host at the front of a text: everything up to a colon outside of brackets. -/
def takeHost (inside : Bool) : List Char → List Char × List Char
  | [] => ([], [])
  | c :: cs =>
    if c = ':' && !inside then ([], c :: cs)
    else
      let (host, rest) := takeHost (if c = '[' then true else if c = ']' then false else inside) cs
      (c :: host, rest)

/-- Checks digits of a port number; behind them only the end or a delimiter may come. -/
def checkPort (acc : Nat) : List Char → Except Problem Unit
  | [] => .ok ()
  | c :: cs =>
    match Text.digitValue? 10 c with
    | some d => if 65535 < acc * 10 + d then .error .port else checkPort (acc * 10 + d) cs
    | none => if isSlash c || c = '?' || c = '#' then .ok () else .error .port

/-- Checks a host and the port number behind it. -/
def checkHostAndPort (kind : Kind) (hasUser : Bool) (cs : List Char) : Except Problem Unit := do
  let (host, rest) := takeHost false cs
  if host.isEmpty && (kind = .special || rest.head? = some ':') then throw .emptyHost
  if kind = .special then checkHost host else checkOpaqueHost host
  match rest with
  | ':' :: digits => checkPort 0 digits
  | _ => pure ()
  if host.isEmpty && hasUser then throw .emptyHost

/-- Checks what follows two slashes. -/
def checkAuthority (kind : Kind) (cs : List Char) : Except Problem Unit :=
  let authority := cs.takeWhile fun c => !endsAuthority kind c
  match cutLastAt authority with
  | none => checkHostAndPort kind false authority
  | some ([], rest) =>
    -- an empty name of a user must not be followed by nothing but a path
    if rest.isEmpty && authority.length < cs.length then .error .emptyHost
    else checkHostAndPort kind false rest
  | some (user, rest) => checkHostAndPort kind (user ≠ [':']) rest

/-- Whether a text names a drive. -/
def isDrive : List Char → Bool
  | [letter, mark] => letter.isAlpha && (mark = ':' || mark = '|')
  | _ => false

/-- Checks what follows the scheme of files. -/
def checkFile : List Char → Except Problem Unit
  | a :: b :: cs =>
    if isSlash a && isSlash b then
      let host := cs.takeWhile fun c => !isSlash c && c ≠ '?' && c ≠ '#'
      if host.isEmpty || isDrive host then .ok () else checkHost host
    else .ok ()
  | _ => .ok ()

/-- Checks that a text is an absolute URL. -/
def check (s : String) : Except Problem Unit :=
  match scheme? (significant s) with
  | none => .error .relative
  | some (scheme, rest) =>
    match kindOf scheme with
    | .file => checkFile rest
    | .special => checkAuthority .special (rest.dropWhile isSlash)
    | .other => match rest with
      | '/' :: '/' :: rest => checkAuthority .other rest
      | _ => .ok ()

end ArtifactCache.Url
