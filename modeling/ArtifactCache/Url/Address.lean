import ArtifactCache.Text

/-!
# Internet addresses

Which hosts are addresses of version 4, and which texts are addresses of version 6.
-/

namespace ArtifactCache.Url

/-- A part of an address of version 4: decimal, octal behind `0`, or hexadecimal behind `0x`. -/
def addressPart? (part : List Char) : Option Nat :=
  match part with
  | [] => none
  | '0' :: 'x' :: ds | '0' :: 'X' :: ds => if ds.isEmpty then some 0 else Text.natOfDigits? 16 ds
  | '0' :: d :: ds => Text.natOfDigits? 8 (d :: ds)
  | ds => Text.natOfDigits? 10 ds

/-- The parts between dots; an empty last one does not count. -/
def addressParts (host : List Char) : List (List Char) :=
  match (Text.cut '.' host).reverse with
  | [] :: back => back.reverse
  | back => back.reverse

/-- Whether the last part of a host is a number, so that the host can only be an address. -/
def endsInNumber (host : List Char) : Bool :=
  match (addressParts host).getLast? with
  | none => false
  | some last => (!last.isEmpty && last.all Char.isDigit) || (addressPart? last).isSome

/-- Whether a host is an address of version 4: up to four parts of a byte each, of which the last
fills what is left. -/
def isAddress4 (host : List Char) : Bool :=
  let parts := addressParts host
  match (parts.mapM addressPart?).map List.reverse with
  | some (last :: front) =>
    parts.length ≤ 4 && front.all (· ≤ 255) && last < Nat.pow 256 (4 - front.length)
  | _ => false

/-- Whether a text is four decimal numbers up to 255 with dots between them and no leading zeros. -/
def isDotted (cs : List Char) : Bool :=
  let parts := Text.cut '.' cs
  parts.length = 4 && parts.all fun part =>
    (part.length = 1 || part.head? ≠ some '0') && part.all Char.isDigit &&
      (match Text.natOfDigits? 10 part with
      | some n => n ≤ 255
      | none => false)

def isHexDigit (c : Char) : Bool := (Text.digitValue? 16 c).isSome

/-- Up to `n` hexadecimal digits and what follows them. -/
def takeHex : Nat → List Char → List Char × List Char
  | 0, cs => ([], cs)
  | _, [] => ([], [])
  | n + 1, c :: cs =>
    if isHexDigit c then
      let (ds, rest) := takeHex n cs
      (c :: ds, rest)
    else ([], c :: cs)

/-- Whether a text completes an address of version 6 of which some pieces were read, perhaps with a
gap among them. -/
def completes6 (fuel pieces : Nat) (gap : Bool) (cs : List Char) : Bool :=
  match fuel, cs with
  | _, [] => gap || pieces = 8
  | 0, _ => false
  | fuel + 1, c :: cs =>
    if pieces = 8 then false
    else if c = ':' then !gap && completes6 fuel (pieces + 1) true cs
    else match takeHex 4 (c :: cs) with
      | (_, []) => completes6 fuel (pieces + 1) gap []
      | (ds, '.' :: _) =>
        !ds.isEmpty && pieces ≤ 6 && isDotted (c :: cs) && (gap || pieces = 6)
      | (_, ':' :: rest) => !rest.isEmpty && completes6 fuel (pieces + 1) gap rest
      | _ => false

/-- Whether a text is an address of version 6. -/
def isAddress6 (cs : List Char) : Bool :=
  match cs with
  | ':' :: ':' :: rest => completes6 rest.length 1 true rest
  | [] | [_] | ':' :: _ => false
  | cs => completes6 cs.length 0 false cs

end ArtifactCache.Url
