import ArtifactCache.Numeral.Decimal

/-!
# Numbers in a document

Which plain texts are numbers, and how a number is written.
-/

namespace ArtifactCache.Yaml

open Numeral (Binary)

/-- A number: whole, or of double precision. -/
inductive Number
  | whole (n : Int)
  | real (x : Binary)
  deriving DecidableEq

/-- What a plain text can be among numbers. A whole number of more than 64 bits and at most 128 is
none that can be represented. -/
inductive Reading
  | number (n : Number)
  | tooLarge
  | notNumber

/-- Whether the text is digits behind a zero, perhaps with a sign: a text, not a number. -/
def hasLeadingZero (cs : List Char) : Bool :=
  let digits := match cs with
    | '-' :: ds | '+' :: ds => ds
    | ds => ds
  match digits with
  | '0' :: d :: ds => (d :: ds).all Char.isDigit
  | _ => false

/-- Digits after `0x`, `0o` or `0b`. -/
def withBase? : List Char → Option Nat
  | '0' :: 'x' :: ds => Text.natOfDigits? 16 ds
  | '0' :: 'o' :: ds => Text.natOfDigits? 8 ds
  | '0' :: 'b' :: ds => Text.natOfDigits? 2 ds
  | _ => none

/-- A whole number without a minus sign. -/
def nonNegative? (cs : List Char) : Option Nat :=
  let digits := match cs with
    | '+' :: ds => ds
    | ds => ds
  match withBase? digits with
  | some n => some n
  | none => if hasLeadingZero cs then none else Text.natOfDigits? 10 digits

/-- A whole number behind a minus sign. -/
def negative? : List Char → Option Nat
  | '-' :: ds =>
    match withBase? ds with
    | some n => some n
    | none => if hasLeadingZero ds then none else Text.natOfDigits? 10 ds
  | _ => none

/-- A number of double precision, among them the words for infinities and for no number. -/
def real? (cs : List Char) : Option Binary :=
  let s := String.ofList cs
  let unsigned := match cs with
    | '+' :: ds => ds
    | ds => ds
  if cs.head? = some '+' ∧ (unsigned.head? = some '+' ∨ unsigned.head? = some '-') then none
  else if String.ofList unsigned ∈ [".inf", ".Inf", ".INF"] then some (.infinite false)
  else if s ∈ ["-.inf", "-.Inf", "-.INF"] then some (.infinite true)
  else if s ∈ [".nan", ".NaN", ".NAN"] then some .nan
  else (Binary.read? Numeral.double (String.ofList unsigned)).filter Binary.isFinite

/-- What a plain text is among numbers. -/
def readNumber (cs : List Char) : Reading :=
  match nonNegative? cs with
  | some n => if n < Nat.pow 2 64 then .number (.whole n) else if n < Nat.pow 2 128 then .tooLarge else real cs
  | none => match negative? cs with
    | some n => if n ≤ Nat.pow 2 63 then .number (.whole (-n)) else if n ≤ Nat.pow 2 127 then .tooLarge else real cs
    | none => real cs
where
  real (cs : List Char) : Reading :=
    if hasLeadingZero cs then .notNumber
    else match real? cs with
      | some x => .number (.real x)
      | none => .notNumber

/-- The exponents of ten between which a number is written without a power of ten. -/
def plainExponents : Int × Int := (-5, 16)

/-- A decimal in scientific notation from certain sizes on, otherwise with a point. -/
def writeDecimal (d : Numeral.Decimal) : List Char :=
  let digits := Numeral.digitText d.digits
  let top := (digits.length : Int) + d.exponent
  if plainExponents.1 < top ∧ top ≤ plainExponents.2 then
    if 0 ≤ d.exponent then d.plain ++ ['.', '0'] else d.plain
  else
    let power := (toString (top - 1)).toList
    match digits with
    | [c] => c :: 'e' :: power
    | c :: cs => c :: '.' :: cs ++ 'e' :: power
    | [] => []

/-- A number as text. -/
def Number.display : Number → String
  | .whole n => toString n
  | .real .nan => ".nan"
  | .real (.infinite negative) => if negative then "-.inf" else ".inf"
  | .real (.finite negative m e) =>
    let digits := if m = 0 then ['0', '.', '0'] else
      writeDecimal (Numeral.shortest Numeral.double .even m e)
    String.ofList ((if negative then ['-'] else []) ++ digits)

end ArtifactCache.Yaml
