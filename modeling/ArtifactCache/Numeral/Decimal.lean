import ArtifactCache.Text
import ArtifactCache.Numeral.Binary

/-!
# Decimal text

Reading a number from decimal digits, and the fewest digits that read back as a number.
-/

namespace ArtifactCache.Numeral

/-- Digits before and after a point, and a power of ten: the number is `digits * 10 ^ exponent`. -/
structure Decimal where
  digits : Nat
  exponent : Int

/-- How many decimal digits `n` has. -/
def digitCount (n : Nat) : Nat := (Nat.toDigits 10 n).length

/-- A decimal exponent beyond which every number is too large, and below which too small, to tell
apart from infinity and zero. -/
def farExponent : Int := 400

/-- The number nearest to a decimal. -/
def Decimal.toBinary (p : Precision) (negative : Bool) (d : Decimal) : Binary :=
  let top := d.exponent + digitCount d.digits
  if d.digits = 0 ∨ top < -farExponent then .finite negative 0 p.minExponent
  else if farExponent < top then .infinite negative
  else if 0 ≤ d.exponent then .ofQuotient p negative (d.digits * Nat.pow 10 d.exponent.toNat) 1
  else .ofQuotient p negative d.digits (Nat.pow 10 (-d.exponent).toNat)

/-- The digits at the front of a text and what follows them. -/
def takeDigits (cs : List Char) : List Char × List Char :=
  (cs.takeWhile Char.isDigit, cs.dropWhile Char.isDigit)

/-- A power of ten: `e` or `E`, a sign and digits. Nothing at all stands for the power zero. -/
def readExponent? : List Char → Option Int
  | [] => some 0
  | c :: cs =>
    if c = 'e' ∨ c = 'E' then
      match cs with
      | '+' :: ds => (Text.natOfDigits? 10 ds).map Int.ofNat
      | '-' :: ds => (Text.natOfDigits? 10 ds).map fun n => -Int.ofNat n
      | ds => (Text.natOfDigits? 10 ds).map Int.ofNat
    else none

/-- Digits with at most one point among them, at least one digit, and perhaps a power of ten. -/
def Decimal.read? (cs : List Char) : Option Decimal := do
  let (whole, rest) := takeDigits cs
  let (fraction, rest) := match rest with
    | '.' :: rest => takeDigits rest
    | _ => ([], rest)
  let digits ← Text.natOfDigits? 10 (whole ++ fraction)
  let exponent ← readExponent? rest
  pure ⟨digits, exponent - fraction.length⟩

/-- A number: a sign, then a decimal or, in any case, a word for what is not finite. -/
def Binary.read? (p : Precision) (s : String) : Option Binary :=
  let (negative, cs) := match s.toList with
    | '-' :: cs => (true, cs)
    | '+' :: cs => (false, cs)
    | cs => (false, cs)
  let word := Text.lowerAscii (String.ofList cs)
  if word = "nan" then some .nan
  else if word = "inf" ∨ word = "infinity" then some (.infinite negative)
  else (Decimal.read? cs).map (Decimal.toBinary p negative)

/-- Which of two equally near decimals is taken. -/
inductive Tie
  | up
  | even
  deriving DecidableEq

/-- The numbers that round to `m * 2 ^ e`, in quarters of `2 ^ e`: the distances below and above,
and whether the ends belong to them. -/
structure Neighbourhood where
  below : Nat
  above : Nat
  closed : Bool

def neighbourhood (p : Precision) (m : Nat) (e : Int) : Neighbourhood :=
  { below := if m = Nat.pow 2 (p.bits - 1) ∧ p.minExponent < e then 1 else 2
    above := 2
    closed := m % 2 = 0 }

/-- Whether the multiple `k` of `10 ^ x` rounds to `m * 2 ^ e`. -/
def roundsBack (h : Neighbourhood) (m : Nat) (e : Int) (k : Nat) (x : Int) : Bool :=
  -- both sides in units of `2 ^ (e - 2) * 10 ^ (min x 0)`
  let two := e - 2
  let left := k * Nat.pow 10 x.toNat * Nat.pow 2 (-two).toNat
  let unit := Nat.pow 2 two.toNat * Nat.pow 10 (-x).toNat
  let low := (4 * m - h.below) * unit
  let high := (4 * m + h.above) * unit
  if h.closed then low ≤ left && left ≤ high else low < left && left < high

/-- The multiple of `10 ^ x` nearest to `m * 2 ^ e` among those that round to it. -/
def nearestOn (p : Precision) (tie : Tie) (m : Nat) (e x : Int) : Option Nat :=
  let h := neighbourhood p m e
  let num := m * Nat.pow 2 e.toNat * Nat.pow 10 (-x).toNat
  let den := Nat.pow 2 (-e).toNat * Nat.pow 10 x.toNat
  let low := num / den
  let gap := 2 * (num % den)
  let back := fun k => 0 < k && roundsBack h m e k x
  let nearer :=
    if gap < den then low
    else if den < gap then low + 1
    else match tie with
      | .up => low + 1
      | .even => low + low % 2
  let other := if nearer = low then low + 1 else low
  if back nearer then some nearer else if back other then some other else none

/-- The power of ten next above `num / den`, searched upwards from `x`. -/
def topExponent (num den : Nat) : Nat → Int → Int
  | 0, x => x
  | n + 1, x =>
    if num * Nat.pow 10 (-x).toNat < den * Nat.pow 10 x.toNat then x else topExponent num den n (x + 1)

/-- The first `n` grids of decimals, from coarse to fine, searched for one that reads back. -/
def searchGrids (p : Precision) (tie : Tie) (m : Nat) (e : Int) : Nat → Int → Decimal
  | 0, x => ⟨0, x⟩
  | n + 1, x =>
    match nearestOn p tie m e x with
    | some k => ⟨k, x⟩
    | none => searchGrids p tie m e n (x - 1)

/-- The decimal with the fewest digits that reads back as `m * 2 ^ e`, and of several the nearest. -/
def shortest (p : Precision) (tie : Tie) (m : Nat) (e : Int) : Decimal :=
  let num := m * Nat.pow 2 e.toNat
  let den := Nat.pow 2 (-e).toNat
  let start : Int := ((num.log2 : Int) - den.log2) * 3 / 10 - 2
  let top := topExponent num den 8 start
  let d := searchGrids p tie m e 20 top
  strip d.digits d.digits d.exponent
where
  /-- Takes zeros off the end of the digits. -/
  strip : Nat → Nat → Int → Decimal
    | 0, k, x => ⟨k, x⟩
    | fuel + 1, k, x => if k % 10 = 0 ∧ 0 < k then strip fuel (k / 10) (x + 1) else ⟨k, x⟩

/-- The decimal digits of `n`, most significant first. -/
def digitText (n : Nat) : List Char := Nat.toDigits 10 n

def zeros (n : Nat) : List Char := List.replicate n '0'

/-- A decimal written out without a power of ten; a whole number has no point. -/
def Decimal.plain (d : Decimal) : List Char :=
  let ds := digitText d.digits
  if 0 ≤ d.exponent then ds ++ zeros d.exponent.toNat
  else
    let places := (-d.exponent).toNat
    let ds := zeros (places + 1 - ds.length) ++ ds
    ds.take (ds.length - places) ++ '.' :: ds.drop (ds.length - places)

/-- A number written out in full; zero keeps its sign. -/
def Binary.display (p : Precision) : Binary → String
  | .nan => "NaN"
  | .infinite negative => if negative then "-inf" else "inf"
  | .finite negative m e =>
    let digits := if m = 0 then ['0'] else (shortest p .up m e).plain
    String.ofList ((if negative then ['-'] else []) ++ digits)

end ArtifactCache.Numeral
