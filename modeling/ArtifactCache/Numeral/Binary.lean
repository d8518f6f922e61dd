/-!
# Binary numbers of limited precision

Floating-point numbers as exact data: a sign, a significand and a power of two. Rounding a fraction
goes to the nearest representable number, a tie to the even significand.
-/

namespace ArtifactCache.Numeral

/-- How many bits a significand has, and which powers of two it may be multiplied by. -/
structure Precision where
  bits : Nat
  minExponent : Int
  maxExponent : Int

def single : Precision := ⟨24, -149, 104⟩

def double : Precision := ⟨53, -1074, 971⟩

/-- A floating-point number. -/
inductive Binary
  | nan
  | infinite (negative : Bool)
  | finite (negative : Bool) (significand : Nat) (exponent : Int)
  deriving DecidableEq, Inhabited

/-- `num / den` rounded to a whole number, a tie to the even one. -/
def roundQuotient (num den : Nat) : Nat :=
  let q := num / den
  let r := num % den
  if 2 * r < den then q else if den < 2 * r then q + 1 else q + q % 2

/-- `num / den` divided by `2 ^ e`, as a fraction. -/
def scale (num den : Nat) (e : Int) : Nat × Nat :=
  if 0 ≤ e then (num, den * Nat.pow 2 e.toNat) else (num * Nat.pow 2 (-e).toNat, den)

namespace Binary

/-- The power of two for which the significand of `num / den` has all its bits, but not less than
the least one allowed. -/
def exponentFor (p : Precision) (num den : Nat) : Int :=
  let guess : Int := (num.log2 : Int) - den.log2 - p.bits
  let (n, d) := scale num den guess
  let e := if Nat.pow 2 p.bits * d ≤ n then guess + 1 else guess
  max e p.minExponent

/-- The number nearest to `num / den`; beyond the largest one it is infinite. -/
def ofQuotient (p : Precision) (negative : Bool) (num den : Nat) : Binary :=
  if num = 0 then .finite negative 0 p.minExponent
  else
    let e := exponentFor p num den
    let (n, d) := scale num den e
    let m := roundQuotient n d
    let (m, e) := if m = Nat.pow 2 p.bits then (m / 2, e + 1) else (m, e)
    if p.maxExponent < e then .infinite negative else .finite negative m e

/-- The number nearest to a whole number. -/
def ofNat (p : Precision) (n : Nat) : Binary := ofQuotient p false n 1

def isNaN : Binary → Bool
  | .nan => true
  | _ => false

def isFinite : Binary → Bool
  | .finite .. => true
  | _ => false

/-- The signed significand of a finite number on the grid of `2 ^ e`. -/
def onGrid (negative : Bool) (m : Nat) (exponent e : Int) : Int :=
  let v : Int := (m * Nat.pow 2 (exponent - e).toNat : Nat)
  if negative then -v else v

/-- Whether `x` is less than `y`; nothing is less or greater than what is no number. -/
def lt : Binary → Binary → Bool
  | .nan, _ | _, .nan => false
  | .infinite a, .infinite b => a && !b
  | .infinite a, .finite .. => a
  | .finite .., .infinite b => !b
  | .finite a m x, .finite b n y =>
    let e := min x y
    decide (onGrid a m x e < onGrid b n y e)

end Binary
end ArtifactCache.Numeral
