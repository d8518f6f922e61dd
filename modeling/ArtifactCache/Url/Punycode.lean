import ArtifactCache.Text

/-!
# Punycode

Whether a text of ASCII letters and digits spells a text with other characters: the differences
between the spelled characters are numbers in base 36 with digit thresholds that adapt.
-/

namespace ArtifactCache.Url.Punycode

/-- The value of a digit in base 36; letters come first. -/
def digit? (c : Char) : Option Nat :=
  if 'a' ≤ c ∧ c ≤ 'z' then some (c.toNat - 97)
  else if 'A' ≤ c ∧ c ≤ 'Z' then some (c.toNat - 65)
  else if '0' ≤ c ∧ c ≤ '9' then some (c.toNat - 22)
  else none

/-- The threshold of the digit with the weight index `k`. -/
def threshold (k bias : Nat) : Nat :=
  if k ≤ bias then 1 else min 26 (k - bias)

/-- Divides a difference until it is small, counting the steps. -/
def reduceDelta (delta k : Nat) : Nat × Nat :=
  if 455 < delta then reduceDelta (delta / 35) (k + 36) else (delta, k)
termination_by delta

/-- The bias for the difference that follows. -/
def adapt (delta count : Nat) (first : Bool) : Nat :=
  let delta := if first then delta / 700 else delta / 2
  let (delta, k) := reduceDelta (delta + delta / count) 0
  k + 36 * delta / (delta + 38)

/-- Reads one difference: its value and what follows. -/
def readDelta (bias k weight acc : Nat) : List Char → Option (Nat × List Char)
  | [] => none
  | c :: cs =>
    match digit? c with
    | none => none
    | some d =>
      let acc := acc + d * weight
      let t := threshold k bias
      if Nat.pow 2 32 ≤ acc then none
      else if d < t then some (acc, cs)
      else readDelta bias (k + 36) (weight * (36 - t)) acc cs

/-- Reads all differences; `count` characters are spelled so far, and `n` is the last new one. -/
def readAll (fuel n i bias count : Nat) (cs : List Char) : Bool :=
  match fuel, cs with
  | _, [] => true
  | 0, _ => false
  | fuel + 1, cs =>
    match readDelta bias 36 1 0 cs with
    | none => false
    | some (delta, rest) =>
      let position := i + delta
      let n := n + position / (count + 1)
      if !n.isValidChar || n < 160 then false
      else readAll fuel n (position % (count + 1) + 1) (adapt delta (count + 1) (i = 0)) (count + 1) rest

/-- Whether a text spells a text with at least one character beyond ASCII. -/
def isValid (cs : List Char) : Bool :=
  let back := cs.reverse
  let tail := (back.takeWhile (· ≠ '-')).reverse
  let count := cs.length - tail.length - 1
  !tail.isEmpty && readAll tail.length 128 0 72 count tail

end ArtifactCache.Url.Punycode
