import ArtifactCache.Numeral.Binary
import Mathlib.Algebra.Order.Field.Power
import Mathlib.Algebra.Order.Ring.Rat
import Mathlib.Order.WithBot

/-! What floating-point data are worth. They are compared as the numbers that they stand for, the two
infinite ones below and above all others. -/
namespace ArtifactCache.Numeral.Binary

variable {x y : Binary} {negative a b : Bool} {m n : Nat} {e i j : Int}

/-- What a finite datum is worth. -/
def fraction (negative : Bool) (m : Nat) (e : Int) : ℚ :=
  (if negative then -(m : ℚ) else m) * 2 ^ e

/-- What a datum is worth. One that is no number is put at the lower end, where it means nothing. -/
def value : Binary → WithBot (WithTop ℚ)
  | .nan => ⊥
  | .infinite true => ⊥
  | .infinite false => ⊤
  | .finite negative m e => ((fraction negative m e : WithTop ℚ) : WithBot (WithTop ℚ))

/-- A significand is moved to a finer grid without a change in what it is worth. -/
theorem fraction_eq (negative : Bool) (m : Nat) (h : e ≤ i) :
    fraction negative m i = onGrid negative m i e * 2 ^ e := by
  have hpower : (2 : ℚ) ^ i = 2 ^ (i - e).toNat * 2 ^ e := by
    rw [← zpow_natCast, ← zpow_add₀ (by norm_num : (2 : ℚ) ≠ 0), Int.toNat_of_nonneg (by omega),
      sub_add_cancel]
  rw [fraction, onGrid, hpower, ← mul_assoc]
  cases negative with
  | true => simp
  | false => simp

theorem fraction_lt_iff : fraction a m i < fraction b n j ↔
    onGrid a m i (min i j) < onGrid b n j (min i j) := by
  have hpos : (0 : ℚ) < 2 ^ min i j := zpow_pos (by norm_num) _
  rw [fraction_eq a m (min_le_left i j), fraction_eq b n (min_le_right i j),
    mul_lt_mul_iff_left₀ hpos, Int.cast_lt]

/-- Numbers are compared by what they are worth. -/
theorem lt_iff (hx : x ≠ .nan) (hy : y ≠ .nan) : lt x y = true ↔ x.value < y.value := by
  cases x with
  | nan => exact absurd rfl hx
  | infinite a =>
    cases y with
    | nan => exact absurd rfl hy
    | infinite b => cases a <;> cases b <;> simp [lt, value]
    | finite b n j => cases a <;> simp [lt, value]
  | finite a m i =>
    cases y with
    | nan => exact absurd rfl hy
    | infinite b =>
      cases b with
      | true => simp [lt, value]
      | false =>
        have htop := WithBot.coe_lt_coe.2 (WithTop.coe_lt_top (fraction a m i))
        simpa [lt, value] using htop
    | finite b n j => simp [lt, value, fraction_lt_iff]

/-- What is less or greater than something is a number. -/
theorem ne_nan_of_lt (h : lt x y = true) : x ≠ .nan ∧ y ≠ .nan := by
  constructor
  · rintro rfl
    cases h
  · rintro rfl
    cases x <;> cases h

end ArtifactCache.Numeral.Binary
