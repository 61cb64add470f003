import Mathlib.Data.Rat.Floor
import Mathlib.Algebra.Order.Floor.Ring

/-!
# Binary interchange formats

Floating-point data are kept as raw bits. Their numeric value is decoded from the
sign, exponent and fraction fields, for any width of the last two.
-/

/-- The numeric value of a datum. Both zeros are the number zero. -/
inductive Number where
  | finite (q : ℚ)
  | infinite (negative : Bool)
  | nan
  deriving DecidableEq

namespace Number

/-- Whether a number compares greater than or equal to zero; `nan` compares false. -/
def isNonneg : Number → Bool
  | .finite q => decide (0 ≤ q)
  | .infinite negative => !negative
  | .nan => false

/-- The comparison `<`. Nothing is less or greater than `nan`. -/
def less : Number → Number → Bool
  | .finite p, .finite q => decide (p < q)
  | .finite _, .infinite negative => !negative
  | .infinite negative, .finite _ => negative
  | .infinite negative, .infinite negative' => negative && !negative'
  | .nan, _ => false
  | _, .nan => false

theorem less_asymm {a b : Number} (hab : a.less b = true) : b.less a = false := by
  cases a with
  | finite p =>
      cases b with
      | finite q =>
          simp only [less, decide_eq_true_eq, decide_eq_false_iff_not] at hab ⊢
          exact hab.not_gt
      | infinite negative => simpa [less] using hab
      | nan => rfl
  | infinite negative =>
      cases b with
      | finite q => simpa [less] using hab
      | infinite negative' =>
          simp only [less, Bool.and_eq_true, Bool.not_eq_true'] at hab
          simp [less, hab]
      | nan => rfl
  | nan => cases b <;> rfl

/-- Not being less passes through every number that is not `nan`. -/
theorem not_less_trans {a b c : Number} (hb : b ≠ .nan) (hab : a.less b = false)
    (hbc : b.less c = false) : a.less c = false := by
  cases a with
  | finite p =>
      cases b with
      | finite q =>
          cases c with
          | finite r =>
              simp only [less, decide_eq_false_iff_not, not_lt] at hab hbc ⊢
              exact hbc.trans hab
          | infinite negative => simpa [less] using hbc
          | nan => rfl
      | infinite negative =>
          cases c with
          | finite r => simp_all [less]
          | infinite negative' => simp_all [less]
          | nan => rfl
      | nan => exact absurd rfl hb
  | infinite negative =>
      cases b with
      | finite q =>
          cases c with
          | finite r => simpa [less] using hab
          | infinite negative' => simp_all [less]
          | nan => rfl
      | infinite negative' =>
          cases c with
          | finite r => simp_all [less]
          | infinite negative'' => cases negative' <;> simp_all [less]
          | nan => rfl
      | nan => exact absurd rfl hb
  | nan => cases c <;> rfl

/-- Rounding towards zero. -/
def truncate (q : ℚ) : ℤ := if 0 ≤ q then ⌊q⌋ else ⌈q⌉

theorem truncate_intCast (n : ℤ) : truncate (n : ℚ) = n := by
  unfold truncate
  split <;> simp

/-- Conversion to a 32-bit integer, defined when the truncated value fits. -/
def toInt32? : Number → Option Int32
  | .finite q =>
      let whole := truncate q
      if -2 ^ 31 ≤ whole ∧ whole < 2 ^ 31 then some (Int32.ofInt whole) else none
  | .infinite _ => none
  | .nan => none

/-- The number is a whole number of the 32-bit signed range. -/
def IsInt32 : Number → Prop
  | .finite q => q = (truncate q : ℚ) ∧ -2 ^ 31 ≤ truncate q ∧ truncate q < 2 ^ 31
  | .infinite _ => False
  | .nan => False

instance (x : Number) : Decidable x.IsInt32 := by
  cases x <;> unfold IsInt32 <;> infer_instance

/-- The integer conversion keeps the numeric value exactly on the whole numbers in range. -/
theorem toInt32?_value_iff (x : Number) :
    (∃ n, x.toInt32? = some n ∧ Number.finite (n.toInt : ℚ) = x) ↔ x.IsInt32 := by
  cases x with
  | finite q =>
      simp only [toInt32?, IsInt32]
      constructor
      · rintro ⟨n, hconv, hvalue⟩
        have hq : (n.toInt : ℚ) = q := Number.finite.inj hvalue
        have htrunc : truncate q = n.toInt := by rw [← hq, truncate_intCast]
        have hlo := n.le_toInt
        have hhi := n.toInt_lt
        rw [htrunc]
        exact ⟨hq.symm, hlo, hhi⟩
      · rintro ⟨hwhole, hlo, hhi⟩
        refine ⟨Int32.ofInt (truncate q), by rw [if_pos ⟨hlo, hhi⟩], ?_⟩
        rw [Int32.toInt_ofInt_of_le hlo hhi, ← hwhole]
  | infinite negative => simp [toInt32?, IsInt32]
  | nan => simp [toInt32?, IsInt32]

end Number

/-- The number encoded by `bits` with `expBits` exponent and `fracBits` fraction bits. -/
def decodeBinary (expBits fracBits : ℕ) (bits : ℕ) : Number :=
  let frac := bits % 2 ^ fracBits
  let exp := bits / 2 ^ fracBits % 2 ^ expBits
  let negative := bits / 2 ^ (fracBits + expBits) % 2 == 1
  let bias : ℤ := 2 ^ (expBits - 1) - 1
  if exp = 2 ^ expBits - 1 then
    if frac = 0 then .infinite negative else .nan
  else
    let significand : ℚ := if exp = 0 then frac else 2 ^ fracBits + frac
    let scale : ℤ := (if exp = 0 then 1 else exp) - bias - fracBits
    let magnitude : ℚ := significand * (2 : ℚ) ^ scale
    .finite (if negative then -magnitude else magnitude)

/-- A single-precision datum. -/
structure Binary32 where
  bits : UInt32
  deriving DecidableEq

/-- A double-precision datum. -/
structure Binary64 where
  bits : UInt64
  deriving DecidableEq

def Binary32.number (x : Binary32) : Number := decodeBinary 8 23 x.bits.toNat

def Binary64.number (x : Binary64) : Number := decodeBinary 11 52 x.bits.toNat

/-- Doubles are compared as numbers, so not every two of them are. -/
instance : LT Binary64 := ⟨fun a b => a.number.less b.number = true⟩

instance : DecidableLT Binary64 := fun a b =>
  inferInstanceAs (Decidable (a.number.less b.number = true))

example : (Binary64.mk 0xBFF0000000000000).number = .finite (-1) := by decide +kernel
