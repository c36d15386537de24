import Hannoy.Library.Scored
import Hannoy.Model.Basic
import Mathlib.Algebra.Order.Ring.Unbundled.Rat
import Mathlib.Data.Nat.Log

/-!
# `f32` and `OrderedFloat` (`ordered_float.rs`)

An `F32` is a binary32 bit pattern. Its linear order is the one of `OrderedFloat`, which compares
bit patterns; `flt` and `fle` are `<` and `<=` on `f32`. On patterns that are not NaN and have a
clear sign bit the order is that of the numbers (`Spaces.Order`).

The arithmetic the code performs is computed exactly on rationals and rounded to nearest, ties to
even. A NaN result is always the quiet NaN here. The sign and payload that a processor would leave
decide how `OrderedFloat` places a NaN among other distances; so the order of a NaN that is
computed is out of scope, and results about orders are for patterns that are not NaN or for any
bit patterns the distances may have.
-/

namespace Hannoy

open Hannoy.Library

/-- A binary32 bit pattern. -/
structure F32 where
  bits : UInt32
  deriving DecidableEq, Repr

namespace F32

theorem bits_injective : Function.Injective bits := by
  rintro ⟨a⟩ ⟨b⟩ h
  rw [show a = b from h]

/-- `OrderedFloat`: the order of the bit patterns. -/
instance : LinearOrder F32 := LinearOrder.lift' bits bits_injective

theorem lt_def {a b : F32} : a < b ↔ a.bits < b.bits := Iff.rfl

/-! ## Fields -/

def signBit (a : F32) : Bool := 0x80000000 ≤ a.bits
def exponent (a : F32) : Nat := a.bits.toNat / 2 ^ 23 % 2 ^ 8
def fraction (a : F32) : Nat := a.bits.toNat % 2 ^ 23
/-- The bits without the sign. -/
def magnitude (a : F32) : Nat := a.bits.toNat % 2 ^ 31

def isNaN (a : F32) : Bool := 0x7f800000 < a.magnitude
def isInfinite (a : F32) : Bool := a.magnitude = 0x7f800000
def isZero (a : F32) : Bool := a.magnitude = 0

def zero : F32 := ⟨0⟩
/-- `-0.0`. -/
def negZero : F32 := ⟨0x80000000⟩
def one : F32 := ⟨0x3f800000⟩
/-- `f32::MAX`. -/
def maxValue : F32 := ⟨0x7f7fffff⟩
def infinity : F32 := ⟨0x7f800000⟩
def nan : F32 := ⟨0x7fc00000⟩

/-! ## Comparison -/

/-- `a < b` on `f32`. -/
def flt (a b : F32) : Bool :=
  !a.isNaN && !b.isNaN &&
    match a.signBit, b.signBit with
    | false, false => a.magnitude < b.magnitude
    | true, true => b.magnitude < a.magnitude
    | true, false => !(a.isZero && b.isZero)
    | false, true => false

/-- `a <= b` on `f32`. -/
def fle (a b : F32) : Bool :=
  !a.isNaN && !b.isNaN && !flt b a

/-- Not NaN, and the sign bit is clear. -/
def Nonneg (a : F32) : Prop := a.signBit = false ∧ a.isNaN = false

instance (a : F32) : Decidable a.Nonneg := inferInstanceAs (Decidable (_ ∧ _))

/-! ## Arithmetic -/

/-- The rational a finite pattern denotes. -/
def toRat (a : F32) : ℚ :=
  let m : ℚ :=
    if a.exponent = 0 then a.fraction / 2 ^ 149
    else if a.exponent < 150 then (2 ^ 23 + a.fraction) / 2 ^ (150 - a.exponent)
    else (2 ^ 23 + a.fraction) * 2 ^ (a.exponent - 150)
  if a.signBit then -m else m

/-- `n / d` rounded to an integer, ties to even. -/
def roundDiv (n d : Nat) : Nat :=
  let q := n / d
  let r := 2 * (n % d)
  if d < r ∨ r = d ∧ q % 2 = 1 then q + 1 else q

/-- The magnitude nearest to `n / d`. The quotient is scaled by `2 ^ s` so that its integral part
has 24 bits, or by `2 ^ 149` below the least normal number. -/
def roundMagnitude (n d : Nat) : UInt32 :=
  if n = 0 then 0 else
    -- `⌊log₂ (n / d)⌋`, with 200 added so that it is a natural number
    let guess := 200 + Nat.log2 n - Nat.log2 d
    let e := if n * 2 ^ 200 < d * 2 ^ guess then guess - 1 else guess
    let e := max e 74
    let q := if e < 223 then roundDiv (n * 2 ^ (223 - e)) d else roundDiv n (d * 2 ^ (e - 223))
    let bits := (e - 74) * 2 ^ 23 + q
    if bits < 0x7f800000 then bits.toUInt32 else 0x7f800000

/-- A rational rounded to nearest, ties to even. -/
def round (negative : Bool) (q : ℚ) : F32 :=
  let m := roundMagnitude q.num.natAbs q.den
  ⟨if negative then 0x80000000 + m else m⟩

/-- `n as f32`. -/
def ofNat (n : Nat) : F32 := round false n

def neg (a : F32) : F32 := ⟨a.bits ^^^ 0x80000000⟩

def abs (a : F32) : F32 := ⟨a.bits &&& 0x7fffffff⟩

def mul (a b : F32) : F32 :=
  let s := a.signBit != b.signBit
  if a.isNaN || b.isNaN then nan
  else if a.isInfinite || b.isInfinite then
    if a.isZero || b.isZero then nan else if s then neg infinity else infinity
  else round s (a.toRat * b.toRat)

def div (a b : F32) : F32 :=
  let s := a.signBit != b.signBit
  if a.isNaN || b.isNaN then nan
  else if a.isInfinite then
    if b.isInfinite then nan else if s then neg infinity else infinity
  else if b.isInfinite then if s then neg zero else zero
  else if b.isZero then
    if a.isZero then nan else if s then neg infinity else infinity
  else round s (a.toRat / b.toRat)

def add (a b : F32) : F32 :=
  if a.isNaN || b.isNaN then nan
  else if a.isInfinite then
    if b.isInfinite && a.signBit != b.signBit then nan else a
  else if b.isInfinite then b
  else
    let q := a.toRat + b.toRat
    if q = 0 then if a.signBit && b.signBit then neg zero else zero else round (q < 0) q

def sub (a b : F32) : F32 := add a (neg b)

/-- `a.mul_add(b, c)`: rounded once. -/
def mulAdd (a b c : F32) : F32 :=
  if a.isNaN || b.isNaN || c.isNaN then nan
  else if a.isInfinite || b.isInfinite then add (mul a b) c
  else if c.isInfinite then c
  else
    let q := a.toRat * b.toRat + c.toRat
    if q = 0 then if (a.signBit != b.signBit) && c.signBit then neg zero else zero
    else round (q < 0) q

/-- `n as f32`. -/
def ofInt (n : Int) : F32 := round (n < 0) n

/-- `√n` rounded to an integer. -/
def roundSqrt (n : Nat) : Nat :=
  let q := n.sqrt
  if q * q + q < n then q + 1 else q

/-- `sqrt`. The significand is scaled by `2 ^ s` to 47 or 48 bits, so that its root has 24; what
remains of the exponent is even. -/
def sqrt (a : F32) : F32 :=
  if a.isNaN then nan
  else if a.isZero then a
  else if a.signBit then nan
  else if a.isInfinite then a
  else
    -- `a` is `m * 2 ^ (e - 150)`
    let m := if a.exponent = 0 then a.fraction else 2 ^ 23 + a.fraction
    let e := max a.exponent 1
    let s := 46 - Nat.log2 m
    let s := s + (s + e) % 2
    round false (roundSqrt (m * 2 ^ s) * 2 ^ ((e + 50 - s) / 2) / 2 ^ 100)

/-- `clamp`. -/
def clamp (a min max : F32) : F32 :=
  let a := if a.flt min then min else a
  if max.flt a then max else a

example : ofNat 3 = ⟨0x40400000⟩ := by decide +kernel

example : div (ofNat 1) (ofNat 10) = ⟨0x3dcccccd⟩ := by decide +kernel

example : sqrt (ofNat 2) = ⟨0x3fb504f3⟩ := by decide +kernel

/-! ## Absolute differences -/

theorem toNat_bits_abs (a : F32) : a.abs.bits.toNat = a.magnitude := by
  rw [abs, magnitude, UInt32.toNat_and]
  exact Nat.and_two_pow_sub_one_eq_mod a.bits.toNat 31

/-- The absolute value is a function of the magnitude. -/
theorem abs_eq_iff {a b : F32} : a.abs = b.abs ↔ a.magnitude = b.magnitude := by
  rw [← toNat_bits_abs, ← toNat_bits_abs, UInt32.toNat_inj]
  exact ⟨fun h => by rw [h], fun h => bits_injective h⟩

theorem signBit_eq_testBit (a : F32) : a.signBit = a.bits.toNat.testBit 31 := by
  have hlt := a.bits.toNat_lt
  rw [signBit, Nat.testBit_eq_decide_div_mod_eq]
  refine decide_eq_decide.mpr ?_
  rw [UInt32.le_iff_toNat_le, show (0x80000000 : UInt32).toNat = 2 ^ 31 from rfl]
  omega

@[simp] theorem signBit_neg (a : F32) : a.neg.signBit = !a.signBit := by
  rw [signBit_eq_testBit, signBit_eq_testBit, neg, UInt32.toNat_xor, Nat.testBit_xor,
    show ((0x80000000 : UInt32).toNat).testBit 31 = true from by decide, Bool.xor_true]

@[simp] theorem magnitude_neg (a : F32) : a.neg.magnitude = a.magnitude := by
  rw [magnitude, magnitude, neg, UInt32.toNat_xor, Nat.xor_mod_two_pow]
  exact Nat.xor_zero _

theorem exponent_eq (a : F32) : a.exponent = a.magnitude / 2 ^ 23 := by
  rw [exponent, magnitude]
  omega

theorem fraction_eq (a : F32) : a.fraction = a.magnitude % 2 ^ 23 := by
  rw [fraction, magnitude]
  omega

@[simp] theorem isNaN_neg (a : F32) : a.neg.isNaN = a.isNaN := by simp [isNaN]
@[simp] theorem isInfinite_neg (a : F32) : a.neg.isInfinite = a.isInfinite := by simp [isInfinite]

@[simp] theorem toRat_neg (a : F32) : a.neg.toRat = -a.toRat := by
  simp only [toRat, exponent_eq, fraction_eq, magnitude_neg, signBit_neg]
  cases a.signBit <;> simp

/-- Rounding is symmetric about zero. -/
theorem magnitude_round (b c : Bool) (q : ℚ) :
    (round b q).magnitude = (round c (-q)).magnitude := by
  have hflip : ∀ m : UInt32, (⟨0x80000000 + m⟩ : F32).magnitude = (⟨m⟩ : F32).magnitude := by
    intro m
    have hadd : (0x80000000 + m).toNat = (2 ^ 31 + m.toNat) % 2 ^ 32 := UInt32.toNat_add _ _
    show (0x80000000 + m).toNat % 2 ^ 31 = m.toNat % 2 ^ 31
    omega
  have h : ∀ (b : Bool) (q : ℚ), (round b q).magnitude =
      (⟨roundMagnitude q.num.natAbs q.den⟩ : F32).magnitude := by
    intro b q
    cases b
    · simp only [round, Bool.false_eq_true, if_false]
    · simp only [round, if_true]
      exact hflip _
  rw [h, h, Rat.neg_num, Int.natAbs_neg, Rat.neg_den]

/-- **The distance of two floats does not depend on their order.** -/
theorem abs_sub_comm (a b : F32) : (a.sub b).abs = (b.sub a).abs := by
  rw [abs_eq_iff]
  unfold sub add
  simp only [isNaN_neg, isInfinite_neg, signBit_neg, toRat_neg]
  have hinf : ∀ c : F32, c.isInfinite = true → c.magnitude = 0x7f800000 := fun c h =>
    of_decide_eq_true h
  rw [Bool.or_comm b.isNaN]
  by_cases hn : (a.isNaN || b.isNaN) = true
  · rw [if_pos hn, if_pos hn]
  rw [if_neg hn, if_neg hn]
  cases ha : a.isInfinite <;> cases hb : b.isInfinite
  · simp only [Bool.false_eq_true, if_false]
    have hq : b.toRat + -a.toRat = -(a.toRat + -b.toRat) := by
      rw [neg_add, neg_neg, add_comm]
    rw [hq]
    generalize a.toRat + -b.toRat = q
    by_cases h0 : q = 0
    · rw [if_pos h0, if_pos (neg_eq_zero.mpr h0)]
      split_ifs <;> rfl
    · rw [if_neg h0, if_neg (mt neg_eq_zero.mp h0)]
      exact magnitude_round _ _ _
  · simp
  · simp
  · have hm := (hinf a ha).trans (hinf b hb).symm
    cases a.signBit <;> cases b.signBit <;> simp [hm]

theorem magnitude_sub_comm (a b : F32) : (a.sub b).magnitude = (b.sub a).magnitude :=
  abs_eq_iff.mp (abs_sub_comm a b)

/-! ## Products -/

theorem mul_symm (a b : F32) : a.mul b = b.mul a := by
  simp only [mul, Bool.or_comm b.isNaN, Bool.or_comm b.isInfinite, Bool.or_comm b.isZero,
    bne_comm (a := b.signBit), Rat.mul_comm b.toRat]

theorem mulAdd_symm (a b c : F32) : mulAdd a b c = mulAdd b a c := by
  simp only [mulAdd, mul_symm b a, Bool.or_comm b.isNaN, Bool.or_comm b.isInfinite,
    bne_comm (a := b.signBit), Rat.mul_comm b.toRat]

section square

variable {a b : F32}

theorem isNaN_of_magnitude (h : a.magnitude = b.magnitude) : a.isNaN = b.isNaN := by
  rw [isNaN, isNaN, h]

theorem isInfinite_of_magnitude (h : a.magnitude = b.magnitude) :
    a.isInfinite = b.isInfinite := by
  rw [isInfinite, isInfinite, h]

theorem magnitude_abs (a : F32) : a.abs.magnitude = a.magnitude := by
  rw [magnitude, toNat_bits_abs]
  exact Nat.mod_mod _ _

theorem signBit_abs (a : F32) : a.abs.signBit = false := by
  rw [signBit_eq_testBit, toNat_bits_abs]
  exact Nat.testBit_lt_two_pow (Nat.mod_lt _ (by decide))

theorem toRat_eq_abs (a : F32) : a.toRat = if a.signBit then -a.abs.toRat else a.abs.toRat := by
  simp only [toRat, exponent_eq, fraction_eq, magnitude_abs, signBit_abs, Bool.false_eq_true,
    if_false]

theorem square_toRat (h : a.magnitude = b.magnitude) :
    a.toRat * a.toRat = b.toRat * b.toRat := by
  have hsquare : ∀ c : F32, c.toRat * c.toRat = c.abs.toRat * c.abs.toRat := by
    intro c
    rw [toRat_eq_abs]
    split_ifs
    · rw [Rat.neg_mul, Rat.mul_neg, neg_neg]
    · rfl
  rw [hsquare a, hsquare b, abs_eq_iff.mpr h]

/-- A square is a function of the magnitude. -/
theorem mul_self_of_magnitude (h : a.magnitude = b.magnitude) : a.mul a = b.mul b := by
  simp only [mul, isNaN_of_magnitude h, isInfinite_of_magnitude h, isZero, h, square_toRat h,
    bne_self_eq_false]

theorem mulAdd_self_of_magnitude (h : a.magnitude = b.magnitude) (c : F32) :
    mulAdd a a c = mulAdd b b c := by
  simp only [mulAdd, isNaN_of_magnitude h, isInfinite_of_magnitude h, square_toRat h,
    mul_self_of_magnitude h, bne_self_eq_false]

end square

end F32

/-- `ScoredLink = (OrderedFloat, ItemId)` (`hnsw.rs:30`). -/
abbrev ScoredLink := Scored F32 ItemId

end Hannoy
