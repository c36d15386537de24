import Hannoy.Spaces.Halves

/-!
# Integers and their roots in binary32

An integer cast to `f32` keeps 24 bits (`round24`), and its square root is the integer nearest to
the root of the cast integer, which is first scaled by a power of four so that the root has 24
bits.

* `toRat_round_shift`: an integer scaled by a power of two, rounded.
* `toRat_sqrt`: the square root of an integer.
* `div_le_one_iff`: a rounded quotient of numbers of 24 bits is at most one when the quotient is.
-/

namespace Hannoy.F32

/-! ## Integers of 24 bits -/

/-- `m` rounded to 24 bits, ties to even. -/
def round24 (m : Nat) : Nat :=
  if m < 2 ^ 24 then m else roundDiv m (2 ^ (m.log2 - 23)) * 2 ^ (m.log2 - 23)

theorem log2_lt {m i : Nat} (hm : 0 < m) (h : m < 2 ^ i) : m.log2 < i :=
  (Nat.log2_lt hm.ne').mpr h

theorem log2_le {m i : Nat} (hm : 0 < m) (h : m ≤ 2 ^ i) : m.log2 ≤ i :=
  (Nat.pow_le_pow_iff_right (by decide : 1 < 2)).mp ((Nat.log2_self_le hm.ne').trans h)

theorem le_log2 {m i : Nat} (hm : 0 < m) (h : 2 ^ i ≤ m) : i ≤ m.log2 :=
  (Nat.le_log2 hm.ne').mpr h

/-- The significand of an integer. -/
theorem significand_ofNat {m : Nat} (hm : 0 < m) :
    (significand (200 + m.log2) m 1 * 2 ^ (200 + m.log2) : ℚ) = round24 m * 2 ^ 223 := by
  unfold significand round24
  by_cases hlt : m < 2 ^ 24
  · have hlog := log2_lt hm hlt
    rw [if_pos hlt, Nat.sub_eq_zero_of_le (by omega : 200 + m.log2 ≤ 223), Nat.pow_zero,
      roundDiv_one]
    push_cast
    rw [mul_assoc, ← pow_add, Nat.sub_add_cancel (by omega)]
  · have hlog := le_log2 hm (Nat.le_of_not_lt hlt)
    obtain ⟨i, hi⟩ := Nat.exists_eq_add_of_le (by omega : 23 ≤ m.log2)
    rw [if_neg hlt, hi, Nat.sub_eq_zero_of_le (by omega : 223 ≤ 200 + (23 + i)), Nat.pow_zero,
      Nat.mul_one, Nat.one_mul, (by omega : 200 + (23 + i) - 223 = i), Nat.add_sub_cancel_left]
    push_cast
    ring

theorem roundDiv_log2_le {m : Nat} (h : 23 ≤ m.log2) :
    roundDiv m (2 ^ (m.log2 - 23)) ≤ 2 ^ 24 := by
  refine roundDiv_le (Nat.two_pow_pos _) ?_
  rw [← Nat.pow_add, (by omega : 24 + (m.log2 - 23) = m.log2 + 1)]
  exact Nat.lt_log2_self

/-- It has 24 bits. -/
theorem exists_round24 (m : Nat) : ∃ a x, a < 2 ^ 24 ∧ round24 m = a * 2 ^ x := by
  unfold round24
  split_ifs with hlt
  · exact ⟨m, 0, hlt, (Nat.mul_one m).symm⟩
  · have hlog : 23 ≤ m.log2 := le_log2 (by omega) (by omega)
    rcases Nat.lt_or_eq_of_le (roundDiv_log2_le hlog) with hq | hq
    · exact ⟨_, _, hq, rfl⟩
    · refine ⟨2 ^ 23, m.log2 - 23 + 1, by decide, ?_⟩
      rw [hq]
      ring

theorem round24_pos {m : Nat} (hm : 0 < m) : 0 < round24 m := by
  unfold round24
  split_ifs with hlt
  · exact hm
  · refine Nat.mul_pos (le_roundDiv (Nat.two_pow_pos _) ?_) (Nat.two_pow_pos _)
    rw [Nat.one_mul]
    exact (Nat.pow_le_pow_right (by decide) (Nat.sub_le ..)).trans (Nat.log2_self_le hm.ne')

theorem round24_le (m : Nat) : round24 m ≤ 2 ^ (m.log2 + 1) := by
  have hlt := @Nat.lt_log2_self m
  unfold round24
  split_ifs with hsmall
  · exact hlt.le
  · have hlog : 23 ≤ m.log2 := le_log2 (by omega) (by omega)
    calc roundDiv m (2 ^ (m.log2 - 23)) * 2 ^ (m.log2 - 23)
        ≤ 2 ^ 24 * 2 ^ (m.log2 - 23) := Nat.mul_le_mul_right _ (roundDiv_log2_le hlog)
      _ = 2 ^ (m.log2 + 1) := by
        rw [← Nat.pow_add, (by omega : 24 + (m.log2 - 23) = m.log2 + 1)]

theorem round24_of_le {m : Nat} (h : m ≤ 2 ^ 24) : round24 m = m := by
  rcases Nat.lt_or_eq_of_le h with hlt | rfl
  · exact if_pos hlt
  · decide

/-- What has 24 bits is not rounded. -/
theorem round24_mul_two_pow {a x : Nat} (ha : 0 < a) (hlt : a < 2 ^ 24) :
    round24 (a * 2 ^ x) = a * 2 ^ x := by
  have hlog : (a * 2 ^ x).log2 < 24 + x := by
    refine log2_lt (Nat.mul_pos ha (Nat.two_pow_pos x)) ?_
    rw [Nat.pow_add]
    exact Nat.mul_lt_mul_of_pos_right hlt (Nat.two_pow_pos x)
  unfold round24
  split_ifs with hsmall
  · rfl
  · obtain ⟨i, hi⟩ := Nat.exists_eq_add_of_le (by omega : (a * 2 ^ x).log2 - 23 ≤ x)
    generalize (a * 2 ^ x).log2 - 23 = j at *
    have hsplit : a * 2 ^ x = a * 2 ^ i * 2 ^ j := by
      rw [hi]
      ring
    have hround := roundDiv_mul (a * 2 ^ i) 1 (Nat.two_pow_pos j)
    rw [Nat.one_mul, roundDiv_one] at hround
    rw [hsplit, hround]

theorem cast_shift (m i : Nat) : (m / 2 ^ i : ℚ) = m / (1 * 2 ^ i : ℕ) := by
  push_cast
  rw [one_mul]

section shift

variable {m i : Nat} (hm : 0 < m) (hi : i ≤ 126 + m.log2) (hi' : m.log2 ≤ 126 + i)

include hm hi

theorem exponent_shift : Exponent (200 + m.log2 - i) m (1 * 2 ^ i) := by
  refine Exponent.shift (by omega) ?_
  rw [Nat.sub_add_cancel (by omega)]
  exact Exponent.ofNat hm

include hi'

/-- **An integer scaled by a power of two, rounded.** -/
theorem toRat_round_shift : (round false (m / 2 ^ i)).toRat = round24 m / 2 ^ i := by
  have hvalue := toRat_round_div (exponent_shift hm hi) (by omega)
  rw [significand_shift, Nat.sub_add_cancel (by omega)] at hvalue
  rw [cast_shift, hvalue, div_eq_div_iff (pow_ne_zero _ two_ne_zero) (pow_ne_zero _ two_ne_zero),
    mul_assoc, ← pow_add, Nat.sub_add_cancel (by omega), significand_ofNat hm]

theorem isInfinite_round_shift : (round false (m / 2 ^ i)).isInfinite = false := by
  rw [cast_shift]
  exact isInfinite_round_div (exponent_shift hm hi) (by omega)

theorem positive_round_shift : (round false (m / 2 ^ i)).Positive where
  isNaN := isNaN_round ..
  isInfinite := isInfinite_round_shift hm hi hi'
  isZero := by
    have hpos : (0 : ℚ) < round24 m := by exact_mod_cast round24_pos hm
    refine isZero_eq_false ?_
    rw [toRat_round_shift hm hi hi']
    exact (div_pos hpos (pow_pos two_pos i)).ne'
  signBit := signBit_round ..

end shift

/-! ## Quotients of numbers of 24 bits -/

/-- Numbers of 24 bits differ by more than half a unit in the last place. -/
theorem gap {a b x y : Nat} (ha : a < 2 ^ 24) (hb : b < 2 ^ 24) (h : b * 2 ^ x < a * 2 ^ y) :
    (2 ^ 24 + 1) * (b * 2 ^ x) < a * 2 ^ y * 2 ^ 24 := by
  rcases Nat.le_total x y with hxy | hxy
  · -- both are multiples of `2 ^ x`, and the smaller one is below `2 ^ 24` of them
    obtain ⟨i, rfl⟩ := Nat.exists_eq_add_of_le hxy
    have hsplit : a * 2 ^ (x + i) = a * 2 ^ i * 2 ^ x := by ring
    rw [hsplit] at h ⊢
    have hlt := Nat.lt_of_mul_lt_mul_right h
    have hx := Nat.two_pow_pos x
    calc (2 ^ 24 + 1) * (b * 2 ^ x) < (b + 1) * 2 ^ 24 * 2 ^ x := by
          rw [← Nat.mul_assoc]
          exact Nat.mul_lt_mul_of_pos_right (by omega) hx
      _ ≤ a * 2 ^ i * 2 ^ 24 * 2 ^ x := Nat.mul_le_mul_right _ (Nat.mul_le_mul_right _ hlt)
      _ = a * 2 ^ i * 2 ^ x * 2 ^ 24 := Nat.mul_right_comm ..
  · -- both are multiples of `2 ^ y`, and the larger one is below `2 ^ 24` of them
    obtain ⟨i, rfl⟩ := Nat.exists_eq_add_of_le hxy
    have hsplit : b * 2 ^ (y + i) = b * 2 ^ i * 2 ^ y := by ring
    rw [hsplit] at h ⊢
    have hlt := Nat.lt_of_mul_lt_mul_right h
    have hy := Nat.two_pow_pos y
    calc (2 ^ 24 + 1) * (b * 2 ^ i * 2 ^ y) = (2 ^ 24 + 1) * (b * 2 ^ i) * 2 ^ y :=
          (Nat.mul_assoc ..).symm
      _ < a * 2 ^ 24 * 2 ^ y := Nat.mul_lt_mul_of_pos_right (by omega) hy
      _ = a * 2 ^ y * 2 ^ 24 := Nat.mul_right_comm ..

/-- **A quotient of numbers of 24 bits is rounded to more than one only when it is more than
one.** -/
theorem round_div_le_one_iff_le {a b x y : Nat} (ha : a < 2 ^ 24) (hb : b < 2 ^ 24)
    (hpos : 0 < b * 2 ^ x) :
    round false ((a * 2 ^ y : ℕ) / (b * 2 ^ x : ℕ)) ≤ one ↔ a * 2 ^ y ≤ b * 2 ^ x := by
  rw [round_div_le_one_iff hpos]
  constructor
  · intro hround
    by_contra hlt
    exact Nat.not_lt.mpr hround (gap ha hb (Nat.lt_of_not_le hlt))
  · intro hle
    have := Nat.mul_le_mul_right (2 ^ 24) hle
    omega

/-! ## Square roots -/

/-- The power of two by which the root of `m` is scaled to 24 bits. -/
def rootScale (m : Nat) : Nat := 23 - m.log2 / 2

/-- The integer nearest to the scaled root. -/
def root24 (m : Nat) : Nat := roundSqrt (m * 4 ^ rootScale m)

theorem le_roundSqrt (n : Nat) : n ≤ roundSqrt n * roundSqrt n + roundSqrt n := by
  have hupper := Nat.lt_succ_sqrt n
  unfold roundSqrt
  dsimp only
  split_ifs with hround
  · exact hupper.le.trans (Nat.le_add_right ..)
  · exact Nat.le_of_not_lt hround

/-- The scaled root has 24 bits, or is the power of two behind them. -/
theorem root24_bounds {m : Nat} (hm : 0 < m) (hlog : m.log2 ≤ 45) :
    2 ^ 23 ≤ root24 m ∧ root24 m ≤ 2 ^ 24 := by
  have hscale : 46 ≤ m.log2 + 2 * rootScale m ∧ m.log2 + 2 * rootScale m ≤ 47 := by
    unfold rootScale
    omega
  have hpow : 4 ^ rootScale m = 2 ^ (2 * rootScale m) := Nat.pow_mul 2 2 _ ▸ rfl
  have hlower : 2 ^ 46 ≤ m * 4 ^ rootScale m := by
    calc 2 ^ 46 ≤ 2 ^ (m.log2 + 2 * rootScale m) := Nat.pow_le_pow_right (by decide) hscale.1
      _ = 2 ^ m.log2 * 4 ^ rootScale m := by rw [hpow, Nat.pow_add]
      _ ≤ m * 4 ^ rootScale m := Nat.mul_le_mul_right _ (Nat.log2_self_le hm.ne')
  have hupper : m * 4 ^ rootScale m < 2 ^ 48 := by
    calc m * 4 ^ rootScale m < 2 ^ (m.log2 + 1) * 4 ^ rootScale m :=
          Nat.mul_lt_mul_of_pos_right Nat.lt_log2_self (Nat.pow_pos (by decide))
      _ = 2 ^ (m.log2 + 1 + 2 * rootScale m) := by rw [hpow, ← Nat.pow_add]
      _ ≤ 2 ^ 48 := Nat.pow_le_pow_right (by decide) (by omega)
  have hsqrt : 2 ^ 23 ≤ (m * 4 ^ rootScale m).sqrt := Nat.le_sqrt.mpr (by omega)
  have hsqrt' : (m * 4 ^ rootScale m).sqrt < 2 ^ 24 := Nat.sqrt_lt.mpr (by omega)
  unfold root24 roundSqrt
  dsimp only
  split_ifs <;> omega

/-- The square of the root is off by less than two dimensions are apart. -/
theorem sub_le_root24_square {n k : Nat} (hn : 0 < n) (hlt : n < 2 ^ 24) (hk : 0 < k) :
    (n - 2 * k) * 4 ^ rootScale n ≤ root24 n * root24 n := by
  have hlog := log2_lt hn hlt
  obtain ⟨-, hroot⟩ := root24_bounds hn (by omega)
  have hnear := le_roundSqrt (n * 4 ^ rootScale n)
  rw [← root24] at hnear
  have hscale : 12 ≤ rootScale n := by
    unfold rootScale
    omega
  have hapart : 2 * 1 * 4 ^ 12 ≤ 2 * k * 4 ^ rootScale n :=
    Nat.mul_le_mul (Nat.mul_le_mul_left 2 hk) (Nat.pow_le_pow_right (by decide) hscale)
  rw [Nat.sub_mul]
  omega

/-- The fields of a pattern that denotes an integer. -/
theorem exponent_of_toRat {a : F32} {m : Nat} (hm : 0 < m) (hs : a.signBit = false)
    (ha : a.toRat = m) : a.exponent = 127 + m.log2 ∧
      (2 ^ 23 + a.fraction) * 2 ^ a.exponent = m * 2 ^ 150 := by
  have hfraction : a.fraction < 2 ^ 23 := Nat.mod_lt _ (by decide)
  have hne : a.exponent ≠ 0 := by
    intro h0
    simp only [toRat, h0, hs, if_true, Bool.false_eq_true, if_false] at ha
    rw [div_eq_iff (pow_ne_zero _ two_ne_zero)] at ha
    have : a.fraction = m * 2 ^ 149 := by exact_mod_cast ha
    omega
  have hvalue : (2 ^ 23 + a.fraction) * 2 ^ a.exponent = m * 2 ^ 150 := by
    rw [toRat_normal hs hne, div_eq_iff (pow_ne_zero _ two_ne_zero)] at ha
    exact_mod_cast ha
  refine ⟨?_, hvalue⟩
  have hlower := Nat.log2_self_le hm.ne'
  have hupper := @Nat.lt_log2_self m
  have hE := Nat.two_pow_pos a.exponent
  have hle : 23 + a.exponent < m.log2 + 1 + 150 := by
    refine (Nat.pow_lt_pow_iff_right (by decide : 1 < 2)).mp ?_
    calc 2 ^ (23 + a.exponent) = 2 ^ 23 * 2 ^ a.exponent := Nat.pow_add ..
      _ ≤ (2 ^ 23 + a.fraction) * 2 ^ a.exponent := Nat.mul_le_mul_right _ (Nat.le_add_right ..)
      _ = m * 2 ^ 150 := hvalue
      _ < 2 ^ (m.log2 + 1) * 2 ^ 150 := Nat.mul_lt_mul_of_pos_right hupper (Nat.two_pow_pos 150)
      _ = 2 ^ (m.log2 + 1 + 150) := (Nat.pow_add ..).symm
  have hge : m.log2 + 150 < 24 + a.exponent := by
    refine (Nat.pow_lt_pow_iff_right (by decide : 1 < 2)).mp ?_
    calc 2 ^ (m.log2 + 150) = 2 ^ m.log2 * 2 ^ 150 := Nat.pow_add ..
      _ ≤ m * 2 ^ 150 := Nat.mul_le_mul_right _ hlower
      _ = (2 ^ 23 + a.fraction) * 2 ^ a.exponent := hvalue.symm
      _ < 2 ^ 24 * 2 ^ a.exponent := Nat.mul_lt_mul_of_pos_right (by omega) hE
      _ = 2 ^ (24 + a.exponent) := (Nat.pow_add ..).symm
  omega

/-- **The square root of an integer.** -/
theorem sqrt_eq {a : F32} {m : Nat} (hm : 0 < m) (hlog : m.log2 ≤ 45) (hs : a.signBit = false)
    (ha : a.toRat = m) : a.sqrt = round false (root24 m / 2 ^ rootScale m) := by
  obtain ⟨hexponent, hvalue⟩ := exponent_of_toRat hm hs ha
  have hmagnitude := exponent_eq a
  have hnan : a.isNaN = false := by
    rw [isNaN, decide_eq_false_iff_not]
    omega
  have hinf : a.isInfinite = false := by
    rw [isInfinite, decide_eq_false_iff_not]
    omega
  have hzero : a.isZero = false := by
    rw [isZero, decide_eq_false_iff_not]
    omega
  have hfraction : a.fraction < 2 ^ 23 := Nat.mod_lt _ (by decide)
  have hsig : (2 ^ 23 + a.fraction).log2 = 23 :=
    (Nat.log2_eq_iff (by omega)).mpr ⟨Nat.le_add_right .., by omega⟩
  have hscaled : (2 ^ 23 + a.fraction) * 2 ^ (23 + m.log2 % 2) = m * 4 ^ rootScale m := by
    refine Nat.eq_of_mul_eq_mul_right (Nat.two_pow_pos (104 + 2 * (m.log2 / 2))) ?_
    rw [Nat.mul_assoc, Nat.mul_assoc, (by rfl : 4 = 2 ^ 2), ← Nat.pow_mul, ← Nat.pow_add,
      ← Nat.pow_add]
    unfold rootScale
    rw [(by omega : 23 + m.log2 % 2 + (104 + 2 * (m.log2 / 2)) = a.exponent),
      (by omega : 2 * (23 - m.log2 / 2) + (104 + 2 * (m.log2 / 2)) = 150), hvalue]
  have hparity : 23 + (23 + a.exponent) % 2 = 23 + m.log2 % 2 := by omega
  have hhalf : (a.exponent + 50 - (23 + m.log2 % 2)) / 2 = 77 + m.log2 / 2 := by omega
  rw [sqrt, hnan, hinf, hzero, hs, if_neg (by omega : ¬ a.exponent = 0)]
  simp only [Bool.false_eq_true, if_false, hsig, Nat.max_eq_left (by omega : 1 ≤ a.exponent),
    Nat.reduceSub, hparity, hscaled, hhalf]
  congr 1
  rw [← root24, div_eq_div_iff (pow_ne_zero _ two_ne_zero) (pow_ne_zero _ two_ne_zero), mul_assoc,
    ← pow_add, rootScale, (by omega : 77 + m.log2 / 2 + (23 - m.log2 / 2) = 100)]

/-! ## Casts and norms -/

theorem ofInt_natCast (m : Nat) : ofInt m = round false m := by
  rw [ofInt, decide_eq_false (by omega)]
  rfl

theorem signBit_ofInt (m : Nat) : (ofInt m).signBit = false := by
  rw [ofInt_natCast, signBit_round]

theorem ofInt_le_ofInt {l m : Nat} (h : l ≤ m) : ofInt l ≤ ofInt m := by
  rw [ofInt_natCast, ofInt_natCast]
  exact round_mono (Nat.cast_nonneg l) (Nat.cast_le.mpr h)

theorem isNaN_ofInt (n : Int) : (ofInt n).isNaN = false := isNaN_round ..

theorem toRat_ofInt {m : Nat} (hm : 0 < m) (hlog : m.log2 ≤ 126) : (ofInt m).toRat = round24 m := by
  have hvalue := @toRat_round_shift m 0 hm (by omega) (by omega)
  rwa [pow_zero, div_one, div_one, ← ofInt_natCast] at hvalue

theorem round24_mono {m l : Nat} (hl : 0 < l) (hlog : m.log2 ≤ 126) (h : l ≤ m) :
    round24 l ≤ round24 m := by
  have hlt : m < 2 ^ 127 := (Nat.log2_lt (by omega)).mp (Nat.lt_succ_of_le hlog)
  have hvalue := (toRat_le_iff (signBit_ofInt l) (signBit_ofInt m)).mpr (ofInt_le_ofInt h)
  rw [toRat_ofInt hl (Nat.le_of_lt_succ (log2_lt hl (by omega))), toRat_ofInt (by omega) hlog]
    at hvalue
  exact_mod_cast hvalue

theorem isInfinite_ofInt {m : Nat} (hm : 0 < m) (hlog : m.log2 ≤ 126) :
    (ofInt m).isInfinite = false := by
  have hinf := @isInfinite_round_shift m 0 hm (by omega) (by omega)
  rwa [pow_zero, div_one, ← ofInt_natCast] at hinf

/-- The square of a norm of at most 24 bits: it is rounded again. -/
theorem mul_self_round {s i : Nat} (hs : 0 < s) (hs' : s ≤ 2 ^ 24) (hi : i ≤ 100) :
    (round false (s / 2 ^ i)).mul (round false (s / 2 ^ i)) =
      round false ((s * s : ℕ) / 2 ^ (2 * i)) := by
  have hlog := log2_le hs hs'
  have hvalue := toRat_round_shift hs (by omega : i ≤ 126 + s.log2) (by omega)
  have hinf := isInfinite_round_shift hs (by omega : i ≤ 126 + s.log2) (by omega)
  rw [round24_of_le hs'] at hvalue
  simp only [mul, isNaN_round, hinf, signBit_round, Bool.or_self, Bool.false_eq_true, if_false,
    bne_self_eq_false, hvalue]
  congr 1
  rw [div_mul_div_comm, ← pow_add, Nat.two_mul]
  push_cast
  rfl

/-- Dividing by a positive number is monotone, up to the sign. -/
theorem ofInt_div_mono {b : F32} (hb : b.Positive) {p : Int} {q : Nat} (hq : 0 < q)
    (hlog : q.log2 ≤ 126) (h : p ≤ q) :
    ((ofInt p).div b).signBit = true ∨ (ofInt p).div b ≤ (ofInt q).div b := by
  rcases Int.lt_or_le p 0 with hneg | hnonneg
  · rw [(sign_div hb (isNaN_ofInt p)).2, ofInt, signBit_round, decide_eq_true_iff]
    exact .inl hneg
  · obtain ⟨l, rfl⟩ := Int.eq_ofNat_of_zero_le hnonneg
    have hlq : l ≤ q := by omega
    have hinf : (ofInt l).isInfinite = false := by
      rcases Nat.eq_zero_or_pos l with rfl | hl
      · decide +kernel
      · have := (Nat.log2_lt hq.ne').mp (Nat.lt_succ_of_le hlog)
        exact isInfinite_ofInt hl (Nat.le_of_lt_succ (log2_lt hl (hlq.trans_lt this)))
    have hb' := toRat_nonneg hb.signBit
    refine .inr ?_
    rw [div_eq hb (isNaN_ofInt _) hinf, div_eq hb (isNaN_ofInt _) (isInfinite_ofInt hq hlog),
      signBit_ofInt, signBit_ofInt]
    refine round_mono (div_nonneg (toRat_nonneg (signBit_ofInt l)) hb') ?_
    exact div_le_div_of_nonneg_right
      ((toRat_le_iff (signBit_ofInt l) (signBit_ofInt q)).mpr (ofInt_le_ofInt hlq)) hb'

section quotient

variable {q s i : Nat} (hq : 0 < q) (hq' : q.log2 ≤ 126) (hs : 0 < s) (hs' : s.log2 ≤ 100)
  (hi : i ≤ 100)

include hq hq' hs hs' hi

/-- The quotient of a cast integer and a rounded number. -/
theorem ofInt_div : (ofInt q).div (round false (s / 2 ^ i)) =
    round false ((round24 q * 2 ^ i : ℕ) / (round24 s : ℕ)) := by
  have hi' : i ≤ 126 + s.log2 := by omega
  rw [div_eq (positive_round_shift hs hi' (by omega)) (isNaN_ofInt _) (isInfinite_ofInt hq hq'),
    signBit_ofInt, toRat_ofInt hq hq', toRat_round_shift hs hi' (by omega), div_div_eq_mul_div]
  push_cast
  rfl

/-- It is at most one when the quotient of what was rounded is. -/
theorem ofInt_div_le_one_iff :
    (ofInt q).div (round false (s / 2 ^ i)) ≤ one ↔
      round24 q * 2 ^ i ≤ round24 s := by
  obtain ⟨a, x, ha, hqa⟩ := exists_round24 q
  obtain ⟨b, y, hb, hsb⟩ := exists_round24 s
  have hnum : round24 q * 2 ^ i = a * 2 ^ (x + i) := by
    rw [hqa, Nat.mul_assoc, Nat.pow_add]
  rw [ofInt_div hq hq' hs hs' hi, hnum, hsb]
  exact round_div_le_one_iff_le ha hb (hsb ▸ round24_pos hs)

end quotient

end Hannoy.F32
