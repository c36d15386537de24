import Hannoy.Model.Float
import Mathlib.Tactic.FieldSimp
import Mathlib.Tactic.Ring
import Mathlib.Tactic.Linarith

/-!
# What rounding returns

The value of a rounded quotient of naturals that is not below the least normal number. Its exponent
is the `e` with `d * 2 ^ e ≤ n * 2 ^ 200 < d * 2 ^ (e + 1)`, and its significand is `n / d`, scaled
by it and rounded to an integer.

* `round_div_eq`: the bits of a rounded quotient.
* `toRat_round_div`: its value, when it is finite.
-/

namespace Hannoy.F32

/-! ## Quotients rounded to an integer -/

theorem roundDiv_mul (n d : Nat) {c : Nat} (hc : 0 < c) :
    roundDiv (n * c) (d * c) = roundDiv n d := by
  have hmod : 2 * (n * c % (d * c)) = 2 * (n % d) * c := by
    rw [Nat.mul_mod_mul_right, Nat.mul_assoc]
  simp only [roundDiv, Nat.mul_div_mul_right n d hc, hmod, Nat.mul_lt_mul_right hc,
    Nat.mul_left_inj hc.ne']

theorem roundDiv_one (n : Nat) : roundDiv n 1 = n := by
  simp [roundDiv, Nat.mod_one]

theorem div_le_roundDiv (n d : Nat) : n / d ≤ roundDiv n d := by
  unfold roundDiv
  dsimp only
  split_ifs <;> omega

theorem le_roundDiv {n d k : Nat} (hd : 0 < d) (h : k * d ≤ n) : k ≤ roundDiv n d :=
  ((Nat.le_div_iff_mul_le hd).mpr h).trans (div_le_roundDiv n d)

theorem roundDiv_le {n d k : Nat} (hd : 0 < d) (h : n < k * d) : roundDiv n d ≤ k := by
  have hlt : n / d < k := (Nat.div_lt_iff_lt_mul hd).mpr h
  unfold roundDiv
  dsimp only
  split_ifs <;> omega

/-! ## The exponent and the significand -/

/-- The exponent of `n / d`, with 200 added; below the least normal number it is 74. -/
structure Exponent (e n d : Nat) : Prop where
  pos : 0 < d
  least : 74 ≤ e
  lower : e = 74 ∨ d * 2 ^ e ≤ n * 2 ^ 200
  upper : n * 2 ^ 200 < d * 2 ^ (e + 1)

/-- `n / d` scaled to 24 bits and rounded. -/
def significand (e n d : Nat) : Nat := roundDiv (n * 2 ^ (223 - e)) (d * 2 ^ (e - 223))

namespace Exponent

variable {e n d : Nat}

/-- A common factor does not matter. -/
theorem of_mul {c : Nat} (hc : 0 < c) (h : Exponent e (n * c) (d * c)) : Exponent e n d where
  pos := Nat.pos_of_mul_pos_right h.pos
  least := h.least
  lower := by
    refine h.lower.imp_right fun hlower => ?_
    rw [Nat.mul_right_comm, Nat.mul_right_comm n] at hlower
    exact Nat.le_of_mul_le_mul_right hlower hc
  upper := by
    have hupper := h.upper
    rw [Nat.mul_right_comm, Nat.mul_right_comm d] at hupper
    exact Nat.lt_of_mul_lt_mul_right hupper

/-- A power of two in the denominator shifts the exponent. -/
theorem shift {i : Nat} (he : 74 ≤ e) (h : Exponent (e + i) n d) : Exponent e n (d * 2 ^ i) where
  pos := Nat.mul_pos h.pos (Nat.two_pow_pos i)
  least := he
  lower := by
    refine h.lower.imp (fun hleast => by omega) fun hlower => ?_
    rwa [Nat.mul_assoc, ← Nat.pow_add, Nat.add_comm i]
  upper := by
    rw [Nat.mul_assoc, ← Nat.pow_add, Nat.add_comm i, Nat.add_right_comm]
    exact h.upper

theorem ofNat {m : Nat} (h : 0 < m) : Exponent (200 + m.log2) m 1 where
  pos := Nat.one_pos
  least := by omega
  lower := by
    refine .inr ?_
    rw [Nat.one_mul, Nat.add_comm, Nat.pow_add]
    exact Nat.mul_le_mul_right _ (Nat.log2_self_le h.ne')
  upper := by
    rw [Nat.one_mul, Nat.add_assoc, Nat.add_comm, Nat.pow_add]
    exact Nat.mul_lt_mul_of_pos_right Nat.lt_log2_self (Nat.two_pow_pos 200)

theorem exists_exponent (n : Nat) {d : Nat} (hd : 0 < d) : ∃ e, Exponent e n d := by
  by_cases hsmall : n * 2 ^ 200 < d * 2 ^ 75
  · exact ⟨74, hd, le_rfl, .inl rfl, hsmall⟩
  · have hquotient : 2 ^ 75 ≤ n * 2 ^ 200 / d := by
      rw [Nat.le_div_iff_mul_le hd, Nat.mul_comm]
      exact Nat.le_of_not_lt hsmall
    have hne : n * 2 ^ 200 / d ≠ 0 := (Nat.lt_of_lt_of_le (Nat.two_pow_pos 75) hquotient).ne'
    refine ⟨(n * 2 ^ 200 / d).log2, hd, ?_, .inr ?_, ?_⟩
    · exact (Nat.le_succ 74).trans ((Nat.le_log2 hne).mpr hquotient)
    · rw [Nat.mul_comm, ← Nat.le_div_iff_mul_le hd]
      exact Nat.log2_self_le hne
    · rw [Nat.mul_comm d, ← Nat.div_lt_iff_lt_mul hd]
      exact Nat.lt_log2_self

/-- The powers by which the significand scales. -/
theorem scale (e : Nat) : 2 ^ (223 - e) * 2 ^ e = 2 ^ 23 * 2 ^ 200 * 2 ^ (e - 223) := by
  rw [← Nat.pow_add, ← Nat.pow_add, ← Nat.pow_add]
  exact congrArg (2 ^ ·) (by omega)

/-- The significand of a normal number has 24 bits, or is the power of two behind them. -/
theorem le_significand (h : Exponent e n d) (he : e ≠ 74) : 2 ^ 23 ≤ significand e n d := by
  refine le_roundDiv (Nat.mul_pos h.pos (Nat.two_pow_pos _)) ?_
  have hlower := Nat.mul_le_mul_right (2 ^ (223 - e)) (h.lower.resolve_left he)
  have hscale := scale e
  refine @Nat.le_of_mul_le_mul_right _ _ (2 ^ 200) ?_ (Nat.two_pow_pos 200)
  calc 2 ^ 23 * (d * 2 ^ (e - 223)) * 2 ^ 200
      = d * (2 ^ 23 * 2 ^ 200 * 2 ^ (e - 223)) := by ring
    _ = d * 2 ^ e * 2 ^ (223 - e) := by rw [← hscale]; ring
    _ ≤ n * 2 ^ 200 * 2 ^ (223 - e) := hlower
    _ = n * 2 ^ (223 - e) * 2 ^ 200 := Nat.mul_right_comm ..

theorem significand_le (h : Exponent e n d) : significand e n d ≤ 2 ^ 24 := by
  refine roundDiv_le (Nat.mul_pos h.pos (Nat.two_pow_pos _)) ?_
  have hupper := Nat.mul_lt_mul_of_pos_right h.upper (Nat.two_pow_pos (223 - e))
  have hscale := scale e
  refine @Nat.lt_of_mul_lt_mul_right (2 ^ 200) _ _ ?_
  calc n * 2 ^ (223 - e) * 2 ^ 200
      = n * 2 ^ 200 * 2 ^ (223 - e) := Nat.mul_right_comm ..
    _ < d * 2 ^ (e + 1) * 2 ^ (223 - e) := hupper
    _ = 2 * d * (2 ^ (223 - e) * 2 ^ e) := by rw [Nat.pow_succ]; ring
    _ = 2 ^ 24 * (d * 2 ^ (e - 223)) * 2 ^ 200 := by rw [hscale]; ring

/-- The logarithms guess the exponent, or the one behind it. -/
theorem guess (h : Exponent e n d) (hn : 0 < n) :
    max (if n * 2 ^ 200 < d * 2 ^ (200 + n.log2 - d.log2) then 200 + n.log2 - d.log2 - 1
      else 200 + n.log2 - d.log2) 74 = e := by
  have hleast := h.least
  have hlog := Nat.log2_self_le hn.ne'
  have hlog' := @Nat.lt_log2_self n
  have hlogd := Nat.log2_self_le h.pos.ne'
  have hlogd' := @Nat.lt_log2_self d
  have hupper := h.upper
  generalize n.log2 = ln at *
  generalize d.log2 = ld at *
  -- the guess is at most one above
  have hge : ln + 200 < ld + e + 2 := by
    refine (Nat.pow_lt_pow_iff_right (by decide : 1 < 2)).mp ?_
    calc 2 ^ (ln + 200) = 2 ^ ln * 2 ^ 200 := Nat.pow_add ..
      _ ≤ n * 2 ^ 200 := Nat.mul_le_mul_right _ hlog
      _ < d * 2 ^ (e + 1) := hupper
      _ ≤ 2 ^ (ld + 1) * 2 ^ (e + 1) := Nat.mul_le_mul_right _ hlogd'.le
      _ = 2 ^ (ld + e + 2) := by rw [← Nat.pow_add]; exact congrArg (2 ^ ·) (by omega)
  have habove : 200 + ln - ld = e + 1 → n * 2 ^ 200 < d * 2 ^ (200 + ln - ld) := fun hguess =>
    hguess ▸ hupper
  rcases h.lower with rfl | hlower
  · split_ifs with hlt
    · omega
    · have : 200 + ln - ld ≠ 74 + 1 := fun hguess => hlt (habove hguess)
      omega
  · -- and not below
    have hle : ld + e < ln + 201 := by
      refine (Nat.pow_lt_pow_iff_right (by decide : 1 < 2)).mp ?_
      calc 2 ^ (ld + e) = 2 ^ ld * 2 ^ e := Nat.pow_add ..
        _ ≤ d * 2 ^ e := Nat.mul_le_mul_right _ hlogd
        _ ≤ n * 2 ^ 200 := hlower
        _ < 2 ^ (ln + 1) * 2 ^ 200 := Nat.mul_lt_mul_of_pos_right hlog' (Nat.two_pow_pos 200)
        _ = 2 ^ (ln + 201) := by rw [← Nat.pow_add, Nat.add_assoc]
    rcases (by omega : 200 + ln - ld = e ∨ 200 + ln - ld = e + 1) with hguess | hguess
    · rw [hguess, if_neg (Nat.not_lt.mpr hlower)]
      exact Nat.max_eq_left hleast
    · rw [if_pos (habove hguess), hguess]
      exact Nat.max_eq_left hleast

end Exponent

/-- A power of two in the denominator shifts the exponent. -/
theorem significand_shift (e n d i : Nat) :
    significand e n (d * 2 ^ i) = significand (e + i) n d := by
  have hnum : 2 ^ (223 - e) = 2 ^ (223 - (e + i)) * 2 ^ (223 - e - (223 - (e + i))) := by
    rw [← Nat.pow_add]
    exact congrArg (2 ^ ·) (by omega)
  have hden : 2 ^ i * 2 ^ (e - 223) = 2 ^ (e + i - 223) * 2 ^ (223 - e - (223 - (e + i))) := by
    rw [← Nat.pow_add, ← Nat.pow_add]
    exact congrArg (2 ^ ·) (by omega)
  rw [significand, significand, hnum, Nat.mul_assoc d, hden, ← Nat.mul_assoc, ← Nat.mul_assoc,
    roundDiv_mul _ _ (Nat.two_pow_pos _)]

theorem significand_mul (e n d : Nat) {c : Nat} (hc : 0 < c) :
    significand e (n * c) (d * c) = significand e n d := by
  rw [significand, significand, Nat.mul_right_comm, Nat.mul_right_comm d, roundDiv_mul _ _ hc]

/-! ## The bits of a rounded quotient -/

/-- The bits of a normal magnitude, unless it overflows. -/
def pack (e q : Nat) : Nat := (e - 74) * 2 ^ 23 + q

theorem toNat_capped (b : Nat) :
    (if b < 0x7f800000 then b.toUInt32 else 0x7f800000 : UInt32).toNat = min b 0x7f800000 := by
  split_ifs with hlt
  · rw [Nat.min_eq_left hlt.le]
    exact UInt32.toNat_ofNat_of_lt' (hlt.trans (by decide))
  · rw [Nat.min_eq_right (Nat.le_of_not_lt hlt)]
    rfl

/-- **The bits of a rounded magnitude.** -/
theorem toNat_roundMagnitude {e n d : Nat} (h : Exponent e n d) :
    (roundMagnitude n d).toNat = min (pack e (significand e n d)) 0x7f800000 := by
  have hq : (if e < 223 then roundDiv (n * 2 ^ (223 - e)) d
      else roundDiv n (d * 2 ^ (e - 223))) = significand e n d := by
    unfold significand
    split_ifs with hlt
    · rw [Nat.sub_eq_zero_of_le hlt.le, Nat.pow_zero, Nat.mul_one]
    · rw [Nat.sub_eq_zero_of_le (Nat.le_of_not_lt hlt), Nat.pow_zero, Nat.mul_one]
  unfold roundMagnitude
  rcases Nat.eq_zero_or_pos n with rfl | hn
  · -- zero is its own significand
    have hleast : e = 74 := h.lower.resolve_right fun hlower => by
      have := Nat.mul_pos h.pos (Nat.two_pow_pos e)
      omega
    have hzero : significand 74 0 d = 0 := by simp [significand, roundDiv]
    rw [if_pos rfl, hleast, hzero]
    rfl
  · rw [if_neg hn.ne']
    dsimp only
    rw [h.guess hn, hq, toNat_capped, pack]

/-- A quotient of naturals, in lowest terms. -/
theorem exists_lowest_terms (n : Nat) {d : Nat} (hd : 0 < d) :
    ∃ c, 0 < c ∧ n = (n / d : ℚ).num.natAbs * c ∧ d = (n / d : ℚ).den * c := by
  obtain ⟨c, hn, hd'⟩ := Rat.exists_eq_mul_div_num_and_eq_mul_div_den (n : ℤ)
    (Int.natCast_ne_zero.mpr hd.ne')
  simp only [Int.cast_natCast] at hn hd'
  have hden : d = (n / d : ℚ).den * c.natAbs := by
    have := congrArg Int.natAbs hd'
    rwa [Int.natAbs_mul, Int.natAbs_natCast, Int.natAbs_natCast, Nat.mul_comm] at this
  refine ⟨c.natAbs, Nat.pos_of_ne_zero fun h0 => ?_, ?_, hden⟩
  · rw [h0, Nat.mul_zero] at hden
    omega
  · have := congrArg Int.natAbs hn
    rwa [Int.natAbs_mul, Int.natAbs_natCast, Nat.mul_comm] at this

/-- **The bits of a rounded quotient.** -/
theorem round_div_eq {e n d : Nat} (h : Exponent e n d) :
    (round false (n / d)).bits.toNat = min (pack e (significand e n d)) 0x7f800000 := by
  obtain ⟨c, hc, hn, hd⟩ := exists_lowest_terms n h.pos
  simp only [round, Bool.false_eq_true, if_false]
  generalize (n / d : ℚ).num.natAbs = n' at *
  generalize (n / d : ℚ).den = d' at *
  subst hn hd
  rw [significand_mul _ _ _ hc, toNat_roundMagnitude (h.of_mul hc)]

/-! ## The value of a rounded quotient -/

theorem toRat_normal {a : F32} (hs : a.signBit = false) (he : a.exponent ≠ 0) :
    a.toRat = (2 ^ 23 + a.fraction) * 2 ^ a.exponent / 2 ^ 150 := by
  unfold toRat
  rw [if_neg he, hs, if_neg Bool.false_ne_true]
  have hpos : ∀ i : Nat, (2 : ℚ) ^ i ≠ 0 := fun i => pow_ne_zero i two_ne_zero
  split_ifs with hlt
  · rw [div_eq_div_iff (hpos _) (hpos _), mul_assoc, ← pow_add, Nat.add_sub_cancel' hlt.le]
  · rw [eq_div_iff (hpos _), mul_assoc, ← pow_add, Nat.sub_add_cancel (Nat.le_of_not_lt hlt)]

theorem signBit_eq_false_iff {a : F32} : a.signBit = false ↔ a.bits.toNat < 2 ^ 31 := by
  rw [signBit, decide_eq_false_iff_not, UInt32.le_iff_toNat_le, Nat.not_le]
  rfl

/-- The value of the pattern `b`, in units of `2 ^ -150`. -/
def units (b : Nat) : Nat :=
  if b / 2 ^ 23 = 0 then 2 * b else (2 ^ 23 + b % 2 ^ 23) * 2 ^ (b / 2 ^ 23)

theorem strictMono_units : StrictMono units := by
  refine strictMono_nat_of_lt_succ fun b => ?_
  have hstep : (b + 1) / 2 ^ 23 = b / 2 ^ 23 ∧ (b + 1) % 2 ^ 23 = b % 2 ^ 23 + 1 ∨
      (b + 1) / 2 ^ 23 = b / 2 ^ 23 + 1 ∧ (b + 1) % 2 ^ 23 = 0 ∧ b % 2 ^ 23 = 2 ^ 23 - 1 := by
    omega
  have hdecomp := Nat.div_add_mod b (2 ^ 23)
  unfold units
  obtain ⟨he, hf⟩ | ⟨he, hf, hf'⟩ := hstep
  · rw [he, hf]
    split_ifs with h0
    · omega
    · exact Nat.mul_lt_mul_of_pos_right (by omega) (Nat.two_pow_pos _)
  · rw [he, hf, hf', if_neg (Nat.succ_ne_zero _)]
    split_ifs with h0
    · rw [h0]
      omega
    · have hpow := Nat.two_pow_pos (b / 2 ^ 23)
      rw [pow_succ 2 (b / 2 ^ 23)]
      generalize 2 ^ (b / 2 ^ 23) = p at *
      omega

theorem toRat_eq_units {a : F32} (hs : a.signBit = false) :
    a.toRat = units a.bits.toNat / 2 ^ 150 := by
  have hexponent : a.exponent = a.bits.toNat / 2 ^ 23 := by
    have := signBit_eq_false_iff.mp hs
    unfold exponent
    omega
  unfold units
  rw [← hexponent]
  split_ifs with h0
  · have hfraction : a.fraction = a.bits.toNat := by
      unfold fraction
      omega
    simp only [toRat, h0, hs, if_true, Bool.false_eq_true, if_false, hfraction]
    rw [div_eq_div_iff (pow_ne_zero _ two_ne_zero) (pow_ne_zero _ two_ne_zero)]
    push_cast
    ring
  · rw [toRat_normal hs h0, fraction]
    push_cast
    rfl

theorem le_iff {a b : F32} : a ≤ b ↔ a.bits.toNat ≤ b.bits.toNat := UInt32.le_iff_toNat_le

/-- Patterns with a clear sign are ordered as their values. -/
theorem toRat_le_iff {a b : F32} (ha : a.signBit = false) (hb : b.signBit = false) :
    a.toRat ≤ b.toRat ↔ a ≤ b := by
  rw [toRat_eq_units ha, toRat_eq_units hb, div_le_div_iff_of_pos_right (by positivity),
    Nat.cast_le, strictMono_units.le_iff_le, le_iff]

theorem toRat_nonneg {a : F32} (hs : a.signBit = false) : 0 ≤ a.toRat := by
  rw [toRat_eq_units hs]
  exact div_nonneg (Nat.cast_nonneg _) (pow_nonneg zero_le_two _)

/-- The value of a pattern, from its exponent and its significand. -/
theorem units_pack {e q : Nat} (he : 74 ≤ e) (hq : e = 74 ∨ 2 ^ 23 ≤ q) (hq' : q ≤ 2 ^ 24) :
    units (pack e q) = q * 2 ^ (e - 73) := by
  have hdecomp : q < 2 ^ 23 ∧ e = 74 ∧ pack e q = q ∨
      (2 ^ 23 ≤ q ∧ pack e q / 2 ^ 23 = e - 73 ∧ pack e q % 2 ^ 23 = q - 2 ^ 23) ∨
      q = 2 ^ 24 ∧ pack e q / 2 ^ 23 = e - 73 + 1 ∧ pack e q % 2 ^ 23 = 0 := by
    unfold pack
    omega
  unfold units
  obtain ⟨hlt, rfl, hpack⟩ | ⟨hle, hexponent, hfraction⟩ | ⟨rfl, hexponent, hfraction⟩ := hdecomp
  · rw [hpack, if_pos (Nat.div_eq_of_lt hlt), Nat.mul_comm]
    rfl
  · rw [hexponent, hfraction, if_neg (by omega), Nat.add_sub_cancel' hle]
  · rw [hexponent, hfraction, if_neg (Nat.succ_ne_zero _), Nat.add_zero, pow_succ 2 (e - 73),
      ← Nat.mul_assoc, Nat.mul_right_comm]
    rfl

theorem pack_lt {e q : Nat} (he : e ≤ 326) (hq : q ≤ 2 ^ 24) : pack e q < 0x7f800000 := by
  unfold pack
  omega

section finite

variable {e n d : Nat} (h : Exponent e n d) (he : e ≤ 326)

include h he

theorem bits_round_div : (round false (n / d)).bits.toNat = pack e (significand e n d) := by
  rw [round_div_eq h, Nat.min_eq_left (pack_lt he h.significand_le).le]

/-- **The value of a rounded quotient** that does not overflow. -/
theorem toRat_round_div : (round false (n / d)).toRat = significand e n d * 2 ^ e / 2 ^ 223 := by
  have hlt := pack_lt he h.significand_le
  have hbits := bits_round_div h he
  obtain ⟨i, hi⟩ := Nat.exists_eq_add_of_le ((Nat.le_succ 73).trans h.least)
  rw [toRat_eq_units (signBit_eq_false_iff.mpr (by omega)), hbits,
    units_pack h.least (Classical.or_iff_not_imp_left.mpr h.le_significand) h.significand_le, hi,
    Nat.add_sub_cancel_left, div_eq_div_iff (pow_ne_zero _ two_ne_zero) (pow_ne_zero _ two_ne_zero)]
  push_cast
  ring

theorem isInfinite_round_div : (round false (n / d)).isInfinite = false := by
  have hlt := pack_lt he h.significand_le
  rw [isInfinite, decide_eq_false_iff_not, magnitude, bits_round_div h he]
  omega

end finite

theorem isZero_eq_false {a : F32} (h : a.toRat ≠ 0) : a.isZero = false := by
  rw [isZero, decide_eq_false_iff_not]
  refine fun h0 => h ?_
  simp [toRat, exponent_eq, fraction_eq, h0]

/-! ## Signs -/

theorem toNat_roundMagnitude_le (n d : Nat) : (roundMagnitude n d).toNat ≤ 0x7f800000 := by
  unfold roundMagnitude
  by_cases h0 : n = 0
  · rw [if_pos h0]
    decide
  · rw [if_neg h0]
    exact (toNat_capped _).trans_le (Nat.min_le_right ..)

theorem round_bits (b : Bool) (x : ℚ) : ∃ m ≤ 0x7f800000,
    (round b x).bits.toNat = if b then 2 ^ 31 + m else m := by
  refine ⟨_, toNat_roundMagnitude_le x.num.natAbs x.den, ?_⟩
  have hle := toNat_roundMagnitude_le x.num.natAbs x.den
  cases b
  · simp only [round, Bool.false_eq_true, if_false]
  · simp only [round, if_true]
    rw [UInt32.toNat_add, show (0x80000000 : UInt32).toNat = 2 ^ 31 from rfl]
    exact Nat.mod_eq_of_lt (by omega)

@[simp] theorem signBit_round (b : Bool) (x : ℚ) : (round b x).signBit = b := by
  obtain ⟨m, hm, hbits⟩ := round_bits b x
  cases b
  · rw [signBit_eq_false_iff, hbits]
    simp only [Bool.false_eq_true, if_false]
    omega
  · rw [← Bool.not_eq_false, signBit_eq_false_iff, hbits]
    simp

@[simp] theorem isNaN_round (b : Bool) (x : ℚ) : (round b x).isNaN = false := by
  obtain ⟨m, hm, hbits⟩ := round_bits b x
  rw [isNaN, magnitude, hbits, decide_eq_false_iff_not, Nat.not_lt]
  cases b
  · simp only [Bool.false_eq_true, if_false]
    omega
  · simp only [if_true]
    omega

/-! ## Order -/

theorem roundDiv_le_iff {n d k : Nat} (hd : 0 < d) (hk : k % 2 = 0) :
    roundDiv n d ≤ k ↔ 2 * n ≤ (2 * k + 1) * d := by
  have hsplit := Nat.div_add_mod n d
  have hlt := Nat.mod_lt n hd
  unfold roundDiv
  dsimp only
  generalize n / d = q at *
  generalize n % d = r at *
  subst hsplit
  rcases Nat.lt_trichotomy q k with hq | rfl | hq
  · -- below: the quotient is at most `k` even when it is rounded up
    have := Nat.mul_le_mul_left d hq
    refine iff_of_true (by split_ifs <;> omega) ?_
    nlinarith
  · -- at `k`, which is even, a tie is rounded down
    have : 2 * (d * q + r) ≤ (2 * q + 1) * d ↔ 2 * r ≤ d := by
      constructor <;> intro h <;> nlinarith
    rw [this]
    split_ifs <;> omega
  · have := Nat.mul_le_mul_left d hq
    refine iff_of_false (by split_ifs <;> omega) ?_
    nlinarith

/-- A rounded quotient is at most one when the quotient is, by half a unit in the last place. -/
theorem round_div_le_one_iff {n d : Nat} (hd : 0 < d) :
    round false (n / d) ≤ one ↔ n * 2 ^ 24 ≤ (2 ^ 24 + 1) * d := by
  obtain ⟨e, h⟩ := Exponent.exists_exponent n hd
  have hle := h.significand_le
  have hleast := h.least
  rw [le_iff, round_div_eq h, show one.bits.toNat = 127 * 2 ^ 23 from rfl]
  unfold pack
  rcases Nat.lt_trichotomy e 200 with hlt | rfl | hlt
  · have hpow : 2 ^ (e + 1) ≤ 2 ^ 200 := Nat.pow_le_pow_right (by decide) hlt
    have := h.upper.trans_le (Nat.mul_le_mul_left d hpow)
    refine iff_of_true (by omega) (by omega)
  · have hcap : min ((200 - 74) * 2 ^ 23 + significand 200 n d) 0x7f800000 ≤ 127 * 2 ^ 23 ↔
        significand 200 n d ≤ 2 ^ 23 := by omega
    rw [hcap, significand, show 2 ^ (200 - 223) = 1 from rfl, Nat.mul_one,
      roundDiv_le_iff hd (by decide)]
    omega
  · have hne : e ≠ 74 := by omega
    have hge := h.le_significand hne
    have hpow : 2 ^ 201 ≤ 2 ^ e := Nat.pow_le_pow_right (by decide) hlt
    have := (Nat.mul_le_mul_left d hpow).trans (h.lower.resolve_left hne)
    refine iff_of_false (by omega) (by omega)

theorem roundDiv_mono_left {n n' d : Nat} (h : n ≤ n') : roundDiv n d ≤ roundDiv n' d := by
  have hdiv := Nat.div_le_div_right (c := d) h
  rcases Nat.lt_or_eq_of_le hdiv with hlt | heq
  · have hle : roundDiv n d ≤ n / d + 1 := by
      unfold roundDiv
      dsimp only
      split_ifs <;> omega
    exact (hle.trans hlt).trans (div_le_roundDiv n' d)
  · -- one quotient, so the remainders are ordered
    have hsplit := Nat.div_add_mod n d
    have hsplit' := Nat.div_add_mod n' d
    rw [heq] at hsplit
    unfold roundDiv
    dsimp only
    rw [heq]
    split_ifs <;> omega

theorem roundDiv_mono {n d n' d' : Nat} (hd : 0 < d) (hd' : 0 < d') (h : n * d' ≤ n' * d) :
    roundDiv n d ≤ roundDiv n' d' := by
  rw [← roundDiv_mul n d hd', ← roundDiv_mul n' d' hd, Nat.mul_comm d']
  exact roundDiv_mono_left h

/-- Rounding a quotient is monotone. -/
theorem roundMagnitude_mono {n d n' d' : Nat} (hd : 0 < d) (hd' : 0 < d') (h : n * d' ≤ n' * d) :
    (roundMagnitude n d).toNat ≤ (roundMagnitude n' d').toNat := by
  obtain ⟨e, he⟩ := Exponent.exists_exponent n hd
  obtain ⟨e', he'⟩ := Exponent.exists_exponent n' hd'
  rw [toNat_roundMagnitude he, toNat_roundMagnitude he']
  refine min_le_min_right _ ?_
  have hexponents : e ≤ e' := by
    rcases he.lower with rfl | hlower
    · exact he'.least
    · refine Nat.le_of_lt_succ ((Nat.pow_lt_pow_iff_right (by decide : 1 < 2)).mp ?_)
      refine @Nat.lt_of_mul_lt_mul_right (d * d') _ _ ?_
      calc 2 ^ e * (d * d') = d * 2 ^ e * d' := by ring
        _ ≤ n * 2 ^ 200 * d' := Nat.mul_le_mul_right _ hlower
        _ = n * d' * 2 ^ 200 := Nat.mul_right_comm ..
        _ ≤ n' * d * 2 ^ 200 := Nat.mul_le_mul_right _ h
        _ = n' * 2 ^ 200 * d := Nat.mul_right_comm ..
        _ < d' * 2 ^ (e' + 1) * d := Nat.mul_lt_mul_of_pos_right he'.upper hd
        _ = 2 ^ (e' + 1) * (d * d') := by ring
  have hleast := he.least
  have hle := he.significand_le
  unfold pack
  rcases Nat.lt_or_eq_of_le hexponents with hlt | rfl
  · have := he'.le_significand (by omega)
    omega
  · refine Nat.add_le_add_left (roundDiv_mono ?_ ?_ ?_) _
    · exact Nat.mul_pos hd (Nat.two_pow_pos _)
    · exact Nat.mul_pos hd' (Nat.two_pow_pos _)
    · calc n * 2 ^ (223 - e) * (d' * 2 ^ (e - 223))
          = n * d' * (2 ^ (223 - e) * 2 ^ (e - 223)) := by ring
        _ ≤ n' * d * (2 ^ (223 - e) * 2 ^ (e - 223)) := Nat.mul_le_mul_right _ h
        _ = n' * 2 ^ (223 - e) * (d * 2 ^ (e - 223)) := by ring

/-- **Rounding is monotone.** -/
theorem round_mono {x y : ℚ} (hx : 0 ≤ x) (h : x ≤ y) :
    round false x ≤ round false y := by
  simp only [le_iff, round, Bool.false_eq_true, if_false]
  refine roundMagnitude_mono x.den_pos y.den_pos ?_
  have hy := hx.trans h
  have hle := (Rat.le_iff x y).mp h
  have hxnum := Rat.num_nonneg.mpr hx
  have hynum := Rat.num_nonneg.mpr hy
  zify
  rwa [abs_of_nonneg hxnum, abs_of_nonneg hynum]

end Hannoy.F32
