import Hannoy.Spaces.Rounding

/-!
# One minus a cosine, halved, in binary32

The last steps of a cosine distance, and how `OrderedFloat` orders what they return.

* `nonneg_one_sub`: one minus a cosine has a clear sign exactly when the cosine is at most one.
* `lt_of_nonneg`: what has a clear sign is ordered before all the rest.
* `one_sub_le_one_sub`, `half_le_half`: the steps are monotone on what has a clear sign.
-/

namespace Hannoy.F32

/-! ## Signs -/

theorem toRat_one : one.toRat = 1 := by
  decide +kernel

theorem nonneg_round_iff {b : Bool} {x : ℚ} : (round b x).Nonneg ↔ b = false := by
  rw [Nonneg, signBit_round, isNaN_round]
  exact and_iff_left rfl

theorem toRat_nonpos {a : F32} (hs : a.signBit = true) : a.toRat ≤ 0 := by
  have := toRat_nonneg (signBit_abs a)
  rw [toRat_eq_abs, if_pos hs]
  exact neg_nonpos.mpr this

theorem toRat_le_one_iff {a : F32} : a.toRat ≤ 1 ↔ a.signBit = true ∨ a ≤ one := by
  cases hs : a.signBit
  · rw [← toRat_one, toRat_le_iff hs (by decide)]
    exact (or_iff_right Bool.false_ne_true).symm
  · exact iff_of_true ((toRat_nonpos hs).trans zero_le_one) (.inl rfl)

theorem not_le_one_of_isInfinite {a : F32} (h : a.isInfinite = true) : ¬ a ≤ one := by
  have hmagnitude : a.magnitude = 0x7f800000 := of_decide_eq_true h
  rw [le_iff, show one.bits.toNat = 0x3f800000 from rfl]
  unfold magnitude at hmagnitude
  omega

/-! ## Quotients -/

/-- A positive number. -/
structure Positive (a : F32) : Prop where
  isNaN : a.isNaN = false
  isInfinite : a.isInfinite = false
  isZero : a.isZero = false
  signBit : a.signBit = false

section div

variable {a b : F32} (hb : b.Positive)

include hb

/-- A quotient has the sign of its numerator. -/
theorem sign_div (ha : a.isNaN = false) :
    (a.div b).isNaN = false ∧ (a.div b).signBit = a.signBit := by
  have hinfinity : infinity.isNaN = false ∧ infinity.signBit = false := by decide
  simp only [div, ha, hb.isNaN, hb.isInfinite, hb.isZero, hb.signBit, Bool.or_self,
    Bool.false_eq_true, if_false, Bool.bne_false]
  split_ifs with h hsign
  · rw [isNaN_neg, signBit_neg, hsign, hinfinity.1, hinfinity.2]
    exact ⟨rfl, rfl⟩
  · rw [Bool.eq_false_of_not_eq_true hsign]
    exact hinfinity
  · exact ⟨isNaN_round .., signBit_round ..⟩

theorem div_eq (ha : a.isNaN = false) (hinf : a.isInfinite = false) :
    a.div b = round a.signBit (a.toRat / b.toRat) := by
  simp only [div, ha, hinf, hb.isNaN, hb.isInfinite, hb.isZero, hb.signBit, Bool.or_self,
    Bool.false_eq_true, if_false, Bool.bne_false]

end div

theorem div_nan (a : F32) : a.div nan = nan := by
  rw [div, show nan.isNaN = true by decide, Bool.or_true]
  rfl

/-! ## One minus the cosine -/

section sub

variable {c : F32} (hnan : c.isNaN = false)

include hnan

theorem one_sub_eq (hinf : c.isInfinite = false) :
    one.sub c = round (1 - c.toRat < 0) (1 - c.toRat) := by
  have hone : one.signBit = false ∧ one.isNaN = false ∧ one.isInfinite = false := by decide
  simp only [sub, add, hone, isNaN_neg, hnan, isInfinite_neg, hinf, toRat_neg, toRat_one,
    Bool.or_self, Bool.false_and, Bool.false_eq_true, if_false, ← sub_eq_add_neg]
  split_ifs with h0
  · rw [h0]
    rfl
  · rfl

theorem one_sub_of_infinite (hinf : c.isInfinite = true) : one.sub c = c.neg := by
  have hone : one.isNaN = false ∧ one.isInfinite = false := by decide
  simp only [sub, add, hone, isNaN_neg, hnan, isInfinite_neg, hinf, Bool.or_self,
    Bool.false_eq_true, if_false, if_true]

/-- One minus the cosine has a clear sign when the cosine is at most one. -/
theorem nonneg_one_sub : (one.sub c).Nonneg ↔ c.signBit = true ∨ c ≤ one := by
  cases hinf : c.isInfinite
  · rw [one_sub_eq hnan hinf, nonneg_round_iff, decide_eq_false_iff_not, not_lt, sub_nonneg,
      toRat_le_one_iff]
  · rw [one_sub_of_infinite hnan hinf, Nonneg, signBit_neg, isNaN_neg, hnan,
      and_iff_left (by rfl), or_iff_left (not_le_one_of_isInfinite hinf), Bool.not_eq_false']

end sub

theorem not_nonneg_one_sub {c : F32} (hnan : c.isNaN = true) : ¬ (one.sub c).Nonneg := by
  simp [sub, add, hnan, Nonneg, show nan.isNaN = true by decide]

/-! ## Halves -/

theorem positive_two : (ofNat 2).Positive := by
  constructor <;> decide +kernel

theorem nonneg_half_iff (a : F32) : (a.div (ofNat 2)).Nonneg ↔ a.Nonneg := by
  cases hnan : a.isNaN
  · obtain ⟨hnan', hsign⟩ := sign_div positive_two hnan
    rw [Nonneg, Nonneg, hnan', hsign, hnan]
  · have hhalf : a.div (ofNat 2) = nan := by
      simp only [div, hnan, Bool.true_or, if_true]
    rw [hhalf, Nonneg, Nonneg, hnan]
    exact iff_of_false (by decide) (fun h => Bool.noConfusion h.2)

/-! ## Order -/

theorem nonneg_iff {a : F32} : a.Nonneg ↔ a.bits.toNat ≤ 0x7f800000 := by
  rw [Nonneg, signBit_eq_false_iff, isNaN, decide_eq_false_iff_not, magnitude]
  omega

/-- `OrderedFloat` puts what has a clear sign before all the rest. -/
theorem lt_of_nonneg {a b : F32} (ha : a.Nonneg) (hb : ¬ b.Nonneg) : a < b := by
  rw [nonneg_iff] at ha hb
  rw [lt_def, UInt32.lt_iff_toNat_lt]
  omega

theorem isInfinite_iff {a : F32} (ha : a.Nonneg) :
    a.isInfinite = true ↔ a.bits.toNat = 0x7f800000 := by
  have hlt := signBit_eq_false_iff.mp ha.1
  rw [isInfinite, decide_eq_true_iff, magnitude, Nat.mod_eq_of_lt hlt]

/-- Halving is monotone. -/
theorem half_le_half {a b : F32} (ha : a.Nonneg) (hb : b.Nonneg) (h : a ≤ b) :
    a.div (ofNat 2) ≤ b.div (ofNat 2) := by
  cases hinf : b.isInfinite
  · have hinf' : a.isInfinite = false := by
      have hbits := nonneg_iff.mp hb
      rw [le_iff] at h
      rw [← Bool.not_eq_true, isInfinite_iff hb] at hinf
      rw [← Bool.not_eq_true, isInfinite_iff ha]
      omega
    have htwo : 0 ≤ (ofNat 2).toRat := toRat_nonneg positive_two.signBit
    rw [div_eq positive_two ha.2 hinf', div_eq positive_two hb.2 hinf, ha.1, hb.1]
    refine round_mono (div_nonneg (toRat_nonneg ha.1) htwo) ?_
    exact div_le_div_of_nonneg_right ((toRat_le_iff ha.1 hb.1).mpr h) htwo
  · have hhalf : b.div (ofNat 2) = infinity := by
      simp only [div, hb.1, hb.2, hinf, positive_two.isNaN, positive_two.isInfinite,
        positive_two.signBit, Bool.or_self, Bool.false_eq_true, if_false, if_true,
        bne_self_eq_false]
    rw [hhalf]
    exact le_iff.mpr (nonneg_iff.mp ((nonneg_half_iff a).mpr ha))

/-- What is subtracted from one is ordered the other way. -/
theorem one_sub_le_one_sub {c d : F32} (hc : c.isNaN = false) (hd : d.Nonneg) (hone : d ≤ one)
    (h : c.signBit = true ∨ c ≤ d) : one.sub d ≤ one.sub c := by
  have hinf : d.isInfinite = false := by
    rw [← Bool.not_eq_true]
    exact fun hinf => not_le_one_of_isInfinite hinf hone
  have hle := (toRat_le_one_iff (a := d)).mpr (.inr hone)
  cases hinf' : c.isInfinite
  · have hcd : c.toRat ≤ d.toRat := by
      cases hs : c.signBit
      · exact (toRat_le_iff hs hd.1).mpr (h.resolve_left (by simp [hs]))
      · exact (toRat_nonpos hs).trans (toRat_nonneg hd.1)
    have hclear : ∀ x : ℚ, x ≤ 1 → decide (1 - x < 0) = false := fun x hx =>
      decide_eq_false (not_lt.mpr (sub_nonneg.mpr hx))
    rw [one_sub_eq hd.2 hinf, one_sub_eq hc hinf', hclear _ hle, hclear _ (hcd.trans hle)]
    exact round_mono (sub_nonneg.mpr hle) (sub_le_sub_left hcd 1)
  · -- only minus infinity is left
    have hs : c.signBit = true := h.resolve_right fun hcd =>
      not_le_one_of_isInfinite hinf' (hcd.trans hone)
    have hclear : c.neg.Nonneg := ⟨by rw [signBit_neg, hs]; rfl, by rw [isNaN_neg, hc]⟩
    have hbits := (isInfinite_iff hclear).mp ((isInfinite_neg c).trans hinf')
    rw [one_sub_of_infinite hc hinf', le_iff, hbits]
    exact nonneg_iff.mp ((nonneg_one_sub hd.2).mpr (.inr hone))

end Hannoy.F32
