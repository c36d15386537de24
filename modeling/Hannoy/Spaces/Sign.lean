import Hannoy.Codec.Distances
import Hannoy.Spaces.BitCounts
import Hannoy.Spaces.Roots

/-!
# The sign of the quantized cosine distance (`binary_quantized_cosine.rs`)

The distance is `(1 - cos) / 2`, where `cos` is the dot product divided by the product of the norms,
each rounded. The plain cosine is clamped to one (`cosine.rs:46-47`) and this one is not: where the
rounded norm is too small, the distance of equal vectors is below zero, and `OrderedFloat`, which
compares bit patterns, orders it behind all others.

* `distance_eq`: the distance depends on the dimension and on the number of bits that differ.
* `nonneg_distance_iff`: when its sign is clear, and when equal vectors come first.
* `signClear_of_differ`: below `2 ^ 24` bits only equal vectors are at fault.
-/

namespace Hannoy.Spaces

open Hannoy.Library

/-! ## The distance of two vectors -/

/-- The dot product of two vectors of `n` bits, `k` of which differ, as an `i32`. -/
def signedDot (n k : Nat) : Int := Int.bmod (n - 2 * k) (2 ^ 32)

/-- The distance of two vectors of `n` bits, `k` of which differ. -/
def cosineDistance (n k : Nat) : F32 :=
  let norm := (F32.ofInt (signedDot n 0)).sqrt
  let norms := norm.mul norm
  if norms.isZero then F32.zero
  else (F32.one.sub ((F32.ofInt (signedDot n k)).div norms)).div (F32.ofNat 2)

/-- A vector with its header. -/
def quantizedItem (t : Target) (v : List UInt8) : Item :=
  ⟨(binaryQuantizedCosine t).newHeader v, v⟩

theorem signedDot_bounds (n k : Nat) : -2 ^ 31 ≤ signedDot n k ∧ signedDot n k < 2 ^ 31 :=
  ⟨Int.le_bmod (by decide), Int.bmod_lt (by decide)⟩

theorem signedDot_of_lt {n k : Nat} (hn : n < 2 ^ 31) (hk : k ≤ n) : signedDot n k = n - 2 * k :=
  Int.bmod_eq_of_le (by omega) (by omega)

theorem toInt_dotProduct_eq {u v : List UInt8} (h : u.length = v.length) :
    (dotProductBinaryQuantized Int32.ofNat u v).toInt =
      signedDot (8 * u.length) (differing (u.flatMap byteBits) (v.flatMap byteBits)) := by
  rw [dotProduct_eq signedCast_i32 h, Int32.toInt_ofInt, signedDot]
  push_cast
  rfl

theorem normNoHeader_f32 (u : List UInt8) :
    BinaryQuantizedCosine.normNoHeader f32Numbers u =
      (F32.ofInt (signedDot (8 * u.length) 0)).sqrt := by
  show (F32.ofInt (dotProductBinaryQuantized Int32.ofNat u u).toInt).sqrt = _
  rw [toInt_dotProduct_eq rfl, differing_self]

theorem distance_f32 (pn qn : F32) (p q : List UInt8) :
    BinaryQuantizedCosine.distance f32Numbers pn qn p q =
      if (pn.mul qn).isZero then F32.zero
      else (F32.one.sub ((F32.ofInt (dotProductBinaryQuantized Int32.ofNat p q).toInt).div
        (pn.mul qn))).div (F32.ofNat 2) := by
  show (if !(pn.mul qn).isZero then _ else _) = _
  cases (pn.mul qn).isZero <;> rfl

theorem readHeader_toNeBytes (a : F32) : readHeader a.toNeBytes = a := by
  have := readF32s_flatMap [a]
  rw [List.flatMap_cons, List.flatMap_nil, List.append_nil] at this
  rw [readHeader, this]
  rfl

/-- **The distance** depends on the dimension and on the number of bits that differ. -/
theorem distance_eq (t : Target) {n : Nat} {u v : List UInt8} (hu : 8 * u.length = n)
    (hv : 8 * v.length = n) :
    (binaryQuantizedCosine t).distance (quantizedItem t u) (quantizedItem t v) =
      cosineDistance n (differing (u.flatMap byteBits) (v.flatMap byteBits)) := by
  have hdot := toInt_dotProduct_eq (by omega : u.length = v.length)
  show BinaryQuantizedCosine.distance f32Numbers
    (readHeader (BinaryQuantizedCosine.normNoHeader f32Numbers u).toNeBytes)
    (readHeader (BinaryQuantizedCosine.normNoHeader f32Numbers v).toNeBytes) u v = _
  rw [readHeader_toNeBytes, readHeader_toNeBytes, normNoHeader_f32, normNoHeader_f32, distance_f32,
    hdot, hu, hv, cosineDistance]

/-! ## The norms -/

/-- A negative dimension has no norm. -/
theorem sqrt_ofInt_of_neg {r : Int} (h : r < 0) (h' : -2 ^ 31 ≤ r) :
    (F32.ofInt r).sqrt = F32.nan := by
  obtain ⟨m, hm⟩ := Int.eq_ofNat_of_zero_le (by omega : 0 ≤ -r)
  have hsign : (F32.ofInt r).signBit = true := by
    rw [F32.ofInt, F32.signBit_round, decide_eq_true h]
  have hmagnitude : (F32.ofInt r).magnitude = (F32.ofInt m).magnitude := by
    rw [F32.ofInt, F32.ofInt_natCast, F32.magnitude_round _ false]
    congr 2
    rw [← Int.cast_neg, hm]
    rfl
  have hlog : m.log2 ≤ 31 := F32.log2_le (by omega) (by omega)
  have hzero : (F32.ofInt r).isZero = false := by
    rw [F32.isZero, hmagnitude, ← F32.isZero]
    refine F32.isZero_eq_false ?_
    rw [F32.toRat_ofInt (by omega) (by omega)]
    exact_mod_cast (F32.round24_pos (by omega)).ne'
  rw [F32.sqrt, hzero, hsign]
  simp

section norms

variable {m : Nat} (hm : 0 < m) (hlt : m < 2 ^ 31)

include hm hlt

theorem log2_round24_le : (F32.round24 m).log2 ≤ 31 := by
  have hlog : m.log2 < 31 := F32.log2_lt hm hlt
  refine F32.log2_le (F32.round24_pos hm) ((F32.round24_le m).trans ?_)
  exact Nat.pow_le_pow_right (by decide) hlog

/-- **The norm of a positive dimension.** -/
theorem sqrt_ofInt : (F32.ofInt m).sqrt =
    F32.round false (F32.root24 (F32.round24 m) / 2 ^ F32.rootScale (F32.round24 m)) := by
  have hlog := log2_round24_le hm hlt
  have hlog' := F32.log2_lt hm hlt
  exact F32.sqrt_eq (F32.round24_pos hm) (by omega) (F32.signBit_ofInt m)
    (F32.toRat_ofInt hm (by omega))

/-- The product of the norms: the root, squared and rounded again. -/
theorem exists_norms : ∃ s i, s = F32.root24 (F32.round24 m) ∧
    i = 2 * F32.rootScale (F32.round24 m) ∧ i ≤ 46 ∧ 0 < s * s ∧ (s * s).log2 ≤ 48 ∧
    (F32.ofInt m).sqrt.mul (F32.ofInt m).sqrt = F32.round false ((s * s : ℕ) / 2 ^ i) := by
  have hlog := log2_round24_le hm hlt
  obtain ⟨hroot, hroot'⟩ := F32.root24_bounds (F32.round24_pos hm) (by omega)
  have hscale : F32.rootScale (F32.round24 m) ≤ 23 := Nat.sub_le ..
  have hsquare := Nat.mul_pos (by omega : 0 < F32.root24 (F32.round24 m))
    (by omega : 0 < F32.root24 (F32.round24 m))
  refine ⟨_, _, rfl, rfl, by omega, hsquare, F32.log2_le hsquare (by nlinarith), ?_⟩
  rw [sqrt_ofInt hm hlt]
  exact F32.mul_self_round (by omega) hroot' (by omega)

theorem positive_norms : ((F32.ofInt m).sqrt.mul (F32.ofInt m).sqrt).Positive := by
  obtain ⟨s, i, -, -, hi, hsquare, hlog, hnorms⟩ := exists_norms hm hlt
  rw [hnorms]
  exact F32.positive_round_shift hsquare (by omega) (by omega)

end norms

/-! ## When the sign is clear -/

/-- The dot product `q` is at most the square of the norm of the dimension `m`: both are rounded to
24 bits, and the norm is the integer nearest to the root, scaled to 24 bits. -/
def DotFitsNorms (q m : Nat) : Prop :=
  F32.round24 q * 4 ^ F32.rootScale (F32.round24 m) ≤
    F32.round24 (F32.root24 (F32.round24 m) * F32.root24 (F32.round24 m))

/-- For `n` bits, `k` of which differ: as `i32` sees them, the dimension is zero, or it is positive
and the dot product is not positive or fits the norms. -/
def SignClear (n k : Nat) : Prop :=
  signedDot n 0 = 0 ∨ 0 < signedDot n 0 ∧
    (signedDot n k ≤ 0 ∨ DotFitsNorms (signedDot n k).toNat (signedDot n 0).toNat)

instance (q m : Nat) : Decidable (DotFitsNorms q m) := inferInstanceAs (Decidable (_ ≤ _))

instance (n k : Nat) : Decidable (SignClear n k) := inferInstanceAs (Decidable (_ ∨ _))

theorem cosine_le_one_iff {m : Nat} (hm : 0 < m) (hlt : m < 2 ^ 31) {dot : Int}
    (hdot : dot < 2 ^ 31) {cos : F32}
    (hcos : cos = (F32.ofInt dot).div ((F32.ofInt m).sqrt.mul (F32.ofInt m).sqrt)) :
    cos.signBit = true ∨ cos ≤ F32.one ↔ dot ≤ 0 ∨ DotFitsNorms dot.toNat m := by
  have hpositive := positive_norms hm hlt
  have hsign : cos.signBit = decide (dot < 0) := by
    rw [hcos, (F32.sign_div hpositive (F32.isNaN_ofInt dot)).2, F32.ofInt, F32.signBit_round]
  rw [hsign]
  rcases Int.lt_trichotomy dot 0 with hneg | rfl | hpos
  · exact iff_of_true (.inl (decide_eq_true hneg)) (.inl hneg.le)
  · rw [show F32.ofInt 0 = F32.zero from rfl, F32.div_eq hpositive (by decide) (by decide),
      show F32.zero.toRat = 0 by decide +kernel, zero_div] at hcos
    rw [hcos]
    exact iff_of_true (.inr (by decide)) (.inl le_rfl)
  · obtain ⟨q, rfl⟩ := Int.eq_ofNat_of_zero_le hpos.le
    obtain ⟨s, i, hs, hi, hle, hsquare, hlog, hnorms⟩ := exists_norms hm hlt
    have hq : q.log2 < 31 := F32.log2_lt (by omega) (by omega)
    have hfour : 4 ^ F32.rootScale (F32.round24 m) = 2 ^ i := by
      rw [hi]
      exact (Nat.pow_mul 2 2 _).symm
    rw [hcos, hnorms,
      F32.ofInt_div_le_one_iff (by omega) (by omega) hsquare (by omega) (by omega)]
    simp only [decide_eq_true_iff, not_lt.mpr hpos.le, not_le.mpr hpos, false_or, Int.toNat_natCast,
      DotFitsNorms, hfour, ← hs]

theorem cosineDistance_of_zero {n : Nat} (h : signedDot n 0 = 0) (k : Nat) :
    cosineDistance n k = F32.zero := by
  rw [cosineDistance, h]
  exact if_pos (by decide +kernel)

theorem cosineDistance_of_pos {n m : Nat} (hm : 0 < m) (hlt : m < 2 ^ 31) (h : signedDot n 0 = m)
    (k : Nat) : cosineDistance n k = (F32.one.sub ((F32.ofInt (signedDot n k)).div
      ((F32.ofInt m).sqrt.mul (F32.ofInt m).sqrt))).div (F32.ofNat 2) := by
  rw [cosineDistance, h]
  exact if_neg (by rw [(positive_norms hm hlt).isZero]; exact Bool.false_ne_true)

/-- **When the sign of the distance is clear.** -/
theorem nonneg_cosineDistance_iff (n k : Nat) : (cosineDistance n k).Nonneg ↔ SignClear n k := by
  obtain ⟨hlower, hupper⟩ := signedDot_bounds n 0
  unfold SignClear
  rcases Int.lt_trichotomy (signedDot n 0) 0 with hneg | hzero | hpos
  · -- the norms are not numbers
    rw [cosineDistance, sqrt_ofInt_of_neg hneg hlower, show F32.nan.mul F32.nan = F32.nan from rfl,
      if_neg (by decide), F32.div_nan, F32.nonneg_half_iff]
    exact iff_of_false (F32.not_nonneg_one_sub (by decide)) (by omega)
  · -- the norms are zero
    rw [cosineDistance_of_zero hzero]
    exact iff_of_true (by decide) (.inl hzero)
  · obtain ⟨m, hm⟩ := Int.eq_ofNat_of_zero_le hpos.le
    have hm' : 0 < m := by omega
    have hlt : m < 2 ^ 31 := by omega
    have hnan := (F32.sign_div (positive_norms hm' hlt) (F32.isNaN_ofInt (signedDot n k))).1
    rw [cosineDistance_of_pos hm' hlt hm, F32.nonneg_half_iff, F32.nonneg_one_sub hnan,
      cosine_le_one_iff hm' hlt (signedDot_bounds n k).2 rfl]
    rw [hm] at hpos ⊢
    simp only [hpos, hpos.ne', false_or, true_and, Int.toNat_natCast]

/-- Below `2 ^ 24` bits the sign is clear for vectors that differ. -/
theorem signClear_of_differ {n k : Nat} (hn : n < 2 ^ 24) (hk : 0 < k) (hkn : k ≤ n) :
    SignClear n k := by
  have hequal := signedDot_of_lt (by omega : n < 2 ^ 31) (Nat.zero_le n)
  have hdot := signedDot_of_lt (by omega : n < 2 ^ 31) hkn
  refine .inr ⟨by omega, ?_⟩
  rcases Int.lt_or_le 0 (signedDot n k) with hpos | hnonpos
  · refine .inr ?_
    have hn' : (signedDot n 0).toNat = n := by omega
    have hq : (signedDot n k).toNat = n - 2 * k := by omega
    have hlog := F32.log2_lt (by omega : 0 < n) hn
    obtain ⟨hroot, hroot'⟩ := F32.root24_bounds (by omega : 0 < n) (by omega)
    have hle := F32.sub_le_root24_square (by omega : 0 < n) hn hk
    have hfour : 4 ^ F32.rootScale n = 2 ^ (2 * F32.rootScale n) := (Nat.pow_mul 2 2 _).symm
    rw [DotFitsNorms, hn', hq, F32.round24_of_le hn.le, F32.round24_of_le (by omega), hfour,
      ← F32.round24_mul_two_pow (by omega) (by omega)]
    rw [hfour] at hle
    have hsquare : F32.root24 n * F32.root24 n ≤ 2 ^ 48 := by nlinarith
    refine F32.round24_mono (Nat.mul_pos (by omega) (Nat.two_pow_pos _)) ?_ hle
    exact (F32.log2_le (Nat.mul_pos (by omega) (by omega)) hsquare).trans (by decide)
  · exact .inl hnonpos

/-! ## The order of the distances -/

/-- Where the sign is clear, equal vectors come first. -/
theorem cosineDistance_zero_le {n k : Nat} (hn : n < 2 ^ 31) (hk : k ≤ n) (h : SignClear n 0) :
    cosineDistance n 0 ≤ cosineDistance n k := by
  have hnonneg := (nonneg_cosineDistance_iff n 0).mpr h
  have hequal : signedDot n 0 = n := by
    rw [signedDot_of_lt hn (Nat.zero_le n)]
    omega
  have hdot := signedDot_of_lt hn hk
  rcases Nat.eq_zero_or_pos n with rfl | hpos
  · rw [cosineDistance_of_zero hequal, cosineDistance_of_zero hequal]
  · have hpositive := positive_norms hpos hn
    have hlog := F32.log2_lt hpos hn
    have hnan := (F32.sign_div hpositive (F32.isNaN_ofInt (signedDot n k))).1
    obtain ⟨hnan', hsign⟩ := F32.sign_div hpositive (F32.isNaN_ofInt n)
    have hmono := F32.ofInt_div_mono hpositive hpos (by omega) (by omega : signedDot n k ≤ n)
    rw [F32.signBit_ofInt] at hsign
    rw [cosineDistance_of_pos hpos hn hequal, hequal, F32.nonneg_half_iff] at hnonneg
    have hone := ((F32.nonneg_one_sub hnan').mp hnonneg).resolve_left (by simp [hsign])
    rw [cosineDistance_of_pos hpos hn hequal, cosineDistance_of_pos hpos hn hequal, hequal]
    refine F32.half_le_half hnonneg ((F32.nonneg_one_sub hnan).mpr ?_) ?_
    · exact hmono.imp_right fun hle => hle.trans hone
    · exact F32.one_sub_le_one_sub hnan ⟨hsign, hnan'⟩ hone hmono

/-- Where it is not, opposite vectors come before equal ones. -/
theorem cosineDistance_lt {n : Nat} (hn : n < 2 ^ 31) (h : ¬ SignClear n 0) :
    cosineDistance n n < cosineDistance n 0 := by
  refine F32.lt_of_nonneg ((nonneg_cosineDistance_iff n n).mpr ?_)
    (mt (nonneg_cosineDistance_iff n 0).mp h)
  have hdot := signedDot_of_lt hn le_rfl
  have hequal := signedDot_of_lt hn (Nat.zero_le n)
  unfold SignClear
  rcases Nat.eq_zero_or_pos n with rfl | hpos
  · exact .inl (by omega)
  · exact .inr ⟨by omega, .inl (by omega)⟩

theorem differing_complement : ∀ u : List UInt8,
    differing (u.flatMap byteBits) ((u.map (~~~ ·)).flatMap byteBits) = 8 * u.length
  | [] => rfl
  | b :: u => by
    have hall : ∀ b : Fin 256, byteOnes (UInt8.ofNat b ^^^ ~~~UInt8.ofNat b) = 8 := by
      decide +kernel
    have hbyte := hall ⟨b.toNat, b.toNat_lt⟩
    rw [UInt8.ofNat_toNat] at hbyte
    rw [List.map_cons, List.flatMap_cons, List.flatMap_cons,
      differing_append (by rw [length_byteBits, length_byteBits]), ← byteOnes_xor, hbyte,
      differing_complement u, List.length_cons]
    omega

/-- **When the sign of the distance is clear.** For any two vectors of `n` bits, on every target:
the distance has a clear sign and is a number exactly under `SignClear`, with the number of bits
that differ. Where `n` fits an `i32`, a vector is ordered before or along with all others by its
distance to itself exactly when that distance has a clear sign. -/
theorem nonneg_distance_iff (t : Target) (n : Nat) (u : List UInt8) (hu : 8 * u.length = n) :
    (∀ v : List UInt8, 8 * v.length = n →
      (((binaryQuantizedCosine t).distance (quantizedItem t u) (quantizedItem t v)).Nonneg ↔
        SignClear n (differing (u.flatMap byteBits) (v.flatMap byteBits)))) ∧
    (n < 2 ^ 31 →
      ((∀ v : List UInt8, 8 * v.length = n →
        (binaryQuantizedCosine t).distance (quantizedItem t u) (quantizedItem t u) ≤
          (binaryQuantizedCosine t).distance (quantizedItem t u) (quantizedItem t v)) ↔
        SignClear n 0)) := by
  constructor
  · intro v hv
    rw [distance_eq t hu hv]
    exact nonneg_cosineDistance_iff ..
  · intro hn
    have hself := distance_eq t hu hu
    rw [differing_self] at hself
    rw [hself]
    constructor
    · intro hfirst
      by_contra hsign
      have hlen : 8 * (u.map (~~~ ·)).length = n := by rwa [List.length_map]
      have hle := hfirst _ hlen
      rw [distance_eq t hu hlen, differing_complement, hu] at hle
      exact not_lt.mpr hle (cosineDistance_lt hn hsign)
    · intro hsign v hv
      rw [distance_eq t hu hv]
      refine cosineDistance_zero_le hn ?_ hsign
      have hle := differing_le (u.flatMap byteBits) (v.flatMap byteBits)
      rwa [length_flatMap_byteBits, hu] at hle

/-- Equal vectors of 64 bits. -/
theorem nonneg_distance_64 :
    ((binaryQuantizedCosine .plain).distance (quantizedItem .plain (List.replicate 8 0))
      (quantizedItem .plain (List.replicate 8 0))).Nonneg :=
  ((nonneg_distance_iff .plain 64 (List.replicate 8 0) rfl).1 (List.replicate 8 0) rfl).mpr
    (by decide +kernel)

/-- **Equal vectors of 128 bits**: their distance is below zero, and so they are ordered behind
opposite vectors. -/
theorem equal_vectors_of_128_bits :
    let D := binaryQuantizedCosine .plain
    let u : List UInt8 := List.replicate 16 0
    let v : List UInt8 := List.replicate 16 255
    64 ∣ 8 * u.length ∧ u.length = v.length ∧
      (D.distance (quantizedItem .plain u) (quantizedItem .plain u)).signBit = true ∧
      D.distance (quantizedItem .plain u) (quantizedItem .plain v) <
        D.distance (quantizedItem .plain u) (quantizedItem .plain u) := by
  intro D u v
  have hself : D.distance (quantizedItem .plain u) (quantizedItem .plain u) = ⟨0xb3800000⟩ := by
    rw [distance_eq .plain (n := 128) rfl rfl]
    decide +kernel
  have hother : D.distance (quantizedItem .plain u) (quantizedItem .plain v) = F32.one := by
    rw [distance_eq .plain (n := 128) rfl rfl]
    decide +kernel
  rw [hself, hother]
  decide

end Hannoy.Spaces
