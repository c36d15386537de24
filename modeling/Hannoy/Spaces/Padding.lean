import Hannoy.Spaces.BitCounts
import Hannoy.Spaces.Kernels
import Mathlib.Analysis.Real.Sqrt
import Mathlib.Tactic.FieldSimp

/-!
# The padding in the normalised distances (`binary_quantized_cosine.rs`, `hamming.rs`)

Both distances divide by what they compute of whole words: the norms of `BinaryQuantizedCosine`
count the padding, and so does the length of `Hamming`. Read exactly, each is the number of
coordinates that differ divided by the number of bits of the encoding, while the cosine of the
signs and the Hamming distance divide by the dimension.

* `cosineDistance_eq`, `hammingDistance_eq`: the distances, exactly.
* `cosineOf_signs`: the cosine of the sign vectors.
* `padding_ignored_iff`: when the padding makes no difference.
-/

namespace Hannoy.Spaces

open Hannoy.Library

variable {a b : List F32}

/-- Exact numbers: nothing rounds and nothing wraps. -/
noncomputable def realNumbers : Numbers ℕ ℤ ℝ where
  toArithmetic := exact ℝ
  one := 1
  two := 2
  div := (· / ·)
  sqrt := Real.sqrt
  isZero x := by classical exact decide (x = 0)
  u32 := id
  i32 := Nat.cast
  ofU32 := Nat.cast
  ofI32 := Int.cast
  ofUsize := Nat.cast

/-- The cosine of two vectors. -/
noncomputable def cosineOf (s t : List ℤ) : ℝ :=
  ((s.zipWith (· * ·) t).sum : ℤ) /
    (Real.sqrt ((s.map (· ^ 2)).sum : ℤ) * Real.sqrt ((t.map (· ^ 2)).sum : ℤ))

/-- The bits of an encoding of `d` coordinates. -/
def encodedBits (d : Nat) : Nat := 64 * chunkCount 64 d

theorem le_encodedBits (d : Nat) : d ≤ encodedBits d := by
  unfold encodedBits chunkCount
  omega

theorem encodedBits_eq_iff {d : Nat} : encodedBits d = d ↔ 64 ∣ d := by
  unfold encodedBits chunkCount
  omega

/-! ## The distances, exactly -/

theorem signedCast_exact : SignedCast (Nat.cast : ℕ → ℤ) id := ⟨fun _ => rfl, rfl, fun _ _ => rfl,
  fun _ _ => rfl⟩

theorem signsDiffer_self (a : List F32) : signsDiffer a a = 0 := differing_self _

/-- The norm in a header: the padding counts. -/
theorem normNoHeader_eq (a : List F32) :
    BinaryQuantizedCosine.normNoHeader realNumbers (BinaryQuantized.fromSliceNonOptimized a) =
      Real.sqrt (encodedBits a.length) := by
  show Real.sqrt ((dotProductBinaryQuantized (Nat.cast : ℕ → ℤ) _ _ : ℤ) : ℝ) = _
  rw [dotProduct_pack signedCast_exact rfl, signsDiffer_self]
  simp [encodedBits]

/-- **The cosine distance**: the signs that differ, out of the bits of the encoding. -/
theorem cosineDistance_eq (h : a.length = b.length) (ha : a ≠ []) :
    BinaryQuantizedCosine.distance realNumbers
        (BinaryQuantizedCosine.normNoHeader realNumbers (BinaryQuantized.fromSliceNonOptimized a))
        (BinaryQuantizedCosine.normNoHeader realNumbers (BinaryQuantized.fromSliceNonOptimized b))
        (BinaryQuantized.fromSliceNonOptimized a) (BinaryQuantized.fromSliceNonOptimized b) =
      signsDiffer a b / encodedBits a.length := by
  have hpos : (0 : ℝ) < encodedBits a.length := by
    have := List.length_pos_iff.mpr ha
    have := le_encodedBits a.length
    exact_mod_cast (by omega : 0 < encodedBits a.length)
  have hnorms : realNumbers.mul (Real.sqrt (encodedBits a.length))
      (Real.sqrt (encodedBits a.length)) = encodedBits a.length := Real.mul_self_sqrt hpos.le
  have hdot : realNumbers.ofI32 (dotProductBinaryQuantized realNumbers.i32
      (BinaryQuantized.fromSliceNonOptimized a) (BinaryQuantized.fromSliceNonOptimized b)) =
      encodedBits a.length - 2 * signsDiffer a b := by
    refine (congrArg (Int.cast : ℤ → ℝ) (dotProduct_pack signedCast_exact h)).trans ?_
    rw [encodedBits, id]
    push_cast
    rfl
  have hzero : realNumbers.isZero (encodedBits a.length : ℝ) = false := by
    simp [realNumbers, hpos.ne']
  rw [BinaryQuantizedCosine.distance, normNoHeader_eq, normNoHeader_eq, ← h, hnorms, hdot, hzero]
  show (1 - (encodedBits a.length - 2 * signsDiffer a b : ℝ) / encodedBits a.length) / 2 = _
  field_simp
  ring

/-- **The Hamming distance**: the coordinates that differ, out of the bits of the encoding. -/
theorem hammingDistance_eq (h : a.length = b.length) :
    Hamming.distance realNumbers (Binary.fromSliceNonOptimized a)
        (Binary.fromSliceNonOptimized b) =
      some (((a.zip b).countP fun p => p.1.isPositiveBits != p.2.isPositiveBits : ℕ) /
        (encodedBits a.length : ℝ)) := by
  have hadd : AdditiveCast (id : ℕ → ℕ) := ⟨rfl, fun _ _ => rfl⟩
  rw [Hamming.distance, Binary.fromSliceNonOptimized, Binary.fromSliceNonOptimized]
  rw [show realNumbers.u32 = id from rfl, hammingBitwiseFast_eq hadd (length_pack_eq h),
    differing_pack h, countP_differing, length_pack, List.length_map, encodedBits]
  rw [Nat.mul_div_cancel_left _ (by decide : 0 < 8), Nat.mul_comm]
  rfl

/-! ## What they would be without padding -/

theorem sum_sign_mul : ∀ {a b : List F32}, a.length = b.length →
    ((a.map sign).zipWith (· * ·) (b.map sign)).sum = a.length - 2 * (signsDiffer a b : ℤ)
  | [], [], _ => rfl
  | s :: a, t :: b, h => by
    have hterm : sign s * sign t =
        1 - 2 * ((if s.isSignPositive = t.isSignPositive then 0 else 1 : ℕ) : ℤ) := by
      unfold sign
      cases s.isSignPositive <;> cases t.isSignPositive <;> rfl
    rw [List.map_cons, List.map_cons, List.zipWith_cons_cons, List.sum_cons,
      sum_sign_mul (Nat.succ.inj h), hterm, signsDiffer, signsDiffer, List.map_cons, List.map_cons,
      differing_cons, List.length_cons]
    push_cast
    ring

theorem sum_sign_sq (a : List F32) : ((a.map sign).map (· ^ 2)).sum = (a.length : ℤ) := by
  have hone : ∀ s : F32, sign s ^ 2 = 1 := by
    intro s
    unfold sign
    cases s.isSignPositive <;> rfl
  rw [List.map_map, show (· ^ 2) ∘ sign = fun _ => (1 : ℤ) from funext hone]
  simp

/-- The cosine of the vectors of signs. -/
theorem cosineOf_signs (h : a.length = b.length) :
    cosineOf (a.map sign) (b.map sign) = (a.length - 2 * signsDiffer a b) / a.length := by
  rw [cosineOf, sum_sign_mul h, sum_sign_sq, sum_sign_sq, ← h,
    Real.mul_self_sqrt (by exact_mod_cast Nat.zero_le a.length)]
  push_cast
  rfl

/-- Divided by the bits or by the dimension. -/
theorem div_encodedBits_eq_iff {d : Nat} (hd : 1 ≤ d) (k : Nat) :
    (k : ℝ) / encodedBits d = k / d ↔ 64 ∣ d ∨ k = 0 := by
  have hle := le_encodedBits d
  have hd' : (0 : ℝ) < d := by exact_mod_cast hd
  have hbits : (0 : ℝ) < encodedBits d := by exact_mod_cast hd.trans hle
  rw [← encodedBits_eq_iff, div_eq_div_iff hbits.ne' hd'.ne']
  constructor
  · intro heq
    have heq : k * d = k * encodedBits d := by exact_mod_cast heq
    by_cases hk : k = 0
    · exact .inr hk
    · exact .inl (Nat.eq_of_mul_eq_mul_left (Nat.pos_of_ne_zero hk) heq).symm
  · rintro (heq | rfl)
    · rw [heq]
    · simp

/-! ## When the padding makes no difference -/

/-- **When the padding makes no difference.** For two vectors of `d` coordinates, `d` at least one:
the exact cosine distance of their encodings is `(1 - c) / 2` for the cosine `c` of their signs
exactly when `d` is a multiple of 64 or no sign differs, and the exact Hamming distance is the
number of coordinates that differ divided by `d` exactly when `d` is a multiple of 64 or no
coordinate differs. -/
theorem padding_ignored_iff (d : Nat) (hd : 1 ≤ d) (a b : List F32) (ha : a.length = d)
    (hb : b.length = d) :
    (BinaryQuantizedCosine.distance realNumbers
        (BinaryQuantizedCosine.normNoHeader realNumbers (BinaryQuantized.fromSliceNonOptimized a))
        (BinaryQuantizedCosine.normNoHeader realNumbers (BinaryQuantized.fromSliceNonOptimized b))
        (BinaryQuantized.fromSliceNonOptimized a) (BinaryQuantized.fromSliceNonOptimized b) =
        (1 - cosineOf (a.map sign) (b.map sign)) / 2 ↔
      64 ∣ d ∨ ∀ p ∈ a.zip b, p.1.isSignPositive = p.2.isSignPositive) ∧
    (Hamming.distance realNumbers (Binary.fromSliceNonOptimized a)
        (Binary.fromSliceNonOptimized b) =
        some (((a.zip b).countP fun p => p.1.isPositiveBits != p.2.isPositiveBits : ℕ) / (d : ℝ)) ↔
      64 ∣ d ∨ ∀ p ∈ a.zip b, p.1.isPositiveBits = p.2.isPositiveBits) := by
  subst ha
  have h : a.length = b.length := hb.symm
  have hne : a ≠ [] := List.length_pos_iff.mp hd
  have hnone : ∀ encode : F32 → Bool,
      (a.zip b).countP (fun p => encode p.1 != encode p.2) = 0 ↔
        ∀ p ∈ a.zip b, encode p.1 = encode p.2 := by
    intro encode
    rw [List.countP_eq_zero]
    simp only [bne_iff_ne, ne_eq, not_not]
  constructor
  · have hexact : (1 - (a.length - 2 * signsDiffer a b : ℝ) / a.length) / 2 =
        signsDiffer a b / a.length := by
      have : (a.length : ℝ) ≠ 0 := by exact_mod_cast (by omega : a.length ≠ 0)
      field_simp
      ring
    rw [cosineDistance_eq h hne, cosineOf_signs h, hexact, div_encodedBits_eq_iff hd, signsDiffer,
      ← countP_differing, hnone]
  · rw [hammingDistance_eq h, Option.some_inj, div_encodedBits_eq_iff hd, hnone]

/-- Two vectors with the same signs, one of them with a zero. -/
theorem padding_ignored_same_signs :
    BinaryQuantizedCosine.distance realNumbers
        (BinaryQuantizedCosine.normNoHeader realNumbers
          (BinaryQuantized.fromSliceNonOptimized [F32.one, F32.minusOne]))
        (BinaryQuantizedCosine.normNoHeader realNumbers
          (BinaryQuantized.fromSliceNonOptimized [F32.zero, F32.minusOne]))
        (BinaryQuantized.fromSliceNonOptimized [F32.one, F32.minusOne])
        (BinaryQuantized.fromSliceNonOptimized [F32.zero, F32.minusOne]) =
      (1 - cosineOf ([F32.one, F32.minusOne].map sign) ([F32.zero, F32.minusOne].map sign)) / 2 :=
  (padding_ignored_iff 2 (by decide) [F32.one, F32.minusOne] [F32.zero, F32.minusOne] rfl
    rfl).1.mpr (.inr (by decide))

/-- **Opposite vectors of one coordinate**: the cosine of their signs is minus one, yet their
distance is not one, but one of the 64 bits; and so is their Hamming distance. -/
theorem opposite_vectors_padded :
    let distance := BinaryQuantizedCosine.distance realNumbers
      (BinaryQuantizedCosine.normNoHeader realNumbers
        (BinaryQuantized.fromSliceNonOptimized [F32.one]))
      (BinaryQuantizedCosine.normNoHeader realNumbers
        (BinaryQuantized.fromSliceNonOptimized [F32.minusOne]))
      (BinaryQuantized.fromSliceNonOptimized [F32.one])
      (BinaryQuantized.fromSliceNonOptimized [F32.minusOne])
    let hamming := Hamming.distance realNumbers (Binary.fromSliceNonOptimized [F32.one])
      (Binary.fromSliceNonOptimized [F32.minusOne])
    (distance = 1 / 64 ∧
        distance ≠ (1 - cosineOf ([F32.one].map sign) ([F32.minusOne].map sign)) / 2) ∧
      (hamming = some (1 / 64) ∧
        hamming ≠ some ((([F32.one].zip [F32.minusOne]).countP fun p =>
          p.1.isPositiveBits != p.2.isPositiveBits : ℕ) / ((1 : ℕ) : ℝ))) := by
  intro distance hamming
  have hlen : [F32.one].length = [F32.minusOne].length := rfl
  have hone : signsDiffer [F32.one] [F32.minusOne] = 1 := by decide
  have hcount : ([F32.one].zip [F32.minusOne]).countP
      (fun p => p.1.isPositiveBits != p.2.isPositiveBits) = 1 := by decide
  have hbits : encodedBits [F32.one].length = 64 := rfl
  have hdistance : distance = 1 / 64 := by
    refine (cosineDistance_eq hlen (List.cons_ne_nil _ _)).trans ?_
    rw [hone, hbits]
    norm_num
  have hhamming : hamming = some (1 / 64) := by
    refine (hammingDistance_eq hlen).trans ?_
    rw [hcount, hbits]
    norm_num
  refine ⟨⟨hdistance, ?_⟩, ⟨hhamming, ?_⟩⟩
  · rw [hdistance, cosineOf_signs hlen, hone]
    norm_num
  · rw [hhamming, hcount]
    norm_num

end Hannoy.Spaces
