import Hannoy.Codec.Decode
import Hannoy.Model.Distances
import Mathlib.Data.Bool.Count
import Mathlib.Tactic.Ring

/-!
# What the quantized distances count

The integers that the quantized distances cast to `f32` are counts of the bits in which two
encodings differ. The padding of the encodings is the same, so they count the coordinates that
differ.

* `squaredEuclidean_eq`, `manhattan_eq`, `hammingBitwiseFast_eq`, `dotProduct_eq`: the integers, as
  counts of differing bits, for any numbers in the place of `u32` and `i32`.
* `bitCounts_eq`: as sums over the coordinates, when the counts fit.
-/

namespace Hannoy.Spaces

open Hannoy.Library

variable {U I : Type} {u v : List UInt8} {a b : List F32}

/-! ## Casts -/

/-- A cast of counts that respects sums: it wraps at most. -/
structure AdditiveCast [Zero U] [Add U] (φ : Nat → U) : Prop where
  zero : φ 0 = 0
  add : ∀ m n, φ (m + n) = φ m + φ n

theorem additiveCast_u32 : AdditiveCast UInt32.ofNat := ⟨rfl, fun m n => UInt32.ofNat_add m n⟩

theorem sum_zipWith_cast [Zero U] [Add U] {φ : Nat → U} (hφ : AdditiveCast φ) {α : Type}
    (f : α → α → Nat) : ∀ u v : List α,
      (u.zipWith (fun u v => φ (f u v)) v).sum = φ (u.zipWith f v).sum
  | [], _ => hφ.zero.symm
  | _ :: _, [] => hφ.zero.symm
  | u :: us, v :: vs => by
    rw [List.zipWith_cons_cons, List.zipWith_cons_cons, List.sum_cons, List.sum_cons, hφ.add,
      sum_zipWith_cast hφ f us vs]

/-- A cast of counts that is a cast of integers which respects sums and differences. -/
structure SignedCast [Zero I] [Add I] [Sub I] (φ : Nat → I) (ψ : Int → I) : Prop where
  ofNat : ∀ n : Nat, φ n = ψ n
  zero : ψ 0 = 0
  add : ∀ m n, ψ (m + n) = ψ m + ψ n
  sub : ∀ m n, ψ (m - n) = ψ m - ψ n

theorem signedCast_i32 : SignedCast Int32.ofNat Int32.ofInt where
  ofNat _ := rfl
  zero := rfl
  add := Int32.ofInt_add
  sub := Int32.ofInt_sub

/-! ## Counts of bits -/

theorem byteOnes_add_byteZeros (b : UInt8) : byteOnes b + byteZeros b = 8 :=
  (List.count_true_add_count_false (byteBits b)).trans (length_byteBits b)

theorem byteOnes_not (b : UInt8) : byteOnes (~~~b) = byteZeros b := by
  have hall : ∀ n : Fin 256, byteOnes (~~~UInt8.ofNat n) = byteZeros (UInt8.ofNat n) := by
    decide +kernel
  have := hall ⟨b.toNat, b.toNat_lt⟩
  rwa [UInt8.ofNat_toNat] at this

/-- **The dot product counts the bits**: those that agree, less those that differ. -/
theorem dotProduct_eq [Zero I] [Add I] [Sub I] {φ : Nat → I} {ψ : Int → I}
    (h : SignedCast φ ψ) : ∀ {u v : List UInt8}, u.length = v.length →
      dotProductBinaryQuantized φ u v =
        ψ (8 * u.length - 2 * differing (u.flatMap byteBits) (v.flatMap byteBits))
  | [], [], _ => h.zero.symm
  | u :: us, v :: vs, hlen => by
    have hones := byteOnes_add_byteZeros (u ^^^ v)
    have hnot := byteOnes_add_byteZeros (~~~(u ^^^ v))
    rw [byteOnes_not] at hnot
    have hrest := dotProduct_eq h (Nat.succ.inj hlen : us.length = vs.length)
    unfold dotProductBinaryQuantized at hrest ⊢
    rw [List.zipWith_cons_cons, List.sum_cons, hrest, List.flatMap_cons, List.flatMap_cons,
      differing_append (by rw [length_byteBits, length_byteBits]), ← byteOnes_xor]
    dsimp only
    rw [h.ofNat, h.ofNat, ← h.sub, ← h.add, byteOnes_not, List.length_cons]
    congr 1
    omega

theorem squaredEuclidean_eq :
    squaredEuclideanDistanceBinaryQuantized UInt32.ofNat u v =
      UInt32.ofNat (4 * differing (u.flatMap byteBits) (v.flatMap byteBits)) := by
  rw [squaredEuclideanDistanceBinaryQuantized, sum_zipWith_cast additiveCast_u32, sum_bytes,
    ← UInt32.ofNat_mul, Nat.mul_comm]

theorem manhattan_eq :
    manhattanDistanceBinaryQuantized UInt32.ofNat u v =
      UInt32.ofNat (2 * differing (u.flatMap byteBits) (v.flatMap byteBits)) := by
  rw [manhattanDistanceBinaryQuantized, sum_zipWith_cast additiveCast_u32, sum_bytes,
    ← UInt32.ofNat_mul, Nat.mul_comm]

/-- The Hamming distance counts the bits that differ, of whole words and behind them. -/
theorem hammingBitwiseFast_eq [Zero U] [Add U] {φ : Nat → U} (hφ : AdditiveCast φ)
    (h : u.length = v.length) :
    hammingBitwiseFast φ u v = some (φ (differing (u.flatMap byteBits) (v.flatMap byteBits))) := by
  have hsum := sum_words h
  rw [hammingBitwiseFast, if_neg (not_not.mpr h)]
  dsimp only
  rw [sum_zipWith_cast hφ (fun u v => wordOnes (wordOfBytes u ^^^ wordOfBytes v)),
    sum_zipWith_cast hφ (fun u v => byteOnes (u ^^^ v)), ← hφ.add, hsum]
  by_cases hmod : u.length % 8 = 0
  · -- there is nothing behind the last whole word
    have hnil : remainder 8 u = [] := by
      rw [remainder, List.drop_eq_nil_iff]
      omega
    rw [hnil, List.zipWith_nil_left, List.sum_nil, Nat.add_zero] at hsum
    rw [if_neg (not_not.mpr hmod), hsum]
  · rw [if_pos hmod]

/-! ## Sums over the coordinates -/

/-- The sign of a coordinate, as the quantized distances read it. -/
def sign (a : F32) : Int := if a.isSignPositive then 1 else -1

/-- A sum over pairs of coordinates to which only those that differ contribute. -/
theorem sum_differing (encode : F32 → Bool) {term : F32 → F32 → Int} {c : Int}
    (hterm : ∀ s t, term s t = if encode s = encode t then 0 else c) : ∀ a b : List F32,
      (a.zipWith term b).sum = c * differing (a.map encode) (b.map encode)
  | [], _ => by simp [differing]
  | _ :: _, [] => by simp [differing]
  | s :: a, t :: b => by
    rw [List.zipWith_cons_cons, List.sum_cons, sum_differing encode hterm a b, hterm, List.map_cons,
      List.map_cons, differing_cons]
    split_ifs <;> push_cast <;> ring

/-- The products of the decoded coordinates. -/
theorem sum_products : ∀ {a b : List Bool}, a.length = b.length →
    ((a.map F32.signOfBit).zipWith (fun x y => x.toRat * y.toRat) (b.map F32.signOfBit)).sum =
      a.length - 2 * differing a b
  | [], [], _ => by simp [differing]
  | s :: a, t :: b, h => by
    have hsign : ∀ s t : Bool, (F32.signOfBit s).toRat * (F32.signOfBit t).toRat =
        1 - 2 * ((if s = t then 0 else 1 : Nat) : ℚ) := by
      decide +kernel
    rw [List.map_cons, List.map_cons, List.zipWith_cons_cons, List.sum_cons, hsign,
      sum_products (Nat.succ.inj h), differing_cons, List.length_cons]
    push_cast
    ring

theorem countP_differing (encode : F32 → Bool) : ∀ a b : List F32,
    (a.zip b).countP (fun p => encode p.1 != encode p.2) =
      differing (a.map encode) (b.map encode)
  | [], _ => rfl
  | _ :: _, [] => rfl
  | s :: a, t :: b => by
    rw [List.zip_cons_cons, List.countP_cons, countP_differing encode a b, List.map_cons,
      List.map_cons, differing_cons, Nat.add_comm]
    congr 1
    cases encode s <;> cases encode t <;> rfl

/-- The bytes of two encodings of vectors of one length differ where the vectors do. -/
theorem differing_pack {encode : F32 → Bool} (h : a.length = b.length) :
    differing ((pack (a.map encode)).flatMap byteBits) ((pack (b.map encode)).flatMap byteBits) =
      differing (a.map encode) (b.map encode) := by
  rw [flatMap_byteBits_pack, flatMap_byteBits_pack, differing_padded]
  rw [List.length_map, List.length_map, h]

theorem length_pack_eq {encode : F32 → Bool} (h : a.length = b.length) :
    (pack (a.map encode)).length = (pack (b.map encode)).length := by
  rw [length_pack, length_pack, List.length_map, List.length_map, h]

/-! ## The integers of the distances -/

/-- The number of coordinates with different signs. -/
def signsDiffer (a b : List F32) : Nat :=
  differing (a.map F32.isSignPositive) (b.map F32.isSignPositive)

theorem toNat_squaredEuclidean (h : a.length = b.length) (hcount : signsDiffer a b < 2 ^ 30) :
    (squaredEuclideanDistanceBinaryQuantized UInt32.ofNat
      (BinaryQuantized.fromSliceNonOptimized a)
      (BinaryQuantized.fromSliceNonOptimized b)).toNat = 4 * signsDiffer a b := by
  rw [squaredEuclidean_eq, BinaryQuantized.fromSliceNonOptimized,
    BinaryQuantized.fromSliceNonOptimized, differing_pack h, UInt32.toNat_ofNat']
  exact Nat.mod_eq_of_lt (by unfold signsDiffer at hcount; omega)

theorem toNat_manhattan (h : a.length = b.length) (hcount : signsDiffer a b < 2 ^ 30) :
    (manhattanDistanceBinaryQuantized UInt32.ofNat
      (BinaryQuantized.fromSliceNonOptimized a)
      (BinaryQuantized.fromSliceNonOptimized b)).toNat = 2 * signsDiffer a b := by
  rw [manhattan_eq, BinaryQuantized.fromSliceNonOptimized,
    BinaryQuantized.fromSliceNonOptimized, differing_pack h, UInt32.toNat_ofNat']
  exact Nat.mod_eq_of_lt (by unfold signsDiffer at hcount; omega)

/-- The dot product of two encodings: the padding counts as agreeing. -/
theorem dotProduct_pack [Zero I] [Add I] [Sub I] {φ : Nat → I} {ψ : Int → I}
    (hφ : SignedCast φ ψ) (h : a.length = b.length) :
    dotProductBinaryQuantized φ (BinaryQuantized.fromSliceNonOptimized a)
        (BinaryQuantized.fromSliceNonOptimized b) =
      ψ ((64 * chunkCount 64 a.length : Nat) - 2 * (signsDiffer a b : Nat)) := by
  rw [BinaryQuantized.fromSliceNonOptimized, BinaryQuantized.fromSliceNonOptimized,
    dotProduct_eq hφ (length_pack_eq h), differing_pack h, length_pack, List.length_map,
    signsDiffer]
  congr 1
  omega

theorem signsDiffer_le (a b : List F32) : signsDiffer a b ≤ a.length := by
  have := differing_le (a.map F32.isSignPositive) (b.map F32.isSignPositive)
  rwa [List.length_map] at this

theorem toInt_dotProduct (h : a.length = b.length)
    (hbits : 64 * chunkCount 64 a.length < 2 ^ 31) :
    (dotProductBinaryQuantized Int32.ofNat (BinaryQuantized.fromSliceNonOptimized a)
        (BinaryQuantized.fromSliceNonOptimized b)).toInt =
      (64 * chunkCount 64 a.length : Nat) - 2 * (signsDiffer a b : Nat) := by
  have hle := signsDiffer_le a b
  have hchunk : a.length ≤ 64 * chunkCount 64 a.length := by
    unfold chunkCount
    omega
  rw [dotProduct_pack signedCast_i32 h]
  exact Int32.toInt_ofInt_of_le (by omega) (by omega)

/-- The products of all that is read back. -/
theorem sum_decoded (h : a.length = b.length) :
    ((BinaryQuantized.toVecNonOptimized (BinaryQuantized.fromSliceNonOptimized a)).zipWith
        (fun x y => x.toRat * y.toRat)
        (BinaryQuantized.toVecNonOptimized (BinaryQuantized.fromSliceNonOptimized b))).sum =
      (64 * chunkCount 64 a.length : Nat) - 2 * (signsDiffer a b : Nat) := by
  have hmap : (a.map F32.isSignPositive).length = (b.map F32.isSignPositive).length := by
    rw [List.length_map, List.length_map, h]
  have hpadded : (padded (a.map F32.isSignPositive)).length =
      (padded (b.map F32.isSignPositive)).length := by
    rw [length_padded, length_padded, hmap]
  rw [BinaryQuantized.toVecNonOptimized, BinaryQuantized.toVecNonOptimized, Codec.collect_start,
    Codec.collect_start, BinaryQuantized.fromSliceNonOptimized,
    BinaryQuantized.fromSliceNonOptimized, unpack_pack, unpack_pack, sum_products hpadded,
    differing_padded hmap, length_padded, List.length_map, signsDiffer]

/-- The squares of the differences of the signs. -/
theorem sum_squares (a b : List F32) :
    (a.zipWith (fun s t => (sign s - sign t) ^ 2) b).sum = 4 * signsDiffer a b := by
  refine sum_differing F32.isSignPositive (fun s t => ?_) a b
  unfold sign
  cases s.isSignPositive <;> cases t.isSignPositive <;> rfl

/-- The absolute differences of the signs. -/
theorem sum_absolute (a b : List F32) :
    (a.zipWith (fun s t => |sign s - sign t|) b).sum = 2 * signsDiffer a b := by
  refine sum_differing F32.isSignPositive (fun s t => ?_) a b
  unfold sign
  cases s.isSignPositive <;> cases t.isSignPositive <;> rfl

/-- **The quantized distances count the coordinates that differ.** For two vectors of `d` floats,
as long as the counts fit: the squared euclidean and the manhattan distance of their signs, the dot
product of all that is read back, padding included, and the number of coordinates of which exactly
one is greater than zero. -/
theorem bitCounts_eq (d : Nat) (a b : List F32) (ha : a.length = d) (hb : b.length = d) :
    ((a.zip b).countP (fun p => p.1.isSignPositive != p.2.isSignPositive) < 2 ^ 30 →
      ((squaredEuclideanDistanceBinaryQuantized UInt32.ofNat
          (BinaryQuantized.fromSliceNonOptimized a)
          (BinaryQuantized.fromSliceNonOptimized b)).toNat : Int) =
        (a.zipWith (fun s t => (sign s - sign t) ^ 2) b).sum ∧
      ((manhattanDistanceBinaryQuantized UInt32.ofNat
          (BinaryQuantized.fromSliceNonOptimized a)
          (BinaryQuantized.fromSliceNonOptimized b)).toNat : Int) =
        (a.zipWith (fun s t => |sign s - sign t|) b).sum) ∧
    (64 * chunkCount 64 d < 2 ^ 31 →
      ((dotProductBinaryQuantized Int32.ofNat (BinaryQuantized.fromSliceNonOptimized a)
          (BinaryQuantized.fromSliceNonOptimized b)).toInt : ℚ) =
        ((BinaryQuantized.toVecNonOptimized (BinaryQuantized.fromSliceNonOptimized a)).zipWith
          (fun x y => x.toRat * y.toRat)
          (BinaryQuantized.toVecNonOptimized (BinaryQuantized.fromSliceNonOptimized b))).sum) ∧
    ((a.zip b).countP (fun p => p.1.isPositiveBits != p.2.isPositiveBits) < 2 ^ 30 →
      (hammingBitwiseFast UInt32.ofNat (Binary.fromSliceNonOptimized a)
          (Binary.fromSliceNonOptimized b)).map UInt32.toNat =
        some ((a.zip b).countP fun p => p.1.isPositiveBits != p.2.isPositiveBits)) := by
  subst ha
  have h : a.length = b.length := hb.symm
  rw [countP_differing F32.isSignPositive, countP_differing F32.isPositiveBits, ← signsDiffer]
  refine ⟨fun hcount => ⟨?_, ?_⟩, fun hbits => ?_, fun hcount => ?_⟩
  · rw [toNat_squaredEuclidean h hcount, sum_squares]
    push_cast
    rfl
  · rw [toNat_manhattan h hcount, sum_absolute]
    push_cast
    rfl
  · rw [toInt_dotProduct h hbits, sum_decoded h]
    push_cast
    rfl
  · rw [Binary.fromSliceNonOptimized, Binary.fromSliceNonOptimized,
      hammingBitwiseFast_eq additiveCast_u32 (length_pack_eq h), differing_pack h,
      Option.map_some, UInt32.toNat_ofNat', Nat.mod_eq_of_lt (by omega)]

/-- Three coordinates: the signs differ in the first, and being greater than zero in the first and
the last. -/
theorem bitCounts_eq_three :
    let a := [F32.one, F32.minusOne, F32.zero]
    let b := [F32.minusOne, F32.minusOne, F32.one]
    ((squaredEuclideanDistanceBinaryQuantized UInt32.ofNat
        (BinaryQuantized.fromSliceNonOptimized a)
        (BinaryQuantized.fromSliceNonOptimized b)).toNat : Int) = 4 ∧
      ((manhattanDistanceBinaryQuantized UInt32.ofNat
        (BinaryQuantized.fromSliceNonOptimized a)
        (BinaryQuantized.fromSliceNonOptimized b)).toNat : Int) = 2 ∧
      ((dotProductBinaryQuantized Int32.ofNat (BinaryQuantized.fromSliceNonOptimized a)
        (BinaryQuantized.fromSliceNonOptimized b)).toInt : ℚ) =
        ((BinaryQuantized.toVecNonOptimized (BinaryQuantized.fromSliceNonOptimized a)).zipWith
          (fun x y => x.toRat * y.toRat)
          (BinaryQuantized.toVecNonOptimized (BinaryQuantized.fromSliceNonOptimized b))).sum ∧
      (hammingBitwiseFast UInt32.ofNat (Binary.fromSliceNonOptimized a)
        (Binary.fromSliceNonOptimized b)).map UInt32.toNat = some 2 := by
  obtain ⟨hsigns, hdot, hhamming⟩ := bitCounts_eq 3 [F32.one, F32.minusOne, F32.zero]
    [F32.minusOne, F32.minusOne, F32.one] rfl rfl
  obtain ⟨heuclid, hmanhattan⟩ := hsigns (by decide)
  exact ⟨heuclid.trans (by decide), hmanhattan.trans (by decide), hdot (by decide),
    hhamming (by decide)⟩

end Hannoy.Spaces
