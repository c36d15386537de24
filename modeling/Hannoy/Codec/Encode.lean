import Hannoy.Model.Simd

/-!
# Encoding with NEON (`binary_quantized.rs:80-154`, `binary.rs:80-158`)

`from_slice_neon` packs the coordinates eight at a time with lane comparisons, and the last ones
with the test of the plain path. Whatever the comparison, it packs the bits that the two tests
give (`fromSliceNeonWith_eq`); so it agrees with the plain path exactly when the two tests agree
on the coordinates that are compared in lanes.

* `binaryQuantized_fromSliceNeon_eq_iff`: the signs agree but for a negative zero, which is not
  less than zero and has its sign bit set.
* `binary_fromSliceNeon_eq`: "greater than zero" is the same test on both paths.
-/

namespace Hannoy.Codec

open Hannoy.Library Simd

variable {compare : Lanes F32 → Lanes UInt32} {test isSet : F32 → Bool} {slice : List F32}

/-! ## One byte -/

/-- The masks select the bits of a byte. -/
theorem lanes_byteOfBits : ∀ b0 b1 b2 b3 b4 b5 b6 b7 : Bool,
    ((0 : UInt8) ||| (vaddvqU32 (vandqU32
        ⟨laneMask b0, laneMask b1, laneMask b2, laneMask b3⟩ lowMask)).toUInt8) |||
      (vaddvqU32 (vandqU32
        ⟨laneMask b4, laneMask b5, laneMask b6, laneMask b7⟩ highMask)).toUInt8 =
    byteOfBits [b0, b1, b2, b3, b4, b5, b6, b7] := by
  decide +kernel

/-- The byte of eight coordinates has the bits that the comparison gives. -/
theorem neonByte_eq (hcompare : ∀ v, compare v = v.map fun a => laneMask (test a)) {i : Nat}
    (hi : 8 * i + 8 ≤ slice.length) :
    neonByte compare slice i = some (byteOfBits (((slice.drop (8 * i)).take 8).map test)) := by
  obtain ⟨v, hv, hvl⟩ := Lanes.exists_load (show i * 8 + 4 ≤ slice.length by omega)
  obtain ⟨w, hw, hwl⟩ := Lanes.exists_load (show i * 8 + 4 + 4 ≤ slice.length by omega)
  have height : (slice.drop (8 * i)).take 8 = v.toList ++ w.toList := by
    rw [hvl, hwl, Nat.mul_comm 8, ← List.drop_drop, ← List.take_add]
  have hbyte : neonByte compare slice i =
      some (((0 : UInt8) ||| (vaddvqU32 (vandqU32 (compare v) lowMask)).toUInt8) |||
        (vaddvqU32 (vandqU32 (compare w) highMask)).toUInt8) := by
    simp only [neonByte, List.zipIdx_cons, List.zipIdx_nil, List.foldlM_cons, List.foldlM_nil, hv,
      hw, Nat.mul_zero, Nat.mul_one, Nat.add_zero, Nat.zero_add, Option.bind_eq_bind,
      Option.bind_some, Option.pure_def]
  rw [hbyte, height, hcompare, hcompare]
  exact congrArg some (lanes_byteOfBits _ _ _ _ _ _ _ _)

/-- The last coordinates are shifted into a byte. -/
theorem foldr_byteOfBits : ∀ {l : List F32}, l.length ≤ 8 →
    l.foldr (fun r (rem : UInt8) => (rem <<< 1) ||| (isSet r).toUInt8) 0 =
      byteOfBits (l.map isSet)
  | [], _ => rfl
  | r :: l, h => by
    have hlen : l.length + 1 ≤ 8 := h
    have hlt : ofBits (l.map isSet) < 2 ^ 7 := (ofBits_lt _).trans_le
      (Nat.pow_le_pow_right (by decide) (by rw [List.length_map]; omega))
    have hb := (isSet r).toNat_lt
    have hbit : (isSet r).toUInt8.toNat = (isSet r).toNat := by cases isSet r <;> rfl
    rw [List.foldr_cons, foldr_byteOfBits (by omega), ← UInt8.toNat_inj, UInt8.toNat_or,
      UInt8.toNat_shiftLeft, hbit, byteOfBits, byteOfBits, UInt8.toNat_ofNat', UInt8.toNat_ofNat',
      Nat.mod_eq_of_lt (hlt.trans (by decide)), show (1 : UInt8).toNat % 8 = 1 from rfl,
      Nat.mod_eq_of_lt (by rw [Nat.shiftLeft_eq]; omega),
      ← Nat.shiftLeft_add_eq_or_of_lt (by omega), Nat.shiftLeft_eq]
    show _ = (2 * ofBits (l.map isSet) + (isSet r).toNat) % 2 ^ 8
    omega

/-! ## All bytes -/

/-- The length is the one of whole words, and there is room for the last byte. -/
theorem neonLength_spec (n : Nat) :
    8 * neonLength (n / 8) (n % 8) = 64 * chunkCount 64 n ∧
      n / 8 ≤ neonLength (n / 8) (n % 8) ∧
      (n % 8 ≠ 0 → n / 8 < neonLength (n / 8) (n % 8)) := by
  unfold neonLength chunkCount
  split_ifs <;> omega

theorem flatMap_take_drop (l : List F32) : ∀ k : Nat, 8 * k ≤ l.length →
    (List.range k).flatMap (fun i => (l.drop (8 * i)).take 8) = l.take (8 * k)
  | 0, _ => rfl
  | k + 1, h => by
    rw [List.range_succ, List.flatMap_append, flatMap_take_drop l k (by omega),
      List.flatMap_singleton, Nat.mul_succ, List.take_add]

/-- The bits that are packed: those of the comparison, and those of the test at the end. -/
def neonBits (test isSet : F32 → Bool) (slice : List F32) : List Bool :=
  (slice.take (8 * (slice.length / 8))).map test ++ (slice.drop (8 * (slice.length / 8))).map isSet

@[simp] theorem length_neonBits : (neonBits test isSet slice).length = slice.length := by
  rw [neonBits, List.length_append, List.length_map, List.length_map, ← List.length_append,
    List.take_append_drop]

/-- The bits of whole bytes. -/
theorem flatMap_byteBits_map {k : Nat} (hk : 8 * k ≤ slice.length) :
    ((List.range k).map fun i => byteOfBits (((slice.drop (8 * i)).take 8).map test)).flatMap
      byteBits = (slice.take (8 * k)).map test := by
  have hbits : ∀ i ∈ List.range k, byteBits (byteOfBits (((slice.drop (8 * i)).take 8).map test)) =
      ((slice.drop (8 * i)).take 8).map test := by
    intro i hi
    have hi := List.mem_range.mp hi
    have hlen : (((slice.drop (8 * i)).take 8).map test).length = 8 := by
      rw [List.length_map, List.length_take, List.length_drop]
      omega
    rw [byteBits_byteOfBits hlen.le, hlen, Nat.sub_self, List.replicate_zero, List.append_nil]
  rw [List.flatMap_map, List.flatMap_congr hbits, ← List.map_flatMap, flatMap_take_drop slice k hk]

theorem flatMap_byteBits_replicate (k : Nat) :
    (List.replicate k (0 : UInt8)).flatMap byteBits = List.replicate (8 * k) false := by
  induction k with
  | zero => rfl
  | succ k ih =>
    have hzero : byteBits 0 = List.replicate 8 false := rfl
    rw [List.replicate_succ, List.flatMap_cons, ih, hzero, List.replicate_append_replicate,
      Nat.mul_succ, Nat.add_comm]

/-- The loop writes the whole bytes one after the other. -/
theorem neonLoop_eq (hcompare : ∀ v, compare v = v.map fun a => laneMask (test a)) {k len : Nat}
    (hk : 8 * k ≤ slice.length) (hlen : k ≤ len) :
    (List.range k).foldlM (fun ret i => do
        let byte ← neonByte compare slice i
        setAt ret i byte) (List.replicate len 0) =
      some (((List.range k).map fun i => byteOfBits (((slice.drop (8 * i)).take 8).map test)) ++
        List.replicate (len - k) 0) := by
  have hwrite := @foldlM_write _ _ 1
    (fun i => [byteOfBits (((slice.drop (8 * i)).take 8).map test)])
    (fun ret i => do
      let byte ← neonByte compare slice i
      setAt ret i byte) (fun _ => rfl) (List.range k) 0 [] (List.replicate len 0) rfl
    (by rw [List.length_range, List.length_replicate]; omega) (by
      intro i x hx front mid back hfront hmid
      obtain ⟨hi, rfl⟩ := List.getElem?_eq_some_iff.mp hx
      rw [List.length_range] at hi
      obtain ⟨b, rfl⟩ := List.length_eq_one_iff.mp hmid
      rw [List.getElem_range, neonByte_eq hcompare (by omega), Option.bind_eq_bind,
        Option.bind_some, show i = front.length by omega]
      exact setAt_append front _ b back)
  rw [List.nil_append, List.nil_append, List.length_range, Nat.one_mul, List.drop_replicate,
    ← List.map_eq_flatMap] at hwrite
  exact hwrite

/-- **What `from_slice_neon` packs.** -/
theorem fromSliceNeonWith_eq (hcompare : ∀ v, compare v = v.map fun a => laneMask (test a)) :
    fromSliceNeonWith compare isSet slice = some (pack (neonBits test isSet slice)) := by
  obtain ⟨hlen, hle, hlt⟩ := neonLength_spec slice.length
  have hdiv := Nat.div_add_mod slice.length 8
  unfold fromSliceNeonWith
  dsimp only
  rw [neonLoop_eq hcompare (by omega) hle, Option.bind_eq_bind, Option.bind_some]
  set k := slice.length / 8 with hk
  set len := neonLength k (slice.length % 8)
  by_cases hrem : slice.length % 8 = 0
  · -- the vector is a sequence of whole bytes
    rw [if_neg (not_not.mpr hrem)]
    refine congrArg some (eq_pack_iff.mpr ?_)
    rw [List.flatMap_append, flatMap_byteBits_map (by omega), flatMap_byteBits_replicate, padded,
      length_neonBits, neonBits, ← hk, List.drop_of_length_le (by omega), List.map_nil,
      List.append_nil, show 8 * (len - k) = 64 * chunkCount 64 slice.length - slice.length by omega]
  · -- the last byte is made of the remaining coordinates
    have hlt := hlt hrem
    have hlast : (slice.drop (slice.length - slice.length % 8)).length = slice.length % 8 := by
      rw [List.length_drop]
      omega
    have hset := setAt_append ((List.range k).map fun i =>
      byteOfBits (((slice.drop (8 * i)).take 8).map test))
      (byteOfBits ((slice.drop (slice.length - slice.length % 8)).map isSet)) 0
      (List.replicate (len - k - 1) 0)
    rw [List.length_map, List.length_range] at hset
    rw [if_pos hrem, foldr_byteOfBits (by omega), show len - k = 1 + (len - k - 1) by omega,
      ← List.replicate_append_replicate]
    refine hset.trans (congrArg some (eq_pack_iff.mpr ?_))
    rw [List.flatMap_append, List.flatMap_append, flatMap_byteBits_map (by omega),
      flatMap_byteBits_replicate, List.flatMap_singleton,
      byteBits_byteOfBits (by rw [List.length_map]; omega), List.length_map, hlast, padded,
      length_neonBits, neonBits, ← hk, show slice.length - slice.length % 8 = 8 * k by omega]
    simp only [List.append_assoc, List.replicate_append_replicate]
    rw [show 8 - slice.length % 8 + 8 * (len - k - 1) =
      64 * chunkCount 64 slice.length - slice.length by omega]

/-! ## The two tests -/

/-- Two encodings of a vector agree exactly when they keep the same bits. -/
theorem pack_inj {bits bits' : List Bool} (h : bits.length = bits'.length) :
    pack bits = pack bits' ↔ bits = bits' := by
  rw [pack_eq_iff, padded, padded, h]
  exact List.append_left_inj _

/-- The paths agree exactly when the tests do, where coordinates are compared in lanes. -/
theorem fromSliceNeonWith_eq_iff
    (hcompare : ∀ v, compare v = v.map fun a => laneMask (test a)) :
    fromSliceNeonWith compare isSet slice = some (pack (slice.map isSet)) ↔
      ∀ a ∈ slice.take (8 * (slice.length / 8)), test a = isSet a := by
  have hsplit : slice.map isSet = (slice.take (8 * (slice.length / 8))).map isSet ++
      (slice.drop (8 * (slice.length / 8))).map isSet := by
    rw [← List.map_append, List.take_append_drop]
  rw [fromSliceNeonWith_eq hcompare, Option.some_inj,
    pack_inj (by rw [length_neonBits, List.length_map]), neonBits, hsplit, List.append_left_inj,
    List.map_inj_left]

/-- Less than zero: the sign bit is set, and it is not a zero. -/
theorem flt_zero {a : F32} (ha : a.isNaN = false) : a.flt F32.zero = (a.signBit && !a.isZero) := by
  have hz : F32.zero.isNaN = false ∧ F32.zero.signBit = false ∧ F32.zero.isZero = true ∧
      F32.zero.magnitude = 0 := by decide
  obtain ⟨h1, h2, h3, h4⟩ := hz
  rw [F32.flt, ha, h1, h2, h3, h4]
  cases a.signBit <;> simp

/-- Greater than zero: the sign bit is clear, and it is not a zero. -/
theorem zero_flt {a : F32} (ha : a.isNaN = false) : F32.zero.flt a = (!a.signBit && !a.isZero) := by
  have hz : F32.zero.isNaN = false ∧ F32.zero.signBit = false ∧ F32.zero.magnitude = 0 := by decide
  obtain ⟨h1, h2, h3⟩ := hz
  rw [F32.flt, ha, h1, h2, h3]
  cases a.signBit <;> simp [F32.isZero, Nat.pos_iff_ne_zero]

theorem toNat_bits (a : F32) : a.bits.toNat = 2 ^ 31 * a.signBit.toNat + a.magnitude := by
  have hlt := a.bits.toNat_lt
  have hsign : a.signBit = decide (2 ^ 31 ≤ a.bits.toNat) := by
    rw [F32.signBit]
    exact decide_eq_decide.mpr UInt32.le_iff_toNat_le
  rw [hsign, F32.magnitude]
  by_cases h : 2 ^ 31 ≤ a.bits.toNat
  · rw [decide_eq_true h, Bool.toNat_true]
    omega
  · rw [decide_eq_false h, Bool.toNat_false]
    omega

theorem eq_minusZero_iff {a : F32} :
    a = F32.zero.neg ↔ a.signBit = true ∧ a.isZero = true := by
  constructor
  · rintro rfl
    decide
  · rintro ⟨hs, hz⟩
    have h := toNat_bits a
    rw [hs, (of_decide_eq_true hz : a.magnitude = 0)] at h
    exact F32.bits_injective (UInt32.toNat_inj.mp h)

/-- The sign tests of the two paths. -/
theorem not_flt_zero_eq_iff {a : F32} (ha : a.isNaN = false) :
    (!a.flt F32.zero) = a.isSignPositive ↔ a ≠ F32.zero.neg := by
  rw [flt_zero ha, F32.isSignPositive, ne_eq, eq_minusZero_iff]
  cases a.signBit <;> cases a.isZero <;> simp

/-- "Greater than zero" on the two paths. -/
theorem zero_flt_eq {a : F32} (ha : a.isNaN = false) : F32.zero.flt a = a.isPositiveBits := by
  have h := toNat_bits a
  have hlt := Nat.mod_lt a.bits.toNat (show 0 < 2 ^ 31 by decide)
  rw [zero_flt ha, F32.isPositiveBits, F32.isZero, Bool.eq_iff_iff]
  simp only [Bool.and_eq_true, Bool.not_eq_true', decide_eq_true_iff, decide_eq_false_iff_not,
    UInt32.lt_iff_toNat_lt]
  rw [show (0x80000000 : UInt32).toNat = 2 ^ 31 from rfl, show (0 : UInt32).toNat = 0 from rfl, h]
  rw [← F32.magnitude] at hlt
  cases a.signBit
  · simp [Nat.pos_iff_ne_zero]
    omega
  · simp

/-! ## The two codecs -/

theorem compare_binaryQuantized (v : Lanes F32) :
    vmvnqU32 (vcltzqF32 v) = v.map fun a => laneMask (!a.flt F32.zero) := by
  have hnot : ∀ b : Bool, ~~~laneMask b = laneMask !b := by decide
  simp only [vmvnqU32, vcltzqF32, Lanes.map, hnot]

/-- **The paths of `BinaryQuantized` agree** exactly when no coordinate that is compared in lanes,
that is, none of the first `8 * ⌊len / 8⌋`, is a negative zero. -/
theorem binaryQuantized_fromSliceNeon_eq_iff (slice : List F32)
    (hnan : ∀ a ∈ slice, a.isNaN = false) :
    BinaryQuantized.fromSliceNeon slice = some (BinaryQuantized.fromSliceNonOptimized slice) ↔
      ∀ a ∈ slice.take (8 * (slice.length / 8)), a ≠ F32.zero.neg := by
  refine (fromSliceNeonWith_eq_iff compare_binaryQuantized).trans (forall₂_congr fun a ha => ?_)
  exact not_flt_zero_eq_iff (hnan a (List.mem_of_mem_take ha))

/-- A negative zero behind the last whole byte is tested as the plain path does. -/
theorem minusZero_at_the_end :
    BinaryQuantized.fromSliceNeon (List.replicate 8 F32.one ++ [F32.zero.neg]) =
      some (BinaryQuantized.fromSliceNonOptimized (List.replicate 8 F32.one ++ [F32.zero.neg])) :=
  (binaryQuantized_fromSliceNeon_eq_iff (List.replicate 8 F32.one ++ [F32.zero.neg])
    (by decide)).mpr (by decide)

/-- **A negative zero is encoded differently**: NEON takes it for a one, the plain path for a
minus one. -/
theorem minusZero_in_a_lane :
    (∀ a ∈ F32.zero.neg :: List.replicate 7 F32.one, a.isNaN = false) ∧
      BinaryQuantized.fromSliceNeon (F32.zero.neg :: List.replicate 7 F32.one) =
        some [0xff, 0, 0, 0, 0, 0, 0, 0] ∧
      BinaryQuantized.fromSliceNonOptimized (F32.zero.neg :: List.replicate 7 F32.one) =
        [0xfe, 0, 0, 0, 0, 0, 0, 0] ∧
      BinaryQuantized.fromSliceNeon (F32.zero.neg :: List.replicate 7 F32.one) ≠
        some (BinaryQuantized.fromSliceNonOptimized
          (F32.zero.neg :: List.replicate 7 F32.one)) := by
  decide +kernel

/-- **The paths of `Binary` agree**: they write whole words, one for each group of 64 coordinates
that is begun, in which a bit is set exactly when its coordinate is greater than zero. -/
theorem binary_fromSliceNeon_eq (slice : List F32) (hnan : ∀ a ∈ slice, a.isNaN = false) :
    Binary.fromSliceNeon slice = some (Binary.fromSliceNonOptimized slice) ∧
      (Binary.fromSliceNonOptimized slice).length = 8 * chunkCount 64 slice.length ∧
      ∀ k b, b < 8 → k < 8 * chunkCount 64 slice.length →
        ((Binary.fromSliceNonOptimized slice)[k]?.map fun byte => byte.toNat.testBit b) =
          some (slice[8 * k + b]?.any F32.zero.flt) := by
  refine ⟨(fromSliceNeonWith_eq_iff fun _ => rfl).mpr fun a ha =>
    zero_flt_eq (hnan a (List.mem_of_mem_take ha)), ?_, fun k b hb hk => ?_⟩
  · rw [Binary.fromSliceNonOptimized, length_pack, List.length_map]
  · rw [← getElem?_flatMap_byteBits _ k hb, Binary.fromSliceNonOptimized, flatMap_byteBits_pack,
      padded, List.length_map]
    cases hget : slice[8 * k + b]? with
    | none =>
      have hle := List.getElem?_eq_none_iff.mp hget
      rw [List.getElem?_append_right (by rwa [List.length_map]), List.length_map,
        List.getElem?_replicate, if_pos (by omega), Option.any_none]
    | some a =>
      obtain ⟨hlt, rfl⟩ := List.getElem?_eq_some_iff.mp hget
      rw [List.getElem?_append_left (by rwa [List.length_map]), List.getElem?_map, hget,
        Option.map_some, Option.any_some, zero_flt_eq (hnan _ (List.getElem_mem hlt))]

/-- A vector of nine coordinates, a negative zero and an infinity among them. -/
theorem binary_fromSliceNeon_nine :
    let slice := F32.zero.neg :: F32.infinity :: List.replicate 7 F32.one
    Binary.fromSliceNeon slice = some (Binary.fromSliceNonOptimized slice) ∧
      (Binary.fromSliceNonOptimized slice).length = 8 := by
  obtain ⟨heq, hlen, -⟩ := binary_fromSliceNeon_eq
    (F32.zero.neg :: F32.infinity :: List.replicate 7 F32.one) (by decide)
  exact ⟨heq, hlen⟩

end Hannoy.Codec
