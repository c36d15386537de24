import Hannoy.Codec.Encode

/-!
# Decoding, bit by bit and with vector instructions (`binary_quantized.rs:156-298`, `binary.rs`)

The iterator shifts 64-bit words; `to_vec_neon` and `to_vec_sse` select the bits of a byte with two
masks. All of them read the bits of the bytes in order.

* `collect_start`: what the iterator yields.
* `len_advance`, `length_collect`: at every point its length is the number of bits to come.
* `toVecWith_eq`: what the vectorised paths store.
* `binaryQuantized_toVec_eq`, `binary_toVec_eq`: the paths of each codec agree.
-/

namespace Hannoy.Codec

open Hannoy.Library Simd BitIterator

variable {it it' : BitIterator} {bytes : List UInt8}

/-! ## The iterator -/

theorem collect_none (h : it.next = none) : it.collect = [] := by
  rw [collect]
  split
  · rfl
  · rename_i h'
    rw [h] at h'
    cases h'

theorem collect_some {bit : Bool} (h : it.next = some (bit, it')) :
    it.collect = bit :: it'.collect := by
  rw [collect]
  split
  · rename_i h'
    rw [h] at h'
    cases h'
  · rename_i h'
    rw [h] at h'
    cases h'
    rfl

/-- Pulling the next word first makes no difference. -/
theorem collect_of_pull (h : it.pull = some it') : it.collect = it'.collect := by
  have hlt := (pull_some h).1
  have hnext : it.next = some it'.shift := by rw [next, h, Option.map_some]
  have hnext' : it'.next = some it'.shift := by
    rw [next, pull, if_neg (not_le.mpr hlt), Option.map_some]
  rw [collect_some hnext, collect_some hnext']

/-- A word that is used up does not matter. -/
theorem collect_used (word : UInt64) (rest : List UInt8) :
    collect ⟨word, 64, rest⟩ = (start rest).collect := by
  have hpull : pull ⟨word, 64, rest⟩ = (start rest).pull := rfl
  cases h : (start rest).pull with
  | none => rw [collect_none (by rw [next, hpull, h]; rfl), collect_none (by rw [next, h]; rfl)]
  | some it => rw [collect_of_pull (hpull.trans h), collect_of_pull h]

/-- The bits that are left of a word, and then those of the words that follow. -/
theorem collect_word (rest : List UInt8) : ∀ (n : Nat) (word : UInt64), n ≤ 64 →
    collect ⟨word, 64 - n, rest⟩ = wordBits n word ++ (start rest).collect
  | 0, word, _ => collect_used word rest
  | n + 1, word, h => by
    have hnext : next ⟨word, 64 - (n + 1), rest⟩ =
        some (word &&& 1 == 1, ⟨word >>> 1, 64 - n, rest⟩) := by
      rw [next, pull, if_neg (by dsimp only; omega), Option.map_some, shift]
      dsimp only
      rw [show 64 - (n + 1) + 1 = 64 - n by omega]
    rw [collect_some hnext, collect_word rest n _ (by omega)]
    rfl

/-- **The iterator yields the bits of the words.** -/
theorem collect_start : ∀ bytes : List UInt8, (start bytes).collect = unpack bytes
  | b0 :: b1 :: b2 :: b3 :: b4 :: b5 :: b6 :: b7 :: rest => by
    have hpull : (start (b0 :: b1 :: b2 :: b3 :: b4 :: b5 :: b6 :: b7 :: rest)).pull =
        some ⟨wordOfBytes [b0, b1, b2, b3, b4, b5, b6, b7], 0, rest⟩ := rfl
    rw [collect_of_pull hpull, unpack, ← collect_start rest]
    exact collect_word rest 64 _ le_rfl
  | [] | [_] | [_, _] | [_, _, _] | [_, _, _, _] | [_, _, _, _, _] | [_, _, _, _, _, _]
  | [_, _, _, _, _, _, _] => collect_none rfl

/-- Nothing is left when there is no next element. -/
theorem len_none (h : it.next = none) : it.len = 0 := by
  have hpull : it.pull = none := Option.map_eq_none_iff.mp h
  unfold pull at hpull
  split at hpull
  · rename_i hfull
    split at hpull
    · cases hpull
    · rename_i hshort
      have hlt : it.iter.length < 8 := by
        match hit : it.iter with
        | b0 :: b1 :: b2 :: b3 :: b4 :: b5 :: b6 :: b7 :: rest =>
          exact absurd hit (hshort b0 b1 b2 b3 b4 b5 b6 b7 rest)
        | [] | [_] | [_, _] | [_, _, _] | [_, _, _, _] | [_, _, _, _, _] | [_, _, _, _, _, _]
        | [_, _, _, _, _, _, _] => simp
      simp only [len, sizeHint]
      omega
  · cases hpull

/-- **The length is the number of elements to come.** -/
theorem length_collect (it : BitIterator) : it.collect.length = it.len := by
  induction h : it.len using Nat.strongRecOn generalizing it with
  | _ n ih =>
    cases hnext : it.next with
    | none => rw [collect_none hnext, ← h, len_none hnext, List.length_nil]
    | some p =>
      have hlen := len_next hnext
      rw [collect_some hnext, List.length_cons, ih _ (by omega) p.2 rfl, hlen, h]

/-- What is yielded after `k` calls. -/
theorem collect_advance : ∀ (k : Nat) (it : BitIterator),
    (it.advance k).collect = it.collect.drop k
  | 0, _ => rfl
  | k + 1, it => by
    unfold advance
    cases h : it.next with
    | none =>
      dsimp only
      rw [collect_advance k it, collect_none h, List.drop_nil, List.drop_nil]
    | some p =>
      dsimp only
      rw [collect_advance k p.2, collect_some h, List.drop_succ_cons]

/-- The iteration counter stays within the word, so `size_hint` does not underflow. -/
theorem currentIteration_le : ∀ (k : Nat) {it : BitIterator}, it.currentIteration ≤ 64 →
    (it.advance k).currentIteration ≤ 64
  | 0, _, h => h
  | k + 1, it, h => by
    unfold advance
    cases hnext : it.next with
    | none => exact currentIteration_le k h
    | some p =>
      obtain ⟨pulled, hpull, rfl⟩ := Option.map_eq_some_iff.mp hnext
      exact currentIteration_le k (pull_some hpull).1

/-! ## The vectorised paths -/

/-- What is stored for a byte. -/
theorem store_byte (decode : UInt8 → Lanes UInt32 → Lanes F32) (base : UInt8) {k : Nat}
    {front mid : List F32} (back : List F32) (hfront : front.length = 8 * k)
    (hmid : mid.length = 8) :
    [lowMask, highMask].zipIdx.foldlM (fun output (mask, i) =>
        Lanes.store output (k * 8 + i * 4) (decode base mask)) (front ++ (mid ++ back)) =
      some (front ++ ((decode base lowMask).toList ++ (decode base highMask).toList ++ back)) := by
  have htake : (mid.take 4).length = 4 := List.length_take_of_le (by omega)
  have hlow := Lanes.store_append front htake (mid.drop 4 ++ back) (decode base lowMask)
  have hhigh := Lanes.store_append (front ++ (decode base lowMask).toList)
    (by rw [List.length_drop, hmid] : (mid.drop 4).length = 4) back (decode base highMask)
  rw [← List.append_assoc (mid.take 4), List.take_append_drop, hfront, Nat.mul_comm] at hlow
  rw [List.length_append, hfront, Lanes.length_toList, Nat.mul_comm, List.append_assoc,
    List.append_assoc] at hhigh
  simp only [List.zipIdx_cons, List.zipIdx_nil, List.foldlM_cons, List.foldlM_nil, Nat.zero_mul,
    Nat.add_zero, Nat.zero_add, Nat.one_mul, hlow, hhigh, Option.bind_eq_bind, Option.bind_some,
    Option.pure_def, List.append_assoc]

/-- **What the vectorised paths store**: eight coordinates for each byte. -/
theorem toVecWith_eq (decode : UInt8 → Lanes UInt32 → Lanes F32) (h : 8 ∣ bytes.length) :
    toVecWith decode bytes = some (bytes.flatMap fun base =>
      (decode base lowMask).toList ++ (decode base highMask).toList) := by
  have hwrite := @foldlM_write _ _ 8
    (fun p : UInt8 × Nat => (decode p.1 lowMask).toList ++ (decode p.1 highMask).toList)
    (fun output p =>
      [lowMask, highMask].zipIdx.foldlM (fun output q =>
        Lanes.store output (p.2 * 8 + q.2 * 4) (decode p.1 q.1)) output)
    (fun _ => rfl) bytes.zipIdx 0 [] (List.replicate (bytes.length / 8 * 64) F32.zero) rfl
    (by rw [List.length_zipIdx, List.length_replicate]; omega) (by
      intro k x hx front mid back hfront hmid
      obtain ⟨hk, rfl⟩ := List.getElem?_eq_some_iff.mp hx
      rw [List.getElem_zipIdx]
      exact store_byte decode _ back hfront hmid)
  rw [toVecWith]
  refine hwrite.trans (congrArg some ?_)
  rw [List.nil_append, List.drop_of_length_le (by
    rw [List.length_zipIdx, List.length_replicate]; omega), List.append_nil, ← List.flatMap_map
      Prod.fst (fun base => (decode base lowMask).toList ++ (decode base highMask).toList),
    List.zipIdx_map_fst]

/-- The masks select the bits of a byte. -/
theorem vandqU32_masks (base : UInt8) :
    ((vandqU32 (Lanes.splat base.toUInt32) lowMask).toList ++
        (vandqU32 (Lanes.splat base.toUInt32) highMask).toList).map (· == 0) =
      (byteBits base).map fun bit => !bit := by
  have hall : ∀ n : Fin 256,
      ((vandqU32 (Lanes.splat (UInt8.ofNat n).toUInt32) lowMask).toList ++
          (vandqU32 (Lanes.splat (UInt8.ofNat n).toUInt32) highMask).toList).map (· == 0) =
        (byteBits (UInt8.ofNat n)).map fun bit => !bit := by
    decide +kernel
  have := hall ⟨base.toNat, base.toNat_lt⟩
  rwa [UInt8.ofNat_toNat] at this

/-- A path that reads a lane as `clear` when it is zero and as `set` otherwise reads the bits. -/
theorem toVecWith_select {decode : UInt8 → Lanes UInt32 → Lanes F32} {clear set : F32}
    (hdecode : ∀ base mask, decode base mask = (vandqU32 (Lanes.splat base.toUInt32) mask).map
      fun a => if (a == 0) = true then clear else set) (h : 8 ∣ bytes.length) :
    toVecWith decode bytes =
      some ((unpack bytes).map fun bit => if bit then set else clear) := by
  rw [toVecWith_eq decode h, unpack_eq_flatMap h, List.map_flatMap]
  congr 2
  funext base
  have hbits := congrArg (List.map fun z : Bool => if z then clear else set) (vandqU32_masks base)
  rw [List.map_map, List.map_map, List.map_append] at hbits
  rw [hdecode, hdecode, Lanes.toList_map, Lanes.toList_map]
  refine hbits.trans (List.map_congr_left fun bit _ => ?_)
  cases bit <;> rfl

/-! ## The two codecs -/

theorem vbslqF32_laneMask (c : UInt32 → Bool) (v : Lanes UInt32) (x y : F32) :
    vbslqF32 (v.map fun a => laneMask (c a)) (Lanes.splat x) (Lanes.splat y) =
      v.map fun a => if c a then x else y := by
  have hlane : ∀ b : Bool, (⟨(laneMask b &&& x.bits) ||| (~~~laneMask b &&& y.bits)⟩ : F32) =
      if b then x else y := by
    intro b
    cases b
    · simp [laneMask]
    · simp [laneMask, show (4294967295 : UInt32) = -1 from rfl]
  exact Lanes.ext (hlane _) (hlane _) (hlane _) (hlane _)

theorem mmBlendvPs_laneMask (c : UInt32 → Bool) (v : Lanes UInt32) (x y : F32) :
    mmBlendvPs (Lanes.splat x) (Lanes.splat y) (v.map fun a => laneMask (c a)) =
      v.map fun a => if c a then y else x := by
  have hlane : ∀ b : Bool, (if 0x80000000 ≤ laneMask b then y else x) = if b then y else x := by
    intro b
    cases b <;> rfl
  exact Lanes.ext (hlane _) (hlane _) (hlane _) (hlane _)

theorem signOfBit_eq : F32.signOfBit = fun bit => if bit then F32.one else F32.minusOne := by
  funext bit
  revert bit
  decide +kernel

theorem ofBit_eq : F32.ofBit = fun bit => if bit then F32.one else F32.zero := by
  funext bit
  revert bit
  decide +kernel

theorem binaryQuantized_toVecNonOptimized (bytes : List UInt8) :
    BinaryQuantized.toVecNonOptimized bytes = binaryQuantizedCodec.toVec bytes := by
  rw [BinaryQuantized.toVecNonOptimized, collect_start]
  rfl

theorem binary_toVecNonOptimized (bytes : List UInt8) :
    Binary.toVecNonOptimized bytes = binaryCodec.toVec bytes := by
  rw [Binary.toVecNonOptimized, collect_start]
  rfl

/-- The paths of `BinaryQuantized`. -/
theorem binaryQuantized_toVec_eq (h : 8 ∣ bytes.length) :
    BinaryQuantized.toVecNeon bytes = some (BinaryQuantized.toVecNonOptimized bytes) ∧
      BinaryQuantized.toVecSse bytes = some (BinaryQuantized.toVecNonOptimized bytes) := by
  rw [BinaryQuantized.toVecNonOptimized, collect_start, signOfBit_eq]
  exact ⟨toVecWith_select (fun base mask => vbslqF32_laneMask (· == 0) _ _ _) h,
    toVecWith_select (fun base mask => mmBlendvPs_laneMask (· == 0) _ _ _) h⟩

/-- The paths of `Binary`; here NEON compares with "greater than zero". -/
theorem binary_toVec_eq (h : 8 ∣ bytes.length) :
    Binary.toVecNeon bytes = some (Binary.toVecNonOptimized bytes) ∧
      Binary.toVecSse bytes = some (Binary.toVecNonOptimized bytes) := by
  rw [Binary.toVecNonOptimized, collect_start, ofBit_eq]
  refine ⟨toVecWith_select (fun base mask => ?_) h,
    toVecWith_select (fun base mask => mmBlendvPs_laneMask (· == 0) _ _ _) h⟩
  refine (vbslqF32_laneMask (fun a => decide (0 < a)) _ _ _).trans ?_
  have hpos : ∀ a : UInt32, (if decide (0 < a) = true then F32.one else F32.zero) =
      if (a == 0) = true then F32.zero else F32.one := by
    intro a
    by_cases ha : a = 0
    · rw [ha]
      rfl
    · rw [if_pos (decide_eq_true (UInt32.pos_iff_ne_zero.mpr ha)), if_neg (by simpa using ha)]
  simp only [hpos]

theorem getElem?_map_unpack {α : Type} (h : 8 ∣ bytes.length) (read : Bool → α) (k : Nat) {b : Nat}
    (hb : b < 8) : ((unpack bytes).map read)[8 * k + b]? =
      bytes[k]?.map fun byte => read (byte.toNat.testBit b) := by
  rw [unpack_eq_flatMap h, List.getElem?_map, getElem?_flatMap_byteBits _ k hb, Option.map_map]
  rfl

/-- **Decoding does not depend on the path**: on whole words the three paths of each codec return
the same coordinates, coordinate `8 * k + b` read from bit `b` of byte `k`, and at every point of
the iteration its length is the number of coordinates still to come. -/
theorem toVec_paths_agree (bytes : List UInt8) (h : 8 ∣ bytes.length) :
    (BinaryQuantized.toVecNeon bytes = some (BinaryQuantized.toVecNonOptimized bytes) ∧
      BinaryQuantized.toVecSse bytes = some (BinaryQuantized.toVecNonOptimized bytes) ∧
      ∀ k b, b < 8 → (BinaryQuantized.toVecNonOptimized bytes)[8 * k + b]? =
        bytes[k]?.map fun byte => if byte.toNat.testBit b then F32.one else F32.minusOne) ∧
    (Binary.toVecNeon bytes = some (Binary.toVecNonOptimized bytes) ∧
      Binary.toVecSse bytes = some (Binary.toVecNonOptimized bytes) ∧
      ∀ k b, b < 8 → (Binary.toVecNonOptimized bytes)[8 * k + b]? =
        bytes[k]?.map fun byte => if byte.toNat.testBit b then F32.one else F32.zero) ∧
    ∀ n, ((start bytes).advance n).currentIteration ≤ 64 ∧
      ((start bytes).advance n).sizeHint =
        (((start bytes).advance n).collect.length, some ((start bytes).advance n).collect.length) ∧
      ((start bytes).advance n).collect = (start bytes).collect.drop n := by
  refine ⟨⟨(binaryQuantized_toVec_eq h).1, (binaryQuantized_toVec_eq h).2, fun k b hb => ?_⟩,
    ⟨(binary_toVec_eq h).1, (binary_toVec_eq h).2, fun k b hb => ?_⟩,
    fun n => ⟨currentIteration_le n le_rfl, ?_, collect_advance n _⟩⟩
  · rw [BinaryQuantized.toVecNonOptimized, collect_start, signOfBit_eq,
      getElem?_map_unpack h _ k hb]
  · rw [Binary.toVecNonOptimized, collect_start, ofBit_eq, getElem?_map_unpack h _ k hb]
  · rw [length_collect]
    rfl

/-- Two words. -/
theorem toVec_paths_agree_words :
    let bytes : List UInt8 := [0x8a, 0, 0, 0, 0, 0, 0, 0x80, 1, 0, 0, 0, 0, 0, 0, 0]
    BinaryQuantized.toVecNeon bytes = some (BinaryQuantized.toVecNonOptimized bytes) ∧
      (BinaryQuantized.toVecNonOptimized bytes)[63]? = some F32.one := by
  obtain ⟨⟨hneon, -, hbit⟩, -, -⟩ := toVec_paths_agree
    [0x8a, 0, 0, 0, 0, 0, 0, 0x80, 1, 0, 0, 0, 0, 0, 0, 0] (by decide)
  exact ⟨hneon, (hbit 7 7 (by decide)).trans rfl⟩

end Hannoy.Codec
