import Hannoy.Library.Bytes
import Hannoy.Library.Lanes
import Hannoy.Model.Codec

/-!
# The packed codecs, as they are on each target (`binary.rs`, `binary_quantized.rs`)

What `from_slice` and `to_vec` compute on a target with vector instructions, and the iterator they
are compared with. Memory is little-endian. A load or a store outside of its buffer has no result
(`none`); nor has an index out of bounds.

* `Simd`: the instructions, as their documentation describes them.
* `fromSliceNeonWith`, `toVecWith`: what the two codecs have in common.
* `BitIterator`: `BinaryQuantizedIterator` and `BinaryIterator`, which differ in what a bit is read
  as.
* `Target`: which of the paths a target takes.
-/

namespace Hannoy

open Hannoy.Library

/-! ## Instructions -/

namespace Simd

/-- What a comparison leaves in a lane. -/
def laneMask (b : Bool) : UInt32 := if b then 0xffffffff else 0

/-- `vcltzq_f32`: less than zero. -/
def vcltzqF32 (v : Lanes F32) : Lanes UInt32 := v.map fun a => laneMask (a.flt F32.zero)

/-- `vcgtzq_f32`: greater than zero. -/
def vcgtzqF32 (v : Lanes F32) : Lanes UInt32 := v.map fun a => laneMask (F32.zero.flt a)

/-- `vmvnq_u32`. -/
def vmvnqU32 (v : Lanes UInt32) : Lanes UInt32 := v.map fun a => ~~~a

/-- `vandq_u32`. -/
def vandqU32 (v w : Lanes UInt32) : Lanes UInt32 := v.zipWith (· &&& ·) w

/-- `vaddvq_u32`: the sum of the lanes. -/
def vaddvqU32 (v : Lanes UInt32) : UInt32 := v.e0 + v.e1 + v.e2 + v.e3

/-- `vceqzq_u32`: equal to zero. -/
def vceqzqU32 (v : Lanes UInt32) : Lanes UInt32 := v.map fun a => laneMask (a == 0)

/-- `vcgtq_u32`. -/
def vcgtqU32 (v w : Lanes UInt32) : Lanes UInt32 := v.zipWith (fun a b => laneMask (b < a)) w

/-- `vbslq_f32`: the bits of `v` where the mask is set, those of `w` elsewhere. -/
def vbslqF32 (mask : Lanes UInt32) (v w : Lanes F32) : Lanes F32 :=
  mask.zipWith (fun m (p : F32 × F32) => ⟨(m &&& p.1.bits) ||| (~~~m &&& p.2.bits)⟩)
    (v.zipWith Prod.mk w)

/-- `_mm_cmpeq_epi32`. -/
def mmCmpeqEpi32 (v w : Lanes UInt32) : Lanes UInt32 := v.zipWith (fun a b => laneMask (a == b)) w

/-- `_mm_blendv_ps`: the lane of `w` where the highest bit of the mask is set. -/
def mmBlendvPs (v w : Lanes F32) (mask : Lanes UInt32) : Lanes F32 :=
  mask.zipWith (fun m (p : F32 × F32) => if 0x80000000 ≤ m then p.2 else p.1)
    (v.zipWith Prod.mk w)

/-- `_mm_set_epi32`: the lanes from the highest to the lowest. -/
def mmSetEpi32 (e3 e2 e1 e0 : UInt32) : Lanes UInt32 := ⟨e0, e1, e2, e3⟩

end Simd

open Simd

/-- `low` and `low_mask`. -/
def lowMask : Lanes UInt32 := ⟨0b00000001, 0b00000010, 0b00000100, 0b00001000⟩
/-- `high` and `high_mask`. -/
def highMask : Lanes UInt32 := ⟨0b00010000, 0b00100000, 0b01000000, 0b10000000⟩

/-! ## Encoding -/

/-- The byte of eight coordinates (`binary_quantized.rs:123-135`): `compare` is the comparison of
the codec. -/
def neonByte (compare : Lanes F32 → Lanes UInt32) (slice : List F32) (i : Nat) : Option UInt8 :=
  [lowMask, highMask].zipIdx.foldlM (fun byte (mask, idx) => do
    let lane ← Lanes.load slice (i * 8 + 4 * idx)
    let lane := vandqU32 (compare lane) mask
    pure (byte ||| (vaddvqU32 lane).toUInt8)) 0

/-- The size of the returned vector must be a multiple of a word. -/
def neonLength (iterations remaining : Nat) : Nat :=
  if iterations % 8 ≠ 0 then iterations + (8 - iterations % 8)
  -- a valid number of words, but a few bits are missing
  else if remaining ≠ 0 then iterations + 8
  else iterations

/-- `from_slice_neon` of a codec that compares lanes with `compare` and the last coordinates one by
one with `isSet`. -/
def fromSliceNeonWith (compare : Lanes F32 → Lanes UInt32) (isSet : F32 → Bool)
    (slice : List F32) : Option (List UInt8) := do
  let iterations := slice.length / 8
  let remaining := slice.length % 8
  let ret ← (List.range iterations).foldlM (fun ret i => do
    let byte ← neonByte compare slice i
    setAt ret i byte) (List.replicate (neonLength iterations remaining) 0)
  if remaining ≠ 0 then
    let rem := (slice.drop (slice.length - remaining)).foldr
      (fun r (rem : UInt8) => (rem <<< 1) ||| (isSet r).toUInt8) 0
    setAt ret iterations rem
  else pure ret

namespace BinaryQuantized

/-- `from_slice_non_optimized` (`binary_quantized.rs:80-91`). -/
def fromSliceNonOptimized (slice : List F32) : List UInt8 := pack (slice.map F32.isSignPositive)

/-- `from_slice_neon` (`binary_quantized.rs:93-154`). -/
def fromSliceNeon (slice : List F32) : Option (List UInt8) :=
  fromSliceNeonWith (fun lane => vmvnqU32 (vcltzqF32 lane)) F32.isSignPositive slice

end BinaryQuantized

namespace Binary

/-- `from_slice_non_optimized` (`binary.rs:80-94`). -/
def fromSliceNonOptimized (slice : List F32) : List UInt8 := pack (slice.map F32.isPositiveBits)

/-- `from_slice_neon` (`binary.rs:96-158`). -/
def fromSliceNeon (slice : List F32) : Option (List UInt8) :=
  fromSliceNeonWith vcgtzqF32 F32.isPositiveBits slice

end Binary

/-! ## Iteration -/

/-- `BinaryQuantizedIterator` and `BinaryIterator`; `iter` is what is left of `chunks_exact`. -/
structure BitIterator where
  currentElement : UInt64
  currentIteration : Nat
  iter : List UInt8
  deriving DecidableEq, Repr

namespace BitIterator

/-- `iter` of both codecs: the first word is pulled at once. -/
def start (bytes : List UInt8) : BitIterator := ⟨0, 64, bytes⟩

/-- The next word is pulled when the current one is used up. -/
def pull (it : BitIterator) : Option BitIterator :=
  if 64 ≤ it.currentIteration then
    match it.iter with
    | b0 :: b1 :: b2 :: b3 :: b4 :: b5 :: b6 :: b7 :: rest =>
      some ⟨wordOfBytes [b0, b1, b2, b3, b4, b5, b6, b7], 0, rest⟩
    | _ => none
  else some it

/-- The lowest bit of the current word is shifted out. -/
def shift (it : BitIterator) : Bool × BitIterator :=
  (it.currentElement &&& 1 == 1,
    { it with currentElement := it.currentElement >>> 1
              currentIteration := it.currentIteration + 1 })

/-- `next`, with the bit instead of what it is read as. -/
def next (it : BitIterator) : Option (Bool × BitIterator) := it.pull.map shift

/-- `size_hint`; `ChunksExact::size_hint` is exact. -/
def sizeHint (it : BitIterator) : Nat × Option Nat :=
  let low := it.iter.length / 8
  let rem := 64 - it.currentIteration
  (low * 64 + rem, some (low * 64 + rem))

/-- `ExactSizeIterator::len`. -/
def len (it : BitIterator) : Nat := it.sizeHint.1

theorem pull_some {it it' : BitIterator} (h : it.pull = some it') :
    it'.currentIteration < 64 ∧ it'.len = it.len := by
  unfold pull at h
  split at h
  · rename_i hfull
    split at h
    · rename_i hiter
      cases h
      refine ⟨Nat.zero_lt_succ 63, ?_⟩
      simp only [len, sizeHint, hiter, List.length_cons]
      omega
    · cases h
  · cases h
    exact ⟨by omega, rfl⟩

theorem len_shift {it : BitIterator} (h : it.currentIteration < 64) :
    it.shift.2.len + 1 = it.len := by
  simp only [len, sizeHint, shift]
  omega

theorem len_next {it it' : BitIterator} {bit : Bool} (h : it.next = some (bit, it')) :
    it'.len + 1 = it.len := by
  obtain ⟨pulled, hpull, hshift⟩ := Option.map_eq_some_iff.mp h
  obtain ⟨hlt, hlen⟩ := pull_some hpull
  have := len_shift hlt
  rw [hshift] at this
  rw [this, hlen]

/-- `collect`. -/
def collect (it : BitIterator) : List Bool :=
  match _h : it.next with
  | none => []
  | some (bit, it') => bit :: collect it'
termination_by it.len
decreasing_by
  have := len_next _h
  omega

/-- The iterator after `k` calls of `next`; a call that returns `None` leaves it as it is. -/
def advance : Nat → BitIterator → BitIterator
  | 0, it => it
  | k + 1, it =>
    match it.next with
    | none => advance k it
    | some (_, it') => advance k it'

end BitIterator

/-! ## Decoding -/

/-- `to_vec_neon` and `to_vec_sse`: `decode` makes four coordinates of a byte and a mask. -/
def toVecWith (decode : UInt8 → Lanes UInt32 → Lanes F32) (bytes : List UInt8) :
    Option (List F32) :=
  bytes.zipIdx.foldlM (fun output (base, currentByte) =>
    [lowMask, highMask].zipIdx.foldlM (fun output (mask, i) =>
      Lanes.store output (currentByte * 8 + i * 4) (decode base mask)) output)
    (List.replicate (bytes.length / 8 * 64) F32.zero)

namespace F32

/-- `-1.0`. -/
def minusOne : F32 := ⟨0xbf800000⟩

end F32

namespace BinaryQuantized

/-- `to_vec_non_optimized` (`binary_quantized.rs:156-158`). -/
def toVecNonOptimized (bytes : List UInt8) : List F32 :=
  (BitIterator.start bytes).collect.map F32.signOfBit

/-- `to_vec_neon` (`binary_quantized.rs:160-190`). -/
def toVecNeon (bytes : List UInt8) : Option (List F32) :=
  toVecWith (fun base mask =>
    let mask := vandqU32 (Lanes.splat base.toUInt32) mask
    -- 0xffffffff if equal to zero and 0x00000000 otherwise
    let mask := vceqzqU32 mask
    vbslqF32 mask (Lanes.splat F32.minusOne) (Lanes.splat F32.one)) bytes

/-- `to_vec_sse` (`binary_quantized.rs:192-219`). -/
def toVecSse (bytes : List UInt8) : Option (List F32) :=
  toVecWith (fun base mask =>
    let mask := mmSetEpi32 mask.e3 mask.e2 mask.e1 mask.e0
    let mask := vandqU32 (Lanes.splat base.toUInt32) mask
    -- 0xffffffff if equal to zero and 0x00000000 otherwise
    let mask := mmCmpeqEpi32 mask (Lanes.splat 0)
    mmBlendvPs (Lanes.splat F32.one) (Lanes.splat F32.minusOne) mask) bytes

end BinaryQuantized

namespace Binary

/-- `to_vec_non_optimized` (`binary.rs:160-162`). -/
def toVecNonOptimized (bytes : List UInt8) : List F32 :=
  (BitIterator.start bytes).collect.map F32.ofBit

/-- `to_vec_neon` (`binary.rs:164-194`). -/
def toVecNeon (bytes : List UInt8) : Option (List F32) :=
  toVecWith (fun base mask =>
    let mask := vandqU32 (Lanes.splat base.toUInt32) mask
    let mask := vcgtqU32 mask (Lanes.splat 0)
    vbslqF32 mask (Lanes.splat F32.one) (Lanes.splat F32.zero)) bytes

/-- `to_vec_sse` (`binary.rs:196-223`). -/
def toVecSse (bytes : List UInt8) : Option (List F32) :=
  toVecWith (fun base mask =>
    let mask := mmSetEpi32 mask.e3 mask.e2 mask.e1 mask.e0
    let mask := vandqU32 (Lanes.splat base.toUInt32) mask
    -- 0xffffffff if equal to zero and 0x00000000 otherwise
    let mask := mmCmpeqEpi32 mask (Lanes.splat 0)
    mmBlendvPs (Lanes.splat F32.one) (Lanes.splat F32.zero) mask) bytes

end Binary

/-! ## Targets -/

/-- A target: without vector instructions that the code uses, x86 with SSE, x86-64 with AVX and FMA
as well, or aarch64 with NEON. -/
inductive Target where
  | plain
  | sse
  | avx
  | neon
  deriving DecidableEq, Repr

/-- `from_slice` of a codec on a target. -/
def VectorCodec.fromSliceOn : Target → VectorCodec → List F32 → Option (List UInt8)
  | .neon, .binaryQuantized, slice => BinaryQuantized.fromSliceNeon slice
  | .neon, .binary, slice => Binary.fromSliceNeon slice
  | _, .binaryQuantized, slice => some (BinaryQuantized.fromSliceNonOptimized slice)
  | _, .binary, slice => some (Binary.fromSliceNonOptimized slice)
  | _, .f32, slice => some (f32Codec.fromSlice slice)

/-- `to_vec` of a codec on a target. -/
def VectorCodec.toVecOn : Target → VectorCodec → List UInt8 → Option (List F32)
  | .neon, .binaryQuantized, bytes => BinaryQuantized.toVecNeon bytes
  | .neon, .binary, bytes => Binary.toVecNeon bytes
  | .plain, .binaryQuantized, bytes => some (BinaryQuantized.toVecNonOptimized bytes)
  | .plain, .binary, bytes => some (Binary.toVecNonOptimized bytes)
  | _, .binaryQuantized, bytes => BinaryQuantized.toVecSse bytes
  | _, .binary, bytes => Binary.toVecSse bytes
  | _, .f32, bytes => some (f32Codec.toVec bytes)

end Hannoy
