import Hannoy.Library.Bits
import Hannoy.Model.Item
import Mathlib.Algebra.GroupWithZero.Nat

/-!
# The packed codecs (`unaligned_vector/binary.rs`, `unaligned_vector/binary_quantized.rs`)

Both codecs keep one bit of each coordinate, packed into words of 64 bits; they differ in which bit
that is and in what a bit is read back as. The padding of the last word is read back too.

* `packedCodec` is the shape the two share.
* `VectorCodec` lists the codecs of the crate.
* `fromSlice_take`: re-encoding a vector cut to `d` coordinates gives the bytes of the whole vector
  exactly when the codec keeps nothing of what is cut off.
-/

namespace Hannoy

open Hannoy.Library

namespace F32

/-- `is_sign_positive`. -/
def isSignPositive (a : F32) : Bool := !a.signBit

/-- `bits < 0x8000_0000 && bits > 0x0000_0000`. -/
def isPositiveBits (a : F32) : Bool := a.bits < 0x80000000 && 0x00000000 < a.bits

/-- `bit as f32 * 2.0 - 1.0`. -/
def signOfBit (bit : Bool) : F32 := ((ofNat bit.toNat).mul (ofNat 2)).sub one

/-- `bit as f32`. -/
def ofBit (bit : Bool) : F32 := ofNat bit.toNat

theorem isSignPositive_signOfBit : ∀ bit, (signOfBit bit).isSignPositive = bit := by
  decide +kernel

theorem isPositiveBits_ofBit : ∀ bit, (ofBit bit).isPositiveBits = bit := by decide +kernel

end F32

/-! ## Packing -/

/-- What is read back from packed bits is re-encoded as it was, without its padding. -/
theorem pack_take_unpack {encode : F32 → Bool} {decode : Bool → F32}
    (h : ∀ bit, encode (decode bit) = bit) (v : List F32) :
    pack ((((unpack (pack (v.map encode))).map decode).take v.length).map encode) =
      pack (v.map encode) := by
  have hid : encode ∘ decode = id := funext h
  rw [unpack_pack, ← List.map_take, List.map_map, hid, List.map_id, padded,
    List.take_left' (List.length_map _)]

/-- A codec that keeps the bit `encode` of each coordinate, read back with `decode`. -/
def packedCodec (encode : F32 → Bool) (decode : Bool → F32)
    (h : ∀ bit, encode (decode bit) = bit) : UnalignedVectorCodec where
  fromSlice slice := pack (slice.map encode)
  toVec bytes := (unpack bytes).map decode
  len bytes := bytes.length / 8 * 64
  wordSize := 64
  fromSlice_toVec := pack_take_unpack h

/-- `BinaryQuantized`: the signs. -/
def binaryQuantizedCodec : UnalignedVectorCodec :=
  packedCodec F32.isSignPositive F32.signOfBit F32.isSignPositive_signOfBit

/-- `Binary`: whether a coordinate is greater than zero. -/
def binaryCodec : UnalignedVectorCodec :=
  packedCodec F32.isPositiveBits F32.ofBit F32.isPositiveBits_ofBit

/-- The codecs of `unaligned_vector/`. -/
inductive VectorCodec where
  | f32
  | binaryQuantized
  | binary
  deriving DecidableEq, Repr

def VectorCodec.codec : VectorCodec → UnalignedVectorCodec
  | f32 => f32Codec
  | binaryQuantized => binaryQuantizedCodec
  | binary => binaryCodec

/-- The bit a packed codec keeps of a coordinate; the plain codec keeps everything. -/
def VectorCodec.keeps? : VectorCodec → Option (F32 → Bool)
  | f32 => none
  | binaryQuantized => some F32.isSignPositive
  | binary => some F32.isPositiveBits

/-! ## The stored length -/

/-- **A stored vector is as long as its vector**, rounded up to the words of the codec. -/
theorem VectorCodec.len_fromSlice (v : List F32) : ∀ c : VectorCodec,
    c.codec.len (c.codec.fromSlice v) = chunkCount c.codec.wordSize v.length * c.codec.wordSize
  | f32 => by
    have hbytes : ∀ v : List F32, (v.flatMap F32.toNeBytes).length = v.length * 4 := by
      simp [List.length_flatMap, F32.toNeBytes]
    show (v.flatMap F32.toNeBytes).length / 4 = chunkCount 1 v.length * 1
    rw [hbytes, Nat.mul_div_cancel _ (by decide), chunkCount]
    omega
  | binaryQuantized => by
    show (pack (v.map _)).length / 8 * 64 = chunkCount 64 v.length * 64
    rw [length_pack, List.length_map, Nat.mul_div_cancel_left _ (by decide)]
  | binary => by
    show (pack (v.map _)).length / 8 * 64 = chunkCount 64 v.length * 64
    rw [length_pack, List.length_map, Nat.mul_div_cancel_left _ (by decide)]

/-! ## Cutting a vector -/

/-- Of the coordinates from `d` on, the codec keeps nothing: the plain one has none to keep, a
packed one writes as many words without them, and they are zeros in the last word. -/
def VectorCodec.KeepsNothingBeyond (d : Nat) (full : List F32) : VectorCodec → Prop
  | f32 => full.length = d
  | binaryQuantized => chunkCount 64 full.length = chunkCount 64 d ∧
      ∀ a ∈ full.drop d, a.isSignPositive = false
  | binary => chunkCount 64 full.length = chunkCount 64 d ∧
      ∀ a ∈ full.drop d, a.isPositiveBits = false

theorem pack_map_take_iff {encode : F32 → Bool} {full : List F32} {d : Nat}
    (hd : d ≤ full.length) :
    pack (full.map encode) = pack ((full.take d).map encode) ↔
      chunkCount 64 full.length = chunkCount 64 d ∧ ∀ a ∈ full.drop d, encode a = false := by
  rw [List.map_take, pack_eq_pack_take_iff (by rwa [List.length_map]), List.length_map,
    ← List.map_drop, List.forall_mem_map]

/-- **A vector is encoded like its first `d` coordinates** exactly when the codec keeps nothing
beyond them. -/
theorem VectorCodec.fromSlice_take {full : List F32} {d : Nat} (hd : d ≤ full.length) :
    ∀ c : VectorCodec, c.codec.fromSlice full = c.codec.fromSlice (full.take d) ↔
      c.KeepsNothingBeyond d full
  | f32 => by
    constructor
    · intro h
      have hread := congrArg readF32s h
      simp only [codec, f32Codec, readF32s_flatMap] at hread
      show full.length = d
      rw [hread, List.length_take_of_le hd]
    · intro h
      have h : full.length = d := h
      rw [← h, List.take_length]
  | binaryQuantized => pack_map_take_iff hd
  | binary => pack_map_take_iff hd

/-- What a packed codec reads back: the kept bits, and zeros up to the next word. -/
theorem map_unpack_pack (encode : F32 → Bool) (decode : Bool → F32) (v : List F32) :
    (unpack (pack (v.map encode))).map decode = v.map (decode ∘ encode) ++
      List.replicate (64 * chunkCount 64 v.length - v.length) (decode false) := by
  rw [unpack_pack, padded, List.map_append, List.map_map, List.map_replicate, List.length_map]

theorem mul_chunkCount_eq_iff {d : Nat} : 64 * chunkCount 64 d - d = 0 ↔ 64 ∣ d := by
  unfold chunkCount
  omega

theorem chunkCount_mul_chunkCount (d : Nat) :
    chunkCount 64 (d + (64 * chunkCount 64 d - d)) = chunkCount 64 d := by
  unfold chunkCount
  omega

/-- Zeros beyond `d` up to the next word are kept by the plain codec, and by a packed one that
reads them as ones. -/
theorem keepsNothing_padding {a : List F32} {d : Nat} (ha : a.length = d) (z : F32) :
    ∀ c : VectorCodec, c.KeepsNothingBeyond d
        (a ++ List.replicate (64 * chunkCount 64 d - d) z) ↔
      64 ∣ d ∨ ∃ keeps ∈ c.keeps?, keeps z = false := by
  subst ha
  have hpacked : ∀ encode : F32 → Bool,
      (chunkCount 64 (a ++ List.replicate (64 * chunkCount 64 a.length - a.length) z).length =
          chunkCount 64 a.length ∧
        ∀ b ∈ (a ++ List.replicate (64 * chunkCount 64 a.length - a.length) z).drop a.length,
          encode b = false) ↔ 64 ∣ a.length ∨ encode z = false := by
    intro encode
    rw [List.length_append, List.length_replicate, chunkCount_mul_chunkCount, List.drop_left,
      ← mul_chunkCount_eq_iff]
    simp only [List.mem_replicate, true_and]
    grind
  intro c
  cases c with
  | f32 =>
    show (a ++ _).length = a.length ↔ _
    rw [List.length_append, List.length_replicate, ← mul_chunkCount_eq_iff]
    simp [VectorCodec.keeps?]
  | binaryQuantized =>
    refine (hpacked _).trans ?_
    simp [VectorCodec.keeps?]
  | binary =>
    refine (hpacked _).trans ?_
    simp [VectorCodec.keeps?]

/-- **The padding is lost in a re-encoding** exactly when there is none, or when the codecs agree
that it is zero. -/
theorem keepsNothing_fromSlice (c nc : VectorCodec) (v : List F32) :
    nc.KeepsNothingBeyond v.length (c.codec.toVec (c.codec.fromSlice v)) ↔
      c = .f32 ∨ 64 ∣ v.length ∨
        (nc ≠ .f32 ∧ ¬ (c = .binary ∧ nc = .binaryQuantized)) := by
  have hz : F32.isSignPositive (F32.signOfBit false) = false ∧
      F32.isPositiveBits (F32.signOfBit false) = false ∧
      F32.isPositiveBits (F32.ofBit false) = false ∧
      F32.isSignPositive (F32.ofBit false) = true := by decide +kernel
  obtain ⟨hqq, hqb, hbb, hbq⟩ := hz
  cases c with
  | f32 =>
    show nc.KeepsNothingBeyond v.length (readF32s (v.flatMap F32.toNeBytes)) ↔ _
    rw [readF32s_flatMap]
    cases nc <;> simp [VectorCodec.KeepsNothingBeyond]
  | binaryQuantized =>
    show nc.KeepsNothingBeyond v.length ((unpack (pack (v.map _))).map _) ↔ _
    rw [map_unpack_pack, keepsNothing_padding (List.length_map _)]
    cases nc <;> simp [VectorCodec.keeps?, hqq, hqb]
  | binary =>
    show nc.KeepsNothingBeyond v.length ((unpack (pack (v.map _))).map _) ↔ _
    rw [map_unpack_pack, keepsNothing_padding (List.length_map _)]
    cases nc <;> simp [VectorCodec.keeps?, hbb, hbq]

end Hannoy
