import Hannoy.Codec.Decode
import Hannoy.Codec.Encode

/-!
# What is read back is encoded as it was

A codec reads back bits that its tests tell apart on every path: neither a negative zero nor a NaN
is read back. So the encoding of a vector is restored from what it reads back as, cut to its length,
on whatever targets the three steps are made.

* `fromSliceOn_decoded`: every path packs the bits that were read.
* `reencode`: the round trip.
* `codecOn`: the codecs of a target, which carry it.
-/

namespace Hannoy.Codec

open Hannoy.Library Simd

variable {t t' t'' : Target}

/-! ## The packed codecs -/

/-- A path that packs the bits of its tests packs the bits that were read, if the tests tell them
apart. -/
theorem neonBits_decoded {test isSet : F32 → Bool} {decode : Bool → F32}
    (htest : ∀ bit, test (decode bit) = bit) (hset : ∀ bit, isSet (decode bit) = bit)
    (bits : List Bool) : neonBits test isSet (bits.map decode) = bits := by
  have hmap : ∀ {f : F32 → Bool}, (∀ bit, f (decode bit) = bit) →
      ∀ l : List Bool, (l.map decode).map f = l := by
    intro f hf l
    rw [List.map_map, show f ∘ decode = id from funext hf, List.map_id]
  rw [neonBits, ← List.map_take, ← List.map_drop, hmap htest, hmap hset, List.take_append_drop]

/-- The bits each path packs of a vector. -/
theorem exists_bits (t : Target) (v : List F32) {c : VectorCodec} (hc : c ≠ .f32) :
    ∃ bits : List Bool, bits.length = v.length ∧ c.fromSliceOn t v = some (pack bits) := by
  have hneon : ∀ {compare : Lanes F32 → Lanes UInt32} {test isSet : F32 → Bool},
      (∀ v, compare v = v.map fun a => laneMask (test a)) →
        ∃ bits : List Bool, bits.length = v.length ∧
          fromSliceNeonWith compare isSet v = some (pack bits) :=
    fun h => ⟨_, length_neonBits, fromSliceNeonWith_eq h⟩
  cases c with
  | f32 => exact absurd rfl hc
  | binaryQuantized =>
    cases t with
    | neon => exact hneon compare_binaryQuantized
    | plain | sse | avx => exact ⟨_, List.length_map _, rfl⟩
  | binary =>
    cases t with
    | neon => exact hneon fun _ => rfl
    | plain | sse | avx => exact ⟨_, List.length_map _, rfl⟩

/-- What a packed codec reads a bit as. -/
def readBit : VectorCodec → Bool → F32
  | .f32 => fun _ => F32.zero
  | .binaryQuantized => F32.signOfBit
  | .binary => F32.ofBit

theorem toVecOn_pack (t : Target) (bits : List Bool) {c : VectorCodec} (hc : c ≠ .f32) :
    c.toVecOn t (pack bits) = some ((padded bits).map (readBit c)) := by
  have hwhole := dvd_length_pack bits
  have hquantized : BinaryQuantized.toVecNonOptimized (pack bits) =
      (padded bits).map F32.signOfBit := by
    rw [BinaryQuantized.toVecNonOptimized, collect_start, unpack_pack]
  have hbinary : Binary.toVecNonOptimized (pack bits) = (padded bits).map F32.ofBit := by
    rw [Binary.toVecNonOptimized, collect_start, unpack_pack]
  cases c with
  | f32 => exact absurd rfl hc
  | binaryQuantized =>
    rw [readBit, ← hquantized]
    cases t with
    | plain => rfl
    | sse | avx => exact (binaryQuantized_toVec_eq hwhole).2
    | neon => exact (binaryQuantized_toVec_eq hwhole).1
  | binary =>
    rw [readBit, ← hbinary]
    cases t with
    | plain => rfl
    | sse | avx => exact (binary_toVec_eq hwhole).2
    | neon => exact (binary_toVec_eq hwhole).1

/-- **Every path packs the bits that were read.** -/
theorem fromSliceOn_decoded (t : Target) (bits : List Bool) {c : VectorCodec} (hc : c ≠ .f32) :
    c.fromSliceOn t (bits.map (readBit c)) = some (pack bits) := by
  have hplain : ∀ {encode : F32 → Bool} {decode : Bool → F32},
      (∀ bit, encode (decode bit) = bit) →
        some (pack ((bits.map decode).map encode)) = some (pack bits) := by
    intro encode decode h
    rw [List.map_map, show encode ∘ decode = id from funext h, List.map_id]
  cases c with
  | f32 => exact absurd rfl hc
  | binaryQuantized =>
    cases t with
    | neon =>
      have htest : ∀ bit, (!(F32.signOfBit bit).flt F32.zero) = bit := by decide +kernel
      exact (fromSliceNeonWith_eq compare_binaryQuantized).trans
        (congrArg (some ∘ pack) (neonBits_decoded htest F32.isSignPositive_signOfBit bits))
    | plain | sse | avx => exact hplain F32.isSignPositive_signOfBit
  | binary =>
    cases t with
    | neon =>
      have htest : ∀ bit, F32.zero.flt (F32.ofBit bit) = bit := by decide +kernel
      exact (fromSliceNeonWith_eq fun _ => rfl).trans
        (congrArg (some ∘ pack) (neonBits_decoded htest F32.isPositiveBits_ofBit bits))
    | plain | sse | avx => exact hplain F32.isPositiveBits_ofBit

/-! ## The round trip -/

/-- **What is read back is encoded as it was**, on whatever targets it is encoded, read back and
encoded again. -/
theorem reencode (t t' t'' : Target) (c : VectorCodec) (v : List F32) :
    ∃ bytes back, c.fromSliceOn t v = some bytes ∧ c.toVecOn t' bytes = some back ∧
      c.fromSliceOn t'' (back.take v.length) = some bytes := by
  by_cases hc : c = .f32
  · -- the plain codec keeps everything
    subst hc
    have hfrom : ∀ (t : Target) (w : List F32),
        VectorCodec.fromSliceOn t .f32 w = some (w.flatMap F32.toNeBytes) := by
      intro t w
      cases t <;> rfl
    have hto : ∀ (t : Target) (bytes : List UInt8),
        VectorCodec.toVecOn t .f32 bytes = some (readF32s bytes) := by
      intro t bytes
      cases t <;> rfl
    refine ⟨_, _, hfrom t v, hto t' _, ?_⟩
    rw [readF32s_flatMap, List.take_length]
    exact hfrom t'' v
  · obtain ⟨bits, hlen, hbytes⟩ := exists_bits t v hc
    refine ⟨_, _, hbytes, toVecOn_pack t' bits hc, ?_⟩
    rw [← List.map_take, ← hlen, padded, List.take_left]
    exact fromSliceOn_decoded t'' bits hc

/-- The codecs of a target; there always is an encoding. -/
def codecOn (t : Target) (c : VectorCodec) : UnalignedVectorCodec where
  fromSlice v := (c.fromSliceOn t v).getD []
  toVec bytes := (c.toVecOn t bytes).getD []
  len := c.codec.len
  wordSize := c.codec.wordSize
  fromSlice_toVec v := by
    obtain ⟨bytes, back, hbytes, hback, hagain⟩ := reencode t t t c v
    rw [hbytes, Option.getD_some, hback, Option.getD_some, hagain, Option.getD_some]

/-- The length of an encoding is a function of the length of its vector. -/
theorem length_fromSlice (t : Target) (c : VectorCodec) {v w : List F32}
    (h : v.length = w.length) :
    ((codecOn t c).fromSlice v).length = ((codecOn t c).fromSlice w).length := by
  by_cases hc : c = .f32
  · subst hc
    have hbytes : ∀ u : List F32, (u.flatMap F32.toNeBytes).length = u.length * 4 := by
      simp [List.length_flatMap, F32.toNeBytes]
    have hfrom : ∀ u, (codecOn t .f32).fromSlice u = u.flatMap F32.toNeBytes := by
      intro u
      cases t <;> rfl
    rw [hfrom, hfrom, hbytes, hbytes, h]
  · obtain ⟨bits, hlen, hbytes⟩ := exists_bits t v hc
    obtain ⟨bits', hlen', hbytes'⟩ := exists_bits t w hc
    show ((c.fromSliceOn t v).getD []).length = ((c.fromSliceOn t w).getD []).length
    rw [hbytes, hbytes', Option.getD_some, Option.getD_some, length_pack, length_pack, hlen, h,
      hlen']

end Hannoy.Codec
