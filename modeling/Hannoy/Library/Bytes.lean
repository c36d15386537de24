import Hannoy.Library.Bits
import Mathlib.Data.Nat.Bitwise

/-!
# Bits of bytes

A byte string is a stream of bits too: bit `8 * k + b` of the stream is bit `b` of byte `k`. For
whole words it is the stream the words are read as, so a packing that works on bytes can be
compared with one that works on words.

* `byteOfBits`, `byteBits`: a byte and its bits, lowest first.
* `unpack_eq_flatMap`: the bits of the words are the bits of the bytes.
* `eq_pack_iff`: what has the length and the bits of packed bits is packed bits.
-/

namespace Hannoy.Library

/-! ## Words as numbers -/

/-- The bits of a word are those of its number. -/
theorem wordBits_eq_map : ∀ (n : Nat) (word : UInt64),
    wordBits n word = (List.range n).map word.toNat.testBit
  | 0, _ => rfl
  | n + 1, word => by
    have hbit : (word &&& 1 == 1) = word.toNat.testBit 0 := by
      rw [Nat.testBit_zero, ← Nat.and_one_is_mod]
      refine Bool.eq_iff_iff.mpr ?_
      rw [beq_iff_eq, decide_eq_true_iff, ← UInt64.toNat_inj, UInt64.toNat_and]
      rfl
    have hshift : ∀ i, (word >>> 1).toNat.testBit i = word.toNat.testBit (i + 1) := by
      intro i
      rw [UInt64.toNat_shiftRight, Nat.testBit_shiftRight, Nat.add_comm]
      rfl
    rw [wordBits, wordBits_eq_map n, List.range_succ_eq_map, List.map_cons, List.map_map, hbit]
    exact congrArg _ (List.map_congr_left fun i _ => hshift i)

@[simp] theorem length_wordBits (n : Nat) (word : UInt64) : (wordBits n word).length = n := by
  rw [wordBits_eq_map, List.length_map, List.length_range]

/-- Bits put together and taken apart again. -/
theorem testBit_ofBits : ∀ (bits : List Bool) (i : Nat),
    (ofBits bits).testBit i = bits.getD i false
  | [], i => Nat.zero_testBit i
  | b :: bits, 0 => by
    show (2 * ofBits bits + b.toNat).testBit 0 = b
    cases b <;> simp [Nat.testBit_zero]
  | b :: bits, i + 1 => by
    show (2 * ofBits bits + b.toNat).testBit (i + 1) = bits.getD i false
    rw [← testBit_ofBits bits i, Nat.testBit_succ]
    congr 1
    have := b.toNat_lt
    omega

/-! ## Bytes -/

/-- The bits of a byte, lowest first. -/
def byteBits (b : UInt8) : List Bool := wordBits 8 b.toUInt64

/-- The byte with these bits, the first one lowest. -/
def byteOfBits (bits : List Bool) : UInt8 := UInt8.ofNat (ofBits bits)

theorem byteBits_eq_map (b : UInt8) : byteBits b = (List.range 8).map b.toNat.testBit := by
  rw [byteBits, wordBits_eq_map, UInt8.toNat_toUInt64]

@[simp] theorem length_byteBits (b : UInt8) : (byteBits b).length = 8 := length_wordBits 8 _

theorem byteBits_byteOfBits {bits : List Bool} (h : bits.length ≤ 8) :
    byteBits (byteOfBits bits) = bits ++ List.replicate (8 - bits.length) false := by
  have hlt : ofBits bits < 2 ^ 8 :=
    (ofBits_lt bits).trans_le (Nat.pow_le_pow_right (by decide) h)
  refine wordBits_packWord h ?_
  rw [UInt8.toNat_toUInt64, byteOfBits, UInt8.toNat_ofNat', Nat.mod_eq_of_lt hlt]

/-- A byte is its bits. -/
theorem byteOfBits_byteBits (b : UInt8) : byteOfBits (byteBits b) = b := by
  have hlt := b.toNat_lt
  rw [← UInt8.toNat_inj, byteOfBits, UInt8.toNat_ofNat',
    Nat.mod_eq_of_lt ((ofBits_lt _).trans_eq (by rw [length_byteBits]))]
  refine Nat.eq_of_testBit_eq fun i => ?_
  rw [testBit_ofBits, byteBits_eq_map]
  by_cases hi : i < 8
  · simp [List.getD_eq_getElem?_getD, hi]
  · rw [Nat.testBit_lt_two_pow (hlt.trans_le (Nat.pow_le_pow_right (by decide) (not_lt.mp hi)))]
    simp [List.getD_eq_getElem?_getD, hi]

/-! ## The stream of a byte string -/

/-- Where bit `8 * k + b` of the stream comes from. -/
theorem getElem?_flatMap_byteBits : ∀ (bytes : List UInt8) (k : Nat) {b : Nat}, b < 8 →
    (bytes.flatMap byteBits)[8 * k + b]? = bytes[k]?.map fun byte => byte.toNat.testBit b
  | [], k, b, _ => by simp
  | byte :: bytes, 0, b, hb => by
    rw [List.flatMap_cons, List.getElem?_append_left (by rw [length_byteBits]; omega),
      byteBits_eq_map]
    simp [hb]
  | byte :: bytes, k + 1, b, hb => by
    rw [List.flatMap_cons, List.getElem?_append_right (by rw [length_byteBits]; omega),
      length_byteBits, show 8 * (k + 1) + b - 8 = 8 * k + b by omega,
      getElem?_flatMap_byteBits bytes k hb, List.getElem?_cons_succ]

@[simp] theorem length_flatMap_byteBits (bytes : List UInt8) :
    (bytes.flatMap byteBits).length = 8 * bytes.length := by
  induction bytes with
  | nil => rfl
  | cons b bytes ih =>
    rw [List.flatMap_cons, List.length_append, ih, length_byteBits, List.length_cons]
    omega

theorem flatMap_byteBits_injective {bytes bytes' : List UInt8}
    (h : bytes.flatMap byteBits = bytes'.flatMap byteBits) : bytes = bytes' := by
  induction bytes generalizing bytes' with
  | nil =>
    have := congrArg List.length h
    rw [length_flatMap_byteBits, length_flatMap_byteBits, List.length_nil] at this
    exact (List.length_eq_zero_iff.mp (by omega)).symm
  | cons b bytes ih =>
    cases bytes' with
    | nil =>
      have := congrArg List.length h
      rw [length_flatMap_byteBits, length_flatMap_byteBits, List.length_nil,
        List.length_cons] at this
      omega
    | cons b' bytes' =>
      rw [List.flatMap_cons, List.flatMap_cons] at h
      obtain ⟨hhead, htail⟩ :=
        List.append_inj h (by rw [length_byteBits, length_byteBits])
      rw [← byteOfBits_byteBits b, hhead, byteOfBits_byteBits, ih htail]

/-! ## Words of bytes -/

/-- The number of a byte string, lowest byte first. -/
def ofBytes (bytes : List UInt8) : Nat := bytes.foldr (fun b n => b.toNat + 2 ^ 8 * n) 0

theorem ofBytes_eq_ofBits : ∀ bytes : List UInt8, ofBytes bytes = ofBits (bytes.flatMap byteBits)
  | [] => rfl
  | b :: bytes => by
    have happend : ∀ (bits rest : List Bool),
        ofBits (bits ++ rest) = ofBits bits + 2 ^ bits.length * ofBits rest := by
      intro bits rest
      induction bits with
      | nil => simp [ofBits]
      | cons c bits ih =>
        show 2 * ofBits (bits ++ rest) + c.toNat =
          2 * ofBits bits + c.toNat + 2 ^ (bits.length + 1) * ofBits rest
        rw [ih, Nat.pow_succ]
        grind
    have hb : ofBits (byteBits b) = b.toNat := by
      have hlt := (ofBits_lt (byteBits b)).trans_eq (congrArg (2 ^ ·) (length_byteBits b))
      have := congrArg UInt8.toNat (byteOfBits_byteBits b)
      rwa [byteOfBits, UInt8.toNat_ofNat', Nat.mod_eq_of_lt hlt] at this
    rw [List.flatMap_cons, happend, hb, length_byteBits, ← ofBytes_eq_ofBits bytes]
    rfl

/-- **The bits of a word are the bits of its bytes.** -/
theorem wordBits_wordOfBytes {bytes : List UInt8} (h : bytes.length = 8) :
    wordBits 64 (wordOfBytes bytes) = bytes.flatMap byteBits := by
  have hlen : (bytes.flatMap byteBits).length = 64 := by rw [length_flatMap_byteBits, h]
  have hword : (wordOfBytes bytes).toNat = ofBits (bytes.flatMap byteBits) := by
    show (UInt64.ofNat (ofBytes bytes)).toNat = _
    rw [ofBytes_eq_ofBits, UInt64.toNat_ofNat', Nat.mod_eq_of_lt]
    exact (ofBits_lt _).trans_eq (by rw [hlen])
  rw [wordBits_packWord hlen.le hword, hlen, Nat.sub_self, List.replicate_zero, List.append_nil]

/-- **The bits of whole words are the bits of their bytes.** -/
theorem unpack_eq_flatMap : ∀ {bytes : List UInt8}, 8 ∣ bytes.length →
    unpack bytes = bytes.flatMap byteBits
  | [], _ => rfl
  | b0 :: b1 :: b2 :: b3 :: b4 :: b5 :: b6 :: b7 :: bytes, h => by
    have h : 8 ∣ bytes.length + 8 := h
    rw [unpack, unpack_eq_flatMap (by omega), wordBits_wordOfBytes rfl, ← List.flatMap_append]
    rfl
  | [_], h | [_, _], h | [_, _, _], h | [_, _, _, _], h | [_, _, _, _, _], h
  | [_, _, _, _, _, _], h | [_, _, _, _, _, _, _], h => by
    simp at h

theorem dvd_length_pack (bits : List Bool) : 8 ∣ (pack bits).length :=
  ⟨_, length_pack bits⟩

/-- The bits of a packed list, byte by byte. -/
theorem flatMap_byteBits_pack (bits : List Bool) :
    (pack bits).flatMap byteBits = padded bits := by
  rw [← unpack_eq_flatMap (dvd_length_pack bits), unpack_pack]

/-- **What has the bits of a packed list is the packed list.** -/
theorem eq_pack_iff {bytes : List UInt8} {bits : List Bool} :
    bytes = pack bits ↔ bytes.flatMap byteBits = padded bits := by
  constructor
  · rintro rfl
    exact flatMap_byteBits_pack bits
  · intro h
    exact flatMap_byteBits_injective (h.trans (flatMap_byteBits_pack bits).symm)

end Hannoy.Library
