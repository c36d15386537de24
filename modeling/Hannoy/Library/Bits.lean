import Mathlib.Algebra.Group.Nat.Defs
import Mathlib.Data.List.Basic

/-!
# Bits packed into words

A list of bits is cut into chunks of 64, each chunk is a little-endian word whose bit `i` is the
`i`-th bit of the chunk, and a word is written as its eight bytes. The last word is padded with
zeros.

* `packWord` builds a word the way a shift register does; `wordBits` reads it back.
* `unpack_pack`: what is packed is read back, with the padding.
* `pack_eq_iff`: two lists of bits are packed alike exactly when they are equal up to padding;
  `pack_eq_pack_take_iff` is the case where one is the other cut short.
-/

namespace Hannoy.Library

/-! ## Chunks -/

section chunks

variable {α : Type}

/-- The number of chunks of `n` elements needed for `len` of them. -/
def chunkCount (n len : Nat) : Nat := (len + n - 1) / n

/-- The consecutive pieces of `n` elements of a list; the last one may be shorter. -/
def chunks (n : Nat) (l : List α) : List (List α) :=
  (List.range (chunkCount n l.length)).map fun i => (l.drop (i * n)).take n

theorem chunkCount_zero {n : Nat} (hn : 0 < n) : chunkCount n 0 = 0 := by
  rw [chunkCount, Nat.zero_add]
  exact Nat.div_eq_of_lt (by omega)

theorem chunkCount_pos {n len : Nat} (hn : 0 < n) (hlen : 0 < len) :
    chunkCount n len = chunkCount n (len - n) + 1 := by
  unfold chunkCount
  by_cases h : len ≤ n
  · rw [Nat.sub_eq_zero_of_le h, Nat.zero_add, Nat.div_eq_of_lt (by omega : n - 1 < n),
      show len + n - 1 = len - 1 + n by omega, Nat.add_div_right _ hn,
      Nat.div_eq_of_lt (by omega : len - 1 < n)]
  · rw [show len + n - 1 = len - n + n - 1 + n by omega, Nat.add_div_right _ hn]

theorem chunks_ne_nil {n : Nat} (hn : 0 < n) {l : List α} (hl : l ≠ []) :
    chunks n l = l.take n :: chunks n (l.drop n) := by
  have hlen : 0 < l.length := List.length_pos_iff.mpr hl
  rw [chunks, chunks, chunkCount_pos hn hlen, List.range_succ_eq_map, List.map_cons, List.map_map,
    List.length_drop]
  congr 1
  · rw [Nat.zero_mul, List.drop_zero]
  · refine List.map_congr_left fun i _ => ?_
    rw [Function.comp_apply, List.drop_drop, Nat.succ_mul, Nat.add_comm]

/-- A list is empty, or a piece of at most `n` elements in front of the rest. -/
theorem chunks_induction {n : Nat} (hn : 0 < n) {motive : List α → Prop} (nil : motive [])
    (cons : ∀ l, l ≠ [] → motive (l.drop n) → motive l) (l : List α) : motive l := by
  induction h : l.length using Nat.strongRecOn generalizing l with
  | _ len ih =>
    by_cases hl : l = []
    · rw [hl]
      exact nil
    · refine cons l hl (ih _ ?_ _ rfl)
      have := List.length_pos_iff.mpr hl
      rw [List.length_drop]
      omega

end chunks

/-! ## Words -/

/-- The word with these bits, the first one lowest. -/
def packWord (bits : List Bool) : UInt64 :=
  bits.foldr (fun b word => (word <<< 1) + b.toUInt64) 0

/-- The `n` lowest bits of a word, lowest first. -/
def wordBits : Nat → UInt64 → List Bool
  | 0, _ => []
  | n + 1, word => (word &&& 1 == 1) :: wordBits n (word >>> 1)

/-- The bytes of a word, lowest first. -/
def wordBytes (word : UInt64) : List UInt8 :=
  [word.toUInt8, (word >>> 8).toUInt8, (word >>> 16).toUInt8, (word >>> 24).toUInt8,
    (word >>> 32).toUInt8, (word >>> 40).toUInt8, (word >>> 48).toUInt8, (word >>> 56).toUInt8]

/-- The word with these bytes. -/
def wordOfBytes (bytes : List UInt8) : UInt64 :=
  UInt64.ofNat (bytes.foldr (fun b n => b.toNat + 2 ^ 8 * n) 0)

/-- The number with these bits, the first one lowest. -/
def ofBits (bits : List Bool) : Nat := bits.foldr (fun b n => 2 * n + b.toNat) 0

theorem ofBits_lt (bits : List Bool) : ofBits bits < 2 ^ bits.length := by
  induction bits with
  | nil => exact Nat.one_pos
  | cons b bits ih =>
    have hb := b.toNat_lt
    show 2 * ofBits bits + b.toNat < 2 ^ (bits.length + 1)
    rw [Nat.pow_succ]
    omega

theorem toNat_packWord {bits : List Bool} (h : bits.length ≤ 64) :
    (packWord bits).toNat = ofBits bits := by
  induction bits with
  | nil => rfl
  | cons b bits ih =>
    have hlen : bits.length + 1 ≤ 64 := h
    have hlt : ofBits bits < 2 ^ 63 :=
      Nat.lt_of_lt_of_le (ofBits_lt bits) (Nat.pow_le_pow_right (by decide) (by omega))
    have hb := b.toNat_lt
    have hbit : b.toUInt64.toNat = b.toNat := by cases b <;> rfl
    show ((packWord bits <<< 1) + b.toUInt64).toNat = 2 * ofBits bits + b.toNat
    rw [UInt64.toNat_add, UInt64.toNat_shiftLeft, ih (by omega), hbit, Nat.shiftLeft_eq,
      show (1 : UInt64).toNat % 64 = 1 from rfl]
    omega

theorem wordBits_packWord : ∀ {n : Nat} {bits : List Bool} {word : UInt64},
    bits.length ≤ n → word.toNat = ofBits bits →
      wordBits n word = bits ++ List.replicate (n - bits.length) false
  | 0, bits, word, hlen, _ => by
    obtain rfl := List.length_eq_zero_iff.mp (Nat.le_zero.mp hlen)
    rfl
  | n + 1, [], word, _, hword => by
    have h0 : word = 0 := UInt64.toNat_inj.mp hword
    have hrest : wordBits n 0 = [] ++ List.replicate n false :=
      wordBits_packWord (Nat.zero_le n) rfl
    subst h0
    show ((0 : UInt64) &&& 1 == 1) :: wordBits n ((0 : UInt64) >>> 1) = _
    rw [show (0 : UInt64) >>> 1 = 0 from rfl, hrest]
    rfl
  | n + 1, b :: bits, word, hlen, hword => by
    have hword' : word.toNat = 2 * ofBits bits + b.toNat := hword
    have hb := b.toNat_lt
    have hshift : (word >>> 1).toNat = ofBits bits := by
      rw [UInt64.toNat_shiftRight, Nat.shiftRight_eq_div_pow, hword',
        show (1 : UInt64).toNat % 64 = 1 from rfl]
      omega
    have hbit : (word &&& 1 == 1) = b := by
      have hand : (word &&& 1).toNat = b.toNat := by
        rw [UInt64.toNat_and, show (1 : UInt64).toNat = 2 ^ 1 - 1 from rfl,
          Nat.and_two_pow_sub_one_eq_mod, hword']
        omega
      have : (word &&& 1) = b.toUInt64 := by
        rw [← UInt64.toNat_inj, hand]
        cases b <;> rfl
      rw [this]
      cases b <;> rfl
    show ((word &&& 1 == 1) :: wordBits n (word >>> 1)) = _
    rw [hbit, wordBits_packWord (Nat.le_of_succ_le_succ hlen) hshift, List.length_cons,
      Nat.succ_sub_succ]
    rfl

theorem wordOfBytes_wordBytes (word : UInt64) : wordOfBytes (wordBytes word) = word := by
  have hword := word.toNat_lt
  rw [← UInt64.toNat_inj]
  simp only [wordOfBytes, wordBytes, List.foldr_cons, List.foldr_nil, UInt64.toNat_ofNat',
    UInt64.toNat_toUInt8, UInt64.toNat_shiftRight, Nat.shiftRight_eq_div_pow,
    show (8 : UInt64).toNat % 64 = 8 from rfl, show (16 : UInt64).toNat % 64 = 16 from rfl,
    show (24 : UInt64).toNat % 64 = 24 from rfl, show (32 : UInt64).toNat % 64 = 32 from rfl,
    show (40 : UInt64).toNat % 64 = 40 from rfl, show (48 : UInt64).toNat % 64 = 48 from rfl,
    show (56 : UInt64).toNat % 64 = 56 from rfl]
  omega

/-! ## Streams -/

/-- Pack bits into the bytes of consecutive words. -/
def pack (bits : List Bool) : List UInt8 :=
  (chunks 64 bits).flatMap fun chunk => wordBytes (packWord chunk)

theorem length_pack (bits : List Bool) :
    (pack bits).length = 8 * chunkCount 64 bits.length := by
  have hword : ∀ chunk : List Bool, (wordBytes (packWord chunk)).length = 8 := fun _ => rfl
  simp [pack, chunks, List.length_flatMap, hword, Function.comp_def, Nat.mul_comm]

/-- The bits of the whole words of a byte string. -/
def unpack : List UInt8 → List Bool
  | b0 :: b1 :: b2 :: b3 :: b4 :: b5 :: b6 :: b7 :: rest =>
    wordBits 64 (wordOfBytes [b0, b1, b2, b3, b4, b5, b6, b7]) ++ unpack rest
  | _ => []

/-- The bits with the padding of their last word. -/
def padded (bits : List Bool) : List Bool :=
  bits ++ List.replicate (64 * chunkCount 64 bits.length - bits.length) false

theorem pack_ne_nil {bits : List Bool} (h : bits ≠ []) :
    pack bits = wordBytes (packWord (bits.take 64)) ++ pack (bits.drop 64) := by
  rw [pack, chunks_ne_nil (by decide) h, List.flatMap_cons]
  rfl

theorem unpack_wordBytes_append (word : UInt64) (bytes : List UInt8) :
    unpack (wordBytes word ++ bytes) = wordBits 64 word ++ unpack bytes := by
  show wordBits 64 (wordOfBytes (wordBytes word)) ++ unpack bytes = _
  rw [wordOfBytes_wordBytes]

theorem padded_ne_nil {bits : List Bool} (h : bits ≠ []) :
    padded bits = bits.take 64 ++ List.replicate (64 - (bits.take 64).length) false ++
      padded (bits.drop 64) := by
  have hcount := chunkCount_pos (n := 64) (by decide) (List.length_pos_iff.mpr h)
  unfold padded
  by_cases hlen : bits.length ≤ 64
  · rw [List.take_of_length_le hlen, List.drop_eq_nil_of_le hlen, hcount,
      Nat.sub_eq_zero_of_le hlen]
    simp [chunkCount_zero]
  · rw [List.length_take, Nat.min_eq_left (by omega), Nat.sub_self, List.replicate_zero,
      List.append_nil, ← List.append_assoc, List.take_append_drop, List.length_drop, hcount]
    congr 2
    omega

/-- **What is packed is read back**, with its padding. -/
theorem unpack_pack (bits : List Bool) : unpack (pack bits) = padded bits := by
  induction bits using chunks_induction (by decide : 0 < 64) with
  | nil => rfl
  | cons bits hne ih =>
    have htake : (bits.take 64).length ≤ 64 := List.length_take_le _ _
    rw [pack_ne_nil hne, unpack_wordBytes_append, ih,
      wordBits_packWord htake (toNat_packWord htake), padded_ne_nil hne]

theorem packWord_append_replicate (bits : List Bool) (k : Nat) :
    packWord (bits ++ List.replicate k false) = packWord bits := by
  have hzero : ∀ k, packWord (List.replicate k false) = 0 := by
    intro k
    induction k with
    | zero => rfl
    | succ k ih =>
      show (packWord (List.replicate k false) <<< 1) + false.toUInt64 = 0
      rw [ih]
      rfl
  rw [packWord, List.foldr_append]
  exact congrArg (fun (word : UInt64) =>
    bits.foldr (fun b (word : UInt64) => (word <<< 1) + b.toUInt64) word) (hzero k)

theorem pack_padded (bits : List Bool) : pack (padded bits) = pack bits := by
  induction bits using chunks_induction (by decide : 0 < 64) with
  | nil => rfl
  | cons bits hne ih =>
    have hpiece : (bits.take 64 ++
        List.replicate (64 - (bits.take 64).length) false).length = 64 := by
      have := List.length_take_le 64 bits
      rw [List.length_append, List.length_replicate]
      omega
    have hpadded : padded bits ≠ [] := by
      rw [← List.length_pos_iff, padded_ne_nil hne, List.length_append, hpiece]
      omega
    rw [pack_ne_nil hpadded, padded_ne_nil hne, List.take_left' hpiece, List.drop_left' hpiece,
      packWord_append_replicate, ih, pack_ne_nil hne]

/-- **Two lists are packed alike** exactly when they are equal up to padding. -/
theorem pack_eq_iff {bits bits' : List Bool} :
    pack bits = pack bits' ↔ padded bits = padded bits' := by
  constructor
  · intro h
    rw [← unpack_pack, ← unpack_pack, h]
  · intro h
    rw [← pack_padded, h, pack_padded]

theorem length_padded (bits : List Bool) :
    (padded bits).length = 64 * chunkCount 64 bits.length := by
  rw [padded, List.length_append, List.length_replicate]
  unfold chunkCount
  omega

/-- **Cutting a list does not change what is packed** exactly when the number of words stays and
only zeros are cut off. -/
theorem pack_eq_pack_take_iff {bits : List Bool} {d : Nat} (hd : d ≤ bits.length) :
    pack bits = pack (bits.take d) ↔
      chunkCount 64 bits.length = chunkCount 64 d ∧ ∀ b ∈ bits.drop d, b = false := by
  have hlen : (bits.take d).length = d := List.length_take_of_le hd
  have hsplit : padded bits = bits.take d ++ (bits.drop d ++
      List.replicate (64 * chunkCount 64 bits.length - bits.length) false) := by
    rw [← List.append_assoc, List.take_append_drop, padded]
  rw [pack_eq_iff]
  constructor
  · intro h
    have hcount := congrArg List.length h
    rw [length_padded, length_padded, hlen] at hcount
    refine ⟨Nat.eq_of_mul_eq_mul_left (by decide) hcount, fun b hb => ?_⟩
    rw [hsplit, padded] at h
    have htail := List.append_cancel_left h
    exact List.eq_of_mem_replicate (htail ▸ List.mem_append_left _ hb)
  · rintro ⟨hcount, hzero⟩
    rw [hsplit, padded, hlen, ← hcount, List.eq_replicate_of_mem hzero,
      List.replicate_append_replicate, List.length_drop]
    congr 2
    have := length_padded bits
    rw [padded, List.length_append] at this
    omega

end Hannoy.Library
