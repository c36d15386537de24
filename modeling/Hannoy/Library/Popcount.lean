import Hannoy.Library.Bytes

/-!
# Counting the bits in which two bit strings differ

The exclusive or of two words has a bit for each position in which they differ, so the number of
its ones can be counted byte by byte, word by word, or on the bits that were packed. Padding is the
same in both and counts nothing.

* `differing`: the number of positions in which two lists of bits differ.
* `sum_bytes`, `sum_words`: counted byte by byte and word by word.
* `differing_padded`: padding does not differ.
-/

namespace Hannoy.Library

/-- The number of positions in which two lists of bits differ. -/
def differing (a b : List Bool) : Nat := (a.zipWith xor b).count true

/-- `count_ones` of a byte. -/
def byteOnes (b : UInt8) : Nat := (byteBits b).count true

/-- `count_ones` of a word. -/
def wordOnes (word : UInt64) : Nat := (wordBits 64 word).count true

/-- The pieces of exactly `n` elements; what is left behind them is no piece. -/
def chunksExact {α : Type} (n : Nat) (l : List α) : List (List α) :=
  (List.range (l.length / n)).map fun i => (l.drop (i * n)).take n

/-- What is left behind the pieces. -/
def remainder {α : Type} (n : Nat) (l : List α) : List α := l.drop (l.length / n * n)

theorem chunksExact_of_le {α : Type} {n : Nat} (hn : 0 < n) {l : List α} (h : n ≤ l.length) :
    chunksExact n l = l.take n :: chunksExact n (l.drop n) ∧
      remainder n l = remainder n (l.drop n) := by
  have hdiv : l.length / n = (l.drop n).length / n + 1 := by
    rw [List.length_drop, ← Nat.add_div_right _ hn, Nat.sub_add_cancel h]
  constructor
  · rw [chunksExact, chunksExact, hdiv, List.range_succ_eq_map, List.map_cons, List.map_map,
      Nat.zero_mul, List.drop_zero]
    congr 1
    refine List.map_congr_left fun i _ => ?_
    rw [Function.comp_apply, List.drop_drop, Nat.succ_mul, Nat.add_comm]
  · rw [remainder, remainder, hdiv, List.drop_drop, Nat.succ_mul, Nat.add_comm]

theorem chunksExact_of_lt {α : Type} {n : Nat} {l : List α} (h : l.length < n) :
    chunksExact n l = [] ∧ remainder n l = l := by
  rw [chunksExact, remainder, Nat.div_eq_of_lt h, Nat.zero_mul, List.drop_zero]
  exact ⟨rfl, rfl⟩

/-! ## Exclusive or -/

theorem wordBits_xor (n : Nat) (v w : UInt64) :
    wordBits n (v ^^^ w) = (wordBits n v).zipWith xor (wordBits n w) := by
  rw [wordBits_eq_map, wordBits_eq_map, wordBits_eq_map, List.zipWith_map, List.zipWith_self]
  refine List.map_congr_left fun i _ => ?_
  rw [UInt64.toNat_xor, Nat.testBit_xor]

theorem byteBits_xor (v w : UInt8) :
    byteBits (v ^^^ w) = (byteBits v).zipWith xor (byteBits w) := by
  rw [byteBits, UInt8.toUInt64_xor]
  exact wordBits_xor 8 _ _

theorem byteOnes_xor (v w : UInt8) : byteOnes (v ^^^ w) = differing (byteBits v) (byteBits w) := by
  rw [byteOnes, byteBits_xor, differing]

theorem differing_append {a a' : List Bool} (h : a.length = a'.length) (b b' : List Bool) :
    differing (a ++ b) (a' ++ b') = differing a a' + differing b b' := by
  rw [differing, List.zipWith_append h, List.count_append]
  rfl

theorem differing_cons (s t : Bool) (a b : List Bool) :
    differing (s :: a) (t :: b) = (if s = t then 0 else 1) + differing a b := by
  have happend : differing (s :: a) (t :: b) = differing [s] [t] + differing a b :=
    @differing_append [s] [t] rfl a b
  rw [happend]
  cases s <;> cases t <;> rfl

theorem differing_self (a : List Bool) : differing a a = 0 := by
  rw [differing, List.zipWith_self, List.count_eq_zero]
  simp

/-- **Padding does not differ.** -/
theorem differing_padded {a b : List Bool} (h : a.length = b.length) :
    differing (padded a) (padded b) = differing a b := by
  rw [padded, padded, differing_append h, h, differing_self, Nat.add_zero]

theorem differing_le (a b : List Bool) : differing a b ≤ a.length := by
  refine (List.count_le_length).trans ?_
  rw [List.length_zipWith]
  exact Nat.min_le_left _ _

/-! ## Bytes and words -/

/-- **Counted byte by byte.** -/
theorem sum_bytes : ∀ u v : List UInt8,
    (u.zipWith (fun u v => byteOnes (u ^^^ v)) v).sum =
      differing (u.flatMap byteBits) (v.flatMap byteBits)
  | [], v => rfl
  | u :: us, [] => by simp [differing]
  | u :: us, v :: vs => by
    rw [List.zipWith_cons_cons, List.sum_cons, sum_bytes us vs, byteOnes_xor, List.flatMap_cons,
      List.flatMap_cons, differing_append (by rw [length_byteBits, length_byteBits])]

theorem wordOnes_xor {u v : List UInt8} (hu : u.length = 8) (hv : v.length = 8) :
    wordOnes (wordOfBytes u ^^^ wordOfBytes v) =
      differing (u.flatMap byteBits) (v.flatMap byteBits) := by
  rw [wordOnes, wordBits_xor, wordBits_wordOfBytes hu, wordBits_wordOfBytes hv, differing]

/-- **Counted word by word**, and byte by byte behind the last whole word. -/
theorem sum_words : ∀ {u v : List UInt8}, u.length = v.length →
    ((chunksExact 8 u).zipWith (fun u v => wordOnes (wordOfBytes u ^^^ wordOfBytes v))
        (chunksExact 8 v)).sum +
      ((remainder 8 u).zipWith (fun u v => byteOnes (u ^^^ v)) (remainder 8 v)).sum =
      differing (u.flatMap byteBits) (v.flatMap byteBits) := by
  intro u
  induction u using chunks_induction (by decide : 0 < 8) with
  | nil =>
    intro v h
    rw [List.eq_nil_of_length_eq_zero h.symm]
    rfl
  | cons u hne ih =>
    intro v h
    by_cases hu : 8 ≤ u.length
    · obtain ⟨hcu, hru⟩ := chunksExact_of_le (by decide) hu
      obtain ⟨hcv, hrv⟩ := chunksExact_of_le (by decide) (h ▸ hu : 8 ≤ v.length)
      have hlu : (u.take 8).length = 8 := List.length_take_of_le hu
      have hlv : (v.take 8).length = 8 := List.length_take_of_le (h ▸ hu)
      have hrest := ih (v := v.drop 8) (by rw [List.length_drop, List.length_drop, h])
      have hsplit : ∀ l : List UInt8, l.flatMap byteBits =
          (l.take 8).flatMap byteBits ++ (l.drop 8).flatMap byteBits := by
        intro l
        rw [← List.flatMap_append, List.take_append_drop]
      rw [hcu, hcv, hru, hrv, List.zipWith_cons_cons, List.sum_cons, Nat.add_assoc, hrest,
        wordOnes_xor hlu hlv, hsplit u, hsplit v, differing_append]
      rw [length_flatMap_byteBits, length_flatMap_byteBits, hlu, hlv]
    · obtain ⟨hcu, hru⟩ := chunksExact_of_lt (not_le.mp hu)
      obtain ⟨hcv, hrv⟩ := chunksExact_of_lt (h ▸ not_le.mp hu : v.length < 8)
      rw [hcu, hcv, hru, hrv, sum_bytes]
      exact Nat.zero_add _

end Hannoy.Library
