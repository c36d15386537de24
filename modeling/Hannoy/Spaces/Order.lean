import Hannoy.Library.Compare
import Hannoy.Spaces.Rounding
import Mathlib.Data.List.Sort
import Mathlib.Order.WithBot

/-!
# `OrderedFloat` is the numeric order (`ordered_float.rs`)

`OrderedFloat` compares bit patterns. A pattern that is not NaN denotes an extended rational, and on
the patterns with a clear sign the two orders are the same: below the least normal number, from one
binade to the next, and up to infinity.

* `toExtRat`: the extended rational a pattern denotes.
* `compare_toExtRat`: `OrderedFloat` compares the numbers.
* `ordered_by_distance`: scored links, and sorted lists of them, are ordered by distance and then
  by id.
-/

namespace Hannoy.F32

open Hannoy.Library

/-- The extended rational a pattern that is not NaN denotes. -/
def toExtRat (a : F32) : WithBot (WithTop ℚ) :=
  if a.isInfinite then if a.signBit then ⊥ else ⊤ else ((a.toRat : WithTop ℚ) : WithBot (WithTop ℚ))

theorem infinity_bits_of_nonneg {a : F32} (ha : a.Nonneg) :
    a.isInfinite = true ↔ a = infinity := by
  have hlt := signBit_eq_false_iff.mp ha.1
  rw [isInfinite, decide_eq_true_iff, magnitude, Nat.mod_eq_of_lt hlt]
  constructor
  · exact fun h => bits_injective (UInt32.toNat_inj.mp h)
  · rintro rfl
    rfl

/-- Infinity is the greatest of them. -/
theorem le_infinity {a : F32} (ha : a.Nonneg) : a ≤ infinity := by
  have hlt := signBit_eq_false_iff.mp ha.1
  have hnan := ha.2
  rw [isNaN, decide_eq_false_iff_not, magnitude, Nat.mod_eq_of_lt hlt] at hnan
  rw [le_iff]
  exact Nat.le_of_not_lt hnan

theorem toExtRat_infinity : infinity.toExtRat = ⊤ := rfl

theorem toExtRat_finite {a : F32} (h : a.isInfinite = false) :
    a.toExtRat = ((a.toRat : WithTop ℚ) : WithBot (WithTop ℚ)) := by
  rw [toExtRat, h, if_neg Bool.false_ne_true]

/-- **The order of the patterns is the order of the numbers.** -/
theorem toExtRat_le_iff {a b : F32} (ha : a.Nonneg) (hb : b.Nonneg) :
    a.toExtRat ≤ b.toExtRat ↔ a ≤ b := by
  cases hbi : b.isInfinite with
  | true =>
    obtain rfl := (infinity_bits_of_nonneg hb).mp hbi
    rw [toExtRat_infinity]
    exact iff_of_true le_top (le_infinity ha)
  | false =>
    cases hai : a.isInfinite with
    | true =>
      obtain rfl := (infinity_bits_of_nonneg ha).mp hai
      have hne : ¬ infinity ≤ b := by
        intro hle
        rw [(infinity_bits_of_nonneg hb).mpr ((le_infinity hb).antisymm hle)] at hbi
        cases hbi
      rw [toExtRat_infinity, toExtRat_finite hbi]
      refine iff_of_false (fun htop => ?_) hne
      exact WithTop.coe_ne_top (WithBot.coe_injective (top_le_iff.mp htop))
    | false =>
      rw [toExtRat_finite hai, toExtRat_finite hbi, WithBot.coe_le_coe, WithTop.coe_le_coe]
      exact toRat_le_iff ha.1 hb.1

theorem toExtRat_lt_iff {a b : F32} (ha : a.Nonneg) (hb : b.Nonneg) :
    a.toExtRat < b.toExtRat ↔ a < b := by
  rw [← not_le, ← not_le, toExtRat_le_iff hb ha]

theorem toExtRat_eq_iff {a b : F32} (ha : a.Nonneg) (hb : b.Nonneg) :
    a.toExtRat = b.toExtRat ↔ a = b := by
  rw [le_antisymm_iff, le_antisymm_iff, toExtRat_le_iff ha hb, toExtRat_le_iff hb ha]

/-- `OrderedFloat` compares the numbers. -/
theorem compare_toExtRat {a b : F32} (ha : a.Nonneg) (hb : b.Nonneg) :
    compare a b = compare a.toExtRat b.toExtRat :=
  compare_congr (toExtRat_lt_iff ha hb).symm (toExtRat_lt_iff hb ha).symm

/-- Scored links are ordered by the number and then by the id. -/
theorem scored_le_iff {s t : ScoredLink} (hs : s.dist.Nonneg) (ht : t.dist.Nonneg) :
    s ≤ t ↔ s.dist.toExtRat < t.dist.toExtRat ∨
      s.dist.toExtRat = t.dist.toExtRat ∧ s.id ≤ t.id := by
  rw [Scored.le_def, toExtRat_lt_iff hs ht, toExtRat_eq_iff hs ht]

/-- **`OrderedFloat` is the numeric order on distances**: on patterns that are not NaN and have a
clear sign it compares the numbers, and keys `(OrderedFloat, id)` are ordered by distance and then
by id, one against the other as in a heap and in sorted lists. -/
theorem ordered_by_distance {a b : F32} (ha : a.Nonneg) (hb : b.Nonneg) :
    compare a b = compare a.toExtRat b.toExtRat ∧ (a = b ↔ a.toExtRat = b.toExtRat) ∧
      (∀ x y : ItemId, (⟨a, x⟩ : ScoredLink) ≤ ⟨b, y⟩ ↔
        a.toExtRat < b.toExtRat ∨ a.toExtRat = b.toExtRat ∧ x ≤ y) ∧
      ∀ l : List ScoredLink, (∀ s ∈ l, s.dist.Nonneg) →
        (l.insertionSort (· ≤ ·)).Pairwise fun s t => s.dist.toExtRat < t.dist.toExtRat ∨
          s.dist.toExtRat = t.dist.toExtRat ∧ s.id ≤ t.id := by
  refine ⟨compare_toExtRat ha hb, (toExtRat_eq_iff ha hb).symm, fun x y => scored_le_iff ha hb,
    fun l hl => ?_⟩
  refine (List.pairwise_insertionSort (· ≤ ·) l).imp_of_mem fun {s t} hs ht hle => ?_
  rw [List.mem_insertionSort] at hs ht
  exact (scored_le_iff (hl s hs) (hl t ht)).mp hle

/-- The greatest subnormal number is below the least normal one, and infinity is above all. -/
theorem ordered_by_distance_binades :
    compare (⟨0x007fffff⟩ : F32).toExtRat (⟨0x00800000⟩ : F32).toExtRat = .lt ∧
      compare maxValue.toExtRat infinity.toExtRat = .lt :=
  ⟨(ordered_by_distance (by decide) (by decide)).1.symm.trans (by decide),
    (ordered_by_distance (by decide) (by decide)).1.symm.trans (by decide)⟩

end Hannoy.F32
