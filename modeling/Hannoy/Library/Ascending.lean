import Mathlib.Data.Finset.Sort
import Mathlib.Data.List.Sort

/-!
# Enumerating a finite set in increasing order

`ascending s` lists a finite set in increasing order. It is `Finset.sort`, computed by insertion
instead of merging, so that it evaluates in the kernel (`Finset.sort` is a well-founded
recursion and does not).

Results: `mem_ascending`, `nodup_ascending`, `ascending_lt` (strictly increasing),
`length_ascending`, and `ascending_eq`: a strictly increasing list with the members of `s` is
`ascending s`.
-/

namespace Hannoy.Library

variable {α : Type*} [LinearOrder α]

/-- Two sorted lists with the same elements are equal. -/
theorem eq_of_perm_of_sorted {a b : List α} (h : a.Perm b) (ha : a.Pairwise (· ≤ ·))
    (hb : b.Pairwise (· ≤ ·)) : a = b :=
  List.Perm.eq_of_pairwise (fun _ _ _ _ => le_antisymm) ha hb h

theorem insertionSort_eq_of_perm {a b : List α} (h : a.Perm b) :
    a.insertionSort (· ≤ ·) = b.insertionSort (· ≤ ·) :=
  eq_of_perm_of_sorted
    (((List.perm_insertionSort _ a).trans h).trans (List.perm_insertionSort _ b).symm)
    (List.pairwise_insertionSort _ _) (List.pairwise_insertionSort _ _)

/-- The elements of `s` in increasing order. -/
def ascending (s : Finset α) : List α :=
  Quot.liftOn s.1 (fun l => l.insertionSort (· ≤ ·)) fun _ _ h => insertionSort_eq_of_perm h

theorem coe_ascending (s : Finset α) : (↑(ascending s) : Multiset α) = s.1 := by
  obtain ⟨m, hm⟩ := s
  induction m using Quotient.inductionOn with
  | h l => exact Quotient.sound (List.perm_insertionSort _ l)

@[simp] theorem mem_ascending {s : Finset α} {a : α} : a ∈ ascending s ↔ a ∈ s := by
  rw [← Multiset.mem_coe, coe_ascending, Finset.mem_val]

theorem nodup_ascending (s : Finset α) : (ascending s).Nodup := by
  rw [← Multiset.coe_nodup, coe_ascending]
  exact s.nodup

theorem count_ascending (s : Finset α) (a : α) :
    (ascending s).count a = if a ∈ s then 1 else 0 := by
  by_cases ha : a ∈ s
  · rw [if_pos ha]
    exact List.count_eq_one_of_mem (nodup_ascending s) (mem_ascending.mpr ha)
  · rw [if_neg ha]
    exact List.count_eq_zero.mpr fun hmem => ha (mem_ascending.mp hmem)

theorem ascending_le (s : Finset α) : (ascending s).Pairwise (· ≤ ·) := by
  obtain ⟨m, hm⟩ := s
  induction m using Quotient.inductionOn with
  | h l => exact List.pairwise_insertionSort _ l

theorem ascending_lt (s : Finset α) : (ascending s).Pairwise (· < ·) :=
  ((ascending_le s).and (nodup_ascending s)).imp fun h => lt_of_le_of_ne h.1 h.2

@[simp] theorem length_ascending (s : Finset α) : (ascending s).length = s.card := by
  rw [← Multiset.coe_card, coe_ascending, Finset.card_val]

@[simp] theorem toFinset_ascending (s : Finset α) : (ascending s).toFinset = s := by
  ext a
  rw [List.mem_toFinset, mem_ascending]

/-- A strictly increasing list with the members of `s` is `ascending s`. -/
theorem ascending_eq {s : Finset α} {l : List α} (hl : l.Pairwise (· < ·))
    (hm : ∀ a, a ∈ l ↔ a ∈ s) : ascending s = l := by
  have hnd : l.Nodup := hl.imp ne_of_lt
  refine eq_of_perm_of_sorted ?_ (ascending_le s) (hl.imp le_of_lt)
  exact (List.perm_ext_iff_of_nodup (nodup_ascending s) hnd).mpr fun a => by
    rw [mem_ascending, hm]

end Hannoy.Library
