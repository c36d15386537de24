import Mathlib.Data.List.Basic
import Mathlib.Order.Compare
import Mathlib.Data.UInt

/-!
# Comparisons, byte strings and prefixes

Lists compare as byte strings do in a store: at the first place where they differ, and the shorter
one first when there is none.

* `compare_congr`: two linear orders that agree on two pairs compare them alike.
* `compare_append`: a concatenation of fields of fixed lengths compares field by field.
* `compare_ofBigEndian`: byte strings of one length compare as the numbers they are in big endian.
* `seek`: the walk of a cursor, from the first key that is not below a prefix to the first one that
  does not start with it. On sorted keys it visits the keys with the prefix (`seek_eq_filter`).
-/

namespace Hannoy.Library

/-- **Orders that agree compare alike.** -/
theorem compare_congr {α β : Type} [LinearOrder α] [LinearOrder β] {a b : α} {c d : β}
    (hlt : a < b ↔ c < d) (hgt : b < a ↔ d < c) : compare a b = compare c d := by
  cases h : compare a b with
  | lt => exact (compare_lt_iff_lt.mpr (hlt.mp (compare_lt_iff_lt.mp h))).symm
  | gt => exact (compare_gt_iff_gt.mpr (hgt.mp (compare_gt_iff_gt.mp h))).symm
  | eq =>
    obtain rfl := compare_eq_iff_eq.mp h
    have hcd : c ≤ d := not_lt.mp fun h => lt_irrefl a (hgt.mpr h)
    have hdc : d ≤ c := not_lt.mp fun h => lt_irrefl a (hlt.mpr h)
    exact (compare_eq_iff_eq.mpr (hcd.antisymm hdc)).symm

/-! ## Byte strings -/

section append

variable {α : Type} [Ord α]

/-- **Field by field.** -/
theorem compare_append : ∀ {a b : List α} (c d : List α), a.length = b.length →
    compare (a ++ c) (b ++ d) = (compare a b).then (compare c d)
  | [], [], _, _, _ => by rfl
  | [], _ :: _, _, _, h => by cases h
  | _ :: _, [], _, _, h => by cases h
  | x :: a, y :: b, c, d, h => by
    have hrest := compare_append c d (Nat.succ.inj h)
    rw [List.cons_append, List.cons_append, List.compare_cons_cons, List.compare_cons_cons, hrest,
      Ordering.then_assoc]

end append

theorem compare_toNat (x y : UInt8) : compare x y = compare x.toNat y.toNat := by
  show compareOfLessAndEq x y = compareOfLessAndEq x.toNat y.toNat
  simp only [compareOfLessAndEq, UInt8.lt_iff_toNat_lt, UInt8.toNat_inj]

/-- The number a byte string is in big endian. -/
def ofBigEndian : List UInt8 → Nat
  | [] => 0
  | b :: l => b.toNat * 256 ^ l.length + ofBigEndian l

theorem ofBigEndian_lt : ∀ l : List UInt8, ofBigEndian l < 256 ^ l.length
  | [] => Nat.one_pos
  | b :: l => by
    have hrest := ofBigEndian_lt l
    have hb : (b.toNat + 1) * 256 ^ l.length ≤ 256 * 256 ^ l.length :=
      Nat.mul_le_mul_right _ b.toNat_lt
    rw [ofBigEndian, List.length_cons, Nat.pow_succ']
    rw [Nat.succ_mul] at hb
    omega

/-- **Big endian keeps the order.** -/
theorem compare_ofBigEndian : ∀ {a b : List UInt8}, a.length = b.length →
    compare a b = compare (ofBigEndian a) (ofBigEndian b)
  | [], [], _ => rfl
  | [], _ :: _, h => by cases h
  | _ :: _, [], h => by cases h
  | x :: a, y :: b, h => by
    have hlen : a.length = b.length := Nat.succ.inj h
    have hrest := compare_ofBigEndian hlen
    have ha := ofBigEndian_lt a
    have hb := ofBigEndian_lt b
    rw [List.compare_cons_cons, hrest, compare_toNat, ofBigEndian, ofBigEndian, hlen]
    rw [hlen] at ha
    -- the first byte decides, unless it is the same
    have hstep : ∀ {u v p q : Nat}, u < v → p < 256 ^ b.length →
        u * 256 ^ b.length + p < v * 256 ^ b.length + q := by
      intro u v p q huv hp
      have hle := Nat.mul_le_mul_right (256 ^ b.length) (Nat.succ_le_of_lt huv)
      rw [Nat.succ_mul] at hle
      omega
    rcases Nat.lt_trichotomy x.toNat y.toNat with hxy | hxy | hxy
    · rw [compare_lt_iff_lt.mpr hxy, compare_lt_iff_lt.mpr (hstep hxy ha)]
      rfl
    · rw [hxy, compare_eq_iff_eq.mpr rfl]
      exact compare_congr Nat.add_lt_add_iff_left.symm Nat.add_lt_add_iff_left.symm
    · rw [compare_gt_iff_gt.mpr hxy, compare_gt_iff_gt.mpr (hstep hxy hb)]
      rfl

/-! ## Prefixes -/

section seek

variable {α ε : Type} [Ord α] [Std.LawfulEqOrd α] [BEq α] [LawfulBEq α] (key : ε → List α)

/-- From the first key that is not below `p` on, as long as the keys start with `p`. -/
def seek (p : List α) (entries : List ε) : List ε :=
  (entries.dropWhile fun e => compare (key e) p = .lt).takeWhile fun e => p.isPrefixOf (key e)

omit key

/-- A key that starts with `p` is not below it. -/
theorem compare_ne_lt_of_prefix : ∀ {p k : List α}, p.isPrefixOf k = true → compare k p ≠ .lt
  | [], k, _ => by cases k <;> simp
  | x :: p, [], h => by cases h
  | x :: p, y :: k, h => by
    obtain ⟨hxy, hrest⟩ := Bool.and_eq_true_iff.mp h
    obtain rfl := beq_iff_eq.mp hxy
    rw [List.compare_cons_cons, Std.compare_self]
    exact compare_ne_lt_of_prefix hrest

/-- The keys with a prefix have no other key between them. -/
theorem isPrefixOf_of_between : ∀ {p k k' : List α}, compare k p ≠ .lt → compare k k' = .lt →
    p.isPrefixOf k' = true → p.isPrefixOf k = true
  | [], _, _, _, _, _ => rfl
  | x :: p, [], _, hk, _, _ => absurd rfl hk
  | x :: p, y :: k, [], _, hlt, _ => by cases hlt
  | x :: p, y :: k, y' :: k', hk, hlt, h => by
    obtain ⟨hxy, hrest⟩ := Bool.and_eq_true_iff.mp h
    obtain rfl := beq_iff_eq.mp hxy
    rw [List.compare_cons_cons] at hk hlt
    rcases Ordering.then_eq_lt.mp hlt with hfirst | ⟨hfirst, hlater⟩
    · rw [hfirst] at hk
      exact absurd rfl hk
    · rw [hfirst] at hk
      obtain rfl := Std.LawfulEqOrd.eq_of_compare hfirst
      exact Bool.and_eq_true_iff.mpr ⟨beq_self_eq_true _, isPrefixOf_of_between hk hlater hrest⟩

/-- From a key that is not below the prefix on, those with the prefix come first. -/
theorem takeWhile_eq_filter {key : ε → List α} {p : List α} : ∀ {entries : List ε},
    entries.Pairwise (fun a b => compare (key a) (key b) = .lt) →
      (∀ e ∈ entries, compare (key e) p ≠ .lt) →
        (entries.takeWhile fun e => p.isPrefixOf (key e)) =
          entries.filter fun e => p.isPrefixOf (key e)
  | [], _, _ => rfl
  | e :: entries, h, hp => by
    obtain ⟨hhead, htail⟩ := List.pairwise_cons.mp h
    obtain ⟨he, hrest⟩ := List.forall_mem_cons.mp hp
    rw [List.takeWhile_cons, List.filter_cons]
    split_ifs with hpre
    · rw [takeWhile_eq_filter htail hrest]
    · refine (List.filter_eq_nil_iff.mpr fun e' he' hpre' => hpre ?_).symm
      exact isPrefixOf_of_between he (hhead e' he') hpre'

variable [Std.TransOrd α]

/-- **A cursor over sorted keys visits those with the prefix.** -/
theorem seek_eq_filter {key : ε → List α} {p : List α} : ∀ {entries : List ε},
    entries.Pairwise (fun a b => compare (key a) (key b) = .lt) →
      seek key p entries = entries.filter fun e => p.isPrefixOf (key e)
  | [], _ => rfl
  | e :: entries, h => by
    obtain ⟨hhead, htail⟩ := List.pairwise_cons.mp h
    by_cases hlt : compare (key e) p = .lt
    · have hno : ¬ p.isPrefixOf (key e) = true := fun hp => compare_ne_lt_of_prefix hp hlt
      rw [List.filter_cons, if_neg hno, ← seek_eq_filter htail, seek, seek, List.dropWhile_cons,
        if_pos (decide_eq_true hlt)]
    · rw [seek, List.dropWhile_cons, if_neg (by simpa using hlt)]
      refine takeWhile_eq_filter h (List.forall_mem_cons.mpr ⟨hlt, fun e' he' hlt' => hlt ?_⟩)
      exact Std.TransCmp.lt_trans (hhead e' he') hlt'

end seek

end Hannoy.Library
