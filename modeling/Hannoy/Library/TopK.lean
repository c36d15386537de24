import Hannoy.Library.Ascending

/-!
# Priority queues as ascending lists, and the `k` smallest

A priority queue over a linear order is modelled by the ascending list of its elements: the
minimum is the head, the maximum is the last element. `push` inserts, `pushPopMax` inserts and
drops the maximum, `replaceMax` overwrites the maximum.

`smallest k l` is the list of the `k` smallest elements of `l`, in order. A queue bounded at `k`
elements that overwrites its maximum on strict improvement computes it, whatever the order of
the insertions: `foldl_pushBounded`.
-/

namespace Hannoy.Library

variable {α : Type*} [LinearOrder α]

/-- Insert `a`. -/
def push (a : α) (h : List α) : List α := h.orderedInsert (· ≤ ·) a

/-- Insert `a`, then remove the maximum. -/
def pushPopMax (a : α) (h : List α) : List α := (push a h).dropLast

/-- Overwrite the maximum with `a`. -/
def replaceMax (a : α) (h : List α) : List α := push a h.dropLast

/-- Insert into a queue of at most `k` elements: when it is full, `a` takes the place of the
maximum if it is strictly smaller. -/
def pushBounded (k : Nat) (h : List α) (a : α) : List α :=
  if k ≤ h.length then
    match h.getLast? with
    | some top => if a < top then replaceMax a h else h
    | none => h
  else push a h

/-- The `k` smallest elements of `l`, in ascending order. -/
def smallest (k : Nat) (l : List α) : List α := (l.insertionSort (· ≤ ·)).take k

/-! ## Single operations -/

theorem perm_push (a : α) (h : List α) : (push a h).Perm (a :: h) := List.perm_orderedInsert _ a h

@[simp] theorem mem_push {a b : α} {h : List α} : b ∈ push a h ↔ b = a ∨ b ∈ h :=
  List.mem_orderedInsert _

@[simp] theorem length_push (a : α) (h : List α) : (push a h).length = h.length + 1 :=
  List.orderedInsert_length _ h a

theorem push_ne_nil (a : α) (h : List α) : push a h ≠ [] :=
  List.ne_nil_of_mem (mem_push.mpr (Or.inl rfl))

theorem pairwise_push {a : α} {h : List α} (hs : h.Pairwise (· ≤ ·)) :
    (push a h).Pairwise (· ≤ ·) :=
  List.Pairwise.orderedInsert a h hs

/-- Insert the elements of a list. -/
def pushAll (l h : List α) : List α := l.foldl (fun h a => push a h) h

theorem perm_pushAll : ∀ l h : List α, (pushAll l h).Perm (l ++ h)
  | [], h => List.Perm.refl h
  | a :: l, h => by
    show (pushAll l (push a h)).Perm (a :: (l ++ h))
    exact ((perm_pushAll l (push a h)).trans ((perm_push a h).append_left l)).trans
      List.perm_middle

theorem mem_pushAll {l h : List α} {a : α} : a ∈ pushAll l h ↔ a ∈ l ∨ a ∈ h := by
  rw [(perm_pushAll l h).mem_iff, List.mem_append]

theorem length_pushAll (l h : List α) : (pushAll l h).length = l.length + h.length := by
  rw [(perm_pushAll l h).length_eq, List.length_append]

theorem pairwise_pushAll : ∀ {l h : List α}, h.Pairwise (· ≤ ·) →
    (pushAll l h).Pairwise (· ≤ ·)
  | [], _, hs => hs
  | _ :: l, _, hs => pairwise_pushAll (l := l) (pairwise_push hs)

theorem push_eq_append {a : α} {h : List α} (ha : ∀ b ∈ h, b ≤ a) (hs : h.Pairwise (· ≤ ·)) :
    push a h = h ++ [a] := by
  refine eq_of_perm_of_sorted ((perm_push a h).trans ?_) (pairwise_push hs) ?_
  · exact (List.perm_append_singleton a h).symm
  · rw [List.pairwise_append]
    refine ⟨hs, List.pairwise_singleton _ _, fun b hb c hc => ?_⟩
    rw [List.mem_singleton.mp hc]
    exact ha b hb

/-- In an ascending list every element is at most the last one. -/
theorem le_getLast {h : List α} (hs : h.Pairwise (· ≤ ·)) {top : α}
    (htop : h.getLast? = some top) : ∀ b ∈ h, b ≤ top := by
  obtain ⟨l, rfl⟩ := List.getLast?_eq_some_iff.mp htop
  intro b hb
  rcases List.mem_append.mp hb with hb | hb
  · exact (List.pairwise_append.mp hs).2.2 b hb top (List.mem_singleton.mpr rfl)
  · rw [List.mem_singleton.mp hb]

theorem length_pushPopMax (a : α) (h : List α) : (pushPopMax a h).length = h.length := by
  simp [pushPopMax]

theorem mem_of_mem_pushPopMax {a b : α} {h : List α} (hb : b ∈ pushPopMax a h) :
    b = a ∨ b ∈ h :=
  mem_push.mp (List.mem_of_mem_dropLast hb)

/-- An insertion leaves nothing farther in front. -/
theorem exists_head_push {b : α} {h : List α} (hb : ∃ t ∈ h.head?, t ≤ b) (a : α) :
    ∃ t ∈ (push a h).head?, t ≤ b := by
  obtain ⟨t, ht, htb⟩ := hb
  cases h with
  | nil => cases ht
  | cons c l =>
    cases ht
    unfold push
    rw [List.orderedInsert_cons]
    by_cases hat : a ≤ t
    · rw [if_pos hat]
      exact ⟨a, rfl, hat.trans htb⟩
    · rw [if_neg hat]
      exact ⟨t, rfl, htb⟩

theorem exists_head_pushPopMax {b : α} {h : List α} (hb : ∃ t ∈ h.head?, t ≤ b) (a : α) :
    ∃ t ∈ (pushPopMax a h).head?, t ≤ b := by
  -- there are at least two, so the first one is not dropped
  have hlen : 0 < h.length := by
    obtain ⟨t, ht, -⟩ := hb
    cases h with
    | nil => cases ht
    | cons _ _ => exact Nat.zero_lt_succ _
  unfold pushPopMax
  rw [List.head?_dropLast, length_push, if_pos (Nat.succ_lt_succ hlen)]
  exact exists_head_push hb a

/-! ## The `k` smallest -/

/-- Truncating before an insertion does not change the first `k` elements. -/
theorem take_push (a : α) : ∀ (k : Nat) (h : List α),
    (push a h).take k = (push a (h.take k)).take k
  | 0, _ => by simp
  | k + 1, [] => by simp
  | k + 1, b :: h => by
    have ih := take_push a k h
    unfold push at ih ⊢
    rw [List.take_succ_cons, List.orderedInsert_cons, List.orderedInsert_cons]
    split_ifs with hab
    · cases k <;> simp [List.take_take]
    · rw [List.take_succ_cons, List.take_succ_cons, ih]

/-- A bounded insertion is an insertion cut at `k` elements. -/
theorem pushBounded_eq {k : Nat} {h : List α} (hs : h.Pairwise (· ≤ ·)) (hk : h.length ≤ k)
    (a : α) : pushBounded k h a = (push a h).take k := by
  unfold pushBounded
  split_ifs with hfull
  · have hlen : h.length = k := le_antisymm hk hfull
    cases htop : h.getLast? with
    | none =>
      rw [List.getLast?_eq_none_iff] at htop
      subst htop
      simp [← hlen]
    | some top =>
      obtain ⟨l, rfl⟩ := List.getLast?_eq_some_iff.mp htop
      have hl : l.Pairwise (· ≤ ·) := (List.pairwise_append.mp hs).1
      have hlast := le_getLast hs htop
      have hk' : (l ++ [top]).length = k := hlen
      simp only
      split_ifs with hlt
      · -- the maximum stays last after the insertion, and the cut removes it
        have hle : ∀ b ∈ push a l, b ≤ top := by
          intro b hb
          rcases mem_push.mp hb with rfl | hb
          · exact hlt.le
          · exact hlast b (List.mem_append_left _ hb)
        have hpush : push a (l ++ [top]) = push a l ++ [top] := by
          refine eq_of_perm_of_sorted ?_ (pairwise_push hs) ?_
          · exact (perm_push a _).trans ((perm_push a l).append_right [top]).symm
          · rw [List.pairwise_append]
            refine ⟨pairwise_push hl, List.pairwise_singleton _ _, fun b hb c hc => ?_⟩
            rw [List.mem_singleton.mp hc]
            exact hle b hb
        rw [hpush, replaceMax, List.dropLast_concat, List.take_left']
        rw [length_push, ← hk', List.length_append, List.length_singleton]
      · rw [push_eq_append (fun b hb => (hlast b hb).trans (not_lt.mp hlt)) hs,
          List.take_left' hk']
  · rw [List.take_of_length_le]
    rw [length_push]
    omega

theorem smallest_cons (k : Nat) (a : α) (l : List α) :
    smallest k (a :: l) = (push a (smallest k l)).take k := by
  unfold smallest
  rw [List.insertionSort_cons]
  exact take_push a k _

theorem length_smallest (k : Nat) (l : List α) : (smallest k l).length = min k l.length := by
  unfold smallest
  rw [List.length_take, (List.perm_insertionSort _ l).length_eq]

theorem pairwise_smallest (k : Nat) (l : List α) : (smallest k l).Pairwise (· ≤ ·) :=
  (List.pairwise_insertionSort _ l).sublist (List.take_sublist k _)

theorem mem_of_mem_smallest {k : Nat} {l : List α} {a : α} (h : a ∈ smallest k l) : a ∈ l :=
  (List.perm_insertionSort _ l).mem_iff.mp (List.mem_of_mem_take h)

/-- When the front of an ascending list holds the smallest. -/
theorem take_eq_smallest_iff {k : Nat} {l m : List α} (hl : l.Pairwise (· < ·)) (hm : m.Nodup)
    (hsub : ∀ a ∈ l, a ∈ m) (hk : k ≤ l.length) :
    l.take k = smallest k m ↔ ∀ b ∈ m, b ∉ l → ∀ a ∈ l.take k, a < b := by
  have hsort := List.pairwise_insertionSort (· ≤ ·) m
  have hperm := List.perm_insertionSort (· ≤ ·) m
  constructor
  · intro h b hb hbl a ha
    have hsplit := List.take_append_drop k (m.insertionSort (· ≤ ·))
    have hdrop : b ∈ (m.insertionSort (· ≤ ·)).drop k := by
      have hmem := hperm.mem_iff.mpr hb
      rw [← hsplit] at hmem
      refine (List.mem_append.mp hmem).resolve_left fun htake => hbl ?_
      rw [← smallest, ← h] at htake
      exact List.mem_of_mem_take htake
    have hfront : a ∈ smallest k m := h ▸ ha
    rw [← hsplit] at hsort
    refine lt_of_le_of_ne ((List.pairwise_append.mp hsort).2.2 a hfront b hdrop) fun heq => hbl ?_
    rw [← heq]
    exact List.mem_of_mem_take ha
  · intro h
    -- the others come after the front, in order
    have hfront : (l.take k).Nodup := (hl.imp ne_of_lt).sublist (List.take_sublist k l)
    have hsplit : m.insertionSort (· ≤ ·) =
        l.take k ++ (m.filter (· ∉ l.take k)).insertionSort (· ≤ ·) := by
      refine eq_of_perm_of_sorted (hperm.trans ?_) hsort (List.pairwise_append.mpr
        ⟨(hl.imp le_of_lt).sublist (List.take_sublist k l), List.pairwise_insertionSort _ _,
          fun a ha b hb => ?_⟩)
      · refine List.Perm.trans ?_ ((List.perm_insertionSort _ _).symm.append_left _)
        refine (List.perm_ext_iff_of_nodup hm (List.nodup_append.mpr ⟨hfront, hm.filter _,
          fun a ha b hb heq => ?_⟩)).mpr fun a => ?_
        · rw [List.mem_filter, decide_eq_true_iff] at hb
          exact hb.2 (heq ▸ ha)
        · rw [List.mem_append, List.mem_filter, decide_eq_true_iff]
          constructor
          · intro ha
            by_cases hat : a ∈ l.take k
            · exact Or.inl hat
            · exact Or.inr ⟨ha, hat⟩
          · rintro (ha | ha)
            · exact hsub a (List.mem_of_mem_take ha)
            · exact ha.1
      · rw [(List.perm_insertionSort _ _).mem_iff, List.mem_filter, decide_eq_true_iff] at hb
        by_cases hbl : b ∈ l
        · rw [← List.take_append_drop k l] at hbl hl
          exact ((List.pairwise_append.mp hl).2.2 a ha b
            ((List.mem_append.mp hbl).resolve_left hb.2)).le
        · exact (h b hb.1 hbl a ha).le
    rw [smallest, hsplit, List.take_left' (by rw [List.length_take]; exact min_eq_left hk)]

theorem smallest_congr {k : Nat} {l l' : List α} (h : l.Perm l') :
    smallest k l = smallest k l' := by
  unfold smallest
  rw [insertionSort_eq_of_perm h]

/-- **The bounded queue selects the `k` smallest.** -/
theorem foldl_pushBounded (k : Nat) : ∀ (l done : List α),
    l.foldl (pushBounded k) (smallest k done) = smallest k (l.reverse ++ done)
  | [], done => by simp
  | a :: l, done => by
    have hlen : (smallest k done).length ≤ k := by rw [length_smallest]; exact min_le_left _ _
    rw [List.foldl_cons, pushBounded_eq (pairwise_smallest k done) hlen, ← smallest_cons,
      foldl_pushBounded k l (a :: done)]
    simp

/-- An element among the `k` smallest is exactly one that fewer than `k` elements precede. -/
theorem mem_smallest_iff {k : Nat} {l : List α} (hnd : l.Nodup) {a : α} :
    a ∈ smallest k l ↔ a ∈ l ∧ l.countP (· < a) < k := by
  have hperm := List.perm_insertionSort (· ≤ ·) l
  have hsort : (l.insertionSort (· ≤ ·)).Pairwise (· < ·) :=
    ((List.pairwise_insertionSort _ l).and (hperm.nodup_iff.mpr hnd)).imp
      fun h => lt_of_le_of_ne h.1 h.2
  unfold smallest
  rw [← hperm.mem_iff, ← hperm.countP_eq]
  generalize l.insertionSort (· ≤ ·) = s at hsort
  induction s generalizing k with
  | nil => simp
  | cons b s ih =>
    rw [List.pairwise_cons] at hsort
    cases k with
    | zero => simp
    | succ k =>
      have hih : a ∈ s.take k ↔ a ∈ s ∧ s.countP (· < a) < k := ih hsort.2
      rw [List.take_succ_cons, List.mem_cons, List.mem_cons, hih]
      by_cases hab : a = b
      · subst hab
        have hnone : s.countP (· < a) = 0 :=
          List.countP_eq_zero.mpr fun c hc => by simpa using (hsort.1 c hc).le
        simp [hnone]
      · constructor
        · rintro (h | ⟨hm, hc⟩)
          · exact absurd h hab
          · refine ⟨Or.inr hm, ?_⟩
            rw [List.countP_cons]
            split_ifs <;> omega
        · rintro ⟨h | hm, hc⟩
          · exact absurd h hab
          · refine Or.inr ⟨hm, ?_⟩
            have hba : decide (b < a) = true := decide_eq_true (hsort.1 a hm)
            rw [List.countP_cons, if_pos hba] at hc
            omega

end Hannoy.Library
