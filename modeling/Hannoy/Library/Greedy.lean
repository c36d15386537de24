import Mathlib.Data.List.Basic
import Mathlib.Order.Basic
import Mathlib.Order.Lattice

/-!
# Greedy selection under a cap

`pick shade cap kept candidates` goes through the candidates in order and takes each one that
nothing kept so far shades, until `cap` elements are kept. `shade i c` is any test; the order of
the candidates is the caller's.

* `pick_sublist`, `length_pick_le`: what is picked.
* `pick_at`: what becomes of each candidate.
* `take_pick`, `pick_cap_eq_iff`: when two caps pick the same.
* `pick_without_iff`: when a candidate takes nothing away from the others.
-/

namespace Hannoy.Library

variable {α : Type*} {shade : α → α → Bool} {cap : Nat}

/-- Nothing kept shades `c`. -/
def unshadedBy (shade : α → α → Bool) (kept : List α) (c : α) : Bool := kept.all fun i => !shade i c

/-- The candidates taken when `kept` are kept already. -/
def pick (shade : α → α → Bool) (cap : Nat) : List α → List α → List α
  | _, [] => []
  | kept, c :: candidates =>
    if kept.length = cap then []
    else if unshadedBy shade kept c then c :: pick shade cap (kept ++ [c]) candidates
    else pick shade cap kept candidates

theorem unshadedBy_iff {kept : List α} {c : α} :
    unshadedBy shade kept c = true ↔ ∀ i ∈ kept, shade i c = false := by
  simp [unshadedBy]

theorem not_unshadedBy_iff {kept : List α} {c : α} :
    unshadedBy shade kept c = false ↔ ∃ i ∈ kept, shade i c = true := by
  simp [unshadedBy]

theorem pick_full {kept : List α} (h : kept.length = cap) (candidates : List α) :
    pick shade cap kept candidates = [] := by
  cases candidates <;> simp [pick, h]

theorem pick_unshaded {kept : List α} {c : α} (hroom : kept.length ≠ cap)
    (hc : unshadedBy shade kept c = true) (candidates : List α) :
    pick shade cap kept (c :: candidates) = c :: pick shade cap (kept ++ [c]) candidates := by
  simp [pick, hroom, hc]

theorem pick_shaded {kept : List α} {c : α} (hc : unshadedBy shade kept c = false)
    (candidates : List α) :
    pick shade cap kept (c :: candidates) = pick shade cap kept candidates := by
  by_cases hfull : kept.length = cap
  · simp [pick_full hfull]
  · simp [pick, hfull, hc]

/-! ## What is picked -/

theorem pick_sublist : ∀ (kept candidates : List α),
    (pick shade cap kept candidates).Sublist candidates
  | _, [] => List.Sublist.slnil
  | kept, c :: candidates => by
    unfold pick
    split_ifs
    · exact List.nil_sublist _
    · exact (pick_sublist (kept ++ [c]) candidates).cons_cons c
    · exact (pick_sublist kept candidates).cons c

theorem length_pick_le : ∀ {kept candidates : List α}, kept.length ≤ cap →
    kept.length + (pick shade cap kept candidates).length ≤ cap
  | _, [], h => h
  | kept, c :: candidates, h => by
    unfold pick
    split_ifs with hfull hc
    · exact h
    · have hlen : (kept ++ [c]).length ≤ cap := by
        rw [List.length_append, List.length_singleton]
        omega
      have : _ + (pick shade cap (kept ++ [c]) candidates).length ≤ cap := length_pick_le hlen
      simp only [List.length_append, List.length_cons, List.length_nil] at this ⊢
      omega
    · exact length_pick_le h

/-- No kept element shades a picked one. -/
theorem shade_of_mem_pick {i : α} : ∀ {kept candidates : List α}, i ∈ kept →
    ∀ c ∈ pick shade cap kept candidates, shade i c = false
  | _, [], _, _, hc => absurd hc List.not_mem_nil
  | kept, d :: candidates, hi, c, hc => by
    unfold pick at hc
    split_ifs at hc with hfull hd
    · exact absurd hc List.not_mem_nil
    · rcases List.mem_cons.mp hc with rfl | hc
      · exact unshadedBy_iff.mp hd i hi
      · exact shade_of_mem_pick (List.mem_append_left _ hi) c hc
    · exact shade_of_mem_pick hi c hc

theorem pick_append : ∀ (kept pre post : List α), pick shade cap kept (pre ++ post) =
    pick shade cap kept pre ++ pick shade cap (kept ++ pick shade cap kept pre) post
  | kept, [], post => by simp [pick]
  | kept, c :: pre, post => by
    rw [List.cons_append]
    by_cases hfull : kept.length = cap
    · simp [pick_full hfull]
    cases hc : unshadedBy shade kept c with
    | true =>
      rw [pick_unshaded hfull hc, pick_unshaded hfull hc, pick_append (kept ++ [c]) pre post]
      simp
    | false =>
      rw [pick_shaded hc, pick_shaded hc]
      exact pick_append kept pre post

/-- **What becomes of a candidate**: it is taken, an earlier one that was taken shades it, or the
cap has been reached. -/
theorem pick_at (pre : List α) (c : α) (post : List α) : ∃ taken rest,
    pick shade cap [] (pre ++ c :: post) = taken ++ rest ∧ taken.Sublist pre ∧
      ((∃ later, rest = c :: later ∧ later.Sublist post) ∨
        (rest.Sublist post ∧ ∃ i ∈ taken, shade i c = true) ∨
          (rest = [] ∧ taken.length = cap)) := by
  refine ⟨_, _, pick_append [] pre (c :: post), pick_sublist [] pre, ?_⟩
  rw [List.nil_append]
  by_cases hfull : (pick shade cap [] pre).length = cap
  · exact Or.inr (Or.inr ⟨pick_full hfull _, hfull⟩)
  cases hc : unshadedBy shade (pick shade cap [] pre) c with
  | true => exact Or.inl ⟨_, pick_unshaded hfull hc post, pick_sublist _ _⟩
  | false =>
    refine Or.inr (Or.inl ⟨?_, not_unshadedBy_iff.mp hc⟩)
    rw [pick_shaded hc]
    exact pick_sublist _ _

/-! ## Two caps -/

/-- A smaller cap cuts the selection off. -/
theorem take_pick {small large : Nat} (hle : small ≤ large) : ∀ {kept candidates : List α},
    kept.length ≤ small →
      pick shade small kept candidates =
        (pick shade large kept candidates).take (small - kept.length)
  | _, [], _ => by simp [pick]
  | kept, c :: candidates, hlen => by
    rcases hlen.eq_or_lt with heq | hlt
    · simp [pick_full heq, heq]
    cases hc : unshadedBy shade kept c with
    | true =>
      have hsucc : small - kept.length = small - (kept ++ [c]).length + 1 := by
        rw [List.length_append, List.length_singleton]
        omega
      rw [pick_unshaded hlt.ne hc, pick_unshaded (hlt.trans_le hle).ne hc, hsucc,
        List.take_succ_cons, take_pick hle]
      rw [List.length_append, List.length_singleton]
      omega
    | false =>
      rw [pick_shaded hc, pick_shaded hc]
      exact take_pick hle hlen

/-- The selection without a cap. -/
def pickAll (shade : α → α → Bool) (candidates : List α) : List α :=
  pick shade candidates.length [] candidates

/-- A cap cuts the selection without a cap off. -/
theorem pick_eq_take (candidates : List α) :
    pick shade cap [] candidates = (pickAll shade candidates).take cap := by
  rcases le_total cap candidates.length with hle | hle
  · rw [pickAll, take_pick hle (Nat.zero_le _)]
    rfl
  · have hall : pick shade candidates.length [] candidates = _ := take_pick hle (Nat.zero_le _)
    have hlen : (pick shade cap [] candidates).length ≤ candidates.length :=
      (pick_sublist [] candidates).length_le
    rw [List.take_of_length_le (by simpa using hlen)] at hall
    rw [pickAll, hall, List.take_of_length_le (hlen.trans hle)]

/-- **Two caps pick the same** when they are equal or neither cuts anything off. -/
theorem pick_cap_eq_iff {other : Nat} {candidates : List α} :
    pick shade cap [] candidates = pick shade other [] candidates ↔
      cap = other ∨ (pickAll shade candidates).length ≤ min cap other := by
  rw [pick_eq_take, pick_eq_take]
  constructor
  · intro h
    have hlen := congrArg List.length h
    rw [List.length_take, List.length_take] at hlen
    omega
  · rintro (rfl | hle)
    · rfl
    · rw [List.take_of_length_le (by omega), List.take_of_length_le (by omega)]

/-! ## One candidate more -/

/-- One more kept element takes nothing away exactly when it shades nothing that would be taken and
leaves room for all of it. -/
theorem pick_kept_iff {q : α} : ∀ {before after candidates : List α},
    (before ++ after).length < cap →
    (pick shade cap (before ++ q :: after) candidates =
        pick shade cap (before ++ after) candidates ↔
      (∀ c ∈ pick shade cap (before ++ after) candidates, shade q c = false) ∧
        (before ++ after).length + (pick shade cap (before ++ after) candidates).length < cap)
  | before, after, [], hlt => by simpa [pick] using hlt
  | before, after, c :: candidates, hlt => by
    have hlen : (before ++ q :: after).length = (before ++ after).length + 1 := by
      simp only [List.length_append, List.length_cons]
      omega
    have hsplit : unshadedBy shade (before ++ q :: after) c =
        (unshadedBy shade (before ++ after) c && !shade q c) := by
      rw [Bool.eq_iff_iff]
      simp only [unshadedBy_iff, Bool.and_eq_true, Bool.not_eq_true', List.mem_append,
        List.mem_cons]
      constructor
      · exact fun h => ⟨fun i hi => h i (hi.imp_right Or.inr), h q (Or.inr (Or.inl rfl))⟩
      · rintro ⟨h, hq⟩ i (hi | rfl | hi)
        · exact h i (Or.inl hi)
        · exact hq
        · exact h i (Or.inr hi)
    cases hc : unshadedBy shade (before ++ after) c with
    | false =>
      rw [pick_shaded hc, pick_shaded (by rw [hsplit, hc]; rfl)]
      exact pick_kept_iff hlt
    | true =>
      rw [pick_unshaded hlt.ne hc]
      by_cases hfull : (before ++ q :: after).length = cap
      · -- the extra element has taken the last place
        rw [pick_full hfull]
        refine iff_of_false (fun h => by cases h) ?_
        rintro ⟨-, hroom⟩
        rw [List.length_cons] at hroom
        omega
      · cases hq : shade q c with
        | true =>
          -- the extra element shades a candidate that would be taken
          refine iff_of_false (fun h => ?_) fun h => ?_
          · have hmem : c ∈ pick shade cap (before ++ q :: after) (c :: candidates) := by
              rw [h]
              exact List.mem_cons_self
            rw [shade_of_mem_pick (List.mem_append_right _ List.mem_cons_self) c hmem] at hq
            cases hq
          · rw [h.1 c List.mem_cons_self] at hq
            cases hq
        | false =>
          rw [pick_unshaded hfull (by rw [hsplit, hc, hq]; rfl), List.cons.injEq]
          have hlt' : (before ++ (after ++ [c])).length < cap := by
            simp only [List.length_append, List.length_cons, List.length_nil] at hlen hfull hlt ⊢
            omega
          have ih : pick shade cap (before ++ q :: (after ++ [c])) candidates =
              pick shade cap (before ++ (after ++ [c])) candidates ↔ _ := pick_kept_iff hlt'
          rw [List.append_assoc, List.append_assoc, List.cons_append, ih]
          simp only [List.forall_mem_cons, hq, true_and, List.length_append, List.length_cons,
            List.length_nil]
          refine and_congr_right fun _ => ?_
          omega

/-- **When a candidate takes nothing away from the others**: the cap is reached before it, one
taken before it shades it, or it shades none of those taken after it and leaves room for them. -/
theorem pick_without_iff {keep : α → Bool} {q : α} {pre post : List α} (hq : keep q = false)
    (hpre : ∀ c ∈ pre, keep c = true) (hpost : ∀ c ∈ post, keep c = true) :
    (pick shade cap [] (pre ++ q :: post)).filter keep = pick shade cap [] (pre ++ post) ↔
      (pick shade cap [] pre).length = cap ∨
      (∃ i ∈ pick shade cap [] pre, shade i q = true) ∨
      ((∀ c ∈ pick shade cap (pick shade cap [] pre) post, shade q c = false) ∧
        (pick shade cap [] (pre ++ post)).length < cap) := by
  have hkeeps : ∀ {kept l : List α}, (∀ c ∈ l, keep c = true) →
      (pick shade cap kept l).filter keep = pick shade cap kept l := fun hl =>
    List.filter_eq_self.mpr fun c hc => hl c ((pick_sublist _ _).subset hc)
  rw [pick_append, pick_append, List.filter_append, hkeeps hpre, List.nil_append,
    List.append_cancel_left_eq, List.length_append]
  have hle : (pick shade cap [] pre).length ≤ cap := by
    have : _ + (pick shade cap [] pre).length ≤ cap := length_pick_le (Nat.zero_le cap)
    simpa using this
  generalize pick shade cap [] pre = kept at hle ⊢
  rcases hle.eq_or_lt with hfull | hlt
  · simp [pick_full hfull, hfull]
  cases hc : unshadedBy shade kept q with
  | false =>
    rw [pick_shaded hc, hkeeps hpost]
    exact iff_of_true rfl (Or.inr (Or.inl (not_unshadedBy_iff.mp hc)))
  | true =>
    have hshaded : ¬ ∃ i ∈ kept, shade i q = true := fun h => by
      rw [not_unshadedBy_iff.mpr h] at hc
      cases hc
    have hiff : pick shade cap (kept ++ q :: []) post = pick shade cap (kept ++ []) post ↔ _ :=
      pick_kept_iff (by rwa [List.append_nil])
    rw [List.append_nil] at hiff
    rw [pick_unshaded hlt.ne hc, List.filter_cons_of_neg (by simp [hq]), hkeeps hpost, hiff]
    simp [hlt.ne, hshaded]

end Hannoy.Library
