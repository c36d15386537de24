import Hannoy.Graph.Repair

/-!
# What `robust_prune` selects (`hnsw.rs:562-597`)

The candidates are sorted by (distance, id) and taken greedily: a candidate is taken unless it is
nearer to one taken before than to the query, until the cap of the layer is reached. The distance
between two candidates is the one of their stored items, scaled by `alpha`.

* `robustPrune_eq`: the selection is the greedy one of `Library.Greedy`.
* `robustPrune_sparse`: what is selected, why the others are not, and that pruning the selection
  again changes nothing.
-/

namespace Hannoy.Graph

open Hannoy.Library Hannoy.Library.Txn

variable {D : Distance} {M M0 : Nat} {alpha : F32} {lmdb : FrozenReader}

/-! ## The loop -/

theorem robustPruneLoop_eq {cap : Nat} : ∀ {candidates selected out : List ScoredLink},
    robustPruneLoop D alpha lmdb cap candidates selected = .ok out →
      out = selected ++ pick (shades D alpha lmdb) cap selected candidates
  | [], selected, out, h => by
    cases h
    simp [pick]
  | c :: candidates, selected, out, h => by
    rw [robustPruneLoop] at h
    by_cases hcap : selected.length = cap
    · rw [if_pos hcap] at h
      cases h
      simp [pick_full hcap]
    · rw [if_neg hcap] at h
      obtain ⟨b, hb, h⟩ := ok_bind_iff.mp h
      have hclear := (okToAdd_ok hb).symm
      cases b with
      | true =>
        rw [pick_unshaded hcap hclear, robustPruneLoop_eq h]
        simp
      | false =>
        rw [pick_shaded hclear]
        exact robustPruneLoop_eq h

/-- **The selection is the greedy one** over the candidates in the order (distance, id). -/
theorem robustPrune_eq {candidates out : List ScoredLink} {level : Nat}
    (h : robustPrune D M M0 alpha lmdb candidates level = .ok out) :
    out = pick (shades D alpha lmdb) (linkCap M M0 level) []
      (candidates.insertionSort (· ≤ ·)) := by
  simpa using robustPruneLoop_eq h

/-! ## Pairs of stored items -/

/-- `i` is nearer to `j` than `j` is to the query. -/
def Dominates (D : Distance) (alpha : F32) (lmdb : FrozenReader) (i j : ScoredLink) : Prop :=
  ∃ x y, lmdb.item j.id = .ok x ∧ lmdb.item i.id = .ok y ∧
    F32.mul (D.distance x y) alpha < j.dist

/-- The scaled distance of `j` to `i` is not smaller than that of `j` to the query. -/
def Apart (D : Distance) (alpha : F32) (lmdb : FrozenReader) (i j : ScoredLink) : Prop :=
  ∃ x y, lmdb.item j.id = .ok x ∧ lmdb.item i.id = .ok y ∧
    ¬ F32.mul (D.distance x y) alpha < j.dist

theorem shades_iff {i j : ScoredLink} :
    shades D alpha lmdb i j = true ↔ Dominates D alpha lmdb i j := by
  unfold shades Dominates
  cases lmdb.item j.id <;> cases lmdb.item i.id <;> simp

/-- A candidate is taken when it is apart from all that are. -/
theorem okToAdd_true_iff {c : ScoredLink} : ∀ {selected : List ScoredLink},
    okToAdd D alpha lmdb c.dist c.id selected = .ok true ↔
      ∀ i ∈ selected, Apart D alpha lmdb i c
  | [] => by simp [okToAdd, pure, Except.pure]
  | i :: selected => by
    have ih : okToAdd D alpha lmdb c.dist c.id selected = .ok true ↔
        ∀ i ∈ selected, Apart D alpha lmdb i c := okToAdd_true_iff
    rw [okToAdd, List.forall_mem_cons, ← ih]
    simp only [ok_bind_iff]
    constructor
    · rintro ⟨x, hx, y, hy, h⟩
      by_cases hnear : F32.mul (D.distance x y) alpha < c.dist
      · rw [if_pos hnear] at h
        cases h
      · rw [if_neg hnear] at h
        exact ⟨⟨x, y, hx, hy, hnear⟩, h⟩
    · rintro ⟨⟨x, y, hx, hy, hfar⟩, h⟩
      exact ⟨x, hx, y, hy, by rw [if_neg hfar]; exact h⟩

theorem pairwise_robustPruneLoop {cap : Nat} : ∀ {candidates selected out : List ScoredLink},
    selected.Pairwise (Apart D alpha lmdb) →
      robustPruneLoop D alpha lmdb cap candidates selected = .ok out →
      out.Pairwise (Apart D alpha lmdb)
  | [], _, _, hpair, h => by
    cases h
    exact hpair
  | c :: candidates, selected, out, hpair, h => by
    rw [robustPruneLoop] at h
    split_ifs at h with hcap
    · cases h
      exact hpair
    · obtain ⟨b, hb, h⟩ := ok_bind_iff.mp h
      cases b with
      | false => exact pairwise_robustPruneLoop hpair h
      | true =>
        refine pairwise_robustPruneLoop (List.pairwise_append.mpr
          ⟨hpair, List.pairwise_singleton _ _, fun i hi d hd => ?_⟩) h
        rw [List.mem_singleton.mp hd]
        exact okToAdd_true_iff.mp hb i hi

/-- What is apart and fits is taken as it is. -/
theorem robustPruneLoop_self {cap : Nat} : ∀ {candidates selected : List ScoredLink},
    (selected ++ candidates).Pairwise (Apart D alpha lmdb) →
      (selected ++ candidates).length ≤ cap →
      robustPruneLoop D alpha lmdb cap candidates selected = .ok (selected ++ candidates)
  | [], selected, _, _ => by simp [robustPruneLoop, pure, Except.pure]
  | c :: candidates, selected, hpair, hlen => by
    have hcap : selected.length ≠ cap := by
      rw [List.length_append, List.length_cons] at hlen
      omega
    have hok : okToAdd D alpha lmdb c.dist c.id selected = .ok true :=
      okToAdd_true_iff.mpr fun i hi => (List.pairwise_append.mp hpair).2.2 i hi c
        List.mem_cons_self
    rw [List.append_cons] at hpair hlen ⊢
    rw [robustPruneLoop, if_neg hcap, hok]
    exact robustPruneLoop_self hpair hlen

/-- The loop ends when every candidate is stored. -/
theorem robustPruneLoop_ends {cap : Nat} : ∀ {candidates selected : List ScoredLink},
    (∀ c ∈ selected ++ candidates, Live lmdb c.id) →
      ∃ out, robustPruneLoop D alpha lmdb cap candidates selected = .ok out
  | [], selected, _ => ⟨selected, rfl⟩
  | c :: candidates, selected, hlive => by
    have hread : ∀ {d : ScoredLink}, d ∈ selected ++ c :: candidates →
        ∃ x, lmdb.item d.id = .ok x := fun hd => by
      obtain ⟨x, hx⟩ := Option.isSome_iff_exists.mp (hlive _ hd)
      exact ⟨x, item_ok_iff.mpr hx⟩
    have hadd : ∀ l : List ScoredLink, (∀ i ∈ l, i ∈ selected) →
        ∃ b, okToAdd D alpha lmdb c.dist c.id l = .ok b := by
      intro l hl
      obtain ⟨x, hx⟩ := hread (List.mem_append_right selected List.mem_cons_self)
      induction l with
      | nil => exact ⟨true, rfl⟩
      | cons i l ih =>
        obtain ⟨y, hy⟩ := hread (List.mem_append_left _ (hl i List.mem_cons_self))
        obtain ⟨b, hb⟩ := ih fun j hj => hl j (List.mem_cons_of_mem _ hj)
        rw [okToAdd, hx, hy]
        by_cases hnear : F32.mul (D.distance x y) alpha < c.dist
        · exact ⟨false, by simp [hnear, bind, Except.bind, pure, Except.pure]⟩
        · exact ⟨b, by simpa [hnear, bind, Except.bind] using hb⟩
    rw [robustPruneLoop]
    split_ifs
    · exact ⟨selected, rfl⟩
    · obtain ⟨b, hb⟩ := hadd selected fun _ hi => hi
      rw [hb]
      cases b with
      | true => exact robustPruneLoop_ends (by rwa [← List.append_cons])
      | false =>
        refine robustPruneLoop_ends fun d hd => hlive d ?_
        rcases List.mem_append.mp hd with hd | hd
        · exact List.mem_append_left _ hd
        · exact List.mem_append_right _ (List.mem_cons_of_mem _ hd)

theorem robustPrune_returns {candidates : List ScoredLink}
    (hlive : ∀ c ∈ candidates, Live lmdb c.id) (level : Nat) :
    ∃ out, robustPrune D M M0 alpha lmdb candidates level = .ok out :=
  robustPruneLoop_ends fun c hc => hlive c ((List.mem_insertionSort _).mp hc)

/-! ## The selection -/

/-- The greedy sparse neighbourhood. `rejected` says of each candidate, `taken` being what was
selected before it, that it is selected next, is dominated, or comes after the cap was reached. -/
structure Sparse (D : Distance) (M M0 : Nat) (alpha : F32) (lmdb : FrozenReader)
    (candidates : List ScoredLink) (level : Nat) (out : List ScoredLink) : Prop where
  sublist : out.Sublist (candidates.insertionSort (· ≤ ·))
  cap : out.length ≤ linkCap M M0 level
  least : candidates ≠ [] → 1 ≤ linkCap M M0 level → ∃ c ∈ out, ∀ d ∈ candidates, c ≤ d
  apart : out.Pairwise (Apart D alpha lmdb)
  rejected : ∀ pre c post, candidates.insertionSort (· ≤ ·) = pre ++ c :: post →
    ∃ taken rest, out = taken ++ rest ∧ taken.Sublist pre ∧
      ((∃ later, rest = c :: later ∧ later.Sublist post) ∨
        (rest.Sublist post ∧ ∃ i ∈ taken, Dominates D alpha lmdb i c) ∨
        (rest = [] ∧ taken.length = linkCap M M0 level))
  again : robustPrune D M M0 alpha lmdb out level = .ok out

/-- The least candidate comes first and nothing can shade it. -/
theorem exists_least_mem_pick {shade : ScoredLink → ScoredLink → Bool} {cap : Nat}
    {candidates : List ScoredLink} (hne : candidates ≠ []) (hcap : 1 ≤ cap) :
    ∃ c ∈ pick shade cap [] (candidates.insertionSort (· ≤ ·)), ∀ d ∈ candidates, c ≤ d := by
  have hsort := List.pairwise_insertionSort (· ≤ ·) candidates
  have hperm := List.perm_insertionSort (· ≤ ·) candidates
  cases hl : candidates.insertionSort (· ≤ ·) with
  | nil =>
    rw [hl] at hperm
    exact absurd (List.nil_perm.mp hperm) hne
  | cons c rest =>
    rw [hl] at hsort hperm
    refine ⟨c, ?_, fun d hd => ?_⟩
    · rw [pick_unshaded (by simp; omega) rfl]
      exact List.mem_cons_self
    · rcases List.mem_cons.mp (hperm.mem_iff.mpr hd) with rfl | hd
      · exact le_rfl
      · exact (List.pairwise_cons.mp hsort).1 d hd

/-- **`robust_prune` computes the greedy sparse neighbourhood**, and it does return when every
candidate is stored. -/
theorem robustPrune_sparse (D : Distance) (M M0 : Nat) (alpha : F32) (lmdb : FrozenReader)
    (candidates : List ScoredLink) (level : Nat) :
    ((∀ c ∈ candidates, Live lmdb c.id) →
      ∃ out, robustPrune D M M0 alpha lmdb candidates level = .ok out) ∧
    ∀ out, robustPrune D M M0 alpha lmdb candidates level = .ok out →
      Sparse D M M0 alpha lmdb candidates level out := by
  refine ⟨fun hlive => robustPruneLoop_ends fun c hc => hlive c ?_, fun out h => ?_⟩
  · rw [List.nil_append] at hc
    exact (List.mem_insertionSort _).mp hc
  have heq := robustPrune_eq h
  have hsub : out.Sublist (candidates.insertionSort (· ≤ ·)) := heq ▸ pick_sublist _ _
  have hlen := length_robustPrune_le h
  have hapart : out.Pairwise (Apart D alpha lmdb) := pairwise_robustPruneLoop .nil h
  refine ⟨hsub, hlen, fun hne hcap => ?_, hapart, fun pre c post hsplit => ?_, ?_⟩
  · rw [heq]
    exact exists_least_mem_pick hne hcap
  · rw [heq, hsplit]
    simp only [← shades_iff]
    exact pick_at pre c post
  · have hsorted : out.insertionSort (· ≤ ·) = out := List.Pairwise.insertionSort_eq
      ((List.pairwise_insertionSort (· ≤ ·) candidates).sublist hsub)
    rw [robustPrune, hsorted]
    exact robustPruneLoop_self hapart hlen

end Hannoy.Graph
