import Hannoy.Search.Restart

/-!
# The linear scan

`brute_force_search` walks over the candidates in ascending order, skips those that are not stored,
and keeps the `count` nearest. The vectors are re-encoded on the way.

* `scanLoop_ok`, `bruteForceSearch_ok`: the scan returns the `count` smallest of the pairs
  (distance, id) of the candidates it reaches before it is cancelled.
* `found_scan`: on a valid index, with a symmetric distance, these are the distances of the stored
  items to the query.
-/

namespace Hannoy.Search

open Hannoy.Library Hannoy.Index

variable {D : Distance} {query : Item} {r : Reader} {db : Database} {cancel : CancelFn}
  {count : Nat}

/-! ## The loop -/

/-- The candidates the scan reaches before it is cancelled. -/
def reached (cancel : CancelFn) : Nat → List ItemId → List ItemId
  | _, [] => []
  | probes, id :: ids => if cancel probes then [] else id :: reached cancel (probes + 1) ids

/-- The scan is cancelled before its end. -/
def stopsEarly (cancel : CancelFn) : Nat → List ItemId → Bool
  | _, [] => false
  | probes, _ :: ids => cancel probes || stopsEarly cancel (probes + 1) ids

/-- The pair the scan computes for a stored candidate. -/
def scanScore (D : Distance) (query : Item) (r : Reader) (db : Database) (id : ItemId) :
    Option ScoredLink :=
  (db.item? r.index id).map fun it =>
    ⟨D.distance (Item.ofVector D (it.toVector D r.dimensions)) query, id⟩

theorem itemVector_ok (hwt : db.WellTyped r.index) (id : ItemId) :
    r.itemVector D db id = .ok ((db.item? r.index id).map (Item.toVector D r.dimensions)) := by
  rw [Reader.itemVector, getItem_ok hwt]
  rfl

theorem scanLoop_eq (hwt : db.WellTyped r.index) :
    ∀ {ids : List ItemId} {probes : Nat} {heap : List ScoredLink},
      r.scanLoop D db query count cancel probes ids heap =
        .ok ((if stopsEarly cancel probes ids then Completion.cancelled else Completion.done)
          (((reached cancel probes ids).filterMap (scanScore D query r db)).foldl
            (Reader.scanPush count) heap))
  | [], _, _ => rfl
  | id :: ids, probes, heap => by
    unfold Reader.scanLoop reached stopsEarly
    by_cases hc : cancel probes = true
    · simp [hc, pure, Except.pure]
    · rw [if_neg hc, if_neg hc, itemVector_ok hwt, Bool.eq_false_iff.mpr hc, Bool.false_or]
      cases hit : db.item? r.index id with
      | none =>
        rw [List.filterMap_cons_none (by rw [scanScore, hit]; rfl)]
        exact scanLoop_eq hwt
      | some it =>
        rw [List.filterMap_cons_some (b := ⟨D.distance (Item.ofVector D
          (it.toVector D r.dimensions)) query, id⟩) (by rw [scanScore, hit]; rfl), List.foldl_cons]
        exact scanLoop_eq hwt

/-- On ascending ids the comparison of distances decides as that of the pairs would. -/
theorem scanPush_eq {heap : List ScoredLink} {s : ScoredLink} (h : ∀ t ∈ heap, t.id < s.id) :
    Reader.scanPush count heap s = pushBounded count heap s := by
  unfold Reader.scanPush pushBounded
  by_cases hfull : count ≤ heap.length
  · rw [if_pos hfull, if_pos hfull]
    cases htop : heap.getLast? with
    | none => rfl
    | some top =>
      have hlt : s.dist < top.dist ↔ s < top := by
        rw [Scored.lt_def]
        refine ⟨Or.inl, fun h' => h'.elim id fun h' => ?_⟩
        exact absurd h'.2 (h top (List.mem_of_getLast? htop)).le.not_gt
      simp only [hlt]
  · rw [if_neg hfull, if_neg hfull]

theorem mem_of_mem_pushBounded {heap : List ScoredLink} {s t : ScoredLink}
    (h : t ∈ pushBounded count heap s) : t = s ∨ t ∈ heap := by
  unfold pushBounded at h
  split at h
  · split at h
    · split_ifs at h
      · exact (mem_push.mp h).imp_right List.mem_of_mem_dropLast
      · exact Or.inr h
    · exact Or.inr h
  · exact mem_push.mp h

theorem foldl_scanPush_eq : ∀ {l heap : List ScoredLink}, l.Pairwise (fun a b => a.id < b.id) →
    (∀ t ∈ heap, ∀ s ∈ l, t.id < s.id) →
      l.foldl (Reader.scanPush count) heap = l.foldl (pushBounded count) heap
  | [], _, _, _ => rfl
  | s :: l, heap, hl, hh => by
    obtain ⟨hs, hl⟩ := List.pairwise_cons.mp hl
    rw [List.foldl_cons, List.foldl_cons, scanPush_eq fun t ht => hh t ht s List.mem_cons_self]
    refine foldl_scanPush_eq hl fun t ht u hu => ?_
    rcases mem_of_mem_pushBounded ht with rfl | ht
    · exact hs u hu
    · exact hh t ht u (List.mem_cons_of_mem _ hu)

theorem reached_sublist : ∀ (probes : Nat) (ids : List ItemId),
    (reached cancel probes ids).Sublist ids
  | _, [] => List.Sublist.slnil
  | probes, id :: ids => by
    unfold reached
    split_ifs
    · exact List.nil_sublist _
    · exact (reached_sublist (probes + 1) ids).cons_cons id

theorem reached_never (ids : List ItemId) (probes : Nat) (h : ∀ n, cancel n = false) :
    reached cancel probes ids = ids ∧ stopsEarly cancel probes ids = false := by
  induction ids generalizing probes with
  | nil => exact ⟨rfl, rfl⟩
  | cons id ids ih =>
    obtain ⟨h1, h2⟩ := ih (probes + 1)
    simp [reached, stopsEarly, h probes, h1, h2]

/-- The pairs of the candidates the scan reaches. -/
def scanPairs (D : Distance) (query : Item) (r : Reader) (db : Database) (cancel : CancelFn)
    (candidates : RoaringBitmap) : List ScoredLink :=
  (reached cancel 0 (ascending candidates)).filterMap (scanScore D query r db)

theorem pairwise_scanPairs (candidates : RoaringBitmap) :
    (scanPairs D query r db cancel candidates).Pairwise fun a b => a.id < b.id := by
  have hreached : (reached cancel 0 (ascending candidates)).Pairwise (· < ·) :=
    (ascending_lt candidates).sublist (reached_sublist 0 _)
  have hid : ∀ {x s}, scanScore D query r db x = some s → s.id = x := by
    intro x s h
    obtain ⟨it, -, rfl⟩ := Option.map_eq_some_iff.mp h
    rfl
  refine List.Pairwise.filterMap (scanScore D query r db) (fun a a' haa' b hb b' hb' => ?_) hreached
  rw [hid hb, hid hb']
  exact haa'

/-- **The linear scan** returns the `count` smallest pairs of the candidates it reaches. -/
theorem bruteForceSearch_ok (hwt : db.WellTyped r.index) (candidates : RoaringBitmap) :
    r.bruteForceSearch D db query candidates count cancel =
      .ok ((if stopsEarly cancel 0 (ascending candidates) then Completion.cancelled
        else Completion.done)
        (Reader.output (smallest count (scanPairs D query r db cancel candidates)))) := by
  have hfold : (scanPairs D query r db cancel candidates).foldl (Reader.scanPush count) [] =
      smallest count (scanPairs D query r db cancel candidates) := by
    rw [foldl_scanPush_eq (pairwise_scanPairs candidates) fun t ht => absurd ht List.not_mem_nil]
    have := foldl_pushBounded count (scanPairs D query r db cancel candidates) []
    simp only [smallest, List.insertionSort_nil, List.take_nil, List.append_nil] at this
    rw [this]
    exact smallest_congr (List.reverse_perm _)
  unfold Reader.bruteForceSearch
  rw [scanLoop_eq hwt]
  show Except.ok (Completion.map _ _) = _
  rw [← scanPairs, hfold]
  split_ifs <;> rfl

/-- As many as there are are found, up to `count`, when the scan is not cancelled. -/
theorem length_scan (hs : Searchable r db) (candidates : RoaringBitmap)
    (hc : ∀ n, cancel n = false) :
    (smallest count (scanPairs D query r db cancel candidates)).length =
      min count (r.items ∩ candidates).card := by
  have hset : ((scanPairs D query r db cancel candidates).map Scored.id).toFinset =
      r.items ∩ candidates := by
    ext x
    simp only [List.mem_toFinset, List.mem_map, scanPairs, List.mem_filterMap, scanScore,
      (reached_never _ 0 hc).1, mem_ascending, Finset.mem_inter, Option.map_eq_some_iff]
    constructor
    · rintro ⟨_, ⟨x, hx, it, hit, rfl⟩, rfl⟩
      exact ⟨(hs.items x).mpr (by rw [hit]; rfl), hx⟩
    · rintro ⟨hmem, hx⟩
      obtain ⟨it, hit⟩ := hs.exists_item hmem
      exact ⟨_, ⟨x, hx, it, hit, rfl⟩, rfl⟩
  have hnd : ((scanPairs D query r db cancel candidates).map Scored.id).Nodup :=
    List.pairwise_map.mpr ((pairwise_scanPairs candidates).imp ne_of_lt)
  rw [length_smallest, ← hset, List.toFinset_card_of_nodup hnd, List.length_map]

/-! ## On a valid index -/

/-- The re-encoded item of a valid index is the stored one. -/
theorem scanScore_eq_some (hv : ValidIndex D r db) {x : ItemId} {s : ScoredLink} :
    scanScore D query r db x = some s ↔
      ∃ it, db.item? r.index x = some it ∧ s = ⟨D.distance it query, x⟩ := by
  unfold scanScore
  rw [Option.map_eq_some_iff]
  refine exists_congr fun it => and_congr_right fun hit => ?_
  obtain ⟨v, hlen, rfl⟩ := hv.vectors hit
  rw [← hlen, Item.ofVector_toVector, eq_comm]

/-- The pairs of the scan are those of the stored candidates it reaches. -/
theorem mem_scanPairs (hv : ValidIndex D r db) {candidates : RoaringBitmap} {s : ScoredLink} :
    s ∈ scanPairs D query r db cancel candidates ↔
      s.id ∈ reached cancel 0 (ascending candidates) ∧
        ∃ it, db.item? r.index s.id = some it ∧ s.dist = D.distance it query := by
  rw [scanPairs, List.mem_filterMap]
  constructor
  · rintro ⟨x, hx, hs⟩
    obtain ⟨it, hit, rfl⟩ := (scanScore_eq_some hv).mp hs
    exact ⟨hx, it, hit, rfl⟩
  · rintro ⟨hx, it, hit, hs⟩
    refine ⟨s.id, hx, (scanScore_eq_some hv).mpr ⟨it, hit, ?_⟩⟩
    rw [← hs]

theorem nodup_scanPairs (candidates : RoaringBitmap) :
    (scanPairs D query r db cancel candidates).Nodup :=
  (pairwise_scanPairs candidates).imp fun h he => absurd (congrArg Scored.id he) h.ne

/-- The distance is the same in both directions. -/
def Symmetric (D : Distance) : Prop := ∀ p q, D.distance p q = D.distance q p

/-- The distance between the query and a stored item is the same in both directions. -/
def SymmetricTo (D : Distance) (query : Item) (r : Reader) (db : Database) : Prop :=
  ∀ x it, db.item? r.index x = some it → D.distance query it = D.distance it query

theorem Symmetric.to (h : Symmetric D) : SymmetricTo D query r db := fun _ it _ => h query it

/-- What the scan finds. -/
theorem found_scan (hv : ValidIndex D r db) (hsym : SymmetricTo D query r db)
    (candidates : RoaringBitmap) : Found D query r db (fun x => x ∈ candidates)
      (smallest count (scanPairs D query r db cancel candidates)) := by
  have hperm := List.perm_insertionSort (· ≤ ·) (scanPairs D query r db cancel candidates)
  refine ⟨?_, fun s hs => ?_⟩
  · have hlt : ((scanPairs D query r db cancel candidates).insertionSort (· ≤ ·)).Pairwise
        (· < ·) := ((List.pairwise_insertionSort _ _).and
          (hperm.nodup_iff.mpr (nodup_scanPairs candidates))).imp
      fun h => lt_of_le_of_ne h.1 h.2
    exact hlt.sublist (List.take_sublist count _)
  · obtain ⟨hx, it, hit, hd⟩ := (mem_scanPairs hv).mp (mem_of_mem_smallest hs)
    refine ⟨?_, ?_, (hv.items s.id).mpr (by rw [hit]; rfl)⟩
    · rw [scored, score, hit]
      simp only
      rw [hsym _ it hit, ← hd]
    · simpa using mem_ascending.mp ((reached_sublist 0 _).subset hx)

end Hannoy.Search
