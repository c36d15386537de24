import Hannoy.Search.Probes

/-!
# The linear scan is an exact search (`reader.rs:667-711`)

The scan offers the candidates in ascending order to a heap of `count` elements, and a full heap
gives way to strictly smaller distances only. This is a full sort by (distance, id), cut after
`count` elements.

* `Ranking`: the stored items among some ids in the order (distance, id); `ranking_scan`.
* `bruteForceSearch_nearest`: the scan returns the front of the ranking of its candidates, or of
  those before the probe that cancels it.
-/

namespace Hannoy.Search

open Hannoy.Library Hannoy.Index

variable {D : Distance} {query : Item} {r : Reader} {db : Database} {cancel : CancelFn}
  {count k : Nat} {ids : List ItemId}

/-! ## The order (distance, id) -/

/-- The distance the scan computes for a stored item. -/
def scanDistance (D : Distance) (query : Item) (r : Reader) (it : Item) : F32 :=
  D.distance (Item.ofVector D (it.toVector D r.dimensions)) query

/-- `ranked` lists the stored items among `ids` in the order (distance, id). -/
structure Ranking (D : Distance) (query : Item) (r : Reader) (db : Database) (ids : List ItemId)
    (ranked : List ScoredLink) : Prop where
  sorted : ranked.Pairwise fun s t => s.dist < t.dist ∨ s.dist = t.dist ∧ s.id < t.id
  mem : ∀ s, s ∈ ranked ↔ s.id ∈ ids ∧
    ∃ it, db.item? r.index s.id = some it ∧ s.dist = scanDistance D query r it

theorem scanScore_eq_some_iff {x : ItemId} {s : ScoredLink} :
    scanScore D query r db x = some s ↔
      ∃ it, db.item? r.index x = some it ∧ s = ⟨scanDistance D query r it, x⟩ := by
  simp [scanScore, scanDistance, eq_comm]

/-- Sorting the pairs of the scan gives a ranking. -/
theorem ranking_scan (hids : ids.Pairwise (· < ·)) :
    Ranking D query r db ids
      ((ids.filterMap (scanScore D query r db)).insertionSort (· ≤ ·)) := by
  have hperm := List.perm_insertionSort (· ≤ ·) (ids.filterMap (scanScore D query r db))
  have hnd : (ids.filterMap (scanScore D query r db)).Nodup := by
    refine (List.Pairwise.filterMap _ (fun a a' haa' b hb b' hb' => ?_) hids :
      List.Pairwise (fun s t : ScoredLink => s.id < t.id) _).imp
        fun h he => h.ne (congrArg Scored.id he)
    obtain ⟨it, -, rfl⟩ := scanScore_eq_some_iff.mp hb
    obtain ⟨it', -, rfl⟩ := scanScore_eq_some_iff.mp hb'
    exact haa'
  refine ⟨?_, fun s => ?_⟩
  · refine ((List.pairwise_insertionSort _ _).and (hperm.nodup_iff.mpr hnd)).imp fun h => ?_
    exact Scored.lt_def.mp (lt_of_le_of_ne h.1 h.2)
  · rw [hperm.mem_iff, List.mem_filterMap]
    constructor
    · rintro ⟨x, hx, hs⟩
      obtain ⟨it, hit, rfl⟩ := scanScore_eq_some_iff.mp hs
      exact ⟨hx, it, hit, rfl⟩
    · rintro ⟨hx, it, hit, hd⟩
      exact ⟨s.id, hx, scanScore_eq_some_iff.mpr ⟨it, hit, by rw [← hd]⟩⟩

/-! ## The candidates before the probe that cancels -/

theorem reached_first : ∀ {probes : Nat} (ids : List ItemId), probes ≤ k →
    FirstTrueAt cancel k → k < probes + ids.length →
      reached cancel probes ids = ids.take (k - probes) ∧ stopsEarly cancel probes ids = true
  | probes, [], hle, _, hlt => absurd hlt (by simpa using hle)
  | probes, id :: ids, hle, hc, hlt => by
    rcases hle.eq_or_lt with rfl | hprobes
    · simp [reached, stopsEarly, hc.1]
    · have hlen : k < probes + 1 + ids.length := by
        rw [List.length_cons] at hlt
        omega
      obtain ⟨hreached, hstop⟩ := reached_first ids hprobes hc hlen
      have htake : k - probes = (k - (probes + 1)) + 1 := by omega
      simp [reached, stopsEarly, hc.2 probes hprobes, hreached, hstop, htake]

/-- **The linear scan is an exact search**: it returns the first `count` stored candidates in the
order (distance, id), as far as there are so many. Cancelled at the call number `k`, counted from
zero, it returns the same for the first `k` candidates in ascending order. -/
theorem bruteForceSearch_nearest (hwt : db.WellTyped r.index) (query : Item)
    (candidates : RoaringBitmap) (count : Nat) :
    (∃ ranked, Ranking D query r db (ascending candidates) ranked ∧
      ∀ cancel, (∀ n, cancel n = false) →
        r.bruteForceSearch D db query candidates count cancel =
          .ok (.done (Reader.output (ranked.take (min count ranked.length))))) ∧
    ∀ k < candidates.card, ∃ ranked,
      Ranking D query r db ((ascending candidates).take k) ranked ∧
      ∀ cancel, FirstTrueAt cancel k →
        r.bruteForceSearch D db query candidates count cancel =
          .ok (.cancelled (Reader.output (ranked.take (min count ranked.length)))) := by
  have htake : ∀ l : List ScoredLink, l.take (min count l.length) = l.take count := fun l => by
    rw [← List.take_take, List.take_length]
  constructor
  · refine ⟨_, ranking_scan (ascending_lt candidates), fun cancel hc => ?_⟩
    obtain ⟨hreached, hstop⟩ := reached_never (ascending candidates) 0 hc
    rw [bruteForceSearch_ok hwt, hstop, scanPairs, hreached, htake]
    rfl
  · intro k hk
    refine ⟨_, ranking_scan ((ascending_lt candidates).sublist (List.take_sublist k _)),
      fun cancel hc => ?_⟩
    have hlen : k < 0 + (ascending candidates).length := by
      rwa [Nat.zero_add, length_ascending]
    obtain ⟨hreached, hstop⟩ := reached_first (ascending candidates) (Nat.zero_le k) hc hlen
    rw [bruteForceSearch_ok hwt, hstop, scanPairs, hreached, htake]
    rfl

/-- The scan over two stored items. -/
theorem nearest_twoItems : ∃ db r, opened manhattan 0 twoItems = some (db, r) ∧
    ∃ ranked, Ranking manhattan (Item.ofVector manhattan [F32.zero]) r db (ascending {0, 1, 2})
      ranked ∧ r.bruteForceSearch manhattan db (Item.ofVector manhattan [F32.zero]) {0, 1, 2} 1
        (fun _ => false) = .ok (.done (Reader.output (ranked.take (min 1 ranked.length)))) := by
  have h : (opened manhattan 0 twoItems).isSome := by decide +kernel
  obtain ⟨⟨db, r⟩, hopened⟩ := Option.isSome_iff_exists.mp h
  obtain ⟨-, -, hv⟩ := valid_of_opened (n := 1) (by decide) (by decide) hopened
  obtain ⟨⟨ranked, hranked, hscan⟩, -⟩ := bruteForceSearch_nearest (D := manhattan) hv.typed
    (Item.ofVector manhattan [F32.zero]) {0, 1, 2} 1
  exact ⟨db, r, hopened, ranked, hranked, hscan _ fun _ => rfl⟩

end Hannoy.Search
