import Hannoy.Search.Query

/-!
# Search by item and the item itself

`nns_by_item` takes the item out of the candidates of the graph search; the linear scan walks over
the candidates as they are given.

* `itself_notMem_graph`: the graph search never returns the item.
* `by_item_itself_iff`: when an answer leaves the item out. The linear scan does when the item is no
  candidate it reaches, or when enough candidates it reaches come first.
* `by_item_returns_itself`: two items, both candidates; the search by the first returns it.
-/

namespace Hannoy.Search

open Hannoy.Library Hannoy.Index

variable {D : Distance} {r : Reader} {db : Database} {opt : QueryBuilder} {cancel : CancelFn}

/-- The stored ones of some candidates that come before `item` in the order (distance to `it`,
id). -/
def preceding (D : Distance) (r : Reader) (db : Database) (it : Item) (item : ItemId)
    (candidates : List ItemId) : List ItemId :=
  candidates.filter fun y =>
    match db.item? r.index y with
    | some other => (⟨D.distance other it, y⟩ : ScoredLink) < ⟨D.distance it it, item⟩
    | none => false

theorem mem_map_fst_output {heap : List ScoredLink} {x : ItemId} :
    x ∈ (Reader.output heap).map Prod.fst ↔ x ∈ heap.map Scored.id := by
  rw [Reader.output, List.map_map]
  rfl

/-- **The graph search never returns the item.** -/
theorem itself_notMem_graph {first : List ScoredLink} {out : Completion (List ScoredLink)}
    {query : Item} {item : ItemId}
    (h : Layer0 D query r db (itemKeep r opt item) cancel opt.count opt.count first out) :
    item ∉ ((Reader.output out.intoInner).take opt.count).map Prod.fst := by
  intro hmem
  rw [List.map_take] at hmem
  obtain ⟨s, hs, hid⟩ := List.mem_map.mp (mem_map_fst_output.mp (List.mem_of_mem_take hmem))
  have hk := (h.found.sound s hs).2.1
  rw [hid, itemKeep] at hk
  exact Finset.notMem_erase item _ (of_decide_eq_true hk)

/-- How many pairs of the scan come before the one of the item. -/
theorem countP_scanPairs (hv : ValidIndex D r db) {it : Item} {item : ItemId}
    (candidates : RoaringBitmap) :
    (scanPairs D it r db cancel candidates).countP (· < ⟨D.distance it it, item⟩) =
      (preceding D r db it item (reached cancel 0 (ascending candidates))).length := by
  unfold scanPairs preceding
  generalize reached cancel 0 (ascending candidates) = l
  induction l with
  | nil => rfl
  | cons y l ih =>
    cases hy : db.item? r.index y with
    | none =>
      rw [List.filterMap_cons_none (by rw [scanScore, hy]; rfl), ih]
      simp only [List.filter_cons, hy]
      rw [if_neg Bool.false_ne_true]
    | some other =>
      rw [List.filterMap_cons_some ((scanScore_eq_some hv).mpr ⟨other, hy, rfl⟩), List.countP_cons,
        ih]
      simp only [List.filter_cons, hy]
      split_ifs
      · rw [List.length_cons]
      · rfl

/-- The item in the answer of a linear scan. -/
theorem itself_mem_scan_iff (hv : ValidIndex D r db) {it : Item} {item : ItemId}
    (hit : db.item? r.index item = some it) (candidates : RoaringBitmap) :
    item ∈ (Reader.output (smallest opt.count (scanPairs D it r db cancel candidates))).map
        Prod.fst ↔ item ∈ reached cancel 0 (ascending candidates) ∧
      (preceding D r db it item (reached cancel 0 (ascending candidates))).length < opt.count := by
  have hpair : ∀ s : ScoredLink, s ∈ scanPairs D it r db cancel candidates → s.id = item →
      s = ⟨D.distance it it, item⟩ := by
    intro s hs hid
    obtain ⟨-, it', hit', hd⟩ := (mem_scanPairs hv).mp hs
    rw [hid, hit] at hit'
    cases hit'
    rw [← hd, ← hid]
  rw [mem_map_fst_output, List.mem_map, ← countP_scanPairs hv]
  constructor
  · rintro ⟨s, hs, hid⟩
    obtain ⟨hmem, hcount⟩ := (mem_smallest_iff (nodup_scanPairs candidates)).mp hs
    rw [hpair s hmem hid] at hcount
    have := ((mem_scanPairs hv).mp hmem).1
    rw [hid] at this
    exact ⟨this, hcount⟩
  · rintro ⟨hmem, hcount⟩
    exact ⟨⟨D.distance it it, item⟩, (mem_smallest_iff (nodup_scanPairs candidates)).mpr
      ⟨(mem_scanPairs hv).mpr ⟨hmem, it, hit, rfl⟩, hcount⟩, rfl⟩

/-- A stored item is no candidate of a search that has none. -/
theorem notMem_of_noCandidates (hs : Searchable r db) {item : ItemId} {it : Item}
    (hit : db.item? r.index item = some it) {c : RoaringBitmap} (hc : opt.candidates = some c)
    (hno : r.noCandidates opt = true) : item ∉ c := by
  intro hcand
  have hitem : item ∈ r.items := (hs.items item).mpr (by rw [hit]; rfl)
  refine Finset.filter_eq_empty_iff.mp (filter_eq_empty_of_noCandidates hno) hitem ?_
  rw [optKeep, hc]
  exact decide_eq_true hcand

/-- The answer of a query by item is what its path returns. -/
theorem byItemWithCancellation_forall_iff {item : ItemId} {cancel : CancelFn}
    {found : Completion (List (ItemId × F32))}
    (h : r.nnsByItem D db opt item cancel = .ok (some found))
    (Q : List (ItemId × F32) → Prop) :
    (∀ out, r.byItemWithCancellation D db opt item cancel = .ok (some out) → Q out.nns) ↔
      Q found.intoInner := by
  constructor
  · intro hall
    unfold Reader.byItemWithCancellation at hall
    rw [h] at hall
    cases found with
    | done nns => exact hall _ rfl
    | cancelled nns => exact hall _ rfl
  · intro hq out hout
    obtain ⟨found', hfound, hnns⟩ := byItemWithCancellation_ok hout
    rw [h] at hfound
    cases hfound
    rwa [hnns]

/-- **When a search by item leaves the item out**: the graph is searched, or the item is no
candidate the scan reaches, or at least `count` of those it reaches come before it. -/
theorem by_item_itself_iff (hv : ValidIndex D r db) {it : Item} {item : ItemId}
    (hit : db.item? r.index item = some it) (opt : QueryBuilder) (cancel : CancelFn) :
    (∀ out, r.byItemWithCancellation D db opt item cancel = .ok (some out) →
      item ∉ out.nns.map Prod.fst) ↔
    (r.shouldLinearScan opt = false ∨ ∀ c, opt.candidates = some c →
      item ∉ reached cancel 0 (ascending c) ∨
        opt.count ≤ (preceding D r db it item (reached cancel 0 (ascending c))).length) := by
  have hs := hv.toSearchable
  rcases nnsByItem_cases D opt hs item cancel with
    ⟨hno, heq⟩ | ⟨it', hit', -, hpath⟩
  · -- nothing to find, so the item is no candidate
    refine iff_of_true (fun out h => ?_) (Or.inr fun c hc => Or.inl fun hmem => ?_)
    · obtain ⟨found, hfound, -⟩ := byItemWithCancellation_ok h
      rw [heq] at hfound
      cases hfound
    · rcases hno with hno | hno
      · exact notMem_of_noCandidates hs hit hc hno
          (mem_ascending.mp ((reached_sublist 0 _).subset hmem))
      · rw [hit] at hno
        cases hno
  rw [hit] at hit'
  cases hit'
  obtain ⟨vec, hlen, hvec⟩ := hv.vectors hit
  have hquery : Item.ofVector D (it.toVector D r.dimensions) = it := by
    rw [hvec, ← hlen, Item.ofVector_toVector]
  rw [hquery] at hpath
  rcases hpath with ⟨hscan, c, hc, heq⟩ | ⟨hscan, v, hl, -, hef, hk, heq⟩
  · rw [bruteForceSearch_ok hs.typed c] at heq
    rw [byItemWithCancellation_forall_iff heq fun nns => item ∉ nns.map Prod.fst,
      Completion.intoInner_ite, itself_mem_scan_iff hv hit, not_and_or, Nat.not_lt]
    constructor
    · intro h
      refine Or.inr fun c' hc' => ?_
      rw [hc] at hc'
      cases hc'
      exact h
    · rintro (h | h)
      · rw [hscan] at h
        cases h
      · exact h c hc
  · obtain ⟨_, out', hout, hlayer⟩ := searchLayer0_byItem D it hs hl hef hk cancel
    rw [hout] at heq
    rw [byItemWithCancellation_forall_iff heq fun nns => item ∉ nns.map Prod.fst,
      Completion.intoInner_map]
    exact iff_of_true (itself_notMem_graph hlayer) (Or.inl hscan)

/-- With the other item as the only candidate the scan leaves the item out. -/
theorem itself_twoItems : ∃ db r, opened manhattan 0 twoItems = some (db, r) ∧ ∀ out,
    r.byItemWithCancellation manhattan db ((nns 2).withCandidates {1}) 0 (fun _ => false) =
      .ok (some out) → 0 ∉ out.nns.map Prod.fst := by
  have h : ((opened manhattan 0 twoItems).map fun x => decide (0 ∈ x.2.items)) = some true := by
    decide +kernel
  obtain ⟨⟨db, r⟩, hopened, hmem⟩ := Option.map_eq_some_iff.mp h
  obtain ⟨-, -, hv⟩ := valid_of_opened (n := 1) (by decide) (by decide) hopened
  obtain ⟨it, hit⟩ := hv.toSearchable.exists_item (of_decide_eq_true hmem)
  refine ⟨db, r, hopened, (by_item_itself_iff hv hit _ _).mpr (Or.inr fun c hc => Or.inl ?_)⟩
  obtain rfl : {1} = c := Option.some.inj hc
  decide +kernel

/-- Both items are candidates: the search by the first one returns it. -/
theorem by_item_returns_itself : ∃ db r, opened manhattan 0 twoItems = some (db, r) ∧
    ValidIndex manhattan r db ∧ ∃ out,
      r.byItem manhattan db ((nns 2).withCandidates {0, 1}) 0 = .ok (some out) ∧
      0 ∈ out.nns.map Prod.fst := by
  have h : ((opened manhattan 0 twoItems).bind fun x =>
      (x.2.byItem manhattan x.1 ((nns 2).withCandidates {0, 1}) 0).toOption.map fun out =>
        (out.map Searched.nns)) = some (some [(0, F32.zero), (1, F32.one)]) := by
    decide +kernel
  obtain ⟨⟨db, r⟩, hopened, h⟩ := Option.bind_eq_some_iff.mp h
  obtain ⟨out, hout, h⟩ := Option.map_eq_some_iff.mp h
  obtain ⟨found, rfl, hnns⟩ := Option.map_eq_some_iff.mp h
  obtain ⟨-, -, hv⟩ := valid_of_opened (n := 1) (by decide) (by decide) hopened
  refine ⟨db, r, hopened, hv, found, Txn.ok_of_toOption hout, ?_⟩
  rw [hnns]
  exact List.mem_cons_self

end Hannoy.Search
