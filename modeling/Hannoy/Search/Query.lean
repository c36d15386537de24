import Hannoy.Index.History
import Hannoy.Search.Scan

/-!
# Queries

A query is answered by one of three paths: there is nothing to find, the linear scan, or the
search of the graph. `nnsByVec_cases` and `nnsByItem_cases` say which, and what the path returns;
everything below about queries follows from them.

* `search_never_panics`: on an index built by a run no query panics.
-/

namespace Hannoy.Search

open Hannoy.Library Hannoy.Index

variable {D : Distance} {query : Item} {r : Reader} {db db₀ : Database} {opt : QueryBuilder}
  {cancel : CancelFn} {i : UInt16}

/-! ## The three paths -/

/-- The candidates of a query pass its filter. -/
def optKeep (opt : QueryBuilder) (p : ItemId) : Bool :=
  match opt.candidates with
  | none => true
  | some c => p ∈ c

theorem filter_candidates :
    (opt.candidates.filter fun _ => r.shouldLinearScan opt) =
      if r.shouldLinearScan opt then opt.candidates else none := by
  cases opt.candidates <;> cases r.shouldLinearScan opt <;> rfl

theorem candidates_of_shouldLinearScan (h : r.shouldLinearScan opt = true) :
    ∃ c, opt.candidates = some c := by
  unfold Reader.shouldLinearScan at h
  split_ifs at h
  cases hc : opt.candidates with
  | none => rw [hc] at h; cases h
  | some c => exact ⟨c, rfl⟩

theorem items_ne_empty (h : r.noCandidates opt = false) : r.items ≠ ∅ := by
  intro he
  rw [Reader.noCandidates, he] at h
  simp at h

/-- A query without candidates has nothing to find. -/
theorem filter_eq_empty_of_noCandidates (h : r.noCandidates opt = true) :
    r.items.filter (optKeep opt · = true) = ∅ := by
  refine Finset.filter_eq_empty_iff.mpr fun x hx hk => ?_
  unfold Reader.noCandidates at h
  cases hc : opt.candidates with
  | none =>
    rw [hc] at h
    exact Finset.ne_empty_of_mem hx (by simpa using h)
  | some c =>
    rw [optKeep, hc] at hk
    rw [hc] at h
    have hmem : x ∈ r.items ∩ c := Finset.mem_inter.mpr ⟨hx, of_decide_eq_true hk⟩
    rcases Bool.or_eq_true_iff.mp h with h | h
    · rw [of_decide_eq_true h, Finset.empty_inter] at hmem
      exact Finset.notMem_empty x hmem
    · rw [of_decide_eq_true h] at hmem
      exact Finset.notMem_empty x hmem

/-- The visitor of the search of layer 0 by vector. -/
def vectorVisitor (v : Visitor) (opt : QueryBuilder) : Visitor :=
  { v with ef := max opt.ef opt.count, candidates := opt.candidates }

theorem Landed.vectorVisitor {v : Visitor} (hl : Landed r db v) :
    Landed r db (vectorVisitor v opt) :=
  ⟨hl.level, hl.nonempty, hl.nodup, hl.hasLinks⟩

variable (D opt) in
/-- **The paths of `nns_by_vec`.** -/
theorem nnsByVec_cases (hs : Searchable r db) (query : Item) (cancel : CancelFn) :
    (r.noCandidates opt = true ∧ r.nnsByVec D db opt query cancel = .ok (.done [])) ∨
    (r.noCandidates opt = false ∧ r.shouldLinearScan opt = true ∧ ∃ c, opt.candidates = some c ∧
      r.nnsByVec D db opt query cancel = r.bruteForceSearch D db query c opt.count cancel) ∨
    (r.noCandidates opt = false ∧ r.shouldLinearScan opt = false ∧
      ∃ v, r.descend D db query r.maxLevel (topVisitor r) ∅ = .ok v ∧ Landed r db v ∧
        r.nnsByVec D db opt query cancel = r.searchLayer0 D db query (vectorVisitor v opt) opt.count
          (Reader.widthByVector opt) opt.ef cancel) := by
  unfold Reader.nnsByVec
  by_cases hno : r.noCandidates opt = true
  · rw [if_pos hno]
    exact Or.inl ⟨hno, rfl⟩
  rw [if_neg hno, filter_candidates]
  have hno' := Bool.eq_false_iff.mpr hno
  by_cases hscan : r.shouldLinearScan opt = true
  · obtain ⟨c, hc⟩ := candidates_of_shouldLinearScan hscan
    rw [if_pos hscan, hc]
    exact Or.inr (Or.inl ⟨hno', hscan, c, rfl, rfl⟩)
  · rw [if_neg hscan]
    obtain ⟨v, hv, hl⟩ := descend_top_ok D query hs (items_ne_empty hno')
    refine Or.inr (Or.inr ⟨hno', Bool.eq_false_iff.mpr hscan, v, hv, hl, ?_⟩)
    show r.hnswSearch D db opt query cancel = _
    unfold Reader.hnswSearch
    rw [← topVisitor, hv]
    rfl

/-- The filter of `nns_by_item`: everything but the item itself. -/
def itemKeep (r : Reader) (opt : QueryBuilder) (item : ItemId) (p : ItemId) : Bool :=
  p ∈ (opt.candidates.getD r.items).erase item

/-- The visitor of the search of layer 0 by item. -/
def itemVisitor (r : Reader) (opt : QueryBuilder) (item : ItemId) : Visitor :=
  ⟨[item], 0, max opt.ef opt.count, some ((opt.candidates.getD r.items).erase item)⟩

variable (D opt) in
/-- **The paths of `nns_by_item`.** -/
theorem nnsByItem_cases (hs : Searchable r db) (item : ItemId) (cancel : CancelFn) :
    ((r.noCandidates opt = true ∨ db.item? r.index item = none) ∧
      r.nnsByItem D db opt item cancel = .ok none) ∨
    ∃ it, db.item? r.index item = some it ∧ r.noCandidates opt = false ∧
      ((r.shouldLinearScan opt = true ∧ ∃ c, opt.candidates = some c ∧
        r.nnsByItem D db opt item cancel = (r.bruteForceSearch D db
          (Item.ofVector D (it.toVector D r.dimensions)) c opt.count cancel).map some) ∨
      (r.shouldLinearScan opt = false ∧ ∃ v : Visitor, Landed r db v ∧
        v = itemVisitor r opt item ∧ v.ef = max opt.ef opt.count ∧ v.keep = itemKeep r opt item ∧
        r.nnsByItem D db opt item cancel = (r.searchLayer0 D db
          (Item.ofVector D (it.toVector D r.dimensions)) v opt.count (Reader.widthByItem opt)
          opt.count cancel).map some)) := by
  unfold Reader.nnsByItem
  by_cases hno : r.noCandidates opt = true
  · rw [if_pos hno]
    exact Or.inl ⟨Or.inl hno, rfl⟩
  rw [if_neg hno, itemVector_ok hs.typed, filter_candidates]
  have hno' := Bool.eq_false_iff.mpr hno
  cases hit : db.item? r.index item with
  | none => exact Or.inl ⟨Or.inr rfl, rfl⟩
  | some it =>
    refine Or.inr ⟨it, rfl, hno', ?_⟩
    by_cases hscan : r.shouldLinearScan opt = true
    · obtain ⟨c, hc⟩ := candidates_of_shouldLinearScan hscan
      rw [if_pos hscan, hc]
      refine Or.inl ⟨hscan, c, rfl, ?_⟩
      show (do
        let out ← r.bruteForceSearch D db _ c opt.count cancel
        pure (some out)) = _
      cases r.bruteForceSearch D db (Item.ofVector D (it.toVector D r.dimensions)) c opt.count
        cancel <;> rfl
    · rw [if_neg hscan]
      have hitem : item ∈ r.items := (hs.items item).mpr (by rw [hit]; rfl)
      refine Or.inr ⟨Bool.eq_false_iff.mpr hscan, itemVisitor r opt item,
        ⟨rfl, List.cons_ne_nil _ _, List.nodup_singleton _, fun ep hep => ?_⟩, rfl, rfl, rfl, ?_⟩
      · rw [List.mem_singleton.mp hep]
        exact hasLinks_of_mem_items hs hitem
      · show (do
          let out ← r.searchLayer0 D db _ (itemVisitor r opt item) opt.count
            (Reader.widthByItem opt) opt.count cancel
          pure (some out)) = _
        cases r.searchLayer0 D db (Item.ofVector D (it.toVector D r.dimensions))
          (itemVisitor r opt item) opt.count (Reader.widthByItem opt) opt.count cancel <;> rfl

/-! ## What the graph search returns -/

variable (D query opt) in
theorem searchLayer0_byVector (hs : Searchable r db) {v : Visitor} (hl : Landed r db v)
    (cancel : CancelFn) : ∃ visited st out,
      Ends D (vectorVisitor v opt) query r db cancel
        (startState D (vectorVisitor v opt) query r db ∅) st visited ∧
      r.searchLayer0 D db query (vectorVisitor v opt) opt.count (Reader.widthByVector opt) opt.ef
        cancel = .ok (out.map fun heap => (Reader.output heap).take opt.count) ∧
      Layer0 D query r db (optKeep opt) cancel opt.count opt.ef st.res out :=
  searchLayer0_ok D query hs (v := vectorVisitor v opt)
    hl.vectorVisitor opt.count (Reader.widthByVector opt) opt.ef
    (le_max_right _ _) (fun _ _ => rfl) cancel

variable (D query) in
theorem searchLayer0_byItem (hs : Searchable r db) {v : Visitor} {item : ItemId}
    (hl : Landed r db v) (hef : v.ef = max opt.ef opt.count) (hk : v.keep = itemKeep r opt item)
    (cancel : CancelFn) : ∃ first out, r.searchLayer0 D db query v opt.count
        (Reader.widthByItem opt) opt.count cancel =
          .ok (out.map fun heap => (Reader.output heap).take opt.count) ∧
      Layer0 D query r db (itemKeep r opt item) cancel opt.count opt.count first out := by
  rw [← hk]
  obtain ⟨_, st, out, -, hout, hlayer⟩ := searchLayer0_ok D query hs hl opt.count
    (Reader.widthByItem opt) opt.count (by rw [hef]; exact le_max_right _ _) (fun n hn => by
      rw [max_self] at hn
      rw [Reader.widthByItem, if_pos hn.le]
      rfl) cancel
  exact ⟨st.res, out, hout, hlayer⟩

/-! ## From the queries to the searches -/

theorem queryItem_ok {vector : List F32} {q : Item} (h : r.queryItem D vector = .ok q) :
    vector.length = r.dimensions ∧ q = Item.ofVector D vector := by
  unfold Reader.queryItem at h
  by_cases hlen : vector.length ≠ r.dimensions
  · rw [if_pos hlen] at h
    cases h
  · rw [if_neg hlen] at h
    cases h
    exact ⟨not_not.mp hlen, rfl⟩

theorem byVector_ok {vector : List F32} {out : Searched}
    (h : r.byVector D db opt vector = .ok out) : ∃ found,
      r.nnsByVec D db opt (Item.ofVector D vector) (fun _ => false) = .ok found ∧
        out.nns = found.intoInner := by
  obtain ⟨q, hq, h⟩ := Txn.ok_bind_iff.mp h
  obtain ⟨-, rfl⟩ := queryItem_ok hq
  obtain ⟨found, hfound, h⟩ := Txn.ok_bind_iff.mp h
  cases h
  exact ⟨found, hfound, rfl⟩

/-- The search returns what `by_vector` does. -/
theorem byVector_eq {vector : List F32} (hlen : vector.length = r.dimensions)
    {found : Completion (List (ItemId × F32))}
    (h : r.nnsByVec D db opt (Item.ofVector D vector) (fun _ => false) = .ok found) :
    r.byVector D db opt vector = .ok ⟨found.intoInner, false⟩ := by
  unfold Reader.byVector Reader.queryItem
  rw [if_neg (not_not.mpr hlen)]
  simp only [bind, Except.bind, pure, Except.pure, h]

theorem byVectorWithCancellation_ok {vector : List F32} {out : Searched}
    (h : r.byVectorWithCancellation D db opt vector cancel = .ok out) : ∃ found,
      r.nnsByVec D db opt (Item.ofVector D vector) cancel = .ok found ∧
        out.nns = found.intoInner := by
  obtain ⟨q, hq, h⟩ := Txn.ok_bind_iff.mp h
  obtain ⟨-, rfl⟩ := queryItem_ok hq
  obtain ⟨found, hfound, h⟩ := Txn.ok_bind_iff.mp h
  refine ⟨found, hfound, ?_⟩
  cases found with
  | done l => cases h; rfl
  | cancelled l => cases h; rfl

theorem byItem_ok {item : ItemId} {out : Searched} (h : r.byItem D db opt item = .ok (some out)) :
    ∃ found, r.nnsByItem D db opt item (fun _ => false) = .ok (some found) ∧
      out.nns = found.intoInner := by
  obtain ⟨found, hfound, h⟩ := Txn.ok_bind_iff.mp h
  rcases found with _ | l | l <;> cases h
  exact ⟨_, hfound, rfl⟩

theorem byItemWithCancellation_ok {item : ItemId} {out : Searched}
    (h : r.byItemWithCancellation D db opt item cancel = .ok (some out)) :
    ∃ found, r.nnsByItem D db opt item cancel = .ok (some found) ∧ out.nns = found.intoInner := by
  obtain ⟨found, hfound, h⟩ := Txn.ok_bind_iff.mp h
  rcases found with _ | l | l <;> cases h <;> exact ⟨_, hfound, rfl⟩

/-! ## No panic -/

variable (D opt) in
theorem nnsByVec_ok (hs : Searchable r db) (query : Item) (cancel : CancelFn) :
    ∃ out, r.nnsByVec D db opt query cancel = .ok out := by
  rcases nnsByVec_cases D opt hs query cancel with
    ⟨-, h⟩ | ⟨-, -, c, -, h⟩ | ⟨-, -, v, -, hl, h⟩
  · exact ⟨_, h⟩
  · exact ⟨_, h.trans (bruteForceSearch_ok hs.typed c)⟩
  · obtain ⟨_, _, out, -, hout, -⟩ :=
      searchLayer0_byVector D query opt hs hl cancel
    exact ⟨_, h.trans hout⟩

variable (D opt) in
/-- `nns_by_item` returns, and completes when it is never cancelled. -/
theorem nnsByItem_ok (hs : Searchable r db) (item : ItemId) (cancel : CancelFn) :
    ∃ out, r.nnsByItem D db opt item cancel = .ok out ∧
      ((∀ n, cancel n = false) → ∀ l, out ≠ some (.cancelled l)) := by
  rcases nnsByItem_cases D opt hs item cancel with
    ⟨-, h⟩ | ⟨it, -, -, ⟨-, c, -, h⟩ | ⟨-, v, hl, -, hef, hk, h⟩⟩
  · exact ⟨_, h, fun _ l heq => (by cases heq)⟩
  · rw [bruteForceSearch_ok hs.typed c] at h
    refine ⟨_, h, fun hc l heq => ?_⟩
    rw [(reached_never (ascending c) 0 hc).2] at heq
    cases heq
  · obtain ⟨_, out, hout, hlayer⟩ := searchLayer0_byItem D
      (Item.ofVector D (it.toVector D r.dimensions)) hs hl hef hk cancel
    rw [hout] at h
    refine ⟨_, h, fun hc l heq => ?_⟩
    cases out with
    | done heap => cases heq
    | cancelled heap =>
      obtain ⟨n, hn⟩ := hlayer.cancelled heap rfl
      rw [hc n] at hn
      cases hn

/-- **No query panics**: on a searchable index the only error is that of a vector of the wrong
length. -/
theorem search_never_panics (h₀ : NoEntries i db₀) {tr : List (Writer × Op)}
    (hrun : Run D i db₀ tr db) (hopen : Reader.open D db i = .ok r) (opt : QueryBuilder)
    (vector : List F32) (item : ItemId) (cancel : CancelFn) (p : Panic) :
    r.byVector D db opt vector ≠ .error (.panic p) ∧
      r.byVectorWithCancellation D db opt vector cancel ≠ .error (.panic p) ∧
      r.byItem D db opt item ≠ .error (.panic p) ∧
      r.byItemWithCancellation D db opt item cancel ≠ .error (.panic p) := by
  have hs := searchable_of_run h₀ hrun hopen
  have hquery : r.queryItem D vector = .error (.err (.invalidVecDimension r.dimensions
      vector.length)) ∨ r.queryItem D vector = .ok (Item.ofVector D vector) := by
    unfold Reader.queryItem
    split_ifs
    · exact Or.inl rfl
    · exact Or.inr rfl
  refine ⟨?_, ?_, ?_, ?_⟩
  · unfold Reader.byVector
    rcases hquery with h | h <;> rw [h]
    · intro h; cases h
    · obtain ⟨out, hout⟩ := nnsByVec_ok D opt hs (Item.ofVector D vector)
        fun _ => false
      simp only [bind, Except.bind, hout]
      intro h; cases h
  · unfold Reader.byVectorWithCancellation
    rcases hquery with h | h <;> rw [h]
    · intro h; cases h
    · obtain ⟨out, hout⟩ := nnsByVec_ok D opt hs (Item.ofVector D vector) cancel
      simp only [bind, Except.bind, hout]
      cases out <;> (intro h; cases h)
  · unfold Reader.byItem
    obtain ⟨out, hout, hdone⟩ := nnsByItem_ok D opt hs item fun _ => false
    simp only [bind, Except.bind, hout]
    rcases out with _ | _ | l
    · intro h; cases h
    · intro h; cases h
    · exact absurd rfl (hdone (fun _ => rfl) l)
  · unfold Reader.byItemWithCancellation
    obtain ⟨out, hout, -⟩ := nnsByItem_ok D opt hs item cancel
    simp only [bind, Except.bind, hout]
    rcases out with _ | _ | _ <;> (intro h; cases h)

theorem search_twoItems : ∃ db r, opened manhattan 0 twoItems = some (db, r) ∧
    r.byVector manhattan db (nns 2) [F32.one] ≠ .error (.panic .linksMustExist) ∧
    r.byItemWithCancellation manhattan db (nns 2) 0 (· = 1) ≠ .error (.panic .countUnderflow) := by
  have h : (opened manhattan 0 twoItems).isSome := by decide +kernel
  obtain ⟨⟨db, r⟩, hopened⟩ := Option.isSome_iff_exists.mp h
  obtain ⟨hrun, hopen, -⟩ := valid_of_opened (n := 1) (by decide) (by decide) hopened
  exact ⟨db, r, hopened,
    (search_never_panics noEntries_empty hrun hopen (nns 2) [F32.one] 0 (· = 1) _).1,
    (search_never_panics noEntries_empty hrun hopen (nns 2) [F32.one] 0 (· = 1) _).2.2.2⟩

/-- `by_item` is `by_item_with_cancellation` with a callback that never cancels. -/
theorem byItem_eq (hs : Searchable r db) (item : ItemId) :
    r.byItem D db opt item = r.byItemWithCancellation D db opt item fun _ => false := by
  unfold Reader.byItem Reader.byItemWithCancellation
  obtain ⟨out, hout, hdone⟩ := nnsByItem_ok D opt hs item fun _ => false
  simp only [bind, Except.bind, hout]
  rcases out with _ | _ | l
  · rfl
  · rfl
  · exact absurd rfl (hdone (fun _ => rfl) l)

end Hannoy.Search
