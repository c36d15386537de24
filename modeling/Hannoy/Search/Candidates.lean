import Hannoy.Search.Query

/-!
# Candidates that are not stored

A candidate set is a bitmap of its own, with ids the index may not have. It is looked at in four
places: to see that there is nothing to find, to choose the linear scan, by the scan itself, which
walks over it, and as the filter of the visits.

* `visit_congr`, `restartLoop_congr`: a visit asks its filter about stored points only.
* `SameFilter`: two queries that let the same stored items pass and choose the same path.
* `candidates_through_items`: ids that are not stored change no answer, and candidates that cover
  the index are none.
-/

namespace Hannoy.Search

open Hannoy.Library Hannoy.Library.Beam Hannoy.Library.Txn Hannoy.Index

variable {D : Distance} {query : Item} {r : Reader} {db : Database} {opt opt' : QueryBuilder}
  {cancel : CancelFn} {v v' : Visitor}

/-! ## Visits -/

/-- Visitors that differ in what their filters say of points that are not stored. -/
structure Alike (r : Reader) (db : Database) (v v' : Visitor) : Prop where
  eps : v.eps = v'.eps
  level : v.level = v'.level
  ef : v.ef = v'.ef
  keep : ∀ {p it}, db.getItem r.index p = .ok (some it) → v.keep p = v'.keep p

theorem seed_congr {P Q : Params F32 ItemId} {s : ScoredLink} (hkeep : P.keep s.id = Q.keep s.id)
    (st : State F32 ItemId) : st.seed P s = st.seed Q s := by
  unfold State.seed
  rw [hkeep]

theorem accept_congr {P Q : Params F32 ItemId} (hef : P.ef = Q.ef) (hflt : P.flt = Q.flt)
    {s : ScoredLink} (hkeep : P.keep s.id = Q.keep s.id) (fmax : F32) (st : State F32 ItemId) :
    st.accept P fmax s = st.accept Q fmax s := by
  unfold State.accept
  rw [hef, hflt, hkeep]

namespace Alike

variable (h : Alike r db v v')
include h

theorem visitSeed (st : State F32 ItemId) (ep : ItemId) :
    v.visitSeed D query r db st ep = v'.visitSeed D query r db st ep := by
  unfold Visitor.visitSeed
  cases hit : db.getItem r.index ep with
  | error e => rfl
  | ok it =>
    cases it with
    | none => rfl
    | some it =>
      show Except.ok _ = Except.ok _
      rw [seed_congr (P := v.params) (Q := v'.params) (h.keep hit)]

theorem visitPoint (fmax : F32) (st : State F32 ItemId) (p : ItemId) :
    v.visitPoint D query r db fmax st p = v'.visitPoint D query r db fmax st p := by
  unfold Visitor.visitPoint
  split_ifs with hseen
  · rfl
  · cases hit : db.getItem r.index p with
    | error e => rfl
    | ok it =>
      cases it with
      | none => rfl
      | some it =>
        show Except.ok _ = Except.ok _
        rw [accept_congr (P := v.params) (Q := v'.params) h.ef rfl (h.keep hit)]

theorem visitLoop : ∀ (fuel probes : Nat) (st : State F32 ItemId),
    v.visitLoop D query r db cancel fuel probes st = v'.visitLoop D query r db cancel fuel probes st
  | 0, _, _ => rfl
  | fuel + 1, probes, st => by
    have hpoint : v.visitPoint D query r db (st.worst v.params) =
        v'.visitPoint D query r db (st.worst v'.params) := by
      funext st' p
      exact h.visitPoint _ st' p
    have hworst : st.worst v.params = st.worst v'.params := rfl
    have hrest : Visitor.visitLoop D v query r db cancel fuel =
        Visitor.visitLoop D v' query r db cancel fuel := by
      funext probes st
      exact visitLoop fuel probes st
    unfold Visitor.visitLoop
    rw [hpoint, hworst, hrest, h.level]

/-- **A visit asks its filter about stored points only.** -/
theorem visit (path : RoaringBitmap) (probes : Nat) :
    v.visit D query r db path cancel probes = v'.visit D query r db path cancel probes := by
  have hseed : v.visitSeed D query r db = v'.visitSeed D query r db := by
    funext st ep
    exact h.visitSeed st ep
  have hfuel : v.fuel r db = v'.fuel r db := by rw [Visitor.fuel, Visitor.fuel, h.eps]
  unfold Visitor.visit
  simp only [h.eps, hseed, hfuel, h.visitLoop]

theorem withEps (eps : List ItemId) (ef : Nat) :
    Alike r db { v with eps, ef } { v' with eps, ef } :=
  ⟨rfl, h.level, rfl, h.keep⟩

theorem restartLoop {width : Nat → Except Failure Nat} {limit : Nat} : ∀ (ids : List ItemId)
    (path : RoaringBitmap) (probes : Nat) (found : List ScoredLink),
    r.restartLoop D db query v width limit cancel ids path probes found =
      r.restartLoop D db query v' width limit cancel ids path probes found
  | [], _, _, _ => rfl
  | id :: ids, path, probes, found => by
    have hvisit : ∀ ef, { v with eps := [id], ef }.visit D query r db path cancel probes =
        { v' with eps := [id], ef }.visit D query r db path cancel probes :=
      fun ef => (h.withEps [id] ef).visit path probes
    unfold Reader.restartLoop
    simp only [hvisit, restartLoop ids]

/-- **So does the search of layer 0.** -/
theorem searchLayer0 {width : Nat → Except Failure Nat} {count limit : Nat} :
    r.searchLayer0 D db query v count width limit cancel =
      r.searchLayer0 D db query v' count width limit cancel := by
  unfold Reader.searchLayer0
  simp only [h.visit, h.restartLoop]

end Alike

/-- Every point of a visit is stored. -/
theorem alike_of_keep (hs : Searchable r db) {eps : List ItemId} {level ef : Nat}
    {c c' : Option RoaringBitmap} (hkeep : ∀ x ∈ r.items,
      Visitor.keep ⟨eps, level, ef, c⟩ x = Visitor.keep ⟨eps, level, ef, c'⟩ x) :
    Alike r db ⟨eps, level, ef, c⟩ ⟨eps, level, ef, c'⟩ := by
  refine ⟨rfl, rfl, rfl, fun {p it} hit => hkeep p ((hs.items p).mpr ?_)⟩
  rw [Database.item?_of_getItem hit]
  rfl

/-! ## Scans -/

/-- A scan that is not cancelled meets the stored candidates only. -/
theorem scanPairs_congr (hs : Searchable r db) (hc : ∀ n, cancel n = false)
    {c c' : RoaringBitmap} (h : ∀ x ∈ r.items, x ∈ c ↔ x ∈ c') :
    scanPairs D query r db cancel c = scanPairs D query r db cancel c' := by
  have hmem : ∀ {c : RoaringBitmap} {s : ScoredLink}, s ∈ scanPairs D query r db cancel c ↔
      s.id ∈ c ∧ scanScore D query r db s.id = some s := by
    intro c s
    rw [scanPairs, List.mem_filterMap, (reached_never _ 0 hc).1]
    constructor
    · rintro ⟨x, hx, hsome⟩
      obtain ⟨it, hit, rfl⟩ := Option.map_eq_some_iff.mp hsome
      exact ⟨mem_ascending.mp hx, hsome⟩
    · rintro ⟨hx, hsome⟩
      exact ⟨s.id, mem_ascending.mpr hx, hsome⟩
  refine List.Perm.eq_of_pairwise (fun a b _ _ hab hba => absurd hba hab.not_gt)
    (pairwise_scanPairs c) (pairwise_scanPairs c')
    ((List.perm_ext_iff_of_nodup (nodup_scanPairs c) (nodup_scanPairs c')).mpr fun s => ?_)
  rw [hmem, hmem]
  refine and_congr_left fun hsome => h _ ((hs.items _).mpr ?_)
  obtain ⟨it, hit, -⟩ := Option.map_eq_some_iff.mp hsome
  rw [hit]
  rfl

/-! ## Queries -/

/-- Queries that let the same stored items pass, and choose the same path. -/
structure SameFilter (r : Reader) (opt opt' : QueryBuilder) : Prop where
  count : opt.count = opt'.count
  ef : opt.ef = opt'.ef
  keep : ∀ x ∈ r.items, optKeep opt x = optKeep opt' x
  scan : r.shouldLinearScan opt = r.shouldLinearScan opt'

theorem noCandidates_iff :
    r.noCandidates opt = true ↔ ∀ x ∈ r.items, optKeep opt x = false := by
  constructor
  · intro h x hx
    have hnone := Finset.filter_eq_empty_iff.mp (filter_eq_empty_of_noCandidates h) hx
    simpa using hnone
  · intro h
    unfold Reader.noCandidates
    cases hc : opt.candidates with
    | none =>
      have hempty : r.items = ∅ := Finset.eq_empty_of_forall_notMem fun x hx => by
        simpa [optKeep, hc] using h x hx
      simp [hempty]
    | some c =>
      have hempty : r.items ∩ c = ∅ := Finset.eq_empty_of_forall_notMem fun x hx => by
        obtain ⟨hx, hxc⟩ := Finset.mem_inter.mp hx
        simpa [optKeep, hc, hxc] using h x hx
      simp [hempty]

namespace SameFilter

variable (h : SameFilter r opt opt')
include h

theorem noCandidates : r.noCandidates opt = r.noCandidates opt' := by
  rw [Bool.eq_iff_iff, noCandidates_iff, noCandidates_iff]
  exact forall₂_congr fun x hx => by rw [h.keep x hx]

/-- The candidates of scans have the same stored items. -/
theorem candidates {c c' : RoaringBitmap} (hc : opt.candidates = some c)
    (hc' : opt'.candidates = some c') : ∀ x ∈ r.items, x ∈ c ↔ x ∈ c' := by
  intro x hx
  have hkeep := h.keep x hx
  simp only [optKeep, hc, hc'] at hkeep
  simpa using hkeep

variable (hs : Searchable r db)
include hs

theorem hnswSearch : r.hnswSearch D db opt query cancel = r.hnswSearch D db opt' query cancel := by
  have hwidth : Reader.widthByVector opt = Reader.widthByVector opt' := by
    funext n
    rw [Reader.widthByVector, Reader.widthByVector, h.ef]
  unfold Reader.hnswSearch
  refine bind_congr fun v => ?_
  rw [hwidth, h.count, h.ef]
  exact (alike_of_keep hs h.keep).searchLayer0

theorem searchByItem (item : ItemId) :
    r.searchLayer0 D db query (itemVisitor r opt item) opt.count (Reader.widthByItem opt) opt.count
        cancel =
      r.searchLayer0 D db query (itemVisitor r opt' item) opt'.count (Reader.widthByItem opt')
        opt'.count cancel := by
  have hwidth : Reader.widthByItem opt = Reader.widthByItem opt' := by
    funext n
    rw [Reader.widthByItem, Reader.widthByItem, h.count]
  have hkept : ∀ x ∈ r.items, ∀ o : QueryBuilder, optKeep o x = true ↔
      x ∈ o.candidates.getD r.items := by
    intro x hx o
    unfold optKeep
    cases o.candidates <;> simp [hx]
  rw [hwidth, h.count, itemVisitor, itemVisitor, h.count, h.ef]
  refine (alike_of_keep hs fun x hx => ?_).searchLayer0
  have hsame : x ∈ opt.candidates.getD r.items ↔ x ∈ opt'.candidates.getD r.items := by
    rw [← hkept x hx, ← hkept x hx, h.keep x hx]
  simp only [Visitor.keep, Finset.mem_erase, hsame]

variable (hpath : r.shouldLinearScan opt = false ∨ ∀ n, cancel n = false)
include hpath

theorem bruteForceSearch {c c' : RoaringBitmap} (hscan : r.shouldLinearScan opt = true)
    (hc : opt.candidates = some c) (hc' : opt'.candidates = some c') :
    r.bruteForceSearch D db query c opt.count cancel =
      r.bruteForceSearch D db query c' opt'.count cancel := by
  have hnever := hpath.resolve_left (by simp [hscan])
  rw [bruteForceSearch_ok hs.typed, bruteForceSearch_ok hs.typed, (reached_never _ 0 hnever).2,
    (reached_never _ 0 hnever).2, scanPairs_congr hs hnever (h.candidates hc hc'), h.count]

/-- **`nns_by_vec` answers alike.** -/
theorem nnsByVec : r.nnsByVec D db opt query cancel = r.nnsByVec D db opt' query cancel := by
  unfold Reader.nnsByVec
  rw [h.noCandidates, filter_candidates, filter_candidates, ← h.scan]
  by_cases hscan : r.shouldLinearScan opt = true
  · obtain ⟨c, hc⟩ := candidates_of_shouldLinearScan hscan
    obtain ⟨c', hc'⟩ := candidates_of_shouldLinearScan (h.scan ▸ hscan)
    simp only [hscan, if_true, hc, hc', h.bruteForceSearch hs hpath hscan hc hc']
  · simp only [hscan, h.hnswSearch hs]
    rfl

/-- **So does `nns_by_item`.** -/
theorem nnsByItem (item : ItemId) :
    r.nnsByItem D db opt item cancel = r.nnsByItem D db opt' item cancel := by
  unfold Reader.nnsByItem
  rw [h.noCandidates, filter_candidates, filter_candidates, ← h.scan]
  by_cases hscan : r.shouldLinearScan opt = true
  · obtain ⟨c, hc⟩ := candidates_of_shouldLinearScan hscan
    obtain ⟨c', hc'⟩ := candidates_of_shouldLinearScan (h.scan ▸ hscan)
    simp only [hscan, if_true, hc, hc', h.bruteForceSearch hs hpath hscan hc hc']
  · have hsearch : ∀ query, r.searchLayer0 D db query (itemVisitor r opt item) opt.count
        (Reader.widthByItem opt) opt.count cancel = r.searchLayer0 D db query
          (itemVisitor r opt' item) opt'.count (Reader.widthByItem opt') opt'.count cancel :=
      fun query => h.searchByItem hs item
    simp only [itemVisitor] at hsearch
    simp only [hscan, hsearch]
    rfl

/-- The queries do as well. -/
theorem queries (vector : List F32) (item : ItemId) :
    r.byVectorWithCancellation D db opt vector cancel =
        r.byVectorWithCancellation D db opt' vector cancel ∧
      r.byItemWithCancellation D db opt item cancel =
        r.byItemWithCancellation D db opt' item cancel := by
  constructor
  · unfold Reader.byVectorWithCancellation
    refine bind_congr fun query => ?_
    rw [h.nnsByVec hs hpath]
  · unfold Reader.byItemWithCancellation
    rw [h.nnsByItem hs hpath]

end SameFilter

theorem optKeep_withCandidates (c : RoaringBitmap) (x : ItemId) :
    optKeep (opt.withCandidates c) x = decide (x ∈ c) := rfl

/-- Candidates with the same stored items. -/
theorem sameFilter_of_inter {c c' : RoaringBitmap} (h : r.items ∩ c = r.items ∩ c') :
    SameFilter r (opt.withCandidates c) (opt.withCandidates c') where
  count := rfl
  ef := rfl
  keep x hx := by
    have hmem : x ∈ r.items ∩ c ↔ x ∈ r.items ∩ c' := by rw [h]
    simp only [Finset.mem_inter, hx, true_and] at hmem
    simp only [optKeep_withCandidates, hmem]
  scan := by
    simp only [Reader.shouldLinearScan, QueryBuilder.withCandidates, h]
    rfl

/-- Candidates that cover the index, when they are not scanned. -/
theorem sameFilter_of_subset {c : RoaringBitmap} (h : r.items ⊆ c) (hnone : opt.candidates = none)
    (hscan : r.shouldLinearScan (opt.withCandidates c) = false) :
    SameFilter r (opt.withCandidates c) opt where
  count := rfl
  ef := rfl
  keep x hx := by
    rw [optKeep_withCandidates, optKeep, hnone]
    simp [h hx]
  scan := by
    rw [hscan, Reader.shouldLinearScan, hnone]
    simp

variable (D) in
/-- **Ids that are not stored do not matter.** Two candidate sets with the same stored items give
the same answers to queries by vector and by item that are not cancelled; where the graph is
searched, they do under any cancellation, and candidates that cover the index are none. -/
theorem candidates_through_items (hs : Searchable r db) (opt : QueryBuilder) (vector : List F32)
    (item : ItemId) :
    (∀ c c' : RoaringBitmap, r.items ∩ c = r.items ∩ c' →
      r.byVector D db (opt.withCandidates c) vector =
          r.byVector D db (opt.withCandidates c') vector ∧
        r.byItem D db (opt.withCandidates c) item = r.byItem D db (opt.withCandidates c') item) ∧
    (∀ c c' : RoaringBitmap, r.items ∩ c = r.items ∩ c' →
      r.shouldLinearScan (opt.withCandidates c) = false → ∀ cancel : CancelFn,
        r.byVectorWithCancellation D db (opt.withCandidates c) vector cancel =
            r.byVectorWithCancellation D db (opt.withCandidates c') vector cancel ∧
          r.byItemWithCancellation D db (opt.withCandidates c) item cancel =
            r.byItemWithCancellation D db (opt.withCandidates c') item cancel) ∧
    ∀ c : RoaringBitmap, r.items ⊆ c → opt.candidates = none →
      r.shouldLinearScan (opt.withCandidates c) = false → ∀ cancel : CancelFn,
        r.byVectorWithCancellation D db (opt.withCandidates c) vector cancel =
            r.byVectorWithCancellation D db opt vector cancel ∧
          r.byItemWithCancellation D db (opt.withCandidates c) item cancel =
            r.byItemWithCancellation D db opt item cancel := by
  refine ⟨fun c c' h => ?_, fun c c' h hscan cancel => ?_, fun c h hnone hscan cancel => ?_⟩
  · have hsame : SameFilter r (opt.withCandidates c) (opt.withCandidates c') :=
      sameFilter_of_inter h
    have hnever : ∀ n, (fun _ => false : CancelFn) n = false := fun _ => rfl
    constructor
    · unfold Reader.byVector
      refine bind_congr fun query => ?_
      rw [hsame.nnsByVec hs (Or.inr hnever)]
    · rw [byItem_eq hs, byItem_eq hs]
      exact (hsame.queries hs (Or.inr hnever) vector item).2
  · exact (sameFilter_of_inter h).queries hs (Or.inl hscan) vector item
  · exact (sameFilter_of_subset h hnone hscan).queries hs (Or.inl hscan) vector item

/-- An index of two items, and candidates with one of them and ids it does not have. -/
theorem candidates_twoItems : ∃ db r, opened manhattan 0 twoItems = some (db, r) ∧
    r.byVector manhattan db ((nns 2).withCandidates {1, 7}) [F32.one] =
      r.byVector manhattan db ((nns 2).withCandidates {1, 9, 12}) [F32.one] := by
  have h : (opened manhattan 0 twoItems).map (fun p => p.2.items) = some {0, 1} := by decide +kernel
  obtain ⟨⟨db, r⟩, hopened, hitems⟩ := Option.map_eq_some_iff.mp h
  obtain ⟨hrun, hopen, -⟩ := valid_of_opened (n := 1) (by decide) (by decide) hopened
  refine ⟨db, r, hopened, ((candidates_through_items manhattan
    (searchable_of_run noEntries_empty hrun hopen) (nns 2) [F32.one] 0).1 _ _ ?_).1⟩
  rw [hitems]
  decide

end Hannoy.Search
