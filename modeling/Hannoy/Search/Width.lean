import Hannoy.Graph.Select
import Hannoy.Search.Best

/-!
# How many results a beam search returns (`reader.rs:311-368`, `hnsw.rs:469-517`)

`visit` and `walk_layer` push a point unless the heap holds exactly `ef` results. When more than
`ef` entry points fill it at the start, every point that is near enough is added to them.

* `Explored.length_le_iff`: the results are at most `width` exactly when no offer overflows them.
* `visit_crowded_iff`: for a search without candidates that is not cancelled, this is when no
  neighbour of an entry point is nearer than the farthest entry point.
* `width_kept_iff`: both functions, from any number of entry points.
* `beam_overflows`: an insert whose search of layer 0 for one item returns three.
-/

namespace Hannoy.Search

open Hannoy.Library Hannoy.Library.Beam Hannoy.Library.Server Hannoy.Library.Txn Hannoy.Index

variable {D : Distance} {query : Item} {r : Reader} {db : Database} {v : Visitor}
  {lmdb : FrozenReader} {M0 : Nat} {path : RoaringBitmap} {cancel : CancelFn}

theorem Explored.length_le_iff {P : Beam.Params F32 ItemId} {dist : ItemId → F32}
    {known : ItemId → Prop} {answers : ItemId → List ItemId → Prop} {seen : Finset ItemId}
    {start : State F32 ItemId} {res : List ScoredLink} {trail : List (Moment F32 ItemId)}
    (h : Explored P dist known answers start res seen trail) {width : Nat} (hef : P.ef ≤ width)
    (hstart : start.res.length ≤ width) :
    res.length ≤ width ↔ ∀ m ∈ trail, ¬ m.Overflows P dist known width := by
  obtain ⟨b, st, hhead, rfl, -⟩ := h.ended
  obtain ⟨ms, rfl⟩ := List.head?_eq_some_iff.mp hhead
  have hlast : ¬ (⟨b, [], st⟩ : Moment F32 ItemId).Overflows P dist known width := by
    rintro ⟨p, hp, -⟩
    cases hp
  rw [h.trail.length_le_iff hef hstart, List.forall_mem_cons, and_iff_right hlast]

/-- The entry points come into an empty heap. -/
theorem length_res_seedAll_empty {P : Beam.Params F32 ItemId} {dist : ItemId → F32}
    (eps : List ItemId) :
    (State.seedAll P dist eps ⟨[], [], path⟩).res.length ≤ max P.ef eps.length := by
  refine (length_res_seedAll_le eps _).trans ?_
  rw [List.length_nil, Nat.zero_add]
  exact le_max_right _ _

/-! ## `visit` -/

/-- No neighbour of an entry point is both new and nearer than the farthest entry point. -/
def Surrounded (D : Distance) (query : Item) (r : Reader) (db : Database) (level : Nat)
    (eps : List ItemId) (path : RoaringBitmap) : Prop :=
  ∀ ep ∈ eps, ∀ p ∈ neighbours r db level ep, Stored r db p → p ∉ eps → p ∉ path →
    ∃ far ∈ eps, (∀ e ∈ eps, score D query r db e ≤ score D query r db far) ∧
      F32.flt (score D query r db p) (score D query r db far) = false

/-- **A crowded search** that comes to its end keeps its number of results exactly when its entry
points are surrounded. -/
theorem visit_crowded_iff (hnone : v.candidates = none) (hcrowded : v.ef < v.eps.length)
    (hagree : Agree D query r db v.eps.toFinset) {probes : Nat} {visited : Visited}
    {heap : List ScoredLink} (h : v.visit D query r db path cancel probes = .ok visited)
    (hdone : visited.completion = .done heap) :
    heap.length ≤ v.eps.length ↔ Surrounded D query r db v.level v.eps path := by
  obtain ⟨b, st, ms, ⟨htrail, -⟩, hres, hstop⟩ := visit_explored h
  rw [startState_eq] at htrail
  have hkeep : ∀ p, v.params.keep p = true := keep_of_none hnone
  obtain ⟨far, hfar, hworst, hmax⟩ : ∃ far ∈ v.eps,
      (State.seedAll v.params (score D query r db) v.eps ⟨[], [], path⟩).worst v.params =
        score D query r db far ∧
      ∀ p ∈ v.eps, score D query r db p ≤ score D query r db far :=
    worst_seedAll hkeep (List.ne_nil_of_length_pos (Nat.zero_lt_of_lt hcrowded)) path
  have hlen : (State.seedAll v.params (score D query r db) v.eps ⟨[], [], path⟩).res.length =
      v.eps.length := by
    simp [res_seedAll_of_keep hkeep, length_pushAll]
  rw [hdone] at hres
  have hiff := htrail.crowded_iff hkeep (by rw [hlen]; exact hcrowded) (fun c hc => ?_)
    (hstop heap hdone)
  · rw [hlen, hres] at hiff
    refine hiff.trans ⟨fun hno ep hep p hp hstored hne hnew => ⟨far, hfar, hmax, ?_⟩, ?_⟩
    · have hqueued : (⟨score D query r db ep, OrderDual.toDual ep⟩ : Scored F32 ItemIdᵒᵈ) ∈
          (State.seedAll v.params (score D query r db) v.eps ⟨[], [], path⟩).queue :=
        mem_queue_seedAll.mpr (Or.inr ⟨ep, hep, rfl⟩)
      have := hno _ hqueued p hp
      rw [Nearer, hworst, seen_seedAll] at this
      by_contra hnear
      refine this ⟨?_, hstored, Bool.of_not_eq_false hnear⟩
      simpa using ⟨hnew, hne⟩
    · rintro hsurr c hc p hp ⟨hnew, hstored, hnear⟩
      obtain ⟨ep, hep, rfl⟩ := (mem_queue_seedAll.mp hc).resolve_left List.not_mem_nil
      simp only [seen_seedAll, Finset.mem_union, List.mem_toFinset, not_or] at hnew
      obtain ⟨far', hfar', hmax', hnot⟩ := hsurr ep hep p hp hstored hnew.2 hnew.1
      rw [hworst, le_antisymm (hmax' far hfar) (hmax far' hfar')] at hnear
      exact Bool.false_ne_true (hnot.symm.trans hnear)
  · obtain ⟨ep, hep, rfl⟩ := (mem_queue_seedAll.mp hc).resolve_left List.not_mem_nil
    rw [hworst]
    show F32.flt _ _ = false
    rw [hagree far (List.mem_toFinset.mpr hfar) ep (List.mem_toFinset.mpr hep)]
    exact decide_eq_false (hmax ep hep).not_gt

/-! ## The width -/

/-- **A beam keeps to its width** exactly when no offer comes on top of more entry points than it
is wide; so it does in `visit`, and so it does in `walk_layer`. Without candidates and without
cancellation this is when the entry points are surrounded, or no more than the beam is wide. -/
theorem width_kept_iff (D : Distance) (query : Item) (eps : List ItemId) (ef : Nat) :
    (∀ (r : Reader) (db : Database) (level : Nat) (candidates : Option RoaringBitmap)
        (path : RoaringBitmap) (cancel : CancelFn) (probes : Nat) (visited : Visited),
      Visitor.visit D ⟨eps, level, ef, candidates⟩ query r db path cancel probes = .ok visited →
      (∃ trail, VisitExplored D ⟨eps, level, ef, candidates⟩ query r db path visited trail) ∧
      (∀ trail, VisitExplored D ⟨eps, level, ef, candidates⟩ query r db path visited trail →
        (visited.completion.intoInner.length ≤ max ef eps.length ↔
          ∀ m ∈ trail, ¬ m.Overflows (Visitor.params ⟨eps, level, ef, candidates⟩)
            (score D query r db) (Stored r db) (max ef eps.length))) ∧
      (candidates = none → Agree D query r db eps.toFinset →
        ∀ heap, visited.completion = .done heap →
          (heap.length ≤ max ef eps.length ↔
            eps.length ≤ ef ∨ Surrounded D query r db level eps path))) ∧
    (∀ (M0 : Nat) (lmdb : FrozenReader) (level : Nat) (res : List ScoredLink),
      (HnswBuilder.walkLayer D M0 lmdb query eps level ef).Returns res →
      (∃ seen trail, WalkExplored D query lmdb ef eps res seen trail) ∧
      ∀ seen trail, WalkExplored D query lmdb ef eps res seen trail →
        (res.length ≤ max ef eps.length ↔
          ∀ m ∈ trail, ¬ m.Overflows (HnswBuilder.walkParams ef) (walkScore D query lmdb)
            (Graph.Live lmdb) (max ef eps.length))) := by
  constructor
  · intro r db level candidates path cancel probes visited h
    obtain ⟨b, st, ms, hexplored, -⟩ := visit_explored h
    have hiff : ∀ trail, VisitExplored D ⟨eps, level, ef, candidates⟩ query r db path visited
        trail → (visited.completion.intoInner.length ≤ max ef eps.length ↔
          ∀ m ∈ trail, ¬ m.Overflows (Visitor.params ⟨eps, level, ef, candidates⟩)
            (score D query r db) (Stored r db) (max ef eps.length)) := fun trail htrail =>
      htrail.length_le_iff (le_max_left ef eps.length) (length_res_seedAll_empty eps)
    refine ⟨⟨_, hexplored⟩, hiff, fun hnone hagree heap hdone => ?_⟩
    by_cases hcrowded : ef < eps.length
    · rw [max_eq_right hcrowded.le, or_iff_right hcrowded.not_ge]
      exact visit_crowded_iff hnone hcrowded hagree h hdone
    · have hle : eps.length ≤ ef := Nat.le_of_not_lt hcrowded
      refine iff_of_true ?_ (Or.inl hle)
      have hwidth := hiff _ hexplored
      rw [hdone] at hwidth
      -- a heap that is as wide as `max ef eps.length` does not overflow
      refine hwidth.mpr ?_
      rintro m - ⟨p, -, -, -, -, -, hlt, -⟩
      exact hlt.ne (max_eq_left hle).symm
  · intro M0 lmdb level res h
    exact ⟨walkLayer_explored h, fun seen trail htrail =>
      htrail.length_le_iff (le_max_left ef eps.length) (length_res_seedAll_empty eps)⟩

/-! ## A beam of one -/

/-- Items 0 and 3 are on level 1, the others are on level 0. -/
def twoHigh : Environment :=
  .sequential (fun x => if x = 0 ∨ x = 3 then 1 else 0) fun x => by
    split_ifs <;> decide

/-- Items 0 and 2 are built at 3 and 1; item 3 is added at 0. -/
def crowdedHistory : List (Writer × Op) :=
  [.addItem 3 [F32.zero], .build 2 2 twoHigh .default, .addItem 2 [F32.one],
    .addItem 0 [⟨0x40400000⟩]].map (⟨0, 1⟩, ·)

/-- The insert of item 3 up to its search of layer 0. -/
def upperPart (lmdb : FrozenReader) (b : HnswBuilder 2) (query : Item) :
    Client 2 (List ItemId) := do
  HnswBuilder.addInLayersBelow 2 3 1
  HnswBuilder.beamLayer manhattan 2 2 F32.one lmdb 1 3 query 1 b.entryPoints 1

/-- The selection of layer 1 is where the search of layer 0 starts. -/
theorem crowdedSearch_found : ∃ lmdb b layers res layers',
    Graph.insertStart 2 2 twoHigh crowdedHistory = .ok (lmdb, b) ∧
    (upperPart lmdb b (Item.ofVector manhattan [F32.zero])).run
      (exec manhattan 2 F32.one lmdb) b.layers = .ok ([3, 0], layers) ∧
    (HnswBuilder.walkLayer manhattan 2 lmdb (Item.ofVector manhattan [F32.zero]) [3, 0] 0 1).run
      (exec manhattan 2 F32.one lmdb) layers = .ok (res, layers') ∧
    res.length = 3 := by
  have h : ((Graph.insertStart 2 2 twoHigh crowdedHistory).toOption.bind fun x =>
      ((upperPart x.1 x.2 (Item.ofVector manhattan [F32.zero])).run
        (exec manhattan 2 F32.one x.1) x.2.layers).toOption.bind fun y =>
      ((HnswBuilder.walkLayer manhattan 2 x.1 (Item.ofVector manhattan [F32.zero]) y.1 0 1).run
        (exec manhattan 2 F32.one x.1) y.2).toOption.map fun z => (y.1, z.1.length)) =
      some ([3, 0], 3) := by
    decide +kernel
  obtain ⟨⟨lmdb, b⟩, hstart, h⟩ := Option.bind_eq_some_iff.mp h
  obtain ⟨⟨eps, layers⟩, hupper, h⟩ := Option.bind_eq_some_iff.mp h
  obtain ⟨⟨res, layers'⟩, hwalk, h⟩ := Option.map_eq_some_iff.mp h
  simp only [Prod.mk.injEq] at h
  obtain ⟨rfl, hlen⟩ := h
  exact ⟨lmdb, b, layers, res, layers', ok_of_toOption hstart, ok_of_toOption hupper,
    ok_of_toOption hwalk, hlen⟩

/-- The search for one item starts from two distinct ones and returns three. -/
theorem beam_overflows : ∃ lmdb b eps layers res layers',
    Graph.insertStart 2 2 twoHigh crowdedHistory = .ok (lmdb, b) ∧
    (upperPart lmdb b (Item.ofVector manhattan [F32.zero])).run
      (exec manhattan 2 F32.one lmdb) b.layers = .ok (eps, layers) ∧
    eps.Nodup ∧ eps.length = 2 ∧
    (HnswBuilder.walkLayer manhattan 2 lmdb (Item.ofVector manhattan [F32.zero]) eps 0 1).run
      (exec manhattan 2 F32.one lmdb) layers = .ok (res, layers') ∧
    ¬ res.length ≤ max 1 eps.length := by
  obtain ⟨lmdb, b, layers, res, layers', hstart, hupper, hwalk, hlen⟩ := crowdedSearch_found
  refine ⟨lmdb, b, _, layers, res, layers', hstart, hupper, by decide, rfl, hwalk, ?_⟩
  rw [hlen]
  decide

/-- Some offer of this search overflows. -/
theorem overflows_when_crowded : ∃ lmdb res seen trail,
    WalkExplored manhattan (Item.ofVector manhattan [F32.zero]) lmdb 1 [3, 0] res seen trail ∧
    ∃ m ∈ trail, m.Overflows (HnswBuilder.walkParams 1)
      (walkScore manhattan (Item.ofVector manhattan [F32.zero]) lmdb) (Graph.Live lmdb) 2 := by
  obtain ⟨lmdb, b, layers, res, layers', -, -, hwalk, hlen⟩ := crowdedSearch_found
  obtain ⟨rs, hends⟩ := Prog.exists_ends hwalk
  obtain ⟨⟨seen, trail, hexplored⟩, hall⟩ :=
    (width_kept_iff manhattan (Item.ofVector manhattan [F32.zero]) [3, 0] 1).2 2 lmdb 0 res
      hends.returns
  refine ⟨lmdb, res, seen, trail, hexplored, ?_⟩
  by_contra hno
  push Not at hno
  have := (hall seen trail hexplored).mpr hno
  rw [hlen] at this
  exact absurd this (by decide)

end Hannoy.Search
