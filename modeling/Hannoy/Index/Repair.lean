import Hannoy.Graph.Repair
import Hannoy.Index.Degree

/-!
# The repair in a run (`hnsw.rs:330-415`)

A build re-indexes the entry points and the items that were overwritten, so a surviving node may
have the same neighbours on disk and in memory. The repair counts them twice.

* `repair_keeps_iff`: a surviving node keeps its surviving neighbours, as far as they fit,
  exactly if the sizes of the two lists add up to at most the cap, or pruning keeps them all.
* `repair_drops_link`: the second build of an unchanged index drops a link.
-/

namespace Hannoy.Index

open Hannoy.Library Hannoy.Library.Txn Hannoy.Writer Hannoy.Graph Hannoy.HnswBuilder

variable {D : Distance} {M M0 : Nat} {env : Environment} {options : BuildOption}
  {i : UInt16} {db db₀ : Database} {T : Type} {dist : T → Distance}

/-- The surviving ids among the stored links of a node, those of its deleted neighbours, and its
links in memory. -/
def survivorsAt (options : BuildOption) (i : UInt16) (db : Database) (layers : Layers M0)
    (x : ItemId) (l : LayerId) (links : RoaringBitmap) : RoaringBitmap :=
  survivors (snapshot options i db) (buildSets options i db).toDelete links l.toNat
    ((layers.linksAt l.toNat x).map Scored.id)

/-- The links in memory lead to items that are not deleted. -/
theorem notMem_toDelete_of_linked (hready : Ready options i db) {layers : Layers M0}
    (hok : Linked (snapshot options i db) layers) {level : Nat} {x y : ItemId}
    (hy : y ∈ (layers.linksAt level x).map Scored.id) :
    y ∉ (buildSets options i db).toDelete := by
  intro hdel
  obtain ⟨s, hs, rfl⟩ := List.mem_map.mp hy
  obtain ⟨node, hnode, htarget⟩ := mem_linksAt hs
  have hlive := live_snapshot.mp (hok.target hnode htarget).1
  rw [hready.deleted _ hdel] at hlive
  cases hlive

/-- One surviving node of a build from a ready index. -/
theorem repaired_of_ready (hready : Ready options i db) {layers layers' : Layers M0}
    (hinsert : layersToRepair D M options env (snapshot options i db)
      (builderOf M0 i (takeStones options i db)) (buildSets options i db).toInsert
      (buildSets options i db).toDelete = .ok layers)
    (hrepair : fillGapsFromDeleted D M options env (snapshot options i db)
      (buildSets options i db).toDelete layers = .ok layers')
    {x : ItemId} {l : LayerId} {links : RoaringBitmap} (hlinks : db.links? i x l = some links)
    (hx : x ∉ (buildSets options i db).toDelete) :
    ∃ node, layers'.get? l.toNat x = some node ∧
      Repaired D M M0 options (snapshot options i db) x l.toNat
        (mergedLinks (snapshot options i db) (buildSets options i db).toDelete links l.toNat)
        (layers.linksAt l.toNat x) node.links.toList ∧
      survivorsAt options i db layers x l links =
        mergedLinks (snapshot options i db) (buildSets options i db).toDelete links l.toNat ∪
          ((layers.linksAt l.toNat x).map Scored.id).toFinset := by
  have hok := (layersToRepair_ok hready.buildInput hinsert).toLinked
  have hlinks := (disk_snapshot options l x).trans hlinks
  obtain ⟨node, hnode, hrep⟩ := fillGaps_repaired (wellTyped_takeStones hready.typed)
    hok.length_le hrepair hlinks hx
  exact ⟨node, hnode, hrep, survivors_eq fun y hy => notMem_toDelete_of_linked hready hok hy⟩

variable [DecidableEq T]

/-- **The repair keeps every surviving neighbour that fits** exactly if the sizes add up, or
pruning keeps them all. -/
theorem repair_keeps_iff (h₀ : NoEntries i db₀) {states : List (State T)} {S : T}
    (hrun : Course dist i db₀ (⟨S, db⟩ :: states)) (hr : options.relinkAllItems = false)
    {layers layers' : Layers M0}
    (hinsert : layersToRepair D M options env (snapshot options i db)
      (builderOf M0 i (takeStones options i db)) (buildSets options i db).toInsert
      (buildSets options i db).toDelete = .ok layers)
    (hrepair : fillGapsFromDeleted D M options env (snapshot options i db)
      (buildSets options i db).toDelete layers = .ok layers')
    {x : ItemId} {l : LayerId} {links : RoaringBitmap} (hlinks : db.links? i x l = some links)
    (hx : x ∉ (buildSets options i db).toDelete) :
    ∃ node, layers'.get? l.toNat x = some node ∧
      node.targets.toFinset ⊆ survivorsAt options i db layers x l links ∧
      (((survivorsAt options i db layers x l links).card ≤ linkCap M M0 l.toNat →
          node.targets.toFinset = survivorsAt options i db layers x l links) ↔
        ((survivorsAt options i db layers x l links).card ≤ linkCap M M0 l.toNat →
          KeepsMerged D (snapshot options i db) M M0 options.alpha x l.toNat
            (mergedLinks (snapshot options i db) (buildSets options i db).toDelete links l.toNat)
            (layers.linksAt l.toNat x))) := by
  have hready := ready_of_consistent (hrun.consistent h₀ _ List.mem_cons_self) hr
  obtain ⟨node, hnode, hrep, hsurv⟩ := repaired_of_ready hready hinsert hrepair hlinks hx
  rw [hsurv]
  exact ⟨node, hnode, hrep.subset, imp_congr_right fun _ => hrep.eq_iff⟩

/-! ## Building an unchanged index -/

/-- Three items on a line, built once. -/
def lineOfThree : List (Writer × Op) :=
  [.build 2 2 .twoLevels BuildOption.default, .addItem 2 [F32.one], .addItem 1 [⟨0x40000000⟩],
    .addItem 0 [F32.zero]].map (⟨0, 1⟩, ·)

/-- The layers of the next build, before and after the repair. -/
def repairOf (db : Database) : Except Failure (Layers 2 × Layers 2) := do
  let lmdb := snapshot BuildOption.default 0 db
  let toDelete := (buildSets BuildOption.default 0 db).toDelete
  let layers ← layersToRepair manhattan 2 BuildOption.default .twoLevels lmdb
    (builderOf 2 0 (takeStones BuildOption.default 0 db))
    (buildSets BuildOption.default 0 db).toInsert toDelete
  let layers' ← fillGapsFromDeleted manhattan 2 BuildOption.default .twoLevels lmdb toDelete layers
  pure (layers, layers')

theorem repairOf_ok {layers layers' : Layers 2} (h : repairOf db = .ok (layers, layers')) :
    layersToRepair manhattan 2 BuildOption.default .twoLevels (snapshot BuildOption.default 0 db)
        (builderOf 2 0 (takeStones BuildOption.default 0 db))
        (buildSets BuildOption.default 0 db).toInsert
        (buildSets BuildOption.default 0 db).toDelete = .ok layers ∧
      fillGapsFromDeleted manhattan 2 BuildOption.default .twoLevels
        (snapshot BuildOption.default 0 db) (buildSets BuildOption.default 0 db).toDelete layers =
          .ok layers' := by
  unfold repairOf at h
  simp only [ok_bind_iff] at h
  obtain ⟨_, hinsert, _, hrepair, h⟩ := h
  cases h
  exact ⟨hinsert, hrepair⟩

/-- Item 1 has no links in memory and keeps its stored ones. -/
theorem repair_keeps_item : ∃ db layers layers' node, play manhattan ∅ lineOfThree = some db ∧
    repairOf db = .ok (layers, layers') ∧ db.links? 0 1 0 = some {0, 2} ∧
    layers'.get? 0 1 = some node ∧
    node.targets.toFinset = survivorsAt BuildOption.default 0 db layers 1 0 {0, 2} ∧
    (survivorsAt BuildOption.default 0 db layers 1 0 {0, 2}).card = 2 := by
  have h : ((play manhattan ∅ lineOfThree).bind fun db => (repairOf db).toOption.map fun p =>
      (db.links? 0 1 0, (buildSets BuildOption.default 0 db).toDelete, p.1.linksAt 0 1,
        survivorsAt BuildOption.default 0 db p.1 1 0 {0, 2})) =
      some (some {0, 2}, ∅, [], {0, 2}) := by decide +kernel
  obtain ⟨db, hdb, h⟩ := Option.bind_eq_some_iff.mp h
  obtain ⟨⟨layers, layers'⟩, hrepair, h⟩ := Option.map_eq_some_iff.mp h
  have hrepair := ok_of_toOption hrepair
  simp only [Prod.mk.injEq] at h
  obtain ⟨hlinks, hdel, hmem, hsurv⟩ := h
  obtain ⟨states, hrun⟩ := Course.of_run manhattans false (Run.of_play (i := 0) (by decide) hdb)
  obtain ⟨node, hnode, -, hiff⟩ := repair_keeps_iff noEntries_empty hrun rfl
    (repairOf_ok hrepair).1 (repairOf_ok hrepair).2 hlinks
    (by rw [hdel]; exact Finset.notMem_empty _)
  have hcard : (survivorsAt BuildOption.default 0 db layers 1 0 {0, 2}).card = 2 := by
    rw [hsurv]
    decide
  refine ⟨db, layers, layers', node, hdb, hrepair, hlinks, hnode,
    hiff.mpr (fun _ => Or.inl ?_) ?_, hcard⟩
  · have hsub : mergedLinks (snapshot BuildOption.default 0 db)
        (buildSets BuildOption.default 0 db).toDelete {0, 2} 0 ⊆ {0, 2} := by
      rw [hdel, mergedLinks, Finset.inter_empty, Finset.biUnion_empty, Finset.empty_union]
      exact Finset.sdiff_subset
    have hempty : layers.linksAt (0 : LayerId).toNat 1 = [] := hmem
    rw [hempty]
    exact Finset.card_le_card hsub
  · rw [hcard]
    decide

/-- Item 0 has the link to item 2 on disk and in memory. Its two neighbours fit, and it loses
item 1. -/
theorem repair_drops_link : ∃ db layers layers' links node,
    play manhattan ∅ lineOfThree = some db ∧ repairOf db = .ok (layers, layers') ∧
    db.links? 0 0 0 = some links ∧ 0 ∉ (buildSets BuildOption.default 0 db).toDelete ∧
    layers'.get? 0 0 = some node ∧
    (survivorsAt BuildOption.default 0 db layers 0 0 links).card ≤ linkCap 2 2 0 ∧
    node.targets.toFinset ≠ survivorsAt BuildOption.default 0 db layers 0 0 links := by
  have h : ((play manhattan ∅ lineOfThree).bind fun db => (repairOf db).toOption.bind fun p =>
      (db.links? 0 0 0).bind fun links => (p.2.get? 0 0).map fun node =>
        ((buildSets BuildOption.default 0 db).toDelete,
          survivorsAt BuildOption.default 0 db p.1 0 0 links, node.targets.toFinset)) =
      some (∅, {1, 2}, {2}) := by decide +kernel
  obtain ⟨db, hdb, h⟩ := Option.bind_eq_some_iff.mp h
  obtain ⟨⟨layers, layers'⟩, hrepair, h⟩ := Option.bind_eq_some_iff.mp h
  obtain ⟨links, hlinks, h⟩ := Option.bind_eq_some_iff.mp h
  obtain ⟨node, hnode, h⟩ := Option.map_eq_some_iff.mp h
  simp only [Prod.mk.injEq] at h
  obtain ⟨hdel, hsurv, htargets⟩ := h
  refine ⟨db, layers, layers', links, node, hdb, ok_of_toOption hrepair, hlinks,
    by rw [hdel]; exact Finset.notMem_empty _, hnode, ?_, ?_⟩
  · rw [hsurv]
    decide
  · rw [hsurv, htargets]
    decide

end Hannoy.Index
