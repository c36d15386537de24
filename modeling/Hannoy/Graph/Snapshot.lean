import Hannoy.Model.Hnsw

/-!
# What the graph builder reads

The builder sees the database through a `FrozenReader`: the items, the links and the two iterators
of its index. Two snapshots that answer these reads alike are the same to every phase of the build,
`buildLayers_congr`.
-/

namespace Hannoy.Graph

open Hannoy.Library Hannoy.Library.Server

/-- Two snapshots answer the reads of the builder alike. -/
structure SameReads (lmdb lmdb' : FrozenReader) : Prop where
  index : lmdb.index = lmdb'.index
  item : lmdb.item = lmdb'.item
  links : lmdb.links = lmdb'.links
  linksEntries : lmdb.linksEntries = lmdb'.linksEntries
  numItems : lmdb.numItems = lmdb'.numItems

variable {D : Distance} {M M0 : Nat} {alpha : F32} {options : BuildOption} {env : Environment}
  {lmdb lmdb' : FrozenReader}

/-! ## The layers -/

theorem okToAdd_congr (h : SameReads lmdb lmdb') :
    okToAdd D alpha lmdb = okToAdd D alpha lmdb' := by
  funext dist c selected
  induction selected with
  | nil => rfl
  | cons i selected ih => simp only [okToAdd, h.item, ih]

theorem robustPruneLoop_congr (h : SameReads lmdb lmdb') (cap : Nat) :
    robustPruneLoop D alpha lmdb cap = robustPruneLoop D alpha lmdb' cap := by
  funext candidates
  induction candidates with
  | nil => rfl
  | cons c candidates ih =>
    funext selected
    simp only [robustPruneLoop, okToAdd_congr h, ih]

theorem robustPrune_congr (h : SameReads lmdb lmdb') :
    robustPrune D M M0 alpha lmdb = robustPrune D M M0 alpha lmdb' := by
  funext candidates level
  rw [robustPrune, robustPrune, robustPruneLoop_congr h]

theorem exec_congr (h : SameReads lmdb lmdb') :
    (exec D M alpha lmdb : Request M0 → Layers M0 → _) = exec D M alpha lmdb' := by
  have hupdate : (addLinkUpdate D M alpha lmdb : Nat → ScoredLink → NodeState M0 → _) =
      addLinkUpdate D M alpha lmdb' := by
    funext level q node
    rw [addLinkUpdate, addLinkUpdate, robustPrune_congr h]
  funext r layers
  unfold exec
  rw [hupdate]

/-! ## Inserting -/

namespace HnswBuilder

open Hannoy.HnswBuilder

theorem getNeighbours_congr (h : SameReads lmdb lmdb') :
    getNeighbours M0 lmdb = getNeighbours M0 lmdb' := by
  funext item level
  unfold getNeighbours storedNeighbours
  rw [h.links]

theorem walkLoop_congr (h : SameReads lmdb lmdb') (query : Item) (level ef : Nat) :
    walkLoop D M0 lmdb query level ef = walkLoop D M0 lmdb' query level ef := by
  have hpoint : walkPoint D lmdb query ef = walkPoint D lmdb' query ef := by
    funext fmax st point
    rw [walkPoint, walkPoint, h.item]
  funext fuel
  induction fuel with
  | zero => rfl
  | succ fuel ih =>
    funext st
    simp only [walkLoop, getNeighbours_congr h, hpoint, ih]

theorem walkLayer_congr (h : SameReads lmdb lmdb') :
    walkLayer D M0 lmdb = walkLayer D M0 lmdb' := by
  have hseed : walkSeed D lmdb = walkSeed D lmdb' := by
    funext query ef st ep
    rw [walkSeed, walkSeed, h.item]
  funext query eps level ef
  rw [walkLayer, walkLayer, hseed, h.numItems, walkLoop_congr h]

theorem insert_congr (h : SameReads lmdb lmdb') :
    Hannoy.HnswBuilder.insert D M M0 alpha lmdb = Hannoy.HnswBuilder.insert D M M0 alpha lmdb' := by
  have hgreedy : greedyLayer D M0 lmdb = greedyLayer D M0 lmdb' := by
    funext q eps level
    rw [greedyLayer, greedyLayer, walkLayer_congr h]
  have hbeam : beamLayer D M M0 alpha lmdb = beamLayer D M M0 alpha lmdb' := by
    funext ef query q top eps level
    rw [beamLayer, beamLayer, walkLayer_congr h, robustPrune_congr h]
  funext ef maxLevel entryPoints query level
  unfold Hannoy.HnswBuilder.insert
  rw [h.item, hgreedy, hbeam]

theorem insertGroups_congr (h : SameReads lmdb lmdb') (b : HnswBuilder M0) :
    insertGroups D M options env lmdb b = insertGroups D M options env lmdb' b := by
  have hgroup : insertGroup D M options env lmdb b = insertGroup D M options env lmdb' b := by
    funext n g grp layers
    simp only [insertGroup, insertTask, exec_congr h, insert_congr h]
  funext n g groups
  induction groups generalizing n g with
  | nil => rfl
  | cons grp groups ih =>
    funext layers
    simp only [insertGroups, hgroup, ih]

/-! ## Levels and entry points -/

theorem prepareLevels_congr (h : SameReads lmdb lmdb') (b : HnswBuilder M0) :
    prepareLevelsAndEntryPoints D M options env lmdb b =
      prepareLevelsAndEntryPoints D M options env lmdb' b := by
  have hfrom : replaceFrom lmdb = replaceFrom lmdb' := by
    funext toDelete l
    induction l with
    | zero => simp only [replaceFrom, h.linksEntries]
    | succ l ih => simp only [replaceFrom, h.linksEntries, ih]
  have hdeleted : replaceDeleted lmdb = replaceDeleted lmdb' := by
    funext toDelete maxLevel n
    induction n generalizing maxLevel with
    | zero => rfl
    | succ n ih => simp only [replaceDeleted, hfrom, ih]
  funext levels curMaxLevel toDelete
  simp only [prepareLevelsAndEntryPoints, raiseEntryPoints, runClient, hdeleted, exec_congr h]

/-! ## Repairing -/

theorem fillGaps_congr (h : SameReads lmdb lmdb') :
    (fillGapsFromDeleted D M options env lmdb : RoaringBitmap → Layers M0 → _) =
      fillGapsFromDeleted D M options env lmdb' := by
  have hpatch : (patchLinks D M options lmdb : RoaringBitmap → ItemId → Nat → RoaringBitmap →
      Layers M0 → _) = patchLinks D M options lmdb' := by
    have hmerged : mergedLinks lmdb = mergedLinks lmdb' := by
      funext toDelete links level
      unfold mergedLinks
      rw [h.links]
    funext toDelete id level links layers
    rw [patchLinks, patchLinks, hmerged]
    simp only [h.item, robustPrune_congr h]
  have hall : (patchAll D M options env lmdb : RoaringBitmap → Nat → List (Key × Value) →
      Layers M0 → _) = patchAll D M options env lmdb' := by
    funext toDelete n entries
    induction entries generalizing n with
    | nil => rfl
    | cons e entries ih =>
      funext layers
      simp only [patchAll, hpatch, ih]
  funext toDelete layers
  rw [fillGapsFromDeleted, fillGapsFromDeleted, h.linksEntries, hall]

/-! ## The build -/

theorem linksToWrite_congr (h : SameReads lmdb lmdb') :
    (linksToWrite env lmdb : Layers M0 → _) = linksToWrite env lmdb' := by
  funext layers
  rw [linksToWrite, linksToWrite, h.index]

/-- **The phases of a build** that read the snapshot. -/
theorem buildLayers_congr (h : SameReads lmdb lmdb') (b : HnswBuilder M0) :
    buildLayers D M options env lmdb b = buildLayers D M options env lmdb' b := by
  funext toInsert toDelete
  simp only [buildLayers, prepareLevels_congr h, insertGroups_congr h, fillGaps_congr h]

end HnswBuilder

end Hannoy.Graph
