import Hannoy.Library.Txn
import Hannoy.Model.Insert
import Mathlib.Data.Finset.Union

/-!
# Building the graph (`hnsw.rs:122-415`)

`HnswBuilder.build` draws a level for every item to insert, resolves the entry points, inserts the
items from the highest level down, repairs the links around deleted items and writes the layers
to the database.

* `Schedule` fixes what the code leaves open: the levels drawn, the order of items of one level,
  the interleaving of the inserts of a level group, and the order a concurrent map is iterated in.
* `Probe` names the calls of the cancel callback and `Site` the calls of the database that can
  fail; a build is run against an oracle for each.
* Only the last phase writes to the database. The phases before it work on the layers and are
  plain functions of the snapshot.
-/

namespace Hannoy

open Hannoy.Library Hannoy.Library.Server

/-- The calls of the cancel callback: the loop and the iteration it is made in. -/
inductive Probe where
  | retrieve (n : Nat)
  | insert (n : Nat)
  | patch (n : Nat)
  | write (n : Nat)
  deriving DecidableEq, Repr

/-- The calls of the database that can fail. Those with a number are made once for each iteration
of a loop. -/
inductive Site where
  | readItems
  | nextStone (n : Nat)
  | delStone (n : Nat)
  | readMetadata
  | openReader
  | layerLinks
  | insert (n : Nat)
  | iterLinks
  | patch (n : Nat)
  | putLinks (n : Nat)
  | nextLinks (n : Nat)
  | putMetadata
  | putVersion
  | delLinks (n : Nat)
  | delMetadata
  | nextItem (n : Nat)
  | putItem (n : Nat)
  | delItem
  | putStone (n : Nat)
  | nextEntry (n : Nat)
  | delEntry (n : Nat)
  deriving DecidableEq, Repr

/-- The choices the code leaves open. Levels of 256 and more are out of scope, as is the panic of
`get_random_level`, which needs a weight to draw from (`Model.Levels`): with `M = 1` a level may be
drawn that no `LayerId` can hold, and with `M = 0` there is no weight. -/
structure Schedule where
  /-- `get_random_level`. -/
  level : ItemId → Nat
  /-- The levels fit in a `LayerId`, which those that are drawn do for `M` from 2 on. -/
  level_lt : ∀ x, level x < 256
  /-- `sort_unstable_by` on the levels, descending. -/
  order : List (ItemId × Nat) → List (ItemId × Nat)
  order_perm : ∀ l, (order l).Perm l
  order_sorted : ∀ l, (order l).Pairwise fun a b => b.2 ≤ a.2
  /-- Whose request is served next, for each level group (`Server.interleave`). -/
  picks : Nat → List Nat
  /-- The order in which a concurrent map yields its keys. -/
  visit : List ItemId → List ItemId
  visit_perm : ∀ l, (visit l).Perm l

/-- Levels as given, tasks one after the other in a stable order. -/
def Schedule.sequential (level : ItemId → Nat) (level_lt : ∀ x, level x < 256) : Schedule where
  level
  level_lt
  order l := l.insertionSort fun a b => b.2 ≤ a.2
  order_perm l := List.perm_insertionSort _ l
  order_sorted l :=
    have : Std.Total fun a b : ItemId × Nat => b.2 ≤ a.2 := ⟨fun a b => Nat.le_total b.2 a.2⟩
    have : IsTrans (ItemId × Nat) fun a b => b.2 ≤ a.2 := ⟨fun _ _ _ h h' => Nat.le_trans h' h⟩
    List.pairwise_insertionSort _ l
  picks _ := []
  visit l := l
  visit_perm l := List.Perm.refl l

/-- What a build runs against. -/
structure Environment where
  schedule : Schedule
  fault : Site → Bool

/-- No call of the database fails. -/
def Environment.sequential (level : ItemId → Nat) (level_lt : ∀ x, level x < 256) : Environment :=
  ⟨Schedule.sequential level level_lt, fun _ => false⟩

/-- Every item is on level 0. -/
def Environment.oneLevel : Environment := .sequential (fun _ => 0) fun _ => by decide

/-- Item 0 is on level 1, the others are on level 0. -/
def Environment.twoLevels : Environment :=
  .sequential (fun x => if x = 0 then 1 else 0) fun x => by split_ifs <;> decide

/-- The options available when building the hannoy database. -/
structure BuildOption where
  efConstruction : Nat
  alpha : F32
  cancel : Probe → Bool
  /-- An optimization that allows for faster relinking of all items. -/
  relinkAllItems : Bool

/-- `BuildOption::default`. -/
def BuildOption.default : BuildOption := ⟨100, F32.one, fun _ => false, false⟩

/-- A transaction on the database: an error leaves the writes made so far. -/
abbrev RwTxn (α : Type) := EStateM Failure Database α

namespace RwTxn

def ofExcept {α : Type} : Except Failure α → RwTxn α
  | .ok a => pure a
  | .error e => throw e

/-- A call of the database that fails when the oracle says so. -/
def check (env : Environment) (site : Site) : RwTxn Unit :=
  if env.fault site then throw (.err .heed) else pure ()

open Library.Txn in
theorem ofExcept_ok_iff {α : Type} {x : Except Failure α} {a : α} {db db' : Database} :
    ofExcept x db = .ok a db' ↔ x = .ok a ∧ db' = db := by
  cases x with
  | error e => exact ⟨fun h => (throw_ok_iff.mp h).elim, fun h => (by cases h.1)⟩
  | ok b =>
    refine pure_ok_iff.trans ⟨?_, ?_⟩
    · rintro ⟨rfl, rfl⟩; exact ⟨rfl, rfl⟩
    · rintro ⟨h, rfl⟩; cases h; exact ⟨rfl, rfl⟩

theorem check_ok_iff {env : Environment} {site : Site} {u : Unit} {db db' : Database} :
    check env site db = .ok u db' ↔ env.fault site = false ∧ db' = db := by
  unfold check
  cases env.fault site with
  | true => exact ⟨fun h => (by cases h), fun h => (by cases h.1)⟩
  | false =>
    constructor
    · intro h; cases h; exact ⟨rfl, rfl⟩
    · rintro ⟨-, rfl⟩; rfl

theorem check_of_fault {env : Environment} {site : Site} (h : env.fault site = true)
    (db : Database) : check env site db = .error (.err .heed) db := by
  rw [check, if_pos h]
  rfl

theorem check_of_no_fault {env : Environment} {site : Site} (h : env.fault site = false)
    (db : Database) : check env site db = .ok () db := by
  rw [check, if_neg (by rw [h]; exact Bool.false_ne_true)]
  rfl

end RwTxn

/-- `index % CANCELLATION_PROBING == 0 && cancel()`. -/
def BuildOption.cancelled (options : BuildOption) (n : Nat) (probe : Nat → Probe) : Bool :=
  n % CANCELLATION_PROBING = 0 && options.cancel (probe n)

/-- The fields of `HnswBuilder` that change during a build. -/
structure HnswBuilder (M0 : Nat) where
  maxLevel : Nat
  entryPoints : List ItemId
  layers : Layers M0

namespace HnswBuilder

variable (D : Distance) (M : Nat) {M0 : Nat} (options : BuildOption) (env : Environment)
  (lmdb : FrozenReader)

/-! ## Levels and entry points -/

/-- The loop over `iter_layer_links(l)` (`hnsw.rs:245-251`): adds the first surviving node of the
layer that is no entry point yet. -/
def replaceAt (toDelete : RoaringBitmap) (level : LayerId) :
    List (Key × Value) → RoaringBitmap → Except Failure RoaringBitmap
  | [], eps => .ok eps
  | (k, v) :: entries, eps =>
    if k.node.layer ≠ level then replaceAt toDelete level entries eps
    else do
      let _ ← decodeLinks v
      if k.node.item ∉ toDelete ∧ k.node.item ∉ eps then
        .ok (Insert.insert k.node.item eps)
      else replaceAt toDelete level entries eps

/-- The `loop` from layer `l` down to layer 0 (`hnsw.rs:244-256`). -/
def replaceFrom (toDelete : RoaringBitmap) : Nat → RoaringBitmap → Except Failure RoaringBitmap
  | 0, eps => replaceAt toDelete (0 : Nat).toUInt8 lmdb.linksEntries eps
  | l + 1, eps => do
    replaceFrom toDelete l (← replaceAt toDelete (l + 1).toUInt8 lmdb.linksEntries eps)

/-- One round for each deleted entry point. The first one starts at the top and leaves `l` at
layer 0, where the others start. -/
def replaceDeleted (toDelete : RoaringBitmap) (maxLevel : Nat) :
    Nat → RoaringBitmap → Except Failure RoaringBitmap
  | 0, eps => .ok eps
  | n + 1, eps => do
    replaceDeleted toDelete 0 n (← replaceFrom lmdb toDelete maxLevel eps)

/-- Run a client of the layers alone. -/
def runClient {α : Type} (p : Client M0 α) (layers : Layers M0) : Except Failure (α × Layers M0) :=
  p.run (exec D M options.alpha lmdb) layers

/-- Case 1: some deleted entry points could not be replaced, so the previous graph is gone and
the height is reset (`hnsw.rs:261-263`). -/
def resetMaxLevel (b : HnswBuilder M0) (toDelete newEps : RoaringBitmap) : Nat :=
  if b.entryPoints.toFinset ∩ toDelete ≠ ∅ ∧ newEps.card ≠ b.entryPoints.toFinset.card then 0
  else b.maxLevel

/-- The levels in insertion order, the entry points scheduled for re-indexing
(`hnsw.rs:267-268`). -/
def scheduleLevels (levels : List (ItemId × Nat)) (newEps : RoaringBitmap) (maxLevel : Nat) :
    List (ItemId × Nat) :=
  env.schedule.order (levels ++ (ascending newEps).map fun id => (id, maxLevel))

/-- The items of the highest level. -/
def upperLayer (levels : List (ItemId × Nat)) (maxLevel : Nat) : List (ItemId × Nat) :=
  levels.takeWhile fun p => p.2 = maxLevel

/-- The end of `prepare_levels_and_entry_points` (`hnsw.rs:270-288`): Case 2, in which new points on
higher levels are the new entry points, and the items of the upper layer. -/
def raiseEntryPoints (b : HnswBuilder M0) (levels : List (ItemId × Nat)) (curMaxLevel : Nat)
    (newEps : RoaringBitmap) (maxLevel : Nat) : Except Failure (HnswBuilder M0) := do
  let newEps := if maxLevel < curMaxLevel then ∅ else newEps
  let maxLevel := if maxLevel < curMaxLevel then curMaxLevel else maxLevel
  let upper := upperLayer levels maxLevel
  let (_, layers) ← runClient D M options lmdb
    (upper.foldlM (fun _ p => addInLayersBelow M0 p.1 maxLevel) ())
    (b.layers ++ List.replicate (maxLevel + 1) ∅)
  pure
    { maxLevel
      entryPoints := ascending (newEps ∪ (upper.map Prod.fst).toFinset)
      layers }

/-- `prepare_levels_and_entry_points` (`hnsw.rs:222-289`); returns the levels in insertion
order. -/
def prepareLevelsAndEntryPoints (b : HnswBuilder M0) (levels : List (ItemId × Nat))
    (curMaxLevel : Nat) (toDelete : RoaringBitmap) :
    Except Failure (List (ItemId × Nat) × HnswBuilder M0) := do
  let oldEps := b.entryPoints.toFinset
  let delEps := oldEps ∩ toDelete
  -- replace the deleted entry points with points from the previous graph
  if delEps ≠ ∅ ∧ env.fault .layerLinks then throw (.err .heed)
  let newEps ← replaceDeleted lmdb toDelete b.maxLevel delEps.card (oldEps \ toDelete)
  let maxLevel := resetMaxLevel b toDelete newEps
  let levels := scheduleLevels env levels newEps maxLevel
  let b ← raiseEntryPoints D M options lmdb b levels curMaxLevel newEps maxLevel
  pure (levels, b)

/-! ## Inserting -/

/-- The task of one item of a level group, the `n`-th to be started (`hnsw.rs:173-183`). -/
def insertTask (b : HnswBuilder M0) (n : Nat) (item : ItemId) (level : Nat) : Client M0 Unit :=
  if options.cancelled n .insert then .fail (.err .buildCancelled)
  else if env.fault (.insert n) then .fail (.err .heed)
  else insert D M M0 options.alpha lmdb options.efConstruction b.maxLevel b.entryPoints item level

/-- The items of the `g`-th level group, inserted in parallel. Of the errors of several inserts the
first one in the list is returned, where the code may return any. -/
def insertGroup (b : HnswBuilder M0) (n g : Nat) (grp : List (ItemId × Nat))
    (layers : Layers M0) : Except Failure (Layers M0) :=
  interleave (exec D M options.alpha lmdb) (env.schedule.picks g)
    ((grp.zipIdx n).map fun p => insertTask D M options env lmdb b p.2 p.1.1 p.1.2) layers

/-- The level groups one after the other, the highest first (`hnsw.rs:172-185`). -/
def insertGroups (b : HnswBuilder M0) :
    Nat → Nat → List (List (ItemId × Nat)) → Layers M0 → Except Failure (Layers M0)
  | _, _, [], layers => .ok layers
  | n, g, grp :: rest, layers => do
    let layers ← insertGroup D M options env lmdb b n g grp layers
    insertGroups b (n + grp.length) (g + 1) rest layers

/-- `levels.chunk_by(|(_, la), (_, lb)| la == lb)`. -/
def levelGroups (levels : List (ItemId × Nat)) : List (List (ItemId × Nat)) :=
  levels.splitBy fun a b => a.2 == b.2

/-! ## Repairing the links around deleted items -/

/-- The layers needed for the links already stored (`hnsw.rs:346-358`). -/
def resizeLayers (entries : List (Key × Value)) (layers : Layers M0) : Layers M0 :=
  entries.foldl (fun layers e =>
    match decodeLinks e.2 with
    | .ok _ => layers ++ List.replicate (e.1.node.layer.toNat + 1 - layers.length) ∅
    | .error _ => layers) layers

/-- The surviving ids among the links of a node and of its deleted neighbours. -/
def mergedLinks (toDelete links : RoaringBitmap) (level : Nat) : RoaringBitmap :=
  (((links ∩ toDelete).biUnion fun d =>
      match lmdb.links d level with
      | .ok extended => extended
      | .error _ => ∅) ∪ links) \ toDelete

/-- Repair one stored node (`hnsw.rs:376-411`). -/
def patchLinks (toDelete : RoaringBitmap) (id : ItemId) (level : Nat) (links : RoaringBitmap)
    (layers : Layers M0) : Except Failure (Layers M0) := do
  let newLinks := layers.linksAt level id
  let bitmap := mergedLinks lmdb toDelete links level
  -- Case 1: the union is small enough
  if bitmap.card + newLinks.length ≤ linkCap M M0 level then
    let entries :=
      (ascending bitmap).map (fun other => (⟨F32.zero, other⟩ : ScoredLink)) ++ newLinks
    pure (layers.insert level id ⟨← ArrayVec.fromIter M0 entries⟩)
  -- Case 2: some links are dropped
  else
    let curr ← lmdb.item id
    let scored ← (ascending bitmap).mapM fun other => do
      pure (⟨D.distance curr (← lmdb.item other), other⟩ : ScoredLink)
    let pruned ← robustPrune D M M0 options.alpha lmdb (newLinks ++ scored) level
    pure (layers.insert level id ⟨← ArrayVec.fromIter M0 pruned⟩)

/-- The loop over the stored nodes; `n` counts them. -/
def patchAll (toDelete : RoaringBitmap) :
    Nat → List (Key × Value) → Layers M0 → Except Failure (Layers M0)
  | _, [], layers => .ok layers
  | n, (k, v) :: rest, layers =>
    if options.cancelled n .patch then .error (.err .buildCancelled)
    else if env.fault (.patch n) then .error (.err .heed)
    else do
      let links ← decodeLinks v
      -- links of deleted items are still there, and left alone
      if k.node.item ∈ toDelete then patchAll toDelete (n + 1) rest layers
      else do
        let layers ← patchLinks D M options lmdb toDelete k.node.item k.node.layer.toNat links
          layers
        patchAll toDelete (n + 1) rest layers

/-- `fill_gaps_from_deleted` (`hnsw.rs:334-415`). -/
def fillGapsFromDeleted (toDelete : RoaringBitmap) (layers : Layers M0) :
    Except Failure (Layers M0) := do
  if env.fault .iterLinks then throw (.err .heed)
  patchAll D M options env lmdb toDelete 0 lmdb.linksEntries
    (resizeLayers lmdb.linksEntries layers)

/-! ## Writing -/

/-- The entries of the layers in the order they are written. -/
def linksToWrite (layers : Layers M0) : List (Key × Value) :=
  layers.zipIdx.flatMap fun (map, level) =>
    (env.schedule.visit map.keys).filterMap fun id =>
      map[id]?.map fun node =>
        (Key.links lmdb.index id level.toUInt8, .node (.links node.targets.toFinset))

/-- The single-threaded write to lmdb (`hnsw.rs:193-213`); `n` counts the nodes. -/
def writeLinks : Nat → List (Key × Value) → RwTxn Unit
  | _, [] => pure ()
  | n, (k, v) :: rest => do
    if options.cancelled n .write then throw (.err .buildCancelled)
    RwTxn.check env (.putLinks n)
    modify fun db => db.put k v
    writeLinks (n + 1) rest

/-- The phases of `build` that only read the database: the builder with the layers to write. -/
def buildLayers (b : HnswBuilder M0) (toInsert toDelete : RoaringBitmap) :
    Except Failure (HnswBuilder M0) := do
  let levels := (ascending toInsert).map fun id => (id, env.schedule.level id)
  let curMaxLevel := (levels.map Prod.snd).foldl max 0
  let (levels, b) ← prepareLevelsAndEntryPoints D M options env lmdb b levels curMaxLevel toDelete
  let layers ← insertGroups D M options env lmdb b 0 0 (levelGroups levels) b.layers
  let layers ← fillGapsFromDeleted D M options env lmdb toDelete layers
  pure { b with layers }

/-- `build` (`hnsw.rs:122-216`). -/
def build (b : HnswBuilder M0) (index : UInt16) (toInsert toDelete : RoaringBitmap) :
    RwTxn (HnswBuilder M0) := do
  RwTxn.check env .openReader
  let lmdb : FrozenReader := ⟨← get, index⟩
  let b ← RwTxn.ofExcept (buildLayers D M options env lmdb b toInsert toDelete)
  writeLinks options env 0 (linksToWrite env lmdb b.layers)
  pure b

end HnswBuilder

end Hannoy
