import Hannoy.Model.Hnsw

/-!
# The writer (`writer.rs`)

A writer stores items, marks them with "updated" stones, and builds the search index. Every
operation is a transaction `RwTxn`.

* `addItem`, `delItem`, `clear`, `build` and `forceRebuild` follow the methods of the same names.
* `updateSets` is the set algebra with which `build` combines the stones with the items of the
  metadata.
* `resetAndRetrieveUpdatedItems` walks over the stones and deletes them as it goes.
-/

namespace Hannoy

open Hannoy.Library

/-- A writer to store new items, remove existing ones, and build the search index. -/
structure Writer where
  index : UInt16
  dimensions : Nat
  deriving DecidableEq, Repr

/-- What `build` hands to the graph builder and to the metadata. -/
structure UpdateSets where
  itemIndices : RoaringBitmap
  toDelete : RoaringBitmap
  toInsert : RoaringBitmap

/-- `writer.rs:547-553`, from the touched items, the deleted ones and those of the metadata. -/
def updateSets (allUpdatedItems deletedItems indexedItems : RoaringBitmap) : UpdateSets :=
  let updatedItems := allUpdatedItems \ deletedItems
  let itemIndices := (updatedItems ∪ indexedItems) \ deletedItems
  { itemIndices
    toDelete := allUpdatedItems \ itemIndices
    toInsert := itemIndices ∩ allUpdatedItems }

namespace Writer

variable (D : Distance) (w : Writer)

/-! ## Items -/

/-- `add_item` (`writer.rs:462-480`). -/
def addItem (item : ItemId) (vector : List F32) : RwTxn Unit := do
  if vector.length ≠ w.dimensions then
    throw (.err (.invalidVecDimension w.dimensions vector.length))
  modify fun db => db.put (Key.item w.index item) (.node (.item (Item.ofVector D vector)))
  modify fun db => db.put (Key.updated w.index item) (.status .updated)

/-- `del_item` (`writer.rs:483-495`). -/
def delItem (item : ItemId) : RwTxn Bool := do
  if ((← get)[Key.item w.index item]?).isSome then
    modify fun db => db.delete (Key.item w.index item)
    modify fun db => db.put (Key.updated w.index item) (.status .removed)
    pure true
  else pure false

/-- `clear` (`writer.rs:498-511`). -/
def clear : RwTxn Unit :=
  modify fun db => db.deleteAll ((db.prefixIter (Prefix.all w.index)).map Prod.fst)

/-- `contains_item` (`writer.rs:448-454`). -/
def containsItem (db : Database) (item : ItemId) : Bool := db[Key.item w.index item]?.isSome

/-- `need_build` (`writer.rs:423-436`). -/
def needBuild (db : Database) : Bool :=
  !(db.prefixIter (Prefix.updated w.index)).isEmpty || db[Key.metadata w.index]?.isNone

/-- `item_vector` (`writer.rs:439-445`). -/
def itemVector (db : Database) (item : ItemId) : Except Failure (Option (List F32)) := do
  pure ((← db.getItem w.index item).map (Item.toVector D w.dimensions))

/-! ## Building -/

variable (M M0 : Nat) (env : Environment) (options : BuildOption)

/-- Decode an "updated" stone (`update_status.rs:23-31`). -/
def decodeStatus : Value → Except Failure UpdateStatus
  | .status s => .ok s
  | _ => .error (.err .heed)

/-- The loop of `reset_and_retrieve_updated_items` (`writer.rs:664-685`). -/
def retrieveLoop : Nat → List (Key × Value) → RoaringBitmap → RoaringBitmap →
    RwTxn (RoaringBitmap × RoaringBitmap)
  | n, [], updated, deleted => do
    RwTxn.check env (.nextStone n)
    pure (updated, deleted)
  | n, (k, v) :: rest, updated, deleted => do
    RwTxn.check env (.nextStone n)
    let status ← RwTxn.ofExcept (decodeStatus v)
    if options.cancelled n .retrieve then throw (.err .buildCancelled)
    let updated := insert k.node.item updated
    let deleted := if status = .removed then insert k.node.item deleted else deleted
    -- delete the stone under the cursor
    RwTxn.check env (.delStone n)
    modify fun db => db.delete k
    retrieveLoop (n + 1) rest updated deleted

/-- `reset_and_retrieve_updated_items` (`writer.rs:645-688`). -/
def resetAndRetrieveUpdatedItems : RwTxn (RoaringBitmap × RoaringBitmap) := do
  retrieveLoop env options 0 ((← get).prefixIter (Prefix.updated w.index)) ∅ ∅

/-- The loop of `delete_links_from_db` (`writer.rs:710-715`). -/
def deleteLinksLoop (toDelete : RoaringBitmap) : Nat → List Key → RwTxn Unit
  | n, [] => RwTxn.check env (.nextLinks n)
  | n, k :: rest => do
    RwTxn.check env (.nextLinks n)
    if k.node.item ∈ toDelete then modify fun db => db.delete k
    deleteLinksLoop toDelete (n + 1) rest

/-- `delete_links_from_db` (`writer.rs:692-718`). -/
def deleteLinksFromDb (toDelete : RoaringBitmap) : RwTxn Unit := do
  deleteLinksLoop env toDelete 0 (((← get).prefixIter (Prefix.links w.index)).map Prod.fst)

/-- The sets `build` works with (`writer.rs:531-554`). -/
def retrieveSets : RwTxn UpdateSets := do
  RwTxn.check env .readItems
  let metadata ← RwTxn.ofExcept ((← get).getMetadata w.index)
  let indexedItems := match metadata with
    | some m => m.items
    | none => ∅
  -- when all links are rebuilt the stones are left alone
  if options.relinkAllItems then pure ⟨indexedItems, ∅, indexedItems⟩
  else do
    let (allUpdatedItems, deletedItems) ← w.resetAndRetrieveUpdatedItems env options
    pure (updateSets allUpdatedItems deletedItems indexedItems)

/-- The graph builder with the entry points of the metadata (`writer.rs:556-571`). -/
def startBuilder : RwTxn (HnswBuilder M0) := do
  RwTxn.check env .readMetadata
  let metadata ← RwTxn.ofExcept ((← get).getMetadata w.index)
  pure (match metadata with
    | some m => ⟨m.maxLevel.toNat, m.entryPoints, []⟩
    | none => ⟨0, [], []⟩)

/-- The new metadata and version (`writer.rs:585-602`). -/
def writeMetadata (items : RoaringBitmap) (b : HnswBuilder M0) : RwTxn Unit := do
  if 2 ^ 32 ≤ w.dimensions then throw (.panic .dimensionsOverflow)
  RwTxn.check env .putMetadata
  modify fun db => db.put (Key.metadata w.index) (.metadata
    { dimensions := w.dimensions.toUInt32
      items
      distance := D.name
      entryPoints := b.entryPoints
      maxLevel := b.maxLevel.toUInt8 })
  RwTxn.check env .putVersion
  modify fun db => db.put (Key.version w.index) (.version Version.current)

/-- What a build takes for granted and does not check. Without `caps` and `dimensions` it panics
here as well; what happens without the others is out of scope. -/
structure Limits : Prop where
  /-- `get_random_level` has weights to draw from, and none for a level of 256 or more. -/
  two_le : 2 ≤ M
  /-- A list of links takes what `robust_prune` selects. -/
  caps : M ≤ M0
  /-- The length of a `tinyvec::ArrayVec` is a `u16`. -/
  length : M0 < 2 ^ 16
  /-- The dimensions of the metadata are a `u32`. -/
  dimensions : w.dimensions < 2 ^ 32
  /-- The result heap of `walk_layer`. -/
  efConstruction : HeapFits options.efConstruction

/-- `build` (`writer.rs:521-603`). -/
def build : RwTxn Unit := do
  let sets ← w.retrieveSets env options
  let b ← w.startBuilder M0 env
  let b ← b.build D M options env w.index sets.toInsert sets.toDelete
  -- remove deleted links after the build, which uses them to fill the gaps
  w.deleteLinksFromDb env sets.toDelete
  w.writeMetadata D M0 env sets.itemIndices b

/-- `force_rebuild` (`writer.rs:610-638`) as `HannoyBuilder::force_rebuild` calls it, with
`relink_all_items` set. -/
def forceRebuild : RwTxn Unit := do
  let metadata ← RwTxn.ofExcept ((← get).getMetadata w.index)
  match metadata with
  | none => throw (.panic .metadataMissing)
  | some m =>
    w.deleteLinksFromDb env m.items
    w.build D M M0 env { options with relinkAllItems := true }

end Writer

end Hannoy
