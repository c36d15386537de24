import Hannoy.Model.Codec
import Hannoy.Model.Writer

/-!
# Conversions of an index (`writer.rs:289-410`, `writer.rs:720-734`)

The operations of a writer that change the format of an index. The types that implement `Distance`
are an index type `T`, so that `TypeId::of::<ND>() != TypeId::of::<D>()` is `ND ≠ D`; what a type
implements is `dist`.

* `prepareChangingDistance` re-encodes the items for another distance.
* `prepareArroyConversion` keeps the items of an arroy index and deletes everything else. What
  `NodeCodec` makes of the bytes of an entry is its argument `decode`.
* `Faulty.addItem`, `Faulty.delItem` and `Faulty.clear` are the operations of `Writer` with the
  calls of the database that can fail.
-/

namespace Hannoy.Writer

open Hannoy.Library

variable (w : Writer) (env : Environment)

/-! ## Cursors -/

/-- Delete every entry under a cursor. -/
def deleteLoop (next del : Nat → Site) : Nat → List Key → RwTxn Unit
  | n, [] => RwTxn.check env (next n)
  | n, k :: rest => do
    RwTxn.check env (next n)
    RwTxn.check env (del n)
    modify fun db => db.delete k
    deleteLoop next del (n + 1) rest

/-- `clear_links` (`writer.rs:722-734`). -/
def clearLinks (index : UInt16) : RwTxn Unit := do
  deleteLoop env .nextLinks .delLinks 0 (((← get).prefixIter (Prefix.links index)).map Prod.fst)

/-- Mark items as updated, in increasing order (`writer.rs:397-403`, `writer.rs:344-350`). -/
def putStones (index : UInt16) : Nat → List ItemId → RwTxn Unit
  | _, [] => pure ()
  | n, item :: rest => do
    RwTxn.check env (.putStone n)
    modify fun db => db.put (Key.updated index item) (.status .updated)
    putStones index (n + 1) rest

/-! ## Changing the distance -/

/-- `name.strip_prefix("binary quantized ")`. -/
def rawName (name : String) : Option String :=
  let start := "binary quantized "
  if start.toList.isPrefixOf name.toList then
    some (String.ofList (name.toList.drop start.length))
  else none

/-- The links are kept when moving to the quantized version of the same distance
(`writer.rs:362-364`). -/
def keepsLinks (D ND : Distance) : Bool :=
  match rawName ND.name with
  | some raw => raw = D.name
  | none => false

/-- The loop over the items (`writer.rs:376-393`). -/
def reencodeLoop (D ND : Distance) : Nat → List (Key × Value) → RoaringBitmap →
    RwTxn RoaringBitmap
  | n, [], updated => do
    RwTxn.check env (.nextItem n)
    pure updated
  | n, (k, v) :: rest, updated => do
    RwTxn.check env (.nextItem n)
    match v with
    | .node (.item item) =>
      RwTxn.check env (.putItem n)
      modify fun db => db.put k (.node (.item (Item.ofVector ND (D.codec.toVec item.vector))))
      reencodeLoop D ND (n + 1) rest (insert k.node.item updated)
    | .node (.links _) => throw (.panic .unreachable)
    | _ => throw (.err .heed)

/-- The links and the metadata are cleared, unless they are kept (`writer.rs:362-369`). -/
def clearGraph (D ND : Distance) : RwTxn Unit :=
  if keepsLinks D ND then pure ()
  else do
    clearLinks env w.index
    RwTxn.check env .delMetadata
    modify fun db => db.delete (Key.metadata w.index)

/-- All items are rewritten and marked (`writer.rs:371-405`). -/
def reencodeItems (D ND : Distance) : RwTxn Unit := do
  let updated ← reencodeLoop env D ND 0 ((← get).prefixIter (Prefix.item w.index)) ∅
  putStones env w.index 0 (ascending updated)

/-- `prepare_changing_distance` (`writer.rs:358-410`); the writer it returns is a writer of
`ND`. -/
def prepareChangingDistance {T : Type} [DecidableEq T] (dist : T → Distance) (D ND : T) :
    RwTxn Writer := do
  if ND ≠ D then
    w.clearGraph env (dist D) (dist ND)
    w.reencodeItems env (dist D) (dist ND)
  pure w

/-! ## Converting an arroy index -/

/-- What `NodeCodec::bytes_decode` makes of an entry. -/
inductive Decoded where
  | node (n : Node)
  | error
  | panic

/-- The loop over the entries of the index (`writer.rs:309-338`). -/
def arroyLoop (D : Distance) (decode : Value → Decoded) (onDiskDim : Nat) :
    Nat → List (Key × Value) → RoaringBitmap → RwTxn RoaringBitmap
  | n, [], newItems => do
    RwTxn.check env (.nextEntry n)
    pure newItems
  | n, (k, v) :: rest, newItems => do
    RwTxn.check env (.nextEntry n)
    match k.node.mode, decode v with
    | _, .panic => throw (.panic .nodeDecode)
    | .item, .node (.item item) =>
      if D.codec.len item.vector ≠ onDiskDim then
        throw (.err (.invalidVecDimension onDiskDim (D.codec.len item.vector)))
      arroyLoop D decode onDiskDim (n + 1) rest (insert k.node.item newItems)
    -- every other entry is useless for the conversion
    | _, _ =>
      RwTxn.check env (.delEntry n)
      modify fun db => db.delete k
      arroyLoop D decode onDiskDim (n + 1) rest newItems

/-- `prepare_arroy_conversion` (`writer.rs:292-353`). -/
def prepareArroyConversion (D : Distance) (decode : Value → Decoded) : RwTxn Unit := do
  let wordSize := D.codec.wordSize
  -- binary quantized have len vec.len().div_ceil(64)*64 >= vec.len()
  let onDiskDim := (w.dimensions + wordSize - 1) / wordSize * wordSize
  let newItems ← arroyLoop env D decode onDiskDim 0 ((← get).prefixIter (Prefix.all w.index)) ∅
  putStones env w.index 0 (ascending newItems)

/-! ## Items, with the calls that can fail -/

namespace Faulty

/-- `add_item` (`writer.rs:462-480`). -/
def addItem (D : Distance) (item : ItemId) (vector : List F32) : RwTxn Unit := do
  if vector.length ≠ w.dimensions then
    throw (.err (.invalidVecDimension w.dimensions vector.length))
  RwTxn.check env (.putItem 0)
  modify fun db => db.put (Key.item w.index item) (.node (.item (Item.ofVector D vector)))
  RwTxn.check env (.putStone 0)
  modify fun db => db.put (Key.updated w.index item) (.status .updated)

/-- `del_item` (`writer.rs:483-495`). -/
def delItem (item : ItemId) : RwTxn Bool := do
  RwTxn.check env .delItem
  if ((← get)[Key.item w.index item]?).isSome then
    modify fun db => db.delete (Key.item w.index item)
    RwTxn.check env (.putStone 0)
    modify fun db => db.put (Key.updated w.index item) (.status .removed)
    pure true
  else pure false

/-- `clear` (`writer.rs:498-511`). -/
def clear : RwTxn Unit := do
  deleteLoop env .nextEntry .delEntry 0 (((← get).prefixIter (Prefix.all w.index)).map Prod.fst)

end Faulty

end Hannoy.Writer
