import Hannoy.Codec.Keys
import Hannoy.Model.Lmdb

/-!
# Reading the bytes of a database

The model keeps the values of the database decoded. That is what the code finds in LMDB, provided
every entry has the kind its key announces, the sizes of the distance it is read with, and a name
that ends where it should.

* `heldBy_put`, `heldBy_delete`: writes of entries are writes of their bytes.
* `Legible`: what the decoders take for granted of the entries of an index.
* `Legible.reads`: they read every entry back, by its key or on a walk.
-/

namespace Hannoy.Codec

open Hannoy.Library

variable {R : Roaring} {F : NodeFormat} {l : Lmdb} {db : Database} {i : UInt16}

/-! ## Writes -/

theorem compare_bytes (a b : Key) : compare a.bytesEncode b.bytesEncode = compare a b := by
  have hlt : ∀ {a b : Key}, compare a.bytesEncode b.bytesEncode = .lt ↔ compare a b = .lt :=
    fun {a b} => compare_eq_lt_iff.trans compare_lt_iff_lt.symm
  cases h : compare a b with
  | lt => exact hlt.mpr h
  | gt => exact Std.OrientedCmp.gt_iff_lt.mpr (hlt.mpr (Std.OrientedCmp.gt_iff_lt.mp h))
  | eq =>
    rw [Std.LawfulEqOrd.eq_of_compare h]
    exact Std.compare_self

/-- Putting an entry puts its bytes. -/
theorem heldBy_put (h : db.HeldBy R l) (k : Key) (v : Value) :
    (db.put k v).HeldBy R (l.insert k.bytesEncode (v.bytesEncode R)) :=
  h.insert compare_bytes k v

/-- Deleting an entry deletes its bytes. -/
theorem heldBy_delete (h : db.HeldBy R l) (k : Key) :
    (db.delete k).HeldBy R (l.erase k.bytesEncode) :=
  h.erase compare_bytes k

/-! ## What the decoders take for granted -/

/-- The bitmaps of a value. -/
def valueBitmaps : Value → Set RoaringBitmap
  | .node n => bitmaps n
  | .metadata m => {m.items}
  | .status _ | .version _ | .foreign _ => ∅

/-- Every entry of index `i` is of the kind its key announces, items have the sizes of the format,
and the name of the distance has no NUL. -/
structure Legible (F : NodeFormat) (i : UInt16) (db : Database) : Prop where
  typed : db.WellTyped i
  item : ∀ {x it}, db.item? i x = some it → Fits F (.item it)
  name : ∀ {m}, db.metadata? i = some m → 0 ∉ MetadataCodec.asBytes m.distance

/-- What the code reads of an index from the bytes is what the entries of `db` are: nodes, metadata
and version under their keys, and items, links, stones and bare keys on a walk. -/
structure Reads (R : Roaring) (F : NodeFormat) (i : UInt16) (db : Database) (l : Lmdb) : Prop where
  item : ∀ x, l.get (NodeCodec.bytesDecode R F) (Key.item i x) = db.getNode (Key.item i x)
  links : ∀ x level, l.get (NodeCodec.bytesDecode R F) (Key.links i x level) =
    db.getNode (Key.links i x level)
  metadata : l.get (MetadataCodec.bytesDecode R) (Key.metadata i) = db.getMetadata i
  version : l.get VersionCodec.bytesDecode (Key.version i) = db.getVersion i
  items : (l.iter (NodeCodec.bytesDecode R F) (Prefix.item i)).map
    (List.map fun e => (e.1, Value.node e.2)) = .ok (db.prefixIter (Prefix.item i))
  allLinks : (l.iter (NodeCodec.bytesDecode R F) (Prefix.links i)).map
    (List.map fun e => (e.1, Value.node e.2)) = .ok (db.prefixIter (Prefix.links i))
  stones : (l.iter UpdateStatusCodec.bytesDecode (Prefix.updated i)).map
    (List.map fun e => (e.1, Value.status e.2)) = .ok (db.prefixIter (Prefix.updated i))
  keys : ∀ m, l.iter Lmdb.decodeIgnore ⟨i, m⟩ =
    .ok ((db.prefixIter ⟨i, m⟩).map fun e => (e.1, ()))

theorem version_roundTrip (v : Version) :
    VersionCodec.bytesDecode (VersionCodec.bytesEncode v) = .ok v := by
  have hfour : ∀ (x : UInt32) (rest : List UInt8),
      sliceFrom (u32ToBeBytes x ++ rest) 4 = .ok rest := fun x rest => sliceFrom_append rfl rest
  have hlast : readBeU32 (u32ToBeBytes v.patch) = .ok v.patch := by
    rw [← List.append_nil (u32ToBeBytes v.patch)]
    exact readBeU32_append _ _
  simp only [VersionCodec.bytesDecode, VersionCodec.bytesEncode, List.append_assoc,
    readBeU32_append, hfour, hlast, ok_bind]
  rfl

theorem status_roundTrip (s : UpdateStatus) :
    UpdateStatusCodec.bytesDecode (UpdateStatusCodec.bytesEncode s) = .ok s := by
  cases s <;> rfl

/-- A walk over the bytes, when the values under the prefix are decoded. -/
theorem iter_eq (h : db.HeldBy R l) {α : Type} {decode : List UInt8 → Except DecodeFailure α}
    {p : Prefix} (read : Value → α)
    (hread : ∀ {k v}, db[k]? = some v → p.Selects k →
      decode (v.bytesEncode R) = .ok (read v)) :
    l.iter decode p = .ok ((db.prefixIter p).map fun e => (e.1, read e.2)) := by
  have hwalk : seek Prod.fst p.bytesEncode l.toList =
      (db.prefixIter p).map fun e => (e.1.bytesEncode, e.2.bytesEncode R) := by
    rw [seek_eq_filter l.ordered_keys_toList, h.toList compare_bytes, List.filter_map]
    rfl
  rw [Lmdb.iter, hwalk, List.mapM_map]
  refine Txn.mapM_eq_ok fun ⟨k, v⟩ he => ?_
  obtain ⟨hk, hsel⟩ := Database.mem_prefixIter.mp he
  have hkey : KeyCodec.bytesDecode k.bytesEncode = .ok k := by
    rw [← List.append_nil k.bytesEncode]
    exact bytesDecode_append k []
  show (do
    let k ← Lmdb.decodedKey (KeyCodec.bytesDecode k.bytesEncode)
    let a ← Lmdb.decoded (decode (v.bytesEncode R))
    pure (k, a) : Except Failure (Key × α)) = _
  rw [hkey, hread hk hsel]
  rfl

/-- A walk that reads the values back. -/
theorem iter_back (h : db.HeldBy R l) {α : Type} {decode : List UInt8 → Except DecodeFailure α}
    {p : Prefix} (default : α) {wrap : α → Value}
    (hread : ∀ {k v}, db[k]? = some v → p.Selects k →
      ∃ a, decode (v.bytesEncode R) = .ok a ∧ wrap a = v) :
    (l.iter decode p).map (List.map fun e => (e.1, wrap e.2)) = .ok (db.prefixIter p) := by
  have hvalue : ∀ {k v}, db[k]? = some v → p.Selects k →
      decode (v.bytesEncode R) = .ok ((decode (v.bytesEncode R)).toOption.getD default) ∧
        wrap ((decode (v.bytesEncode R)).toOption.getD default) = v := by
    intro k v hk hsel
    obtain ⟨a, ha, hwrap⟩ := hread hk hsel
    rw [ha]
    exact ⟨rfl, hwrap⟩
  rw [iter_eq h (fun v => (decode (v.bytesEncode R)).toOption.getD default)
    fun hk hsel => (hvalue hk hsel).1]
  refine congrArg Except.ok ?_
  rw [List.map_map]
  refine (List.map_congr_left fun ⟨k, v⟩ he => ?_).trans (List.map_id _)
  obtain ⟨hk, hsel⟩ := Database.mem_prefixIter.mp he
  exact Prod.ext rfl (hvalue hk hsel).2

/-- A value under a key, when it is decoded. -/
theorem get_eq (h : db.HeldBy R l) {α : Type} {decode : List UInt8 → Except DecodeFailure α}
    {k : Key} {v : Value} {a : α} (hk : db[k]? = some v)
    (hread : decode (v.bytesEncode R) = .ok a) : l.get decode k = .ok (some a) := by
  rw [Lmdb.get, h.get, hk]
  show (Lmdb.decoded (decode (v.bytesEncode R))).map some = _
  rw [hread]
  rfl

theorem get_none (h : db.HeldBy R l) {α : Type} {decode : List UInt8 → Except DecodeFailure α}
    {k : Key} (hk : db[k]? = none) : l.get decode k = .ok none := by
  rw [Lmdb.get, h.get, hk]
  rfl

namespace Legible

variable (hl : Legible F i db) (hR : ∀ (k : Key) (v : Value), db[k]? = some v → k.index = i →
  ∀ s ∈ valueBitmaps v, R.Faithful s)
include hl hR

/-- A node is read back. -/
theorem node {k : Key} {n : Node} (hk : db[k]? = some (.node n)) (hi : k.index = i) :
    NodeCodec.bytesDecode R F (NodeCodec.bytesEncode R n) = .ok n := by
  refine node_roundTrip ?_ (hR k _ hk hi)
  cases hl.typed k _ hk hi with
  | links x level s => trivial
  | item x it =>
    refine hl.item (x := x) ?_
    rw [Database.item?, hk]

/-- So is the node under the key of an item or of links. -/
theorem getNode (h : db.HeldBy R l) {k : Key} (hi : k.index = i)
    (hnode : ∀ v, db[k]? = some v → ∃ n, v = .node n) :
    l.get (NodeCodec.bytesDecode R F) k = db.getNode k := by
  rw [Database.getNode]
  cases hk : db[k]? with
  | none => exact get_none h hk
  | some v =>
    obtain ⟨n, rfl⟩ := hnode v hk
    exact get_eq h hk (hl.node hR hk hi)

/-- **Every entry is read back**, by its key or on a walk. -/
theorem reads (h : db.HeldBy R l) : Reads R F i db l := by
  have hitem : ∀ {k v}, db[k]? = some v → (Prefix.item i).Selects k → ∃ n, v = .node n := by
    intro k v hk hsel
    obtain ⟨x, it, -, rfl, -⟩ :=
      (Database.mem_prefixIter_item hl.typed).mp (Database.mem_prefixIter.mpr ⟨hk, hsel⟩)
    exact ⟨_, rfl⟩
  have hlinks : ∀ {k v}, db[k]? = some v → (Prefix.links i).Selects k → ∃ n, v = .node n := by
    intro k v hk hsel
    obtain ⟨x, level, s, -, rfl, -⟩ :=
      (Database.mem_prefixIter_links hl.typed).mp (Database.mem_prefixIter.mpr ⟨hk, hsel⟩)
    exact ⟨_, rfl⟩
  -- a walk over nodes reads them back
  have hnodes : ∀ {p : Prefix}, p.index = i →
      (∀ {k v}, db[k]? = some v → p.Selects k → ∃ n, v = .node n) →
      (l.iter (NodeCodec.bytesDecode R F) p).map (List.map fun e => (e.1, Value.node e.2)) =
        .ok (db.prefixIter p) := by
    intro p hp hnode
    refine iter_back h (.links ∅) fun {k v} hk hsel => ?_
    obtain ⟨n, rfl⟩ := hnode hk hsel
    exact ⟨n, hl.node hR hk (hsel.1.trans hp), rfl⟩
  refine ⟨fun x => ?_, fun x level => ?_, ?_, ?_, hnodes rfl hitem, hnodes rfl hlinks, ?_, ?_⟩
  · exact hl.getNode hR h rfl fun v hk => hitem hk (by simp [Prefix.Selects, Key.item, Prefix.item])
  · exact hl.getNode hR h rfl fun v hk =>
      hlinks hk (by simp [Prefix.Selects, Key.links, Prefix.links])
  · rw [Database.getMetadata]
    cases hk : db[Key.metadata i]? with
    | none => exact get_none h hk
    | some v =>
      cases hl.typed _ v hk rfl with
      | metadata m =>
        refine get_eq h hk (metadata_roundTrip (hl.name ?_) (hR _ _ hk rfl _ rfl))
        rw [Database.metadata?, hk]
  · rw [Database.getVersion]
    cases hk : db[Key.version i]? with
    | none => exact get_none h hk
    | some v =>
      cases hl.typed _ v hk rfl with
      | version v => exact get_eq h hk (version_roundTrip v)
  · refine iter_back h .updated fun {k v} hk hsel => ?_
    obtain ⟨x, s, -, rfl, -⟩ :=
      (Database.mem_prefixIter_updated hl.typed).mp (Database.mem_prefixIter.mpr ⟨hk, hsel⟩)
    exact ⟨s, status_roundTrip s, rfl⟩
  · exact fun m => iter_eq h (fun _ => ()) fun _ _ => rfl

end Legible

end Hannoy.Codec
