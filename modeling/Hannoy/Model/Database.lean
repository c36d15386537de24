import Hannoy.Model.Key
import Hannoy.Model.Item
import Std.Data.ExtTreeMap

/-!
# The database (`lib.rs`, `metadata.rs`, `node.rs`, `update_status.rs`, `version.rs`)

LMDB is an ordered map from keys to values. The values are kept decoded; reading one with another
codec than the one it was written with is a decoding error.

* `prefixIter` lists the entries whose key bytes start with the bytes of a prefix, in key order.
* `itemIter` is the iterator of writers and readers over the items.
* `item?`, `links?`, `stone?` and `metadata?` are the entries of an index by kind.
* `WellTyped i` says that every entry of index `i` is of the kind its key announces. The reads
  that decode succeed on such a database.
-/

namespace Hannoy

open Hannoy.Library

/-- `Node` (`node.rs:15-19`). -/
inductive Node where
  | item (item : Item)
  | links (links : RoaringBitmap)
  deriving DecidableEq

/-- `UpdateStatus` (`update_status.rs:6-11`). -/
inductive UpdateStatus where
  | updated
  | removed
  deriving DecidableEq, Repr

/-- `Metadata` (`metadata.rs:11-18`). -/
structure Metadata where
  dimensions : UInt32
  items : RoaringBitmap
  distance : String
  entryPoints : List ItemId
  maxLevel : LayerId
  deriving DecidableEq

/-- `Version` (`version.rs:8-13`). -/
structure Version where
  major : UInt32
  minor : UInt32
  patch : UInt32
  deriving DecidableEq, Repr

/-- `Version::current`: the version in `Cargo.toml`. -/
def Version.current : Version := ⟨0, 1, 3⟩

/-- What the database stores. -/
inductive Value where
  | node (n : Node)
  | status (s : UpdateStatus)
  | metadata (m : Metadata)
  | version (v : Version)
  /-- Bytes another program wrote. -/
  | foreign (bytes : List UInt8)
  deriving DecidableEq

abbrev Database := Std.ExtTreeMap Key Value

namespace Database

variable (db : Database)

def put (k : Key) (v : Value) : Database := db.insert k v

def delete (k : Key) : Database := db.erase k

/-- The entries a prefix selects, in key order. -/
def prefixIter (p : Prefix) : List (Key × Value) :=
  db.toList.filter fun e => p.bytesEncode.isPrefixOf e.1.bytesEncode

/-- Delete every entry under a cursor. -/
def deleteAll (l : List Key) : Database := l.foldl delete db

/-- Put entries one after the other. -/
def putAll (l : List (Key × Value)) : Database := l.foldl (fun db e => db.put e.1 e.2) db

/-! ## Reads -/

/-- Read with `NodeCodec`. -/
def getNode (k : Key) : Except Failure (Option Node) :=
  match db[k]? with
  | none => .ok none
  | some (.node n) => .ok (some n)
  | some _ => .error (.err .heed)

/-- Read with `MetadataCodec`. -/
def getMetadata (index : UInt16) : Except Failure (Option Metadata) :=
  match db[Key.metadata index]? with
  | none => .ok none
  | some (.metadata m) => .ok (some m)
  | some _ => .error (.err .heed)

/-- Read with `VersionCodec`. -/
def getVersion (index : UInt16) : Except Failure (Option Version) :=
  match db[Key.version index]? with
  | none => .ok none
  | some (.version v) => .ok (some v)
  | some _ => .error (.err .heed)

/-- `get_item` (`reader.rs:951-962`). -/
def getItem (index : UInt16) (item : ItemId) : Except Failure (Option Item) := do
  match ← db.getNode (Key.item index item) with
  | some (.item item) => pure (some item)
  | some (.links _) => pure none
  | none => pure none

/-- `get_links` (`reader.rs:964-976`). -/
def getLinks (index : UInt16) (item : ItemId) (level : Nat) :
    Except Failure (Option RoaringBitmap) := do
  match ← db.getNode (Key.links index item level.toUInt8) with
  | some (.links links) => pure (some links)
  | some (.item _) => pure none
  | none => pure none

/-! ## The iterator over items (`item_iter.rs`) -/

/-- Decode an entry (`item_iter.rs:35-51`); the vectors are cut to their dimensions. -/
def decodeItemVector (D : Distance) (dimensions : Nat) (e : Key × Value) :
    Except Failure (ItemId × List F32) :=
  match e.2 with
  | .node (.item item) => .ok (e.1.node.item, item.toVector D dimensions)
  | .node (.links _) => .error (.panic .unreachable)
  | _ => .error (.err .heed)

/-- `ItemIter` run to its end. -/
def itemIter (D : Distance) (index : UInt16) (dimensions : Nat) :
    Except Failure (List (ItemId × List F32)) :=
  (db.prefixIter (Prefix.item index)).mapM (decodeItemVector D dimensions)

/-- Whether the first call of `next` finds nothing. -/
def itemIterIsNone (index : UInt16) : Bool := (db.prefixIter (Prefix.item index)).isEmpty

/-! ## Entries by kind -/

def item? (i : UInt16) (x : ItemId) : Option Item :=
  match db[Key.item i x]? with
  | some (.node (.item it)) => some it
  | _ => none

def links? (i : UInt16) (x : ItemId) (l : LayerId) : Option RoaringBitmap :=
  match db[Key.links i x l]? with
  | some (.node (.links s)) => some s
  | _ => none

def stone? (i : UInt16) (x : ItemId) : Option UpdateStatus :=
  match db[Key.updated i x]? with
  | some (.status s) => some s
  | _ => none

def metadata? (i : UInt16) : Option Metadata :=
  match db[Key.metadata i]? with
  | some (.metadata m) => some m
  | _ => none

/-- The value is of the kind its key announces, and the key is one of those the code makes. -/
inductive Fits (i : UInt16) : Key → Value → Prop
  | metadata (m : Metadata) : Fits i (Key.metadata i) (.metadata m)
  | version (v : Version) : Fits i (Key.version i) (.version v)
  | updated (x : ItemId) (s : UpdateStatus) : Fits i (Key.updated i x) (.status s)
  | links (x : ItemId) (l : LayerId) (s : RoaringBitmap) :
      Fits i (Key.links i x l) (.node (.links s))
  | item (x : ItemId) (it : Item) : Fits i (Key.item i x) (.node (.item it))

/-- Every entry of index `i` is of the kind its key announces. -/
def WellTyped (i : UInt16) : Prop := ∀ k v, db[k]? = some v → k.index = i → Fits i k v

end Database

/-! ## Lookups after writes -/

namespace Database

variable {db : Database}

/-- An item that is read is stored. -/
theorem item?_of_getItem {i : UInt16} {x : ItemId} {it : Item}
    (h : db.getItem i x = .ok (some it)) : db.item? i x = some it := by
  unfold getItem getNode at h
  unfold item?
  generalize db[Key.item i x]? = v at h ⊢
  rcases v with _ | (⟨_ | _⟩ | _ | _ | _ | _)
  all_goals cases h
  rfl

/-- Links that are read are stored. -/
theorem links?_of_getLinks {i : UInt16} {x : ItemId} {level : Nat} {s : RoaringBitmap}
    (h : db.getLinks i x level = .ok (some s)) : db.links? i x level.toUInt8 = some s := by
  unfold getLinks getNode at h
  unfold links?
  generalize db[Key.links i x level.toUInt8]? = v at h ⊢
  rcases v with _ | (⟨_ | _⟩ | _ | _ | _ | _)
  all_goals cases h
  rfl

theorem getElem?_put (k k' : Key) (v : Value) :
    (db.put k v)[k']? = if k' = k then some v else db[k']? := by
  unfold put
  rw [Std.ExtTreeMap.getElem?_insert]
  simp only [compare_eq_iff_eq, eq_comm (a := k)]

theorem getElem?_delete (k k' : Key) :
    (db.delete k)[k']? = if k' = k then none else db[k']? := by
  unfold delete
  rw [Std.ExtTreeMap.getElem?_erase]
  simp only [compare_eq_iff_eq, eq_comm (a := k)]

theorem getElem?_deleteAll : ∀ (l : List Key) (db : Database) (k' : Key),
    (db.deleteAll l)[k']? = if k' ∈ l then none else db[k']?
  | [], _, _ => by simp [deleteAll]
  | k :: l, db, k' => by
    show ((db.delete k).deleteAll l)[k']? = _
    rw [getElem?_deleteAll l, getElem?_delete]
    by_cases h1 : k' ∈ l <;> by_cases h2 : k' = k <;> simp [h1, h2]

/-- Deleting keys of one kind leaves the others. -/
theorem getElem?_deleteAll_of_mode {l : List Key} {m : NodeMode} (hl : ∀ k ∈ l, k.node.mode = m)
    {k : Key} (hk : k.node.mode ≠ m) : (db.deleteAll l)[k]? = db[k]? := by
  rw [getElem?_deleteAll, if_neg fun h => hk (hl k h)]

theorem getElem?_putAll_of_notMem : ∀ (l : List (Key × Value)) (db : Database) {k : Key},
    (∀ v, (k, v) ∉ l) → (db.putAll l)[k]? = db[k]?
  | [], _, _, _ => rfl
  | (k', v') :: l, db, k, h => by
    show ((db.put k' v').putAll l)[k]? = _
    rw [getElem?_putAll_of_notMem l _ fun v hv => h v (List.mem_cons_of_mem _ hv), getElem?_put,
      if_neg]
    rintro rfl
    exact h v' List.mem_cons_self

/-- Entries that agree on their keys are all there afterwards. -/
theorem getElem?_putAll_of_mem : ∀ {l : List (Key × Value)} (db : Database) {k : Key} {v : Value},
    (∀ v', (k, v') ∈ l → v' = v) → (k, v) ∈ l → (db.putAll l)[k]? = some v
  | (k', v') :: l, db, k, v, hfun, h => by
    show ((db.put k' v').putAll l)[k]? = _
    have hfun' := fun w hw => hfun w (List.mem_cons_of_mem _ hw)
    by_cases hl : (k, v) ∈ l
    · exact getElem?_putAll_of_mem _ hfun' hl
    · rw [getElem?_putAll_of_notMem l _ fun w hw => hl (hfun' w hw ▸ hw), getElem?_put]
      rcases List.mem_cons.mp h with h | h
      · cases h
        rw [if_pos rfl]
      · exact absurd h hl

theorem mem_prefixIter {p : Prefix} {k : Key} {v : Value} :
    (k, v) ∈ db.prefixIter p ↔ db[k]? = some v ∧ p.Selects k := by
  unfold prefixIter
  rw [List.mem_filter, isPrefixOf_bytesEncode, Std.ExtTreeMap.mem_toList_iff_getElem?_eq_some]

/-- Prefix iteration follows the key order. -/
theorem pairwise_prefixIter (p : Prefix) :
    (db.prefixIter p).Pairwise fun a b => a.1 < b.1 := by
  have h := Std.ExtTreeMap.ordered_keys_toList (t := db)
  refine List.Pairwise.filter _ (h.imp fun hab => ?_)
  exact compare_lt_iff_lt.mp hab

/-! ## Well-typed databases -/

theorem WellTyped.put {i : UInt16} (h : db.WellTyped i) {k : Key} {v : Value}
    (hfit : k.index = i → Fits i k v) : (db.put k v).WellTyped i := by
  intro k' v' hk' hi
  rw [getElem?_put] at hk'
  split_ifs at hk' with heq
  · cases hk'
    subst heq
    exact hfit hi
  · exact h k' v' hk' hi

theorem WellTyped.delete {i : UInt16} (h : db.WellTyped i) (k : Key) :
    (db.delete k).WellTyped i := by
  intro k' v' hk' hi
  rw [getElem?_delete] at hk'
  split_ifs at hk'
  exact h k' v' hk' hi

theorem WellTyped.deleteAll {i : UInt16} : ∀ (l : List Key) {db : Database},
    db.WellTyped i → (db.deleteAll l).WellTyped i
  | [], _, h => h
  | k :: l, _, h => WellTyped.deleteAll l (WellTyped.delete h k)

theorem WellTyped.putAll {i : UInt16} : ∀ {l : List (Key × Value)} {db : Database},
    db.WellTyped i → (∀ e ∈ l, e.1.index = i → Fits i e.1 e.2) → (db.putAll l).WellTyped i
  | [], _, h, _ => h
  | e :: l, _, h, hl => WellTyped.putAll (l := l) (WellTyped.put h (hl e List.mem_cons_self))
      fun e' he' => hl e' (List.mem_cons_of_mem _ he')

/-- An entry under the links prefix is a node's links. -/
theorem mem_prefixIter_links {i : UInt16} (hwt : db.WellTyped i) {k : Key} {v : Value} :
    (k, v) ∈ db.prefixIter (Prefix.links i) ↔
      ∃ x l s, k = Key.links i x l ∧ v = .node (.links s) ∧ db.links? i x l = some s := by
  rw [mem_prefixIter]
  constructor
  · rintro ⟨hk, hi, hm⟩
    cases hwt k v hk hi with
    | links x l s => exact ⟨x, l, s, rfl, rfl, by rw [links?, hk]⟩
    | metadata m => cases hm _ rfl
    | version v => cases hm _ rfl
    | updated x s => cases hm _ rfl
    | item x it => cases hm _ rfl
  · rintro ⟨x, l, s, rfl, rfl, h⟩
    refine ⟨?_, rfl, fun m hm => by cases hm; rfl⟩
    unfold links? at h
    cases hk : db[Key.links i x l]? with
    | none => rw [hk] at h; cases h
    | some v =>
      cases hwt _ v hk rfl
      rw [hk] at h
      cases h
      rfl

/-- An entry under the item prefix is a stored item. -/
theorem mem_prefixIter_item {i : UInt16} (hwt : db.WellTyped i) {k : Key} {v : Value} :
    (k, v) ∈ db.prefixIter (Prefix.item i) ↔
      ∃ x it, k = Key.item i x ∧ v = .node (.item it) ∧ db.item? i x = some it := by
  rw [mem_prefixIter]
  constructor
  · rintro ⟨hk, hi, hm⟩
    cases hwt k v hk hi with
    | item x it => exact ⟨x, it, rfl, rfl, by rw [item?, hk]⟩
    | metadata m => cases hm _ rfl
    | version v => cases hm _ rfl
    | updated x s => cases hm _ rfl
    | links x l s => cases hm _ rfl
  · rintro ⟨x, it, rfl, rfl, h⟩
    refine ⟨?_, rfl, fun m hm => by cases hm; rfl⟩
    unfold item? at h
    cases hk : db[Key.item i x]? with
    | none => rw [hk] at h; cases h
    | some v =>
      cases hwt _ v hk rfl
      rw [hk] at h
      cases h
      rfl

/-- An entry under the updated prefix is a stone. -/
theorem mem_prefixIter_updated {i : UInt16} (hwt : db.WellTyped i) {k : Key} {v : Value} :
    (k, v) ∈ db.prefixIter (Prefix.updated i) ↔
      ∃ x s, k = Key.updated i x ∧ v = .status s ∧ db.stone? i x = some s := by
  rw [mem_prefixIter]
  constructor
  · rintro ⟨hk, hi, hm⟩
    cases hwt k v hk hi with
    | updated x s => exact ⟨x, s, rfl, rfl, by rw [stone?, hk]⟩
    | metadata m => cases hm _ rfl
    | version v => cases hm _ rfl
    | item x it => cases hm _ rfl
    | links x l s => cases hm _ rfl
  · rintro ⟨x, s, rfl, rfl, h⟩
    refine ⟨?_, rfl, fun m hm => by cases hm; rfl⟩
    unfold stone? at h
    cases hk : db[Key.updated i x]? with
    | none => rw [hk] at h; cases h
    | some v =>
      cases hwt _ v hk rfl
      rw [hk] at h
      cases h
      rfl

end Database

end Hannoy
