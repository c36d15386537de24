import Hannoy.Graph.Build
import Hannoy.Model.Writer

/-!
# What a build does to the entries of its index

`Writer.build` takes the stones away, hands the sets it computes from them to the graph builder,
and replaces links, metadata and version.

* `touchedItems`, `removedItems`, `indexed`: the three sources a build combines, as sets of ids.
* `build_ok`: the phases of a build that returns.
* `Built`: the entries of the index afterwards, kind by kind; `build_built` shows that every build
  that returns leaves them so.
-/

namespace Hannoy.Index

open Hannoy.Library Hannoy.Library.Txn Hannoy.Writer Hannoy.Graph

variable {D : Distance} {w : Writer} {M M0 : Nat} {env : Environment} {options : BuildOption}
  {db db' : Database} {i : UInt16}

/-! ## What a build combines -/

/-- The items of the metadata; none without metadata. -/
def indexed (i : UInt16) (db : Database) : RoaringBitmap :=
  match db.metadata? i with
  | some m => m.items
  | none => ∅

/-- The keys of the stones. -/
def stoneKeys (i : UInt16) (db : Database) : List Key :=
  (db.prefixIter (Prefix.updated i)).map Prod.fst

/-- The items with a stone. -/
def touchedItems (i : UInt16) (db : Database) : RoaringBitmap :=
  ((db.prefixIter (Prefix.updated i)).map fun e => e.1.node.item).toFinset

/-- The items with a stone that says they were removed. -/
def removedItems (i : UInt16) (db : Database) : RoaringBitmap :=
  (((db.prefixIter (Prefix.updated i)).filter fun e => e.2 = .status .removed).map
    fun e => e.1.node.item).toFinset

/-- What `retrieveSets` hands to the build. -/
def buildSets (options : BuildOption) (i : UInt16) (db : Database) : UpdateSets :=
  if options.relinkAllItems then ⟨indexed i db, ∅, indexed i db⟩
  else updateSets (touchedItems i db) (removedItems i db) (indexed i db)

/-- What `retrieveSets` leaves of the database. -/
def takeStones (options : BuildOption) (i : UInt16) (db : Database) : Database :=
  if options.relinkAllItems then db else db.deleteAll (stoneKeys i db)

theorem mem_touchedItems (hwt : db.WellTyped i) {x : ItemId} :
    x ∈ touchedItems i db ↔ ∃ s, db.stone? i x = some s := by
  simp only [touchedItems, List.mem_toFinset, List.mem_map]
  constructor
  · rintro ⟨⟨k, v⟩, he, rfl⟩
    obtain ⟨x, s, rfl, rfl, hs⟩ := (Database.mem_prefixIter_updated hwt).mp he
    exact ⟨s, hs⟩
  · rintro ⟨s, hs⟩
    exact ⟨_, (Database.mem_prefixIter_updated hwt).mpr ⟨x, s, rfl, rfl, hs⟩, rfl⟩

theorem mem_removedItems (hwt : db.WellTyped i) {x : ItemId} :
    x ∈ removedItems i db ↔ db.stone? i x = some .removed := by
  simp only [removedItems, List.mem_toFinset, List.mem_map, List.mem_filter, decide_eq_true_eq]
  constructor
  · rintro ⟨⟨k, v⟩, ⟨he, hv⟩, rfl⟩
    obtain ⟨x, s, rfl, rfl, hs⟩ := (Database.mem_prefixIter_updated hwt).mp he
    cases hv
    exact hs
  · intro hs
    exact ⟨_, ⟨(Database.mem_prefixIter_updated hwt).mpr ⟨x, _, rfl, rfl, hs⟩, rfl⟩, rfl⟩

theorem mem_stoneKeys (hwt : db.WellTyped i) {k : Key} :
    k ∈ stoneKeys i db ↔ ∃ x, k = Key.updated i x ∧ ∃ s, db.stone? i x = some s := by
  simp only [stoneKeys, List.mem_map]
  constructor
  · rintro ⟨⟨k, v⟩, he, rfl⟩
    obtain ⟨x, s, rfl, rfl, hs⟩ := (Database.mem_prefixIter_updated hwt).mp he
    exact ⟨x, rfl, s, hs⟩
  · rintro ⟨x, rfl, s, hs⟩
    exact ⟨_, (Database.mem_prefixIter_updated hwt).mpr ⟨x, s, rfl, rfl, hs⟩, rfl⟩

theorem mode_of_mem_stoneKeys {k : Key} (hk : k ∈ stoneKeys i db) : k.node.mode = .updated := by
  obtain ⟨⟨k', v⟩, he, rfl⟩ := List.mem_map.mp hk
  exact (Database.mem_prefixIter.mp he).2.2 _ rfl

/-! ## Reading the metadata -/

theorem getMetadata_ok (hwt : db.WellTyped i) : db.getMetadata i = .ok (db.metadata? i) := by
  unfold Database.getMetadata Database.metadata?
  cases hk : db[Key.metadata i]? with
  | none => rfl
  | some v =>
    cases hwt _ v hk rfl
    rfl

theorem metadata?_of_getMetadata {m : Option Metadata} (h : db.getMetadata i = .ok m) :
    db.metadata? i = m := by
  unfold Database.getMetadata at h
  unfold Database.metadata?
  cases hk : db[Key.metadata i]? with
  | none => rw [hk] at h; cases h; rfl
  | some v =>
    rw [hk] at h
    cases v with
    | metadata m => cases h; rfl
    | _ => cases h

/-! ## Taking the stones -/

/-- What the loop over the stones collects and deletes. -/
theorem retrieveLoop_ok : ∀ {entries : List (Key × Value)} {n : Nat}
    {updated deleted updated' deleted' : RoaringBitmap} {db db' : Database},
    retrieveLoop env options n entries updated deleted db = .ok (updated', deleted') db' →
      db' = db.deleteAll (entries.map Prod.fst) ∧
        updated' = updated ∪ (entries.map fun e => e.1.node.item).toFinset ∧
        deleted' = deleted ∪ ((entries.filter fun e => e.2 = .status .removed).map
          fun e => e.1.node.item).toFinset
  | [], n, updated, deleted, updated', deleted', db, db', h => by
    unfold retrieveLoop at h
    simp only [bind_ok_iff, RwTxn.check_ok_iff, pure_ok_iff, Prod.mk.injEq] at h
    obtain ⟨_, _, ⟨-, rfl⟩, ⟨rfl, rfl⟩, rfl⟩ := h
    exact ⟨rfl, by simp, by simp⟩
  | (k, v) :: entries, n, updated, deleted, updated', deleted', db, db', h => by
    unfold retrieveLoop at h
    simp only [bind_ok_iff, RwTxn.check_ok_iff, RwTxn.ofExcept_ok_iff] at h
    obtain ⟨_, _, ⟨-, rfl⟩, s, _, ⟨hs, rfl⟩, h⟩ := h
    obtain rfl : v = .status s := by
      unfold decodeStatus at hs
      split at hs
      · cases hs; rfl
      · cases hs
    by_cases hc : options.cancelled n .retrieve
    · rw [if_pos hc] at h
      cases h
    · rw [if_neg hc] at h
      simp only [bind_ok_iff, RwTxn.check_ok_iff, modify_ok_iff] at h
      obtain ⟨_, _, ⟨-, rfl⟩, _, _, rfl, h⟩ := h
      obtain ⟨hdb, hup, hdel⟩ := retrieveLoop_ok h
      refine ⟨hdb, ?_, ?_⟩
      · rw [hup, List.map_cons, List.toFinset_cons, Finset.insert_union, Finset.union_insert]
      · rw [hdel]
        by_cases hs : s = .removed
        · subst hs
          rw [if_pos rfl, List.filter_cons_of_pos (by simp), List.map_cons, List.toFinset_cons,
            Finset.insert_union, Finset.union_insert]
        · rw [if_neg hs, List.filter_cons_of_neg (by simpa using hs)]

theorem resetAndRetrieve_ok {updated deleted : RoaringBitmap}
    (h : w.resetAndRetrieveUpdatedItems env options db = .ok (updated, deleted) db') :
    db' = db.deleteAll (stoneKeys w.index db) ∧ updated = touchedItems w.index db ∧
      deleted = removedItems w.index db := by
  unfold resetAndRetrieveUpdatedItems at h
  simp only [bind_ok_iff, get_ok_iff] at h
  obtain ⟨_, _, ⟨rfl, rfl⟩, h⟩ := h
  obtain ⟨hdb, hup, hdel⟩ := retrieveLoop_ok h
  exact ⟨hdb, by rw [hup, Finset.empty_union]; rfl, by rw [hdel, Finset.empty_union]; rfl⟩

theorem retrieveSets_ok {sets : UpdateSets} (h : w.retrieveSets env options db = .ok sets db') :
    sets = buildSets options w.index db ∧ db' = takeStones options w.index db := by
  unfold retrieveSets at h
  simp only [bind_ok_iff, RwTxn.check_ok_iff, get_ok_iff, RwTxn.ofExcept_ok_iff] at h
  obtain ⟨_, db, ⟨-, rfl⟩, _, _, ⟨rfl, rfl⟩, m, db, ⟨hm, rfl⟩, h⟩ := h
  unfold buildSets takeStones indexed
  rw [metadata?_of_getMetadata hm]
  by_cases hr : options.relinkAllItems = true
  · rw [if_pos hr] at h ⊢
    rw [if_pos hr]
    exact pure_ok_iff.mp h
  · rw [if_neg hr] at h ⊢
    simp only [bind_ok_iff, pure_ok_iff] at h
    obtain ⟨⟨updated, deleted⟩, _, hret, rfl, rfl⟩ := h
    obtain ⟨rfl, rfl, rfl⟩ := resetAndRetrieve_ok hret
    rw [if_neg hr]
    exact ⟨rfl, rfl⟩

/-! ## The rest of the build -/

/-- The builder `startBuilder` returns. -/
def builderOf (M0 : Nat) (i : UInt16) (db : Database) : HnswBuilder M0 :=
  match db.metadata? i with
  | some m => ⟨m.maxLevel.toNat, m.entryPoints, []⟩
  | none => ⟨0, [], []⟩

theorem startBuilder_ok {b : HnswBuilder M0} (h : w.startBuilder M0 env db = .ok b db') :
    b = builderOf M0 w.index db ∧ db' = db := by
  unfold startBuilder at h
  simp only [bind_ok_iff, RwTxn.check_ok_iff, get_ok_iff, RwTxn.ofExcept_ok_iff,
    pure_ok_iff] at h
  obtain ⟨_, _, ⟨-, rfl⟩, _, _, ⟨rfl, rfl⟩, m, _, ⟨hm, rfl⟩, rfl, rfl⟩ := h
  rw [builderOf, metadata?_of_getMetadata hm]
  exact ⟨rfl, rfl⟩

/-- The keys of the links of some items. -/
def linksKeysOf (i : UInt16) (db : Database) (items : RoaringBitmap) : List Key :=
  ((db.prefixIter (Prefix.links i)).map Prod.fst).filter fun k => k.node.item ∈ items

theorem deleteLinksLoop_ok {toDelete : RoaringBitmap} : ∀ {keys : List Key} {n : Nat}
    {db db' : Database}, deleteLinksLoop env toDelete n keys db = .ok () db' →
      db' = db.deleteAll (keys.filter fun k => k.node.item ∈ toDelete)
  | [], n, db, db', h => (RwTxn.check_ok_iff.mp h).2
  | k :: keys, n, db, db', h => by
    unfold deleteLinksLoop at h
    simp only [bind_ok_iff, RwTxn.check_ok_iff] at h
    obtain ⟨_, _, ⟨-, rfl⟩, h⟩ := h
    by_cases hk : k.node.item ∈ toDelete
    · rw [if_pos hk] at h
      simp only [bind_ok_iff, modify_ok_iff] at h
      obtain ⟨_, _, rfl, h⟩ := h
      rw [deleteLinksLoop_ok h, List.filter_cons_of_pos (by simpa using hk)]
      rfl
    · rw [if_neg hk] at h
      rw [deleteLinksLoop_ok h, List.filter_cons_of_neg (by simpa using hk)]

theorem deleteLinksFromDb_ok {toDelete : RoaringBitmap}
    (h : w.deleteLinksFromDb env toDelete db = .ok () db') :
    db' = db.deleteAll (linksKeysOf w.index db toDelete) := by
  unfold deleteLinksFromDb at h
  simp only [bind_ok_iff, get_ok_iff] at h
  obtain ⟨_, _, ⟨rfl, rfl⟩, h⟩ := h
  exact deleteLinksLoop_ok h

/-- The metadata a build writes. -/
def newMetadata (D : Distance) (w : Writer) (items : RoaringBitmap) (b : HnswBuilder M0) :
    Metadata where
  dimensions := w.dimensions.toUInt32
  items
  distance := D.name
  entryPoints := b.entryPoints
  maxLevel := b.maxLevel.toUInt8

theorem writeMetadata_ok {items : RoaringBitmap} {b : HnswBuilder M0}
    (h : w.writeMetadata D M0 env items b db = .ok () db') :
    w.dimensions < 2 ^ 32 ∧
      db' = (db.put (Key.metadata w.index) (.metadata (newMetadata D w items b))).put
        (Key.version w.index) (.version Version.current) := by
  unfold writeMetadata at h
  by_cases hd : 2 ^ 32 ≤ w.dimensions
  · rw [if_pos hd] at h
    cases h
  · rw [if_neg hd] at h
    simp only [bind_ok_iff, RwTxn.check_ok_iff, modify_ok_iff] at h
    obtain ⟨_, _, ⟨-, rfl⟩, _, _, rfl, _, _, ⟨-, rfl⟩, rfl⟩ := h
    exact ⟨Nat.lt_of_not_le hd, rfl⟩

/-- **The phases of a build that returns.** -/
theorem build_ok (h : w.build D M M0 env options db = .ok () db') :
    w.dimensions < 2 ^ 32 ∧ ∃ b : HnswBuilder M0,
      HnswBuilder.buildLayers D M options env ⟨takeStones options w.index db, w.index⟩
        (builderOf M0 w.index (takeStones options w.index db))
        (buildSets options w.index db).toInsert (buildSets options w.index db).toDelete = .ok b ∧
      ∃ db₂ db₃, db₂ = (takeStones options w.index db).putAll (HnswBuilder.linksToWrite env
          ⟨takeStones options w.index db, w.index⟩ b.layers) ∧
        db₃ = db₂.deleteAll (linksKeysOf w.index db₂ (buildSets options w.index db).toDelete) ∧
        db' = (db₃.put (Key.metadata w.index) (.metadata (newMetadata D w
          (buildSets options w.index db).itemIndices b))).put (Key.version w.index)
            (.version Version.current) := by
  unfold Writer.build at h
  simp only [bind_ok_iff] at h
  obtain ⟨sets, _, hsets, _, _, hstart, b, _, hbuild, _, _, hdel, hmeta⟩ := h
  obtain ⟨rfl, rfl⟩ := retrieveSets_ok hsets
  obtain ⟨rfl, rfl⟩ := startBuilder_ok hstart
  obtain ⟨hlayers, rfl⟩ := Graph.build_ok hbuild
  obtain rfl := deleteLinksFromDb_ok hdel
  obtain ⟨hdim, rfl⟩ := writeMetadata_ok hmeta
  exact ⟨hdim, b, hlayers, _, _, rfl, rfl, rfl⟩

/-! ## The entries afterwards -/

/-- The entries of the index after a build with the layers of `b`. -/
structure Built (D : Distance) (w : Writer) (options : BuildOption) (b : HnswBuilder M0)
    (db db' : Database) : Prop where
  typed : db'.WellTyped w.index
  item : ∀ x, db'.item? w.index x = db.item? w.index x
  stone : ∀ x, db'.stone? w.index x =
    if options.relinkAllItems then db.stone? w.index x else none
  metadata : db'.metadata? w.index =
    some (newMetadata D w (buildSets options w.index db).itemIndices b)
  links : ∀ x l, db'.links? w.index x l =
    if x ∈ (buildSets options w.index db).toDelete then none
    else match b.layers.get? l.toNat x with
      | some node => some node.targets.toFinset
      | none => db.links? w.index x l

theorem mode_of_mem_linksKeysOf {items : RoaringBitmap} {k : Key}
    (hk : k ∈ linksKeysOf i db items) : k.node.mode = .links := by
  obtain ⟨⟨k', v⟩, he, rfl⟩ := List.mem_map.mp (List.mem_filter.mp hk).1
  exact (Database.mem_prefixIter.mp he).2.2 _ rfl

theorem links_mem_linksKeysOf {items : RoaringBitmap} {x : ItemId} {l : LayerId}
    (hwt : db.WellTyped i) : Key.links i x l ∈ linksKeysOf i db items ↔
      x ∈ items ∧ ∃ s, db.links? i x l = some s := by
  simp only [linksKeysOf, List.mem_filter, List.mem_map, decide_eq_true_eq]
  constructor
  · rintro ⟨⟨⟨k, v⟩, he, hk⟩, hx⟩
    obtain ⟨x', l', s, rfl, rfl, hs⟩ := (Database.mem_prefixIter_links hwt).mp he
    cases hk
    exact ⟨hx, s, hs⟩
  · rintro ⟨hx, s, hs⟩
    exact ⟨⟨_, (Database.mem_prefixIter_links hwt).mpr ⟨x, l, s, rfl, rfl, hs⟩, rfl⟩, hx⟩

/-- Taking the stones only takes stones. -/
theorem getElem?_takeStones {k : Key} (hk : k.node.mode ≠ .updated) :
    (takeStones options i db)[k]? = db[k]? := by
  unfold takeStones
  split_ifs with hr
  · rfl
  · exact Database.getElem?_deleteAll_of_mode (fun k' hk' => mode_of_mem_stoneKeys hk') hk

theorem wellTyped_takeStones (hwt : db.WellTyped i) : (takeStones options i db).WellTyped i := by
  unfold takeStones
  split_ifs with hr
  · exact hwt
  · exact Database.WellTyped.deleteAll _ hwt

theorem stone?_takeStones (hwt : db.WellTyped i) (x : ItemId) :
    (takeStones options i db).stone? i x =
      if options.relinkAllItems then db.stone? i x else none := by
  unfold takeStones
  by_cases hr : options.relinkAllItems = true
  · rw [if_pos hr, if_pos hr]
  · rw [if_neg hr, if_neg hr, Database.stone?, Database.getElem?_deleteAll]
    by_cases hx : Key.updated i x ∈ stoneKeys i db
    · rw [if_pos hx]
    · rw [if_neg hx]
      cases hs : db.stone? i x with
      | none => exact hs
      | some s => exact absurd ((mem_stoneKeys hwt).mpr ⟨x, rfl, s, hs⟩) hx

theorem links?_eq_of_getElem? {db db' : Database} {x : ItemId} {l : LayerId}
    (h : db[Key.links i x l]? = db'[Key.links i x l]?) : db.links? i x l = db'.links? i x l := by
  rw [Database.links?, Database.links?, h]

/-- Entries of other kinds are not in the list of links to write. -/
theorem notMem_linksToWrite {lmdb : FrozenReader} {layers : Layers M0} {k : Key}
    (hk : k.node.mode ≠ .links) (v : Value) :
    (k, v) ∉ HnswBuilder.linksToWrite env lmdb layers := by
  intro h
  obtain ⟨l, x, node, -, rfl, -⟩ := mem_linksToWrite.mp h
  exact hk rfl

variable (env) in
/-- The links in the database once the layers are written. -/
theorem links?_putAll (lmdb : FrozenReader) {layers : Layers M0} (hlen : layers.length ≤ 256)
    (x : ItemId) (l : LayerId) :
    (lmdb.db.putAll (HnswBuilder.linksToWrite env lmdb layers)).links? lmdb.index x l =
      match layers.get? l.toNat x with
      | some node => some node.targets.toFinset
      | none => lmdb.db.links? lmdb.index x l := by
  have hlevel : ∀ {k y node}, layers.get? k y = some node →
      Key.links lmdb.index x l = Key.links lmdb.index y k.toUInt8 → l.toNat = k ∧ x = y := by
    intro k y node hget heq
    have hk := (Layers.lt_length_of_get? hget).trans_le hlen
    simp only [Key.links, Key.mk.injEq, NodeId.mk.injEq, true_and] at heq
    refine ⟨?_, heq.1⟩
    rw [heq.2]
    exact UInt8.toNat_ofNat_of_lt' hk
  cases hget : layers.get? l.toNat x with
  | none =>
    refine links?_eq_of_getElem? (Database.getElem?_putAll_of_notMem _ _ fun v hv => ?_)
    obtain ⟨k, y, node, hnode, heq, -⟩ := mem_linksToWrite.mp hv
    obtain ⟨rfl, rfl⟩ := hlevel hnode heq
    rw [hget] at hnode
    cases hnode
  | some node =>
    have hmem : (Key.links lmdb.index x l, Value.node (.links node.targets.toFinset)) ∈
        HnswBuilder.linksToWrite env lmdb layers :=
      mem_linksToWrite.mpr ⟨l.toNat, x, node, hget, by rw [toUInt8_toNat], rfl⟩
    rw [Database.links?, Database.getElem?_putAll_of_mem _ (fun v hv => ?_) hmem]
    obtain ⟨k, y, node', hnode, heq, rfl⟩ := mem_linksToWrite.mp hv
    obtain ⟨rfl, rfl⟩ := hlevel hnode heq
    rw [hget] at hnode
    cases hnode
    rfl

/-- **The entries after a build that returns.** -/
theorem build_built (hwt : db.WellTyped w.index) {b : HnswBuilder M0}
    (hlen : b.layers.length ≤ 256) {db₁ db₂ db₃ : Database}
    (h₁ : db₁ = takeStones options w.index db)
    (h₂ : db₂ = db₁.putAll (HnswBuilder.linksToWrite env ⟨db₁, w.index⟩ b.layers))
    (h₃ : db₃ = db₂.deleteAll (linksKeysOf w.index db₂ (buildSets options w.index db).toDelete))
    (h' : db' = (db₃.put (Key.metadata w.index) (.metadata (newMetadata D w
      (buildSets options w.index db).itemIndices b))).put (Key.version w.index)
        (.version Version.current)) : Built D w options b db db' := by
  have hwt₁ : db₁.WellTyped w.index := by rw [h₁]; exact wellTyped_takeStones hwt
  have hwt₂ : db₂.WellTyped w.index := by
    rw [h₂]
    refine Database.WellTyped.putAll hwt₁ ?_
    rintro ⟨k, v⟩ he -
    obtain ⟨l, x, node, -, rfl, rfl⟩ := mem_linksToWrite.mp he
    exact Database.Fits.links _ _ _
  have hwt₃ : db₃.WellTyped w.index := by rw [h₃]; exact Database.WellTyped.deleteAll _ hwt₂
  have hmeta : ∀ k : Key, k.node.mode ≠ .metadata → db'[k]? = db₃[k]? := by
    intro k hk
    rw [h', Database.getElem?_put, if_neg, Database.getElem?_put, if_neg]
    · rintro rfl; exact hk rfl
    · rintro rfl; exact hk rfl
  have hother : ∀ k : Key, k.node.mode ≠ .metadata → k.node.mode ≠ .links →
      db'[k]? = db₁[k]? := by
    intro k hk hl
    rw [hmeta k hk, h₃, Database.getElem?_deleteAll_of_mode
      (fun k' hk' => mode_of_mem_linksKeysOf hk') hl, h₂,
      Database.getElem?_putAll_of_notMem _ _ (notMem_linksToWrite hl)]
  refine ⟨?_, fun x => ?_, fun x => ?_, ?_, fun x l => ?_⟩
  · rw [h']
    exact (hwt₃.put fun _ => Database.Fits.metadata _).put fun _ => Database.Fits.version _
  · rw [Database.item?, hother (Key.item w.index x) (by simp [Key.item]) (by simp [Key.item]), h₁,
      getElem?_takeStones (by simp [Key.item])]
    rfl
  · rw [Database.stone?, hother (Key.updated w.index x) (by simp [Key.updated])
      (by simp [Key.updated]), h₁]
    exact stone?_takeStones hwt x
  · rw [Database.metadata?, h', Database.getElem?_put, if_neg (by simp [Key.metadata, Key.version]),
      Database.getElem?_put, if_pos rfl]
  · rw [links?_eq_of_getElem? (hmeta (Key.links w.index x l) (by simp [Key.links])),
      Database.links?, h₃, Database.getElem?_deleteAll]
    have hput := links?_putAll env ⟨db₁, w.index⟩ hlen x l
    have hdisk : db₁.links? w.index x l = db.links? w.index x l :=
      links?_eq_of_getElem? (by rw [h₁]; exact getElem?_takeStones (by simp [Key.links]))
    rw [hdisk, ← h₂] at hput
    by_cases hx : x ∈ (buildSets options w.index db).toDelete
    · rw [if_pos hx]
      by_cases hl : ∃ s, db₂.links? w.index x l = some s
      · rw [if_pos ((links_mem_linksKeysOf hwt₂).mpr ⟨hx, hl⟩)]
      · rw [if_neg fun hmem => hl ((links_mem_linksKeysOf hwt₂).mp hmem).2]
        exact Option.eq_none_iff_forall_ne_some.mpr fun s hs => hl ⟨s, hs⟩
    · rw [if_neg hx, if_neg fun hmem => hx ((links_mem_linksKeysOf hwt₂).mp hmem).1]
      exact hput

end Hannoy.Index
