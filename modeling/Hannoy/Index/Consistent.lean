import Hannoy.Index.Build

/-!
# The invariant of an index

Between two builds the graph describes the items of the last build, while items and stones already
describe the next one. `Consistent` relates the two; every operation of the writer keeps it, and
right after a build, when no stone is left, it says that the graph is valid.

* `Marks`: what `addItem` and `delItem` do to the entries of the index.
* `Consistent.mark`, `consistent_of_noEntries`, `consistent_build`, `consistent_forceRebuild`: the
  operations keep `Consistent`.
* `validGraph_of_consistent`: the graph of an index without stones.
-/

namespace Hannoy.Index

open Hannoy.Library Hannoy.Library.Txn Hannoy.Writer Hannoy.Graph

variable {D : Distance} {w : Writer} {M M0 : Nat} {env : Environment} {options : BuildOption}
  {db db' : Database} {i : UInt16}

/-! ## The invariant -/

/-- What holds of the entries of an index between any two operations. -/
structure Consistent (i : UInt16) (db : Database) : Prop where
  typed : db.WellTyped i
  /-- Links lead to nodes with links at the same layer. -/
  closed : ∀ {x l s y}, db.links? i x l = some s → y ∈ s → ∃ s', db.links? i y l = some s'
  /-- A node with links at a layer has links at every layer below. -/
  down : ∀ {x l k s}, db.links? i x l = some s → k ≤ l → ∃ s', db.links? i x k = some s'
  /-- The items of the metadata are the nodes of the graph. -/
  owner : ∀ {x l s}, db.links? i x l = some s → x ∈ indexed i db
  base : ∀ {x}, x ∈ indexed i db → ∃ s, db.links? i x 0 = some s
  entry : ∀ {m}, db.metadata? i = some m → ∀ ep ∈ m.entryPoints,
    ep ∈ m.items ∧ ∀ k ≤ m.maxLevel, ∃ s, db.links? i ep k = some s
  empty : ∀ {m}, db.metadata? i = some m → m.entryPoints = [] → m.items = ∅ ∧ m.maxLevel = 0
  nodup : ∀ {m}, db.metadata? i = some m → m.entryPoints.Nodup
  /-- An item is stored when its stone says so or, without a stone, when it is in the graph. -/
  stored : ∀ x, (db.item? i x).isSome ↔
    db.stone? i x = some .updated ∨ (db.stone? i x = none ∧ x ∈ indexed i db)

/-- **A valid graph**, as a reader finds it. -/
structure ValidGraph (i : UInt16) (db : Database) (m : Metadata) : Prop where
  items : ∀ x, x ∈ m.items ↔ (db.item? i x).isSome
  base : ∀ x, x ∈ m.items ↔ ∃ s, db.links? i x 0 = some s
  owner : ∀ {x l s}, db.links? i x l = some s → (db.item? i x).isSome
  target : ∀ {x l s y}, db.links? i x l = some s → y ∈ s → (db.item? i y).isSome
  closed : ∀ {x l s y}, db.links? i x l = some s → y ∈ s → ∃ s', db.links? i y l = some s'
  down : ∀ {x l k s}, db.links? i x l = some s → k ≤ l → ∃ s', db.links? i x k = some s'
  entry : ∀ ep ∈ m.entryPoints, (db.item? i ep).isSome ∧
    ∀ k ≤ m.maxLevel, ∃ s, db.links? i ep k = some s
  nonempty : m.items ≠ ∅ → m.entryPoints ≠ []
  nodup : m.entryPoints.Nodup

theorem indexed_of_metadata {m : Metadata} (hm : db.metadata? i = some m) :
    indexed i db = m.items := by rw [indexed, hm]

/-- **Without stones the graph is valid.** -/
theorem validGraph_of_consistent (hc : Consistent i db) (hs : ∀ x, db.stone? i x = none)
    {m : Metadata} (hm : db.metadata? i = some m) : ValidGraph i db m := by
  have hitems : ∀ x, x ∈ m.items ↔ (db.item? i x).isSome := by
    intro x
    rw [hc.stored x, hs x, indexed_of_metadata hm]
    simp
  have howner : ∀ {x l s}, db.links? i x l = some s → (db.item? i x).isSome := by
    intro x l s h
    rw [← hitems, ← indexed_of_metadata hm]
    exact hc.owner h
  refine ⟨hitems, fun x => ?_, howner, fun h hy => ?_, hc.closed, hc.down, fun ep hep => ?_,
    fun hne hnil => hne (hc.empty hm hnil).1, hc.nodup hm⟩
  · rw [← indexed_of_metadata hm]
    exact ⟨hc.base, fun ⟨s, hs⟩ => hc.owner hs⟩
  · obtain ⟨s', hs'⟩ := hc.closed h hy
    exact howner hs'
  · obtain ⟨hmem, hlinks⟩ := hc.entry hm ep hep
    exact ⟨(hitems ep).mp hmem, hlinks⟩

/-! ## Items -/

/-- An item is written or taken away, and marked with a stone. -/
structure Marks (i : UInt16) (x : ItemId) (it : Option Item) (status : UpdateStatus)
    (db db' : Database) : Prop where
  typed : db.WellTyped i → db'.WellTyped i
  item : ∀ y, db'.item? i y = if y = x then it else db.item? i y
  stone : ∀ y, db'.stone? i y = if y = x then some status else db.stone? i y
  links : ∀ y l, db'.links? i y l = db.links? i y l
  metadata : db'.metadata? i = db.metadata? i

theorem addItem_marks {x : ItemId} {v : List F32} {u : Unit}
    (h : w.addItem D x v db = .ok u db') : v.length = w.dimensions ∧
      Marks w.index x (some (Item.ofVector D v)) .updated db db' := by
  unfold addItem at h
  by_cases hlen : v.length ≠ w.dimensions
  · rw [if_pos hlen] at h
    cases h
  · rw [if_neg hlen] at h
    simp only [bind_ok_iff, modify_ok_iff] at h
    obtain ⟨_, _, rfl, rfl⟩ := h
    refine ⟨not_not.mp hlen, fun hwt => (hwt.put fun _ => Database.Fits.item _ _).put
      fun _ => Database.Fits.updated _ _, fun y => ?_, fun y => ?_, fun y l => ?_, ?_⟩
    · simp only [Database.item?, Database.getElem?_put, Key.item, Key.updated, Key.mk.injEq,
        NodeId.mk.injEq, reduceCtorEq, false_and, and_false, true_and, and_true, if_false]
      by_cases hy : y = x <;> simp [hy]
    · simp only [Database.stone?, Database.getElem?_put, Key.item, Key.updated, Key.mk.injEq,
        NodeId.mk.injEq, reduceCtorEq, false_and, and_false, true_and, and_true, if_false]
      by_cases hy : y = x <;> simp [hy]
    · simp [Database.links?, Database.getElem?_put, Key.item, Key.updated, Key.links]
    · simp [Database.metadata?, Database.getElem?_put, Key.item, Key.updated, Key.metadata]

theorem delItem_eq (x : ItemId) : w.delItem x db =
    if (db[Key.item w.index x]?).isSome then
      .ok true ((db.delete (Key.item w.index x)).put (Key.updated w.index x) (.status .removed))
    else .ok false db := by
  unfold delItem
  rw [bind_eq]
  show (if (db[Key.item w.index x]?).isSome = true then _ else _ : RwTxn Bool) db = _
  split_ifs <;> rfl

theorem delItem_marks {x : ItemId} {b : Bool} (hwt : db.WellTyped w.index)
    (h : w.delItem x db = .ok b db') :
    b = (db.item? w.index x).isSome ∧
      if b then Marks w.index x none .removed db db' else db' = db := by
  have hsome : (db[Key.item w.index x]?).isSome = (db.item? w.index x).isSome := by
    unfold Database.item?
    cases hk : db[Key.item w.index x]? with
    | none => rfl
    | some v =>
      cases hwt _ v hk rfl
      rfl
  unfold delItem at h
  simp only [bind_ok_iff, get_ok_iff] at h
  obtain ⟨_, _, ⟨rfl, rfl⟩, h⟩ := h
  rw [hsome] at h
  split_ifs at h with hstored
  · simp only [bind_ok_iff, modify_ok_iff, pure_ok_iff] at h
    obtain ⟨_, _, rfl, _, _, rfl, rfl, rfl⟩ := h
    refine ⟨hstored.symm, ?_⟩
    rw [if_pos rfl]
    refine ⟨fun hwt => (hwt.delete _).put fun _ => Database.Fits.updated _ _, fun y => ?_,
      fun y => ?_, fun y l => ?_, ?_⟩
    · simp only [Database.item?, Database.getElem?_put, Database.getElem?_delete, Key.item,
        Key.updated, Key.mk.injEq, NodeId.mk.injEq, reduceCtorEq, false_and, and_false, true_and,
        and_true, if_false]
      by_cases hy : y = x <;> simp [hy]
    · simp only [Database.stone?, Database.getElem?_put, Database.getElem?_delete, Key.item,
        Key.updated, Key.mk.injEq, NodeId.mk.injEq, reduceCtorEq, false_and, and_false, true_and,
        and_true, if_false]
      by_cases hy : y = x <;> simp [hy]
    · simp [Database.links?, Database.getElem?_put, Database.getElem?_delete, Key.item,
        Key.updated, Key.links]
    · simp [Database.metadata?, Database.getElem?_put, Database.getElem?_delete, Key.item,
        Key.updated, Key.metadata]
  · obtain ⟨rfl, rfl⟩ := pure_ok_iff.mp h
    refine ⟨(Bool.eq_false_iff.mpr hstored).symm, ?_⟩
    rw [if_neg Bool.false_ne_true]

/-- The graph is the same, and the items still agree with their stones. -/
theorem Consistent.same_graph (hc : Consistent i db) (hwt : db'.WellTyped i)
    (hlinks : ∀ x l, db'.links? i x l = db.links? i x l)
    (hmeta : db'.metadata? i = db.metadata? i)
    (hstored : ∀ x, (db'.item? i x).isSome ↔
      db'.stone? i x = some .updated ∨ (db'.stone? i x = none ∧ x ∈ indexed i db)) :
    Consistent i db' := by
  have hindexed : indexed i db' = indexed i db := by rw [indexed, indexed, hmeta]
  refine ⟨hwt, ?_, ?_, ?_, ?_, ?_, ?_, ?_, ?_⟩
  · simp only [hlinks]; exact hc.closed
  · simp only [hlinks]; exact hc.down
  · simp only [hlinks, hindexed]; exact hc.owner
  · simp only [hlinks, hindexed]; exact hc.base
  · simp only [hlinks, hmeta]; exact hc.entry
  · rw [hmeta]; exact hc.empty
  · rw [hmeta]; exact hc.nodup
  · rwa [hindexed]

/-- There is no graph, and the stored items are those with an "updated" stone. -/
theorem consistent_of_no_graph (hwt : db.WellTyped i) (hlinks : ∀ x l, db.links? i x l = none)
    (hmeta : db.metadata? i = none)
    (hstored : ∀ x, (db.item? i x).isSome ↔ db.stone? i x = some .updated) :
    Consistent i db := by
  have hindexed : indexed i db = ∅ := by rw [indexed, hmeta]
  refine ⟨hwt, ?_, ?_, ?_, ?_, ?_, ?_, ?_, fun x => ?_⟩
  · simp [hlinks]
  · simp [hlinks]
  · simp [hlinks]
  · simp [hindexed]
  · simp [hmeta]
  · simp [hmeta]
  · simp [hmeta]
  · rw [hstored, hindexed]
    simp

/-- Marking an item keeps the invariant. -/
theorem Consistent.mark (hc : Consistent i db) {x : ItemId} {it : Option Item}
    {status : UpdateStatus} (h : Marks i x it status db db')
    (hit : it.isSome ↔ status = .updated) : Consistent i db' := by
  refine hc.same_graph (h.typed hc.typed) h.links h.metadata fun y => ?_
  rw [h.item, h.stone]
  by_cases hy : y = x
  · rw [if_pos hy, if_pos hy, hit]
    simp
  · rw [if_neg hy, if_neg hy]
    exact hc.stored y

/-! ## Clearing -/

/-- The index has no entries. -/
def NoEntries (i : UInt16) (db : Database) : Prop := ∀ k : Key, k.index = i → db[k]? = none

theorem noEntries_empty : NoEntries i ∅ := fun _ _ => Std.ExtTreeMap.getElem?_empty

theorem consistent_of_noEntries (h : NoEntries i db) : Consistent i db := by
  refine consistent_of_no_graph (fun k v hk hi => ?_) (fun x l => ?_) ?_ fun x => ?_
  · rw [h k hi] at hk; cases hk
  · rw [Database.links?, h _ rfl]
  · rw [Database.metadata?, h _ rfl]
  · rw [Database.item?, h _ rfl, Database.stone?, h _ rfl]
    simp

theorem clear_noEntries {u : Unit} (h : w.clear db = .ok u db') : NoEntries w.index db' := by
  unfold clear at h
  rw [modify_ok_iff] at h
  intro k hk
  rw [h, Database.getElem?_deleteAll]
  by_cases hmem : k ∈ (db.prefixIter (Prefix.all w.index)).map Prod.fst
  · rw [if_pos hmem]
  · rw [if_neg hmem]
    cases hv : db[k]? with
    | none => rfl
    | some v =>
      refine absurd (List.mem_map.mpr ⟨(k, v), Database.mem_prefixIter.mpr ⟨hv, hk, ?_⟩, rfl⟩) hmem
      intro m hm
      cases hm

/-! ## Building -/

section sets

variable {x : ItemId} (hwt : db.WellTyped i) (hr : options.relinkAllItems = false)
include hwt hr

/-- The items to index are those with an "updated" stone. -/
theorem mem_toInsert : x ∈ (buildSets options i db).toInsert ↔ db.stone? i x = some .updated := by
  rw [buildSets, if_neg (by simp [hr])]
  simp only [updateSets, Finset.mem_inter, Finset.mem_sdiff, Finset.mem_union,
    mem_touchedItems hwt, mem_removedItems hwt]
  cases db.stone? i x with
  | none => simp
  | some s => cases s <;> simp

/-- The items to delete are those with a "removed" stone. -/
theorem mem_toDelete : x ∈ (buildSets options i db).toDelete ↔ db.stone? i x = some .removed := by
  rw [buildSets, if_neg (by simp [hr])]
  simp only [updateSets, Finset.mem_sdiff, Finset.mem_union,
    mem_touchedItems hwt, mem_removedItems hwt]
  cases db.stone? i x with
  | none => simp
  | some s => cases s <;> simp

theorem mem_itemIndices : x ∈ (buildSets options i db).itemIndices ↔
    db.stone? i x = some .updated ∨ (db.stone? i x = none ∧ x ∈ indexed i db) := by
  rw [buildSets, if_neg (by simp [hr])]
  simp only [updateSets, Finset.mem_sdiff, Finset.mem_union,
    mem_touchedItems hwt, mem_removedItems hwt]
  cases db.stone? i x with
  | none => simp
  | some s => cases s <;> simp

end sets

theorem item?_takeStones (x : ItemId) : (takeStones options i db).item? i x = db.item? i x := by
  rw [Database.item?, getElem?_takeStones (by simp [Key.item])]
  rfl

theorem links?_takeStones (x : ItemId) (l : LayerId) :
    (takeStones options i db).links? i x l = db.links? i x l :=
  links?_eq_of_getElem? (getElem?_takeStones (by simp [Key.links]))

theorem metadata?_takeStones : (takeStones options i db).metadata? i = db.metadata? i := by
  rw [Database.metadata?, getElem?_takeStones (by simp [Key.metadata])]
  rfl

/-- The snapshot the graph is built from. -/
abbrev snapshot (options : BuildOption) (i : UInt16) (db : Database) : FrozenReader :=
  ⟨takeStones options i db, i⟩

theorem live_snapshot {x : ItemId} :
    Live (snapshot options i db) x ↔ (db.item? i x).isSome := by
  rw [Live, item?_takeStones]

variable (options) in
theorem disk_snapshot (l : LayerId) (x : ItemId) :
    disk (snapshot options i db) l.toNat x = db.links? i x l := by
  rw [disk, toUInt8_toNat, links?_takeStones]

/-- What a build is given: the items to index are stored, those to delete are not, and an item of
the new metadata is indexed now or already in the graph. -/
structure Ready (options : BuildOption) (i : UInt16) (db : Database) : Prop where
  typed : db.WellTyped i
  disk : DiskOk (snapshot options i db)
  owner : ∀ {x l s}, db.links? i x l = some s → x ∉ (buildSets options i db).toDelete →
    (db.item? i x).isSome
  entry : ∀ {m}, db.metadata? i = some m → ∀ ep ∈ m.entryPoints,
    ep ∉ (buildSets options i db).toDelete → (db.item? i ep).isSome
  inserted : ∀ x ∈ (buildSets options i db).toInsert, (db.item? i x).isSome
  deleted : ∀ x ∈ (buildSets options i db).toDelete, db.item? i x = none
  items : ∀ x, x ∈ (buildSets options i db).itemIndices ↔ (db.item? i x).isSome
  cover : ∀ x ∈ (buildSets options i db).itemIndices,
    x ∈ (buildSets options i db).toInsert ∨ ∃ s, db.links? i x 0 = some s
  nothing : ∀ {m}, db.metadata? i = some m → m.entryPoints = [] → m.items = ∅ ∧ m.maxLevel = 0
  base : ∀ {x s}, db.links? i x 0 = some s → x ∈ indexed i db
  stones : options.relinkAllItems = true → ∀ x, db.stone? i x = none

theorem Ready.buildInput (h : Ready options i db) :
    BuildInput (snapshot options i db) (buildSets options i db).toInsert
      (buildSets options i db).toDelete (builderOf M0 i (takeStones options i db)) := by
  refine ⟨wellTyped_takeStones h.typed, h.disk, fun {l x s} hs hx => ?_, ?_, ?_,
    fun x hx => live_snapshot.mpr (h.inserted x hx), fun ep hep hd => ?_⟩
  · rw [Graph.disk, links?_takeStones] at hs
    exact live_snapshot.mpr (h.owner hs hx)
  · rw [builderOf]
    split <;> rfl
  · rw [builderOf]
    split
    · exact UInt8.toNat_lt _
    · exact Nat.zero_lt_succ _
  · rw [builderOf, metadata?_takeStones] at hep
    cases hm : db.metadata? i with
    | none => rw [hm] at hep; exact absurd hep List.not_mem_nil
    | some m =>
      rw [hm] at hep
      exact live_snapshot.mpr (h.entry hm ep hep hd)

/-- The height of an empty graph. -/
theorem Ready.height_of_nil (h : Ready options i db)
    (hnil : (builderOf M0 i (takeStones options i db)).entryPoints = []) :
    indexed i db = ∅ ∧ (builderOf M0 i (takeStones options i db)).maxLevel = 0 := by
  rw [builderOf, metadata?_takeStones] at hnil ⊢
  cases hm : db.metadata? i with
  | none => exact ⟨by rw [indexed, hm], rfl⟩
  | some m =>
    rw [hm] at hnil
    obtain ⟨hitems, hheight⟩ := h.nothing hm hnil
    exact ⟨(indexed_of_metadata hm).trans hitems, by simp [hheight]⟩

/-- What a build that returns leaves: the entries, and the layers they are taken from. -/
structure BuildDone (D : Distance) (w : Writer) (options : BuildOption) (b : HnswBuilder M0)
    (db db' : Database) : Prop where
  built : Built D w options b db db'
  layers : BuildOutput (snapshot options w.index db) (buildSets options w.index db).toInsert
    (buildSets options w.index db).toDelete (builderOf M0 w.index (takeStones options w.index db)) b
  dimensions : w.dimensions < 2 ^ 32

theorem Ready.build_layers (hready : Ready options w.index db) {u : Unit}
    (h : w.build D M M0 env options db = .ok u db') : ∃ b : HnswBuilder M0,
    HnswBuilder.buildLayers D M options env (snapshot options w.index db)
        (builderOf M0 w.index (takeStones options w.index db))
        (buildSets options w.index db).toInsert (buildSets options w.index db).toDelete = .ok b ∧
      BuildDone D w options b db db' := by
  obtain ⟨hdim, b, hlayers, db₂, db₃, h₂, h₃, h'⟩ := build_ok h
  have hout := buildLayers_spec hready.buildInput hlayers
  exact ⟨b, hlayers, build_built hready.typed hout.linked.length_le rfl h₂ h₃ h', hout, hdim⟩

theorem Ready.build_done (hready : Ready options w.index db) {u : Unit}
    (h : w.build D M M0 env options db = .ok u db') :
    ∃ b : HnswBuilder M0, BuildDone D w options b db db' :=
  have ⟨b, _, hdone⟩ := hready.build_layers h
  ⟨b, hdone⟩

section done

variable {b : HnswBuilder M0} (hready : Ready options w.index db)
  (h : BuildDone D w options b db db')
include hready h

/-- A node that is stored and has links on disk is written. -/
theorem inMemory_of_present {l : LayerId} {x : ItemId}
    (hx : Present (snapshot options w.index db) b.layers l.toNat x) :
    InMemory b.layers l.toNat x := by
  obtain ⟨hlive, hm | ⟨s, hs⟩⟩ := hx
  · exact hm
  · refine h.layers.kept l x s hs fun hd => ?_
    rw [live_snapshot, hready.deleted x hd] at hlive
    cases hlive

/-- **The links after a build are those of the layers.** -/
theorem links?_done {x : ItemId} {l : LayerId} {s : RoaringBitmap} :
    db'.links? w.index x l = some s ↔
      ∃ node, b.layers.get? l.toNat x = some node ∧ s = node.targets.toFinset := by
  rw [h.built.links]
  constructor
  · intro hs
    split_ifs at hs with hx
    cases hget : b.layers.get? l.toNat x with
    | none =>
      rw [hget] at hs
      obtain ⟨node, hnode⟩ := h.layers.kept l x s ((disk_snapshot options l x).trans hs) hx
      rw [hget] at hnode
      cases hnode
    | some node =>
      rw [hget] at hs
      exact ⟨node, rfl, (Option.some.inj hs).symm⟩
  · rintro ⟨node, hget, rfl⟩
    rw [if_neg, hget]
    intro hx
    have := live_snapshot.mp (h.layers.linked.live hget)
    rw [hready.deleted x hx] at this
    cases this

theorem links?_done_of_inMemory {x : ItemId} {l : LayerId}
    (hx : InMemory b.layers l.toNat x) : ∃ s, db'.links? w.index x l = some s := by
  obtain ⟨node, hnode⟩ := hx
  exact ⟨_, (links?_done hready h).mpr ⟨node, hnode, rfl⟩⟩

omit hready in
theorem indexed_done : indexed w.index db' = (buildSets options w.index db).itemIndices := by
  rw [indexed, h.built.metadata]
  rfl

theorem stone?_done (x : ItemId) : db'.stone? w.index x = none := by
  rw [h.built.stone]
  split_ifs with hr
  · exact hready.stones hr x
  · rfl

omit h in
theorem not_deleted_of_mem_items {x : ItemId}
    (hx : x ∈ (buildSets options w.index db).itemIndices) :
    x ∉ (buildSets options w.index db).toDelete := by
  intro hd
  have := (hready.items x).mp hx
  rw [hready.deleted x hd] at this
  cases this

/-- Without entry points nothing is indexed. -/
theorem nothing_done (hnil : b.entryPoints = []) :
    (buildSets options w.index db).itemIndices = ∅ ∧ b.maxLevel = 0 := by
  obtain ⟨hins, hzero, hgone⟩ := h.layers.nothing (fun hb => (hready.height_of_nil hb).2) hnil
  refine ⟨Finset.eq_empty_of_forall_notMem fun x hx => ?_, hzero⟩
  rcases hready.cover x hx with hx' | ⟨s, hs⟩
  · rw [hins] at hx'
    exact absurd hx' (Finset.notMem_empty x)
  · by_cases hb : (builderOf M0 w.index (takeStones options w.index db)).entryPoints = []
    · have := hready.base hs
      rw [(hready.height_of_nil hb).1] at this
      exact absurd this (Finset.notMem_empty x)
    · exact not_deleted_of_mem_items hready hx
        (hgone hb x s ((disk_snapshot options 0 x).trans hs))

/-- **A build leaves the index consistent.** -/
theorem consistent_done : Consistent w.index db' := by
  have hstored : ∀ x, x ∈ (buildSets options w.index db).itemIndices ↔
      (db'.item? w.index x).isSome := by
    intro x
    rw [h.built.item]
    exact hready.items x
  refine ⟨h.built.typed, ?_, ?_, ?_, ?_, ?_, ?_, ?_, fun x => ?_⟩
  · intro x l s y hs hy
    obtain ⟨node, hnode, rfl⟩ := (links?_done hready h).mp hs
    exact links?_done_of_inMemory hready h (inMemory_of_present hready h
      (h.layers.linked.target hnode (List.mem_toFinset.mp hy)))
  · intro x l k s hs hk
    obtain ⟨node, hnode, rfl⟩ := (links?_done hready h).mp hs
    exact links?_done_of_inMemory hready h (inMemory_of_present hready h
      (h.layers.linked.down (UInt8.toNat_lt l) ⟨h.layers.linked.live hnode, Or.inl ⟨node, hnode⟩⟩
        (UInt8.le_iff_toNat_le.mp hk)))
  · intro x l s hs
    obtain ⟨node, hnode, rfl⟩ := (links?_done hready h).mp hs
    rw [indexed_done h]
    exact (hready.items x).mpr (live_snapshot.mp (h.layers.linked.live hnode))
  · intro x hx
    rw [indexed_done h] at hx
    refine links?_done_of_inMemory hready h ?_
    rcases hready.cover x hx with hins | ⟨s, hs⟩
    · exact h.layers.inserted x hins
    · exact h.layers.kept 0 x s ((disk_snapshot options 0 x).trans hs)
        (not_deleted_of_mem_items hready hx)
  · intro m hm ep hep
    rw [h.built.metadata] at hm
    cases hm
    obtain ⟨hlive, hlevels⟩ := h.layers.entryPoints ep hep
    refine ⟨(hready.items ep).mpr (live_snapshot.mp hlive), fun k hk => ?_⟩
    refine links?_done_of_inMemory hready h (hlevels k.toNat ?_)
    have := UInt8.le_iff_toNat_le.mp hk
    exact this.trans (UInt8.toNat_ofNat_of_lt' h.layers.height).le
  · intro m hm hnil
    rw [h.built.metadata] at hm
    cases hm
    obtain ⟨hitems, hzero⟩ := nothing_done hready h hnil
    exact ⟨hitems, by simp [newMetadata, hzero]⟩
  · intro m hm
    rw [h.built.metadata] at hm
    cases hm
    exact h.layers.nodup
  · rw [stone?_done hready h, ← hstored, indexed_done h]
    simp

end done

theorem ready_of_consistent (hc : Consistent i db) (hr : options.relinkAllItems = false) :
    Ready options i db := by
  have hins := fun x => mem_toInsert (x := x) hc.typed hr
  have hdel := fun x => mem_toDelete (x := x) hc.typed hr
  have hitems := fun x => mem_itemIndices (x := x) hc.typed hr
  -- an indexed item is stored unless its stone says it was removed
  have hsurvive : ∀ {x}, x ∈ indexed i db → x ∉ (buildSets options i db).toDelete →
      (db.item? i x).isSome := by
    intro x hx hd
    rw [hdel] at hd
    rw [hc.stored]
    rcases hs : db.stone? i x with _ | _ | _
    · exact Or.inr ⟨rfl, hx⟩
    · exact Or.inl rfl
    · exact absurd hs hd
  refine ⟨hc.typed, ⟨?_, ?_⟩, fun hs => hsurvive (hc.owner hs), fun hm ep hep => ?_, fun x hx => ?_,
    fun x hx => ?_, fun x => (hitems x).trans (hc.stored x).symm, fun x hx => ?_, hc.empty,
    fun hs => hc.owner hs, fun h => absurd h (by simp [hr])⟩
  · intro l x s y hs hy
    rw [disk, links?_takeStones] at hs
    obtain ⟨s', hs'⟩ := hc.closed hs hy
    exact ⟨s', by rw [disk, links?_takeStones]; exact hs'⟩
  · intro l k x s hl hs hk
    rw [disk, links?_takeStones] at hs
    obtain ⟨s', hs'⟩ := hc.down (k := k.toUInt8) hs (by
      rw [UInt8.le_iff_toNat_le, UInt8.toNat_ofNat_of_lt' hl,
        UInt8.toNat_ofNat_of_lt' (hk.trans_lt hl)]
      exact hk)
    exact ⟨s', by rw [disk, links?_takeStones]; exact hs'⟩
  · refine hsurvive ?_
    rw [indexed_of_metadata hm]
    exact (hc.entry hm ep hep).1
  · exact (hc.stored x).mpr (Or.inl ((hins x).mp hx))
  · have hs := (hdel x).mp hx
    cases hit : db.item? i x with
    | none => rfl
    | some it =>
      have := (hc.stored x).mp (by rw [hit]; rfl)
      rw [hs] at this
      simp at this
  · rcases (hitems x).mp hx with hs | ⟨-, hx⟩
    · exact Or.inl ((hins x).mpr hs)
    · exact Or.inr (hc.base hx)

/-- **A build keeps the index consistent** and leaves no stone. -/
theorem consistent_build (hc : Consistent w.index db) (hr : options.relinkAllItems = false)
    {u : Unit} (h : w.build D M M0 env options db = .ok u db') :
    Consistent w.index db' ∧ ∀ x, db'.stone? w.index x = none := by
  have hready := ready_of_consistent hc hr
  obtain ⟨b, hdone⟩ := hready.build_done h
  exact ⟨consistent_done hready hdone, stone?_done hready hdone⟩

/-! ## Rebuilding -/

/-- What `forceRebuild` builds from: the links are gone. -/
def dropLinks (i : UInt16) (db : Database) (m : Metadata) : Database :=
  db.deleteAll (linksKeysOf i db m.items)

theorem getElem?_dropLinks {m : Metadata} {k : Key} (hk : k.node.mode ≠ .links) :
    (dropLinks i db m)[k]? = db[k]? :=
  Database.getElem?_deleteAll_of_mode (fun _ hk' => mode_of_mem_linksKeysOf hk') hk

theorem links?_dropLinks (hc : Consistent i db) {m : Metadata} (hm : db.metadata? i = some m)
    (x : ItemId) (l : LayerId) : (dropLinks i db m).links? i x l = none := by
  cases hs : db.links? i x l with
  | none =>
    refine Option.eq_none_iff_forall_ne_some.mpr fun s hs' => ?_
    rw [Database.links?, dropLinks, Database.getElem?_deleteAll] at hs'
    split_ifs at hs'
    rw [← Database.links?, hs] at hs'
    cases hs'
  | some s =>
    have hx : x ∈ m.items := by
      rw [← indexed_of_metadata hm]
      exact hc.owner hs
    rw [Database.links?, dropLinks, Database.getElem?_deleteAll,
      if_pos ((links_mem_linksKeysOf hc.typed).mpr ⟨hx, s, hs⟩)]

theorem forceRebuild_ok {u : Unit} (h : w.forceRebuild D M M0 env options db = .ok u db') :
    ∃ m, db.metadata? w.index = some m ∧
      w.build D M M0 env { options with relinkAllItems := true } (dropLinks w.index db m) =
        .ok u db' := by
  unfold forceRebuild at h
  simp only [bind_ok_iff, get_ok_iff, RwTxn.ofExcept_ok_iff] at h
  obtain ⟨_, _, ⟨rfl, rfl⟩, m, _, ⟨hm, rfl⟩, h⟩ := h
  cases m with
  | none => cases h
  | some m =>
    simp only [bind_ok_iff] at h
    obtain ⟨_, _, hdel, h⟩ := h
    obtain rfl := deleteLinksFromDb_ok hdel
    exact ⟨m, metadata?_of_getMetadata hm, h⟩

variable (options) in
theorem ready_dropLinks (hc : Consistent i db) (hs : ∀ x, db.stone? i x = none)
    (hr : options.relinkAllItems = true) {m : Metadata} (hm : db.metadata? i = some m) :
    Ready options i (dropLinks i db m) := by
  have hitem : ∀ x, (dropLinks i db m).item? i x = db.item? i x := fun x => by
    rw [Database.item?, getElem?_dropLinks (by simp [Key.item])]
    rfl
  have hstone : ∀ x, (dropLinks i db m).stone? i x = none := fun x => by
    rw [Database.stone?, getElem?_dropLinks (by simp [Key.updated])]
    exact hs x
  have hmeta : (dropLinks i db m).metadata? i = db.metadata? i := by
    rw [Database.metadata?, getElem?_dropLinks (by simp [Key.metadata])]
    rfl
  have hindexed : indexed i (dropLinks i db m) = indexed i db := by rw [indexed, indexed, hmeta]
  have hlinks := links?_dropLinks hc hm
  have hstored : ∀ x, x ∈ indexed i db ↔ (db.item? i x).isSome := fun x => by
    rw [hc.stored, hs x]
    simp
  have hsets : buildSets options i (dropLinks i db m) = ⟨indexed i db, ∅, indexed i db⟩ := by
    rw [buildSets, if_pos hr, hindexed]
  refine ⟨Database.WellTyped.deleteAll _ hc.typed, ⟨?_, ?_⟩, ?_, ?_, ?_, ?_, ?_, ?_, ?_, ?_,
    fun _ => hstone⟩
  · intro l x s y h
    rw [disk, links?_takeStones, hlinks] at h
    cases h
  · intro l k x s _ h
    rw [disk, links?_takeStones, hlinks] at h
    cases h
  · intro x l s h
    rw [hlinks] at h
    cases h
  · intro m' hm' ep hep _
    rw [hmeta] at hm'
    rw [hitem, ← hstored, indexed_of_metadata hm']
    exact (hc.entry hm' ep hep).1
  · intro x hx
    rw [hsets] at hx
    rw [hitem]
    exact (hstored x).mp hx
  · intro x hx
    rw [hsets] at hx
    exact absurd hx (Finset.notMem_empty x)
  · intro x
    rw [hsets, hitem]
    exact hstored x
  · intro x hx
    rw [hsets] at hx ⊢
    exact Or.inl hx
  · rw [hmeta]
    exact hc.empty
  · intro x s h
    rw [hlinks] at h
    cases h

/-- **A rebuild without pending updates keeps the index consistent.** -/
theorem consistent_forceRebuild (hc : Consistent w.index db)
    (hs : ∀ x, db.stone? w.index x = none) {u : Unit}
    (h : w.forceRebuild D M M0 env options db = .ok u db') :
    Consistent w.index db' ∧ ∀ x, db'.stone? w.index x = none := by
  obtain ⟨m, hm, hb⟩ := forceRebuild_ok h
  have hready := ready_dropLinks { options with relinkAllItems := true } hc hs rfl hm
  obtain ⟨b, hdone⟩ := hready.build_done hb
  exact ⟨consistent_done hready hdone, stone?_done hready hdone⟩

end Hannoy.Index
