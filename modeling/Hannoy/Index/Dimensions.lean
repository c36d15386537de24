import Hannoy.Index.Pending
import Hannoy.Model.Distances

/-!
# Writers of different dimensions (`writer.rs:285-287, 462-480, 521-603`)

`add_item` compares a vector with the dimensions of its own writer only, and `build` writes the
dimensions of the building writer into the metadata; neither looks at what is stored.

* `attempts`: operations of any writers, which return or fail; what they wrote stands.
* `attempts_item`: the stored vectors are those of the last successful `add_item` (`lastStored`).
* `vector_lengths_iff`: after a build all stored vectors have the length of the metadata exactly
  when each was added by a writer whose dimensions take as many words as those of the building one.
* `two_dimensions`: a vector of one coordinate in an index of two dimensions.
-/

namespace Hannoy.Index

open Hannoy.Library Hannoy.Library.Txn Hannoy.Writer Hannoy.Graph

variable {D : Distance} {w : Writer} {M M0 : Nat} {env : Environment} {options : BuildOption}
  {db db' db₀ : Database} {i : UInt16}

/-! ## Operations and what stands of them -/

/-- The transaction of an operation. -/
def Op.txn (D : Distance) (w : Writer) : Op → RwTxn Unit
  | .addItem x v => w.addItem D x v
  | .delItem x => do
    let _ ← w.delItem x
    pure ()
  | .clear => w.clear
  | .build M M0 env options => w.build D M M0 env options
  | .forceRebuild M M0 env options => w.forceRebuild D M M0 env options

/-- The database after operations whose writes stand, whether they return or fail; the latest
first. -/
def attempts (D : Distance) (db₀ : Database) : List (Writer × Op) → Database
  | [] => db₀
  | (w, op) :: tr => final (op.txn D w (attempts D db₀ tr))

/-- The writer and the vector of the `add_item` that stored `x`: the last one that passed the check
of the dimensions, when `x` was not removed since. -/
def lastStored (x : ItemId) : List (Writer × Op) → Option (Writer × List F32)
  | [] => none
  | (w, .addItem y v) :: tr =>
    if x = y ∧ v.length = w.dimensions then some (w, v) else lastStored x tr
  | (_, .delItem y) :: tr => if x = y then none else lastStored x tr
  | (_, .clear) :: _ => none
  | (_, .build _ _ _ _) :: tr => lastStored x tr
  | (_, .forceRebuild _ _ _ _) :: tr => lastStored x tr

/-- A stored vector has passed the check of its own writer. -/
theorem length_of_lastStored {x : ItemId} {v : List F32} : ∀ {tr : List (Writer × Op)},
    lastStored x tr = some (w, v) → v.length = w.dimensions
  | [], h => by cases h
  | (w', .addItem y v') :: tr, h => by
    rw [lastStored] at h
    split_ifs at h with hadded
    · cases h
      exact hadded.2
    · exact length_of_lastStored h
  | (_, .delItem y) :: tr, h => by
    rw [lastStored] at h
    split_ifs at h
    exact length_of_lastStored h
  | (_, .clear) :: _, h => by cases h
  | (_, .build _ _ _ _) :: _, h => by
    rw [lastStored] at h
    exact length_of_lastStored h
  | (_, .forceRebuild _ _ _ _) :: _, h => by
    rw [lastStored] at h
    exact length_of_lastStored h

/-! ## Building stores nothing -/

/-- The same items are stored. -/
def SameItems (db db' : Database) : Prop := ∀ k : Key, k.node.mode = .item → db'[k]? = db[k]?

instance : IsPreorder Database SameItems where
  refl _ _ _ := rfl
  trans _ _ _ h h' k hk := (h' k hk).trans (h k hk)

theorem sameItems_write {items : RoaringBitmap} {f : Database → Database}
    (h : LateWrite i items f) (db : Database) : SameItems db (f db) :=
  fun k hk => (Frame.of_write h db).entries k (by simp [hk]) (by simp [hk])

theorem sameItems_delete {k : Key} (hk : k.node.mode = .updated) (db : Database) :
    SameItems db (db.delete k) := fun k' hk' => by
  rw [Database.getElem?_delete, if_neg]
  rintro rfl
  rw [hk] at hk'
  cases hk'

variable (D M M0 env options) in
/-- **A build stores no vector and drops none**, however it ends. -/
theorem sameItems_build (w : Writer) : Keeps SameItems (w.build D M M0 env options) :=
  keeps_build (fun _ _ => sameItems_delete) fun _ _ => sameItems_write

variable (D M M0 env options) in
theorem sameItems_forceRebuild (w : Writer) :
    Keeps SameItems (w.forceRebuild D M M0 env options) :=
  keeps_forceRebuild (fun _ _ => sameItems_delete) fun _ _ => sameItems_write

/-! ## What is stored -/

theorem final_delItem (x : ItemId) : final (Op.txn D w (.delItem x) db) =
    if (db[Key.item w.index x]?).isSome then
      (db.delete (Key.item w.index x)).put (Key.updated w.index x) (.status .removed)
    else db := by
  show final ((w.delItem x >>= _) db) = _
  rw [bind_eq, delItem_eq]
  split_ifs <;> rfl

/-- One operation stores and drops what `lastStored` says. -/
theorem item_txn {op : Op} {tr : List (Writer × Op)} {x : ItemId} (hw : w.index = i)
    (h : db[Key.item i x]? =
      (lastStored x tr).map fun p => .node (.item (Item.ofVector D p.2))) :
    (final (op.txn D w db))[Key.item i x]? =
      (lastStored x ((w, op) :: tr)).map fun p => .node (.item (Item.ofVector D p.2)) := by
  subst hw
  cases op with
  | addItem y v =>
    rw [lastStored]
    by_cases hlen : v.length = w.dimensions
    · have hput : final (w.addItem D y v db) = (db.put (Key.item w.index y)
          (.node (.item (Item.ofVector D v)))).put (Key.updated w.index y) (.status .updated) := by
        unfold Writer.addItem
        rw [if_neg (not_not.mpr hlen)]
        rfl
      show (final (w.addItem D y v db))[_]? = _
      rw [hput, Database.getElem?_put, if_neg (by simp [Key.item, Key.updated]),
        Database.getElem?_put]
      by_cases hx : x = y
      · rw [if_pos (by rw [hx]), if_pos ⟨hx, hlen⟩]
        rfl
      · rw [if_neg (by simpa [Key.item] using hx), if_neg (fun h => hx h.1), h]
    · have hsame : final (w.addItem D y v db) = db := by
        unfold Writer.addItem
        rw [if_pos hlen]
        rfl
      show (final (w.addItem D y v db))[_]? = _
      rw [hsame, if_neg (fun h => hlen h.2), h]
  | delItem y =>
    have hgone : (final (Op.txn D w (.delItem y) db))[Key.item w.index x]? =
        if x = y then none else db[Key.item w.index x]? := by
      rw [final_delItem]
      by_cases hy : (db[Key.item w.index y]?).isSome
      · rw [if_pos hy, Database.getElem?_put, if_neg (by simp [Key.item, Key.updated]),
          Database.getElem?_delete]
        simp [Key.item]
      · rw [if_neg hy]
        by_cases hx : x = y
        · rw [if_pos hx, hx]
          simpa using hy
        · rw [if_neg hx]
    rw [hgone, h, lastStored]
    split_ifs <;> rfl
  | clear => exact clear_noEntries (u := ()) rfl _ rfl
  | build M M0 env options =>
    rw [← show lastStored x ((w, .build M M0 env options) :: tr) = lastStored x tr from rfl] at h
    rw [← h]
    exact sameItems_build D M M0 env options w db _ rfl
  | forceRebuild M M0 env options =>
    rw [← show lastStored x ((w, .forceRebuild M M0 env options) :: tr) = lastStored x tr from rfl]
      at h
    rw [← h]
    exact sameItems_forceRebuild D M M0 env options w db _ rfl

/-- **The stored vectors** are those that were stored last. -/
theorem attempts_item (h₀ : NoEntries i db₀) (x : ItemId) : ∀ {tr : List (Writer × Op)},
    (∀ e ∈ tr, e.1.index = i) → (attempts D db₀ tr)[Key.item i x]? =
      (lastStored x tr).map fun p => .node (.item (Item.ofVector D p.2))
  | [], _ => h₀ _ rfl
  | (w, op) :: tr, hi => by
    obtain ⟨hw, hi⟩ := List.forall_mem_cons.mp hi
    exact item_txn hw (attempts_item h₀ x hi)

/-! ## One length -/

/-- The dimensions rounded up to the words of the codec (`writer.rs:308`). -/
def onDiskDim (D : Distance) (dimensions : Nat) : Nat :=
  chunkCount D.codec.wordSize dimensions * D.codec.wordSize

/-- Every stored vector has the length of the metadata. -/
def OneLength (D : Distance) (i : UInt16) (db : Database) (m : Metadata) : Prop :=
  ∀ x it, db.item? i x = some it → D.codec.len it.vector = onDiskDim D m.dimensions.toNat

theorem metadata_of_build {u : Unit} (h : w.build D M M0 env options db = .ok u db') :
    ∃ m, db'.metadata? w.index = some m ∧ m.dimensions.toNat = w.dimensions := by
  obtain ⟨hdim, b, -, db₂, db₃, -, -, rfl⟩ := build_ok h
  refine ⟨newMetadata D w (buildSets options w.index db).itemIndices b, ?_,
    UInt32.toNat_ofNat_of_lt' hdim⟩
  rw [Database.metadata?, Database.getElem?_put, if_neg (by simp [Key.metadata, Key.version]),
    Database.getElem?_put, if_pos rfl]

theorem metadata_of_builds {op : Op} (hop : op.Builds)
    (h : op.txn D w db = .ok () db') :
    ∃ m, db'.metadata? w.index = some m ∧ m.dimensions.toNat = w.dimensions := by
  cases op with
  | addItem => exact hop.elim
  | delItem => exact hop.elim
  | clear => exact hop.elim
  | build M M0 env options =>
    rw [Op.txn] at h
    exact metadata_of_build h
  | forceRebuild M M0 env options =>
    rw [Op.txn] at h
    obtain ⟨m, -, h⟩ := forceRebuild_ok h
    exact metadata_of_build h

/-- **Stored vectors have one length after a build** exactly when every vector was stored by a
writer whose dimensions are rounded up to the same length as those of the writer that builds. -/
theorem vector_lengths_iff {c : VectorCodec} (hc : D.codec = c.codec) (h₀ : NoEntries i db₀)
    {tr : List (Writer × Op)} (hi : ∀ e ∈ tr, e.1.index = i) (hw : w.index = i) {op : Op}
    (hop : op.Builds) (h : op.txn D w (attempts D db₀ tr) = .ok () db') :
    ∃ m, db'.metadata? i = some m ∧ (OneLength D i db' m ↔
      ∀ x w' v, lastStored x tr = some (w', v) →
        onDiskDim D w'.dimensions = onDiskDim D w.dimensions) := by
  obtain ⟨m, hm, hdim⟩ := metadata_of_builds hop h
  have hitem : ∀ x, db'[Key.item i x]? =
      (lastStored x tr).map fun p => .node (.item (Item.ofVector D p.2)) := by
    intro x
    have hstored : (attempts D db₀ ((w, op) :: tr))[Key.item i x]? = _ :=
      attempts_item h₀ x (List.forall_mem_cons.mpr ⟨hw, hi⟩)
    rw [attempts, h] at hstored
    refine hstored.trans ?_
    cases op with
    | addItem => exact hop.elim
    | delItem => exact hop.elim
    | clear => exact hop.elim
    | build => rfl
    | forceRebuild => rfl
  have hlen : ∀ v, D.codec.len (Item.ofVector D v).vector = onDiskDim D v.length := fun v => by
    show D.codec.len (D.codec.fromSlice v) = _
    rw [onDiskDim, hc]
    exact c.len_fromSlice v
  subst hw
  refine ⟨m, hm, fun hone x w' v hx => ?_, fun hall x it hit => ?_⟩
  · have := hone x (Item.ofVector D v) (by rw [Database.item?, hitem, hx]; rfl)
    rw [hlen, length_of_lastStored hx, hdim] at this
    exact this
  · rw [Database.item?, hitem] at hit
    cases hx : lastStored x tr with
    | none =>
      rw [hx] at hit
      cases hit
    | some p =>
      obtain ⟨w', v⟩ := p
      rw [hx] at hit
      cases hit
      rw [hlen, length_of_lastStored hx, hdim]
      exact hall x w' v hx

/-- A writer of one dimension adds item 0, one of two dimensions adds item 1 and builds. -/
def twoWriters : List (Writer × Op) :=
  [(⟨0, 2⟩, .build 2 2 .oneLevel .default), (⟨0, 2⟩, .addItem 1 [F32.one, F32.one]),
    (⟨0, 1⟩, .addItem 0 [F32.one])]

/-- Every operation returns, and item 0 is left with fewer coordinates than the metadata says. -/
theorem two_dimensions : ∃ db m it, play manhattan ∅ twoWriters = some db ∧
    db.metadata? 0 = some m ∧ m.dimensions = 2 ∧ db.item? 0 0 = some it ∧
    manhattan.codec.len it.vector = 1 ∧ ¬ OneLength manhattan 0 db m := by
  have h : ((play manhattan ∅ twoWriters).bind fun db => (db.metadata? 0).bind fun m =>
      (db.item? 0 0).map fun it => (m.dimensions, manhattan.codec.len it.vector)) =
      some (2, 1) := by
    decide +kernel
  obtain ⟨db, hplay, h⟩ := Option.bind_eq_some_iff.mp h
  obtain ⟨m, hm, h⟩ := Option.bind_eq_some_iff.mp h
  obtain ⟨it, hit, h⟩ := Option.map_eq_some_iff.mp h
  obtain ⟨hdim, hlen⟩ := Prod.mk.inj h
  refine ⟨db, m, it, hplay, hm, hdim, hit, hlen, fun hone => ?_⟩
  have hone := hone 0 it hit
  rw [hlen, hdim] at hone
  exact absurd hone (by decide)

/-- With a packed codec the vectors of both writers fill one word of 64 coordinates. -/
theorem vector_lengths_twoWriters : ∃ db m,
    Writer.build binaryQuantizedManhattan ⟨0, 2⟩ 2 2 .oneLevel .default
      (attempts binaryQuantizedManhattan ∅ twoWriters.tail) = .ok () db ∧
    db.metadata? 0 = some m ∧ m.dimensions = 2 ∧ m.items = {0, 1} ∧
    lastStored 0 twoWriters.tail = some (⟨0, 1⟩, [F32.one]) ∧
    OneLength binaryQuantizedManhattan 0 db m := by
  have h : ((committed (Writer.build binaryQuantizedManhattan ⟨0, 2⟩ 2 2 .oneLevel .default
      (attempts binaryQuantizedManhattan ∅ twoWriters.tail))).map fun db =>
        (db.metadata? 0).map fun m => (m.dimensions, m.items)) = some (some (2, {0, 1})) := by
    decide +kernel
  obtain ⟨db, hdb, h⟩ := Option.map_eq_some_iff.mp h
  obtain ⟨m', hm', h⟩ := Option.map_eq_some_iff.mp h
  obtain ⟨_, hbuild⟩ := committed_eq_some hdb
  have hop : (Op.build 2 2 .oneLevel .default).Builds := trivial
  obtain ⟨m, hm, hone⟩ := vector_lengths_iff (c := .binaryQuantized) (i := 0) rfl noEntries_empty
    (by decide) rfl hop hbuild
  obtain rfl : m' = m := Option.some.inj (hm'.symm.trans hm)
  obtain ⟨hdim, hitems⟩ := Prod.mk.inj h
  refine ⟨db, m', hbuild, hm, hdim, hitems, rfl, hone.mpr fun x w' v hx => ?_⟩
  simp only [twoWriters, List.tail_cons, lastStored] at hx
  split_ifs at hx
  · cases hx
    rfl
  · cases hx
    rfl

end Hannoy.Index
