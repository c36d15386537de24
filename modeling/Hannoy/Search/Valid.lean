import Hannoy.Index.Run

/-!
# The index a reader finds

`Reader.open` succeeds on an index with metadata and without stones. `Searchable` is what the
search of the graph relies on: the graph of the reader's snapshot is valid. `ValidIndex` adds that
the stored items encode vectors of the reader's dimensions.

Results:
* `open_ok_iff`: when a reader opens, and what it holds.
* `searchable_of_run`, `validIndex_of_run`: an index built by a run is searchable, and valid when
  its writers share their dimensions.
-/

namespace Hannoy.Search

open Hannoy.Library Hannoy.Index

variable {D : Distance} {i : UInt16} {db db' db₀ : Database} {r : Reader}

/-! ## Reads -/

theorem getItem_ok (hwt : db.WellTyped i) (x : ItemId) :
    db.getItem i x = .ok (db.item? i x) := by
  unfold Database.getItem Database.getNode Database.item?
  cases hk : db[Key.item i x]? with
  | none => rfl
  | some v =>
    cases hwt _ v hk rfl
    rfl

theorem getLinks_ok (hwt : db.WellTyped i) (x : ItemId) (l : Nat) :
    db.getLinks i x l = .ok (db.links? i x l.toUInt8) := by
  unfold Database.getLinks Database.getNode Database.links?
  cases hk : db[Key.links i x l.toUInt8]? with
  | none => rfl
  | some v =>
    cases hwt _ v hk rfl
    rfl

theorem getVersion_ok (hwt : db.WellTyped i) : ∃ v, db.getVersion i = .ok v := by
  unfold Database.getVersion
  cases hk : db[Key.version i]? with
  | none => exact ⟨_, rfl⟩
  | some v =>
    cases hwt _ v hk rfl
    exact ⟨_, rfl⟩

/-! ## Opening -/

/-- The reader of an index with metadata `m`. -/
def readerOf (i : UInt16) (m : Metadata) (version : Version) : Reader where
  index := i
  entryPoints := m.entryPoints
  maxLevel := m.maxLevel.toNat
  dimensions := m.dimensions.toNat
  items := m.items
  version

/-- **When a reader opens**, and what it holds. -/
theorem open_ok_iff (hwt : db.WellTyped i) : Reader.open D db i = .ok r ↔
    ∃ m version, db.metadata? i = some m ∧ db.getVersion i = .ok version ∧ D.name = m.distance ∧
      db.prefixIter (Prefix.updated i) = [] ∧ r = readerOf i m (version.getD ⟨0, 0, 0⟩) := by
  obtain ⟨version, hv⟩ := getVersion_ok hwt
  unfold Reader.open
  rw [getMetadata_ok hwt, hv]
  cases hm : db.metadata? i with
  | none =>
    constructor
    · intro h; cases h
    · rintro ⟨m, _, h, -⟩; cases h
  | some m =>
    simp only [bind, Except.bind]
    by_cases hname : D.name ≠ m.distance
    · rw [if_pos hname]
      constructor
      · intro h; cases h
      · rintro ⟨m', _, h, -, h', -⟩
        cases h
        exact absurd h' hname
    · rw [if_neg hname]
      by_cases hs : db.prefixIter (Prefix.updated i) = []
      · rw [if_neg (by simp [hs])]
        constructor
        · intro h
          cases h
          refine ⟨m, version, rfl, rfl, not_not.mp hname, hs, ?_⟩
          cases version <;> rfl
        · rintro ⟨m', version', h, h', -, -, rfl⟩
          cases h
          cases h'
          cases version <;> rfl
      · rw [if_pos (by simpa using hs)]
        constructor
        · intro h; cases h
        · rintro ⟨m', _, h, -, -, h', -⟩
          exact absurd h' hs

/-! ## Valid indexes -/

/-- The graph the reader searches is valid. -/
structure Searchable (r : Reader) (db : Database) : Prop where
  typed : db.WellTyped r.index
  items : ∀ x, x ∈ r.items ↔ (db.item? r.index x).isSome
  base : ∀ x ∈ r.items, ∃ s, db.links? r.index x 0 = some s
  owner : ∀ {x l s}, db.links? r.index x l = some s → x ∈ r.items
  closed : ∀ {x l s y}, db.links? r.index x l = some s → y ∈ s →
    ∃ s', db.links? r.index y l = some s'
  down : ∀ {x l k s}, db.links? r.index x l = some s → k ≤ l →
    ∃ s', db.links? r.index x k = some s'
  entry : ∀ ep ∈ r.entryPoints, ep ∈ r.items ∧
    ∀ k ≤ r.maxLevel, ∃ s, db.links? r.index ep k.toUInt8 = some s
  nonempty : r.items ≠ ∅ → r.entryPoints ≠ []
  height : r.maxLevel < 256
  nodup : r.entryPoints.Nodup

/-- A searchable index whose items encode vectors of the reader's dimensions. -/
structure ValidIndex (D : Distance) (r : Reader) (db : Database) : Prop
    extends Searchable r db where
  vectors : ∀ {x it}, db.item? r.index x = some it →
    ∃ v : List F32, v.length = r.dimensions ∧ it = Item.ofVector D v

theorem searchable_of_validGraph (hwt : db.WellTyped i) {m : Metadata} (h : ValidGraph i db m)
    (version : Version) : Searchable (readerOf i m version) db := by
  refine ⟨hwt, h.items, fun x hx => (h.base x).mp hx, fun hs => (h.items _).mpr (h.owner hs),
    h.closed, h.down, fun ep hep => ?_, h.nonempty, UInt8.toNat_lt _, h.nodup⟩
  obtain ⟨hstored, hlevels⟩ := h.entry ep hep
  refine ⟨(h.items ep).mpr hstored, fun k hk => hlevels _ ?_⟩
  rw [UInt8.le_iff_toNat_le, UInt8.toNat_ofNat_of_lt' (hk.trans_lt (UInt8.toNat_lt _))]
  exact hk

/-- **A reader that opens on a state of a run finds a searchable index.** -/
theorem searchable_of_run (h₀ : NoEntries i db₀) {tr : List (Writer × Op)}
    (hrun : Run D i db₀ tr db) (hopen : Reader.open D db i = .ok r) : Searchable r db := by
  have hc := hrun.consistent h₀
  obtain ⟨m, version, hm, -, -, hs, rfl⟩ := (open_ok_iff hc.typed).mp hopen
  exact searchable_of_validGraph hc.typed
    (validGraph_of_consistent hc (stone?_of_prefixIter_nil hs) hm) _

/-! ## The stored items, in order -/

theorem item_lt_iff {x y : ItemId} : Key.item i x < Key.item i y ↔ x < y := by
  show Key.toTuple _ < Key.toTuple _ ↔ _
  simp [Key.toTuple, Key.item, Prod.Lex.toLex_lt_toLex]

/-- The ids under the item prefix, ascending. -/
theorem map_item_prefixIter (hwt : db.WellTyped i) {s : RoaringBitmap}
    (hs : ∀ x, x ∈ s ↔ (db.item? i x).isSome) :
    (db.prefixIter (Prefix.item i)).map (fun e => e.1.node.item) = ascending s := by
  have hmem : ∀ {k v}, (k, v) ∈ db.prefixIter (Prefix.item i) →
      ∃ x it, k = Key.item i x ∧ v = .node (.item it) ∧ db.item? i x = some it :=
    fun h => (Database.mem_prefixIter_item hwt).mp h
  symm
  refine ascending_eq ?_ fun x => ?_
  · refine List.pairwise_map.mpr ((Database.pairwise_prefixIter _).imp_of_mem ?_)
    rintro ⟨k, v⟩ ⟨k', v'⟩ h h' hlt
    obtain ⟨x, it, rfl, -⟩ := hmem h
    obtain ⟨x', it', rfl, -⟩ := hmem h'
    exact item_lt_iff.mp hlt
  · rw [hs, List.mem_map]
    constructor
    · rintro ⟨⟨k, v⟩, h, rfl⟩
      obtain ⟨x, it, rfl, -, hx⟩ := hmem h
      show (db.item? i x).isSome
      rw [hx]
      rfl
    · intro hx
      obtain ⟨it, hit⟩ := Option.isSome_iff_exists.mp hx
      exact ⟨_, (Database.mem_prefixIter_item hwt).mpr ⟨x, it, rfl, rfl, hit⟩, rfl⟩

theorem Searchable.storedIds (h : Searchable r db) :
    (db.prefixIter (Prefix.item r.index)).map (fun e => e.1.node.item) = ascending r.items :=
  map_item_prefixIter h.typed h.items

end Hannoy.Search
