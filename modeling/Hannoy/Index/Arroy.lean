import Hannoy.Index.Convert
import Hannoy.Index.Run

/-!
# What an arroy conversion leaves (`writer.rs:289-353`)

`prepare_arroy_conversion` walks over every entry of the index, keeps the items and deletes what it
cannot decode as one: tree nodes, metadata, versions, stones. Every item it keeps is marked as
updated, so that the next build inserts them all.

* `prepareArroyConversion_ok`: the database a conversion leaves, whatever the index held.
* `consistent_of_arroy`: it is an index without a graph whose items wait for a build.
-/

namespace Hannoy.Index

open Hannoy.Library Hannoy.Library.Txn Hannoy.Writer

variable {D : Distance} {w : Writer} {env : Environment} {decode : Value → Decoded} {i : UInt16}
  {db db' : Database}

/-- The entry is kept: it is under the key of an item and can be decoded as one. -/
def keptEntry (decode : Value → Decoded) (e : Key × Value) : Bool :=
  match e.1.node.mode, decode e.2 with
  | .item, .node (.item _) => true
  | _, _ => false

theorem keptEntry_iff {k : Key} {v : Value} :
    keptEntry decode (k, v) = true ↔ k.node.mode = .item ∧ ∃ it, decode v = .node (.item it) := by
  unfold keptEntry
  constructor
  · intro h
    split at h
    · next hmode hdec => exact ⟨hmode, _, hdec⟩
    · cases h
  · rintro ⟨hmode, it, hdec⟩
    simp only [hmode, hdec]

/-- The keys of the entries that are deleted. -/
def uselessKeys (decode : Value → Decoded) (i : UInt16) (db : Database) : List Key :=
  ((db.prefixIter (Prefix.all i)).filter fun e => !keptEntry decode e).map Prod.fst

/-- The items that are kept. -/
def keptItems (decode : Value → Decoded) (i : UInt16) (db : Database) : RoaringBitmap :=
  (((db.prefixIter (Prefix.all i)).filter (keptEntry decode)).map fun e => e.1.node.item).toFinset

theorem arroyLoop_ok {onDiskDim : Nat} : ∀ {entries : List (Key × Value)} {n : Nat}
    {newItems newItems' : RoaringBitmap} {db db' : Database},
    arroyLoop env D decode onDiskDim n entries newItems db = .ok newItems' db' →
      db' = db.deleteAll ((entries.filter fun e => !keptEntry decode e).map Prod.fst) ∧
        newItems' = newItems ∪
          ((entries.filter (keptEntry decode)).map fun e => e.1.node.item).toFinset
  | [], n, newItems, newItems', db, db', h => by
    unfold arroyLoop at h
    simp only [bind_ok_iff, RwTxn.check_ok_iff, pure_ok_iff] at h
    obtain ⟨_, _, ⟨-, rfl⟩, rfl, rfl⟩ := h
    exact ⟨rfl, by simp⟩
  | (k, v) :: entries, n, newItems, newItems', db, db', h => by
    unfold arroyLoop at h
    rw [bind_ok_iff] at h
    obtain ⟨_, _, hcheck, h⟩ := h
    obtain ⟨-, rfl⟩ := RwTxn.check_ok_iff.mp hcheck
    by_cases hkept : keptEntry decode (k, v) = true
    · obtain ⟨hmode, it, hdec⟩ := keptEntry_iff.mp hkept
      simp only [hmode, hdec] at h
      split_ifs at h
      · cases h
      · obtain ⟨hdb, hnew⟩ := arroyLoop_ok h
        rw [List.filter_cons_of_neg (by simpa using hkept), List.filter_cons_of_pos hkept,
          List.map_cons, List.toFinset_cons, Finset.union_insert, ← Finset.insert_union]
        exact ⟨hdb, hnew⟩
    · rw [List.filter_cons_of_pos (by simpa using hkept), List.filter_cons_of_neg hkept]
      generalize hmode : k.node.mode = mode at h
      generalize hdec : decode v = decoded at h
      split at h
      · cases h
      · exact absurd (keptEntry_iff.mpr ⟨hmode, _, hdec⟩) hkept
      · simp only [bind_ok_iff, RwTxn.check_ok_iff, modify_ok_iff] at h
        obtain ⟨_, _, ⟨-, rfl⟩, _, _, rfl, h⟩ := h
        exact arroyLoop_ok h

/-- **What a conversion that returns leaves**: the items it kept, and a stone for each. -/
theorem prepareArroyConversion_ok {u : Unit}
    (h : w.prepareArroyConversion env D decode db = .ok u db') :
    db' = (db.deleteAll (uselessKeys decode w.index db)).putAll
      ((ascending (keptItems decode w.index db)).map fun x =>
        (Key.updated w.index x, Value.status .updated)) := by
  unfold prepareArroyConversion at h
  simp only [bind_ok_iff, get_ok_iff] at h
  obtain ⟨_, _, ⟨rfl, rfl⟩, newItems, _, hloop, hstones⟩ := h
  obtain ⟨rfl, rfl⟩ := arroyLoop_ok hloop
  rw [Finset.empty_union] at hstones
  exact putStones_ok hstones

/-! ## The entries afterwards -/

/-- Entries that can be decoded as items are kept decoded, under the keys of items. -/
def Decodes (decode : Value → Decoded) (i : UInt16) (db : Database) : Prop :=
  ∀ k v it, db[k]? = some v → k.index = i → k.node.mode = .item → decode v = .node (.item it) →
    k = Key.item i k.node.item ∧ v = .node (.item it)

theorem mem_prefixIter_all {k : Key} {v : Value} :
    (k, v) ∈ db.prefixIter (Prefix.all i) ↔ db[k]? = some v ∧ k.index = i := by
  rw [Database.mem_prefixIter]
  exact ⟨fun h => ⟨h.1, h.2.1⟩, fun h => ⟨h.1, h.2, fun m hm => by cases hm⟩⟩

theorem mem_keptItems {x : ItemId} : x ∈ keptItems decode i db ↔
    ∃ (k : Key) (v : Value) (it : Item), db[k]? = some v ∧ k.index = i ∧ k.node.mode = .item ∧
      k.node.item = x ∧ decode v = .node (.item it) := by
  simp only [keptItems, List.mem_toFinset, List.mem_map, List.mem_filter]
  constructor
  · rintro ⟨⟨k, v⟩, ⟨he, hkept⟩, rfl⟩
    obtain ⟨hk, hi⟩ := mem_prefixIter_all.mp he
    obtain ⟨hmode, it, hdec⟩ := keptEntry_iff.mp hkept
    exact ⟨k, v, it, hk, hi, hmode, rfl, hdec⟩
  · rintro ⟨k, v, it, hk, hi, hmode, rfl, hdec⟩
    exact ⟨(k, v), ⟨mem_prefixIter_all.mpr ⟨hk, hi⟩, keptEntry_iff.mpr ⟨hmode, it, hdec⟩⟩, rfl⟩

/-- A conversion of the index: what every entry is afterwards. -/
structure FromArroy (decode : Value → Decoded) (i : UInt16) (db db' : Database) : Prop where
  stone : ∀ x ∈ keptItems decode i db, db'[Key.updated i x]? = some (.status .updated)
  rest : ∀ k : Key, k.index = i → (∀ x ∈ keptItems decode i db, k ≠ Key.updated i x) →
    ∀ v, db'[k]? = some v ↔ db[k]? = some v ∧ keptEntry decode (k, v) = true

theorem prepareArroyConversion_fromArroy {u : Unit}
    (h : w.prepareArroyConversion env D decode db = .ok u db') :
    FromArroy decode w.index db db' := by
  obtain rfl := prepareArroyConversion_ok h
  refine ⟨fun x hx => ?_, fun k hi hk v => ?_⟩
  · refine Database.getElem?_putAll_of_mem _ (fun v' hv' => ?_)
      (List.mem_map.mpr ⟨x, mem_ascending.mpr hx, rfl⟩)
    obtain ⟨y, -, heq⟩ := List.mem_map.mp hv'
    cases heq
    rfl
  · rw [Database.getElem?_putAll_of_notMem, Database.getElem?_deleteAll]
    · have huseless : k ∈ uselessKeys decode w.index db ↔
          ∃ v, db[k]? = some v ∧ keptEntry decode (k, v) = false := by
        simp only [uselessKeys, List.mem_map, List.mem_filter, Bool.not_eq_true']
        constructor
        · rintro ⟨⟨k', v'⟩, ⟨he, hkept⟩, rfl⟩
          exact ⟨v', (mem_prefixIter_all.mp he).1, hkept⟩
        · rintro ⟨v', hv', hkept⟩
          exact ⟨(k, v'), ⟨mem_prefixIter_all.mpr ⟨hv', hi⟩, hkept⟩, rfl⟩
      split_ifs with hmem
      · obtain ⟨v', hv', hkept⟩ := huseless.mp hmem
        refine iff_of_false (by simp) fun ⟨hv, hkept'⟩ => ?_
        rw [hv] at hv'
        cases hv'
        rw [hkept] at hkept'
        cases hkept'
      · refine ⟨fun hv => ⟨hv, ?_⟩, And.left⟩
        by_contra hkept
        exact hmem (huseless.mpr ⟨v, hv, Bool.eq_false_iff.mpr hkept⟩)
    · intro v' hv'
      obtain ⟨x, hx, heq⟩ := List.mem_map.mp hv'
      cases heq
      exact hk x (mem_ascending.mp hx) rfl

namespace FromArroy

/-- An entry is a stone of a kept item, or a kept item. -/
theorem entry (h : FromArroy decode i db db') (hdec : Decodes decode i db) {k : Key} {v : Value}
    (hk : db'[k]? = some v) (hi : k.index = i) :
    (∃ x ∈ keptItems decode i db, k = Key.updated i x ∧ v = .status .updated) ∨
      ∃ x ∈ keptItems decode i db, ∃ it, k = Key.item i x ∧ v = .node (.item it) := by
  by_cases hstone : ∃ x ∈ keptItems decode i db, k = Key.updated i x
  · obtain ⟨x, hx, rfl⟩ := hstone
    rw [h.stone x hx] at hk
    cases hk
    exact Or.inl ⟨x, hx, rfl, rfl⟩
  · obtain ⟨hk, hkept⟩ := (h.rest k hi (fun x hx heq => hstone ⟨x, hx, heq⟩) v).mp hk
    obtain ⟨hmode, it, hit⟩ := keptEntry_iff.mp hkept
    obtain ⟨hkey, rfl⟩ := hdec k v it hk hi hmode hit
    exact Or.inr ⟨k.node.item, mem_keptItems.mpr ⟨k, _, it, hk, hi, hmode, rfl, hit⟩, it, hkey, rfl⟩

theorem item? (h : FromArroy decode i db db') (hdec : Decodes decode i db) (x : ItemId) :
    (db'.item? i x).isSome ↔ x ∈ keptItems decode i db := by
  constructor
  · intro hx
    obtain ⟨it, hit⟩ := Option.isSome_iff_exists.mp hx
    rcases h.entry hdec (getElem?_of_item? hit) rfl with ⟨y, -, hkey, -⟩ | ⟨y, hy, -, hkey, -⟩
    · cases hkey
    · cases hkey
      exact hy
  · intro hx
    obtain ⟨k, v, it, hk, hi, hmode, rfl, hit⟩ := mem_keptItems.mp hx
    obtain ⟨hkey, rfl⟩ := hdec k v it hk hi hmode hit
    have hk' := (h.rest k hi (fun y _ heq => by rw [heq] at hmode; cases hmode) _).mpr
      ⟨hk, keptEntry_iff.mpr ⟨hmode, it, hit⟩⟩
    rw [Database.item?, ← hkey, hk']
    rfl

/-- **A converted index waits for its first build.** -/
theorem consistent (h : FromArroy decode i db db') (hdec : Decodes decode i db) :
    Consistent i db' := by
  have hnone : ∀ k : Key, k.index = i → k.node.mode ≠ .updated → k.node.mode ≠ .item →
      db'[k]? = none := by
    intro k hi hupdated hitem
    refine Option.eq_none_iff_forall_ne_some.mpr fun v hv => ?_
    rcases h.entry hdec hv hi with ⟨y, -, rfl, -⟩ | ⟨y, -, it, rfl, -⟩
    · exact hupdated rfl
    · exact hitem rfl
  refine consistent_of_no_graph (fun k v hk hi => ?_) (fun x l => ?_) ?_ fun x => ?_
  · rcases h.entry hdec hk hi with ⟨y, -, rfl, rfl⟩ | ⟨y, -, it, rfl, rfl⟩
    · exact .updated y _
    · exact .item y it
  · rw [Database.links?, hnone _ rfl (by simp [Key.links]) (by simp [Key.links])]
  · rw [Database.metadata?, hnone _ rfl (by simp [Key.metadata]) (by simp [Key.metadata])]
  · rw [h.item? hdec]
    constructor
    · intro hx
      rw [Database.stone?, h.stone x hx]
    · intro hx
      unfold Database.stone? at hx
      split at hx
      · next s hk =>
        rcases h.entry hdec hk rfl with ⟨y, hy, hkey, -⟩ | ⟨y, -, it, hkey, -⟩
        · cases hkey
          exact hy
        · cases hkey
      · cases hx

end FromArroy

end Hannoy.Index
