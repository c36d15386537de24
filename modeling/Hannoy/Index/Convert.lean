import Hannoy.Index.Run
import Hannoy.Model.Convert
import Hannoy.Model.Distances

/-!
# Changing the distance of an index (`writer.rs:355-410`)

`prepare_changing_distance` reads every stored item back, padding included, and stores what the new
codec makes of it.

* `Converted`: the entries of the database afterwards, kind by kind;
  `prepareChangingDistance_converted` shows that every call that returns leaves them so.
* `reencodes_iff`: an item is stored as `add_item` would store its vector exactly when the new
  codec keeps nothing of the padding.
* `padding_becomes_coordinates`: a quantized vector of one coordinate becomes a plain one of 64.
-/

namespace Hannoy.Index

open Hannoy.Library Hannoy.Library.Txn Hannoy.Writer

variable {D ND : Distance} {w w' : Writer} {env : Environment} {db db' : Database} {i : UInt16}

/-! ## The steps of a conversion -/

/-- A value with its vector read with one distance and stored with another. -/
def reencode (D ND : Distance) : Value → Value
  | .node (.item item) => .node (.item (Item.ofVector ND (D.codec.toVec item.vector)))
  | v => v

/-- An entry under the item cursor, rewritten. -/
def reencodeEntry (D ND : Distance) (e : Key × Value) : Key × Value := (e.1, reencode D ND e.2)

/-- What the conversion leaves of links and metadata. -/
def keptGraph (D ND : Distance) (i : UInt16) (db : Database) : Database :=
  if keepsLinks D ND then db
  else (db.deleteAll ((db.prefixIter (Prefix.links i)).map Prod.fst)).delete (Key.metadata i)

theorem deleteLoop_ok {next del : Nat → Site} : ∀ {n : Nat} {keys : List Key} {u : Unit}
    {db db' : Database}, deleteLoop env next del n keys db = .ok u db' → db' = db.deleteAll keys
  | n, [], u, db, db', h => (RwTxn.check_ok_iff.mp h).2
  | n, k :: keys, u, db, db', h => by
    unfold deleteLoop at h
    simp only [bind_ok_iff, RwTxn.check_ok_iff, modify_ok_iff] at h
    obtain ⟨_, _, ⟨-, rfl⟩, _, _, ⟨-, rfl⟩, _, _, rfl, h⟩ := h
    have hrest := deleteLoop_ok h
    exact hrest

theorem putStones_ok : ∀ {n : Nat} {l : List ItemId} {u : Unit} {db db' : Database},
    putStones env i n l db = .ok u db' →
      db' = db.putAll (l.map fun x => (Key.updated i x, Value.status .updated))
  | n, [], u, db, db', h => by
    cases h
    rfl
  | n, x :: l, u, db, db', h => by
    unfold putStones at h
    simp only [bind_ok_iff, RwTxn.check_ok_iff, modify_ok_iff] at h
    obtain ⟨_, _, ⟨-, rfl⟩, _, _, rfl, h⟩ := h
    exact putStones_ok (l := l) h

theorem clearGraph_ok {x : Unit} (h : w.clearGraph env D ND db = .ok x db') :
    db' = keptGraph D ND w.index db := by
  unfold clearGraph at h
  unfold keptGraph
  split_ifs at h ⊢
  · exact (pure_ok_iff.mp h).2
  · simp only [clearLinks, bind_ok_iff, get_ok_iff, RwTxn.check_ok_iff, modify_ok_iff] at h
    obtain ⟨_, _, ⟨_, _, ⟨rfl, rfl⟩, hdel⟩, _, _, ⟨-, rfl⟩, rfl⟩ := h
    rw [deleteLoop_ok hdel]

theorem reencodeLoop_ok : ∀ {n : Nat} {entries : List (Key × Value)}
    {updated updated' : RoaringBitmap} {db db' : Database},
    reencodeLoop env D ND n entries updated db = .ok updated' db' →
      (∀ e ∈ entries, ∃ it, e.2 = .node (.item it)) ∧
      db' = db.putAll (entries.map (reencodeEntry D ND)) ∧
      ∀ x, x ∈ updated' ↔ x ∈ updated ∨ ∃ e ∈ entries, e.1.node.item = x
  | n, [], updated, updated', db, db', h => by
    unfold reencodeLoop at h
    simp only [bind_ok_iff, RwTxn.check_ok_iff, pure_ok_iff] at h
    obtain ⟨_, _, ⟨-, rfl⟩, rfl, rfl⟩ := h
    exact ⟨fun e he => absurd he List.not_mem_nil, rfl, fun x => by simp⟩
  | n, (k, v) :: entries, updated, updated', db, db', h => by
    unfold reencodeLoop at h
    rw [bind_ok_iff] at h
    obtain ⟨_, _, hcheck, h⟩ := h
    obtain ⟨-, rfl⟩ := RwTxn.check_ok_iff.mp hcheck
    split at h
    · rename_i item
      simp only [bind_ok_iff, RwTxn.check_ok_iff, modify_ok_iff] at h
      obtain ⟨_, _, ⟨-, rfl⟩, _, _, rfl, h⟩ := h
      obtain ⟨hitems, hdb, hupdated⟩ := reencodeLoop_ok h
      refine ⟨List.forall_mem_cons.mpr ⟨⟨item, rfl⟩, hitems⟩, hdb, fun x => ?_⟩
      rw [hupdated, Finset.mem_insert]
      constructor
      · rintro ((rfl | hx) | ⟨e, he, hx⟩)
        · exact Or.inr ⟨_, List.mem_cons_self, rfl⟩
        · exact Or.inl hx
        · exact Or.inr ⟨e, List.mem_cons_of_mem _ he, hx⟩
      · rintro (hx | ⟨e, he, hx⟩)
        · exact Or.inl (Or.inr hx)
        · rcases List.mem_cons.mp he with rfl | he
          · exact Or.inl (Or.inl hx.symm)
          · exact Or.inr ⟨e, he, hx⟩
    · cases h
    · cases h

/-! ## The entries afterwards -/

/-- **What a conversion does to the entries of the database.** -/
structure Converted (D ND : Distance) (i : UInt16) (db db' : Database) : Prop where
  stored : ∀ {k v}, db[k]? = some v → (Prefix.item i).Selects k → ∃ it, v = .node (.item it)
  item : ∀ {k}, (Prefix.item i).Selects k → db'[k]? = (db[k]?).map (reencode D ND)
  stone : ∀ {k}, (Prefix.item i).Selects k → db[k]?.isSome →
    db'[Key.updated i k.node.item]? = some (.status .updated)
  /-- Every other entry is left alone, apart from links and metadata. -/
  rest : ∀ {k}, ¬ (Prefix.item i).Selects k →
    (∀ k', (Prefix.item i).Selects k' → db[k']?.isSome → k ≠ Key.updated i k'.node.item) →
    db'[k]? = (keptGraph D ND i db)[k]?

theorem selects_item {k : Key} :
    (Prefix.item i).Selects k ↔ k.index = i ∧ k.node.mode = .item := by
  constructor
  · exact fun h => ⟨h.1, h.2 _ rfl⟩
  · rintro ⟨hi, hm⟩
    exact ⟨hi, fun m hm' => by cases hm'; exact hm⟩

theorem getElem?_keptGraph {k : Key} (h : k.index ≠ i ∨ k.node.mode = .item ∨
    k.node.mode = .updated) : (keptGraph D ND i db)[k]? = db[k]? := by
  unfold keptGraph
  split_ifs
  · rfl
  rw [Database.getElem?_delete, if_neg, Database.getElem?_deleteAll, if_neg]
  · intro hk
    obtain ⟨⟨k', v⟩, hmem, rfl⟩ := List.mem_map.mp hk
    obtain ⟨-, hi, hm⟩ := Database.mem_prefixIter.mp hmem
    rcases h with h | h | h
    · exact h hi
    · exact absurd (hm _ rfl) (by rw [h]; decide)
    · exact absurd (hm _ rfl) (by rw [h]; decide)
  · rintro rfl
    rcases h with h | h | h
    · exact h rfl
    · cases h
    · cases h

theorem mem_prefixIter_keptGraph {k : Key} {v : Value} :
    (k, v) ∈ (keptGraph D ND i db).prefixIter (Prefix.item i) ↔
      db[k]? = some v ∧ (Prefix.item i).Selects k := by
  rw [Database.mem_prefixIter]
  have hlookup : (Prefix.item i).Selects k → (keptGraph D ND i db)[k]? = db[k]? := fun hk =>
    getElem?_keptGraph (Or.inr (Or.inl (selects_item.mp hk).2))
  exact ⟨fun h => ⟨hlookup h.2 ▸ h.1, h.2⟩, fun h => ⟨(hlookup h.2).trans h.1, h.2⟩⟩

/-- The items after they are encoded again. -/
theorem getElem?_reencoded {k : Key} (hsel : (Prefix.item i).Selects k) :
    ((keptGraph D ND i db).putAll (((keptGraph D ND i db).prefixIter (Prefix.item i)).map
      (reencodeEntry D ND)))[k]? = (db[k]?).map (reencode D ND) := by
  cases hk : db[k]? with
  | none =>
    rw [Database.getElem?_putAll_of_notMem,
      getElem?_keptGraph (Or.inr (Or.inl (selects_item.mp hsel).2)), hk]
    · rfl
    · intro v hv
      obtain ⟨⟨k', v'⟩, he, heq⟩ := List.mem_map.mp hv
      cases heq
      rw [(mem_prefixIter_keptGraph.mp he).1] at hk
      cases hk
  | some v =>
    refine Database.getElem?_putAll_of_mem _ (fun v' hv' => ?_)
      (List.mem_map.mpr ⟨(k, v), mem_prefixIter_keptGraph.mpr ⟨hk, hsel⟩, rfl⟩)
    obtain ⟨⟨k', v''⟩, he, heq⟩ := List.mem_map.mp hv'
    cases heq
    rw [(mem_prefixIter_keptGraph.mp he).1] at hk
    cases hk
    rfl

/-- Only items are encoded again. -/
theorem getElem?_not_reencoded {k : Key} (hsel : ¬ (Prefix.item i).Selects k) :
    ((keptGraph D ND i db).putAll (((keptGraph D ND i db).prefixIter (Prefix.item i)).map
      (reencodeEntry D ND)))[k]? = (keptGraph D ND i db)[k]? := by
  refine Database.getElem?_putAll_of_notMem _ _ fun v hv => ?_
  obtain ⟨⟨k', v'⟩, he, heq⟩ := List.mem_map.mp hv
  cases heq
  exact hsel (mem_prefixIter_keptGraph.mp he).2

variable {T : Type} [DecidableEq T] {dist : T → Distance} {t u : T}

/-- A conversion to the same distance does nothing. -/
theorem prepareChangingDistance_same
    (h : w.prepareChangingDistance env dist t t db = .ok w' db') : w' = w ∧ db' = db := by
  unfold prepareChangingDistance at h
  rw [if_neg (not_not.mpr rfl)] at h
  exact pure_ok_iff.mp h

/-- The phases of a conversion that returns. -/
theorem prepareChangingDistance_ok (hne : u ≠ t)
    (h : w.prepareChangingDistance env dist t u db = .ok w' db') :
    w' = w ∧ ∃ updated : RoaringBitmap,
      (∀ e ∈ (keptGraph (dist t) (dist u) w.index db).prefixIter (Prefix.item w.index),
        ∃ it, e.2 = .node (.item it)) ∧
      (∀ x, x ∈ updated ↔
        ∃ e ∈ (keptGraph (dist t) (dist u) w.index db).prefixIter (Prefix.item w.index),
          e.1.node.item = x) ∧
      db' = ((keptGraph (dist t) (dist u) w.index db).putAll
        (((keptGraph (dist t) (dist u) w.index db).prefixIter (Prefix.item w.index)).map
          (reencodeEntry (dist t) (dist u)))).putAll
        ((ascending updated).map fun x => (Key.updated w.index x, Value.status .updated)) := by
  unfold prepareChangingDistance at h
  rw [if_pos hne] at h
  simp only [bind_ok_iff, pure_ok_iff] at h
  obtain ⟨_, _, hclear, _, _, hitems, rfl, rfl⟩ := h
  obtain rfl := clearGraph_ok hclear
  unfold reencodeItems at hitems
  simp only [bind_ok_iff, get_ok_iff] at hitems
  obtain ⟨_, _, ⟨rfl, rfl⟩, updated, _, hloop, hstones⟩ := hitems
  obtain ⟨hitems, rfl, hupdated⟩ := reencodeLoop_ok hloop
  refine ⟨rfl, updated, hitems, fun x => ?_, putStones_ok hstones⟩
  rw [hupdated]
  simp

theorem prepareChangingDistance_converted (hne : u ≠ t)
    (h : w.prepareChangingDistance env dist t u db = .ok w' db') :
    w' = w ∧ Converted (dist t) (dist u) w.index db db' := by
  obtain ⟨hw, updated, hitems, hupdated, hdb⟩ := prepareChangingDistance_ok hne h
  have hstones : ∀ {k : Key}, (∀ x ∈ updated, k ≠ Key.updated w.index x) →
      db'[k]? = ((keptGraph (dist t) (dist u) w.index db).putAll
        (((keptGraph (dist t) (dist u) w.index db).prefixIter (Prefix.item w.index)).map
          (reencodeEntry (dist t) (dist u))))[k]? := by
    intro k hk
    rw [hdb, Database.getElem?_putAll_of_notMem]
    intro v hv
    obtain ⟨x, hx, heq⟩ := List.mem_map.mp hv
    cases heq
    exact hk x (mem_ascending.mp hx) rfl
  refine ⟨hw, fun hk hsel => ?_, fun {k} hsel => ?_, fun {k} hsel hk => ?_, fun {k} hsel hk => ?_⟩
  · exact hitems _ (mem_prefixIter_keptGraph.mpr ⟨hk, hsel⟩)
  · have hmode := (selects_item.mp hsel).2
    rw [hstones fun x _ hx => by rw [hx] at hmode; cases hmode]
    exact getElem?_reencoded hsel
  · obtain ⟨v, hv⟩ := Option.isSome_iff_exists.mp hk
    have hx : k.node.item ∈ updated :=
      (hupdated _).mpr ⟨(k, v), mem_prefixIter_keptGraph.mpr ⟨hv, hsel⟩, rfl⟩
    rw [hdb]
    refine Database.getElem?_putAll_of_mem _ (fun v' hv' => ?_)
      (List.mem_map.mpr ⟨_, mem_ascending.mpr hx, rfl⟩)
    obtain ⟨y, -, heq⟩ := List.mem_map.mp hv'
    cases heq
    rfl
  · rw [hstones]
    · exact getElem?_not_reencoded hsel
    · intro x hx
      obtain ⟨⟨k', v'⟩, he, rfl⟩ := (hupdated x).mp hx
      obtain ⟨hk', hsel'⟩ := mem_prefixIter_keptGraph.mp he
      exact hk k' hsel' (by rw [hk']; rfl)

/-! ## The vectors of the user -/

/-- Item `x` is stored as `add_item` stores `v`, it is marked as updated, and no item entry
changes but those of the stored items of the index. -/
structure Reencoded (ND : Distance) (w : Writer) (x : ItemId) (v : List F32)
    (db db' : Database) : Prop where
  entry : ∀ {db₁ db₂}, w.addItem ND x v db₁ = .ok () db₂ →
    db'[Key.item w.index x]? = db₂[Key.item w.index x]?
  stone : db'.stone? w.index x = some .updated
  others : ∀ {k : Key}, k.node.mode = .item → k.index ≠ w.index ∨ db[k]? = none → db'[k]? = db[k]?

theorem ofVector_inj {v v' : List F32} :
    Item.ofVector D v = Item.ofVector D v' ↔ D.codec.fromSlice v = D.codec.fromSlice v' := by
  constructor
  · exact fun h => congrArg Item.vector h
  · intro h
    rw [Item.ofVector, Item.ofVector, h]

theorem getElem?_addItem {x : ItemId} {v : List F32} {u : Unit}
    (h : w.addItem D x v db = .ok u db') :
    db'[Key.item w.index x]? = some (.node (.item (Item.ofVector D v))) := by
  unfold addItem at h
  by_cases hlen : v.length ≠ w.dimensions
  · rw [if_pos hlen] at h
    cases h
  · rw [if_neg hlen] at h
    simp only [bind_ok_iff, modify_ok_iff] at h
    obtain ⟨_, _, rfl, rfl⟩ := h
    rw [Database.getElem?_put, if_neg (by simp [Key.item, Key.updated]), Database.getElem?_put,
      if_pos rfl]

theorem getElem?_of_item? {x : ItemId} {it : Item} (h : db.item? i x = some it) :
    db[Key.item i x]? = some (.node (.item it)) := by
  unfold Database.item? at h
  split at h
  · cases h
    assumption
  · cases h

/-- Where the items end up, in terms of what the new codec stores. -/
theorem Converted.reencoded_iff (h : Converted D ND w.index db db') {x : ItemId} {it : Item}
    (hit : db.item? w.index x = some it) {v : List F32} (hlen : v.length = w.dimensions) :
    Reencoded ND w x v db db' ↔
      ND.codec.fromSlice (D.codec.toVec it.vector) = ND.codec.fromSlice v := by
  have hsel : (Prefix.item w.index).Selects (Key.item w.index x) := selects_item.mpr ⟨rfl, rfl⟩
  have hk := getElem?_of_item? hit
  have hk' : db'[Key.item w.index x]? =
      some (.node (.item (Item.ofVector ND (D.codec.toVec it.vector)))) := by
    rw [h.item hsel, hk]
    rfl
  have hadd : w.addItem ND x v db = .ok () ((db.put (Key.item w.index x)
      (.node (.item (Item.ofVector ND v)))).put (Key.updated w.index x) (.status .updated)) := by
    unfold addItem
    rw [if_neg (not_not.mpr hlen)]
    rfl
  rw [← ofVector_inj]
  constructor
  · intro hre
    have hentry := hre.entry hadd
    rw [hk', getElem?_addItem hadd] at hentry
    simpa using hentry
  · intro heq
    refine ⟨fun h₂ => ?_, ?_, fun {k} hmode hk => ?_⟩
    · rw [hk', getElem?_addItem h₂, heq]
    · have hstone := h.stone hsel (by rw [hk]; rfl)
      rw [Database.stone?, show Key.updated w.index x = Key.updated w.index
        (Key.item w.index x).node.item from rfl, hstone]
    · rcases hk with hi | hk
      · rw [h.rest (fun hs => hi hs.1) fun k' _ _ heq => hi (by rw [heq]; rfl),
          getElem?_keptGraph (Or.inl hi)]
      · by_cases hi : k.index = w.index
        · rw [h.item (selects_item.mpr ⟨hi, hmode⟩), hk]
          rfl
        · rw [h.rest (fun hs => hi hs.1) fun k' _ _ heq => hi (by rw [heq]; rfl),
            getElem?_keptGraph (Or.inl hi)]

/-- **A conversion keeps the vectors of the user** exactly when the new codec keeps nothing of what
the stored vector reads back as beyond its dimensions. For a vector stored by `add_item` this means
that the old codec is the plain one, that there is no padding, or that both codecs are packed and
the new one does not take the zeros of `Binary` for positive signs. -/
theorem reencodes_iff {c nc : VectorCodec} (hc : (dist t).codec = c.codec)
    (hnc : (dist u).codec = nc.codec) (hne : u ≠ t)
    (h : w.prepareChangingDistance env dist t u db = .ok w' db') {x : ItemId} {v : List F32}
    (hx : w.itemVector (dist t) db x = .ok (some v)) (hlen : v.length = w.dimensions) :
    ∃ it, db.item? w.index x = some it ∧
      (Reencoded (dist u) w' x v db db' ↔
        nc.KeepsNothingBeyond w.dimensions (c.codec.toVec it.vector)) ∧
      ∀ v₀ : List F32, v₀.length = w.dimensions → it = Item.ofVector (dist t) v₀ →
        (Reencoded (dist u) w' x v db db' ↔ c = .f32 ∨ 64 ∣ w.dimensions ∨
          (nc ≠ .f32 ∧ ¬ (c = .binary ∧ nc = .binaryQuantized))) := by
  obtain ⟨rfl, hconv⟩ := prepareChangingDistance_converted hne h
  obtain ⟨it, hit, rfl⟩ : ∃ it, db.item? w'.index x = some it ∧
      v = it.toVector (dist t) w'.dimensions := by
    rw [Writer.itemVector] at hx
    cases hget : db.getItem w'.index x with
    | error e =>
      rw [hget] at hx
      cases hx
    | ok found =>
      rw [hget] at hx
      obtain ⟨it, rfl, hv⟩ := Option.map_eq_some_iff.mp (Except.ok.inj hx)
      exact ⟨it, Database.item?_of_getItem hget, hv.symm⟩
  have hcut : w'.dimensions ≤ (c.codec.toVec it.vector).length := by
    rw [Item.toVector, List.length_take, hc] at hlen
    omega
  have hiff : Reencoded (dist u) w' x (it.toVector (dist t) w'.dimensions) db db' ↔
      nc.KeepsNothingBeyond w'.dimensions (c.codec.toVec it.vector) := by
    rw [hconv.reencoded_iff hit hlen, ← VectorCodec.fromSlice_take hcut, Item.toVector, hc, hnc]
  refine ⟨it, hit, hiff, ?_⟩
  rintro v₀ hv₀ rfl
  rw [hiff, ← hv₀, Item.ofVector, hc, keepsNothing_fromSlice]

/-! ## Two Manhattan distances -/

/-- The Manhattan distances: the plain one and its quantized version. -/
def manhattans : Bool → Distance
  | false => manhattan
  | true => binaryQuantizedManhattan

/-- One quantized item of one coordinate. -/
def oneQuantized : Database :=
  ((∅ : Database).put (Key.item 0 0)
    (.node (.item (Item.ofVector binaryQuantizedManhattan [F32.one])))).put
      (Key.updated 0 0) (.status .updated)

example : committed (Writer.addItem binaryQuantizedManhattan ⟨0, 1⟩ 0 [F32.one] ∅) =
    some oneQuantized := rfl

theorem itemVector_oneQuantized :
    (⟨0, 1⟩ : Writer).itemVector binaryQuantizedManhattan oneQuantized 0 =
      .ok (some [F32.one]) := by
  have hget : oneQuantized.getItem 0 0 =
      .ok (some (Item.ofVector binaryQuantizedManhattan [F32.one])) :=
    ok_of_toOption (by decide +kernel)
  have hvector : (Item.ofVector binaryQuantizedManhattan [F32.one]).toVector
      binaryQuantizedManhattan 1 = [F32.one] := by decide +kernel
  rw [Writer.itemVector, hget]
  exact congrArg (fun v => Except.ok (some v)) hvector

/-- Moving to the plain distance. -/
theorem dequantized : ∃ db', (⟨0, 1⟩ : Writer).prepareChangingDistance .oneLevel manhattans true
    false oneQuantized = .ok ⟨0, 1⟩ db' := by
  have h : (committed ((⟨0, 1⟩ : Writer).prepareChangingDistance .oneLevel manhattans true false
      oneQuantized)).isSome := by decide +kernel
  obtain ⟨db', hdb⟩ := Option.isSome_iff_exists.mp h
  obtain ⟨w', hok⟩ := committed_eq_some hdb
  obtain ⟨rfl, -⟩ := prepareChangingDistance_converted (by decide) hok
  exact ⟨db', hok⟩

/-- The padding of one coordinate is taken for 63 coordinates. -/
theorem reencodes_dequantized : ∃ db' it,
    (⟨0, 1⟩ : Writer).prepareChangingDistance .oneLevel manhattans true false oneQuantized =
        .ok ⟨0, 1⟩ db' ∧ oneQuantized.item? 0 0 = some it ∧
      (Reencoded manhattan ⟨0, 1⟩ 0 [F32.one] oneQuantized db' ↔
        (binaryQuantizedCodec.toVec it.vector).length = 1) := by
  obtain ⟨db', hok⟩ := dequantized
  have hc : (manhattans true).codec = VectorCodec.binaryQuantized.codec := rfl
  have hnc : (manhattans false).codec = VectorCodec.f32.codec := rfl
  obtain ⟨it, hit, hiff, -⟩ := reencodes_iff hc hnc
    (by decide) hok itemVector_oneQuantized rfl
  exact ⟨db', it, hok, hit, hiff⟩

/-- A vector of one coordinate, moved from the quantized distance to the plain one, is stored as one
of 64 coordinates. -/
theorem padding_becomes_coordinates : ∃ db',
    (⟨0, 1⟩ : Writer).itemVector binaryQuantizedManhattan oneQuantized 0 = .ok (some [F32.one]) ∧
      (⟨0, 1⟩ : Writer).prepareChangingDistance .oneLevel manhattans true false oneQuantized =
        .ok ⟨0, 1⟩ db' ∧
      (db'.item? 0 0).map (fun it => f32Codec.len it.vector) = some 64 ∧
      ¬ Reencoded manhattan ⟨0, 1⟩ 0 [F32.one] oneQuantized db' := by
  obtain ⟨db', hok⟩ := dequantized
  obtain ⟨-, hconv⟩ := prepareChangingDistance_converted (by decide) hok
  have hit : oneQuantized.item? 0 0 =
      some (Item.ofVector binaryQuantizedManhattan [F32.one]) := by decide +kernel
  refine ⟨db', itemVector_oneQuantized, hok, ?_, fun hre => ?_⟩
  · have hk := hconv.item (selects_item.mpr ⟨rfl, rfl⟩ : (Prefix.item 0).Selects (Key.item 0 0))
    rw [Database.item?, hk, getElem?_of_item? hit]
    decide +kernel
  · exact absurd ((hconv.reencoded_iff hit rfl).mp hre) (by decide +kernel)

end Hannoy.Index
