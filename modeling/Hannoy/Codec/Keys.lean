import Hannoy.Codec.Values
import Mathlib.Data.List.Lex

/-!
# Keys and their bytes (`key.rs`, `node_id.rs`)

LMDB compares the bytes of keys, and a prefix iteration walks from the first key that is not below
the prefix. Every field of a key is written in big endian with a fixed length, the index first, so
the bytes compare as the fields do.

* `bytesDecode_append`: a key is read back.
* `compare_bytesEncode`: keys compare bytewise as their indexes and then their nodes.
* `seek_stored`: the walk of LMDB over its bytes is `Database.prefixIter`.
* `key_order`: keys and their bytes are in the same order.
-/

namespace Hannoy.Codec

open Hannoy.Library

/-! ## Reading a key -/

theorem readBeU16_append (x : UInt16) (rest : List UInt8) :
    readBeU16 (u16ToBeBytes x ++ rest) = .ok x := by
  have hx := x.toNat_lt
  show Except.ok (UInt16.ofNat (2 ^ 8 * (x >>> 8).toUInt8.toNat + x.toUInt8.toNat)) = .ok x
  refine congrArg Except.ok (UInt16.toNat_inj.mp ?_)
  simp only [UInt16.toNat_toUInt8, UInt16.toNat_shiftRight, UInt16.toNat_ofNat',
    show (8 : UInt16).toNat % 16 = 8 from rfl, Nat.shiftRight_eq_div_pow]
  omega

theorem tryFrom_toU8 (m : NodeMode) : NodeMode.tryFrom m.toU8 = .ok m := by
  cases m <;> rfl

theorem lift_bind {α β : Type} (a : α) (f : α → Except KeyFailure β) :
    ((liftM (Except.ok a : Except DecodeFailure α) : Except KeyFailure α) >>= f) = f a := rfl

/-- **A key is read back**, whatever comes behind it. -/
theorem bytesDecode_append (k : Key) (rest : List UInt8) :
    KeyCodec.bytesDecode (k.bytesEncode ++ rest) = .ok k := by
  obtain ⟨index, mode, item, layer⟩ := k
  have hbytes : Key.bytesEncode ⟨index, mode, item, layer⟩ ++ rest =
      u16ToBeBytes index ++ ([mode.toU8] ++ (u32ToBeBytes item ++ ([layer] ++ rest))) := by
    simp only [Key.bytesEncode, List.append_assoc]
  have hindex : ∀ l, sliceFrom (u16ToBeBytes index ++ l) 2 = .ok l := sliceFrom_append rfl
  have hmode : ∀ l, sliceFrom ([mode.toU8] ++ l) 1 = .ok l := sliceFrom_append rfl
  have hitem : ∀ l, sliceFrom (u32ToBeBytes item ++ l) 4 = .ok l := sliceFrom_append rfl
  have hfirst : ∀ (b : UInt8) l, firstByte ([b] ++ l) = .ok b := fun _ _ => rfl
  rw [hbytes, KeyCodec.bytesDecode, readBeU16_append, lift_bind, hindex, lift_bind, hfirst,
    lift_bind, tryFrom_toU8]
  show (do
    let bytes ← sliceFrom ([mode.toU8] ++ (u32ToBeBytes item ++ ([layer] ++ rest))) 1
    let item ← readBeU32 bytes
    let bytes ← sliceFrom bytes 4
    let layer ← firstByte bytes
    pure ⟨index, ⟨mode, item, layer⟩⟩ : Except KeyFailure Key) = _
  rw [hmode, lift_bind, readBeU32_append, lift_bind, hitem, lift_bind, hfirst, lift_bind]
  rfl

/-! ## Comparing keys -/

theorem ofBigEndian_u16 (x : UInt16) : ofBigEndian (u16ToBeBytes x) = x.toNat := by
  have hx := x.toNat_lt
  simp only [u16ToBeBytes, ofBigEndian, List.length_cons, List.length_nil, UInt16.toNat_toUInt8,
    UInt16.toNat_shiftRight, show (8 : UInt16).toNat % 16 = 8 from rfl, Nat.shiftRight_eq_div_pow]
  omega

theorem ofBigEndian_u32 (x : UInt32) : ofBigEndian (u32ToBeBytes x) = x.toNat := by
  have hx := x.toNat_lt
  simp only [u32ToBeBytes, ofBigEndian, List.length_cons, List.length_nil, UInt32.toNat_toUInt8,
    UInt32.toNat_shiftRight, show (8 : UInt32).toNat % 32 = 8 from rfl,
    show (16 : UInt32).toNat % 32 = 16 from rfl, show (24 : UInt32).toNat % 32 = 24 from rfl,
    Nat.shiftRight_eq_div_pow]
  omega

theorem length_u16ToBeBytes (x : UInt16) : (u16ToBeBytes x).length = 2 := rfl

theorem length_u32ToBeBytes (x : UInt32) : (u32ToBeBytes x).length = 4 := rfl

theorem compare_u16 (x y : UInt16) : compare (u16ToBeBytes x) (u16ToBeBytes y) = compare x y := by
  rw [compare_ofBigEndian (by rw [length_u16ToBeBytes, length_u16ToBeBytes]), ofBigEndian_u16,
    ofBigEndian_u16]
  show compareOfLessAndEq x.toNat y.toNat = compareOfLessAndEq x y
  simp only [compareOfLessAndEq, UInt16.lt_iff_toNat_lt, UInt16.toNat_inj]

theorem compare_u32 (x y : UInt32) : compare (u32ToBeBytes x) (u32ToBeBytes y) = compare x y := by
  rw [compare_ofBigEndian (by rw [length_u32ToBeBytes, length_u32ToBeBytes]), ofBigEndian_u32,
    ofBigEndian_u32]
  show compareOfLessAndEq x.toNat y.toNat = compareOfLessAndEq x y
  simp only [compareOfLessAndEq, UInt32.lt_iff_toNat_lt, UInt32.toNat_inj]

theorem compare_singleton (x y : UInt8) : compare [x] [y] = compare x y := by
  rw [List.compare_cons_cons, List.compare_nil_nil, Ordering.then_eq]

/-- **Keys compare bytewise as their indexes and then their nodes.** -/
theorem compare_bytesEncode (a b : Key) : compare a.bytesEncode b.bytesEncode =
    (compare a.index b.index).then (compare a.node b.node) := by
  unfold Key.bytesEncode
  rw [compare_append, compare_append, compare_append, compare_u16, compare_u32, compare_singleton,
    compare_singleton, Ordering.then_assoc, Ordering.then_assoc]
  all_goals rfl

/-- Keys are ordered by index, mode, item and layer. -/
theorem key_lt_iff {a b : Key} : a < b ↔ a.index < b.index ∨ a.index = b.index ∧
    (a.node.mode.toU8 < b.node.mode.toU8 ∨ a.node.mode.toU8 = b.node.mode.toU8 ∧
      (a.node.item < b.node.item ∨ a.node.item = b.node.item ∧ a.node.layer < b.node.layer)) := by
  show a.toTuple < b.toTuple ↔ _
  simp only [Key.toTuple, Prod.Lex.toLex_lt_toLex]

/-- The order of the keys of a database is the one of their bytes. -/
theorem compare_eq_lt_iff {a b : Key} : compare a.bytesEncode b.bytesEncode = .lt ↔ a < b := by
  have hnode : compare a.node b.node = (compare a.node.mode.toU8 b.node.mode.toU8).then
      ((compare a.node.item b.node.item).then (compare a.node.layer b.node.layer)) := rfl
  rw [compare_bytesEncode, key_lt_iff, hnode]
  simp only [Ordering.then_eq_lt, Std.compare_eq_lt, Std.compare_eq_iff_eq]

/-! ## Prefix iteration -/

variable {db : Database}

theorem pairwise_stored : db.stored.Pairwise fun a b => compare a.1 b.1 = .lt := by
  have h := Std.ExtTreeMap.ordered_keys_toList (t := db)
  refine List.pairwise_map.mpr (h.imp fun hab => compare_eq_lt_iff.mpr ?_)
  exact compare_lt_iff_lt.mp hab

/-- **LMDB walks over the entries that a prefix selects.** -/
theorem seek_stored (p : Prefix) : seek Prod.fst p.bytesEncode db.stored =
    (db.prefixIter p).map fun e => (e.1.bytesEncode, e.2) := by
  rw [seek_eq_filter pairwise_stored, Database.stored, List.filter_map]
  rfl

/-- Entries of one index and one mode come by item and then by layer. -/
theorem pairwise_of_mode (i : UInt16) (m : NodeMode) :
    (db.prefixIter ⟨i, some m⟩).Pairwise fun a b => a.1.node.item < b.1.node.item ∨
      a.1.node.item = b.1.node.item ∧ a.1.node.layer < b.1.node.layer := by
  have hsel : ∀ e ∈ db.prefixIter ⟨i, some m⟩, e.1.index = i ∧ e.1.node.mode = m := by
    rintro ⟨k, v⟩ he
    obtain ⟨-, hindex, hmode⟩ := Database.mem_prefixIter.mp he
    exact ⟨hindex, hmode m rfl⟩
  refine (Database.pairwise_prefixIter _).imp_of_mem fun {a b} ha hb hlt => ?_
  obtain ⟨hia, hma⟩ := hsel a ha
  obtain ⟨hib, hmb⟩ := hsel b hb
  rw [key_lt_iff, hia, hib, hma, hmb] at hlt
  simpa only [lt_irrefl, false_or, true_and] using hlt

/-- **Keys and their bytes are in the same order.** A key is read back; keys compare bytewise as
their indexes and then their nodes; the bytes of a prefix start the bytes of the keys it selects. So
the walk of LMDB reads the entries of an index and a mode, by item and then by layer. -/
theorem key_order :
    (∀ k : Key, KeyCodec.bytesDecode k.bytesEncode = .ok k) ∧
    (∀ a b : Key, compare a.bytesEncode b.bytesEncode =
      (compare a.index b.index).then (compare a.node b.node)) ∧
    (∀ (i : UInt16) (m : Option NodeMode) (k : Key),
      (Prefix.bytesEncode ⟨i, m⟩).isPrefixOf k.bytesEncode = true ↔
        k.index = i ∧ ∀ mode ∈ m, k.node.mode = mode) ∧
    ∀ (db : Database) (i : UInt16) (m : NodeMode),
      (seek Prod.fst (Prefix.bytesEncode ⟨i, some m⟩) db.stored).map
          (fun e => (KeyCodec.bytesDecode e.1, e.2)) =
        (db.prefixIter ⟨i, some m⟩).map (fun e => (.ok e.1, e.2)) ∧
      (∀ k v, (k, v) ∈ db.prefixIter ⟨i, some m⟩ ↔
        db[k]? = some v ∧ k.index = i ∧ k.node.mode = m) ∧
      (db.prefixIter ⟨i, some m⟩).Pairwise fun a b => a.1.node.item < b.1.node.item ∨
        a.1.node.item = b.1.node.item ∧ a.1.node.layer < b.1.node.layer := by
  have hdecode : ∀ k : Key, KeyCodec.bytesDecode k.bytesEncode = .ok k := by
    intro k
    rw [← List.append_nil k.bytesEncode]
    exact bytesDecode_append k []
  refine ⟨hdecode, compare_bytesEncode, fun i m k => isPrefixOf_bytesEncode ⟨i, m⟩ k,
    fun db i m => ⟨?_, fun k v => ?_, pairwise_of_mode i m⟩⟩
  · rw [seek_stored, List.map_map]
    refine List.map_congr_left fun e _ => ?_
    rw [Function.comp_apply, hdecode]
  · rw [Database.mem_prefixIter]
    refine and_congr_right' (and_congr_right' ?_)
    exact ⟨fun h => h m rfl, fun h m' hm' => by rw [← Option.some.inj hm']; exact h⟩

end Hannoy.Codec
