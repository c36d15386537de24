import Hannoy.Model.Float
import Mathlib.Data.List.Basic

/-!
# Vectors, items and distances (`unaligned_vector/`, `node.rs`, `distance/mod.rs`)

A stored vector is a byte string; the codec of the distance reads and writes it. An item is the
header of its distance with its vector. The search and the graph builder use a distance through
`Distance` only, so every theorem below holds for any of them.

* A codec carries the law the readers rely on: the bytes of a vector are recovered from what it
  reads back as, cut to its length. `f32Codec` is the codec of the plain distances.
* `Item.ofVector` is what `Writer::add_item` stores and what a query is turned into.
-/

namespace Hannoy

/-- `UnalignedVectorCodec` (`unaligned_vector/mod.rs:18-51`). `from_vec` and `from_slice` write
the same bytes and are one function here. -/
structure UnalignedVectorCodec where
  fromSlice : List F32 → List UInt8
  toVec : List UInt8 → List F32
  /-- The length of the vector in terms of elements. -/
  len : List UInt8 → Nat
  /-- The bit-packing size if quantized. -/
  wordSize : Nat
  /-- A stored vector can be re-encoded from what it reads back as, without its padding. -/
  fromSlice_toVec : ∀ v, fromSlice ((toVec (fromSlice v)).take v.length) = fromSlice v

/-- An item node: the vector inputed by the user and the distance header. -/
structure Item where
  /-- The header of this item. -/
  header : List UInt8
  /-- The vector of this item. -/
  vector : List UInt8
  deriving DecidableEq, Repr

/-- `Distance` (`distance/mod.rs:25-48`). -/
structure Distance where
  /-- The name of the distance. -/
  name : String
  codec : UnalignedVectorCodec
  newHeader : List UInt8 → List UInt8
  distance : Item → Item → F32

/-- `Item { header: D::new_header(&vector), vector }` with `vector` the encoding of `v`. -/
def Item.ofVector (D : Distance) (v : List F32) : Item :=
  ⟨D.newHeader (D.codec.fromSlice v), D.codec.fromSlice v⟩

/-- What `item_vector` returns for an item: the decoded vector without the padding. -/
def Item.toVector (D : Distance) (dimensions : Nat) (item : Item) : List F32 :=
  (D.codec.toVec item.vector).take dimensions

/-- An item rebuilt from its `item_vector` is the stored item. -/
theorem Item.ofVector_toVector (D : Distance) (v : List F32) :
    Item.ofVector D ((Item.ofVector D v).toVector D v.length) = Item.ofVector D v := by
  simp only [Item.ofVector, Item.toVector, D.codec.fromSlice_toVec]

/-! ## The codec of plain vectors (`unaligned_vector/f32.rs`) -/

/-- `f32::to_ne_bytes` on a little-endian target. -/
def F32.toNeBytes (a : F32) : List UInt8 :=
  [a.bits.toUInt8, (a.bits >>> 8).toUInt8, (a.bits >>> 16).toUInt8, (a.bits >>> 24).toUInt8]

/-- `NativeEndian::read_f32` on a little-endian target. -/
def readF32 (b0 b1 b2 b3 : UInt8) : F32 :=
  ⟨UInt32.ofNat (b0.toNat + 2 ^ 8 * b1.toNat + 2 ^ 16 * b2.toNat + 2 ^ 24 * b3.toNat)⟩

/-- The whole words of a byte string, in order. -/
def readF32s : List UInt8 → List F32
  | b0 :: b1 :: b2 :: b3 :: rest => readF32 b0 b1 b2 b3 :: readF32s rest
  | _ => []

theorem readF32_toNeBytes (a : F32) :
    readF32 a.bits.toUInt8 (a.bits >>> 8).toUInt8 (a.bits >>> 16).toUInt8
      (a.bits >>> 24).toUInt8 = a := by
  obtain ⟨n⟩ := a
  have hn := n.toNat_lt
  simp only [readF32, F32.mk.injEq]
  rw [← UInt32.toNat_inj]
  simp only [UInt32.toNat_ofNat', UInt32.toNat_toUInt8, UInt32.toNat_shiftRight,
    show (8 : UInt32).toNat % 32 = 8 from rfl, show (16 : UInt32).toNat % 32 = 16 from rfl,
    show (24 : UInt32).toNat % 32 = 24 from rfl, Nat.shiftRight_eq_div_pow]
  omega

theorem readF32s_flatMap : ∀ v : List F32, readF32s (v.flatMap F32.toNeBytes) = v
  | [] => rfl
  | a :: v => by
    rw [List.flatMap_cons]
    show readF32 _ _ _ _ :: readF32s (v.flatMap F32.toNeBytes) = a :: v
    rw [readF32_toNeBytes, readF32s_flatMap v]

def f32Codec : UnalignedVectorCodec where
  fromSlice v := v.flatMap F32.toNeBytes
  toVec := readF32s
  len bytes := bytes.length / 4
  wordSize := 1
  fromSlice_toVec v := by rw [readF32s_flatMap, List.take_length]

/-- `Manhattan` (`distance/manhattan.rs`); its header is a bias of zero. It uses no vector
instructions but those of its codec. -/
def manhattanWith (codec : UnalignedVectorCodec) : Distance where
  name := "manhattan"
  codec := codec
  newHeader _ := F32.zero.toNeBytes
  distance p q := ((readF32s p.vector).zipWith (fun p q => (p.sub q).abs)
    (readF32s q.vector)).foldl F32.add F32.negZero

/-- `Manhattan` with the plain codec. -/
def manhattan : Distance := manhattanWith f32Codec

/-- `Manhattan` is symmetric. -/
theorem manhattan_symm (p q : Item) : manhattan.distance p q = manhattan.distance q p := by
  show ((readF32s p.vector).zipWith _ (readF32s q.vector)).foldl _ _ =
    ((readF32s q.vector).zipWith _ (readF32s p.vector)).foldl _ _
  rw [List.zipWith_comm]
  simp only [F32.abs_sub_comm]

end Hannoy
