import Hannoy.Codec.Reencode
import Hannoy.Model.Distances
import Hannoy.Model.Reader
import Hannoy.Spaces.Kernels

/-!
# The seven distances (`distance/`)

The distances of the crate, on a target, with its codecs and its kernels. Each is symmetric on
items of one dimension, so the linear scan, which measures from the item to the query, computes
what the search of the graph computes, which measures from the query to the item.

* `distances`: the seven distances.
* `distance_symm`: each is symmetric.
* `scan_and_graph_agree`: the two paths of a search compute the same distances.
-/

namespace Hannoy

open Hannoy.Library Hannoy.Codec

/-- `EPSILON`. -/
def F32.epsilon : F32 := ⟨0x34000000⟩

/-- An `UnalignedVector<f32>`. What lies behind it is not read on vectors of one length
(`Spaces.reads_similarity`); it is zero here. -/
def Buffer.ofBytes (bytes : List UInt8) : Buffer F32 :=
  ⟨bytes.length / 4, fun i => (readF32s bytes).getD i F32.zero⟩

/-- The float of a header. -/
def readHeader (header : List UInt8) : F32 := (readF32s header).headD F32.zero

/-! ## Plain distances -/

/-- `Euclidean` (`distance/euclidean.rs`). -/
def euclidean (t : Target) : Distance where
  name := "euclidean"
  codec := codecOn t .f32
  newHeader _ := F32.zero.toNeBytes
  distance p q :=
    Spaces.euclideanDistance f32Arithmetic t (Buffer.ofBytes p.vector) (Buffer.ofBytes q.vector)

/-- `norm_no_header` of `Cosine` (`distance/cosine.rs:58-60`). -/
def cosineNorm (t : Target) (v : List UInt8) : F32 :=
  (Spaces.dotProduct f32Arithmetic t (Buffer.ofBytes v) (Buffer.ofBytes v)).sqrt

/-- `Cosine` (`distance/cosine.rs`). -/
def cosine (t : Target) : Distance where
  name := "cosine"
  codec := codecOn t .f32
  newHeader v := (cosineNorm t v).toNeBytes
  distance p q :=
    let pn := readHeader p.header
    let qn := readHeader q.header
    let pq := Spaces.dotProduct f32Arithmetic t (Buffer.ofBytes p.vector) (Buffer.ofBytes q.vector)
    let pnqn := pn.mul qn
    if F32.epsilon.flt pnqn then
      let cos := pq.div pnqn
      let cos := cos.clamp F32.minusOne F32.one
      (F32.one.sub cos).div (F32.ofNat 2)
    else F32.zero

/-! ## Quantized distances -/

/-- `BinaryQuantizedEuclidean` (`distance/binary_quantized_euclidean.rs`). -/
def binaryQuantizedEuclidean (t : Target) : Distance where
  name := "binary quantized euclidean"
  codec := codecOn t .binaryQuantized
  newHeader _ := F32.zero.toNeBytes
  distance p q := f32Numbers.ofU32
    (squaredEuclideanDistanceBinaryQuantized f32Numbers.u32 p.vector q.vector)

/-- `BinaryQuantizedCosine` (`distance/binary_quantized_cosine.rs`). -/
def binaryQuantizedCosine (t : Target) : Distance where
  name := "binary quantized cosine"
  codec := codecOn t .binaryQuantized
  newHeader v := (BinaryQuantizedCosine.normNoHeader f32Numbers v).toNeBytes
  distance p q := BinaryQuantizedCosine.distance f32Numbers (readHeader p.header)
    (readHeader q.header) p.vector q.vector

/-- `Hamming` (`distance/hamming.rs`); its header is an index of zero. On vectors of different
lengths its assertion fails. -/
def hamming (t : Target) : Distance where
  name := "hamming"
  codec := codecOn t .binary
  newHeader _ := List.replicate 8 0
  distance p q := (Hamming.distance f32Numbers p.vector q.vector).getD F32.nan

/-- The distances of the crate (`distance/mod.rs:3-11`). -/
def distances (t : Target) : List Distance :=
  [binaryQuantizedCosine t, binaryQuantizedEuclidean t,
    binaryQuantizedManhattanWith (codecOn t .binaryQuantized), cosine t, euclidean t, hamming t,
    manhattanWith (codecOn t .f32)]

/-- `Manhattan` without vector instructions. -/
def plainManhattan : Distance := manhattanWith (codecOn .plain .f32)

theorem plainManhattan_mem : plainManhattan ∈ distances .plain := by
  simp [distances, plainManhattan]

/-! ## Symmetry -/

theorem symmetric_f32Arithmetic : Spaces.Symmetric f32Arithmetic where
  mul := F32.mul_symm
  mulAdd := F32.mulAdd_symm
  mul_sub a b := F32.mul_self_of_magnitude (F32.magnitude_sub_comm a b)
  mulAdd_sub a b := F32.mulAdd_self_of_magnitude (F32.magnitude_sub_comm a b)

theorem zipWith_xor_symm {α U : Type} (f : α → U) (op : α → α → α)
    (hop : ∀ u v, op u v = op v u) (u v : List α) :
    u.zipWith (fun u v => f (op u v)) v = v.zipWith (fun u v => f (op u v)) u := by
  rw [List.zipWith_comm]
  simp only [hop]

theorem dotProductBinaryQuantized_symm {I : Type} [Zero I] [Add I] [Sub I] (i32 : Nat → I)
    (u v : List UInt8) :
    dotProductBinaryQuantized i32 u v = dotProductBinaryQuantized i32 v u :=
  congrArg List.sum (zipWith_xor_symm
    (fun x => i32 (byteOnes (~~~x)) - i32 (byteZeros (~~~x))) _ UInt8.xor_comm u v)

theorem hammingBitwiseFast_symm {U : Type} [Zero U] [Add U] (u32 : Nat → U) {u v : List UInt8}
    (h : u.length = v.length) : hammingBitwiseFast u32 u v = hammingBitwiseFast u32 v u := by
  have hwords : (chunksExact 8 u).zipWith (fun u v =>
      u32 (wordOnes (wordOfBytes u ^^^ wordOfBytes v))) (chunksExact 8 v) =
      (chunksExact 8 v).zipWith (fun u v =>
      u32 (wordOnes (wordOfBytes u ^^^ wordOfBytes v))) (chunksExact 8 u) := by
    rw [List.zipWith_comm]
    simp only [UInt64.xor_comm]
  have hbytes := zipWith_xor_symm (fun x => u32 (byteOnes x)) _ UInt8.xor_comm (remainder 8 u)
    (remainder 8 v)
  simp only [hammingBitwiseFast, h, hwords, hbytes]

/-- **Each distance is symmetric** on vectors of one length. -/
theorem distance_symm {t : Target} {D : Distance} (hD : D ∈ distances t) {p q : Item}
    (h : p.vector.length = q.vector.length) : D.distance p q = D.distance q p := by
  have hlen : (Buffer.ofBytes p.vector).len = (Buffer.ofBytes q.vector).len :=
    congrArg (· / 4) h
  have hdot := Spaces.dotProduct_symm symmetric_f32Arithmetic hlen t
  have hquantized := dotProductBinaryQuantized_symm f32Numbers.i32 p.vector q.vector
  have hones : p.vector.zipWith (fun u v => f32Numbers.u32 (byteOnes (u ^^^ v))) q.vector =
      q.vector.zipWith (fun u v => f32Numbers.u32 (byteOnes (u ^^^ v))) p.vector :=
    zipWith_xor_symm (fun x => f32Numbers.u32 (byteOnes x)) _ UInt8.xor_comm _ _
  simp only [distances, List.mem_cons, List.not_mem_nil, or_false] at hD
  obtain rfl | rfl | rfl | rfl | rfl | rfl | rfl := hD
  · have hnorms : f32Numbers.mul (readHeader p.header) (readHeader q.header) =
        f32Numbers.mul (readHeader q.header) (readHeader p.header) := F32.mul_symm _ _
    simp only [binaryQuantizedCosine, BinaryQuantizedCosine.distance, hquantized, hnorms]
  · simp only [binaryQuantizedEuclidean, squaredEuclideanDistanceBinaryQuantized, hones]
  · simp only [binaryQuantizedManhattanWith, manhattanDistanceBinaryQuantized, hones]
  · simp only [cosine, hdot, F32.mul_symm (readHeader q.header)]
  · exact Spaces.euclideanDistance_symm symmetric_f32Arithmetic hlen t
  · simp only [hamming, Hamming.distance, hammingBitwiseFast_symm f32Numbers.u32 h, h]
  · exact manhattan_symm p q

/-- The stored vectors of one dimension are of one length. -/
theorem length_ofVector {t : Target} {D : Distance} (hD : D ∈ distances t) {v w : List F32}
    (h : v.length = w.length) :
    (Item.ofVector D v).vector.length = (Item.ofVector D w).vector.length := by
  simp only [distances, List.mem_cons, List.not_mem_nil, or_false] at hD
  obtain rfl | rfl | rfl | rfl | rfl | rfl | rfl := hD <;> exact length_fromSlice t _ h

/-! ## The two paths of a search -/

/-- **What the two paths of a search compute.** The encoding of a vector is restored from what is
read back of it, on every target and for every codec. So for a stored item of the dimension of the
reader, on every target and for every distance of the crate: `item_vector` reads a vector from
which the item is rebuilt as it is stored, header and vector; and for every query of the dimension
the distance of the linear scan, from the rebuilt item to the query, is the one of the graph
search, from the query to the stored item. -/
theorem reencode_and_distances_agree :
    (∀ (t t' t'' : Target) (c : VectorCodec) (v : List F32),
      ∃ bytes back, c.fromSliceOn t v = some bytes ∧ c.toVecOn t' bytes = some back ∧
        c.fromSliceOn t'' (back.take v.length) = some bytes) ∧
    ∀ (t : Target), ∀ D ∈ distances t, ∀ (r : Reader) (db : Database) (id : ItemId) (v : List F32),
      v.length = r.dimensions → db.getItem r.index id = .ok (some (Item.ofVector D v)) →
        ∃ back, r.itemVector D db id = .ok (some back) ∧
          Item.ofVector D back = Item.ofVector D v ∧
          ∀ q : List F32, q.length = r.dimensions →
            D.distance (Item.ofVector D back) (Item.ofVector D q) =
              D.distance (Item.ofVector D q) (Item.ofVector D v) := by
  refine ⟨reencode, fun t D hD r db id v hv hitem => ?_⟩
  have hrebuilt : Item.ofVector D ((Item.ofVector D v).toVector D r.dimensions) =
      Item.ofVector D v := hv ▸ Item.ofVector_toVector D v
  refine ⟨(Item.ofVector D v).toVector D r.dimensions, ?_, hrebuilt, fun q hq => ?_⟩
  · rw [Reader.itemVector, hitem]
    rfl
  · rw [hrebuilt]
    exact distance_symm hD (length_ofVector hD (hv.trans hq.symm))

theorem getItem_put (db : Database) (i : UInt16) (x : ItemId) (item : Item) :
    (db.put (Key.item i x) (.node (.item item))).getItem i x = .ok (some item) := by
  rw [Database.getItem, Database.getNode, Database.getElem?_put, if_pos rfl]
  rfl

/-- A negative zero stored with NEON: it is read back as a one. -/
theorem reencode_and_distances_agree_stored :
    let D := binaryQuantizedCosine .neon
    let v := F32.zero.neg :: List.replicate 7 F32.minusOne
    let db := (∅ : Database).put (Key.item 0 7) (.node (.item (Item.ofVector D v)))
    let r : Reader := ⟨0, [7], 0, 8, {7}, ⟨0, 0, 0⟩⟩
    ∃ back, r.itemVector D db 7 = .ok (some back) ∧ Item.ofVector D back = Item.ofVector D v ∧
      D.distance (Item.ofVector D back) (Item.ofVector D (List.replicate 8 F32.one)) =
        D.distance (Item.ofVector D (List.replicate 8 F32.one)) (Item.ofVector D v) := by
  intro D v db r
  have hitem : db.getItem r.index 7 = .ok (some (Item.ofVector D v)) := getItem_put _ _ _ _
  obtain ⟨back, hback, hrebuilt, hdistance⟩ := reencode_and_distances_agree.2 .neon D
    (List.mem_cons_self ..) r db 7 v rfl hitem
  exact ⟨back, hback, hrebuilt, hdistance _ rfl⟩

end Hannoy
