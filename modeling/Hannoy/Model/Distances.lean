import Hannoy.Library.Popcount
import Hannoy.Model.Spaces
import Mathlib.Data.UInt

/-!
# The quantized distances (`distance/`)

What the quantized distances compute is over any numbers in the place of `u32`, `i32` and `f32`
(`Numbers`), so that it can be read as the code computes it (`f32Numbers`) or exactly.

* `squaredEuclideanDistanceBinaryQuantized`, `manhattanDistanceBinaryQuantized`,
  `dotProductBinaryQuantized`, `hammingBitwiseFast`: the integers, before the cast to `f32`.
* `binaryQuantizedManhattanWith`: a distance that needs nothing else, with any codec.
-/

namespace Hannoy

open Hannoy.Library

/-! ## Numbers -/

/-- The numbers of the distances: `u32`, `i32` and `f32`, or others in their place. -/
structure Numbers (U I R : Type) extends Arithmetic R where
  one : R
  two : R
  div : R → R → R
  sqrt : R → R
  isZero : R → Bool
  /-- A count of bits as a `u32`. -/
  u32 : Nat → U
  /-- A count of bits as an `i32`. -/
  i32 : Nat → I
  ofU32 : U → R
  ofI32 : I → R
  ofUsize : Nat → R

/-- The operations of `f32`. -/
def f32Arithmetic : Arithmetic F32 where
  zero := F32.zero
  sumStart := F32.negZero
  add := F32.add
  sub := F32.sub
  mul := F32.mul
  mulAdd := F32.mulAdd

/-- The numbers of the code; `u32` and `i32` wrap. -/
def f32Numbers : Numbers UInt32 Int32 F32 where
  toArithmetic := f32Arithmetic
  one := F32.one
  two := F32.ofNat 2
  div := F32.div
  sqrt := F32.sqrt
  isZero := F32.isZero
  u32 := UInt32.ofNat
  i32 := Int32.ofNat
  ofU32 n := F32.ofNat n.toNat
  ofI32 n := F32.ofInt n.toInt
  ofUsize := F32.ofNat

variable {U I R : Type}

/-! ## Integers -/

section integers

variable [Zero U] [Add U] [Mul U] [Zero I] [Add I] [Sub I]

/-- What `squared_euclidean_distance_binary_quantized` casts
(`distance/binary_quantized_euclidean.rs:76-83`). -/
def squaredEuclideanDistanceBinaryQuantized (u32 : Nat → U) (u v : List UInt8) : U :=
  (u.zipWith (fun u v => u32 (byteOnes (u ^^^ v))) v).sum * u32 4

/-- What `manhattan_distance_binary_quantized` casts
(`distance/binary_quantized_manhattan.rs:72-79`). -/
def manhattanDistanceBinaryQuantized (u32 : Nat → U) (u v : List UInt8) : U :=
  (u.zipWith (fun u v => u32 (byteOnes (u ^^^ v))) v).sum * u32 2

/-- `count_zeros` of a byte. -/
def byteZeros (b : UInt8) : Nat := (byteBits b).count false

/-- What `dot_product_binary_quantized` casts (`spaces/simple.rs:119-131`). -/
def dotProductBinaryQuantized (i32 : Nat → I) (u v : List UInt8) : I :=
  (u.zipWith (fun u v =>
    let ret := ~~~(u ^^^ v)
    i32 (byteOnes ret) - i32 (byteZeros ret)) v).sum

/-- What `hamming_bitwise_fast` casts (`distance/hamming.rs:54-85`); there is no result when the
lengths differ. -/
def hammingBitwiseFast (u32 : Nat → U) (u v : List UInt8) : Option U :=
  if u.length ≠ v.length then none
  else
    let distance := ((chunksExact 8 u).zipWith (fun uChunk vChunk =>
      u32 (wordOnes (wordOfBytes uChunk ^^^ wordOfBytes vChunk))) (chunksExact 8 v)).sum
    if u.length % 8 ≠ 0 then
      some (distance + ((remainder 8 u).zipWith (fun uByte vByte =>
        u32 (byteOnes (uByte ^^^ vByte))) (remainder 8 v)).sum)
    else some distance

end integers

/-! ## Quantized distances -/

section quantized

variable (N : Numbers U I R)

/-- `norm_no_header` (`distance/binary_quantized_cosine.rs:60-62`). -/
def BinaryQuantizedCosine.normNoHeader [Zero I] [Add I] [Sub I] (v : List UInt8) : R :=
  N.sqrt (N.ofI32 (dotProductBinaryQuantized N.i32 v v))

/-- `distance` (`distance/binary_quantized_cosine.rs:44-58`) of two vectors, with the norms of their
headers. -/
def BinaryQuantizedCosine.distance [Zero I] [Add I] [Sub I] (pn qn : R) (p q : List UInt8) : R :=
  let pq := N.ofI32 (dotProductBinaryQuantized N.i32 p q)
  let pnqn := N.mul pn qn
  if !N.isZero pnqn then
    let cos := N.div pq pnqn
    N.div (N.sub N.one cos) N.two
  else N.zero

/-- `distance` (`distance/hamming.rs:44-47`); `len` counts the coordinates of whole words. -/
def Hamming.distance [Zero U] [Add U] (p q : List UInt8) : Option R := do
  let dist ← hammingBitwiseFast N.u32 p q
  pure (N.div (N.ofU32 dist) (N.ofUsize (p.length / 8 * 64)))

end quantized

/-- `BinaryQuantizedManhattan` (`distance/binary_quantized_manhattan.rs`); its header is a bias of
zero. -/
def binaryQuantizedManhattanWith (codec : UnalignedVectorCodec) : Distance where
  name := "binary quantized manhattan"
  codec := codec
  newHeader _ := F32.zero.toNeBytes
  distance p q := f32Numbers.ofU32
    (manhattanDistanceBinaryQuantized f32Numbers.u32 p.vector q.vector)

/-- `BinaryQuantizedManhattan` with the codec of a target without vector instructions. -/
def binaryQuantizedManhattan : Distance := binaryQuantizedManhattanWith binaryQuantizedCodec

end Hannoy
