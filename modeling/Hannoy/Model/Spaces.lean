import Hannoy.Library.Reads
import Hannoy.Model.Simd
import Mathlib.Data.Fin.VecNotation

/-!
# The kernels of the plain distances (`spaces/`)

The squared euclidean distance and the dot product of two vectors, in plain loops and with AVX, SSE
and NEON. The kernels are over any floating operations (`Arithmetic`); they read through pointers,
so a vector is the memory behind its pointer, with a length.

* `similarity`: what the six kernels have in common.
* `euclideanDistance`, `dotProduct`: which kernel a target takes.
-/

namespace Hannoy

open Hannoy.Library

variable {R : Type}

/-- The operations on floats. -/
structure Arithmetic (R : Type) where
  zero : R
  /-- What `Iterator::sum` starts from, which is `-0.0`. -/
  sumStart : R
  add : R → R → R
  sub : R → R → R
  mul : R → R → R
  /-- `a * b + c`, rounded once. -/
  mulAdd : R → R → R → R

/-- `UnalignedVector<f32>`: its length, and the memory its pointer points to. -/
structure Buffer (R : Type) where
  len : Nat
  read : Nat → R

/-- The coordinates, as `iter` yields them. -/
def Buffer.iter (v : Buffer R) : List R := (List.range v.len).map v.read

namespace Spaces

variable (A : Arithmetic R)

/-! ## Plain loops (`simple.rs`) -/

/-- `euclidean_distance_non_optimized` (`simple.rs:51-53`). -/
def euclideanDistanceNonOptimized (u v : Buffer R) : R :=
  (u.iter.zipWith (fun u v => A.mul (A.sub u v) (A.sub u v)) v.iter).foldl A.add A.sumStart

/-- `dot_product_non_optimized` (`simple.rs:83-85`). -/
def dotProductNonOptimized (u v : Buffer R) : R :=
  (u.iter.zipWith A.mul v.iter).foldl A.add A.sumStart

/-! ## Instructions -/

/-- `_mm_movehl_ps`: the upper lanes of `b`, then those of `a`. -/
def mmMovehlPs (a b : Register 4 R) : Register 4 R := ![b 2, b 3, a 2, a 3]

/-- `_mm_shuffle_ps(a, b, 0x55)`: lane 1 everywhere. -/
def mmShufflePs55 (a b : Register 4 R) : Register 4 R := ![a 1, a 1, b 1, b 1]

/-- `_mm_add_ss`: only the lowest lanes are added. -/
def mmAddSs (a b : Register 4 R) : Register 4 R := ![A.add (a 0) (b 0), a 1, a 2, a 3]

/-- `_mm_add_ps`. -/
def mmAddPs (a b : Register 4 R) : Register 4 R := fun k => A.add (a k) (b k)

/-- `_mm256_extractf128_ps(x, 1)`. -/
def mm256Extractf128Ps1 (x : Register 8 R) : Register 4 R := ![x 4, x 5, x 6, x 7]

/-- `_mm256_castps256_ps128`. -/
def mm256Castps256Ps128 (x : Register 8 R) : Register 4 R := ![x 0, x 1, x 2, x 3]

/-- `hsum128_ps_sse` (`simple_sse.rs:9-14`). -/
def hsum128PsSse (x : Register 4 R) : R :=
  let x64 := mmAddPs A x (mmMovehlPs x x)
  let x32 := mmAddSs A x64 (mmShufflePs55 x64 x64)
  x32 0

/-- `hsum256_ps_avx` (`simple_avx.rs:6-13`). -/
def hsum256PsAvx (x : Register 8 R) : R :=
  let x128 := mmAddPs A (mm256Extractf128Ps1 x) (mm256Castps256Ps128 x)
  let x64 := mmAddPs A x128 (mmMovehlPs x128 x128)
  let x32 := mmAddSs A x64 (mmShufflePs55 x64 x64)
  x32 0

/-- `vaddvq_f32`: the lanes are added in pairs. -/
def vaddvqF32 (x : Register 4 R) : R := A.add (A.add (x 0) (x 1)) (A.add (x 2) (x 3))

/-! ## Kernels -/

/-- The four accumulators. -/
structure Sums (w : Nat) (R : Type) where
  sum1 : Register w R
  sum2 : Register w R
  sum3 : Register w R
  sum4 : Register w R

/-- One round of the unrolled loop: four registers of each vector, at the offsets of the kernel. -/
def round {w : Nat} (offsets : Fin 4 → Nat) (accumulate : R → R → R → R) (v1 v2 : Nat → R)
    (ptr : Nat) (s : Sums w R) : Reads (Sums w R) := do
  let a ← loadFirst w v1 (ptr + offsets 0)
  let b ← loadSecond w v2 (ptr + offsets 0)
  let sum1 : Register w R := fun k => accumulate (s.sum1 k) (a k) (b k)
  let a ← loadFirst w v1 (ptr + offsets 1)
  let b ← loadSecond w v2 (ptr + offsets 1)
  let sum2 : Register w R := fun k => accumulate (s.sum2 k) (a k) (b k)
  let a ← loadFirst w v1 (ptr + offsets 2)
  let b ← loadSecond w v2 (ptr + offsets 2)
  let sum3 : Register w R := fun k => accumulate (s.sum3 k) (a k) (b k)
  let a ← loadFirst w v1 (ptr + offsets 3)
  let b ← loadSecond w v2 (ptr + offsets 3)
  let sum4 : Register w R := fun k => accumulate (s.sum4 k) (a k) (b k)
  pure ⟨sum1, sum2, sum3, sum4⟩

/-- One coordinate of the tail. -/
def tail (term : R → R → R) (v1 v2 : Nat → R) (ptr : Nat) (result : R) : Reads R := do
  let a ← (⟨v1 ptr, [ptr], []⟩ : Reads R)
  let b ← (⟨v2 ptr, [], [ptr]⟩ : Reads R)
  pure (A.add result (term a b))

/-- A kernel: rounds of `step` coordinates into four accumulators, their horizontal sums, and the
coordinates that are left one by one. -/
def similarity {w step : Nat} (hstep : 0 < step) (offsets : Fin 4 → Nat)
    (accumulate : R → R → R → R) (hsum : Register w R → R) (term : R → R → R)
    (v1 v2 : Buffer R) : Reads R := do
  let n := v1.len
  let m := n - n % step
  let setzero : Register w R := fun _ => A.zero
  let (ptr, s) ← blocks hstep m (round offsets accumulate v1.read v2.read) 0 0
    ⟨setzero, setzero, setzero, setzero⟩
  let result := A.add (A.add (A.add (hsum s.sum1) (hsum s.sum2)) (hsum s.sum3)) (hsum s.sum4)
  single (tail A term v1.read v2.read) (n - m) ptr result

/-- `(a - b).powi(2)`. -/
def subSquared (a b : R) : R := A.mul (A.sub a b) (A.sub a b)

/-- `euclid_similarity_avx` (`simple_avx.rs:15-67`). -/
def euclidSimilarityAvx (v1 v2 : Buffer R) : Reads R :=
  similarity A (by decide : 0 < 32) ![0, 8, 16, 24]
    (fun sum a b => A.mulAdd (A.sub a b) (A.sub a b) sum) (hsum256PsAvx A) (subSquared A) v1 v2

/-- `dot_similarity_avx` (`simple_avx.rs:69-110`). -/
def dotSimilarityAvx (v1 v2 : Buffer R) : Reads R :=
  similarity A (by decide : 0 < 32) ![0, 8, 16, 24]
    (fun sum a b => A.mulAdd a b sum) (hsum256PsAvx A) A.mul v1 v2

/-- `euclid_similarity_sse` (`simple_sse.rs:16-63`). -/
def euclidSimilaritySse (v1 v2 : Buffer R) : Reads R :=
  similarity A (by decide : 0 < 16) ![0, 4, 8, 12]
    (fun sum a b => A.add (A.mul (A.sub a b) (A.sub a b)) sum) (hsum128PsSse A) (subSquared A) v1 v2

/-- `dot_similarity_sse` (`simple_sse.rs:65-110`). -/
def dotSimilaritySse (v1 v2 : Buffer R) : Reads R :=
  similarity A (by decide : 0 < 16) ![0, 4, 8, 12]
    (fun sum a b => A.add (A.mul a b) sum) (hsum128PsSse A) A.mul v1 v2

/-- `euclid_similarity_neon` (`simple_neon.rs:7-54`); `vfmaq_f32(a, b, c)` is `b * c + a`. -/
def euclidSimilarityNeon (v1 v2 : Buffer R) : Reads R :=
  similarity A (by decide : 0 < 16) ![0, 4, 8, 12]
    (fun sum a b => A.mulAdd (A.sub a b) (A.sub a b) sum) (vaddvqF32 A) (subSquared A) v1 v2

/-- `dot_similarity_neon` (`simple_neon.rs:56-101`). -/
def dotSimilarityNeon (v1 v2 : Buffer R) : Reads R :=
  similarity A (by decide : 0 < 16) ![0, 4, 8, 12]
    (fun sum a b => A.mulAdd a b sum) (vaddvqF32 A) A.mul v1 v2

/-! ## Dispatch -/

def MIN_DIM_SIZE_AVX : Nat := 32
def MIN_DIM_SIZE_SIMD : Nat := 16

/-- `euclidean_distance` (`simple.rs:19-47`). -/
def euclideanDistance : Target → Buffer R → Buffer R → R
  | .plain, u, v => euclideanDistanceNonOptimized A u v
  | .avx, u, v =>
    if MIN_DIM_SIZE_AVX ≤ u.len then (euclidSimilarityAvx A u v).value
    else if MIN_DIM_SIZE_SIMD ≤ u.len then (euclidSimilaritySse A u v).value
    else euclideanDistanceNonOptimized A u v
  | .sse, u, v =>
    if MIN_DIM_SIZE_SIMD ≤ u.len then (euclidSimilaritySse A u v).value
    else euclideanDistanceNonOptimized A u v
  | .neon, u, v =>
    if MIN_DIM_SIZE_SIMD ≤ u.len then (euclidSimilarityNeon A u v).value
    else euclideanDistanceNonOptimized A u v

/-- `dot_product` (`simple.rs:55-81`). -/
def dotProduct : Target → Buffer R → Buffer R → R
  | .plain, u, v => dotProductNonOptimized A u v
  | .avx, u, v =>
    if MIN_DIM_SIZE_AVX ≤ u.len then (dotSimilarityAvx A u v).value
    else if MIN_DIM_SIZE_SIMD ≤ u.len then (dotSimilaritySse A u v).value
    else dotProductNonOptimized A u v
  | .sse, u, v =>
    if MIN_DIM_SIZE_SIMD ≤ u.len then (dotSimilaritySse A u v).value
    else dotProductNonOptimized A u v
  | .neon, u, v =>
    if MIN_DIM_SIZE_SIMD ≤ u.len then (dotSimilarityNeon A u v).value
    else dotProductNonOptimized A u v

end Spaces

end Hannoy
