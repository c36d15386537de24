import Hannoy.Model.Spaces
import Mathlib.Tactic.Ring

/-!
# The kernels compute the plain distances (`spaces/`)

With operations that do not round, the order in which a kernel adds does not matter: each returns
what the plain loop does. Whatever the operations are, each reads the coordinates of both vectors
in order, each once, and nothing behind them.

* `reads_similarity`: what a kernel reads.
* `euclideanDistance_symm`, `dotProduct_symm`: the order of the vectors does not matter.
* `value_similarity`: what it returns, for any width, offsets and horizontal sum that fit together.
* `kernels_eq_plain`: the six kernels.
* `euclideanDistance_exact`, `dotProduct_exact`: so nothing depends on the target.
-/

namespace Hannoy.Spaces

open Hannoy.Library

variable {R : Type} {w step n : Nat} {hstep : 0 < step} {offsets : Fin 4 → Nat}
  {accumulate : R → R → R → R} {hsum : Register w R → R} {term : R → R → R} {f g : Nat → R}

/-! ## What is read -/

/-- The offsets of a kernel: its four registers lie one after the other. -/
def Adjacent (w : Nat) (offsets : Fin 4 → Nat) : Prop := ∀ j, offsets j = w * j

instance : Decidable (Adjacent w offsets) := inferInstanceAs (Decidable (∀ _, _))

theorem range'_adjacent (h : Adjacent w offsets) (ptr : Nat) :
    List.range' (ptr + offsets 0) w ++ (List.range' (ptr + offsets 1) w ++
      (List.range' (ptr + offsets 2) w ++ List.range' (ptr + offsets 3) w)) =
    List.range' ptr (4 * w) := by
  rw [h 0, h 1, h 2, h 3, show w * ((0 : Fin 4) : Nat) = 0 from rfl,
    show w * ((1 : Fin 4) : Nat) = w * 1 from rfl, show w * ((2 : Fin 4) : Nat) = w * 2 from rfl,
    show w * ((3 : Fin 4) : Nat) = w * 3 from rfl, show ptr + w * 3 = ptr + w * 2 + w by omega,
    List.range'_append_1, show ptr + w * 2 = ptr + w * 1 + w by omega, List.range'_append_1,
    show ptr + w * 1 = ptr + 0 + w by omega, List.range'_append_1, Nat.add_zero,
    show 4 * w = w + (w + (w + w)) by omega]

theorem reads_round (h : Adjacent w offsets) (ptr : Nat) (s : Sums w R) :
    (round offsets accumulate f g ptr s).first = List.range' ptr (4 * w) ∧
      (round offsets accumulate f g ptr s).second = List.range' ptr (4 * w) := by
  rw [← range'_adjacent h]
  constructor <;> simp [round, loadFirst, loadSecond]

theorem mod_split (n step : Nat) : n - n % step = 0 + n / step * step := by
  have := Nat.div_add_mod n step
  rw [Nat.mul_comm] at this
  omega

/-- **A kernel reads the coordinates in order, each once**, and nothing else. -/
theorem reads_similarity (A : Arithmetic R) (h : Adjacent w offsets) (hw : step = 4 * w) :
    (similarity A hstep offsets accumulate hsum term ⟨n, f⟩ ⟨n, g⟩).first = List.range n ∧
      (similarity A hstep offsets accumulate hsum term ⟨n, f⟩ ⟨n, g⟩).second = List.range n := by
  subst hw
  obtain ⟨hptr, hfirst, hsecond⟩ := @reads_blocks _ _ _ hstep (round offsets accumulate f g)
    (fun ptr s => (reads_round h ptr s).1) (fun ptr s => (reads_round h ptr s).2) _ _
    (mod_split n (4 * w)) 0
    ⟨fun _ => A.zero, fun _ => A.zero, fun _ => A.zero, fun _ => A.zero⟩
  have htail := fun ptr result => @reads_single _ (tail A term f g)
    (fun _ _ => rfl) (fun _ _ => rfl) (n - (n - n % (4 * w))) ptr result
  have hsplit : List.range' 0 (n / (4 * w) * (4 * w)) ++
      List.range' (0 + n / (4 * w) * (4 * w)) (n - (n - n % (4 * w))) = List.range n := by
    rw [List.range'_append_1, ← List.range_eq_range']
    congr 1
    have := mod_split n (4 * w)
    have := Nat.mod_le n (4 * w)
    omega
  unfold similarity
  simp only [Reads.first_bind, Reads.second_bind, hfirst, hsecond, hptr, (htail _ _).1,
    (htail _ _).2, hsplit, and_self]

/-! ## Symmetry -/

/-- Operations that do not depend on the order of two coordinates. -/
structure Symmetric (A : Arithmetic R) : Prop where
  mul : ∀ a b, A.mul a b = A.mul b a
  mulAdd : ∀ a b c, A.mulAdd a b c = A.mulAdd b a c
  mul_sub : ∀ a b, A.mul (A.sub a b) (A.sub a b) = A.mul (A.sub b a) (A.sub b a)
  mulAdd_sub : ∀ a b c,
    A.mulAdd (A.sub a b) (A.sub a b) c = A.mulAdd (A.sub b a) (A.sub b a) c

variable {A : Arithmetic R} {u v : Buffer R}

/-- Whatever the operations are, a kernel whose steps are symmetric is symmetric. -/
theorem similarity_symm (hacc : ∀ s a b, accumulate s a b = accumulate s b a)
    (hterm : ∀ a b, term a b = term b a) (hlen : u.len = v.len) :
    (similarity A hstep offsets accumulate hsum term u v).value =
      (similarity A hstep offsets accumulate hsum term v u).value := by
  have hround : ∀ (ptr : Nat) (s : Sums w R), (round offsets accumulate u.read v.read ptr s).value =
      (round offsets accumulate v.read u.read ptr s).value := by
    intro ptr s
    simp only [round, Reads.value_bind, Reads.value_pure, loadFirst, loadSecond,
      fun s k l => hacc s (u.read k) (v.read l)]
  have htail : ∀ ptr result, (tail A term u.read v.read ptr result).value =
      (tail A term v.read u.read ptr result).value := by
    intro ptr result
    exact congrArg (A.add result) (hterm _ _)
  unfold similarity
  simp only [Reads.value_bind, hlen]
  rw [value_blocks_congr hround, value_single_congr htail]

theorem plain_symm {term : R → R → R} (hterm : ∀ a b, term a b = term b a) :
    (u.iter.zipWith term v.iter).foldl A.add A.sumStart =
      (v.iter.zipWith term u.iter).foldl A.add A.sumStart := by
  rw [List.zipWith_comm]
  simp only [hterm]

/-- **The squared euclidean distance is symmetric** on every target. -/
theorem euclideanDistance_symm (h : Symmetric A) (hlen : u.len = v.len) (target : Target) :
    euclideanDistance A target u v = euclideanDistance A target v u := by
  have hplain : euclideanDistanceNonOptimized A u v = euclideanDistanceNonOptimized A v u :=
    plain_symm h.mul_sub
  have havx : (euclidSimilarityAvx A u v).value = (euclidSimilarityAvx A v u).value :=
    similarity_symm (fun s a b => h.mulAdd_sub a b s) h.mul_sub hlen
  have hsse : (euclidSimilaritySse A u v).value = (euclidSimilaritySse A v u).value :=
    similarity_symm (fun s a b => congrArg (A.add · s) (h.mul_sub a b)) h.mul_sub hlen
  have hneon : (euclidSimilarityNeon A u v).value = (euclidSimilarityNeon A v u).value :=
    similarity_symm (fun s a b => h.mulAdd_sub a b s) h.mul_sub hlen
  cases target with
  | plain => exact hplain
  | avx => simp only [euclideanDistance, havx, hsse, hplain, hlen]
  | sse => simp only [euclideanDistance, hsse, hplain, hlen]
  | neon => simp only [euclideanDistance, hneon, hplain, hlen]

/-- **The dot product is symmetric** on every target. -/
theorem dotProduct_symm (h : Symmetric A) (hlen : u.len = v.len) (target : Target) :
    dotProduct A target u v = dotProduct A target v u := by
  have hplain : dotProductNonOptimized A u v = dotProductNonOptimized A v u := plain_symm h.mul
  have havx : (dotSimilarityAvx A u v).value = (dotSimilarityAvx A v u).value :=
    similarity_symm (fun s a b => h.mulAdd a b s) h.mul hlen
  have hsse : (dotSimilaritySse A u v).value = (dotSimilaritySse A v u).value :=
    similarity_symm (fun s a b => congrArg (A.add · s) (h.mul a b)) h.mul hlen
  have hneon : (dotSimilarityNeon A u v).value = (dotSimilarityNeon A v u).value :=
    similarity_symm (fun s a b => h.mulAdd a b s) h.mul hlen
  cases target with
  | plain => exact hplain
  | avx => simp only [dotProduct, havx, hsse, hplain, hlen]
  | sse => simp only [dotProduct, hsse, hplain, hlen]
  | neon => simp only [dotProduct, hneon, hplain, hlen]

/-! ## What is returned -/

variable [CommRing R]

/-- The operations of a ring, which do not round. -/
def exact (R : Type) [CommRing R] : Arithmetic R where
  zero := 0
  sumStart := 0
  add := (· + ·)
  sub := (· - ·)
  mul := (· * ·)
  mulAdd a b c := a * b + c

/-- What the accumulators have added up. -/
def Sums.total (s : Sums w R) : R :=
  ((∑ k, s.sum1 k) + ∑ k, s.sum2 k) + (∑ k, s.sum3 k) + ∑ k, s.sum4 k

theorem sum_block (F : Nat → R) (w ptr : Nat) :
    ∑ i ∈ Finset.range (4 * w), F (ptr + i) =
      (((∑ k : Fin w, F (ptr + w * 0 + k)) + ∑ k : Fin w, F (ptr + w * 1 + k)) +
        ∑ k : Fin w, F (ptr + w * 2 + k)) + ∑ k : Fin w, F (ptr + w * 3 + k) := by
  rw [show 4 * w = w + w + w + w by omega]
  simp only [Finset.sum_range_add]
  rw [show w + w + w = w * 3 by omega, show w + w = w * 2 by omega]
  simp only [Finset.sum_range, Nat.mul_zero, Nat.mul_one, Nat.add_zero, Nat.add_assoc]

/-- A round adds the terms of its coordinates to the accumulators. -/
theorem total_round (h : Adjacent w offsets) (hacc : ∀ s a b, accumulate s a b = s + term a b)
    (ptr : Nat) (s : Sums w R) :
    (round offsets accumulate f g ptr s).value.total =
      s.total + ∑ i ∈ Finset.range (4 * w), term (f (ptr + i)) (g (ptr + i)) := by
  rw [sum_block (fun i => term (f i) (g i))]
  simp only [Sums.total, round, Reads.value_bind, Reads.value_pure, loadFirst, loadSecond, hacc,
    Finset.sum_add_distrib, h 0, h 1, h 2, h 3]
  simp only [show ((0 : Fin 4) : Nat) = 0 from rfl, show ((1 : Fin 4) : Nat) = 1 from rfl,
    show ((2 : Fin 4) : Nat) = 2 from rfl, show ((3 : Fin 4) : Nat) = 3 from rfl]
  ring

/-- A tail adds the terms of its coordinates. -/
theorem value_tail (ptr : Nat) (result : R) :
    (tail (exact R) term f g ptr result).value = result + term (f ptr) (g ptr) := rfl

/-- **What a kernel returns**: the sum of the terms of its coordinates. -/
theorem value_similarity (h : Adjacent w offsets) (hw : step = 4 * w)
    (hacc : ∀ s a b, accumulate s a b = s + term a b) (hsum_eq : ∀ r, hsum r = ∑ k, r k) :
    (similarity (exact R) hstep offsets accumulate hsum term ⟨n, f⟩ ⟨n, g⟩).value =
      ∑ i ∈ Finset.range n, term (f i) (g i) := by
  subst hw
  let start : Sums w R := ⟨fun _ => 0, fun _ => 0, fun _ => 0, fun _ => 0⟩
  let loop := blocks hstep (n - n % (4 * w)) (round offsets accumulate f g) 0 0 start
  have hptr : loop.value.1 = 0 + n / (4 * w) * (4 * w) :=
    (reads_blocks (fun ptr s => (reads_round h ptr s).1) (fun ptr s => (reads_round h ptr s).2)
      (mod_split n (4 * w)) 0 start).1
  have htotal : loop.value.2.total =
      start.total + ∑ i ∈ Finset.range (n / (4 * w) * (4 * w)), term (f (0 + i)) (g (0 + i)) :=
    @value_blocks _ R _ _ hstep _ _ Sums.total (fun i => term (f i) (g i))
      (total_round h hacc) _ _ (mod_split n (4 * w)) 0 start
  have hstart : start.total = 0 := by simp [start, Sums.total]
  have hlen : n = n / (4 * w) * (4 * w) + (n - (n - n % (4 * w))) := by
    have := mod_split n (4 * w)
    have := Nat.mod_le n (4 * w)
    omega
  calc
    _ = (single (tail (exact R) term f g) (n - (n - n % (4 * w))) loop.value.1
          (hsum loop.value.2.sum1 + hsum loop.value.2.sum2 + hsum loop.value.2.sum3 +
            hsum loop.value.2.sum4)).value := rfl
    _ = loop.value.2.total + ∑ i ∈ Finset.range (n - (n - n % (4 * w))),
          term (f (loop.value.1 + i)) (g (loop.value.1 + i)) := by
      rw [value_single (fun ptr result => value_tail ptr result), hsum_eq, hsum_eq, hsum_eq,
        hsum_eq, Sums.total]
    _ = ∑ i ∈ Finset.range n, term (f i) (g i) := by
      conv_rhs => rw [hlen, Finset.sum_range_add]
      rw [htotal, hstart, hptr]
      simp only [zero_add]

/-! ## The plain loops -/

theorem foldl_add (l : List R) : ∀ a : R, l.foldl (exact R).add a = a + l.sum := by
  induction l with
  | nil => exact fun a => (add_zero a).symm
  | cons x l ih =>
    intro a
    rw [List.foldl_cons, ih, List.sum_cons]
    exact add_assoc a x l.sum

theorem value_plain (n : Nat) (f g : Nat → R) :
    ((Buffer.iter ⟨n, f⟩).zipWith term (Buffer.iter ⟨n, g⟩)).foldl (exact R).add (exact R).zero =
      ∑ i ∈ Finset.range n, term (f i) (g i) := by
  have hzip : (Buffer.iter ⟨n, f⟩).zipWith term (Buffer.iter ⟨n, g⟩) =
      (List.range n).map fun i => term (f i) (g i) := by
    rw [Buffer.iter, Buffer.iter, List.zipWith_map, List.zipWith_self]
  rw [foldl_add, hzip]
  exact zero_add _

/-! ## The six kernels -/

theorem hsum256PsAvx_exact (x : Register 8 R) : hsum256PsAvx (exact R) x = ∑ k, x k := by
  rw [Fin.sum_univ_eight]
  simp only [hsum256PsAvx, mmAddSs, mmAddPs, mmMovehlPs, mmShufflePs55, mm256Extractf128Ps1,
    mm256Castps256Ps128, exact, Matrix.cons_val]
  ring

theorem hsum128PsSse_exact (x : Register 4 R) : hsum128PsSse (exact R) x = ∑ k, x k := by
  rw [Fin.sum_univ_four]
  simp only [hsum128PsSse, mmAddSs, mmAddPs, mmMovehlPs, mmShufflePs55, exact, Matrix.cons_val]
  ring

theorem vaddvqF32_exact (x : Register 4 R) : vaddvqF32 (exact R) x = ∑ k, x k := by
  rw [Fin.sum_univ_four]
  exact (add_assoc _ _ _).symm

/-- The registers of an AVX kernel. -/
theorem adjacent_avx : Adjacent 8 ![0, 8, 16, 24] := by decide

/-- The registers of an SSE or a NEON kernel. -/
theorem adjacent_simd : Adjacent 4 ![0, 4, 8, 12] := by decide

/-- A kernel and the plain loop with the same term. -/
theorem similarity_eq_plain (h : Adjacent w offsets) (hw : step = 4 * w)
    (hacc : ∀ s a b, accumulate s a b = s + term a b) (hsum_eq : ∀ r, hsum r = ∑ k, r k)
    (n : Nat) (f g : Nat → R) :
    let kernel := similarity (exact R) hstep offsets accumulate hsum term ⟨n, f⟩ ⟨n, g⟩
    kernel.value = ((Buffer.iter ⟨n, f⟩).zipWith term (Buffer.iter ⟨n, g⟩)).foldl (exact R).add
        (exact R).zero ∧
      kernel.first = List.range n ∧ kernel.second = List.range n :=
  ⟨(value_similarity h hw hacc hsum_eq).trans (value_plain n f g).symm, reads_similarity _ h hw⟩

theorem mulAdd_euclid (s a b : R) :
    (exact R).mulAdd ((exact R).sub a b) ((exact R).sub a b) s = s + subSquared (exact R) a b :=
  add_comm _ s

theorem mulAdd_dot (s a b : R) : (exact R).mulAdd a b s = s + (exact R).mul a b := add_comm _ s

/-- **The kernels return what the plain loops return, and read nothing else**: with operations that
do not round, for every pair of vectors of one length, each kernel has the value of the plain loop,
and reads the coordinates of both vectors in order, each once. -/
theorem kernels_eq_plain (n : Nat) (f g : Nat → R) :
    (∀ kernel ∈ [euclidSimilarityAvx, euclidSimilaritySse, euclidSimilarityNeon],
      (kernel (exact R) ⟨n, f⟩ ⟨n, g⟩).value =
          euclideanDistanceNonOptimized (exact R) ⟨n, f⟩ ⟨n, g⟩ ∧
        (kernel (exact R) ⟨n, f⟩ ⟨n, g⟩).first = List.range n ∧
        (kernel (exact R) ⟨n, f⟩ ⟨n, g⟩).second = List.range n) ∧
    (∀ kernel ∈ [dotSimilarityAvx, dotSimilaritySse, dotSimilarityNeon],
      (kernel (exact R) ⟨n, f⟩ ⟨n, g⟩).value = dotProductNonOptimized (exact R) ⟨n, f⟩ ⟨n, g⟩ ∧
        (kernel (exact R) ⟨n, f⟩ ⟨n, g⟩).first = List.range n ∧
        (kernel (exact R) ⟨n, f⟩ ⟨n, g⟩).second = List.range n) := by
  constructor
  · intro kernel hkernel
    simp only [List.mem_cons, List.not_mem_nil, or_false] at hkernel
    obtain rfl | rfl | rfl := hkernel
    · exact similarity_eq_plain adjacent_avx rfl mulAdd_euclid hsum256PsAvx_exact n f g
    · exact similarity_eq_plain adjacent_simd rfl mulAdd_euclid hsum128PsSse_exact n f g
    · exact similarity_eq_plain adjacent_simd rfl mulAdd_euclid vaddvqF32_exact n f g
  · intro kernel hkernel
    simp only [List.mem_cons, List.not_mem_nil, or_false] at hkernel
    obtain rfl | rfl | rfl := hkernel
    · exact similarity_eq_plain adjacent_avx rfl mulAdd_dot hsum256PsAvx_exact n f g
    · exact similarity_eq_plain adjacent_simd rfl mulAdd_dot hsum128PsSse_exact n f g
    · exact similarity_eq_plain adjacent_simd rfl mulAdd_dot vaddvqF32_exact n f g

/-- The squared euclidean distance does not depend on the target. -/
theorem euclideanDistance_exact (n : Nat) (f g : Nat → R) (target : Target) :
    euclideanDistance (exact R) target ⟨n, f⟩ ⟨n, g⟩ =
      euclideanDistanceNonOptimized (exact R) ⟨n, f⟩ ⟨n, g⟩ := by
  have havx : (euclidSimilarityAvx (exact R) ⟨n, f⟩ ⟨n, g⟩).value =
      euclideanDistanceNonOptimized (exact R) ⟨n, f⟩ ⟨n, g⟩ :=
    (similarity_eq_plain adjacent_avx rfl mulAdd_euclid hsum256PsAvx_exact n f g).1
  have hsse : (euclidSimilaritySse (exact R) ⟨n, f⟩ ⟨n, g⟩).value =
      euclideanDistanceNonOptimized (exact R) ⟨n, f⟩ ⟨n, g⟩ :=
    (similarity_eq_plain adjacent_simd rfl mulAdd_euclid hsum128PsSse_exact n f g).1
  have hneon : (euclidSimilarityNeon (exact R) ⟨n, f⟩ ⟨n, g⟩).value =
      euclideanDistanceNonOptimized (exact R) ⟨n, f⟩ ⟨n, g⟩ :=
    (similarity_eq_plain adjacent_simd rfl mulAdd_euclid vaddvqF32_exact n f g).1
  cases target with
  | plain => rfl
  | avx => simp only [euclideanDistance, havx, hsse, ite_self]
  | sse => simp only [euclideanDistance, hsse, ite_self]
  | neon => simp only [euclideanDistance, hneon, ite_self]

/-- Nor does the dot product. -/
theorem dotProduct_exact (n : Nat) (f g : Nat → R) (target : Target) :
    dotProduct (exact R) target ⟨n, f⟩ ⟨n, g⟩ =
      dotProductNonOptimized (exact R) ⟨n, f⟩ ⟨n, g⟩ := by
  have havx : (dotSimilarityAvx (exact R) ⟨n, f⟩ ⟨n, g⟩).value =
      dotProductNonOptimized (exact R) ⟨n, f⟩ ⟨n, g⟩ :=
    (similarity_eq_plain adjacent_avx rfl mulAdd_dot hsum256PsAvx_exact n f g).1
  have hsse : (dotSimilaritySse (exact R) ⟨n, f⟩ ⟨n, g⟩).value =
      dotProductNonOptimized (exact R) ⟨n, f⟩ ⟨n, g⟩ :=
    (similarity_eq_plain adjacent_simd rfl mulAdd_dot hsum128PsSse_exact n f g).1
  have hneon : (dotSimilarityNeon (exact R) ⟨n, f⟩ ⟨n, g⟩).value =
      dotProductNonOptimized (exact R) ⟨n, f⟩ ⟨n, g⟩ :=
    (similarity_eq_plain adjacent_simd rfl mulAdd_dot vaddvqF32_exact n f g).1
  cases target with
  | plain => rfl
  | avx => simp only [dotProduct, havx, hsse, ite_self]
  | sse => simp only [dotProduct, hsse, ite_self]
  | neon => simp only [dotProduct, hneon, ite_self]

end Hannoy.Spaces
