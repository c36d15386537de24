import Mathlib.Algebra.BigOperators.Fin

/-!
# Loops that read two vectors

A computation over two vectors in memory, with the offsets it reads of each, in order. Memory is a
function: what lies behind the end of a vector is there too, so that a computation that reads it is
a computation, and its offsets tell.

* `Reads`: a value with the offsets read for it.
* `blocks`: a loop over blocks of `step` coordinates; `single`: one over single ones.
* `reads_blocks`, `value_blocks`: the loop reads its blocks in order, and what each block adds to
  a measure of the state adds up.
* `value_blocks_congr`: the value of a loop is a function of the values of its rounds.
-/

namespace Hannoy.Library

variable {α β σ R : Type}

/-- A value, and the offsets of the two vectors that were read for it. -/
structure Reads (α : Type) where
  value : α
  first : List Nat
  second : List Nat

namespace Reads

instance : Monad Reads where
  pure a := ⟨a, [], []⟩
  bind x f := ⟨(f x.value).value, x.first ++ (f x.value).first, x.second ++ (f x.value).second⟩

@[simp] theorem value_pure (a : α) : (pure a : Reads α).value = a := rfl
@[simp] theorem first_pure (a : α) : (pure a : Reads α).first = [] := rfl
@[simp] theorem second_pure (a : α) : (pure a : Reads α).second = [] := rfl

@[simp] theorem value_bind (x : Reads α) (f : α → Reads β) :
    (x >>= f).value = (f x.value).value := rfl

@[simp] theorem first_bind (x : Reads α) (f : α → Reads β) :
    (x >>= f).first = x.first ++ (f x.value).first := rfl

@[simp] theorem second_bind (x : Reads α) (f : α → Reads β) :
    (x >>= f).second = x.second ++ (f x.value).second := rfl

end Reads

/-! ## Registers -/

/-- A vector register of `w` lanes, the lowest first. -/
abbrev Register (w : Nat) (R : Type) := Fin w → R

/-- Load a register from the first vector. -/
def loadFirst (w : Nat) (memory : Nat → R) (offset : Nat) : Reads (Register w R) :=
  ⟨fun k => memory (offset + k), List.range' offset w, []⟩

/-- Load a register from the second vector. -/
def loadSecond (w : Nat) (memory : Nat → R) (offset : Nat) : Reads (Register w R) :=
  ⟨fun k => memory (offset + k), [], List.range' offset w⟩

/-! ## Loops -/

/-- `while i < m { body; ptr += step; i += step }`. -/
def blocks {step : Nat} (hstep : 0 < step) (m : Nat) (body : Nat → σ → Reads σ) (i ptr : Nat)
    (s : σ) : Reads (Nat × σ) :=
  if i < m then do
    let s ← body ptr s
    blocks hstep m body (i + step) (ptr + step) s
  else pure (ptr, s)
termination_by m - i

/-- `for i in 0..count { body at ptr + i }`. -/
def single (body : Nat → σ → Reads σ) (count ptr : Nat) (s : σ) : Reads σ :=
  (List.range' ptr count).foldlM (fun s offset => body offset s) s

variable {step m : Nat} {hstep : 0 < step} {body : Nat → σ → Reads σ}

theorem blocks_zero (ptr : Nat) (s : σ) : blocks hstep m body m ptr s = pure (ptr, s) := by
  rw [blocks, if_neg (lt_irrefl m)]

theorem blocks_succ {i rounds : Nat} (h : m = i + (rounds + 1) * step) (ptr : Nat) (s : σ) :
    blocks hstep m body i ptr s = (do
      let s ← body ptr s
      blocks hstep m body (i + step) (ptr + step) s) := by
  rw [blocks, if_pos]
  rw [h, Nat.succ_mul]
  omega

theorem range'_append_block (ptr step rounds : Nat) :
    List.range' ptr step ++ List.range' (ptr + step) (rounds * step) =
      List.range' ptr ((rounds + 1) * step) := by
  rw [Nat.succ_mul, Nat.add_comm (rounds * step)]
  exact List.range'_append_1

/-- **The loop reads its blocks in order**, and ends behind the last one. -/
theorem reads_blocks (hfirst : ∀ ptr s, (body ptr s).first = List.range' ptr step)
    (hsecond : ∀ ptr s, (body ptr s).second = List.range' ptr step) :
    ∀ {rounds i : Nat}, m = i + rounds * step → ∀ (ptr : Nat) (s : σ),
      (blocks hstep m body i ptr s).value.1 = ptr + rounds * step ∧
      (blocks hstep m body i ptr s).first = List.range' ptr (rounds * step) ∧
      (blocks hstep m body i ptr s).second = List.range' ptr (rounds * step)
  | 0, i, h, ptr, s => by
    obtain rfl : m = i := by omega
    rw [blocks_zero, Nat.zero_mul]
    exact ⟨rfl, rfl, rfl⟩
  | rounds + 1, i, h, ptr, s => by
    have hnext : m = i + step + rounds * step := by
      rw [h, Nat.succ_mul]
      omega
    obtain ⟨h1, h2, h3⟩ := reads_blocks hfirst hsecond hnext (ptr + step) (body ptr s).value
    rw [blocks_succ h, Reads.value_bind, Reads.first_bind, Reads.second_bind, h1, h2, h3, hfirst,
      hsecond, range'_append_block]
    exact ⟨by rw [Nat.succ_mul]; omega, rfl, rfl⟩

/-- **What the blocks add up**: a measure of the state that each block increases by the sum of the
terms of its coordinates. -/
theorem value_blocks [AddCommMonoid R] {measure : σ → R} {term : Nat → R}
    (hbody : ∀ ptr s, measure (body ptr s).value =
      measure s + ∑ i ∈ Finset.range step, term (ptr + i)) :
    ∀ {rounds i : Nat}, m = i + rounds * step → ∀ (ptr : Nat) (s : σ),
      measure (blocks hstep m body i ptr s).value.2 =
        measure s + ∑ i ∈ Finset.range (rounds * step), term (ptr + i)
  | 0, i, h, ptr, s => by
    obtain rfl : m = i := by omega
    rw [blocks_zero, Nat.zero_mul, Finset.sum_range_zero, add_zero]
    rfl
  | rounds + 1, i, h, ptr, s => by
    have hnext : m = i + step + rounds * step := by
      rw [h, Nat.succ_mul]
      omega
    rw [blocks_succ h, Reads.value_bind, value_blocks hbody hnext, hbody, Nat.succ_mul,
      Nat.add_comm (rounds * step), Finset.sum_range_add, add_assoc]
    simp only [Nat.add_assoc]

/-- The loop over single coordinates reads them in order. -/
theorem reads_single (hfirst : ∀ ptr s, (body ptr s).first = [ptr])
    (hsecond : ∀ ptr s, (body ptr s).second = [ptr]) (count ptr : Nat) (s : σ) :
    (single body count ptr s).first = List.range' ptr count ∧
      (single body count ptr s).second = List.range' ptr count := by
  unfold single
  generalize List.range' ptr count = offsets
  induction offsets generalizing s with
  | nil => exact ⟨rfl, rfl⟩
  | cons offset offsets ih =>
    obtain ⟨h1, h2⟩ := ih (body offset s).value
    rw [List.foldlM_cons, Reads.first_bind, Reads.second_bind, h1, h2, hfirst, hsecond]
    exact ⟨rfl, rfl⟩

/-- What the loop over single coordinates adds up. -/
theorem value_single [AddCommMonoid R] {body : Nat → R → Reads R} {term : Nat → R}
    (hbody : ∀ ptr s, (body ptr s).value = s + term ptr) (count ptr : Nat) (s : R) :
    (single body count ptr s).value = s + ∑ i ∈ Finset.range count, term (ptr + i) := by
  induction count generalizing ptr s with
  | zero => simp [single]
  | succ count ih =>
    have htail := ih (ptr + 1) (body ptr s).value
    unfold single at htail ⊢
    rw [List.range'_succ, List.foldlM_cons, Reads.value_bind, htail, hbody,
      Finset.sum_range_succ', add_assoc, add_comm (term ptr)]
    simp only [Nat.add_assoc, Nat.add_comm 1, Nat.add_zero]

/-! ## Loops with the same values -/

/-- The value of a loop is a function of the values of its rounds. -/
theorem value_blocks_congr {other : Nat → σ → Reads σ}
    (h : ∀ ptr s, (body ptr s).value = (other ptr s).value) : ∀ (i ptr : Nat) (s : σ),
      (blocks hstep m body i ptr s).value = (blocks hstep m other i ptr s).value := by
  intro i ptr s
  induction i, ptr, s using blocks.induct hstep m with
  | case1 i ptr s hlt ih =>
    rw [blocks, if_pos hlt, blocks, if_pos hlt, Reads.value_bind, Reads.value_bind, h]
    exact ih _
  | case2 i ptr s hle =>
    rw [blocks, if_neg hle, blocks, if_neg hle]

theorem value_single_congr {other : Nat → σ → Reads σ}
    (h : ∀ ptr s, (body ptr s).value = (other ptr s).value) (count ptr : Nat) (s : σ) :
    (single body count ptr s).value = (single other count ptr s).value := by
  unfold single
  generalize List.range' ptr count = offsets
  induction offsets generalizing s with
  | nil => rfl
  | cons offset offsets ih =>
    rw [List.foldlM_cons, List.foldlM_cons, Reads.value_bind, Reads.value_bind, h]
    exact ih _

end Hannoy.Library
