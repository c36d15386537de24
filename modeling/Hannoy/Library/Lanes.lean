import Mathlib.Data.List.Basic

/-!
# Lanes of a vector register

A register of four lanes, and the loads and stores that move one between a register and memory.
A load or a store that leaves the memory has no result.

* `load_append`: four elements in front of a place are what is loaded there.
* `foldlM_write`: a loop that writes pieces one after the other.
-/

namespace Hannoy.Library

variable {α β γ : Type}

/-- The four lanes of a register, the lowest first. -/
@[ext] structure Lanes (α : Type) where
  e0 : α
  e1 : α
  e2 : α
  e3 : α
  deriving DecidableEq, Repr

namespace Lanes

def toList (v : Lanes α) : List α := [v.e0, v.e1, v.e2, v.e3]

/-- The same element in each lane. -/
def splat (a : α) : Lanes α := ⟨a, a, a, a⟩

def map (f : α → β) (v : Lanes α) : Lanes β := ⟨f v.e0, f v.e1, f v.e2, f v.e3⟩

def zipWith (f : α → β → γ) (v : Lanes α) (w : Lanes β) : Lanes γ :=
  ⟨f v.e0 w.e0, f v.e1 w.e1, f v.e2 w.e2, f v.e3 w.e3⟩

@[simp] theorem length_toList (v : Lanes α) : v.toList.length = 4 := rfl

@[simp] theorem toList_map (f : α → β) (v : Lanes α) : (v.map f).toList = v.toList.map f := rfl

@[simp] theorem toList_splat (a : α) : (splat a).toList = List.replicate 4 a := rfl

@[simp] theorem toList_zipWith (f : α → β → γ) (v : Lanes α) (w : Lanes β) :
    (v.zipWith f w).toList = v.toList.zipWith f w.toList := rfl

theorem map_map (f : α → β) (g : β → γ) (v : Lanes α) : (v.map f).map g = v.map (g ∘ f) := rfl

/-! ## Memory -/

/-- Load the four elements at `offset`. -/
def load (memory : List α) (offset : Nat) : Option (Lanes α) :=
  match memory.drop offset with
  | a :: b :: c :: d :: _ => some ⟨a, b, c, d⟩
  | _ => none

/-- Store the lanes at `offset`. -/
def store (memory : List α) (offset : Nat) (v : Lanes α) : Option (List α) :=
  if offset + 4 ≤ memory.length then
    some (memory.take offset ++ v.toList ++ memory.drop (offset + 4))
  else none

/-- Where there are four elements, they are loaded. -/
theorem exists_load {memory : List α} {offset : Nat} (h : offset + 4 ≤ memory.length) :
    ∃ v : Lanes α, load memory offset = some v ∧ v.toList = (memory.drop offset).take 4 := by
  have hlen : (memory.drop offset).length = memory.length - offset := List.length_drop
  unfold load
  match hd : memory.drop offset with
  | a :: b :: c :: d :: rest => exact ⟨⟨a, b, c, d⟩, rfl, rfl⟩
  | [] | [_] | [_, _] | [_, _, _] =>
    rw [hd] at hlen
    simp at hlen
    omega

theorem store_append (front : List α) {mid : List α} (hmid : mid.length = 4) (back : List α)
    (v : Lanes α) :
    store (front ++ (mid ++ back)) front.length v = some (front ++ (v.toList ++ back)) := by
  rw [store, if_pos (by simp [hmid]), List.take_left, ← List.drop_drop, List.drop_left,
    List.drop_left' hmid, List.append_assoc]

end Lanes

/-! ## Loops that write -/

/-- Write one element; there is no result beyond the end. -/
def setAt (memory : List α) (i : Nat) (a : α) : Option (List α) :=
  if i < memory.length then some (memory.set i a) else none

theorem setAt_append (front : List α) (a b : α) (back : List α) :
    setAt (front ++ ([b] ++ back)) front.length a = some (front ++ ([a] ++ back)) := by
  rw [setAt, if_pos (by simp), List.set_append_right _ _ (Nat.le_refl _), Nat.sub_self]
  rfl

/-- **A loop that writes a piece in each round**: round `k` writes the `k`-th piece of `w`
elements, and the pieces end up one after the other. -/
theorem foldlM_write {ι : Type} {w : Nat} {f : ι → List α}
    {round : List α → ι → Option (List α)} (hf : ∀ x, (f x).length = w) :
    ∀ (xs : List ι) (start : Nat) (front rest : List α), front.length = w * start →
      w * xs.length ≤ rest.length →
      (∀ k x, xs[k]? = some x → ∀ front mid back : List α, front.length = w * (start + k) →
        mid.length = w → round (front ++ (mid ++ back)) x = some (front ++ (f x ++ back))) →
      xs.foldlM round (front ++ rest) =
        some (front ++ (xs.flatMap f ++ rest.drop (w * xs.length)))
  | [], _, _, _, _, _, _ => by simp
  | x :: xs, start, front, rest, hfront, hrest, hround => by
    rw [List.length_cons, Nat.mul_succ] at hrest
    have hmid : (rest.take w).length = w := List.length_take_of_le (by omega)
    have hhead := hround 0 x rfl front (rest.take w) (rest.drop w) hfront hmid
    rw [List.take_append_drop] at hhead
    have htail := foldlM_write hf xs (start + 1) (front ++ f x) (rest.drop w)
      (by rw [List.length_append, hfront, hf, Nat.mul_succ])
      (by rw [List.length_drop]; omega)
      fun k y hy => by
        rw [Nat.add_assoc, Nat.add_comm 1]
        exact hround (k + 1) y hy
    rw [List.foldlM_cons, hhead, Option.bind_eq_bind, Option.bind_some, ← List.append_assoc, htail,
      List.flatMap_cons, List.drop_drop, List.length_cons, Nat.mul_succ, Nat.add_comm w]
    simp only [List.append_assoc]

end Hannoy.Library
