import Mathlib.Algebra.Group.Nat.Defs
import Mathlib.Order.Lattice
import Mathlib.Data.Finset.Basic

/-!
# Identifiers, errors and fixed arrays

The scalar types of `lib.rs`, the errors of `error.rs`, and the third-party containers the
builder stores its edges in.

* `ItemId = u32`, `LayerId = u8` (`lib.rs:133-137`). Layers are counted in `usize` while the graph
  is built and cast to a `u8` when a key is made; the cast is `Nat.toUInt8`.
* `RoaringBitmap` is a finite set of `u32`; iterating over one is `Library.ascending`.
* `ArrayVec n` is `tinyvec::ArrayVec<[_; n]>`: at most `n` elements, a push beyond it panics.
* `HeapFits`: the capacities that a heap can be asked for.
-/

namespace Hannoy

instance linearOrderUInt8 : LinearOrder UInt8 where
  le_refl := UInt8.le_refl
  le_trans _ _ _ := UInt8.le_trans
  le_antisymm _ _ := UInt8.le_antisymm
  le_total := UInt8.le_total
  lt_iff_le_not_ge a b := by rw [UInt8.not_le, UInt8.lt_iff_toNat_lt, UInt8.le_iff_toNat_le]; omega
  toDecidableLE := inferInstance
  toDecidableLT := inferInstance
  toDecidableEq := inferInstance
  compare_eq_compareOfLessAndEq := fun _ _ => rfl

instance linearOrderUInt16 : LinearOrder UInt16 where
  le_refl := UInt16.le_refl
  le_trans _ _ _ := UInt16.le_trans
  le_antisymm _ _ := UInt16.le_antisymm
  le_total := UInt16.le_total
  lt_iff_le_not_ge a b := by
    rw [UInt16.not_le, UInt16.lt_iff_toNat_lt, UInt16.le_iff_toNat_le]; omega
  toDecidableLE := inferInstance
  toDecidableLT := inferInstance
  toDecidableEq := inferInstance
  compare_eq_compareOfLessAndEq := fun _ _ => rfl

instance linearOrderUInt32 : LinearOrder UInt32 where
  le_refl := UInt32.le_refl
  le_trans _ _ _ := UInt32.le_trans
  le_antisymm _ _ := UInt32.le_antisymm
  le_total := UInt32.le_total
  lt_iff_le_not_ge a b := by
    rw [UInt32.not_le, UInt32.lt_iff_toNat_lt, UInt32.le_iff_toNat_le]; omega
  toDecidableLE := inferInstance
  toDecidableLT := inferInstance
  toDecidableEq := inferInstance
  compare_eq_compareOfLessAndEq := fun _ _ => rfl

/-- An identifier for the items stored in the database. -/
abbrev ItemId := UInt32

/-- An identifier for the layers of the graph. -/
abbrev LayerId := UInt8

/-- The number of iterations to process before checking for cancellation. -/
def CANCELLATION_PROBING : Nat := 10000

/-- A set of item ids. -/
abbrev RoaringBitmap := Finset ItemId

/-! ## Errors -/

/-- The errors of `error.rs` a build or a search can return. -/
inductive Error where
  | heed
  | invalidVecDimension (expected received : Nat)
  | unmatchingDistance (expected received : String)
  | missingMetadata (index : UInt16)
  | needBuild (index : UInt16)
  | buildCancelled
  | missingKey (index : UInt16) (mode : String) (item : ItemId) (layer : LayerId)
  deriving DecidableEq, Repr

/-- The panics of the builder and of the reader. `outOfFuel` is not one of them: it marks a
loop of the model that did not stop within its bound. -/
inductive Panic where
  /-- `unwrap` of an item that is not stored (`Visitor::visit`). -/
  | missingItem
  /-- `expect("Links must exist")`. -/
  | linksMustExist
  /-- `expect("No neighbor was found")`. -/
  | noNeighborFound
  /-- `visitor.level -= 1` below zero. -/
  | levelUnderflow
  /-- `opt.count - neighbours.len()` below zero. -/
  | countUnderflow
  /-- `res.peek_max().unwrap()` on an empty heap (`HnswBuilder::walk_layer`). -/
  | emptyHeap
  /-- An `ArrayVec` filled beyond its capacity. -/
  | arrayCapacity
  /-- `expect("The metadata must be there")`. -/
  | metadataMissing
  /-- `self.dimensions.try_into().unwrap()` beyond `u32`. -/
  | dimensionsOverflow
  /-- `unreachable!` on an entry of the wrong kind. -/
  | unreachable
  /-- `split_at` or `unwrap` in `NodeCodec::bytes_decode`. -/
  | nodeDecode
  | outOfFuel
  deriving DecidableEq, Repr

/-- How a computation can fail: it returns an error, or it panics. -/
inductive Failure where
  | err (e : Error)
  | panic (p : Panic)
  deriving DecidableEq, Repr

/-! ## Limits of containers -/

/-- `with_capacity(n)` of a heap of links, of 8 bytes each, panics beyond `isize::MAX` bytes. The
heaps of this model take any capacity: a result about panics asks for this one. -/
def HeapFits (n : Nat) : Prop := 8 * n < 2 ^ 63

instance (n : Nat) : Decidable (HeapFits n) := inferInstanceAs (Decidable (_ < _))

/-! ## Fixed arrays -/

/-- `tinyvec::ArrayVec<[α; n]>`. -/
structure ArrayVec (n : Nat) (α : Type) where
  toList : List α
  length_le : toList.length ≤ n
  deriving DecidableEq

namespace ArrayVec

variable {n : Nat} {α : Type}

def empty : ArrayVec n α := ⟨[], Nat.zero_le n⟩

/-- `ArrayVec::from_iter`: panics beyond the capacity. -/
def fromIter (n : Nat) (l : List α) : Except Failure (ArrayVec n α) :=
  if h : l.length ≤ n then .ok ⟨l, h⟩ else .error (.panic .arrayCapacity)

/-- `ArrayVec::push`. -/
def push (v : ArrayVec n α) (a : α) : Except Failure (ArrayVec n α) := fromIter n (v.toList ++ [a])

@[simp] theorem toList_empty : (empty : ArrayVec n α).toList = [] := rfl

theorem fromIter_ok {l : List α} {v : ArrayVec n α} (h : fromIter n l = .ok v) : v.toList = l := by
  unfold fromIter at h
  split at h
  · cases h; rfl
  · cases h

theorem push_ok {v w : ArrayVec n α} {a : α} (h : v.push a = .ok w) :
    w.toList = v.toList ++ [a] :=
  fromIter_ok h

end ArrayVec

end Hannoy
