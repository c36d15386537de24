import Mathlib.Data.Prod.Lex
import Mathlib.Order.Lattice

/-!
# Scored identifiers

A `Scored F ι` is an identifier with its distance. The order is lexicographic, distance first
and identifier second, as for the tuples `(distance, id)` of a priority queue.
-/

namespace Hannoy.Library

/-- An identifier with its distance. -/
structure Scored (F ι : Type) where
  dist : F
  id : ι
  deriving DecidableEq, Repr

namespace Scored

variable {F ι : Type} [LinearOrder F] [LinearOrder ι]

/-- The pair `(dist, id)` under the lexicographic order. -/
def toPair (s : Scored F ι) : F ×ₗ ι := toLex (s.dist, s.id)

omit [LinearOrder F] [LinearOrder ι] in
theorem toPair_injective : Function.Injective (toPair : Scored F ι → F ×ₗ ι) := by
  rintro ⟨d, i⟩ ⟨d', i'⟩ h
  simp only [toPair, EmbeddingLike.apply_eq_iff_eq, Prod.mk.injEq] at h
  rw [h.1, h.2]

instance : LinearOrder (Scored F ι) := LinearOrder.lift' toPair toPair_injective

theorem le_def {a b : Scored F ι} : a ≤ b ↔ a.dist < b.dist ∨ a.dist = b.dist ∧ a.id ≤ b.id :=
  Prod.Lex.toLex_le_toLex

theorem lt_def {a b : Scored F ι} : a < b ↔ a.dist < b.dist ∨ a.dist = b.dist ∧ a.id < b.id :=
  Prod.Lex.toLex_lt_toLex

/-- A smaller pair is no farther. -/
theorem dist_le_of_le {a b : Scored F ι} (h : a ≤ b) : a.dist ≤ b.dist := by
  rcases le_def.mp h with h | h
  · exact h.le
  · exact h.1.le

end Scored

end Hannoy.Library
