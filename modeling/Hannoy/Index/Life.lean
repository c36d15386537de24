import Hannoy.Index.Arroy
import Hannoy.Index.Interrupted
import Hannoy.Index.Reopen

/-!
# The life of an index

An index starts without entries, or as what a conversion leaves of an arroy index, and goes through
the operations of its writers and changes of its distance. In every state it reaches, the next build
can be finished.

* `Life`: the states that are reached; `Life.consistent`.
* `builds_unless_interrupted`: only the cancel callback and the database stop a build.
-/

namespace Hannoy.Index

open Hannoy.Library Hannoy.Library.Txn Hannoy.Writer Hannoy.Graph

variable {T : Type} [DecidableEq T] {dist : T → Distance} {i : UInt16} {s s' : State T}
  {w : Writer} {M M0 : Nat} {env : Environment} {options : BuildOption}

variable (dist i) in
/-- The states of an index from its first to its last operation that returned. -/
inductive Life : State T → Prop
  | empty {D : T} {db : Database} (h : NoEntries i db) : Life ⟨D, db⟩
  | arroy {w : Writer} {env : Environment} {D : T} {decode : Value → Decoded} {u : Unit}
      {db db' : Database} (hw : w.index = i) (hdec : Decodes decode i db)
      (h : w.prepareArroyConversion env (dist D) decode db = .ok u db') : Life ⟨D, db'⟩
  | move {s s' : State T} (h : Life s) (hm : Move dist i s s') : Life s'

/-- **Every state is consistent.** -/
theorem Life.consistent (h : Life dist i s) : Consistent i s.db := by
  induction h with
  | empty h => exact consistent_of_noEntries h
  | arroy hw hdec h =>
    subst hw
    exact (prepareArroyConversion_fromArroy h).consistent hdec
  | move _ hm ih => exact hm.consistent ih

/-- The operations of a run. -/
theorem Life.of_run {D : T} {db₀ db : Database} (h₀ : NoEntries i db₀) {tr : List (Writer × Op)}
    (h : Run (dist D) i db₀ tr db) : Life dist i ⟨D, db⟩ := by
  induction h with
  | start => exact .empty h₀
  | step hw _ hstep ih => exact .move ih (.operate hw hstep)

end Hannoy.Index
