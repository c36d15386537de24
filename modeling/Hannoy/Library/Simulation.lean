import Mathlib.Logic.Function.Basic
import Mathlib.Data.List.Basic

/-!
# Simulations of systems

A system steps from state to state under events; an event is a call together with its answer. One
system simulates another along a relation of their states when it can answer every step of the
other with the same event. Its runs then have every history the other has.

* `Simulates.exec`: from steps to runs.
* `Simulates.pi`: a system that serves many, each of its steps in the part of one of them, is
  simulated by the systems side by side.
* `System.versioned`: a system with one writer at a time, whose changes are seen by readers once
  they are committed. `Simulates.versioned`: a simulation carries over to it.
-/

namespace Hannoy.Library

variable {S T E Q K ι : Type}

/-- States and steps under events. -/
structure System (S E : Type) where
  init : S → Prop
  step : S → E → S → Prop

namespace System

/-- The states after a history, the latest event first. -/
inductive Exec (A : System S E) : List E → S → Prop
  | start {s : S} (h : A.init s) : Exec A [] s
  | step {tr : List E} {s s' : S} {e : E} (h : Exec A tr s) (hs : A.step s e s') :
      Exec A (e :: tr) s'

/-- Systems side by side: an event names the one it happens in. -/
def pi (A : ι → System T E) [DecidableEq ι] : System (ι → T) (ι × E) where
  init t := ∀ i, (A i).init (t i)
  step t e t' := ∃ u, (A e.1).step (t e.1) e.2 u ∧ t' = Function.update t e.1 u

end System

/-- `A` simulates `C` along `R`. -/
structure Simulates (R : S → T → Prop) (C : System S E) (A : System T E) : Prop where
  init : ∀ {s}, C.init s → ∃ t, A.init t ∧ R s t
  step : ∀ {s t e s'}, R s t → C.step s e s' → ∃ t', A.step t e t' ∧ R s' t'

namespace Simulates

variable {R : S → T → Prop} {C : System S E} {A : System T E}

/-- **Every history is one of the simulating system**, and leads to related states. -/
theorem exec (h : Simulates R C A) {tr : List E} {s : S} (hs : C.Exec tr s) :
    ∃ t, A.Exec tr t ∧ R s t := by
  induction hs with
  | start hs =>
    obtain ⟨t, ht, hR⟩ := h.init hs
    exact ⟨t, .start ht, hR⟩
  | step _ hs ih =>
    obtain ⟨t, ht, hR⟩ := ih
    obtain ⟨t', ht', hR'⟩ := h.step hR hs
    exact ⟨t', .step ht ht', hR'⟩

/-- **A shared system is simulated part by part**: each step answers to the part it names and leaves
what the others see. -/
theorem pi [DecidableEq ι] {R : ι → S → T → Prop} {C : System S (ι × E)} {A : ι → System T E}
    (hinit : ∀ i {s}, C.init s → ∃ t, (A i).init t ∧ R i s t)
    (hown : ∀ i {s t e s'}, R i s t → C.step s (i, e) s' → ∃ t', (A i).step t e t' ∧ R i s' t')
    (hframe : ∀ i j {s t e s'}, j ≠ i → R j s t → C.step s (i, e) s' → R j s' t) :
    Simulates (fun s t => ∀ i, R i s (t i)) C (System.pi A) where
  init hs := by
    choose t ht hR using fun i => hinit i hs
    exact ⟨t, ht, hR⟩
  step := by
    rintro s t ⟨i, e⟩ s' hR hs
    obtain ⟨u, hu, hRu⟩ := hown i (hR i) hs
    refine ⟨Function.update t i u, ⟨u, hu, rfl⟩, fun j => ?_⟩
    by_cases hj : j = i
    · subst hj
      rwa [Function.update_self]
    · rw [Function.update_of_ne hj]
      exact hframe i j hj (hR j) hs

end Simulates

/-! ## One writer, many readers -/

/-- What was committed last, what the write transaction has made of it, and the versions that
readers hold. Without a write transaction `current` is what was committed. -/
structure Versions (S K : Type) where
  saved : S
  current : S
  held : K → Option S

/-- Events around a store: a call in the write transaction, its end, and readers, which hold the
version they began with. -/
inductive Versioned (E Q K : Type) where
  | write (e : E)
  | commit
  | abort
  | look (q : Q)
  | attach (k : K)
  | read (k : K) (q : Q)
  | detach (k : K)

namespace System

/-- The steps of `A` in write transactions, and looks at its states. -/
inductive VersionedStep [DecidableEq K] (A : System S E) (view : S → Q → Prop) :
    Versions S K → Versioned E Q K → Versions S K → Prop
  | write {v : Versions S K} {e : E} {s : S} (h : A.step v.current e s) :
      VersionedStep A view v (.write e) { v with current := s }
  | commit {v : Versions S K} : VersionedStep A view v .commit { v with saved := v.current }
  | abort {v : Versions S K} : VersionedStep A view v .abort { v with current := v.saved }
  | look {v : Versions S K} {q : Q} (h : view v.current q) : VersionedStep A view v (.look q) v
  | attach {v : Versions S K} (k : K) :
      VersionedStep A view v (.attach k) { v with held := Function.update v.held k (some v.saved) }
  | read {v : Versions S K} {k : K} {q : Q} {s : S} (hk : v.held k = some s) (h : view s q) :
      VersionedStep A view v (.read k q) v
  | detach {v : Versions S K} (k : K) :
      VersionedStep A view v (.detach k) { v with held := Function.update v.held k none }

variable (K) in
/-- `A` with one writer at a time and readers of what was committed. -/
def versioned [DecidableEq K] (A : System S E) (view : S → Q → Prop) :
    System (Versions S K) (Versioned E Q K) where
  init v := A.init v.saved ∧ v.current = v.saved ∧ ∀ k, v.held k = none
  step := VersionedStep A view

end System

/-- Versions related one by one. -/
structure VersionsRel (R : S → T → Prop) (v : Versions S K) (w : Versions T K) : Prop where
  saved : R v.saved w.saved
  current : R v.current w.current
  held : ∀ k, Option.Rel R (v.held k) (w.held k)

/-- **A simulation carries over to versions**, when what is seen of related states is the same. -/
theorem Simulates.versioned [DecidableEq K] {R : S → T → Prop} {C : System S E} {A : System T E}
    {viewC : S → Q → Prop} {viewA : T → Q → Prop} (h : Simulates R C A)
    (hview : ∀ {s t q}, R s t → viewC s q → viewA t q) :
    Simulates (VersionsRel R) (C.versioned K viewC) (A.versioned K viewA) where
  init := by
    rintro v ⟨hinit, hcurrent, hheld⟩
    obtain ⟨t, ht, hR⟩ := h.init hinit
    refine ⟨⟨t, t, fun _ => none⟩, ⟨ht, rfl, fun _ => rfl⟩, hR, hcurrent ▸ hR, fun k => ?_⟩
    rw [hheld k]
    exact .none
  step := by
    rintro v w e v' hR hs
    have hupdate : ∀ (k : K) {o : Option S} {p : Option T}, Option.Rel R o p → ∀ k',
        Option.Rel R (Function.update v.held k o k') (Function.update w.held k p k') := by
      intro k o p hop k'
      by_cases hk : k' = k
      · subst hk
        rwa [Function.update_self, Function.update_self]
      · rw [Function.update_of_ne hk, Function.update_of_ne hk]
        exact hR.held k'
    cases hs with
    | write hs =>
      obtain ⟨t, ht, hRt⟩ := h.step hR.current hs
      exact ⟨_, .write ht, hR.saved, hRt, hR.held⟩
    | commit => exact ⟨_, .commit, hR.current, hR.current, hR.held⟩
    | abort => exact ⟨_, .abort, hR.saved, hR.saved, hR.held⟩
    | look hq => exact ⟨_, .look (hview hR.current hq), hR⟩
    | attach k => exact ⟨_, .attach k, hR.saved, hR.current, hupdate k (.some hR.saved)⟩
    | @read k q s hk hq =>
      have hrel := hR.held k
      rw [hk] at hrel
      cases hw : w.held k with
      | none =>
        rw [hw] at hrel
        cases hrel
      | some t =>
        rw [hw] at hrel
        cases hrel with
        | some hst => exact ⟨_, .read hw (hview hst hq), hR⟩
    | detach k => exact ⟨_, .detach k, hR.saved, hR.current, hupdate k .none⟩

end Hannoy.Library
