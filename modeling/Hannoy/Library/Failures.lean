import Hannoy.Library.Server
import Hannoy.Library.Txn

/-!
# How a computation can fail

Which errors are left once everything that can go wrong inside a computation is ruled out. The
errors are a predicate `E`; the three kinds of computation have the same rules.

* `Fails E x`: a value of `Except`.
* `FailsFrom E x s`: a transaction started in `s`.
* `p.FailsOnly exec E`: a client of a server, whatever state each of its requests finds.

A step of a sequence may use what the steps before it are known to return. `interleave_fails` is
the result for clients that are served together: they fail only as each of them fails alone.
-/

namespace Hannoy.Library

/-! ## Values -/

section values

variable {ε α β γ : Type} {E : ε → Prop}

/-- The computation fails with an error in `E` only. -/
def Fails (E : ε → Prop) (x : Except ε α) : Prop := ∀ e, x = .error e → E e

namespace Fails

theorem ok (a : α) : Fails E (.ok a : Except ε α) := fun _ h => by cases h

theorem error {e : ε} (h : E e) : Fails E (.error e : Except ε α) := fun _ heq => by
  cases heq
  exact h

/-- A computation that returns. -/
theorem of_ok {x : Except ε α} {a : α} (h : x = .ok a) : Fails E x := h ▸ ok a

theorem bind {x : Except ε α} {f : α → Except ε β} (hx : Fails E x)
    (hf : ∀ a, x = .ok a → Fails E (f a)) : Fails E (x >>= f) := by
  cases x with
  | ok a => exact hf a rfl
  | error e => exact error (hx e rfl)

theorem map {x : Except ε α} (hx : Fails E x) (f : α → β) : Fails E (x.map f) := by
  cases x with
  | ok a => exact ok (f a)
  | error e => exact error (hx e rfl)

/-- A loop whose body keeps `J`. -/
theorem foldlM {f : β → γ → Except ε β} {J : β → Prop} : ∀ {l : List γ},
    (∀ x ∈ l, ∀ b, J b → Fails E (f b x) ∧ ∀ b', f b x = .ok b' → J b') →
      ∀ {b : β}, J b → Fails E (l.foldlM f b)
  | [], _, b, _ => ok b
  | x :: l, hf, b, hb => by
    obtain ⟨hfail, hkeep⟩ := hf x List.mem_cons_self b hb
    rw [List.foldlM_cons]
    exact hfail.bind fun b' hb' =>
      foldlM (fun y hy => hf y (List.mem_cons_of_mem x hy)) (hkeep b' hb')

theorem mapM {f : α → Except ε β} : ∀ {l : List α}, (∀ a ∈ l, Fails E (f a)) →
    Fails E (l.mapM f)
  | [], _ => ok []
  | a :: l, hf => by
    rw [List.mapM_cons]
    exact (hf a List.mem_cons_self).bind fun b _ =>
      (mapM fun c hc => hf c (List.mem_cons_of_mem a hc)).bind fun bs _ => ok (b :: bs)

/-- A computation that cannot fail returns. -/
theorem returns {x : Except ε α} (h : Fails (fun _ => False) x) : ∃ a, x = .ok a := by
  cases x with
  | ok a => exact ⟨a, rfl⟩
  | error e => exact (h e rfl).elim

end Fails

end values

/-! ## Transactions -/

section transactions

variable {ε σ α β : Type} {E : ε → Prop}

/-- Started in `s`, the transaction fails with an error in `E` only. -/
def FailsFrom (E : ε → Prop) (x : EStateM ε σ α) (s : σ) : Prop :=
  ∀ e s', x s = .error e s' → E e

namespace FailsFrom

variable {s : σ}

theorem pure (a : α) : FailsFrom E (pure a : EStateM ε σ α) s := fun _ _ h => by cases h

theorem throw {e : ε} (h : E e) : FailsFrom E (throw e : EStateM ε σ α) s := fun _ _ heq => by
  cases heq
  exact h

theorem modify (f : σ → σ) : FailsFrom E (modify f : EStateM ε σ PUnit) s :=
  fun _ _ h => by cases h

theorem bind {x : EStateM ε σ α} {f : α → EStateM ε σ β} (hx : FailsFrom E x s)
    (hf : ∀ a s', x s = .ok a s' → FailsFrom E (f a) s') : FailsFrom E (x >>= f) s := by
  intro e s' h
  rw [Txn.bind_eq] at h
  cases hxs : x s with
  | ok a t =>
    rw [hxs] at h
    exact hf a t hxs e s' h
  | error e' t =>
    rw [hxs] at h
    cases h
    exact hx e _ hxs

/-- A transaction that cannot fail returns. -/
theorem returns {x : EStateM ε σ α} (h : FailsFrom (fun _ => False) x s) :
    ∃ a s', x s = .ok a s' := by
  cases hx : x s with
  | ok a s' => exact ⟨a, s', rfl⟩
  | error e s' => exact (h e s' hx).elim

/-- Reading the state. -/
theorem read {f : σ → EStateM ε σ β} (h : FailsFrom E (f s) s) : FailsFrom E (get >>= f) s := h

end FailsFrom

end transactions

/-! ## Clients -/

namespace Server

variable {ρ κ ε σ α β γ : Type} {exec : ρ → σ → κ × σ} {E : ε → Prop}

variable (exec E) in
/-- With replies that the server gives in some state, the client fails with an error in `E` only. -/
def Prog.FailsOnly : Prog ρ κ ε α → Prop
  | .ret _ => True
  | .fail e => E e
  | .call r k => ∀ s, FailsOnly (k (exec r s).1)

namespace Prog.FailsOnly

theorem ofExcept {x : Except ε α} (h : Fails E x) :
    (Prog.ofExcept x : Prog ρ κ ε α).FailsOnly exec E := by
  cases x with
  | ok a => trivial
  | error e => exact h e rfl

/-- A client that avoids every error. -/
theorem of_avoids {p : Prog ρ κ ε α} (h : ∀ e, p.Avoids e) : p.FailsOnly exec E := by
  induction p with
  | ret a => trivial
  | fail e => exact absurd rfl (h e)
  | call r k ih => exact fun s => ih _ fun e => h e _

/-- A sequence: the second part may use what the first can end with. -/
theorem bind {p : Prog ρ κ ε α} {f : α → Prog ρ κ ε β} (hp : p.FailsOnly exec E)
    (hf : ∀ a, p.Returns a → (f a).FailsOnly exec E) : (p >>= f).FailsOnly exec E := by
  induction p with
  | ret a => exact hf a (.ret a)
  | fail e => exact hp
  | call r k ih => exact fun s => ih _ (hp s) fun a ha => hf a (.call _ ha)

/-- A loop whose body keeps `J`. -/
theorem foldlM {f : β → γ → Prog ρ κ ε β} {J : β → Prop} : ∀ {l : List γ},
    (∀ x ∈ l, ∀ b, J b → (f b x).FailsOnly exec E ∧ ∀ b', (f b x).Returns b' → J b') →
      ∀ {b : β}, J b → (l.foldlM f b).FailsOnly exec E
  | [], _, _, _ => trivial
  | x :: l, hf, b, hb => by
    obtain ⟨hfail, hkeep⟩ := hf x List.mem_cons_self b hb
    rw [List.foldlM_cons]
    exact hfail.bind fun b' hb' =>
      foldlM (fun y hy => hf y (List.mem_cons_of_mem x hy)) (hkeep b' hb')

/-- A client that is run alone. -/
theorem run {p : Prog ρ κ ε α} (hp : p.FailsOnly exec E) {s : σ} : Fails E (p.run exec s) := by
  induction p generalizing s with
  | ret a => exact Fails.ok _
  | fail e => exact Fails.error hp
  | call r k ih => exact ih _ (hp s)

end Prog.FailsOnly

/-- One served request. -/
theorem Step.failsOnly {c c' : Config ρ κ ε σ α} {e : Event ρ σ} (h : Step exec c e c')
    (hc : ∀ p ∈ c.clients, p.FailsOnly exec E) : ∀ p ∈ c'.clients, p.FailsOnly exec E := by
  cases h with
  | serve hi =>
    intro p hp
    rcases List.mem_or_eq_of_mem_set hp with hp | rfl
    · exact hc p hp
    · exact hc _ (List.mem_of_getElem? hi) c.state

theorem Run.failsOnly {c c' : Config ρ κ ε σ α} {tr : List (Event ρ σ)} (h : Run exec c tr c')
    (hc : ∀ p ∈ c.clients, p.FailsOnly exec E) : ∀ p ∈ c'.clients, p.FailsOnly exec E := by
  induction h with
  | nil c => exact hc
  | cons hs _ ih => exact ih (hs.failsOnly hc)

/-- Clients that are run one after the other. -/
theorem runAll_fails {ps : List (Prog ρ κ ε α)} (h : ∀ p ∈ ps, p.FailsOnly exec E) (s : σ) :
    Fails E (runAll exec ps s) :=
  Fails.foldlM (J := fun _ => True)
    (fun p hp _ _ => ⟨(h p hp).run.map Prod.snd, fun _ _ => trivial⟩) trivial

/-- **Clients that are served together** fail only as each of them fails alone. -/
theorem interleave_fails {picks : List Nat} {ps : List (Prog ρ κ ε α)} {s : σ}
    (h : ∀ p ∈ ps, p.FailsOnly exec E) : Fails E (interleave exec picks ps s) :=
  runAll_fails ((run_trace exec picks ⟨s, ps⟩).failsOnly h) _

end Server

end Hannoy.Library
