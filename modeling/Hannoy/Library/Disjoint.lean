import Hannoy.Library.Server
import Mathlib.Data.List.Nodup

/-!
# Clients that work apart

The state of a server is made of cells, and each request reads and writes the one it addresses.
Clients that keep to a cell each, no two to the same, do not notice one another: in every run they
end as each of them does alone. A pool of threads that runs them returns the state they lead to one
after the other, or the error of any that fails.

* `Cells`: the cells of a server; `Prog.Within`: a client that keeps to one.
* `Apart`: two positions of such clients from which each of them ends the same way.
* `tryForEach_ok_iff`, `tryForEach_error_iff`: what a pool returns.
-/

namespace Hannoy.Library.Server

variable {ρ κ ε σ α ι ν : Type} {exec : ρ → σ → κ × σ} {cell : ρ → ι} {look : σ → ι → ν}

/-- The state is what `look` finds in its cells; a request depends on its cell and changes no
other. -/
structure Cells (exec : ρ → σ → κ × σ) (cell : ρ → ι) (look : σ → ι → ν) : Prop where
  ext : ∀ {s s' : σ}, (∀ i, look s i = look s' i) → s = s'
  elsewhere : ∀ (r : ρ) (s : σ) {i : ι}, i ≠ cell r → look (exec r s).2 i = look s i
  reply : ∀ (r : ρ) {s s' : σ}, look s (cell r) = look s' (cell r) →
    (exec r s).1 = (exec r s').1
  write : ∀ (r : ρ) {s s' : σ}, look s (cell r) = look s' (cell r) →
    look (exec r s).2 (cell r) = look (exec r s').2 (cell r)

namespace Prog

/-- Every request of the client addresses cell `i`. -/
inductive Within (cell : ρ → ι) (i : ι) : Prog ρ κ ε α → Prop
  | ret (a : α) : Within cell i (.ret a)
  | fail (e : ε) : Within cell i (.fail e)
  | call {r : ρ} {k : κ → Prog ρ κ ε α} (hr : cell r = i) (h : ∀ x, (k x).Within cell i) :
      Within cell i (.call r k)

theorem Within.ofExcept {i : ι} (x : Except ε α) :
    (Prog.ofExcept x : Prog ρ κ ε α).Within cell i := by
  cases x with
  | ok a => exact .ret a
  | error e => exact .fail e

theorem Within.bind {β : Type} {i : ι} {p : Prog ρ κ ε α} {f : α → Prog ρ κ ε β}
    (hp : p.Within cell i) (hf : ∀ a, (f a).Within cell i) : (p >>= f).Within cell i := by
  show (p.bind f).Within cell i
  induction hp with
  | ret a => exact hf a
  | fail e => exact .fail e
  | call hr _ ih => exact .call hr ih

/-- What the client alone returns, and leaves in cell `i`. -/
def outcome (exec : ρ → σ → κ × σ) (look : σ → ι → ν) (i : ι) (p : Prog ρ κ ε α) (s : σ) :
    Except ε (α × ν) :=
  (p.run exec s).map fun x => (x.1, look x.2 i)

/-- The outcome depends on the cell. -/
theorem Within.outcome_congr (hc : Cells exec cell look) {i : ι} {p : Prog ρ κ ε α}
    (hp : p.Within cell i) : ∀ {s s' : σ}, look s i = look s' i →
      p.outcome exec look i s = p.outcome exec look i s' := by
  induction hp with
  | ret a =>
    intro s s' hs
    simp [outcome, run, Except.map, hs]
  | fail e => exact fun _ => rfl
  | @call r k hr _ ih =>
    intro s s' hs
    subst hr
    show (k (exec r s).1).outcome exec look (cell r) (exec r s).2 =
      (k (exec r s').1).outcome exec look (cell r) (exec r s').2
    rw [hc.reply r hs]
    exact ih _ (hc.write r hs)

/-- The other cells are left alone. -/
theorem Within.elsewhere (hc : Cells exec cell look) {i j : ι} (hj : j ≠ i) {p : Prog ρ κ ε α}
    (hp : p.Within cell i) : ∀ {s s' : σ} {a : α}, p.run exec s = .ok (a, s') →
      look s' j = look s j := by
  induction hp with
  | ret a =>
    intro s s' a' h
    cases h
    rfl
  | fail e =>
    intro s s' a' h
    cases h
  | @call r k hr _ ih =>
    intro s s' a' h
    subst hr
    exact (ih _ h).trans (hc.elsewhere r s hj)

end Prog

/-! ## Positions -/

/-- Clients `ps` in state `s` and `qs` in state `s'`, one for each cell, that end the same way. -/
inductive Apart (exec : ρ → σ → κ × σ) (cell : ρ → ι) (look : σ → ι → ν) (s s' : σ) :
    List ι → List (Prog ρ κ ε α) → List (Prog ρ κ ε α) → Prop
  | nil : Apart exec cell look s s' [] [] []
  | cons {i : ι} {is : List ι} {p q : Prog ρ κ ε α} {ps qs : List (Prog ρ κ ε α)}
      (hp : p.Within cell i) (hq : q.Within cell i)
      (h : p.outcome exec look i s = q.outcome exec look i s')
      (ht : Apart exec cell look s s' is ps qs) :
      Apart exec cell look s s' (i :: is) (p :: ps) (q :: qs)

namespace Apart

variable {s s' t t' : σ} {is : List ι} {ps qs : List (Prog ρ κ ε α)}

theorem refl (h : List.Forall₂ (fun i (p : Prog ρ κ ε α) => p.Within cell i) is ps) :
    Apart exec cell look s s is ps ps := by
  induction h with
  | nil => exact .nil
  | cons hp _ ih => exact .cons hp hp rfl ih

/-- Only the cells of the clients matter. -/
theorem congr (hc : Cells exec cell look) (h : Apart exec cell look s s' is ps qs)
    (hs : ∀ i ∈ is, look t i = look s i) (hs' : ∀ i ∈ is, look t' i = look s' i) :
    Apart exec cell look t t' is ps qs := by
  induction h with
  | nil => exact .nil
  | cons hp hq h _ ih =>
    obtain ⟨hi, his⟩ := List.forall_mem_cons.mp hs
    obtain ⟨hi', his'⟩ := List.forall_mem_cons.mp hs'
    refine .cons hp hq ?_ (ih his his')
    rw [hp.outcome_congr hc hi, hq.outcome_congr hc hi', h]

/-- A request addresses one of the cells. -/
theorem cell_mem (h : Apart exec cell look s s' is ps qs) {k : Nat} {r : ρ}
    {f : κ → Prog ρ κ ε α} (hk : qs[k]? = some (.call r f)) : cell r ∈ is := by
  induction h generalizing k with
  | nil => cases hk
  | cons _ hq _ _ ih =>
    cases k with
    | zero =>
      cases hk
      cases hq with
      | call hr _ => exact hr ▸ List.mem_cons_self
    | succ k => exact List.mem_cons_of_mem _ (ih hk)

/-- **A request that is served** changes how no client ends. -/
theorem serve (hc : Cells exec cell look) (hnd : is.Nodup)
    (h : Apart exec cell look s s' is ps qs) {k : Nat} {r : ρ} {f : κ → Prog ρ κ ε α}
    (hk : qs[k]? = some (.call r f)) :
    Apart exec cell look s (exec r s').2 is ps (qs.set k (f (exec r s').1)) := by
  induction h generalizing k with
  | nil => cases hk
  | @cons i is p q ps qs hp hq h ht ih =>
    obtain ⟨hi, hnd⟩ := List.nodup_cons.mp hnd
    cases k with
    | zero =>
      cases hk
      cases hq with
      | call hr hf =>
        subst hr
        refine .cons hp (hf _) h (ht.congr hc (fun _ _ => rfl) fun j hj => ?_)
        exact hc.elsewhere r s' fun heq => hi (heq ▸ hj)
    | succ k =>
      have hne : i ≠ cell r := fun heq => hi (heq ▸ ht.cell_mem hk)
      refine .cons hp hq ?_ (ih hnd hk)
      rw [h]
      exact hq.outcome_congr hc (hc.elsewhere r s' hne).symm

/-- **One after the other** they end the same way. -/
theorem runAll_eq (hc : Cells exec cell look) (hnd : is.Nodup)
    (h : Apart exec cell look s s' is ps qs) (hother : ∀ i, i ∉ is → look s i = look s' i) :
    runAll exec ps s = runAll exec qs s' := by
  induction is generalizing s s' ps qs with
  | nil =>
    cases h
    exact congrArg _ (hc.ext fun i => hother i List.not_mem_nil)
  | cons i is ih =>
    obtain ⟨hi, hnd⟩ := List.nodup_cons.mp hnd
    cases h with
    | @cons _ _ p q ps qs hp hq h ht =>
      unfold runAll
      rw [List.foldlM_cons, List.foldlM_cons]
      unfold Prog.outcome at h
      cases hrun : p.run exec s with
      | error e =>
        cases hrun' : q.run exec s' with
        | error e' =>
          rw [hrun, hrun'] at h
          cases h
          rfl
        | ok x =>
          rw [hrun, hrun'] at h
          cases h
      | ok x =>
        cases hrun' : q.run exec s' with
        | error e' =>
          rw [hrun, hrun'] at h
          cases h
        | ok y =>
          rw [hrun, hrun'] at h
          have hlook : look x.2 i = look y.2 i := congrArg Prod.snd (Except.ok.inj h)
          have hne : ∀ j ∈ is, j ≠ i := fun j hj heq => hi (heq ▸ hj)
          refine ih hnd (ht.congr hc (fun j hj => hp.elsewhere hc (hne j hj) hrun)
            fun j hj => hq.elsewhere hc (hne j hj) hrun') fun j hj => ?_
          by_cases hji : j = i
          · rw [hji, hlook]
          · rw [hp.elsewhere hc hji hrun, hq.elsewhere hc hji hrun']
            exact hother j (by simp [hji, hj])

/-- The clients of the two sides end alike. -/
theorem outcome_of_mem (h : Apart exec cell look s s' is ps qs) :
    (∀ p ∈ ps, ∃ i, ∃ q ∈ qs, p.outcome exec look i s = q.outcome exec look i s') ∧
      ∀ q ∈ qs, ∃ i, ∃ p ∈ ps, p.outcome exec look i s = q.outcome exec look i s' := by
  induction h with
  | nil => exact ⟨fun _ hp => absurd hp List.not_mem_nil, fun _ hq => absurd hq List.not_mem_nil⟩
  | @cons i is p q ps qs _ _ h _ ih =>
    constructor
    · intro p' hp'
      rcases List.mem_cons.mp hp' with rfl | hp'
      · exact ⟨i, q, List.mem_cons_self, h⟩
      · obtain ⟨j, q', hq', heq⟩ := ih.1 p' hp'
        exact ⟨j, q', List.mem_cons_of_mem _ hq', heq⟩
    · intro q' hq'
      rcases List.mem_cons.mp hq' with rfl | hq'
      · exact ⟨i, p, List.mem_cons_self, h⟩
      · obtain ⟨j, p', hp', heq⟩ := ih.2 q' hq'
        exact ⟨j, p', List.mem_cons_of_mem _ hp', heq⟩

/-- **A run** changes how no client ends. -/
theorem run (hc : Cells exec cell look) (hnd : is.Nodup) {c c' : Config ρ κ ε σ α}
    {tr : List (Event ρ σ)} (hrun : Run exec c tr c')
    (h : Apart exec cell look s c.state is ps c.clients)
    (hother : ∀ i, i ∉ is → look s i = look c.state i) :
    Apart exec cell look s c'.state is ps c'.clients ∧
      ∀ i, i ∉ is → look s i = look c'.state i := by
  induction hrun with
  | nil c => exact ⟨h, hother⟩
  | @cons c _ _ _ _ hs _ ih =>
    cases hs with
    | @serve _ r f hk =>
      refine ih (h.serve hc hnd hk) fun i hi => ?_
      have hne : i ≠ cell r := fun heq => hi (heq ▸ h.cell_mem hk)
      exact (hother i hi).trans (hc.elsewhere r c.state hne).symm

end Apart

/-! ## What a pool of threads returns -/

section tryForEach

variable (hc : Cells exec cell look) {is : List ι} (hnd : is.Nodup) {ps : List (Prog ρ κ ε α)}
  (h : List.Forall₂ (fun i (p : Prog ρ κ ε α) => p.Within cell i) is ps) {s s' : σ}
include hc hnd h

/-- **A pool returns a state exactly if the clients, one after the other, lead to it.** -/
theorem tryForEach_ok_iff : TryForEach exec ps s (.ok s') ↔ runAll exec ps s = .ok s' := by
  constructor
  · rintro ⟨hrun⟩
    obtain ⟨hap, hother⟩ := Apart.run hc hnd hrun (.refl h) fun _ _ => rfl
    rw [hap.runAll_eq hc hnd hother]
    exact runAll_ret s' _
  · intro hall
    obtain ⟨tr, values, hrun, -⟩ := runAll_run hall
    exact .ok hrun

/-- **A pool may return any error that a client alone ends with**, and no other. -/
theorem tryForEach_error_iff {e : ε} :
    TryForEach exec ps s (.error e) ↔ ∃ p ∈ ps, p.run exec s = .error e := by
  constructor
  · intro hfail
    cases hfail with
    | error hrun he =>
      obtain ⟨hap, -⟩ := Apart.run hc hnd hrun (.refl h) fun _ _ => rfl
      obtain ⟨i, p, hp, heq⟩ := hap.outcome_of_mem.2 _ he
      refine ⟨p, hp, ?_⟩
      unfold Prog.outcome at heq
      cases hp' : p.run exec s with
      | error e' =>
        rw [hp'] at heq
        cases heq
        rfl
      | ok x =>
        rw [hp'] at heq
        cases heq
  · rintro ⟨p, hp, he⟩
    obtain ⟨k, hk⟩ := List.mem_iff_getElem?.mp hp
    obtain ⟨tr, c, hrun, hfail⟩ := exists_run_fail (c := ⟨s, ps⟩) hk he
    exact .error hrun (List.mem_of_getElem? hfail)

/-- The clients, one after the other, fail exactly if one of them fails alone. -/
theorem runAll_error_iff :
    (∃ e, runAll exec ps s = .error e) ↔ ∃ p ∈ ps, ∃ e, p.run exec s = .error e := by
  constructor
  · rintro ⟨e, he⟩
    have hpool : TryForEach exec ps s (interleave exec [] ps s) := interleave_tryForEach [] ps s
    rw [show interleave exec [] ps s = .error e from he, tryForEach_error_iff hc hnd h] at hpool
    obtain ⟨p, hp, hfail⟩ := hpool
    exact ⟨p, hp, e, hfail⟩
  · rintro ⟨p, hp, e, he⟩
    cases hall : runAll exec ps s with
    | error e' => exact ⟨e', rfl⟩
    | ok s' =>
      -- every client of the run that ends has returned
      obtain ⟨tr, values, hrun, -⟩ := runAll_run hall
      obtain ⟨hap, -⟩ := Apart.run hc hnd hrun (.refl h) fun _ _ => rfl
      obtain ⟨i, q, hq, heq⟩ := hap.outcome_of_mem.1 p hp
      obtain ⟨a, -, rfl⟩ := List.mem_map.mp hq
      rw [Prog.outcome, he] at heq
      cases heq

/-- **A pool may fail exactly if the clients, one after the other, do.** -/
theorem exists_tryForEach_error_iff :
    (∃ e, TryForEach exec ps s (.error e)) ↔ ∃ e, runAll exec ps s = .error e := by
  rw [runAll_error_iff hc hnd h]
  simp only [tryForEach_error_iff hc hnd h]
  constructor
  · rintro ⟨e, p, hp, he⟩
    exact ⟨p, hp, e, he⟩
  · rintro ⟨p, hp, e, he⟩
    exact ⟨e, p, hp, he⟩

end tryForEach

end Hannoy.Library.Server
