import Mathlib.Order.Defs.Unbundled

/-!
# Transactions: programs with a state and an error

A transaction is an `EStateM ε σ`: it reads and writes a state and may stop with an error, in
which case the writes made so far stand. Ways to reason about one:

* inversion: `bind_ok_iff` takes a sequence that returns apart into its steps, and `ok_bind_iff` one
  in `Except`;
* for a loop in `Except`, `foldlM_invariant`: what the body keeps, the loop keeps;
* frames: `Keeps R x` says that the state before and the state after a run of `x` are related by
  `R`, whether `x` succeeds or fails. For a preorder `R` it is closed under every way transactions
  are put together.
* two runs: `LockStep R W x y` says that `x` and `y`, started in states related by `R`, make the
  same writes, all of them in `W`. `LockStep.same` is what follows for their outcomes, and
  `LockStep.keeps` what follows for each of them alone.
* errors: `Avoids e x` says that no run of `x` ends with the error `e`.
* invariants with a result: `Maintains P Q x` says that `x` keeps `P`, however it ends, and that
  what it returns has `Q`.
-/

namespace Hannoy.Library.Txn

variable {ε σ α β : Type}

/-- The state a run ends in. -/
def final : EStateM.Result ε σ α → σ
  | .ok _ s => s
  | .error _ s => s

@[simp] theorem final_error (e : ε) (s : σ) : final (.error e s : EStateM.Result ε σ α) = s := rfl

/-- How a run fails, and the state it fails in. -/
def errorOf : EStateM.Result ε σ α → Option (ε × σ)
  | .ok _ _ => none
  | .error e s => some (e, s)

theorem errorOf_eq_some {r : EStateM.Result ε σ α} {e : ε} {s : σ}
    (h : errorOf r = some (e, s)) : r = .error e s := by
  cases r with
  | ok a s' => cases h
  | error e' s' => cases h; rfl

/-! ## Inversion -/

theorem bind_eq (x : EStateM ε σ α) (f : α → EStateM ε σ β) (s : σ) :
    (x >>= f) s = match x s with
      | .ok a s' => f a s'
      | .error e s' => .error e s' := rfl

theorem bind_of_ok {x : EStateM ε σ α} {f : α → EStateM ε σ β} {s s' : σ} {a : α}
    (h : x s = .ok a s') : (x >>= f) s = f a s' := by
  rw [bind_eq, h]

theorem bind_of_error {x : EStateM ε σ α} {f : α → EStateM ε σ β} {s s' : σ} {e : ε}
    (h : x s = .error e s') : (x >>= f) s = .error e s' := by
  rw [bind_eq, h]

theorem get_bind_eq (f : σ → EStateM ε σ β) (s : σ) : (get >>= f) s = f s s := rfl

theorem bind_ok_iff {x : EStateM ε σ α} {f : α → EStateM ε σ β} {s s'' : σ} {b : β} :
    (x >>= f) s = .ok b s'' ↔ ∃ a s', x s = .ok a s' ∧ f a s' = .ok b s'' := by
  rw [bind_eq]
  cases x s with
  | ok a s' =>
    constructor
    · exact fun h => ⟨a, s', rfl, h⟩
    · rintro ⟨_, _, h, h'⟩
      cases h
      exact h'
  | error e s' =>
    constructor
    · intro h; cases h
    · rintro ⟨_, _, h, -⟩
      cases h

theorem pure_ok_iff {a b : α} {s s' : σ} :
    (pure a : EStateM ε σ α) s = .ok b s' ↔ b = a ∧ s' = s := by
  constructor
  · intro h; cases h; exact ⟨rfl, rfl⟩
  · rintro ⟨rfl, rfl⟩; rfl

theorem throw_ok_iff {e : ε} {a : α} {s s' : σ} :
    (throw e : EStateM ε σ α) s = .ok a s' ↔ False :=
  ⟨fun h => (by cases h), False.elim⟩

theorem get_ok_iff {a s s' : σ} : (get : EStateM ε σ σ) s = .ok a s' ↔ a = s ∧ s' = s :=
  pure_ok_iff

theorem modify_ok_iff {f : σ → σ} {u : PUnit} {s s' : σ} :
    (modify f : EStateM ε σ PUnit) s = .ok u s' ↔ s' = f s := by
  constructor
  · intro h; cases h; rfl
  · rintro rfl; rfl

theorem forM_cons_of_ok {f : α → EStateM ε σ PUnit} {a : α} {l : List α} {u : PUnit} {s s' : σ}
    (h : f a s = .ok u s') : forM (a :: l) f s = forM l f s' := by
  rw [List.forM_cons, bind_eq, h]

theorem forM_cons_of_error {f : α → EStateM ε σ PUnit} {a : α} {l : List α} {e : ε} {s s' : σ}
    (h : f a s = .error e s') : forM (a :: l) f s = .error e s' := by
  rw [List.forM_cons, bind_eq, h]

theorem ok_of_toOption {x : Except ε α} {a : α} (h : x.toOption = some a) : x = .ok a := by
  cases x with
  | ok b => cases h; rfl
  | error e => cases h

theorem ok_bind_iff {x : Except ε α} {f : α → Except ε β} {b : β} :
    x >>= f = .ok b ↔ ∃ a, x = .ok a ∧ f a = .ok b := by
  cases x with
  | ok a =>
    constructor
    · exact fun h => ⟨a, rfl, h⟩
    · rintro ⟨_, h, h'⟩
      cases h
      exact h'
  | error e =>
    constructor
    · intro h; cases h
    · rintro ⟨_, h, -⟩
      cases h

/-- What the body of a loop keeps when it succeeds, the loop keeps. -/
theorem foldlM_invariant {γ : Type} {f : β → γ → Except ε β} {J : β → Prop} :
    ∀ {l : List γ}, (∀ x ∈ l, ∀ b b', J b → f b x = .ok b' → J b') →
      ∀ {b b' : β}, J b → l.foldlM f b = .ok b' → J b'
  | [], _, _, _, hb, h => by cases h; exact hb
  | x :: l, hf, b, b', hb, h => by
    rw [List.foldlM_cons, ok_bind_iff] at h
    obtain ⟨b₁, hx, h⟩ := h
    exact foldlM_invariant (fun y hy => hf y (List.mem_cons_of_mem x hy))
      (hf x List.mem_cons_self b b₁ hb hx) h

/-- A loop whose body succeeds and keeps `J` does so itself. -/
theorem foldlM_total {γ : Type} {f : β → γ → Except ε β} {J : β → Prop}
    (hf : ∀ b x, J b → ∃ b', f b x = .ok b' ∧ J b') :
    ∀ {l : List γ} {b : β}, J b → ∃ b', l.foldlM f b = .ok b' ∧ J b'
  | [], b, hb => ⟨b, rfl, hb⟩
  | x :: l, b, hb => by
    obtain ⟨b₁, hx, hb₁⟩ := hf b x hb
    rw [List.foldlM_cons, hx]
    exact foldlM_total hf hb₁

/-- A loop whose body always succeeds is a fold. -/
theorem foldlM_eq_ok {γ : Type} {f : β → γ → Except ε β} {g : β → γ → β} : ∀ {l : List γ},
    (∀ x ∈ l, ∀ b, f b x = .ok (g b x)) → ∀ b : β, l.foldlM f b = .ok (l.foldl g b)
  | [], _, _ => rfl
  | x :: l, h, b => by
    rw [List.foldlM_cons, h x List.mem_cons_self]
    exact foldlM_eq_ok (fun y hy => h y (List.mem_cons_of_mem x hy)) (g b x)

theorem mapM_eq_ok {γ : Type} {f : β → Except ε γ} {g : β → γ} : ∀ {l : List β},
    (∀ x ∈ l, f x = .ok (g x)) → l.mapM f = .ok (l.map g)
  | [], _ => rfl
  | x :: l, h => by
    rw [List.mapM_cons, h x List.mem_cons_self,
      mapM_eq_ok fun y hy => h y (List.mem_cons_of_mem x hy)]
    rfl

/-- A sequence fails with `e` only if one of its steps does. -/
theorem bind_ne_error {x : Except ε α} {f : α → Except ε β} {e : ε} (hx : x ≠ .error e)
    (hf : ∀ a, x = .ok a → f a ≠ .error e) : x >>= f ≠ .error e := by
  cases x with
  | ok a => exact hf a rfl
  | error e' => exact fun h => hx (by cases h; rfl)

theorem mapM_ne_error {f : α → Except ε β} {e : ε} (hf : ∀ a, f a ≠ .error e) :
    ∀ {l : List α}, l.mapM f ≠ .error e
  | [] => fun h => by cases h
  | a :: l => by
    rw [List.mapM_cons]
    exact bind_ne_error (hf a) fun b _ =>
      bind_ne_error (mapM_ne_error hf) fun bs _ h => by cases h

/-- A loop whose body does not fail with `e` does not either. -/
theorem foldlM_ne_error {γ : Type} {f : β → γ → Except ε β} {e : ε}
    (hf : ∀ b x, f b x ≠ .error e) : ∀ {l : List γ} {b : β}, l.foldlM f b ≠ .error e
  | [], _ => fun h => by cases h
  | x :: l, b => by
    rw [List.foldlM_cons]
    exact bind_ne_error (hf b x) fun b' _ => foldlM_ne_error hf

/-! ## Frames -/

/-- The states before and after any run of `x` are related by `R`. -/
def Keeps (R : σ → σ → Prop) (x : EStateM ε σ α) : Prop := ∀ s, R s (final (x s))

section Frames

variable {R : σ → σ → Prop} [IsPreorder σ R]

theorem keeps_pure (a : α) : Keeps R (pure a : EStateM ε σ α) := refl_of R

theorem keeps_throw (e : ε) : Keeps R (throw e : EStateM ε σ α) := refl_of R

theorem keeps_get : Keeps R (get : EStateM ε σ σ) := refl_of R

theorem Keeps.bind {x : EStateM ε σ α} {f : α → EStateM ε σ β} (hx : Keeps R x)
    (hf : ∀ a, Keeps R (f a)) : Keeps R (x >>= f) := by
  intro s
  have h1 := hx s
  rw [bind_eq]
  cases hxs : x s with
  | ok a s' =>
    rw [hxs] at h1
    exact trans_of R h1 (hf a s')
  | error e s' =>
    rw [hxs] at h1
    exact h1

end Frames

section

variable {R : σ → σ → Prop}

theorem keeps_modify {f : σ → σ} (h : ∀ s, R s (f s)) :
    Keeps R (modify f : EStateM ε σ PUnit) := h

theorem Keeps.of_ok {x : EStateM ε σ α} (h : Keeps R x) {s s' : σ} {a : α}
    (hx : x s = .ok a s') : R s s' := by
  have := h s
  rwa [hx] at this

theorem Keeps.of_error {x : EStateM ε σ α} (h : Keeps R x) {s s' : σ} {e : ε}
    (hx : x s = .error e s') : R s s' := by
  have := h s
  rwa [hx] at this

end

/-! ## Two runs -/

/-- Two programs that write the same, as long as they read from states related by `R`. Every write
is in `W`. -/
inductive LockStep (R : σ → σ → Prop) (W : (σ → σ) → Prop) :
    {α : Type} → EStateM ε σ α → EStateM ε σ α → Prop
  | pure {α : Type} (a : α) : LockStep R W (pure a) (pure a)
  | throw {α : Type} (e : ε) : LockStep R W (throw e : EStateM ε σ α) (throw e)
  | modify {f : σ → σ} (hf : W f) : LockStep R W (modify f : EStateM ε σ PUnit) (modify f)
  | bind {α β : Type} {x y : EStateM ε σ α} {f g : α → EStateM ε σ β} (hxy : LockStep R W x y)
      (hfg : ∀ a, LockStep R W (f a) (g a)) : LockStep R W (x >>= f) (y >>= g)
  | read {β : Type} {f g : σ → EStateM ε σ β} (hfg : ∀ s t, R s t → LockStep R W (f s) (g t)) :
      LockStep R W (get >>= f) (get >>= g)

/-- Two runs end alike, in related states. -/
inductive Same (R : σ → σ → Prop) : EStateM.Result ε σ α → EStateM.Result ε σ α → Prop
  | ok (a : α) {s t : σ} (h : R s t) : Same R (.ok a s) (.ok a t)
  | error (e : ε) {s t : σ} (h : R s t) : Same R (.error e s) (.error e t)

namespace LockStep

variable {R : σ → σ → Prop} {W : (σ → σ) → Prop}

/-- **Programs in lock step end alike** when the writes respect the relation. -/
theorem same (hW : ∀ f, W f → ∀ s t, R s t → R (f s) (f t)) {α : Type} {x y : EStateM ε σ α}
    (h : LockStep R W x y) {s t : σ} (hst : R s t) : Same R (x s) (y t) := by
  induction h generalizing s t with
  | pure a => exact .ok a hst
  | throw e => exact .error e hst
  | modify hf => exact .ok _ (hW _ hf s t hst)
  | read hfg ih => exact ih s t hst hst
  | @bind _ _ x y f g _ _ ihx ihf =>
    have hx := ihx hst
    rw [bind_eq, bind_eq]
    generalize x s = r at hx ⊢
    generalize y t = r' at hx ⊢
    cases hx with
    | ok a hst' => exact ihf a hst'
    | error e hst' => exact .error e hst'

/-- A program in lock step keeps what its writes keep. -/
theorem keeps {S : σ → σ → Prop} [IsPreorder σ S] (hR : ∀ s, R s s)
    (hW : ∀ f, W f → ∀ s, S s (f s)) {α : Type} {x y : EStateM ε σ α} (h : LockStep R W x y) :
    Keeps S x := by
  induction h with
  | pure a => exact keeps_pure a
  | throw e => exact keeps_throw e
  | modify hf => exact keeps_modify (hW _ hf)
  | bind _ _ ihx ihf => exact ihx.bind ihf
  | read _ ih => exact fun s => ih s s (hR s) s

end LockStep

/-! ## Errors that do not occur -/

/-- No run of `x` ends with the error `bad`. -/
def Avoids (bad : ε) (x : EStateM ε σ α) : Prop := ∀ s s', x s ≠ .error bad s'

namespace Avoids

variable {bad : ε} {x : EStateM ε σ α} {f : α → EStateM ε σ β}

theorem pure (a : α) : Avoids bad (pure a : EStateM ε σ α) := fun _ _ h => by cases h

theorem throw {e : ε} (h : e ≠ bad) : Avoids bad (throw e : EStateM ε σ α) :=
  fun _ _ heq => h (by cases heq; rfl)

theorem modify (g : σ → σ) : Avoids bad (modify g : EStateM ε σ PUnit) :=
  fun _ _ h => by cases h

theorem bind (hx : Avoids bad x) (hf : ∀ a, Avoids bad (f a)) : Avoids bad (x >>= f) := by
  intro s s' h
  rw [bind_eq] at h
  cases hxs : x s with
  | ok a s₁ =>
    rw [hxs] at h
    exact hf a s₁ s' h
  | error e s₁ =>
    rw [hxs] at h
    cases h
    exact hx s s' hxs

theorem forM {f : α → EStateM ε σ PUnit} (hf : ∀ a, Avoids bad (f a)) :
    ∀ l : List α, Avoids bad (forM l f)
  | [] => fun _ _ h => by cases h
  | a :: l => by
    rw [List.forM_cons]
    exact (hf a).bind fun _ => forM hf l

end Avoids

/-! ## Invariants with a result -/

/-- From a state with `P`, every run of `x` ends in one, and what it returns has `Q`. -/
def Maintains (P : σ → Prop) (Q : α → Prop) (x : EStateM ε σ α) : Prop :=
  ∀ s, P s → P (final (x s)) ∧ ∀ a s', x s = .ok a s' → Q a

namespace Maintains

variable {P : σ → Prop} {Q : α → Prop} {Q' : β → Prop} {x : EStateM ε σ α} {f : α → EStateM ε σ β}

theorem pure {a : α} (h : Q a) : Maintains P Q (pure a : EStateM ε σ α) :=
  fun _ hs => ⟨hs, fun _ _ heq => by cases heq; exact h⟩

theorem throw (e : ε) : Maintains P Q (throw e : EStateM ε σ α) :=
  fun _ hs => ⟨hs, fun _ _ heq => by cases heq⟩

theorem get : Maintains P P (get : EStateM ε σ σ) :=
  fun _ hs => ⟨hs, fun _ _ heq => by cases heq; exact hs⟩

theorem modify {g : σ → σ} (h : ∀ s, P s → P (g s)) :
    Maintains P (fun _ => True) (modify g : EStateM ε σ PUnit) :=
  fun s hs => ⟨h s hs, fun _ _ _ => trivial⟩

theorem bind (hx : Maintains P Q x) (hf : ∀ a, Q a → Maintains P Q' (f a)) :
    Maintains P Q' (x >>= f) := by
  intro s hs
  obtain ⟨hkeep, hret⟩ := hx s hs
  rw [bind_eq]
  cases hxs : x s with
  | ok a s' =>
    rw [hxs] at hkeep
    exact hf a (hret a s' hxs) s' hkeep
  | error e s' =>
    rw [hxs] at hkeep
    exact ⟨hkeep, fun _ _ heq => by cases heq⟩

theorem of_ok (h : Maintains P Q x) {s s' : σ} {a : α} (hs : P s) (hx : x s = .ok a s') :
    P s' ∧ Q a := by
  obtain ⟨hkeep, hret⟩ := h s hs
  rw [hx] at hkeep
  exact ⟨hkeep, hret a s' hx⟩

/-- What a program keeps is an invariant. -/
theorem of_keeps (h : Keeps (fun s s' => P s → P s') x) : Maintains P (fun _ => True) x :=
  fun s hs => ⟨h s hs, fun _ _ _ => trivial⟩

end Maintains

end Hannoy.Library.Txn
