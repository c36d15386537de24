import Hannoy.Library.Server
import Hannoy.Library.Txn

/-!
# Spending under a budget that is checked now and then

A program asks for permission to go on and to spend, and learns nothing but that it may:
`requests` are the ones it issues when all are granted, `value` is what it ends with then, and
`into` runs it against a handler that may stop it.

A spender checks, before some of its expenses, that what is left covers the largest one so far.
`Prudent` says that no expense exceeds what is left where it is made, and that each is in order.

* `into_eq`: a program runs as its requests do, handled in turn.
* `prudent_iff`: the spender is prudent exactly if each batch between two checks fits, whenever the
  check before it lets it pass.
-/

namespace Hannoy.Library

open Txn

namespace Server.Prog

variable {ρ ε σ α β γ : Type}

/-- The requests of a program that gets all of them granted. -/
def requests : Prog ρ Unit ε α → List ρ
  | ret _ => []
  | fail _ => []
  | call r k => r :: (k ()).requests

/-- What such a program ends with. -/
def value : Prog ρ Unit ε α → Except ε α
  | ret a => .ok a
  | fail e => .error e
  | call _ k => (k ()).value

/-- Run a program against a handler of its requests. -/
def into (handle : ρ → EStateM ε σ Unit) : Prog ρ Unit ε α → EStateM ε σ α
  | ret a => pure a
  | fail e => throw e
  | call r k => handle r >>= fun u => (k u).into handle

theorem value_bind (p : Prog ρ Unit ε α) (f : α → Prog ρ Unit ε β) :
    (p >>= f).value = p.value >>= fun a => (f a).value := by
  induction p with
  | ret a => rfl
  | fail e => rfl
  | call r k ih => exact ih ()

theorem value_ofExcept (x : Except ε α) : (ofExcept x : Prog ρ Unit ε α).value = x := by
  cases x <;> rfl

theorem value_foldlM (f : β → γ → Prog ρ Unit ε β) : ∀ (l : List γ) (b : β),
    (l.foldlM f b).value = l.foldlM (fun b x => (f b x).value) b
  | [], _ => rfl
  | x :: l, b => by
    rw [List.foldlM_cons, List.foldlM_cons, value_bind]
    congr 1
    funext b'
    exact value_foldlM f l b'

theorem requests_bind_of_ok {p : Prog ρ Unit ε α} {a : α} (h : p.value = .ok a)
    (f : α → Prog ρ Unit ε β) : (p >>= f).requests = p.requests ++ (f a).requests := by
  induction p with
  | ret b => cases h; rfl
  | fail e => cases h
  | call r k ih => exact congrArg (r :: ·) (ih () h)

/-- A loop whose rounds ask for the same whatever came before. -/
theorem requests_foldlM {f : β → γ → Prog ρ Unit ε β} {rs : γ → List ρ}
    (hvalue : ∀ b x, ∃ b', (f b x).value = .ok b') (hreq : ∀ b x, (f b x).requests = rs x) :
    ∀ (l : List γ) (b : β), (l.foldlM f b).requests = l.flatMap rs
  | [], _ => rfl
  | x :: l, b => by
    obtain ⟨b', hb'⟩ := hvalue b x
    rw [List.foldlM_cons, requests_bind_of_ok hb', requests_foldlM hvalue hreq l b', hreq,
      List.flatMap_cons]

/-- **A program ends as its requests do**, one after the other until one is refused; then with its
value. -/
theorem into_eq (handle : ρ → EStateM ε σ Unit) (p : Prog ρ Unit ε α) (s : σ) :
    p.into handle s = match forM p.requests handle s with
      | .ok _ s' => match p.value with
        | .ok a => .ok a s'
        | .error e => .error e s'
      | .error e s' => .error e s' := by
  induction p generalizing s with
  | ret a => rfl
  | fail e => rfl
  | call r k ih =>
    rw [into, requests, value, List.forM_cons, bind_eq, bind_eq]
    cases handle r s with
    | ok u s' => exact ih u s'
    | error e s' => rfl

theorem into_eq_error {handle : ρ → EStateM ε σ Unit} {p : Prog ρ Unit ε α} {e : ε} {s s' : σ}
    (h : p.into handle s = .error e s') :
    forM p.requests handle s = .error e s' ∨ p.value = .error e := by
  rw [into_eq] at h
  cases hserved : forM p.requests handle s with
  | ok u s₁ =>
    rw [hserved] at h
    cases hvalue : p.value with
    | ok a =>
      rw [hvalue] at h
      cases h
    | error e' =>
      rw [hvalue] at h
      cases h
      exact Or.inr rfl
  | error e' s₁ =>
    rw [hserved] at h
    cases h
    exact Or.inl rfl

theorem final_into (handle : ρ → EStateM ε σ Unit) (p : Prog ρ Unit ε α) (s : σ) :
    final (p.into handle s) = final (forM p.requests handle s) := by
  rw [into_eq]
  cases forM p.requests handle s with
  | ok u s' => cases p.value <;> rfl
  | error e s' => rfl

end Server.Prog

/-! ## Expenses and checks -/

namespace Budget

variable {α : Type} (cost : α → Nat) (good : α → Prop)

/-- What a list of expenses sums to. -/
def spent (l : List α) : Nat := l.foldr (fun a s => cost a + s) 0

/-- The largest of a list of expenses. -/
def largest (l : List α) : Nat := l.foldr (fun a m => max (cost a) m) 0

@[simp] theorem spent_nil : spent cost [] = 0 := rfl

@[simp] theorem spent_cons (a : α) (l : List α) : spent cost (a :: l) = cost a + spent cost l := rfl

@[simp] theorem spent_append (l l' : List α) :
    spent cost (l ++ l') = spent cost l + spent cost l' := by
  induction l with
  | nil => simp
  | cons a l ih => rw [List.cons_append, spent_cons, spent_cons, ih, Nat.add_assoc]

@[simp] theorem largest_nil : largest cost [] = 0 := rfl

@[simp] theorem largest_cons (a : α) (l : List α) :
    largest cost (a :: l) = max (cost a) (largest cost l) := rfl

@[simp] theorem largest_append (l l' : List α) :
    largest cost (l ++ l') = max (largest cost l) (largest cost l') := by
  induction l with
  | nil => simp
  | cons a l ih => rw [List.cons_append, largest_cons, largest_cons, ih, Nat.max_assoc]

/-- From `left` and the largest expense `peak` so far: every expense that is made is good and at
most what is left. A `none` is a check. -/
def Prudent : Nat → Nat → List (Option α) → Prop
  | _, _, [] => True
  | left, peak, none :: rest => peak ≤ left → Prudent left peak rest
  | left, peak, some a :: rest =>
    cost a ≤ left ∧ good a ∧ Prudent (left - cost a) (max peak (cost a)) rest

/-- The expenses before the first check. -/
def firstBatch : List (Option α) → List α
  | [] => []
  | none :: _ => []
  | some a :: rest => a :: firstBatch rest

/-- The expenses behind each check, up to the next. -/
def batches : List (Option α) → List (List α)
  | [] => []
  | none :: rest => firstBatch rest :: batches rest
  | some _ :: rest => batches rest

/-- The visits up to the first expense that is refused, `n` having been made. -/
def untilRefused (refuses : Nat → Bool) : Nat → List (Option α) → List (Option α)
  | _, [] => []
  | n, none :: rest => none :: untilRefused refuses n rest
  | n, some a :: rest => if refuses n then [] else some a :: untilRefused refuses (n + 1) rest

/-- A batch that its check lets pass is good and fits. -/
def Covers (budget : Nat) (batches : List (List α)) : Prop :=
  ∀ before batch after, batches = before ++ batch :: after →
    spent cost before.flatten + largest cost before.flatten ≤ budget →
      spent cost before.flatten + spent cost batch ≤ budget ∧ ∀ a ∈ batch, good a

variable {cost good}

theorem prudent_iff_aux : ∀ {visits : List (Option α)} {left peak : Nat},
    Prudent cost good left peak visits ↔
      (spent cost (firstBatch visits) ≤ left ∧ ∀ a ∈ firstBatch visits, good a) ∧
      ∀ before batch after, batches visits = before ++ batch :: after →
        spent cost (firstBatch visits ++ before.flatten) +
            max peak (largest cost (firstBatch visits ++ before.flatten)) ≤ left →
          spent cost (firstBatch visits ++ before.flatten) + spent cost batch ≤ left ∧
            ∀ a ∈ batch, good a
  | [], left, peak => by
    refine iff_of_true trivial ⟨⟨Nat.zero_le _, List.forall_mem_nil _⟩, ?_⟩
    intro before batch after h
    exact absurd h.symm (List.append_ne_nil_of_right_ne_nil _ (List.cons_ne_nil _ _))
  | none :: rest, left, peak => by
    rw [Prudent, prudent_iff_aux, firstBatch, batches]
    constructor
    · intro h
      refine ⟨⟨Nat.zero_le _, List.forall_mem_nil _⟩, ?_⟩
      intro before batch after heq hle
      rcases List.cons_eq_append_iff.mp heq with ⟨rfl, heq⟩ | ⟨before, rfl, heq⟩
      · cases heq
        simp only [List.flatten_nil, List.append_nil, spent_nil, largest_nil] at hle ⊢
        have hfirst := (h (by omega)).1
        exact ⟨by omega, hfirst.2⟩
      · simp only [List.flatten_cons, List.nil_append] at hle ⊢
        exact (h (by omega)).2 before batch after (List.cons.inj heq).2 hle
    · rintro ⟨-, h⟩ hpeak
      refine ⟨?_, fun before batch after heq hle => ?_⟩
      · have hfirst := h [] _ _ rfl (by simpa using hpeak)
        simpa using hfirst
      · have := h (firstBatch rest :: before) batch after (by rw [heq]; rfl)
        simp only [List.flatten_cons, List.nil_append] at this
        exact this hle
  | some a :: rest, left, peak => by
    rw [Prudent, prudent_iff_aux, firstBatch, batches]
    simp only [List.cons_append, spent_cons, largest_cons, List.forall_mem_cons]
    constructor
    · rintro ⟨hcost, hgood, ⟨hfits, hall⟩, h⟩
      refine ⟨⟨by omega, hgood, hall⟩, fun before batch after heq hle => ?_⟩
      obtain ⟨hfits', hall'⟩ := h before batch after heq (by omega)
      exact ⟨by omega, hall'⟩
    · rintro ⟨⟨hfits, hgood, hall⟩, h⟩
      refine ⟨by omega, hgood, ⟨by omega, hall⟩, fun before batch after heq hle => ?_⟩
      obtain ⟨hfits', hall'⟩ := h before batch after heq (by omega)
      exact ⟨by omega, hall'⟩

/-- **A spender that starts with a check is prudent** exactly if every batch is covered. -/
theorem prudent_iff {visits : List (Option α)} {budget : Nat} (h : firstBatch visits = []) :
    Prudent cost good budget 0 visits ↔ Covers cost good budget (batches visits) := by
  rw [prudent_iff_aux, h, Covers]
  simp only [List.nil_append, Nat.zero_max]
  exact and_iff_right ⟨Nat.zero_le _, List.forall_mem_nil _⟩

/-! ## Lists of visits -/

theorem firstBatch_append : ∀ {l l' : List (Option α)}, firstBatch l = [] → firstBatch l' = [] →
    firstBatch (l ++ l') = []
  | [], _, _, h' => h'
  | none :: _, _, _, _ => rfl
  | some _ :: _, _, h, _ => absurd h (List.cons_ne_nil _ _)

theorem firstBatch_flatMap {β : Type} {f : β → List (Option α)} (h : ∀ b, firstBatch (f b) = []) :
    ∀ l : List β, firstBatch (l.flatMap f) = []
  | [] => rfl
  | b :: l => by
    rw [List.flatMap_cons]
    exact firstBatch_append (h b) (firstBatch_flatMap h l)

theorem firstBatch_untilRefused {refuses : Nat → Bool} {n : Nat} {l : List (Option α)}
    (h : firstBatch l = []) : firstBatch (untilRefused refuses n l) = [] := by
  match l with
  | [] => rfl
  | none :: rest => rfl
  | some a :: rest => exact absurd h (List.cons_ne_nil _ _)

theorem exists_mem_untilRefused_iff {refuses : Nat → Bool} {n : Nat} : ∀ {l : List (Option α)},
    (∃ a, some a ∈ untilRefused refuses n l) ↔ refuses n = false ∧ ∃ a, some a ∈ l
  | [] => by simp [untilRefused]
  | none :: rest => by simpa [untilRefused] using exists_mem_untilRefused_iff
  | some a :: rest => by
    rw [untilRefused]
    split_ifs with h
    · simp [h]
    · exact iff_of_true ⟨a, List.mem_cons_self⟩ ⟨by simpa using h, a, List.mem_cons_self⟩

/-- A spender to whom no expense is good makes none. -/
theorem prudent_iff_of_never (hgood : ∀ a, ¬ good a) {budget : Nat} :
    ∀ {visits : List (Option α)}, Prudent cost good budget 0 visits ↔ ∀ a, some a ∉ visits
  | [] => by simp [Prudent]
  | none :: rest => by simpa [Prudent] using prudent_iff_of_never hgood
  | some a :: rest =>
    iff_of_false (fun h => hgood a h.2.1) fun h => h a List.mem_cons_self

end Budget

end Hannoy.Library
