import Mathlib.Data.List.Basic

/-!
# Clients of a server that serves one request at a time

A client is a program `Prog ρ κ ε α` that issues requests of type `ρ`, reads replies of type `κ`,
and ends with a value or an error. A server is a function `exec : ρ → σ → κ × σ` on its state.

* `Run` interleaves any number of clients: at each step any client whose next action is a
  request has it served. Each step leaves an `Event`, so a run carries its trace.
* `interleave` executes the clients along a list of choices and then one after the other. It
  computes runs (`interleave_run`) and every run to the end is one (`Run.interleave_eq`).
* `TryForEach` is what a pool of threads may return; `interleave_tryForEach`.
* A `Protocol` is an invariant of the state, a relation that every served request keeps, and the
  condition on requests under which it does. `Safe` is the correctness of one client of a protocol
  while the others move the state, with a rule for each way a client is put together.

Results:
* `Run.safe`: clients that are safe on their own are safe together, so the protocol's invariant
  holds in every state of a run and every client that ends has its postcondition.
* `Run.returns`: a client ends with a value it can end with for some replies (`Prog.Returns`).
* `Run.ends`: it ends after the requests that were served for it (`Prog.Ends`).
* `Run.issued`: what every request of every client satisfies, every event of a run satisfies, and
  what all such requests keep, the run keeps (`Run.invariant`).
-/

namespace Hannoy.Library.Server

/-- A client: a value, an error, or a request and what to do with its reply. -/
inductive Prog (ρ κ ε α : Type) where
  | ret (a : α)
  | fail (e : ε)
  | call (r : ρ) (k : κ → Prog ρ κ ε α)

namespace Prog

variable {ρ κ ε σ α β : Type}

def bind : Prog ρ κ ε α → (α → Prog ρ κ ε β) → Prog ρ κ ε β
  | ret a, f => f a
  | fail e, _ => fail e
  | call r k, f => call r fun x => (k x).bind f

instance : Monad (Prog ρ κ ε) where
  pure := ret
  bind := bind

def ofExcept : Except ε α → Prog ρ κ ε α
  | .ok a => ret a
  | .error e => fail e

variable (exec : ρ → σ → κ × σ)

/-- The client alone with the server. -/
def run : Prog ρ κ ε α → σ → Except ε (α × σ)
  | ret a, s => .ok (a, s)
  | fail e, _ => .error e
  | call r k, s => (k (exec r s).1).run (exec r s).2

end Prog

/-! ## Interleavings -/

section runs

variable {ρ κ ε σ α : Type}

/-- The server's state and the clients, each at its next action. -/
structure Config (ρ κ ε σ α : Type) where
  state : σ
  clients : List (Prog ρ κ ε α)

/-- A served request: who issued it, and the server's state before and after. -/
structure Event (ρ σ : Type) where
  client : Nat
  req : ρ
  before : σ
  after : σ

variable (exec : ρ → σ → κ × σ)

/-- Any client whose next action is a request may have it served. -/
inductive Step : Config ρ κ ε σ α → Event ρ σ → Config ρ κ ε σ α → Prop
  | serve {c : Config ρ κ ε σ α} {i : Nat} {r : ρ} {k : κ → Prog ρ κ ε α}
      (h : c.clients[i]? = some (.call r k)) :
      Step c ⟨i, r, c.state, (exec r c.state).2⟩
        ⟨(exec r c.state).2, c.clients.set i (k (exec r c.state).1)⟩

/-- A run of the interleaved clients, with its trace. -/
inductive Run : Config ρ κ ε σ α → List (Event ρ σ) → Config ρ κ ε σ α → Prop
  | nil (c : Config ρ κ ε σ α) : Run c [] c
  | cons {c c' c'' : Config ρ κ ε σ α} {e : Event ρ σ} {tr : List (Event ρ σ)}
      (hs : Step exec c e c') (hr : Run c' tr c'') : Run c (e :: tr) c''

/-- Let client `i` act, if its next action is a request. -/
def Config.serve (c : Config ρ κ ε σ α) (i : Nat) : Config ρ κ ε σ α :=
  match c.clients[i]? with
  | some (.call r k) => ⟨(exec r c.state).2, c.clients.set i (k (exec r c.state).1)⟩
  | _ => c

/-- The trace of the clients along a list of choices. -/
def trace : List Nat → Config ρ κ ε σ α → List (Event ρ σ)
  | [], _ => []
  | i :: picks, c =>
    match c.clients[i]? with
    | some (.call r _) =>
      ⟨i, r, c.state, (exec r c.state).2⟩ :: trace picks (c.serve exec i)
    | _ => trace picks (c.serve exec i)

/-- The clients one after the other. -/
def runAll (ps : List (Prog ρ κ ε α)) (s : σ) : Except ε σ :=
  ps.foldlM (fun s p => (p.run exec s).map Prod.snd) s

/-- The clients along a list of choices, and then what is left of them one after the other. Where
several clients fail, the error is that of the first one in the list (`TryForEach` for any). -/
def interleave (picks : List Nat) (ps : List (Prog ρ κ ε α)) (s : σ) : Except ε σ :=
  runAll exec (picks.foldl (Config.serve exec) ⟨s, ps⟩).clients
    (picks.foldl (Config.serve exec) ⟨s, ps⟩).state

/-- What a pool of threads that stops at an error returns: the state that is left when every client
has ended with a value, or the error of a client that has failed, which may be any of them. -/
inductive TryForEach (ps : List (Prog ρ κ ε α)) (s : σ) : Except ε σ → Prop
  | ok {s' : σ} {tr : List (Event ρ σ)} {values : List α}
      (h : Run exec ⟨s, ps⟩ tr ⟨s', values.map .ret⟩) : TryForEach ps s (.ok s')
  | error {c : Config ρ κ ε σ α} {tr : List (Event ρ σ)} {e : ε} (h : Run exec ⟨s, ps⟩ tr c)
      (he : .fail e ∈ c.clients) : TryForEach ps s (.error e)

variable {exec}

theorem Step.spec {c c' : Config ρ κ ε σ α} {e : Event ρ σ} (h : Step exec c e c') :
    e.before = c.state ∧ e.after = c'.state ∧ e.after = (exec e.req e.before).2 := by
  cases h
  exact ⟨rfl, rfl, rfl⟩

theorem Run.append {c c' c'' : Config ρ κ ε σ α} {tr tr' : List (Event ρ σ)}
    (h : Run exec c tr c') (h' : Run exec c' tr' c'') : Run exec c (tr ++ tr') c'' := by
  induction h with
  | nil c => exact h'
  | cons hs _ ih => exact Run.cons hs (ih h')

/-- A run with a trace in two parts. -/
theorem Run.of_append {c'' : Config ρ κ ε σ α} {tr' : List (Event ρ σ)} :
    ∀ {tr : List (Event ρ σ)} {c : Config ρ κ ε σ α}, Run exec c (tr ++ tr') c'' →
      ∃ c', Run exec c tr c' ∧ Run exec c' tr' c''
  | [], c, h => ⟨c, Run.nil c, h⟩
  | e :: tr, c, h => by
    cases h with
    | cons hs hr =>
      obtain ⟨c', h₁, h₂⟩ := Run.of_append hr
      exact ⟨c', Run.cons hs h₁, h₂⟩

/-- An event in a run: the run before it, and its step. -/
theorem Run.at {c c'' : Config ρ κ ε σ α} {pre post : List (Event ρ σ)} {e : Event ρ σ}
    (h : Run exec c (pre ++ e :: post) c'') :
    ∃ c₁ c₂, Run exec c pre c₁ ∧ Step exec c₁ e c₂ ∧ Run exec c₂ post c'' := by
  obtain ⟨c₁, hpre, h⟩ := Run.of_append h
  cases h with
  | cons hs hr => exact ⟨c₁, _, hpre, hs, hr⟩

/-- What every event keeps, the run keeps. -/
theorem Run.keeps {J : σ → Prop} {c c' : Config ρ κ ε σ α} {tr : List (Event ρ σ)}
    (h : Run exec c tr c') (hJ : ∀ e ∈ tr, J e.before → J e.after) (hc : J c.state) :
    J c'.state := by
  induction h with
  | nil c => exact hc
  | cons hs _ ih =>
    obtain ⟨hbefore, hafter, -⟩ := hs.spec
    refine ih (fun e he => hJ e (List.mem_cons_of_mem _ he)) ?_
    rw [← hafter]
    exact hJ _ List.mem_cons_self (hbefore ▸ hc)

/-- What every event keeps holds after each. -/
theorem Run.keeps_after {J : σ → Prop} {c c' : Config ρ κ ε σ α} {tr : List (Event ρ σ)}
    (h : Run exec c tr c') (hJ : ∀ e ∈ tr, J e.before → J e.after) (hc : J c.state) :
    ∀ e ∈ tr, J e.after := by
  induction h with
  | nil c => exact fun e he => absurd he List.not_mem_nil
  | cons hs _ ih =>
    obtain ⟨hbefore, hafter, -⟩ := hs.spec
    have hnext := hJ _ List.mem_cons_self (hbefore ▸ hc)
    refine List.forall_mem_cons.mpr ⟨hnext, ih (fun e he => hJ e (List.mem_cons_of_mem _ he)) ?_⟩
    rw [← hafter]
    exact hnext

/-- Requests are served for the clients of the configuration. -/
theorem Run.client_lt {c c' : Config ρ κ ε σ α} {tr : List (Event ρ σ)} (h : Run exec c tr c') :
    c'.clients.length = c.clients.length ∧ ∀ e ∈ tr, e.client < c.clients.length := by
  induction h with
  | nil c => exact ⟨rfl, fun e he => absurd he List.not_mem_nil⟩
  | cons hs _ ih =>
    cases hs with
    | serve hi =>
      simp only [List.length_set] at ih
      exact ⟨ih.1, List.forall_mem_cons.mpr ⟨(List.getElem?_eq_some_iff.mp hi).1, ih.2⟩⟩

/-- Every event of a run is a served request. -/
theorem Run.served {c c' : Config ρ κ ε σ α} {tr : List (Event ρ σ)} (h : Run exec c tr c') :
    ∀ e ∈ tr, e.after = (exec e.req e.before).2 := by
  induction h with
  | nil c => intro e he; exact absurd he List.not_mem_nil
  | cons hs _ ih =>
    intro e he
    rcases List.mem_cons.mp he with rfl | he
    · exact hs.spec.2.2
    · exact ih e he

/-- **The choices of a run replay it.** -/
theorem Run.serve_eq {c c' : Config ρ κ ε σ α} {tr : List (Event ρ σ)} (h : Run exec c tr c') :
    (tr.map Event.client).foldl (Config.serve exec) c = c' := by
  induction h with
  | nil c => rfl
  | cons hs _ ih =>
    cases hs with
    | serve hi => simpa [Config.serve, hi] using ih

/-- Clients that have ended leave the state alone. -/
theorem runAll_ret (s : σ) : ∀ values : List α,
    runAll exec (values.map (Prog.ret : α → Prog ρ κ ε α)) s = .ok s
  | [] => rfl
  | _ :: values => runAll_ret s values

/-- **Every run to the end is an interleaving** along its own choices. -/
theorem Run.interleave_eq {ps : List (Prog ρ κ ε α)} {s s' : σ} {tr : List (Event ρ σ)}
    {values : List α} (h : Run exec ⟨s, ps⟩ tr ⟨s', values.map .ret⟩) :
    interleave exec (tr.map Event.client) ps s = .ok s' := by
  rw [interleave, h.serve_eq]
  exact runAll_ret s' values

variable (exec) in
/-- **Choices make a run.** -/
theorem run_trace : ∀ (picks : List Nat) (c : Config ρ κ ε σ α),
    Run exec c (trace exec picks c) (picks.foldl (Config.serve exec) c)
  | [], c => Run.nil c
  | i :: picks, c => by
    have hrec := run_trace picks (c.serve exec i)
    rw [List.foldl_cons, trace]
    unfold Config.serve at hrec ⊢
    split
    · next r k hi =>
      rw [hi] at hrec
      exact Run.cons (Step.serve hi) hrec
    · next hi =>
      split at hrec
      · next r k hk => exact absurd hk (hi r k)
      · exact hrec

/-- One client alone is a run. -/
theorem exists_run_client {i : Nat} {p : Prog ρ κ ε α} :
    ∀ {c : Config ρ κ ε σ α}, c.clients[i]? = some p →
      ∀ {a : α} {s' : σ}, p.run exec c.state = .ok (a, s') →
        ∃ tr, Run exec c tr ⟨s', c.clients.set i (.ret a)⟩ ∧ ∀ e ∈ tr, e.client = i := by
  induction p with
  | ret a =>
    intro c hi a' s' hr
    cases hr
    have hset : c.clients.set i (.ret a) = c.clients := by
      obtain ⟨hlt, heq⟩ := List.getElem?_eq_some_iff.mp hi
      rw [← heq, List.set_getElem_self]
    exact ⟨[], by rw [hset]; exact Run.nil c, fun e he => absurd he List.not_mem_nil⟩
  | fail e =>
    intro c _ a' s' hr
    cases hr
  | call r k ih =>
    intro c hi a' s' hr
    have hlt : i < c.clients.length := (List.getElem?_eq_some_iff.mp hi).1
    obtain ⟨tr, hrun, hown⟩ := ih (exec r c.state).1
      (c := ⟨(exec r c.state).2, c.clients.set i (k (exec r c.state).1)⟩) (by simp [hlt]) hr
    exact ⟨_, Run.cons (Step.serve hi) (by simpa using hrun), List.forall_mem_cons.mpr ⟨rfl, hown⟩⟩

/-- One client alone is a run also when it fails. -/
theorem exists_run_fail {i : Nat} {p : Prog ρ κ ε α} :
    ∀ {c : Config ρ κ ε σ α}, c.clients[i]? = some p → ∀ {e : ε}, p.run exec c.state = .error e →
      ∃ tr c', Run exec c tr c' ∧ c'.clients[i]? = some (.fail e) := by
  induction p with
  | ret a =>
    intro c _ e hr
    cases hr
  | fail e =>
    intro c hi e' hr
    cases hr
    exact ⟨[], c, Run.nil c, hi⟩
  | call r k ih =>
    intro c hi e hr
    have hlt : i < c.clients.length := (List.getElem?_eq_some_iff.mp hi).1
    obtain ⟨tr, c', hrun, hfail⟩ := ih (exec r c.state).1
      (c := ⟨(exec r c.state).2, c.clients.set i (k (exec r c.state).1)⟩) (by simp [hlt]) hr
    exact ⟨_, c', Run.cons (Step.serve hi) hrun, hfail⟩

/-- The clients are served one after the other. -/
def InTurn (tr : List (Event ρ σ)) : Prop := tr.Pairwise fun e e' => e.client ≤ e'.client

/-- Running the clients of a configuration one after the other, the first ones having ended. -/
theorem exists_run_runAll : ∀ (ps : List (Prog ρ κ ε α)) (ended : List α) {s s' : σ},
    runAll exec ps s = .ok s' →
      ∃ (tr : List (Event ρ σ)) (values : List α),
        Run exec ⟨s, ended.map .ret ++ ps⟩ tr ⟨s', values.map .ret⟩ ∧ InTurn tr ∧
        ∀ e ∈ tr, ended.length ≤ e.client
  | [], ended, s, s', h => by
    cases h
    exact ⟨[], ended, by rw [List.append_nil]; exact Run.nil _, List.Pairwise.nil,
      fun e he => absurd he List.not_mem_nil⟩
  | p :: ps, ended, s, s', h => by
    unfold runAll at h
    rw [List.foldlM_cons] at h
    cases hp : p.run exec s with
    | error e => rw [hp] at h; cases h
    | ok x =>
      obtain ⟨a, t⟩ := x
      rw [hp] at h
      have hi : (ended.map Prog.ret ++ p :: ps)[ended.length]? = some p := by simp
      obtain ⟨tr, htr, hown⟩ := exists_run_client (c := ⟨s, ended.map .ret ++ p :: ps⟩) hi hp
      obtain ⟨tr', values, htr', hturn, hlater⟩ := exists_run_runAll ps (ended ++ [a]) (s := t) h
      have hset : (ended.map Prog.ret ++ p :: ps).set ended.length (.ret a) =
          (ended ++ [a]).map Prog.ret ++ ps := by
        simp
      simp only [hset] at htr
      simp only [List.length_append, List.length_singleton] at hlater
      refine ⟨tr ++ tr', values, htr.append htr', List.pairwise_append.mpr ⟨?_, hturn, ?_⟩, ?_⟩
      · refine List.pairwise_iff_forall_sublist.mpr fun hsub => ?_
        have hfirst := hown _ (hsub.subset List.mem_cons_self)
        have hsecond := hown _ (hsub.subset (List.mem_cons_of_mem _ List.mem_cons_self))
        omega
      · intro e he e' he'
        have := hlater e' he'
        rw [hown e he]
        omega
      · intro e he
        rcases List.mem_append.mp he with he | he
        · exact Nat.le_of_eq (hown e he).symm
        · have := hlater e he
          omega

/-- **Clients that are run one after the other** make a run in which they are served in turn. -/
theorem runAll_run {ps : List (Prog ρ κ ε α)} {s s' : σ} (h : runAll exec ps s = .ok s') :
    ∃ (tr : List (Event ρ σ)) (values : List α),
      Run exec ⟨s, ps⟩ tr ⟨s', values.map .ret⟩ ∧ InTurn tr :=
  have ⟨tr, values, hrun, hturn, _⟩ := exists_run_runAll ps [] h
  ⟨tr, values, hrun, hturn⟩

/-- **Clients of which one fails when its turn comes** make a run in which it does. -/
theorem runAll_fail : ∀ (ps : List (Prog ρ κ ε α)) (ended : List α) {s : σ} {e : ε},
    runAll exec ps s = .error e → ∃ (tr : List (Event ρ σ)) (c : Config ρ κ ε σ α),
      Run exec ⟨s, ended.map .ret ++ ps⟩ tr c ∧ .fail e ∈ c.clients
  | [], _, _, _, h => by cases h
  | p :: ps, ended, s, e, h => by
    unfold runAll at h
    rw [List.foldlM_cons] at h
    have hi : (ended.map Prog.ret ++ p :: ps)[ended.length]? = some p := by simp
    cases hp : p.run exec s with
    | error e' =>
      rw [hp] at h
      cases h
      obtain ⟨tr, c, hrun, hfail⟩ := exists_run_fail (c := ⟨s, ended.map .ret ++ p :: ps⟩) hi hp
      exact ⟨tr, c, hrun, List.mem_of_getElem? hfail⟩
    | ok x =>
      obtain ⟨a, t⟩ := x
      rw [hp] at h
      obtain ⟨tr, htr, -⟩ := exists_run_client (c := ⟨s, ended.map .ret ++ p :: ps⟩) hi hp
      obtain ⟨tr', c, htr', hfail⟩ := runAll_fail ps (ended ++ [a]) h
      have hset : (ended.map Prog.ret ++ p :: ps).set ended.length (.ret a) =
          (ended ++ [a]).map Prog.ret ++ ps := by
        simp
      simp only [hset] at htr
      exact ⟨tr ++ tr', c, htr.append htr', hfail⟩

theorem runAll_append {ps qs : List (Prog ρ κ ε α)} {s : σ} :
    runAll exec (ps ++ qs) s = runAll exec ps s >>= runAll exec qs := List.foldlM_append

/-- **`interleave` computes runs** in which every client ends with a value. -/
theorem interleave_run {picks : List Nat} {ps : List (Prog ρ κ ε α)} {s s' : σ}
    (h : interleave exec picks ps s = .ok s') :
    ∃ (tr : List (Event ρ σ)) (values : List α),
      Run exec ⟨s, ps⟩ tr ⟨s', values.map .ret⟩ := by
  obtain ⟨tr', values, htr', -⟩ := runAll_run h
  exact ⟨trace exec picks ⟨s, ps⟩ ++ tr', values, (run_trace exec picks ⟨s, ps⟩).append htr'⟩

/-- **`interleave` computes what a pool of threads may return.** -/
theorem interleave_tryForEach (picks : List Nat) (ps : List (Prog ρ κ ε α)) (s : σ) :
    TryForEach exec ps s (interleave exec picks ps s) := by
  cases h : interleave exec picks ps s with
  | ok s' =>
    obtain ⟨tr, values, hrun⟩ := interleave_run h
    exact .ok hrun
  | error e =>
    obtain ⟨tr, c, hrun, hfail⟩ := runAll_fail _ [] h
    exact .error ((run_trace exec picks ⟨s, ps⟩).append hrun) hfail

end runs

/-! ## What clients end with -/

/-- The client can end with `a`, whatever it is replied. -/
inductive Prog.Returns {ρ κ ε α : Type} : Prog ρ κ ε α → α → Prop
  | ret (a : α) : Returns (.ret a) a
  | call {r : ρ} {k : κ → Prog ρ κ ε α} {a : α} (x : κ) (h : (k x).Returns a) :
      Returns (.call r k) a

section returns

variable {ρ κ ε σ α β : Type} {exec : ρ → σ → κ × σ}

theorem Prog.returns_bind_iff {p : Prog ρ κ ε α} {f : α → Prog ρ κ ε β} {b : β} :
    (p >>= f).Returns b ↔ ∃ a, p.Returns a ∧ (f a).Returns b := by
  constructor
  · intro h
    induction p with
    | ret a => exact ⟨a, .ret a, h⟩
    | fail e => cases h
    | call r k ih =>
      cases h with
      | call x h =>
        obtain ⟨a, hk, hf⟩ := ih x h
        exact ⟨a, .call x hk, hf⟩
  · rintro ⟨a, hp, hf⟩
    induction hp with
    | ret a => exact hf
    | call x _ ih => exact .call x (ih hf)

theorem Prog.returns_ofExcept_iff {x : Except ε α} {a : α} :
    (Prog.ofExcept x : Prog ρ κ ε α).Returns a ↔ x = .ok a := by
  cases x with
  | error e => exact ⟨fun h => (by cases h), fun h => (by cases h)⟩
  | ok b =>
    constructor
    · intro h
      cases h
      rfl
    · intro h
      cases h
      exact .ret a

/-- What every body of a loop keeps, the loop keeps. -/
theorem Prog.returns_foldlM {γ : Type} {J : β → Prop} {f : β → γ → Prog ρ κ ε β}
    (hf : ∀ x b b', J b → (f b x).Returns b' → J b') : ∀ {l : List γ} {b b' : β}, J b →
      (l.foldlM f b).Returns b' → J b'
  | [], _, _, hb, h => by
    cases h
    exact hb
  | x :: l, b, b', hb, h => by
    rw [List.foldlM_cons] at h
    obtain ⟨mid, hmid, h⟩ := Prog.returns_bind_iff.mp h
    exact Prog.returns_foldlM hf (hf x b mid hb hmid) h

/-- **A client that ends in a run ends with a value it can end with.** -/
theorem Run.returns {c c' : Config ρ κ ε σ α} {tr : List (Event ρ σ)} (h : Run exec c tr c')
    {i : Nat} {a : α} {p : Prog ρ κ ε α} (hp : c.clients[i]? = some p)
    (ha : c'.clients[i]? = some (.ret a)) : p.Returns a := by
  induction h generalizing p with
  | nil c =>
    rw [hp] at ha
    cases ha
    exact .ret a
  | cons hs _ ih =>
    cases hs with
    | serve hi =>
      rename_i j r k hrun
      by_cases hij : j = i
      · subst hij
        rw [hi] at hp
        cases hp
        have hlt := (List.getElem?_eq_some_iff.mp hi).1
        exact .call _ (ih (List.getElem?_set_self hlt) ha)
      · exact ih (by simpa [hij] using hp) ha

end returns

/-! ## The requests a client ends after -/

/-- The client can end with `a` after the requests `rs`, whatever it is replied. -/
inductive Prog.Ends {ρ κ ε α : Type} : Prog ρ κ ε α → List ρ → α → Prop
  | ret (a : α) : Ends (.ret a) [] a
  | call {r : ρ} {k : κ → Prog ρ κ ε α} {rs : List ρ} {a : α} (x : κ) (h : (k x).Ends rs a) :
      Ends (.call r k) (r :: rs) a

section ends

variable {ρ κ ε σ α β : Type} {exec : ρ → σ → κ × σ} {rs : List ρ}

theorem Prog.Ends.returns {p : Prog ρ κ ε α} {a : α} (h : p.Ends rs a) : p.Returns a := by
  induction h with
  | ret a => exact .ret a
  | call x _ ih => exact .call x ih

theorem Prog.ends_ret_iff {a b : α} :
    (Prog.ret a : Prog ρ κ ε α).Ends rs b ↔ rs = [] ∧ b = a := by
  constructor
  · intro h
    cases h
    exact ⟨rfl, rfl⟩
  · rintro ⟨rfl, rfl⟩
    exact .ret b

theorem Prog.ends_bind_iff {p : Prog ρ κ ε α} {f : α → Prog ρ κ ε β} {b : β} :
    (p >>= f).Ends rs b ↔
      ∃ a rs₁ rs₂, rs = rs₁ ++ rs₂ ∧ p.Ends rs₁ a ∧ (f a).Ends rs₂ b := by
  constructor
  · intro h
    induction p generalizing rs with
    | ret a => exact ⟨a, [], rs, rfl, .ret a, h⟩
    | fail e => cases h
    | call r k ih =>
      cases h with
      | call x h =>
        obtain ⟨a, rs₁, rs₂, rfl, hk, hf⟩ := ih x h
        exact ⟨a, r :: rs₁, rs₂, rfl, .call x hk, hf⟩
  · rintro ⟨a, rs₁, rs₂, rfl, hp, hf⟩
    induction hp with
    | ret a => exact hf
    | call x _ ih => exact .call x (ih hf)

theorem Prog.ends_ofExcept_iff {x : Except ε α} {a : α} :
    (Prog.ofExcept x : Prog ρ κ ε α).Ends rs a ↔ x = .ok a ∧ rs = [] := by
  cases x with
  | error e => exact ⟨fun h => (by cases h), fun h => (by cases h.1)⟩
  | ok b =>
    refine Prog.ends_ret_iff.trans ⟨?_, ?_⟩
    · rintro ⟨rfl, rfl⟩
      exact ⟨rfl, rfl⟩
    · rintro ⟨h, rfl⟩
      cases h
      exact ⟨rfl, rfl⟩

/-- A client run alone. -/
theorem Prog.exists_ends {p : Prog ρ κ ε α} : ∀ {s s' : σ} {a : α},
    p.run exec s = .ok (a, s') → ∃ rs, p.Ends rs a := by
  induction p with
  | ret b =>
    intro s s' a h
    cases h
    exact ⟨[], .ret b⟩
  | fail e =>
    intro s s' a h
    cases h
  | call r k ih =>
    intro s s' a h
    obtain ⟨rs, hrs⟩ := ih _ h
    exact ⟨r :: rs, .call _ hrs⟩

/-- **A client that ends in a run ends after the requests the run served for it.** -/
theorem Run.ends {c c' : Config ρ κ ε σ α} {tr : List (Event ρ σ)} (h : Run exec c tr c')
    {i : Nat} {a : α} {p : Prog ρ κ ε α} (hp : c.clients[i]? = some p)
    (ha : c'.clients[i]? = some (.ret a)) :
    p.Ends ((tr.filter fun e => e.client = i).map Event.req) a := by
  induction h generalizing p with
  | nil c =>
    rw [hp] at ha
    cases ha
    exact .ret a
  | cons hs _ ih =>
    cases hs with
    | serve hi =>
      rename_i j r k hrun
      by_cases hij : j = i
      · subst hij
        rw [hi] at hp
        cases hp
        have hlt := (List.getElem?_eq_some_iff.mp hi).1
        simpa using Prog.Ends.call _ (ih (List.getElem?_set_self hlt) ha)
      · simpa [hij] using ih (by simpa [hij] using hp) ha

/-- The client can have issued the requests `rs` so far, whatever it was replied. -/
inductive Prog.Asks {ρ κ ε α : Type} : Prog ρ κ ε α → List ρ → Prop
  | start (p : Prog ρ κ ε α) : Asks p []
  | call {r : ρ} {k : κ → Prog ρ κ ε α} {rs : List ρ} (x : κ) (h : (k x).Asks rs) :
      Asks (.call r k) (r :: rs)

theorem Prog.Ends.asks {p : Prog ρ κ ε α} {a : α} (h : p.Ends rs a) : p.Asks rs := by
  induction h with
  | ret a => exact .start _
  | call x _ ih => exact .call x ih

theorem Prog.eq_nil_of_asks_ret {a : α} (h : (Prog.ret a : Prog ρ κ ε α).Asks rs) : rs = [] := by
  cases h
  rfl

theorem Prog.eq_nil_of_asks_ofExcept {x : Except ε α}
    (h : (Prog.ofExcept x : Prog ρ κ ε α).Asks rs) : rs = [] := by
  cases x <;> cases h <;> rfl

/-- A client in two parts is still in the first one, or has come to its end. -/
theorem Prog.asks_bind {p : Prog ρ κ ε α} {f : α → Prog ρ κ ε β} (h : (p >>= f).Asks rs) :
    p.Asks rs ∨ ∃ a rs₁ rs₂, rs = rs₁ ++ rs₂ ∧ p.Ends rs₁ a ∧ (f a).Asks rs₂ := by
  induction p generalizing rs with
  | ret a => exact Or.inr ⟨a, [], rs, rfl, .ret a, h⟩
  | fail e =>
    cases h
    exact Or.inl (.start _)
  | call r k ih =>
    cases h with
    | start => exact Or.inl (.start _)
    | call x h =>
      rcases ih x h with hk | ⟨a, rs₁, rs₂, rfl, hk, hf⟩
      · exact Or.inl (.call x hk)
      · exact Or.inr ⟨a, _ :: rs₁, rs₂, rfl, .call x hk, hf⟩

/-- **The requests a run has served for a client** are some it can have issued so far. -/
theorem Run.asks {c c' : Config ρ κ ε σ α} {tr : List (Event ρ σ)} (h : Run exec c tr c') {i : Nat}
    {p : Prog ρ κ ε α} (hp : c.clients[i]? = some p) :
    p.Asks ((tr.filter fun e => e.client = i).map Event.req) := by
  induction h generalizing p with
  | nil c => exact .start p
  | cons hs _ ih =>
    cases hs with
    | serve hi =>
      rename_i j r k hrun
      by_cases hij : j = i
      · subst hij
        rw [hi] at hp
        cases hp
        have hlt := (List.getElem?_eq_some_iff.mp hi).1
        simpa using Prog.Asks.call _ (ih (List.getElem?_set_self hlt))
      · simpa [hij] using ih (by simpa [hij] using hp)

end ends

/-! ## What clients ask for -/

section issues

variable {ρ κ ε σ α β γ : Type} {P : ρ → Prop}

/-- Whatever the replies, the client issues requests with `P` only. -/
def Prog.Issues (P : ρ → Prop) : Prog ρ κ ε α → Prop
  | .ret _ => True
  | .fail _ => True
  | .call r k => P r ∧ ∀ x, (k x).Issues P

theorem Prog.Issues.bind {p : Prog ρ κ ε α} {f : α → Prog ρ κ ε β} (hp : p.Issues P)
    (hf : ∀ a, (f a).Issues P) : (p >>= f).Issues P := by
  induction p with
  | ret a => exact hf a
  | fail e => trivial
  | call r k ih => exact ⟨hp.1, fun x => ih x (hp.2 x)⟩

theorem Prog.issues_true : ∀ p : Prog ρ κ ε α, p.Issues fun _ => True
  | .ret _ => trivial
  | .fail _ => trivial
  | .call _ k => ⟨trivial, fun x => (k x).issues_true⟩

theorem issues_ofExcept (x : Except ε α) : (Prog.ofExcept x : Prog ρ κ ε α).Issues P := by
  cases x <;> trivial

theorem issues_foldlM {f : β → γ → Prog ρ κ ε β} : ∀ {l : List γ},
    (∀ x ∈ l, ∀ b, (f b x).Issues P) → ∀ b : β, (l.foldlM f b).Issues P
  | [], _, _ => trivial
  | x :: l, hf, b => by
    rw [List.foldlM_cons]
    exact (hf x List.mem_cons_self b).bind fun b' =>
      issues_foldlM (fun y hy => hf y (List.mem_cons_of_mem x hy)) b'

theorem Prog.Issues.mono {Q : ρ → Prop} (hPQ : ∀ r, P r → Q r) {p : Prog ρ κ ε α}
    (hp : p.Issues P) : p.Issues Q := by
  induction p with
  | ret a => trivial
  | fail e => trivial
  | call r k ih => exact ⟨hPQ r hp.1, fun x => ih x (hp.2 x)⟩

theorem Prog.Issues.ends {p : Prog ρ κ ε α} {rs : List ρ} {a : α} (hp : p.Issues P)
    (h : p.Ends rs a) : ∀ r ∈ rs, P r := by
  induction h with
  | ret a => exact fun r hr => absurd hr List.not_mem_nil
  | call x _ ih => exact List.forall_mem_cons.mpr ⟨hp.1, ih (hp.2 x)⟩

theorem Prog.Issues.asks {p : Prog ρ κ ε α} {rs : List ρ} (hp : p.Issues P) (h : p.Asks rs) :
    ∀ r ∈ rs, P r := by
  induction h with
  | start p => exact fun r hr => absurd hr List.not_mem_nil
  | call x _ ih => exact List.forall_mem_cons.mpr ⟨hp.1, ih (hp.2 x)⟩

/-- **The requests of a run** are those its clients issue. -/
theorem Run.issued {exec : ρ → σ → κ × σ} {c c' : Config ρ κ ε σ α} {tr : List (Event ρ σ)}
    (h : Run exec c tr c') (hc : ∀ p ∈ c.clients, p.Issues P) : ∀ e ∈ tr, P e.req := by
  induction h with
  | nil c => exact fun e he => absurd he List.not_mem_nil
  | cons hs _ ih =>
    cases hs with
    | serve hi =>
      have hcall := hc _ (List.mem_of_getElem? hi)
      intro e he
      rcases List.mem_cons.mp he with rfl | he
      · exact hcall.1
      · refine ih (fun p hp => ?_) e he
        rcases List.mem_or_eq_of_mem_set hp with hp | rfl
        · exact hc p hp
        · exact hcall.2 _

/-- What every such request keeps, a run keeps. -/
theorem Run.invariant {exec : ρ → σ → κ × σ} {J : σ → Prop}
    (hJ : ∀ r s, P r → J s → J (exec r s).2) {c c' : Config ρ κ ε σ α} {tr : List (Event ρ σ)}
    (h : Run exec c tr c') (hc : ∀ p ∈ c.clients, p.Issues P) (hc₀ : J c.state) : J c'.state := by
  have hreq := h.issued hc
  clear hc
  induction h with
  | nil c => exact hc₀
  | cons hs _ ih =>
    obtain ⟨hbefore, hafter, hexec⟩ := hs.spec
    refine ih ?_ fun e he => hreq e (List.mem_cons_of_mem _ he)
    rw [← hafter, hexec, hbefore]
    exact hJ _ _ (hreq _ List.mem_cons_self) hc₀

/-- What every such request keeps, one client alone keeps. -/
theorem Prog.run_invariant {exec : ρ → σ → κ × σ} {J : σ → Prop}
    (hJ : ∀ r s, P r → J s → J (exec r s).2) {p : Prog ρ κ ε α} (hp : p.Issues P) {s s' : σ}
    {a : α} (h : p.run exec s = .ok (a, s')) (hs : J s) : J s' := by
  induction p generalizing s with
  | ret b => cases h; exact hs
  | fail e => cases h
  | call r k ih => exact ih _ (hp.2 _) h (hJ r s hp.1 hs)

end issues

section avoids

variable {ρ κ ε α β : Type} {e : ε}

/-- Whatever the replies, the client does not fail with `e`. -/
def Prog.Avoids (e : ε) : Prog ρ κ ε α → Prop
  | .ret _ => True
  | .fail e' => e' ≠ e
  | .call _ k => ∀ x, (k x).Avoids e

theorem Prog.Avoids.bind {p : Prog ρ κ ε α} {f : α → Prog ρ κ ε β} (hp : p.Avoids e)
    (hf : ∀ a, (f a).Avoids e) : (p >>= f).Avoids e := by
  induction p with
  | ret a => exact hf a
  | fail e' => exact hp
  | call r k ih => exact fun x => ih x (hp x)

/-- A computation that does not fail with `e`, and what follows its result. -/
theorem avoids_ofExcept_bind {x : Except ε α} {f : α → Prog ρ κ ε β} (hx : x ≠ .error e)
    (hf : ∀ a, x = .ok a → (f a).Avoids e) : (Prog.ofExcept x >>= f).Avoids e := by
  cases x with
  | ok a => exact hf a rfl
  | error e' => exact fun h => hx (by rw [h])

end avoids

/-! ## Safe clients -/

section safe

variable {ρ κ ε σ α β : Type}

/-- What the clients of a server agree on: an invariant of its state, how the state may move, and
which requests are allowed in which state. -/
structure Protocol (exec : ρ → σ → κ × σ) where
  inv : σ → Prop
  rely : σ → σ → Prop
  guar : ρ → σ → Prop
  refl : ∀ s, rely s s
  trans : ∀ {s t u}, rely s t → rely t u → rely s u
  preserve : ∀ {r s}, inv s → guar r s → inv (exec r s).2 ∧ rely s (exec r s).2

variable {exec : ρ → σ → κ × σ} (T : Protocol exec)

/-- Started in `s`, the client issues allowed requests only and ends with `Q`, while the state
may move between its actions. -/
def Safe (Q : α → σ → Prop) : Prog ρ κ ε α → σ → Prop
  | .ret a, s => ∀ s', T.rely s s' → T.inv s' → Q a s'
  | .fail _, _ => True
  | .call r k, s => ∀ s', T.rely s s' → T.inv s' →
      T.guar r s' ∧ Safe Q (k (exec r s').1) (exec r s').2

variable {T}

/-- The others may move first. -/
theorem Safe.rely {Q : α → σ → Prop} {p : Prog ρ κ ε α} {s s' : σ} (h : Safe T Q p s)
    (hs : T.rely s s') : Safe T Q p s' := by
  cases p with
  | ret a => exact fun t ht => h t (T.trans hs ht)
  | fail e => trivial
  | call r k => exact fun t ht => h t (T.trans hs ht)

theorem Safe.mono {Q Q' : α → σ → Prop} {p : Prog ρ κ ε α} {s : σ} (h : Safe T Q p s)
    (hQ : ∀ a s', T.inv s' → Q a s' → Q' a s') : Safe T Q' p s := by
  induction p generalizing s with
  | ret a => exact fun t ht hi => hQ a t hi (h t ht hi)
  | fail e => trivial
  | call r k ih => exact fun t ht hi => ⟨(h t ht hi).1, ih _ (h t ht hi).2⟩

/-- A client ends in a state that the one it started in moved to. -/
theorem Safe.moved {Q : α → σ → Prop} {p : Prog ρ κ ε α} {s : σ} (h : Safe T Q p s) :
    Safe T (fun a s' => T.rely s s' ∧ Q a s') p s := by
  induction p generalizing s with
  | ret a => exact fun t ht hi => ⟨ht, h t ht hi⟩
  | fail e => trivial
  | call r k ih =>
    intro t ht hi
    obtain ⟨hg, hk⟩ := h t ht hi
    exact ⟨hg, (ih _ hk).mono fun a u _ hu =>
      ⟨T.trans ht (T.trans (T.preserve hi hg).2 hu.1), hu.2⟩⟩

theorem Safe.bind {p : Prog ρ κ ε α} {f : α → Prog ρ κ ε β} {s : σ} {Q : β → σ → Prop}
    (hs : T.inv s) (h : Safe T (fun a s' => Safe T Q (f a) s') p s) : Safe T Q (p >>= f) s := by
  induction p generalizing s with
  | ret a => exact h s (T.refl s) hs
  | fail e => trivial
  | call r k ih =>
    intro t ht hi
    obtain ⟨hg, hk⟩ := h t ht hi
    exact ⟨hg, ih _ (T.preserve hi hg).1 hk⟩

theorem safe_ofExcept {x : Except ε α} {s : σ} {Q : α → σ → Prop}
    (h : ∀ a, x = .ok a → ∀ s', T.rely s s' → T.inv s' → Q a s') :
    Safe T Q (Prog.ofExcept x) s := by
  cases x with
  | error e => trivial
  | ok a => exact h a rfl

/-- The loop rule: what the body keeps, and the others too, the loop over a list keeps. -/
theorem safe_foldlM {γ : Type} {f : β → γ → Prog ρ κ ε β} {J : β → σ → Prop}
    (hstable : ∀ b s s', J b s → T.rely s s' → T.inv s' → J b s') :
    ∀ {l : List γ}, (∀ x ∈ l, ∀ b s, T.inv s → J b s → Safe T J (f b x) s) →
      ∀ {b : β} {s : σ}, T.inv s → J b s → Safe T J (l.foldlM f b) s
  | [], _, _, _, _, h => fun s' ht hi => hstable _ _ s' h ht hi
  | x :: l, hf, b, s, hs, h => by
    rw [List.foldlM_cons]
    refine Safe.bind hs ((hf x List.mem_cons_self b s hs h).mono fun b' s' hi h' => ?_)
    exact safe_foldlM hstable (fun y hy => hf y (List.mem_cons_of_mem x hy)) hi h'

/-- A safe client run alone. -/
theorem Safe.run {Q : α → σ → Prop} {p : Prog ρ κ ε α} {s : σ} (h : Safe T Q p s) (hs : T.inv s)
    {a : α} {s' : σ} (hr : p.run exec s = .ok (a, s')) : T.inv s' ∧ T.rely s s' ∧ Q a s' := by
  induction p generalizing s with
  | ret b =>
    cases hr
    exact ⟨hs, T.refl _, h _ (T.refl _) hs⟩
  | fail e => cases hr
  | call r k ih =>
    obtain ⟨hg, hk⟩ := h s (T.refl s) hs
    obtain ⟨hinv, hrely⟩ := T.preserve hs hg
    obtain ⟨h1, h2, h3⟩ := ih _ hk hinv hr
    exact ⟨h1, T.trans hrely h2, h3⟩

/-- Every client of a configuration is safe for its own postcondition. -/
def AllSafe (T : Protocol exec) (Q : Nat → α → σ → Prop) (c : Config ρ κ ε σ α) : Prop :=
  ∀ i p, c.clients[i]? = some p → Safe T (Q i) p c.state

/-- One served request. -/
theorem Step.safe {Q : Nat → α → σ → Prop} {c c' : Config ρ κ ε σ α} {e : Event ρ σ}
    (h : Step exec c e c') (hinv : T.inv c.state) (hsafe : AllSafe T Q c) :
    T.inv c'.state ∧ T.rely c.state c'.state ∧ AllSafe T Q c' ∧ T.guar e.req e.before := by
  cases h with
  | serve hi =>
    rename_i i r k
    obtain ⟨hg, hk⟩ := hsafe i _ hi c.state (T.refl _) hinv
    obtain ⟨hinv', hrely⟩ := T.preserve hinv hg
    refine ⟨hinv', hrely, fun j p hj => ?_, hg⟩
    rw [List.getElem?_set] at hj
    split_ifs at hj with hij hlt
    · subst hij
      cases hj
      exact hk
    · exact (hsafe j p hj).rely hrely

/-- **Clients that are safe on their own are safe together.** -/
theorem Run.safe {Q : Nat → α → σ → Prop} {c c' : Config ρ κ ε σ α} {tr : List (Event ρ σ)}
    (h : Run exec c tr c') (hinv : T.inv c.state) (hsafe : AllSafe T Q c) :
    T.inv c'.state ∧ T.rely c.state c'.state ∧ AllSafe T Q c' ∧
      ∀ e ∈ tr, T.guar e.req e.before := by
  induction h with
  | nil c => exact ⟨hinv, T.refl _, hsafe, fun e he => absurd he List.not_mem_nil⟩
  | cons hs _ ih =>
    obtain ⟨hinv', hrely, hsafe', hg⟩ := hs.safe hinv hsafe
    obtain ⟨hinv'', hrely', hsafe'', hgs⟩ := ih hinv' hsafe'
    refine ⟨hinv'', T.trans hrely hrely', hsafe'', fun e he => ?_⟩
    rcases List.mem_cons.mp he with rfl | he
    · exact hg
    · exact hgs e he

/-- What the allowed requests among those issued keep, safe clients keep together. -/
theorem interleave_keeps {P : ρ → Prop} {J : σ → Prop} {Q : Nat → α → σ → Prop}
    (hJ : ∀ r s, T.guar r s → P r → J s → J (exec r s).2) {picks : List Nat}
    {ps : List (Prog ρ κ ε α)} {s s' : σ} (h : interleave exec picks ps s = .ok s')
    (hinv : T.inv s) (hsafe : AllSafe T Q ⟨s, ps⟩) (hps : ∀ p ∈ ps, p.Issues P) (hs : J s) :
    J s' := by
  obtain ⟨tr, values, hrun⟩ := interleave_run h
  obtain ⟨-, -, -, hguar⟩ := hrun.safe hinv hsafe
  have hissued := hrun.issued hps
  refine hrun.keeps (fun e he hbefore => ?_) hs
  rw [hrun.served e he]
  exact hJ _ _ (hguar e he) (hissued e he) hbefore

/-- The same for `interleave`: the invariant holds in the end and so does the postcondition of
every client. -/
theorem interleave_safe {Q : Nat → α → σ → Prop} {picks : List Nat} {ps : List (Prog ρ κ ε α)}
    {s s' : σ} (h : interleave exec picks ps s = .ok s') (hinv : T.inv s)
    (hsafe : AllSafe T Q ⟨s, ps⟩) :
    T.inv s' ∧ T.rely s s' ∧ ∀ i < ps.length, ∃ a, Q i a s' := by
  obtain ⟨tr, values, hrun⟩ := interleave_run h
  obtain ⟨hinv', hrely, hsafe', -⟩ := hrun.safe hinv hsafe
  refine ⟨hinv', hrely, fun i hi => ?_⟩
  have hlen : values.length = ps.length := by simpa using hrun.client_lt.1
  have hi' : i < values.length := by omega
  refine ⟨values[i], hsafe' i (.ret values[i]) ?_ s' (T.refl _) hinv'⟩
  simp [hi']

end safe

end Hannoy.Library.Server
