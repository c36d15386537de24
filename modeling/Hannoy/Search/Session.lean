import Hannoy.Model.Python
import Hannoy.Search.Service

/-!
# Sessions of Python programs

A Python program writes into a transaction that it did not ask for: the first call that writes
begins it, it is shared by all writers, and the end of any `with` block commits it with everything
in it. Readers answer from what was committed when they were opened. Seen so, a process is a store
for each path and index, one version of them that is pending, and readers that hold stores.

* `Session.Step`: what a program is told by such stores. Each index has a metric and a dimension,
  which its writers and readers are asked for with.
* `program_simulated`: each call does to the process what it does to the stores.
* `session_history`: so every history of a program is one of the stores.
-/

namespace Hannoy.Python

open Hannoy.Library Hannoy.Library.Txn Hannoy.Index Hannoy.Search

variable {P K α σ : Type}

/-! ## Calls -/

/-- A call of a program; a reader is named by `k`. -/
inductive Call (P K : Type) where
  | database (path : P) (name : Option String)
  | addItem (index : UInt16) (item : ItemId) (vector : List F32)
  | exit (index : UInt16) (m ef : Nat)
  | commit
  | abort
  | reader (k : K) (index : UInt16)
  | byVec (k : K) (query : List F32) (n efSearch : Nat)
  /-- The process ends, and another one begins. -/
  | restart

/-- The calls of a writer. -/
inductive Call.Writes : Call P K → Prop
  | addItem {i : UInt16} {x : ItemId} {v : List F32} : Writes (.addItem i x v)
  | exit {i : UInt16} {m ef : Nat} : Writes (.exit i m ef)

inductive Answer where
  | unit
  | bool (b : Bool)
  | found (nns : List (ItemId × F32))
  | raised (e : PyErr)

/-- The answer of a call of the bindings. -/
def answer (f : α → Answer) : EStateM.Result PyErr σ α → Answer
  | .ok a _ => f a
  | .error e _ => .raised e

/-- The answer of a search. -/
def answerOf (f : α → Answer) : Except Failure α → Answer
  | .ok a => f a
  | .error e => .raised (.ofFailure e)

/-- A process, and the readers that its program holds. -/
structure World (P K : Type) where
  process : Process P
  readers : K → Option PyReader

variable (t : Target) (metric : UInt16 → PyDistance) (dims : UInt16 → Nat)

section systems

variable [DecidableEq P] [DecidableEq K]

/-- What the program holds after it asked for a reader. -/
def World.hold (w : World P K) (k : K) : EStateM.Result PyErr (Process P) PyReader → World P K
  | .ok r p => ⟨p, Function.update w.readers k (some r)⟩
  | .error _ p => ⟨p, w.readers⟩

/-- The writers of an index. -/
def writerOf (i : UInt16) (m ef : Nat) : PyWriter :=
  (PyDatabase.mk (metric i)).writer (dims i) i m ef

/-- The calls, with answers of the code. LMDB may refuse to begin or to commit a transaction; what
the crate asks of it within one is granted, and the heaps it asks for can be had. -/
inductive Step : World P K → Call P K × Answer → World P K → Prop
  | database {w : World P K} {fails : HeedCall → Bool} {path : P} {distance : PyDistance}
      {name : Option String} {res : EStateM.Result PyErr (Process P) PyDatabase}
      (h : PyDatabase.new fails path distance name w.process = res) :
      Step w (.database path name, answer (fun _ => .unit) res) ⟨final res, w.readers⟩
  | addItem {w : World P K} {fails : HeedCall → Bool} {env : Environment} {i : UInt16} {m ef : Nat}
      {x : ItemId} {v : List F32} {res : EStateM.Result PyErr (Process P) Unit}
      (henv : ∀ site, env.fault site = false)
      (h : (writerOf metric dims i m ef).addItem t fails env x v w.process = res) :
      Step w (.addItem i x v, answer (fun _ => .unit) res) ⟨final res, w.readers⟩
  | exit {w : World P K} {fails : HeedCall → Bool} {env : Environment} {i : UInt16} {m ef : Nat}
      {res : EStateM.Result PyErr (Process P) Unit} (henv : ∀ site, env.fault site = false)
      (hef : HeapFits ef) (h : (writerOf metric dims i m ef).exit t fails env w.process = res) :
      Step w (.exit i m ef, answer (fun _ => .unit) res) ⟨final res, w.readers⟩
  | commit {w : World P K} {fails : HeedCall → Bool} {res : EStateM.Result PyErr (Process P) Bool}
      (h : commitRwTxn fails w.process = res) :
      Step w (.commit, answer .bool res) ⟨final res, w.readers⟩
  | abort {w : World P K} {res : EStateM.Result PyErr (Process P) Bool}
      (h : abortRwTxn w.process = res) : Step w (.abort, answer .bool res) ⟨final res, w.readers⟩
  | reader {w : World P K} {fails : HeedCall → Bool} {k : K} {i : UInt16}
      {res : EStateM.Result PyErr (Process P) PyReader}
      (h : (PyDatabase.mk (metric i)).reader t fails i w.process = res) :
      Step w (.reader k i, answer (fun _ => .unit) res) (w.hold k res)
  | byVec {w : World P K} {k : K} {r : PyReader} {q : List F32} {n ef : Nat}
      (hk : w.readers k = some r) (hef : HeapFits (max ef n)) :
      Step w (.byVec k q n ef, answerOf .found (r.byVec t q n ef)) w
  | restart {w : World P K} :
      Step w (.restart, .unit) ⟨⟨w.process.files, none, none⟩, fun _ => none⟩

/-- The stores at each path, those of the transaction, and those that readers hold. -/
structure Session (P K : Type) where
  saved : P → UInt16 → Store
  env : Option P
  txn : Option (P × (UInt16 → Store))
  readers : K → Option (UInt16 × Store)

namespace Session

/-- A database is asked for; the first one decides where. -/
def enter (s : Session P K) (path : P) : Session P K := { s with env := some (s.env.getD path) }

/-- A call that writes has a transaction. -/
inductive Begins (s : Session P K) : Session P K → Prop
  | already (h : s.txn.isSome) : Begins s s
  | begins {path : P} (h : s.txn = none) (henv : s.env = some path) :
      Begins s { s with txn := some (path, s.saved path) }

/-- Or it has none. -/
inductive Unbegun (s : Session P K) : PyErr → Prop
  | noEnvironment (h : s.txn = none) (henv : s.env = none) : Unbegun s .noEnvironment
  | refused (h : s.txn = none) (henv : s.env.isSome) : Unbegun s (.hannoy .heed)

/-- The `m` that an index can be built with. -/
def supported : List Nat := [4, 8, 12, 16, 24, 32]

/-- What the stores tell. -/
inductive Step : Session P K → Call P K × Answer → Session P K → Prop
  | openRefused {s : Session P K} {path : P} {name : Option String} (h : s.env = none) :
      Step s (.database path name, .raised (.hannoy .heed)) s
  | databaseUnbegun {s : Session P K} {path : P} {name : Option String} {e : PyErr}
      (h : (s.enter path).Unbegun e) : Step s (.database path name, .raised e) (s.enter path)
  | databaseRefused {s s' : Session P K} {path : P} {name : Option String}
      (h : (s.enter path).Begins s') : Step s (.database path name, .raised (.hannoy .heed)) s'
  | database {s s' : Session P K} {path : P} (h : (s.enter path).Begins s') :
      Step s (.database path none, .unit) s'
  | unbegun {s : Session P K} {c : Call P K} {e : PyErr} (hc : c.Writes) (h : s.Unbegun e) :
      Step s (c, .raised e) s
  | addItem {s s' : Session P K} {path : P} {stores : UInt16 → Store} {i : UInt16} {x : ItemId}
      {v : List F32} {u : Store} (h : s.Begins s') (htxn : s'.txn = some (path, stores))
      (hu : Store.Runs (dims i) (stores i) (.addItem x v) u) :
      Step s (.addItem i x v, .unit) { s' with txn := some (path, Function.update stores i u) }
  | refusedItem {s s' : Session P K} {i : UInt16} {x : ItemId} {v : List F32} (h : s.Begins s')
      (hv : v.length ≠ dims i) : Step s
        (.addItem i x v, .raised (.hannoy (.invalidVecDimension (dims i) v.length))) s'
  | notSupported {s s' : Session P K} {i : UInt16} {m ef : Nat} (h : s.Begins s')
      (hm : m ∉ supported) : Step s (.exit i m ef, .raised (.notSupported m (2 * m))) s'
  | exit {s s' : Session P K} {path : P} {stores : UInt16 → Store} {i : UInt16} {m ef : Nat}
      {u : Store} (h : s.Begins s') (htxn : s'.txn = some (path, stores)) (hm : m ∈ supported)
      (hu : Store.Runs (dims i) (stores i) .build u) : Step s (.exit i m ef, .unit)
        { s' with
          saved := Function.update s'.saved path (Function.update stores i u)
          txn := none }
  | exitRefused {s s' : Session P K} {i : UInt16} {m ef : Nat} (h : s.Begins s')
      (hm : m ∈ supported) :
      Step s (.exit i m ef, .raised (.hannoy .heed)) { s' with txn := none }
  | commit {s : Session P K} {path : P} {stores : UInt16 → Store}
      (htxn : s.txn = some (path, stores)) : Step s (.commit, .bool true)
        { s with saved := Function.update s.saved path stores, txn := none }
  | commitNothing {s : Session P K} (htxn : s.txn = none) : Step s (.commit, .bool false) s
  | commitRefused {s : Session P K} (htxn : s.txn.isSome) :
      Step s (.commit, .raised (.hannoy .heed)) { s with txn := none }
  | abort {s : Session P K} : Step s (.abort, .bool s.txn.isSome) { s with txn := none }
  | reader {s : Session P K} {path : P} {k : K} {i : UInt16} (henv : s.env = some path)
      (hb : (s.saved path i).built = true) (hp : (s.saved path i).pending = false) :
      Step s (.reader k i, .unit)
        { s with readers := Function.update s.readers k (some (i, s.saved path i)) }
  | readerMissing {s : Session P K} {path : P} {k : K} {i : UInt16} (henv : s.env = some path)
      (hb : (s.saved path i).built = false) :
      Step s (.reader k i, .raised (.hannoy (.missingMetadata i))) s
  | readerStale {s : Session P K} {path : P} {k : K} {i : UInt16} (henv : s.env = some path)
      (hb : (s.saved path i).built = true) (hp : (s.saved path i).pending = true) :
      Step s (.reader k i, .raised (.hannoy (.needBuild i))) s
  | readerRefused {s : Session P K} {k : K} {i : UInt16} (henv : s.env.isSome) :
      Step s (.reader k i, .raised (.hannoy .heed)) s
  | readerNoEnvironment {s : Session P K} {k : K} {i : UInt16} (henv : s.env = none) :
      Step s (.reader k i, .raised .noEnvironment) s
  | byVec {s : Session P K} {k : K} {i : UInt16} {u : Store} {items : RoaringBitmap}
      {q : List F32} {n ef : Nat} {found : List (ItemId × F32)}
      (hk : s.readers k = some (i, u)) (hitems : u.Holds items) (hq : q.length = dims i)
      (hans : u.Answers ((metric i).distance t) items (nns n) q found)
      (hcount : found.length = min n items.card) : Step s (.byVec k q n ef, .found found) s
  | byVecRefused {s : Session P K} {k : K} {i : UInt16} {u : Store} {q : List F32} {n ef : Nat}
      (hk : s.readers k = some (i, u)) (hq : q.length ≠ dims i) : Step s
        (.byVec k q n ef, .raised (.hannoy (.invalidVecDimension (dims i) q.length))) s
  | restart {s : Session P K} : Step s (.restart, .unit) ⟨s.saved, none, none, fun _ => none⟩

end Session

end systems

/-! ## What a process stands for -/

section stands

variable {t metric dims} {w : World P K} {s s' : Session P K} {p : Process P} {path : P}
  {readers : K → Option PyReader} {fails : HeedCall → Bool} {db db' : Database}
  {stores : UInt16 → Store} {i : UInt16}

theorem heed_eq (call : HeedCall) (p : Process P) : heed fails call p =
    if fails call then .error (.hannoy .heed) p else .ok () p := by
  unfold heed
  split_ifs <;> rfl

theorem getRwTxn_open {a : P × Database} (h : p.rwTxn = some a) : getRwTxn fails p = .ok () p := by
  unfold getRwTxn
  rw [get_bind_eq, h]
  rfl

theorem getRwTxn_noEnvironment (h : p.rwTxn = none) (henv : p.env = none) :
    getRwTxn fails p = .error .noEnvironment p := by
  unfold getRwTxn
  rw [get_bind_eq, h, henv]
  rfl

theorem getRwTxn_begin (h : p.rwTxn = none) (henv : p.env = some path) : getRwTxn fails p =
    if fails .writeTxn then .error (.hannoy .heed) p
    else .ok () { p with rwTxn := some (path, p.files path) } := by
  obtain ⟨files, env, rwTxn⟩ := p
  cases h
  cases henv
  show (heed fails .writeTxn >>= fun _ => set (⟨files, some path, some (path, files path)⟩ :
    Process P)) _ = _
  rw [bind_eq, heed_eq]
  split_ifs <;> rfl

theorem new_eq (distance : PyDistance) (name : Option String) (p : Process P) :
    PyDatabase.new fails path distance name p =
      if p.env = none ∧ fails .openEnv then .error (.hannoy .heed) p
      else (getRwTxn fails >>= fun _ => if name.isSome then throw (.hannoy .heed) else
        heed fails .createDatabase >>= fun _ => pure ⟨distance⟩)
          { p with env := some (p.env.getD path) } := by
  obtain ⟨files, env, rwTxn⟩ := p
  cases env with
  | some q =>
    rw [if_neg (by simp)]
    unfold PyDatabase.new
    cases name <;> rfl
  | none =>
    have hopen : PyDatabase.new fails path distance name ⟨files, none, rwTxn⟩ =
        (heed fails .openEnv >>= fun _ => set (⟨files, some path, rwTxn⟩ : Process P) >>= fun _ =>
          getRwTxn fails >>= fun _ => if name.isSome then throw (.hannoy .heed) else
            heed fails .createDatabase >>= fun _ => pure ⟨distance⟩) ⟨files, none, rwTxn⟩ := by
      cases name <;> rfl
    by_cases hfails : fails .openEnv = true
    · rw [hopen, bind_of_error ((heed_eq _ _).trans (if_pos hfails)), if_pos ⟨rfl, hfails⟩]
    · have hopened : ¬ ((none : Option P) = none ∧ fails .openEnv = true) := fun h => hfails h.2
      rw [hopen, bind_of_ok ((heed_eq _ _).trans (if_neg hfails)), if_neg hopened]
      rfl

theorem inRwTxn_ok (h : p.rwTxn = some (path, db)) {x : RwTxn α} {a : α} (hx : x db = .ok a db') :
    inRwTxn x p = .ok a { p with rwTxn := some (path, db') } := by
  unfold inRwTxn
  simp only [h, hx]

theorem inRwTxn_error (h : p.rwTxn = some (path, db)) {x : RwTxn α} {e : Failure}
    (hx : x db = .error e db') :
    inRwTxn x p = .error (.ofFailure e) { p with rwTxn := some (path, db') } := by
  unfold inRwTxn
  simp only [h, hx]

theorem commitRwTxn_none [DecidableEq P] (h : p.rwTxn = none) :
    commitRwTxn fails p = .ok false p := by
  unfold commitRwTxn
  rw [get_bind_eq, h]
  rfl

theorem commitRwTxn_some [DecidableEq P] (h : p.rwTxn = some (path, db)) : commitRwTxn fails p =
    if fails .commit then .error (.hannoy .heed) { p with rwTxn := none }
    else .ok true { p with rwTxn := none, files := Function.update p.files path db } := by
  obtain ⟨files, env, rwTxn⟩ := p
  cases h
  show (heed fails .commit >>= fun _ =>
    set (⟨Function.update files path db, env, none⟩ : Process P) >>= fun _ => pure true)
      ⟨files, env, none⟩ = _
  rw [bind_eq, heed_eq]
  split_ifs <;> rfl

variable (t metric dims) in
/-- The entries of each index stand for a store. -/
def AllRepresent (db : Database) (stores : UInt16 → Store) : Prop :=
  ∀ i, Represents ((metric i).distance t) i (dims i) (stores i) db

/-- **A call of a writer** does to the stores what it does to the entries. -/
theorem AllRepresent.runs {c : Command} (h : AllRepresent t metric dims db stores)
    (hc : c.Runs ((metric i).distance t) ⟨i, dims i⟩ db db') : ∃ u,
      Store.Runs (dims i) (stores i) c u ∧
        AllRepresent t metric dims db' (Function.update stores i u) := by
  obtain ⟨u, hu, hrep⟩ := (h i).runs hc
  refine ⟨u, hu, fun j => ?_⟩
  by_cases hj : j = i
  · subst hj
    rwa [Function.update_self]
  · rw [Function.update_of_ne hj]
    exact (h j).elsewhere hj hc

variable (t metric dims) in
/-- A reader of an index, opened on entries that stand for a store. -/
structure Opened (r : PyReader) (u : UInt16 × Store) : Prop where
  distance : r.distance = metric u.1
  opened : Reader.open ((metric u.1).distance t) r.rtxn u.1 = .ok r.reader
  represents : Represents ((metric u.1).distance t) u.1 (dims u.1) u.2 r.rtxn

variable (t metric dims) in
structure Stands (w : World P K) (s : Session P K) : Prop where
  env : w.process.env = s.env
  saved : ∀ path, AllRepresent t metric dims (w.process.files path) (s.saved path)
  txn : Option.Rel (fun a b => a.1 = b.1 ∧ AllRepresent t metric dims a.2 b.2) w.process.rwTxn s.txn
  readers : ∀ k, Option.Rel (Opened t metric dims) (w.readers k) (s.readers k)

namespace Stands

variable (h : Stands t metric dims w s)
include h

theorem enter (path : P) : Stands t metric dims
    ⟨{ w.process with env := some (w.process.env.getD path) }, w.readers⟩ (s.enter path) :=
  ⟨by rw [h.env]; rfl, h.saved, h.txn, h.readers⟩

/-- A transaction is lost or aborted. -/
theorem drop : Stands t metric dims ⟨{ w.process with rwTxn := none }, w.readers⟩
    { s with txn := none } :=
  ⟨h.env, h.saved, .none, h.readers⟩

/-- The transactions, if there are any. -/
theorem cases_txn : (w.process.rwTxn = none ∧ s.txn = none) ∨ ∃ path db stores,
    w.process.rwTxn = some (path, db) ∧ s.txn = some (path, stores) ∧
      AllRepresent t metric dims db stores := by
  have htxn := h.txn
  cases hp : w.process.rwTxn with
  | none =>
    rw [hp] at htxn
    cases hs : s.txn with
    | none => exact Or.inl ⟨rfl, rfl⟩
    | some b =>
      rw [hs] at htxn
      cases htxn
  | some a =>
    rw [hp] at htxn
    cases hs : s.txn with
    | none =>
      rw [hs] at htxn
      cases htxn
    | some b =>
      rw [hs] at htxn
      obtain ⟨path, db⟩ := a
      obtain ⟨_, stores⟩ := b
      obtain ⟨rfl, hrep⟩ := Option.rel_some_some.mp htxn
      exact Or.inr ⟨path, db, stores, rfl, rfl, hrep⟩

/-- **A call that writes has a transaction**, old or new, or there is none. -/
theorem begins (fails : HeedCall → Bool) :
    (∃ p s' path db stores, getRwTxn fails w.process = .ok () p ∧ s.Begins s' ∧
      Stands t metric dims ⟨p, w.readers⟩ s' ∧ p.rwTxn = some (path, db) ∧
        s'.txn = some (path, stores) ∧ AllRepresent t metric dims db stores) ∨
      ∃ e, getRwTxn fails w.process = .error e w.process ∧ s.Unbegun e := by
  rcases h.cases_txn with ⟨hp, hs⟩ | ⟨path, db, stores, hp, hs, hrep⟩
  · have henv := h.env
    cases he : w.process.env with
    | none =>
      rw [he] at henv
      exact Or.inr ⟨_, getRwTxn_noEnvironment hp he, .noEnvironment hs henv.symm⟩
    | some path =>
      rw [he] at henv
      have hget : getRwTxn fails w.process = _ := getRwTxn_begin hp he
      split_ifs at hget with hfails
      · exact Or.inr ⟨_, hget, .refused hs (by simp [← henv])⟩
      · exact Or.inl ⟨_, _, path, _, _, hget, .begins hs henv.symm,
          ⟨h.env, h.saved, .some ⟨rfl, h.saved path⟩, h.readers⟩, rfl, rfl, h.saved path⟩
  · exact Or.inl ⟨w.process, s, path, db, stores, getRwTxn_open hp, .already (by simp [hs]), h, hp,
      hs, hrep⟩

/-- What was committed can be read, or nothing can. -/
theorem reads (fails : HeedCall → Bool) :
    (∃ path, s.env = some path ∧
      getRoTxn fails w.process = .ok (w.process.files path) w.process) ∨
    ∃ e, getRoTxn fails w.process = .error e w.process ∧
      ((e = .noEnvironment ∧ s.env = none) ∨ (e = .hannoy .heed ∧ s.env.isSome)) := by
  have hget : ∀ path, w.process.env = some path → getRoTxn fails w.process =
      (heed fails .readTxn >>= fun _ => pure (w.process.files path)) w.process := by
    intro path he
    unfold getRoTxn
    rw [get_bind_eq, he]
  rw [← h.env]
  cases he : w.process.env with
  | none =>
    refine Or.inr ⟨.noEnvironment, ?_, Or.inl ⟨rfl, rfl⟩⟩
    unfold getRoTxn
    rw [get_bind_eq, he]
    rfl
  | some path =>
    rw [hget path he]
    by_cases hfails : fails .readTxn = true
    · exact Or.inr ⟨_, bind_of_error ((heed_eq _ _).trans (if_pos hfails)), Or.inr ⟨rfl, rfl⟩⟩
    · exact Or.inl ⟨path, rfl, bind_of_ok ((heed_eq _ _).trans (if_neg hfails))⟩

/-- The transaction is written to. -/
theorem write (path : P) (hrep : AllRepresent t metric dims db stores) : Stands t metric dims
    ⟨{ w.process with rwTxn := some (path, db) }, w.readers⟩
    { s with txn := some (path, stores) } :=
  ⟨h.env, h.saved, .some ⟨rfl, hrep⟩, h.readers⟩

/-- **A commit** saves the stores of the transaction. -/
theorem commit [DecidableEq P] (hrep : AllRepresent t metric dims db stores) : Stands t metric dims
    ⟨{ w.process with rwTxn := none, files := Function.update w.process.files path db }, w.readers⟩
    { s with saved := Function.update s.saved path stores, txn := none } where
  env := h.env
  saved q := by
    by_cases hq : q = path
    · subst hq
      simpa using hrep
    · simpa [hq] using h.saved q
  txn := .none
  readers := h.readers

/-- A reader is opened. -/
theorem hold [DecidableEq K] {r : PyReader} {k : K} {u : Store}
    (hr : Opened t metric dims r (i, u)) : Stands t metric dims
      ⟨w.process, Function.update w.readers k (some r)⟩
      { s with readers := Function.update s.readers k (some (i, u)) } where
  env := h.env
  saved := h.saved
  txn := h.txn
  readers k' := by
    by_cases hk : k' = k
    · subst hk
      simpa using hr
    · simpa [hk] using h.readers k'

end Stands

/-! ## The calls -/

theorem mem_table_iff {m : Nat} : (m, 2 * m) ∈ PyWriter.table ↔ m ∈ Session.supported := by
  simp only [PyWriter.table, Session.supported, List.mem_cons, Prod.mk.injEq, List.not_mem_nil,
    or_false]
  omega

/-- A build that nothing interrupts returns. -/
theorem build_returns {D : Distance} {n : Nat} {u : Store} (hn : n < 2 ^ 32)
    (hrep : Represents D i n u db) {env : Environment} (henv : ∀ site, env.fault site = false)
    (m ef : Nat) : ∃ u db', ((⟨i, n⟩ : Writer).builder.efConstruction ef).build D m (2 * m) env db =
      .ok u db' := by
  have hu : Uninterrupted { BuildOption.default with efConstruction := ef } env :=
    ⟨fun _ => rfl, henv⟩
  have hfails : FailsFrom (fun _ => False) ((⟨i, n⟩ : Writer).build D m (2 * m) env
      { BuildOption.default with efConstruction := ef }) db :=
    fun e db' he => hu.not (build_interrupted (w := ⟨i, n⟩) hrep.consistent rfl
      (Nat.le_mul_of_pos_left m two_pos) hn e db' he)
  exact hfails.returns

/-- A search that is not cancelled finds what one without cancellation finds. -/
theorem byVector_nns {D : Distance} {r : Reader} {opt : QueryBuilder} {q : List F32} :
    (r.byVector D db opt q).map Searched.nns =
      (r.byVectorWithCancellation D db opt q fun _ => false).map Searched.nns := by
  unfold Reader.byVector Reader.byVectorWithCancellation
  cases r.queryItem D q with
  | error e => rfl
  | ok query =>
    show (r.nnsByVec D db opt query _ >>= _).map _ = (r.nnsByVec D db opt query _ >>= _).map _
    cases r.nnsByVec D db opt query fun _ => false with
    | error e => rfl
    | ok found => cases found <;> rfl

variable [DecidableEq P] [DecidableEq K]

/-- `add_item`. -/
theorem Stands.addItem (h : Stands t metric dims w s) {env : Environment}
    (henv : ∀ site, env.fault site = false) {m ef : Nat} {x : ItemId} {v : List F32}
    {res : EStateM.Result PyErr (Process P) Unit}
    (hres : (writerOf metric dims i m ef).addItem t fails env x v w.process = res) :
    ∃ s', Session.Step (K := K) t metric dims s (.addItem i x v, answer (fun _ => .unit) res) s' ∧
      Stands t metric dims ⟨final res, w.readers⟩ s' := by
  have hcall : res = (getRwTxn fails >>= fun _ => inRwTxn
      (Writer.addItem ((metric i).distance t) ⟨i, dims i⟩ x v)) w.process := by
    rw [← hres, ← addItem_of_no_fault henv]
    rfl
  rcases h.begins fails with ⟨p, s', path, db, stores, hget, hbegins, h', hp, hs, hrep⟩ |
    ⟨e, hget, hun⟩
  · rw [bind_of_ok hget] at hcall
    by_cases hv : v.length = dims i
    · obtain ⟨u, db', hadd⟩ : ∃ u db', Writer.addItem ((metric i).distance t) ⟨i, dims i⟩ x v db =
          .ok u db' := by
        rw [Writer.addItem, if_neg (not_not.mpr hv)]
        exact ⟨_, _, rfl⟩
      rw [inRwTxn_ok hp hadd] at hcall
      obtain ⟨u, hu, hrep'⟩ := hrep.runs (.addItem hadd)
      rw [hcall]
      exact ⟨_, .addItem hbegins hs hu, h'.write path hrep'⟩
    · have hadd : Writer.addItem ((metric i).distance t) ⟨i, dims i⟩ x v db =
          .error (.err (.invalidVecDimension (dims i) v.length)) db := by
        rw [Writer.addItem, if_pos hv]
        rfl
      rw [inRwTxn_error hp hadd] at hcall
      rw [hcall]
      refine ⟨_, .refusedItem hbegins hv, ?_⟩
      obtain ⟨files, env, rwTxn⟩ := p
      cases hp
      exact h'
  · rw [bind_of_error hget] at hcall
    rw [hcall]
    exact ⟨_, .unbegun .addItem hun, h⟩

/-- `__exit__`. -/
theorem Stands.exit (h : Stands t metric dims w s) (hdims : dims i < 2 ^ 32) {env : Environment}
    (henv : ∀ site, env.fault site = false) {m ef : Nat}
    {res : EStateM.Result PyErr (Process P) Unit}
    (hres : (writerOf metric dims i m ef).exit t fails env w.process = res) :
    ∃ s', Session.Step (K := K) t metric dims s (.exit i m ef, answer (fun _ => .unit) res) s' ∧
      Stands t metric dims ⟨final res, w.readers⟩ s' := by
  have hcall : res = ((writerOf metric dims i m ef).build t fails env >>= fun _ =>
      commitRwTxn fails >>= fun _ => pure ()) w.process := hres.symm
  have hbuild : (writerOf metric dims i m ef).build t fails env w.process =
      (getRwTxn fails >>= fun _ =>
        if (m, 2 * m) ∈ PyWriter.table then inRwTxn (((⟨i, dims i⟩ : Writer).builder.efConstruction
          ef).build ((metric i).distance t) m (2 * m) env)
        else throw (.notSupported m (2 * m))) w.process := rfl
  rcases h.begins fails with ⟨p, s', path, db, stores, hget, hbegins, h', hp, hs, hrep⟩ |
    ⟨e, hget, hun⟩
  · rw [bind_of_ok hget] at hbuild
    by_cases hm : m ∈ Session.supported
    · obtain ⟨u, db', hdone⟩ := build_returns hdims (hrep i) henv m ef
      obtain ⟨u, hu, hrep'⟩ := hrep.runs (.build rfl hdone)
      rw [if_pos (mem_table_iff.mpr hm), inRwTxn_ok hp hdone] at hbuild
      rw [bind_of_ok hbuild] at hcall
      have hcommit : commitRwTxn fails { p with rwTxn := some (path, db') } = _ :=
        commitRwTxn_some rfl
      -- a commit that is refused loses the transaction
      split_ifs at hcommit with hfails
      · rw [bind_of_error hcommit] at hcall
        rw [hcall]
        exact ⟨_, .exitRefused hbegins hm, h'.drop⟩
      · rw [bind_of_ok hcommit] at hcall
        rw [hcall]
        exact ⟨_, .exit hbegins hs hm hu, h'.commit hrep'⟩
    · rw [if_neg (fun hin => hm (mem_table_iff.mp hin))] at hbuild
      have hthrow : (throw (.notSupported m (2 * m)) : PyM P Unit) p =
          .error (.notSupported m (2 * m)) p := rfl
      rw [bind_of_error (hbuild.trans hthrow)] at hcall
      rw [hcall]
      exact ⟨_, .notSupported hbegins hm, h'⟩
  · rw [bind_of_error hget] at hbuild
    rw [bind_of_error hbuild] at hcall
    rw [hcall]
    exact ⟨_, .unbegun .exit hun, h⟩

/-- `Database`. -/
theorem Stands.database (h : Stands t metric dims w s) {distance : PyDistance}
    {name : Option String} {res : EStateM.Result PyErr (Process P) PyDatabase}
    (hres : PyDatabase.new fails path distance name w.process = res) : ∃ s',
      Session.Step (K := K) t metric dims s (.database path name, answer (fun _ => .unit) res) s' ∧
        Stands t metric dims ⟨final res, w.readers⟩ s' := by
  rw [new_eq] at hres
  by_cases hopen : w.process.env = none ∧ fails .openEnv = true
  · rw [if_pos hopen] at hres
    subst hres
    exact ⟨_, .openRefused (h.env ▸ hopen.1), h⟩
  · rw [if_neg hopen] at hres
    rcases (h.enter path).begins fails with ⟨p, s', q, db, stores, hget, hbegins, h', -⟩ |
      ⟨e, hget, hun⟩
    · rw [bind_of_ok hget] at hres
      cases name with
      | some name =>
        subst hres
        exact ⟨_, .databaseRefused hbegins, h'⟩
      | none =>
        have hcreate : res = (heed fails .createDatabase >>= fun _ => pure ⟨distance⟩) p :=
          hres.symm
        by_cases hfails : fails .createDatabase = true
        · rw [bind_of_error ((heed_eq _ _).trans (if_pos hfails))] at hcreate
          subst hcreate
          exact ⟨_, .databaseRefused hbegins, h'⟩
        · rw [bind_of_ok ((heed_eq _ _).trans (if_neg hfails))] at hcreate
          subst hcreate
          exact ⟨_, .database hbegins, h'⟩
    · rw [bind_of_error hget] at hres
      subst hres
      exact ⟨_, .databaseUnbegun hun, h.enter path⟩

/-- `commit_rw_txn`. -/
theorem Stands.commitRwTxn (h : Stands t metric dims w s)
    {res : EStateM.Result PyErr (Process P) Bool} (hres : commitRwTxn fails w.process = res) :
    ∃ s', Session.Step (K := K) t metric dims s (.commit, answer .bool res) s' ∧
      Stands t metric dims ⟨final res, w.readers⟩ s' := by
  rcases h.cases_txn with ⟨hp, hs⟩ | ⟨path, db, stores, hp, hs, hrep⟩
  · rw [commitRwTxn_none hp] at hres
    subst hres
    exact ⟨_, .commitNothing hs, h⟩
  · rw [commitRwTxn_some hp] at hres
    split_ifs at hres with hfails
    · subst hres
      exact ⟨_, .commitRefused (by simp [hs]), h.drop⟩
    · subst hres
      exact ⟨_, .commit hs, h.commit hrep⟩

/-- `abort_rw_txn`. -/
theorem Stands.abortRwTxn (h : Stands t metric dims w s)
    {res : EStateM.Result PyErr (Process P) Bool} (hres : abortRwTxn w.process = res) :
    ∃ s', Session.Step (K := K) t metric dims s (.abort, answer .bool res) s' ∧
      Stands t metric dims ⟨final res, w.readers⟩ s' := by
  have hsome : w.process.rwTxn.isSome = s.txn.isSome := by
    rcases h.cases_txn with ⟨hp, hs⟩ | ⟨path, db, stores, hp, hs, -⟩ <;> simp [hp, hs]
  subst hres
  show ∃ s', Session.Step (K := K) t metric dims s (.abort, .bool w.process.rwTxn.isSome) s' ∧ _
  rw [hsome]
  exact ⟨_, .abort, h.drop⟩

/-- `Database.reader`. -/
theorem Stands.reader (h : Stands t metric dims w s) {k : K}
    {res : EStateM.Result PyErr (Process P) PyReader}
    (hres : (PyDatabase.mk (metric i)).reader t fails i w.process = res) : ∃ s',
      Session.Step t metric dims s (.reader k i, answer (fun _ => .unit) res) s' ∧
        Stands t metric dims (w.hold k res) s' := by
  have hcall : res = (getRoTxn fails >>= fun rtxn =>
      lift (Reader.open ((metric i).distance t) rtxn i) >>= fun reader =>
        pure ⟨metric i, reader, rtxn⟩) w.process := hres.symm
  rcases h.reads fails with ⟨path, henv, hget⟩ | ⟨e, hget, ⟨rfl, henv⟩ | ⟨rfl, henv⟩⟩
  · rw [bind_of_ok hget] at hcall
    have hrep := h.saved path i
    have hids := hrep.itemIds
    cases hopen : Reader.open ((metric i).distance t) (w.process.files path) i with
    | ok r =>
      obtain ⟨hb, hp, -⟩ := hrep.opened hopen
      rw [hopen] at hcall
      subst hcall
      exact ⟨_, .reader henv hb hp, h.hold ⟨rfl, hopen, hrep⟩⟩
    | error e =>
      rw [hopen] at hcall hids
      subst hcall
      cases hids with
      | missing hb => exact ⟨_, .readerMissing henv hb, h⟩
      | stale hb hp => exact ⟨_, .readerStale henv hb hp, h⟩
  · rw [bind_of_error hget] at hcall
    subst hcall
    exact ⟨_, .readerNoEnvironment henv, h⟩
  · rw [bind_of_error hget] at hcall
    subst hcall
    exact ⟨_, .readerRefused henv, h⟩

/-- `by_vec`. -/
theorem Stands.byVec (h : Stands t metric dims w s) {k : K} {r : PyReader} {q : List F32}
    {n ef : Nat} (hk : w.readers k = some r) : Session.Step t metric dims s
      (.byVec k q n ef, answerOf .found (r.byVec t q n ef)) s := by
  have hheld := h.readers k
  rw [hk] at hheld
  cases hs : s.readers k with
  | none =>
    rw [hs] at hheld
    cases hheld
  | some b =>
    rw [hs] at hheld
    obtain ⟨i, u⟩ := b
    obtain ⟨hdist, hopen, hrep⟩ := Option.rel_some_some.mp hheld
    have hD : (metric i).distance t ∈ distances t := by
      cases metric i <;> simp [PyDistance.distance, distances]
    have hshows := hrep.byVector hD hopen ((nns n).efSearch ef) q fun _ => false
    unfold PyReader.byVec
    rw [hdist, byVector_nns]
    generalize r.reader.byVectorWithCancellation ((metric i).distance t) r.rtxn
      ((nns n).efSearch ef) q (fun _ => false) = out at hshows
    cases hshows with
    | refused _ _ hlen => exact .byVecRefused hs hlen
    | @byVector items _ _ _ out _ _ hitems hlen hans hcount =>
      refine .byVec hs hitems hlen ⟨hans.length, hans.nodup, hans.eligible, hans.distance,
        hans.sorted⟩ ?_
      have hall : Store.eligible items ((nns n).efSearch ef) = items := Finset.inter_self items
      have hlength := hcount (fun _ => rfl) (Or.inl (le_max_right _ _))
      rwa [hall] at hlength

end stands

end Hannoy.Python
