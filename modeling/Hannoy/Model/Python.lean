import Hannoy.Codec.Distances
import Hannoy.Model.Builder
import Hannoy.Model.Convert

/-!
# The Python bindings (`python.rs`)

A process has one environment, opened at the path of its first database, and one write transaction.
The first call that writes begins it; the end of a `with` block, `commit_rw_txn` or `abort_rw_txn`
ends it. A reader keeps the read transaction it was opened in.

* `Process`: the statics `ENV` and `RW_TXN`, and what is on disk.
* `PyM`: a call. An exception leaves what was done before it.
-/

namespace Hannoy.Python

open Hannoy.Library

/-! ## Metrics, errors and LMDB -/

/-- The supported distance metrics in hannoy. -/
inductive PyDistance where
  | cosine | euclidean | manhattan | bqCosine | bqEuclidean | bqManhattan | hamming
  deriving DecidableEq, Repr

/-- The distance a `DynDatabase`, a `DynWriter` and a `DynReader` are at. -/
def PyDistance.distance (t : Target) : PyDistance → Distance
  | .cosine => Hannoy.cosine t
  | .euclidean => Hannoy.euclidean t
  | .manhattan => manhattanWith (Codec.codecOn t .f32)
  | .bqCosine => binaryQuantizedCosine t
  | .bqEuclidean => binaryQuantizedEuclidean t
  | .bqManhattan => binaryQuantizedManhattanWith (Codec.codecOn t .binaryQuantized)
  | .hamming => Hannoy.hamming t

/-- What a call raises. -/
inductive PyErr where
  | noEnvironment
  /-- An error of the crate, as `h2py_err` passes it on. -/
  | hannoy (e : Error)
  | panic (p : Panic)
  /-- The panic of a build with an `M` that is not in its table. -/
  | notSupported (m m0 : Nat)
  deriving DecidableEq, Repr

def PyErr.ofFailure : Failure → PyErr
  | .err e => .hannoy e
  | .panic p => .panic p

/-- The calls the bindings make of LMDB themselves. -/
inductive HeedCall where
  | openEnv | createDatabase | writeTxn | readTxn | commit
  deriving DecidableEq, Repr

/-- What the bindings keep, over the databases at the paths on disk. -/
structure Process (P : Type) where
  files : P → Database
  /-- `ENV`: where it was opened. -/
  env : Option P
  /-- `RW_TXN`: its environment, and the database as the transaction sees it. -/
  rwTxn : Option (P × Database)

/-- A call, with the interpreter's lock held. -/
abbrev PyM (P α : Type) := EStateM PyErr (Process P) α

variable {P α : Type} (t : Target) (fails : HeedCall → Bool)

/-- A call of LMDB, which fails when the oracle says so. -/
def heed (call : HeedCall) : PyM P Unit :=
  if fails call then throw (.hannoy .heed) else pure ()

/-- `map_err(h2py_err)`. -/
def lift : Except Failure α → PyM P α
  | .ok a => pure a
  | .error e => throw (.ofFailure e)

/-! ## Transactions -/

/-- `get_rw_txn` (`python.rs:409-417`). -/
def getRwTxn : PyM P Unit := do
  let p ← get
  if p.rwTxn.isNone then
    match p.env with
    | none => throw .noEnvironment
    | some path =>
      heed fails .writeTxn
      set { p with rwTxn := some (path, p.files path) }

/-- A call of the crate in the transaction that `get_rw_txn` has left. -/
def inRwTxn (x : RwTxn α) : PyM P α := fun p =>
  match p.rwTxn with
  | none => .error (.panic .unreachable) p
  | some (path, db) =>
    match x db with
    | .ok a db' => .ok a { p with rwTxn := some (path, db') }
    | .error e db' => .error (.ofFailure e) { p with rwTxn := some (path, db') }

/-- `get_ro_txn` (`python.rs:419-423`): what was committed. -/
def getRoTxn : PyM P Database := do
  let p ← get
  match p.env with
  | none => throw .noEnvironment
  | some path =>
    heed fails .readTxn
    pure (p.files path)

/-- `commit_rw_txn` (`python.rs:199-206`): the transaction is taken before it is committed. -/
def commitRwTxn [DecidableEq P] : PyM P Bool := do
  let p ← get
  match p.rwTxn with
  | none => pure false
  | some (path, db) =>
    set { p with rwTxn := none }
    heed fails .commit
    set { p with rwTxn := none, files := Function.update p.files path db }
    pure true

/-- `abort_rw_txn` (`python.rs:209-216`). -/
def abortRwTxn : PyM P Bool := do
  let p ← get
  set { p with rwTxn := none }
  pure p.rwTxn.isSome

/-! ## Databases -/

/-- The options of `PyWriter`. -/
structure BuildOptions where
  ef : Nat
  m : Nat
  m0 : Nat

structure PyWriter where
  distance : PyDistance
  writer : Writer
  opts : BuildOptions

structure PyReader where
  distance : PyDistance
  reader : Reader
  rtxn : Database

structure PyDatabase where
  distance : PyDistance

namespace PyDatabase

/-- `new` (`python.rs:100-115`). LMDB creates the unnamed database only: no environment is opened
with room for others. -/
def new (path : P) (distance : PyDistance) (name : Option String) : PyM P PyDatabase := do
  let p ← get
  if p.env.isNone then
    heed fails .openEnv
    set { p with env := some path }
  getRwTxn fails
  if name.isSome then throw (.hannoy .heed)
  heed fails .createDatabase
  pure ⟨distance⟩

/-- `writer` (`python.rs:119-151`). -/
def writer (db : PyDatabase) (dimensions : Nat) (index : UInt16) (m ef : Nat) : PyWriter :=
  ⟨db.distance, ⟨index, dimensions⟩, ⟨ef, m, 2 * m⟩⟩

/-- `reader` (`python.rs:155-196`). -/
def reader (db : PyDatabase) (index : UInt16) : PyM P PyReader := do
  let rtxn ← getRoTxn fails
  let reader ← lift (Reader.open (db.distance.distance t) rtxn index)
  pure ⟨db.distance, reader, rtxn⟩

end PyDatabase

/-! ## Writers and readers -/

namespace PyWriter

/-- The cases of `match_table!`. -/
def table : List (Nat × Nat) := [(4, 8), (8, 16), (12, 24), (16, 32), (24, 48), (32, 64)]

/-- `build` (`python.rs:257-294`). -/
def build (env : Environment) (w : PyWriter) : PyM P Unit := do
  getRwTxn fails
  let ⟨ef, m, m0⟩ := w.opts
  if (m, m0) ∈ table then
    inRwTxn ((w.writer.builder.efConstruction ef).build (w.distance.distance t) m m0 env)
  else throw (.notSupported m m0)

/-- `__exit__` (`python.rs:305-314`), with or without an exception in the block. -/
def exit [DecidableEq P] (env : Environment) (w : PyWriter) : PyM P Unit := do
  w.build t fails env
  let _ ← commitRwTxn fails

/-- `add_item` (`python.rs:317-343`). -/
def addItem (env : Environment) (w : PyWriter) (item : ItemId) (vector : List F32) :
    PyM P Unit := do
  getRwTxn fails
  inRwTxn (Writer.Faulty.addItem w.writer env (w.distance.distance t) item vector)

end PyWriter

/-- `by_vec` (`python.rs:378-397`). -/
def PyReader.byVec (r : PyReader) (query : List F32) (n efSearch : Nat) :
    Except Failure (List (ItemId × F32)) :=
  (r.reader.byVector (r.distance.distance t) r.rtxn ((nns n).efSearch efSearch) query).map
    Searched.nns

end Hannoy.Python
