import Hannoy.Library.Server
import Hannoy.Library.Txn
import Hannoy.Model.Database
import Mathlib.Data.List.Sort

/-!
# The in-memory layers of a build (`hnsw.rs`, `parallel.rs`)

A build reads the database through a `FrozenReader` and keeps the edges it adds in `Layers`, one
concurrent map per layer. Inserts of a level group share the maps: each map is a server that
answers `get`, `insert`, `get_or_insert` and `update_or_insert_with`, one request at a time.

* `robustPrune` selects the links of a node (`hnsw.rs:565-597`).
* `addLinkUpdate` and `addLinkInsert` are the two closures `add_link` passes to
  `update_or_insert_with`; the request carries the link they add.
* `exec` serves a request. `get?_exec` says what one request does to one entry.
-/

namespace Hannoy

open Hannoy.Library Hannoy.Library.Server

/-! ## `FrozenReader` (`parallel.rs`) -/

/-- A read transaction of the database at the start of the build. -/
structure FrozenReader where
  db : Database
  index : UInt16

namespace FrozenReader

variable (lmdb : FrozenReader)

def item (x : ItemId) : Except Failure Item := do
  match ← lmdb.db.getNode (Key.item lmdb.index x) with
  | some (.item item) => pure item
  | _ => throw (.err (.missingKey lmdb.index "Item" x 0))

def links (x : ItemId) (level : Nat) : Except Failure RoaringBitmap := do
  match ← lmdb.db.getNode (Key.links lmdb.index x level.toUInt8) with
  | some (.links links) => pure links
  | _ => throw (.err (.missingKey lmdb.index "Links" x level.toUInt8))

/-- The entries `iter_links` and `iter_layer_links` walk over, not decoded yet. -/
def linksEntries : List (Key × Value) := lmdb.db.prefixIter (Prefix.links lmdb.index)

/-- The number of stored items. -/
def numItems : Nat := (lmdb.db.prefixIter (Prefix.item lmdb.index)).length

end FrozenReader

/-- Decode the value of a links entry. -/
def decodeLinks : Value → Except Failure RoaringBitmap
  | .node (.links links) => .ok links
  | .node (.item _) => .error (.panic .unreachable)
  | _ => .error (.err .heed)

/-! ## Layers -/

/-- State with stack-allocated graph edges. -/
structure NodeState (M0 : Nat) where
  links : ArrayVec M0 ScoredLink
  deriving DecidableEq

namespace NodeState

variable {M0 : Nat}

def empty : NodeState M0 := ⟨ArrayVec.empty⟩

/-- The targets of the links, in order. -/
def targets (st : NodeState M0) : List ItemId := st.links.toList.map Scored.id

end NodeState

abbrev Layer (M0 : Nat) := Std.ExtTreeMap ItemId (NodeState M0)

abbrev Layers (M0 : Nat) := List (Layer M0)

namespace Layers

variable {M0 : Nat}

/-- The entry of `x` at `level`. -/
def get? (layers : Layers M0) (level : Nat) (x : ItemId) : Option (NodeState M0) :=
  match layers[level]? with
  | some map => map[x]?
  | none => none

/-- The links of `x` at `level`, none when it has no entry. -/
def linksAt (layers : Layers M0) (level : Nat) (x : ItemId) : List ScoredLink :=
  match layers.get? level x with
  | some node => node.links.toList
  | none => []

theorem linksAt_of_get? {layers : Layers M0} {level : Nat} {x : ItemId} {node : NodeState M0}
    (h : layers.get? level x = some node) : layers.linksAt level x = node.links.toList := by
  rw [linksAt, h]

theorem linksAt_congr {layers layers' : Layers M0} {level : Nat} {x : ItemId}
    (h : layers'.get? level x = layers.get? level x) :
    layers'.linksAt level x = layers.linksAt level x := by
  rw [linksAt, linksAt, h]

theorem linksAt_of_none {layers : Layers M0} {level : Nat} {x : ItemId}
    (h : layers.get? level x = none) : layers.linksAt level x = [] := by
  rw [linksAt, h]

def insert (layers : Layers M0) (level : Nat) (x : ItemId) (st : NodeState M0) : Layers M0 :=
  layers.modify level fun map => map.insert x st

@[simp] theorem length_insert (layers : Layers M0) (level : Nat) (x : ItemId)
    (st : NodeState M0) : (layers.insert level x st).length = layers.length := by
  simp [insert]

theorem get?_of_length_le {layers : Layers M0} {level : Nat} (h : layers.length ≤ level)
    (x : ItemId) : layers.get? level x = none := by
  simp [get?, List.getElem?_eq_none h]

theorem lt_length_of_get? {layers : Layers M0} {level : Nat} {x : ItemId} {st : NodeState M0}
    (h : layers.get? level x = some st) : level < layers.length := by
  by_contra hlt
  rw [get?_of_length_le (by omega)] at h
  cases h

theorem get?_insert {layers : Layers M0} {level : Nat} (hlt : level < layers.length)
    (x : ItemId) (st : NodeState M0) (k : Nat) (y : ItemId) :
    (layers.insert level x st).get? k y =
      if k = level ∧ y = x then some st else layers.get? k y := by
  unfold insert get?
  rw [List.getElem?_modify]
  by_cases hk : k = level
  · subst hk
    simp only [List.getElem?_eq_getElem hlt, if_true, Option.map_eq_map, Option.map_some,
      true_and]
    rw [Std.ExtTreeMap.getElem?_insert]
    simp only [compare_eq_iff_eq, eq_comm (a := x)]
  · have hk' : ¬ level = k := fun h => hk h.symm
    simp only [hk, hk', if_false, false_and, Option.map_eq_map]
    cases layers[k]? <;> rfl

end Layers

/-! ## Selecting links -/

section prune

variable (D : Distance) (M M0 : Nat) (alpha : F32) (lmdb : FrozenReader)

/-- The number of links a node may have at a layer. -/
def linkCap (level : Nat) : Nat := if level = 0 then M0 else M

/-- Whether `c`, at distance `dist` from the query, is closer to the query than to every
selected candidate. -/
def okToAdd (dist : F32) (c : ItemId) : List ScoredLink → Except Failure Bool
  | [] => pure true
  | i :: selected => do
    let d := D.distance (← lmdb.item c) (← lmdb.item i.id)
    if F32.mul d alpha < dist then pure false else okToAdd dist c selected

/-- The loop of `robust_prune` over the candidates, nearest first. -/
def robustPruneLoop (cap : Nat) :
    List ScoredLink → List ScoredLink → Except Failure (List ScoredLink)
  | [], selected => pure selected
  | c :: candidates, selected =>
    if selected.length = cap then pure selected
    else do
      if ← okToAdd D alpha lmdb c.dist c.id selected then
        robustPruneLoop cap candidates (selected ++ [c])
      else robustPruneLoop cap candidates selected

/-- `robust_prune` (`hnsw.rs:565-597`). -/
def robustPrune (candidates : List ScoredLink) (level : Nat) :
    Except Failure (List ScoredLink) :=
  robustPruneLoop D alpha lmdb (linkCap M M0 level) (candidates.insertionSort (· ≤ ·)) []

variable {D M M0 alpha lmdb}

/-- Pruning only drops candidates. -/
theorem mem_of_robustPruneLoop {cap : Nat} : ∀ (candidates selected : List ScoredLink)
    {out : List ScoredLink}, robustPruneLoop D alpha lmdb cap candidates selected = .ok out →
      ∀ s ∈ out, s ∈ candidates ∨ s ∈ selected
  | [], selected, out, h, s, hs => by
    cases h
    exact Or.inr hs
  | c :: candidates, selected, out, h, s, hs => by
    rw [robustPruneLoop] at h
    split_ifs at h with hcap
    · cases h
      exact Or.inr hs
    · obtain ⟨b, -, h⟩ := Txn.ok_bind_iff.mp h
      have hrec : s ∈ candidates ∨ s ∈ selected ∨ s = c := by
        cases b with
        | true =>
          rcases mem_of_robustPruneLoop candidates (selected ++ [c]) h s hs with h | h
          · exact Or.inl h
          · rcases List.mem_append.mp h with h | h
            · exact Or.inr (Or.inl h)
            · exact Or.inr (Or.inr (List.mem_singleton.mp h))
        | false =>
          rcases mem_of_robustPruneLoop candidates selected h s hs with h | h
          · exact Or.inl h
          · exact Or.inr (Or.inl h)
      rcases hrec with h | h | rfl
      · exact Or.inl (List.mem_cons_of_mem _ h)
      · exact Or.inr h
      · exact Or.inl List.mem_cons_self

theorem mem_of_robustPrune {candidates out : List ScoredLink} {level : Nat}
    (h : robustPrune D M M0 alpha lmdb candidates level = .ok out) :
    ∀ s ∈ out, s ∈ candidates := by
  intro s hs
  rcases mem_of_robustPruneLoop _ _ h s hs with h | h
  · exact (List.mem_insertionSort _).mp h
  · exact absurd h List.not_mem_nil

/-- The loop stops at the cap. -/
theorem length_robustPruneLoop_le {cap : Nat} : ∀ {candidates selected out : List ScoredLink},
    selected.length ≤ cap → robustPruneLoop D alpha lmdb cap candidates selected = .ok out →
      out.length ≤ cap
  | [], selected, out, hlen, h => by
    cases h
    exact hlen
  | c :: candidates, selected, out, hlen, h => by
    rw [robustPruneLoop] at h
    split_ifs at h with hcap
    · cases h
      exact hlen
    · obtain ⟨b, -, h⟩ := Txn.ok_bind_iff.mp h
      cases b with
      | true =>
        refine length_robustPruneLoop_le ?_ h
        rw [List.length_append, List.length_singleton]
        omega
      | false => exact length_robustPruneLoop_le hlen h

theorem length_robustPrune_le {candidates out : List ScoredLink} {level : Nat}
    (h : robustPrune D M M0 alpha lmdb candidates level = .ok out) :
    out.length ≤ linkCap M M0 level :=
  length_robustPruneLoop_le (Nat.zero_le _) h

end prune

/-! ## The server -/

/-- A request to the map of a layer. The closures of `update_or_insert_with` are those of
`add_link` for the link `q`. -/
inductive Request (M0 : Nat) where
  | get (level : Nat) (item : ItemId)
  | insert (level : Nat) (item : ItemId) (state : NodeState M0)
  | getOrInsert (level : Nat) (item : ItemId) (state : NodeState M0)
  | updateOrInsertWith (level : Nat) (item : ItemId) (q : ScoredLink)
  deriving DecidableEq

namespace Request

variable {M0 : Nat}

/-- The layer a request addresses. -/
def level : Request M0 → Nat
  | get l _ | insert l _ _ | getOrInsert l _ _ | updateOrInsertWith l _ _ => l

/-- The node a request addresses. -/
def item : Request M0 → ItemId
  | get _ x | insert _ x _ | getOrInsert _ x _ | updateOrInsertWith _ x _ => x

end Request

inductive Reply (M0 : Nat) where
  /-- `self.layers.get(level)` is `None`. -/
  | noLayer
  | entry (state : Option (NodeState M0))
  | done
  /-- A closure panicked. -/
  | failed (e : Failure)

section exec

variable (D : Distance) (M : Nat) {M0 : Nat} (alpha : F32) (lmdb : FrozenReader)

/-- The update closure of `add_link` (`hnsw.rs:538-553`). -/
def addLinkUpdate (level : Nat) (q : ScoredLink) (node : NodeState M0) :
    Except Failure (NodeState M0) :=
  if node.links.toList.length < linkCap M M0 level then do
    pure ⟨← node.links.push q⟩
  else
    match robustPrune D M M0 alpha lmdb node.links.toList level with
    | .ok links => do pure ⟨← ArrayVec.fromIter M0 links⟩
    | .error (.err _) => pure node
    | .error (.panic p) => throw (.panic p)

/-- The insert closure of `add_link` (`hnsw.rs:555-557`). -/
def addLinkInsert (q : ScoredLink) : Except Failure (NodeState M0) := do
  pure ⟨← ArrayVec.fromIter M0 [q]⟩

/-- Serve one request. -/
def exec (r : Request M0) (layers : Layers M0) : Reply M0 × Layers M0 :=
  match layers[r.level]? with
  | none => (.noLayer, layers)
  | some map =>
    match r with
    | .get _ x => (.entry map[x]?, layers)
    | .insert level x st => (.done, layers.insert level x st)
    | .getOrInsert level x st =>
      match map[x]? with
      | some _ => (.done, layers)
      | none => (.done, layers.insert level x st)
    | .updateOrInsertWith level x q =>
      match (match map[x]? with
        | some node => addLinkUpdate D M alpha lmdb level q node
        | none => addLinkInsert q) with
      | .ok node => (.done, layers.insert level x node)
      | .error e => (.failed e, layers)

/-- What a request that writes an entry writes there, given what was there before. -/
inductive Writes : Request M0 → Option (NodeState M0) → NodeState M0 → Prop
  | insert (level : Nat) (x : ItemId) (old : Option (NodeState M0)) (st : NodeState M0) :
      Writes (.insert level x st) old st
  | getOrInsert (level : Nat) (x : ItemId) (st : NodeState M0) :
      Writes (.getOrInsert level x st) none st
  | update {level : Nat} (x : ItemId) {q : ScoredLink} {node node' : NodeState M0}
      (h : addLinkUpdate D M alpha lmdb level q node = .ok node') :
      Writes (.updateOrInsertWith level x q) (some node) node'
  | create (level : Nat) (x : ItemId) {q : ScoredLink} {node : NodeState M0}
      (h : addLinkInsert q = .ok node) : Writes (.updateOrInsertWith level x q) none node

variable {D M alpha lmdb}

variable (D M alpha lmdb) in
/-- **What one request can do**: nothing, or write the entry it addresses. -/
theorem exec_cases (r : Request M0) (layers : Layers M0) :
    (exec D M alpha lmdb r layers).2 = layers ∨
      ∃ node, r.level < layers.length ∧
        Writes D M alpha lmdb r (layers.get? r.level r.item) node ∧
        (exec D M alpha lmdb r layers).2 = layers.insert r.level r.item node := by
  unfold exec
  cases hmap : layers[r.level]? with
  | none => exact Or.inl rfl
  | some map =>
    have hlt : r.level < layers.length := (List.getElem?_eq_some_iff.mp hmap).1
    have hget : layers.get? r.level r.item = map[r.item]? := by rw [Layers.get?, hmap]
    rw [hget]
    cases r with
    | get l x => exact Or.inl rfl
    | insert l x st => exact Or.inr ⟨st, hlt, Writes.insert l x _ st, rfl⟩
    | getOrInsert l x st =>
      simp only [Request.item]
      cases hx : map[x]? with
      | some node => exact Or.inl rfl
      | none => exact Or.inr ⟨st, hlt, Writes.getOrInsert l x st, rfl⟩
    | updateOrInsertWith l x q =>
      simp only [Request.item]
      cases hx : map[x]? with
      | some node =>
        simp only
        cases hup : addLinkUpdate D M alpha lmdb l q node with
        | ok node' => exact Or.inr ⟨node', hlt, Writes.update x hup, rfl⟩
        | error e => exact Or.inl rfl
      | none =>
        simp only
        cases hup : (addLinkInsert q : Except Failure (NodeState M0)) with
        | ok node' => exact Or.inr ⟨node', hlt, Writes.create l x hup, rfl⟩
        | error e => exact Or.inl rfl

/-- The layers themselves stay. -/
@[simp] theorem length_exec (r : Request M0) (layers : Layers M0) :
    (exec D M alpha lmdb r layers).2.length = layers.length := by
  rcases exec_cases D M alpha lmdb r layers with
    h | ⟨node, -, -, h⟩ <;> rw [h]
  exact Layers.length_insert _ _ _ _

variable (D M alpha lmdb) in
/-- **What one request does to an entry.** -/
theorem get?_exec (r : Request M0) (layers : Layers M0) (l : Nat) (x : ItemId) :
    (exec D M alpha lmdb r layers).2.get? l x = layers.get? l x ∨
      ∃ node, l = r.level ∧ x = r.item ∧
        Writes D M alpha lmdb r (layers.get? l x) node ∧
        (exec D M alpha lmdb r layers).2.get? l x = some node := by
  rcases exec_cases D M alpha lmdb r layers with
    h | ⟨node, hlt, hw, h⟩
  · exact Or.inl (by rw [h])
  · rw [h, Layers.get?_insert hlt]
    by_cases hlx : l = r.level ∧ x = r.item
    · obtain ⟨rfl, rfl⟩ := hlx
      exact Or.inr ⟨node, rfl, rfl, hw, by rw [if_pos ⟨rfl, rfl⟩]⟩
    · exact Or.inl (by rw [if_neg hlx])

theorem exec_get (level : Nat) (x : ItemId) (layers : Layers M0) :
    exec D M alpha lmdb (.get level x) layers =
      (if level < layers.length then .entry (layers.get? level x) else .noLayer, layers) := by
  unfold exec
  cases hmap : layers[level]? with
  | none =>
    have hlt : ¬ level < layers.length := fun h => by
      rw [List.getElem?_eq_getElem h] at hmap; cases hmap
    simp [Request.level, hlt]
  | some map =>
    have hlt : level < layers.length := (List.getElem?_eq_some_iff.mp hmap).1
    simp [Request.level, hlt, Layers.get?]

end exec

end Hannoy
