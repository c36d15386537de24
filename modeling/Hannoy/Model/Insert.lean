import Hannoy.Library.Beam
import Hannoy.Model.Layers

/-!
# Inserting an item (`hnsw.rs:291-328, 419-597`)

The insert of one item is a client of the layer maps: it reads the database on its own and issues
a request wherever the code calls a map.

* `getNeighbours`, `walkLayer`, `addInLayersBelow`, `addLink` and `insert` follow the functions of
  the same names.
* The heaps of `walk_layer` are those of `Library.Beam`: `candidates` is the queue, `res` the
  result heap, `visited` the set of seen points.
* The loop of `walk_layer` runs on fuel, one unit for each entry point and each stored item, which
  is as often as it can pop a candidate.
-/

namespace Hannoy

open Hannoy.Library Hannoy.Library.Server

/-- A client of the layers. -/
abbrev Client (M0 : Nat) (α : Type) := Prog (Request M0) (Reply M0) Failure α

/-- Points scored for a query; the order of ties is that of `BinaryHeap` and `MinMaxHeap`. -/
abbrev Walk := Beam.State F32 ItemId

namespace HnswBuilder

variable (D : Distance) (M M0 : Nat) (alpha : F32) (lmdb : FrozenReader)

/-- The neighbours the database knows; none when the read fails (`hnsw.rs:435-441`). -/
def storedNeighbours (item : ItemId) (level : Nat) : List ItemId :=
  match lmdb.links item level with
  | .ok links => ascending links
  | .error _ => []

/-- `get_neighbours` (`hnsw.rs:428-456`). -/
def getNeighbours (item : ItemId) (level : Nat) : Client M0 (List ItemId) :=
  let res := storedNeighbours lmdb item level
  .call (.get level item) fun
    | .entry (some node) => .ret (res ++ node.targets)
    -- lazily add this entry so he can get updated later
    | .entry none => .call (.insert level item NodeState.empty) fun _ => .ret res
    | _ => .ret res

/-- What `walk_layer` searches for. -/
def walkParams (ef : Nat) : Beam.Params F32 ItemId := ⟨ef, fun _ => true, F32.flt, F32.maxValue⟩

/-- Register an entry point (`hnsw.rs:474-481`). -/
def walkSeed (query : Item) (ef : Nat) (st : Walk) (ep : ItemId) : Except Failure Walk := do
  let ve ← lmdb.item ep
  pure (st.seed (walkParams ef) ⟨D.distance query ve, ep⟩)

/-- Look at one neighbour (`hnsw.rs:492-514`). -/
def walkPoint (query : Item) (ef : Nat) (fmax : F32) (st : Walk) (point : ItemId) :
    Except Failure Walk :=
  if point ∈ st.seen then .ok st
  else
    match lmdb.item point with
    | .ok item => .ok ((st.see point).accept (walkParams ef) fmax ⟨D.distance query item, point⟩)
    -- it must have been deleted from the index
    | .error (.err (.missingKey _ _ _ _)) => .ok (st.see point)
    | .error e => .error e

/-- The loop of `walk_layer` (`hnsw.rs:483-517`). -/
def walkLoop (query : Item) (level ef : Nat) : Nat → Walk → Client M0 (List ScoredLink)
  | 0, _ => .fail (.panic .outOfFuel)
  | fuel + 1, st =>
    match st.queue with
    | [] => .ret st.res
    | c :: rest =>
      match st.res.getLast? with
      | none => .fail (.panic .emptyHeap)
      | some top =>
        if F32.flt top.dist c.dist then .ret st.res
        else do
          let proximity ← getNeighbours M0 lmdb (OrderDual.ofDual c.id) level
          let st' ← Prog.ofExcept
            (proximity.foldlM (walkPoint D lmdb query ef top.dist) { st with queue := rest })
          walkLoop query level ef fuel st'

/-- `walk_layer` (`hnsw.rs:460-518`); the result heap in ascending order. It is made for `ef`
results, which is no limit here (`HeapFits`). -/
def walkLayer (query : Item) (eps : List ItemId) (level ef : Nat) :
    Client M0 (List ScoredLink) := do
  let st ← Prog.ofExcept (eps.foldlM (walkSeed D lmdb query ef) ⟨[], [], ∅⟩)
  walkLoop D M0 lmdb query level ef (eps.length + lmdb.numItems + 1) st

/-- `add_in_layers_below` (`hnsw.rs:419-424`): the layers in `levels`, up to the first missing
one. -/
def addInLayers (item : ItemId) : List Nat → Client M0 Unit
  | [] => .ret ()
  | level :: levels => .call (.getOrInsert level item NodeState.empty) fun
    | .noLayer => .ret ()
    | _ => addInLayers item levels

def addInLayersBelow (item : ItemId) (level : Nat) : Client M0 Unit :=
  addInLayers M0 item (List.range (level + 1))

/-- `add_link` (`hnsw.rs:523-560`). -/
def addLink (p : ItemId) (q : ScoredLink) (level : Nat) : Client M0 Unit :=
  if p = q.id then .ret ()
  else .call (.updateOrInsertWith level p q) fun
    | .failed e => .fail e
    | _ => .ret ()

/-- Links in both directions between the query and one selected neighbour. -/
def linkBoth (query : ItemId) (level : Nat) (eps : List ItemId) (s : ScoredLink) :
    Client M0 (List ItemId) := do
  addLink M0 query s level
  addLink M0 s.id ⟨s.dist, query⟩ level
  pure (eps ++ [s.id])

/-- One layer of the greedy search of `insert` (`hnsw.rs:303-307`). -/
def greedyLayer (q : Item) (eps : List ItemId) (level : Nat) : Client M0 (List ItemId) := do
  let neighbours ← walkLayer D M0 lmdb q eps level 1
  match neighbours.head? with
  | some closest => pure [closest.id]
  | none => .fail (.panic .noNeighborFound)

/-- One layer of the beam search of `insert` (`hnsw.rs:312-325`). -/
def beamLayer (efConstruction : Nat) (query : ItemId) (q : Item) (top : Nat)
    (eps : List ItemId) (level : Nat) : Client M0 (List ItemId) := do
  let neighbours ← walkLayer D M0 lmdb q eps level efConstruction
  let selected ← Prog.ofExcept (robustPrune D M M0 alpha lmdb neighbours top)
  selected.foldlM (linkBoth M0 query level) []

/-- `insert` (`hnsw.rs:291-328`). -/
def insert (efConstruction maxLevel : Nat) (entryPoints : List ItemId) (query : ItemId)
    (level : Nat) : Client M0 Unit := do
  let q ← Prog.ofExcept (lmdb.item query)
  -- greedy search with ef = 1
  let eps ← ((List.range' (level + 1) (maxLevel - level)).reverse).foldlM
    (greedyLayer D M0 lmdb q) entryPoints
  addInLayersBelow M0 query level
  -- beam search with ef = efConstruction
  let _ ← ((List.range (level + 1)).reverse).foldlM
    (beamLayer D M M0 alpha lmdb efConstruction query q level) eps
  pure ()

end HnswBuilder

end Hannoy
