import Hannoy.Library.Beam
import Hannoy.Model.Writer

/-!
# The reader (`reader.rs`)

A reader searches the graph of a build. `by_vector` and `by_item` take one of two paths: a linear
scan of the candidates (`bruteForceSearch`), or a search of the graph.

* `Visitor.visit` is one beam search on one layer. Its heaps are those of `Library.Beam`: the
  search queue, the result heap `res`, and the set of visited points `path`. It runs on fuel, one
  unit for each entry point and each stored item.
* `hnswSearch` descends through the layers and searches layer 0; `nnsByItem` starts at the item
  itself on layer 0. When they find too little they restart from every item not visited yet:
  `restartLoop`.
* `cancel_fn` is an oracle on the number of calls made so far, which is threaded through.

The memory hints of `prefetch_graph` have no effect on results; they are in `Model.Prefetch`.
-/

namespace Hannoy

open Hannoy.Library

/-- The number of calls made, to the answer. -/
abbrev CancelFn := Nat → Bool

/-- `Searched` (`reader.rs:36-41`): a nearest neighbour search result. -/
structure Searched where
  /-- The nearest neighbours for the performed query. -/
  nns : List (ItemId × F32)
  /-- Whether the search terminated early. -/
  didCancel : Bool
  deriving DecidableEq, Repr

/-- `Completion` (`reader.rs:263-280`). -/
inductive Completion (α : Type) where
  | done (a : α)
  | cancelled (a : α)
  deriving DecidableEq, Repr

namespace Completion

variable {α β : Type}

def intoInner : Completion α → α
  | done a => a
  | cancelled a => a

def map (f : α → β) : Completion α → Completion β
  | done a => done (f a)
  | cancelled a => cancelled (f a)

@[simp] theorem intoInner_map (f : α → β) (c : Completion α) :
    (c.map f).intoInner = f c.intoInner := by cases c <;> rfl

@[simp] theorem intoInner_ite (c : Prop) [Decidable c] (nns : α) :
    ((if c then Completion.cancelled else Completion.done) nns).intoInner = nns := by
  split_ifs <;> rfl

end Completion

def DEFAULT_EF_SEARCH : Nat := 100
def DEFAULT_LINEAR_SCAN_THRESHOLD : Nat := 1000
def DEFAULT_LINEAR_SCAN_THRESHOLD_RATIO : F32 := F32.one

/-- Options used to make a query (`reader.rs:60-67`). Only `ef_search` changes `ef`, and never
below the count. -/
structure QueryBuilder where
  candidates : Option RoaringBitmap
  count : Nat
  ef : Nat
  linearBelow : Nat
  linearBelowRatio : F32
  ef_spec : ef = DEFAULT_EF_SEARCH ∨ count ≤ ef

/-- `Reader::nns` (`reader.rs:611-620`). -/
def nns (count : Nat) : QueryBuilder where
  candidates := none
  count
  ef := DEFAULT_EF_SEARCH
  linearBelow := DEFAULT_LINEAR_SCAN_THRESHOLD
  linearBelowRatio := DEFAULT_LINEAR_SCAN_THRESHOLD_RATIO
  ef_spec := Or.inl rfl

namespace QueryBuilder

variable (opt : QueryBuilder)

/-- `candidates`: specify a subset of candidates to inspect. -/
def withCandidates (candidates : RoaringBitmap) : QueryBuilder :=
  { opt with candidates := some candidates }

/-- `ef_search` (`reader.rs:217-220`). -/
def efSearch (ef : Nat) : QueryBuilder :=
  { opt with ef := max ef opt.count, ef_spec := Or.inr (le_max_right _ _) }

/-- `linear_below` (`reader.rs:234-237`). -/
def withLinearBelow (threshold : Nat) : QueryBuilder := { opt with linearBelow := threshold }

end QueryBuilder

/-- A reader over the hannoy hnsw graph (`reader.rs:373-383`). The database is the one of the read
transaction and is passed along. -/
structure Reader where
  index : UInt16
  entryPoints : List ItemId
  maxLevel : Nat
  dimensions : Nat
  items : RoaringBitmap
  version : Version
  deriving DecidableEq

/-! ## One layer -/

/-- `Visitor` (`reader.rs:282-287`). -/
structure Visitor where
  eps : List ItemId
  level : Nat
  ef : Nat
  candidates : Option RoaringBitmap

/-- What a visit leaves: its result heap in ascending order, the visited points, and the number of
calls of `cancel_fn` so far. -/
structure Visited where
  completion : Completion (List ScoredLink)
  path : RoaringBitmap
  probes : Nat

namespace Visitor

variable (D : Distance) (v : Visitor) (query : Item) (r : Reader) (db : Database)

/-- Whether a point may enter the results. -/
def keep (p : ItemId) : Bool :=
  match v.candidates with
  | none => true
  | some c => p ∈ c

def params : Beam.Params F32 ItemId := ⟨v.ef, v.keep, F32.flt, F32.maxValue⟩

/-- Register an entry point (`reader.rs:315-325`). -/
def visitSeed (st : Beam.State F32 ItemId) (ep : ItemId) :
    Except Failure (Beam.State F32 ItemId) := do
  match ← db.getItem r.index ep with
  | none => throw (.panic .missingItem)
  | some ve => pure (st.seed v.params ⟨D.distance query ve, ep⟩)

/-- Look at one link target (`reader.rs:343-365`). -/
def visitPoint (fmax : F32) (st : Beam.State F32 ItemId) (point : ItemId) :
    Except Failure (Beam.State F32 ItemId) :=
  if point ∈ st.seen then pure st
  else do
    match ← db.getItem r.index point with
    | none => throw (.panic .missingItem)
    | some item => pure ((st.see point).accept v.params fmax ⟨D.distance query item, point⟩)

/-- The loop of `visit` (`reader.rs:329-368`). -/
def visitLoop (cancel : CancelFn) : Nat → Nat → Beam.State F32 ItemId → Except Failure Visited
  | 0, _, _ => throw (.panic .outOfFuel)
  | fuel + 1, probes, st =>
    match st.queue with
    | [] => pure ⟨.done st.res, st.seen, probes⟩
    | c :: rest =>
      if cancel probes then pure ⟨.cancelled st.res, st.seen, probes + 1⟩
      else if F32.flt (st.worst v.params) c.dist then pure ⟨.done st.res, st.seen, probes + 1⟩
      else do
        match ← db.getLinks r.index (OrderDual.ofDual c.id) v.level with
        | none => throw (.panic .linksMustExist)
        | some links =>
          let st' ← (ascending links).foldlM
            (v.visitPoint D query r db (st.worst v.params)) { st with queue := rest }
          visitLoop cancel fuel (probes + 1) st'

/-- The number of rounds a visit can take. -/
def fuel : Nat := v.eps.length + (db.prefixIter (Prefix.item r.index)).length + 1

/-- `visit` (`reader.rs:301-369`). Its heap is made for `ef` results, which is no limit here
(`HeapFits`). -/
def visit (path : RoaringBitmap) (cancel : CancelFn) (probes : Nat) : Except Failure Visited := do
  let st ← v.eps.foldlM (v.visitSeed D query r db) ⟨[], [], path⟩
  v.visitLoop D query r db cancel (v.fuel r db) probes st

end Visitor

namespace Reader

variable (D : Distance) (r : Reader) (db : Database)

/-- `open` (`reader.rs:387-431`). -/
def «open» (index : UInt16) : Except Failure Reader := do
  match ← db.getMetadata index with
  | none => throw (.err (.missingMetadata index))
  | some metadata =>
    let version := match ← db.getVersion index with
      | some version => version
      | none => ⟨0, 0, 0⟩
    if D.name ≠ metadata.distance then
      throw (.err (.unmatchingDistance metadata.distance D.name))
    -- check if we need to rebuild
    if !(db.prefixIter (Prefix.updated index)).isEmpty then throw (.err (.needBuild index))
    pure
      { index
        entryPoints := metadata.entryPoints
        maxLevel := metadata.maxLevel.toNat
        dimensions := metadata.dimensions.toNat
        items := metadata.items
        version }

/-- `item_vector` (`reader.rs:581-587`). -/
def itemVector (item : ItemId) : Except Failure (Option (List F32)) := do
  pure ((← db.getItem r.index item).map (Item.toVector D r.dimensions))

/-- `iter` (`reader.rs:604-606`): the vectors it yields, in order. -/
def iter : Except Failure (List (ItemId × List F32)) := db.itemIter D r.index r.dimensions

variable (opt : QueryBuilder)

/-- `should_linear_scan` (`reader.rs:622-640`). -/
def shouldLinearScan : Bool :=
  if r.items = ∅ then false
  else
    match opt.candidates with
    | none => false
    | some candidates =>
      let candidatesLen := (r.items ∩ candidates).card
      let isBelowThreshold : Bool := candidatesLen < opt.linearBelow
      let isBelowRatio := F32.fle
        (F32.div (F32.ofNat candidatesLen) (F32.ofNat r.items.card)) opt.linearBelowRatio
      isBelowThreshold && isBelowRatio

/-- If we will never find any candidates. -/
def noCandidates : Bool :=
  r.items = ∅ || match opt.candidates with
    | none => false
    | some c => r.items ∩ c = ∅

/-! ## The linear scan -/

/-- Offer a scanned item to a heap of at most `count` items: when the heap is full it takes the
place of the farthest one if it is strictly nearer (`reader.rs:694-704`). -/
def scanPush (count : Nat) (heap : List ScoredLink) (s : ScoredLink) : List ScoredLink :=
  if count ≤ heap.length then
    match heap.getLast? with
    | some peek => if s.dist < peek.dist then replaceMax s heap else heap
    | none => heap
  else push s heap

/-- The loop of `brute_force_search` (`reader.rs:681-705`). -/
def scanLoop (query : Item) (count : Nat) (cancel : CancelFn) :
    Nat → List ItemId → List ScoredLink → Except Failure (Completion (List ScoredLink))
  | _, [], heap => pure (.done heap)
  | probes, id :: ids, heap =>
    if cancel probes then pure (.cancelled heap)
    else do
      match ← r.itemVector D db id with
      | none => scanLoop query count cancel (probes + 1) ids heap
      | some vector =>
        let distance := D.distance (Item.ofVector D vector) query
        scanLoop query count cancel (probes + 1) ids (scanPush count heap ⟨distance, id⟩)

/-- The pairs returned for a result heap. -/
def output (heap : List ScoredLink) : List (ItemId × F32) := heap.map fun s => (s.id, s.dist)

/-- `brute_force_search` (`reader.rs:668-711`). Its heap is made for `count` results, which is no
limit here (`HeapFits`). -/
def bruteForceSearch (query : Item) (candidates : RoaringBitmap) (count : Nat)
    (cancel : CancelFn) : Except Failure (Completion (List (ItemId × F32))) := do
  pure ((← r.scanLoop D db query count cancel 0 (ascending candidates) []).map output)

/-! ## The graph search -/

/-- `closest = neighbours.peek_min().expect(..)` and one step down (`reader.rs:735-741`). -/
def descend (query : Item) : Nat → Visitor → RoaringBitmap → Except Failure Visitor
  | 0, v, _ => pure v
  | n + 1, v, path => do
    let visited ← v.visit D query r db path (fun _ => false) 0
    match visited.completion.intoInner.head? with
    | none => throw (.panic .noNeighborFound)
    | some closest =>
      match v.level with
      | 0 => throw (.panic .levelUnderflow)
      | level + 1 => descend query n { v with eps := [closest.id], level } visited.path

/-- The fallback loop over the items not visited yet (`reader.rs:778-794`, `reader.rs:872-888`):
`width` is the `ef` of the next restart and `limit` the number of results it stops at. A cancelled
restart returns what it found itself. -/
def restartLoop (query : Item) (v : Visitor) (width : Nat → Except Failure Nat) (limit : Nat)
    (cancel : CancelFn) : List ItemId → RoaringBitmap → Nat → List ScoredLink →
      Except Failure (Completion (List ScoredLink))
  | [], _, _, neighbours => pure (.done neighbours)
  | id :: ids, path, probes, neighbours =>
    if id ∈ path then restartLoop query v width limit cancel ids path probes neighbours
    else do
      let ef ← width neighbours.length
      let visited ← { v with eps := [id], ef }.visit D query r db path cancel probes
      match visited.completion with
      | .cancelled found => pure (.cancelled found)
      | .done moreNns =>
        let neighbours := pushAll moreNns neighbours
        if limit ≤ neighbours.length then pure (.done neighbours)
        else restartLoop query v width limit cancel ids visited.path visited.probes neighbours

/-- A visit of layer 0 and, when it finds fewer than `count`, the restarts. -/
def searchLayer0 (query : Item) (v : Visitor) (count : Nat) (width : Nat → Except Failure Nat)
    (limit : Nat) (cancel : CancelFn) : Except Failure (Completion (List (ItemId × F32))) := do
  let visited ← v.visit D query r db ∅ cancel 0
  let found ← match visited.completion with
    | .cancelled found => pure (.cancelled found)
    | .done neighbours =>
      if neighbours.length < count then
        r.restartLoop D db query v width limit cancel
          ((db.prefixIter (Prefix.item r.index)).map fun e => e.1.node.item)
          visited.path visited.probes neighbours
      else pure (.done neighbours)
  pure (found.map fun heap => (output heap).take count)

/-- `visitor.ef = opt.ef.saturating_sub(neighbours.len())` (`reader.rs:785`). -/
def widthByVector (found : Nat) : Except Failure Nat := pure (opt.ef - found)

/-- `visitor.ef = opt.count - neighbours.len()` (`reader.rs:880`). -/
def widthByItem (found : Nat) : Except Failure Nat :=
  if found ≤ opt.count then pure (opt.count - found) else throw (.panic .countUnderflow)

/-- `hnsw_search` (`reader.rs:722-800`). -/
def hnswSearch (query : Item) (cancel : CancelFn) :
    Except Failure (Completion (List (ItemId × F32))) := do
  let v ← r.descend D db query r.maxLevel ⟨r.entryPoints, r.maxLevel, 1, none⟩ ∅
  let v := { v with ef := max opt.ef opt.count, candidates := opt.candidates }
  r.searchLayer0 D db query v opt.count (widthByVector opt) opt.ef cancel

/-- `nns_by_vec` (`reader.rs:642-665`). -/
def nnsByVec (query : Item) (cancel : CancelFn) :
    Except Failure (Completion (List (ItemId × F32))) :=
  if r.noCandidates opt then pure (.done [])
  else
    match opt.candidates.filter fun _ => r.shouldLinearScan opt with
    | some candidates => r.bruteForceSearch D db query candidates opt.count cancel
    | none => r.hnswSearch D db opt query cancel

/-- `nns_by_item` (`reader.rs:809-894`). -/
def nnsByItem (item : ItemId) (cancel : CancelFn) :
    Except Failure (Option (Completion (List (ItemId × F32)))) :=
  if r.noCandidates opt then pure none
  else do
    match ← r.itemVector D db item with
    | none => pure none
    | some vector =>
      let query := Item.ofVector D vector
      match opt.candidates.filter fun _ => r.shouldLinearScan opt with
      | some candidates =>
        pure (some (← r.bruteForceSearch D db query candidates opt.count cancel))
      | none =>
        -- search over all items except `item`
        let candidates := (opt.candidates.getD r.items).erase item
        let v : Visitor := ⟨[item], 0, max opt.ef opt.count, some candidates⟩
        pure (some (← r.searchLayer0 D db query v opt.count (widthByItem opt) opt.count cancel))

/-! ## Queries (`reader.rs:74-188`) -/

/-- The query item of a vector of the right length. -/
def queryItem (vector : List F32) : Except Failure Item :=
  if vector.length ≠ r.dimensions then
    throw (.err (.invalidVecDimension r.dimensions vector.length))
  else pure (Item.ofVector D vector)

def byVector (vector : List F32) : Except Failure Searched := do
  let item ← r.queryItem D vector
  let neighbours ← r.nnsByVec D db opt item fun _ => false
  pure ⟨neighbours.intoInner, false⟩

def byVectorWithCancellation (vector : List F32) (cancel : CancelFn) :
    Except Failure Searched := do
  let item ← r.queryItem D vector
  match ← r.nnsByVec D db opt item cancel with
  | .done done => pure ⟨done, false⟩
  | .cancelled cancelled => pure ⟨cancelled, true⟩

def byItem (item : ItemId) : Except Failure (Option Searched) := do
  match ← r.nnsByItem D db opt item fun _ => false with
  | some (.done items) => pure (some ⟨items, false⟩)
  | some (.cancelled _) => throw (.panic .unreachable)
  | none => pure none

def byItemWithCancellation (item : ItemId) (cancel : CancelFn) :
    Except Failure (Option Searched) := do
  match ← r.nnsByItem D db opt item cancel with
  | some (.done done) => pure (some ⟨done, false⟩)
  | some (.cancelled cancelled) => pure (some ⟨cancelled, true⟩)
  | none => pure none

end Reader

end Hannoy
