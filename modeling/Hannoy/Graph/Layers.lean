import Hannoy.Model.Hnsw

/-!
# What the clients of the layers agree on

While a level group is inserted, a node is *present* at a layer when it is stored and has an entry
there, in memory or in the database. The inserts keep three facts about the layers (`LayersOk`):
entries belong to stored items, links point to present nodes and never to their own node, and a
node present at a layer is present at every layer below.

Results:
* `protocol`: the requests that keep these facts, in any order and from any number of clients. No
  request takes presence away.
* `mem_targets_update`: `add_link` adds its link and drops others.
-/

namespace Hannoy.Graph

open Hannoy.Library Hannoy.Library.Server

/-! ## The snapshot -/

section snapshot

variable (lmdb : FrozenReader)

/-- The links stored for a node at a layer. -/
def disk (l : Nat) (x : ItemId) : Option RoaringBitmap :=
  lmdb.db.links? lmdb.index x l.toUInt8

/-- The item is stored. -/
def Live (x : ItemId) : Prop := (lmdb.db.item? lmdb.index x).isSome

/-- The links stored before the build lead to nodes with links at the same layer, and a node has
links at every layer below one it has links at. -/
structure DiskOk : Prop where
  closed : ∀ {l x s y}, disk lmdb l x = some s → y ∈ s → ∃ s', disk lmdb l y = some s'
  down : ∀ {l k x s}, l < 256 → disk lmdb l x = some s → k ≤ l → ∃ s', disk lmdb k x = some s'

variable {lmdb}

theorem item_ok_iff {x : ItemId} {it : Item} :
    lmdb.item x = .ok it ↔ lmdb.db.item? lmdb.index x = some it := by
  unfold FrozenReader.item Database.getNode Database.item?
  cases lmdb.db[Key.item lmdb.index x]? with
  | none => simp [bind, Except.bind, throw, throwThe, MonadExceptOf.throw]
  | some v =>
    cases v with
    | node n => cases n <;> simp [bind, Except.bind, pure, Except.pure, throw, throwThe,
        MonadExceptOf.throw]
    | _ => simp [bind, Except.bind]

theorem links_ok_iff {x : ItemId} {l : Nat} {s : RoaringBitmap} :
    lmdb.links x l = .ok s ↔ disk lmdb l x = some s := by
  unfold FrozenReader.links Database.getNode disk Database.links?
  cases lmdb.db[Key.links lmdb.index x l.toUInt8]? with
  | none => simp [bind, Except.bind, throw, throwThe, MonadExceptOf.throw]
  | some v =>
    cases v with
    | node n => cases n <;> simp [bind, Except.bind, pure, Except.pure, throw, throwThe,
        MonadExceptOf.throw]
    | _ => simp [bind, Except.bind]

theorem live_of_item {x : ItemId} {it : Item} (h : lmdb.item x = .ok it) : Live lmdb x := by
  rw [Live, item_ok_iff.mp h]
  rfl

end snapshot

/-! ## Presence -/

section presence

variable {M0 : Nat} (lmdb : FrozenReader)

/-- The node has an entry at the layer, in memory. -/
def InMemory (layers : Layers M0) (l : Nat) (x : ItemId) : Prop :=
  ∃ st, layers.get? l x = some st

/-- The node is stored and has an entry at the layer, in memory or in the database. -/
def Present (layers : Layers M0) (l : Nat) (x : ItemId) : Prop :=
  Live lmdb x ∧ (InMemory layers l x ∨ ∃ s, disk lmdb l x = some s)

/-- Entries belong to stored items and link to present nodes, and presence goes down. -/
structure Linked (layers : Layers M0) : Prop where
  length_le : layers.length ≤ 256
  live : ∀ {l x st}, layers.get? l x = some st → Live lmdb x
  target : ∀ {l x st y}, layers.get? l x = some st → y ∈ st.targets → Present lmdb layers l y
  down : ∀ {l k x}, l < 256 → Present lmdb layers l x → k ≤ l → Present lmdb layers k x

/-- No entry links to its own node. -/
def Irreflexive (layers : Layers M0) : Prop :=
  ∀ {l x st}, layers.get? l x = some st → x ∉ st.targets

/-- What the inserts keep. -/
structure LayersOk (layers : Layers M0) : Prop extends Linked lmdb layers where
  irrefl : Irreflexive layers

/-- Entries are added and never removed. -/
def Grows (layers layers' : Layers M0) : Prop :=
  layers'.length = layers.length ∧ ∀ l x, InMemory layers l x → InMemory layers' l x

/-- The requests an insert may issue in a state. -/
def Allowed (r : Request M0) (layers : Layers M0) : Prop :=
  match r with
  | .get _ _ => True
  | .insert l x st => Present lmdb layers l x ∧ st = NodeState.empty
  | .getOrInsert l x st => Live lmdb x ∧ (∀ k < l, Present lmdb layers k x) ∧ st = NodeState.empty
  | .updateOrInsertWith l p q => Present lmdb layers l p ∧ Present lmdb layers l q.id ∧ q.id ≠ p

variable {lmdb}

theorem Grows.present {layers layers' : Layers M0} (h : Grows layers layers') {l : Nat}
    {x : ItemId} (hx : Present lmdb layers l x) : Present lmdb layers' l x :=
  ⟨hx.1, hx.2.imp (h.2 l x) id⟩

theorem inMemory_insert {layers : Layers M0} {l : Nat} (hl : l < layers.length) (x : ItemId)
    (st : NodeState M0) {k : Nat} {y : ItemId} :
    InMemory (layers.insert l x st) k y ↔ (k = l ∧ y = x) ∨ InMemory layers k y := by
  unfold InMemory
  rw [Layers.get?_insert hl]
  by_cases h : k = l ∧ y = x <;> simp [h]

theorem grows_insert {layers : Layers M0} {l : Nat} (hl : l < layers.length) (x : ItemId)
    (st : NodeState M0) : Grows layers (layers.insert l x st) :=
  ⟨Layers.length_insert _ _ _ _, fun _ _ h => (inMemory_insert hl x st).mpr (Or.inr h)⟩

end presence

/-! ## `add_link` -/

section addLink

variable {D : Distance} {M M0 : Nat} {alpha : F32} {lmdb : FrozenReader}

/-- **What the update of `add_link` leaves**: the link is appended where there is room; otherwise
the links that are there are pruned, or kept when a read fails. -/
theorem addLinkUpdate_ok {level : Nat} {q : ScoredLink} {node node' : NodeState M0}
    (h : addLinkUpdate D M alpha lmdb level q node = .ok node') :
    (node.links.toList.length < linkCap M M0 level ∧
        node'.links.toList = node.links.toList ++ [q]) ∨
      (linkCap M M0 level ≤ node.links.toList.length ∧
        (robustPrune D M M0 alpha lmdb node.links.toList level = .ok node'.links.toList ∨
          ((∃ e, robustPrune D M M0 alpha lmdb node.links.toList level = .error (.err e)) ∧
            node' = node))) := by
  unfold addLinkUpdate at h
  split_ifs at h with hroom
  · obtain ⟨links, hpush, h⟩ := Txn.ok_bind_iff.mp h
    cases h
    exact Or.inl ⟨hroom, ArrayVec.push_ok hpush⟩
  · refine Or.inr ⟨Nat.le_of_not_lt hroom, ?_⟩
    cases hprune : robustPrune D M M0 alpha lmdb node.links.toList level with
    | ok links =>
      rw [hprune] at h
      obtain ⟨v, hv, h⟩ := Txn.ok_bind_iff.mp h
      cases h
      rw [ArrayVec.fromIter_ok hv]
      exact Or.inl rfl
    | error e =>
      rw [hprune] at h
      cases e with
      | err e => cases h; exact Or.inr ⟨⟨e, rfl⟩, rfl⟩
      | panic p => cases h

theorem addLinkInsert_ok {q : ScoredLink} {node : NodeState M0}
    (h : addLinkInsert q = .ok node) : node.links.toList = [q] := by
  obtain ⟨v, hv, h⟩ := Txn.ok_bind_iff.mp h
  cases h
  exact ArrayVec.fromIter_ok hv

/-- **`add_link` adds its link and drops others.** -/
theorem mem_targets_update {level : Nat} {q : ScoredLink} {node node' : NodeState M0}
    (h : addLinkUpdate D M alpha lmdb level q node = .ok node') {y : ItemId}
    (hy : y ∈ node'.targets) : y ∈ node.targets ∨ y = q.id := by
  rcases addLinkUpdate_ok h with ⟨-, hlinks⟩ | ⟨-, hprune | ⟨-, rfl⟩⟩
  · rw [NodeState.targets, hlinks, List.map_append, List.mem_append] at hy
    exact hy.imp id List.mem_singleton.mp
  · left
    obtain ⟨s, hs, rfl⟩ := List.mem_map.mp hy
    exact List.mem_map_of_mem (mem_of_robustPrune hprune s hs)
  · exact Or.inl hy

theorem mem_targets_create {q : ScoredLink} {node : NodeState M0}
    (h : addLinkInsert q = .ok node) {y : ItemId} (hy : y ∈ node.targets) : y = q.id := by
  rw [NodeState.targets, addLinkInsert_ok h] at hy
  exact List.mem_singleton.mp hy

end addLink

/-! ## The protocol -/

section protocol

variable {D : Distance} {M M0 : Nat} {alpha : F32} {lmdb : FrozenReader}

/-- Writing one entry. -/
theorem linked_insert {layers : Layers M0} (hok : Linked lmdb layers) {l : Nat} {x : ItemId}
    (hlt : l < layers.length) {node : NodeState M0} (hlive : Live lmdb x)
    (hbelow : ∀ k < l, Present lmdb layers k x)
    (htarget : ∀ y ∈ node.targets, Present lmdb layers l y) :
    Linked lmdb (layers.insert l x node) := by
  have hgrow := grows_insert hlt x node
  refine ⟨?_, ?_, ?_, ?_⟩
  · rw [Layers.length_insert]
    exact hok.length_le
  · intro k y st hy
    rw [Layers.get?_insert hlt] at hy
    split_ifs at hy with hkl
    · rw [hkl.2]
      exact hlive
    · exact hok.live hy
  · intro k y st z hy hz
    rw [Layers.get?_insert hlt] at hy
    split_ifs at hy with hkl
    · cases hy
      obtain ⟨rfl, rfl⟩ := hkl
      exact hgrow.present (htarget z hz)
    · exact hgrow.present (hok.target hy hz)
  · intro k j y hk hy hj
    by_cases hold : Present lmdb layers k y
    · exact hgrow.present (hok.down hk hold hj)
    · -- only the entry just written can be newly present
      have hnew : k = l ∧ y = x := by
        rcases hy.2 with hm | hd
        · rcases (inMemory_insert hlt x node).mp hm with h | hm
          · exact h
          · exact absurd ⟨hy.1, Or.inl hm⟩ hold
        · exact absurd ⟨hy.1, Or.inr hd⟩ hold
      obtain ⟨rfl, rfl⟩ := hnew
      rcases Nat.eq_or_lt_of_le hj with rfl | hj
      · exact hy
      · exact hgrow.present (hbelow j hj)

theorem irreflexive_insert {layers : Layers M0} (h : Irreflexive layers) {l : Nat} {x : ItemId}
    (hlt : l < layers.length) {node : NodeState M0} (hx : x ∉ node.targets) :
    Irreflexive (layers.insert l x node) := by
  intro k y st hy
  rw [Layers.get?_insert hlt] at hy
  split_ifs at hy with hkl
  · cases hy
    rw [hkl.2]
    exact hx
  · exact h hy

/-- What an allowed request writes links to present nodes only, and never to its own node. -/
theorem target_of_writes {r : Request M0} {layers : Layers M0} {node : NodeState M0}
    (hok : LayersOk lmdb layers) (hl : r.level < 256) (hr : Allowed lmdb r layers)
    (hw : Writes D M alpha lmdb r (layers.get? r.level r.item) node) :
    Live lmdb r.item ∧ (∀ k < r.level, Present lmdb layers k r.item) ∧
      (∀ y ∈ node.targets, Present lmdb layers r.level y) ∧ r.item ∉ node.targets := by
  generalize hold : layers.get? r.level r.item = old at hw
  cases hw with
  | insert l x old st =>
    obtain ⟨hp, rfl⟩ := hr
    exact ⟨hp.1, fun k hk => hok.down hl hp (Nat.le_of_lt hk),
      fun y hy => absurd hy List.not_mem_nil, List.not_mem_nil⟩
  | getOrInsert l x st =>
    obtain ⟨hlive, hbelow, rfl⟩ := hr
    exact ⟨hlive, hbelow, fun y hy => absurd hy List.not_mem_nil, List.not_mem_nil⟩
  | update x hup =>
    rename_i l q node
    obtain ⟨hp, hq, hne⟩ := hr
    refine ⟨hp.1, fun k hk => hok.down hl hp (Nat.le_of_lt hk), fun y hy => ?_, fun hx => ?_⟩
    · rcases mem_targets_update hup hy with h | rfl
      · exact hok.target hold h
      · exact hq
    · rcases mem_targets_update hup hx with h | h
      · exact hok.irrefl hold h
      · exact hne h.symm
  | create l x hup =>
    rename_i q
    obtain ⟨hp, hq, hne⟩ := hr
    refine ⟨hp.1, fun k hk => hok.down hl hp (Nat.le_of_lt hk), fun y hy => ?_, fun hx => ?_⟩
    · obtain rfl := mem_targets_create hup hy
      exact hq
    · exact hne (mem_targets_create hup hx).symm

variable (D M alpha) in
/-- Allowed requests keep the layers well formed. -/
theorem layersOk_exec {r : Request M0} {layers : Layers M0} (hok : LayersOk lmdb layers)
    (hr : Allowed lmdb r layers) :
    LayersOk lmdb (exec D M alpha lmdb r layers).2 ∧
      Grows layers (exec D M alpha lmdb r layers).2 := by
  rcases exec_cases D M alpha lmdb r layers with
    h | ⟨node, hlt, hw, h⟩
  · rw [h]
    exact ⟨hok, rfl, fun _ _ hx => hx⟩
  · rw [h]
    obtain ⟨hlive, hbelow, htarget, hself⟩ :=
      target_of_writes hok (hlt.trans_le hok.length_le) hr hw
    exact ⟨⟨linked_insert hok.toLinked hlt hlive hbelow htarget,
      irreflexive_insert hok.irrefl hlt hself⟩, grows_insert hlt r.item node⟩

variable (D M M0 alpha lmdb)

/-- **The protocol of the inserts.** -/
def protocol : Protocol (exec D M alpha lmdb : Request M0 → Layers M0 → Reply M0 × Layers M0) where
  inv := LayersOk lmdb
  rely := Grows
  guar := Allowed lmdb
  refl _ := ⟨rfl, fun _ _ h => h⟩
  trans h h' := ⟨h'.1.trans h.1, fun l x hx => h'.2 l x (h.2 l x hx)⟩
  preserve hinv hr := layersOk_exec D M alpha hinv hr

end protocol

end Hannoy.Graph
