import Hannoy.Graph.Build

/-!
# How many links a node has (`hnsw.rs:122-216, 334-415, 523-597`)

The links of a node come from an empty entry, from `add_link`, which appends below the cap of the
layer and prunes at it, and from the repair of a stored node, which joins or prunes. Each keeps to
the cap of the layer it writes, and the repair writes every stored node that survives.

* `Modest`: the requests that keep to the caps; the clients of a build issue no others.
* `Bounded`: no list is longer than the cap of its layer.
* `bounded_buildLayers`: the layers a build writes are bounded.
-/

namespace Hannoy.Graph

open Hannoy.Library Hannoy.Library.Server Hannoy.Library.Txn Hannoy.HnswBuilder

variable {D : Distance} {M M0 : Nat} {alpha : F32} {lmdb : FrozenReader} {options : BuildOption}
  {env : Environment} {toInsert toDelete : RoaringBitmap}

/-! ## Requests -/

/-- An entry is inserted empty, and links are added above layer 0 only when there may be any. -/
def Modest (M M0 : Nat) : Request M0 → Prop
  | .get _ _ => True
  | .insert _ _ st => st = NodeState.empty
  | .getOrInsert _ _ st => st = NodeState.empty
  | .updateOrInsertWith level _ _ => level = 0 ∨ 0 < M

/-- No list is longer than the cap of its layer. -/
def Bounded (M : Nat) (layers : Layers M0) : Prop :=
  ∀ l x node, layers.get? l x = some node → node.links.toList.length ≤ linkCap M M0 l

/-- `add_link` keeps to the cap. -/
theorem length_addLinkUpdate_le {level : Nat} {q : ScoredLink} {node node' : NodeState M0}
    (h : addLinkUpdate D M alpha lmdb level q node = .ok node')
    (hnode : node.links.toList.length ≤ linkCap M M0 level) :
    node'.links.toList.length ≤ linkCap M M0 level := by
  rcases addLinkUpdate_ok h with ⟨hroom, hlinks⟩ | ⟨-, hprune | ⟨-, rfl⟩⟩
  · rw [hlinks, List.length_append, List.length_singleton]
    exact hroom
  · exact length_robustPrune_le hprune
  · exact hnode

/-- **A modest request keeps to the caps.** -/
theorem bounded_exec (r : Request M0) (layers : Layers M0) (hr : Modest M M0 r)
    (h : Bounded M layers) : Bounded M (exec D M alpha lmdb r layers).2 := by
  intro l x node hnode
  rcases get?_exec D M alpha lmdb r layers l x with hsame | ⟨node', rfl, rfl, hw, hnew⟩
  · rw [hsame] at hnode
    exact h l x node hnode
  · suffices hlen : node'.links.toList.length ≤ linkCap M M0 r.level by
      rw [hnew] at hnode
      rwa [← Option.some.inj hnode]
    generalize hold : layers.get? r.level r.item = old at hw
    cases hw with
    | insert =>
      have hempty : node' = NodeState.empty := hr
      rw [hempty]
      exact Nat.zero_le _
    | getOrInsert =>
      have hempty : node' = NodeState.empty := hr
      rw [hempty]
      exact Nat.zero_le _
    | update x hup => exact length_addLinkUpdate_le hup (h _ _ _ hold)
    | create l x hup =>
      have hlen := node'.links.length_le
      rw [addLinkInsert_ok hup] at hlen ⊢
      show 1 ≤ if l = 0 then M0 else M
      have hr : l = 0 ∨ 0 < M := hr
      split_ifs with hl
      · exact hlen
      · exact hr.resolve_left hl

/-! ## What an insert asks for -/

/-- The requests of a walk. -/
def Walks : Request M0 → Prop
  | .get _ _ => True
  | .insert _ _ st => st = NodeState.empty
  | _ => False

theorem Walks.modest : ∀ r : Request M0, Walks r → Modest M M0 r
  | .get _ _, _ => trivial
  | .insert _ _ _, h => h

theorem walks_getNeighbours {item : ItemId} {level : Nat} :
    (getNeighbours M0 lmdb item level).Issues Walks := by
  refine ⟨trivial, fun reply => ?_⟩
  cases reply with
  | entry state =>
    cases state with
    | some node => trivial
    | none => exact ⟨rfl, fun _ => trivial⟩
  | _ => trivial

theorem walks_walkLoop {query : Item} {level ef : Nat} : ∀ (fuel : Nat) (st : Walk),
    (walkLoop D M0 lmdb query level ef fuel st).Issues Walks
  | 0, _ => trivial
  | fuel + 1, st => by
    unfold walkLoop
    cases st.queue with
    | nil => trivial
    | cons c rest =>
      simp only
      cases st.res.getLast? with
      | none => trivial
      | some top =>
        simp only
        split_ifs
        · trivial
        · exact walks_getNeighbours.bind fun _ => (issues_ofExcept _).bind fun st' =>
            walks_walkLoop fuel st'

theorem walks_walkLayer {query : Item} {eps : List ItemId} {level ef : Nat} :
    (walkLayer D M0 lmdb query eps level ef).Issues Walks :=
  (issues_ofExcept _).bind fun st => walks_walkLoop _ st

/-- The requests that enter an item. -/
def Enters (item : ItemId) : Request M0 → Prop
  | .getOrInsert _ x st => x = item ∧ st = NodeState.empty
  | _ => False

theorem Enters.modest {item : ItemId} : ∀ r : Request M0, Enters item r → Modest M M0 r
  | .getOrInsert _ _ _, h => h.2

theorem enters_addInLayers {item : ItemId} : ∀ levels : List Nat,
    (addInLayers M0 item levels).Issues (Enters item)
  | [] => trivial
  | level :: levels => by
    refine ⟨⟨rfl, rfl⟩, fun reply => ?_⟩
    cases reply with
    | noLayer => trivial
    | _ => exact enters_addInLayers levels

theorem modest_addInLayers {item : ItemId} (levels : List Nat) :
    (addInLayers M0 item levels).Issues (Modest M M0) :=
  (enters_addInLayers levels).mono Enters.modest

theorem modest_addLink {p : ItemId} {q : ScoredLink} {level : Nat} (hlevel : level = 0 ∨ 0 < M) :
    (addLink M0 p q level).Issues (Modest M M0) := by
  unfold addLink
  split_ifs
  · trivial
  · refine ⟨hlevel, fun reply => ?_⟩
    cases reply <;> trivial

theorem walks_greedyLayer {q : Item} {eps : List ItemId} {level : Nat} :
    (greedyLayer D M0 lmdb q eps level).Issues Walks := by
  refine walks_walkLayer.bind fun neighbours => ?_
  cases neighbours.head? <;> trivial

/-- A selection is made under the cap of the item's top level. When that is zero nothing is
selected, so nothing is linked at the levels below that have no room either. -/
theorem modest_beamLayer {efConstruction : Nat} {query : ItemId} {q : Item} {top : Nat}
    {eps : List ItemId} {level : Nat} (hlevel : level ≤ top) :
    (beamLayer D M M0 alpha lmdb efConstruction query q top eps level).Issues (Modest M M0) := by
  refine (walks_walkLayer.mono Walks.modest).bind fun neighbours => ?_
  cases hsel : robustPrune D M M0 alpha lmdb neighbours top with
  | error e => trivial
  | ok selected =>
    refine issues_foldlM (fun s hs eps => ?_) _
    have hcap : 0 < linkCap M M0 top :=
      (List.length_pos_of_mem hs).trans_le (length_robustPrune_le hsel)
    have hroom : level = 0 ∨ 0 < M := by
      rw [linkCap] at hcap
      split_ifs at hcap with htop
      · exact Or.inl (by omega)
      · exact Or.inr hcap
    exact (modest_addLink hroom).bind fun _ => (modest_addLink hroom).bind fun _ =>
      (trivial : (Prog.ret _).Issues _)

/-- **The task of an insert** is modest. -/
theorem modest_insertTask {b : HnswBuilder M0} {n : Nat} {item : ItemId} {level : Nat} :
    (insertTask D M options env lmdb b n item level).Issues (Modest M M0) := by
  unfold insertTask
  split_ifs
  · trivial
  · trivial
  · refine (issues_ofExcept _).bind fun q => ?_
    refine (issues_foldlM (fun level _ eps => walks_greedyLayer.mono Walks.modest) _).bind
      fun eps => ?_
    refine (modest_addInLayers _).bind fun _ => ?_
    refine (issues_foldlM (fun l hl eps => modest_beamLayer ?_) _).bind fun _ => trivial
    exact Nat.le_of_lt_succ (List.mem_range.mp (List.mem_reverse.mp hl))

/-! ## The phases of a build -/

theorem bounded_insertGroups {b : HnswBuilder M0} {groups : List (List (ItemId × Nat))}
    {n g : Nat} {layers layers' : Layers M0} (hb : Bounded M layers)
    (h : insertGroups D M options env lmdb b n g groups layers = .ok layers') :
    Bounded M layers' :=
  insertGroups_invariant bounded_exec (fun _ _ _ => modest_insertTask) hb h

theorem bounded_insert {layers : Layers M0} {level : Nat} {id : ItemId} {node : NodeState M0}
    (hb : Bounded M layers) (hnode : node.links.toList.length ≤ linkCap M M0 level) :
    Bounded M (layers.insert level id node) := by
  intro l x node' hget
  by_cases hlt : level < layers.length
  · rw [Layers.get?_insert hlt] at hget
    split_ifs at hget with hlx
    · cases hget
      rw [hlx.1]
      exact hnode
    · exact hb l x node' hget
  · have hsame : layers.insert level id node = layers := by
      rw [Layers.insert, List.modify_eq_self (by omega)]
    rw [hsame] at hget
    exact hb l x node' hget

theorem bounded_patchAll {entries : List (Key × Value)} {n : Nat} {layers layers' : Layers M0}
    (hb : Bounded M layers)
    (h : patchAll D M options env lmdb toDelete n entries layers = .ok layers') :
    Bounded M layers' := by
  refine patchAll_invariant (fun hb hpatch => ?_) hb h
  obtain ⟨node, rfl, hrep⟩ := patchLinks_repaired hpatch
  exact bounded_insert hb hrep.length_le

theorem bounded_replicate (n : Nat) : Bounded M (List.replicate n ∅ : Layers M0) := by
  intro l x node hget
  rw [← List.nil_append (List.replicate n ∅), get?_append_replicate] at hget
  cases hget

/-- **The layers a build writes are bounded.** -/
theorem bounded_buildLayers {b b' : HnswBuilder M0} (hempty : b.layers = [])
    (h : buildLayers D M options env lmdb b toInsert toDelete = .ok b') :
    Bounded M b'.layers := by
  obtain ⟨levels, b₁, layers, hprep, hins, hfill, -, -⟩ := buildLayers_ok h
  obtain ⟨newEps, -, rfl, hraise⟩ := prepare_ok hprep
  obtain ⟨-, -, hrun⟩ := raise_ok hraise
  have hstart : Bounded M (b.layers ++ List.replicate (b₁.maxLevel + 1) ∅) := by
    rw [hempty]
    exact bounded_replicate _
  have hb₁ : Bounded M b₁.layers := Prog.run_invariant bounded_exec
    (issues_foldlM (fun p _ _ => modest_addInLayers _) _) hrun hstart
  have hins := bounded_insertGroups hb₁ hins
  refine bounded_patchAll (fun l x node hget => ?_) (fillGaps_ok hfill)
  rw [get?_resizeLayers] at hget
  exact hins l x node hget

end Hannoy.Graph
