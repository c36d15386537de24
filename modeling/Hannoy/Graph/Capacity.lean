import Hannoy.Graph.AddLink
import Hannoy.Graph.Insert
import Hannoy.Graph.Repair
import Hannoy.Model.Writer

/-!
# The room of a link array (`hnsw.rs:32-35, 334-415, 523-560`)

A node keeps its links in an array of `M0` slots, whatever its layer. The functions that fill it
stop at the cap of the layer, `M` above layer 0. With `M` at most `M0` the array holds what the cap
allows; a larger cap lets a full array be pushed to.

* `addLink_overflows_iff`: `add_link` overflows an array exactly if it is full and the cap is not
  reached.
* `fillGaps_ne_overflow`: the repair does not overflow one when the caps fit.
* `never_overflows_iff`: no sequence of such steps overflows exactly if `M` is at most `M0`.
-/

namespace Hannoy.Graph

open Hannoy.Library Hannoy.Library.Server Hannoy.Library.Txn Hannoy.HnswBuilder

variable {D : Distance} {M M0 : Nat} {alpha : F32} {options : BuildOption} {env : Environment}
  {lmdb : FrozenReader}

theorem fromIter_overflows_iff {n : Nat} {α : Type} {l : List α} :
    ArrayVec.fromIter n l = .error (.panic .arrayCapacity) ↔ n < l.length := by
  unfold ArrayVec.fromIter
  split_ifs with h
  · exact iff_of_false (fun heq => by cases heq) (by omega)
  · exact iff_of_true rfl (by omega)

/-- A node made of a list. -/
theorem node_overflows_iff {l : List ScoredLink} :
    (do pure ⟨← ArrayVec.fromIter M0 l⟩ : Except Failure (NodeState M0)) =
      .error (.panic .arrayCapacity) ↔ M0 < l.length := by
  rw [← fromIter_overflows_iff]
  cases ArrayVec.fromIter M0 l with
  | ok v => exact iff_of_false (fun h => by cases h) fun h => by cases h
  | error e => exact ⟨fun h => by cases h; rfl, fun h => by cases h; rfl⟩

/-- With `M` at most `M0` every cap fits the array. -/
theorem linkCap_le (h : M ≤ M0) (level : Nat) : linkCap M M0 level ≤ M0 := by
  unfold linkCap
  split_ifs
  · exact le_rfl
  · exact h

/-- The array is too short for the cap above layer 0 only, when `M` is larger. -/
theorem lt_linkCap_iff {level : Nat} : M0 < linkCap M M0 level ↔ level ≠ 0 ∧ M0 < M := by
  unfold linkCap
  split_ifs with h
  · exact iff_of_false (lt_irrefl M0) fun hne => hne.1 h
  · exact ⟨fun hlt => ⟨h, hlt⟩, fun hlt => hlt.2⟩

/-! ## Pruning -/

theorem okToAdd_ne_panic {dist : F32} {c : ItemId} {p : Panic} : ∀ {selected : List ScoredLink},
    okToAdd D alpha lmdb dist c selected ≠ .error (.panic p)
  | [] => fun h => by cases h
  | i :: selected => by
    rw [okToAdd]
    refine bind_ne_error item_ne_panic fun x _ => bind_ne_error item_ne_panic fun y _ => ?_
    dsimp only
    split_ifs
    · exact fun h => by cases h
    · exact okToAdd_ne_panic

theorem robustPruneLoop_ne_panic {cap : Nat} {p : Panic} :
    ∀ {candidates selected : List ScoredLink},
      robustPruneLoop D alpha lmdb cap candidates selected ≠ .error (.panic p)
  | [], _ => fun h => by cases h
  | c :: candidates, selected => by
    rw [robustPruneLoop]
    split_ifs
    · exact fun h => by cases h
    · refine bind_ne_error okToAdd_ne_panic fun ok _ => ?_
      cases ok with
      | true => exact robustPruneLoop_ne_panic
      | false => exact robustPruneLoop_ne_panic

/-- Every selected candidate takes the place of one that was offered. -/
theorem length_robustPruneLoop_le_add {cap : Nat} :
    ∀ {candidates selected out : List ScoredLink},
      robustPruneLoop D alpha lmdb cap candidates selected = .ok out →
        out.length ≤ selected.length + candidates.length
  | [], _, _, h => by
    cases h
    exact le_rfl
  | c :: candidates, selected, out, h => by
    rw [robustPruneLoop] at h
    split_ifs at h
    · cases h
      exact Nat.le_add_right _ _
    · obtain ⟨ok, -, h⟩ := ok_bind_iff.mp h
      cases ok with
      | true =>
        have hlen := length_robustPruneLoop_le_add h
        rw [List.length_append, List.length_singleton] at hlen
        rw [List.length_cons]
        omega
      | false =>
        have hlen := length_robustPruneLoop_le_add h
        rw [List.length_cons]
        omega

theorem length_robustPrune_le_length {candidates out : List ScoredLink} {level : Nat}
    (h : robustPrune D M M0 alpha lmdb candidates level = .ok out) :
    out.length ≤ candidates.length := by
  have hlen := length_robustPruneLoop_le_add h
  rwa [List.length_nil, Nat.zero_add, List.length_insertionSort] at hlen

/-! ## `add_link` -/

/-- **A link overflows a list** exactly if the array is full and the cap is not reached. -/
theorem addLinkUpdate_overflows_iff {level : Nat} {q : ScoredLink} {node : NodeState M0} :
    addLinkUpdate D M alpha lmdb level q node = .error (.panic .arrayCapacity) ↔
      node.links.toList.length = M0 ∧ M0 < linkCap M M0 level := by
  have hle := node.links.length_le
  unfold addLinkUpdate
  split_ifs with hroom
  · rw [ArrayVec.push, node_overflows_iff, List.length_append, List.length_singleton]
    omega
  · refine iff_of_false ?_ (by omega)
    -- a list that is pruned does not grow
    cases hprune : robustPrune D M M0 alpha lmdb node.links.toList level with
    | ok links =>
      have hlen := length_robustPrune_le_length hprune
      exact fun h => by have := node_overflows_iff.mp h; omega
    | error e =>
      cases e with
      | err e => exact fun h => by cases h
      | panic p => exact absurd hprune robustPruneLoop_ne_panic

theorem addLinkInsert_ne_overflow (hM0 : 1 ≤ M0) {q : ScoredLink} :
    (addLinkInsert q : Except Failure (NodeState M0)) ≠ .error (.panic .arrayCapacity) := by
  rw [addLinkInsert, ne_eq, node_overflows_iff, List.length_singleton]
  omega

variable (D M alpha lmdb) in
/-- **`add_link` overflows** exactly on a full array below the cap of its layer. -/
theorem addLink_overflows_iff (hM0 : 1 ≤ M0) {p : ItemId} {q : ScoredLink} {level : Nat}
    {layers : Layers M0} :
    (addLink M0 p q level).run (exec D M alpha lmdb) layers = .error (.panic .arrayCapacity) ↔
      p ≠ q.id ∧ (layers.linksAt level p).length = M0 ∧ M0 < linkCap M M0 level := by
  by_cases hp : p = q.id
  · rw [addLink, if_pos hp]
    exact iff_of_false (fun h => by cases h) fun h => h.1 hp
  rw [addLink, if_neg hp, Prog.run]
  by_cases hlevel : level < layers.length
  · obtain ⟨entry, hentry, hexec⟩ := exec_update D M alpha lmdb hlevel p q
    have hfull : entry = .error (.panic .arrayCapacity) ↔
        p ≠ q.id ∧ (layers.linksAt level p).length = M0 ∧ M0 < linkCap M M0 level := by
      rcases hentry with ⟨old, hold, rfl⟩ | ⟨hnone, rfl⟩
      · rw [addLinkUpdate_overflows_iff, Layers.linksAt_of_get? hold, and_iff_right hp]
      · rw [Layers.linksAt_of_none hnone]
        refine iff_of_false (addLinkInsert_ne_overflow hM0) fun h => ?_
        have hlen : 0 = M0 := h.2.1
        omega
    rw [← hfull]
    rcases hexec with ⟨node, rfl, hexec⟩ | ⟨e, rfl, hexec⟩
    · rw [hexec]
      exact iff_of_false (fun h => by cases h) fun h => by cases h
    · rw [hexec]
      exact ⟨fun h => by cases h; rfl, fun h => by cases h; rfl⟩
  · have hnone : layers[level]? = none := List.getElem?_eq_none (Nat.le_of_not_lt hlevel)
    have hget := Layers.get?_of_length_le (Nat.le_of_not_lt hlevel) p
    unfold exec
    simp only [Request.level, hnone]
    refine iff_of_false (fun h => by cases h) fun h => ?_
    rw [Layers.linksAt_of_none hget] at h
    have hlen : 0 = M0 := h.2.1
    omega

variable (D M alpha lmdb) in
/-- A link for an array with room below the cap is added. -/
theorem addLink_adds {p : ItemId} {q : ScoredLink} {level : Nat} {layers : Layers M0}
    (hp : p ≠ q.id) (hlevel : level < layers.length)
    (hroom : (layers.linksAt level p).length < M0)
    (hcap : (layers.linksAt level p).length < linkCap M M0 level) :
    ∃ layers', (addLink M0 p q level).run (exec D M alpha lmdb) layers = .ok ((), layers') ∧
      layers'.length = layers.length ∧
      (layers'.linksAt level p).length = (layers.linksAt level p).length + 1 := by
  obtain ⟨entry, hentry, hexec⟩ := exec_update D M alpha lmdb hlevel p q
  have hadds : ∃ node : NodeState M0, entry = .ok node ∧
      node.links.toList.length = (layers.linksAt level p).length + 1 := by
    rcases hentry with ⟨old, hold, rfl⟩ | ⟨hnone, rfl⟩
    · rw [Layers.linksAt_of_get? hold] at hroom hcap ⊢
      have hfits : (old.links.toList ++ [q]).length ≤ M0 := by
        rw [List.length_append, List.length_singleton]
        omega
      refine ⟨⟨⟨old.links.toList ++ [q], hfits⟩⟩, ?_, List.length_append⟩
      rw [addLinkUpdate, if_pos hcap, ArrayVec.push, ArrayVec.fromIter, dif_pos hfits]
      rfl
    · rw [Layers.linksAt_of_none hnone] at hroom ⊢
      have hfits : [q].length ≤ M0 := hroom
      refine ⟨⟨⟨[q], hfits⟩⟩, ?_, rfl⟩
      rw [addLinkInsert, ArrayVec.fromIter, dif_pos hfits]
      rfl
  obtain ⟨node, hok, hlen⟩ := hadds
  rw [addLink, if_neg hp, Prog.run]
  rcases hexec with ⟨node', hok', hexec⟩ | ⟨e, herr, -⟩
  · rw [hok] at hok'
    cases hok'
    refine ⟨layers.insert level p node, by rw [hexec]; rfl, Layers.length_insert _ _ _ _, ?_⟩
    have hget : (layers.insert level p node).get? level p = some node := by
      rw [Layers.get?_insert hlevel, if_pos ⟨rfl, rfl⟩]
    rw [Layers.linksAt_of_get? hget, hlen]
  · rw [hok] at herr
    cases herr

/-! ## The repair -/

theorem patchLinks_ne_overflow (hM : M ≤ M0) {toDelete links : RoaringBitmap} {id : ItemId}
    {level : Nat} {layers : Layers M0} :
    patchLinks D M options lmdb toDelete id level links layers ≠
      .error (.panic .arrayCapacity) := by
  have hcap := linkCap_le hM level
  unfold patchLinks
  dsimp only
  split_ifs with hfits
  · refine bind_ne_error (fun h => ?_) fun v _ h => by cases h
    rw [fromIter_overflows_iff, List.length_append, List.length_map, length_ascending] at h
    omega
  · refine bind_ne_error item_ne_panic fun curr _ => ?_
    refine bind_ne_error (mapM_ne_error fun other => ?_) fun scored _ => ?_
    · exact bind_ne_error item_ne_panic fun it _ h => by cases h
    refine bind_ne_error robustPruneLoop_ne_panic fun pruned hpruned => ?_
    refine bind_ne_error (fun h => ?_) fun v _ h => by cases h
    have hlen := length_robustPrune_le hpruned
    rw [fromIter_overflows_iff] at h
    omega

theorem decodeLinks_ne_overflow {v : Value} : decodeLinks v ≠ .error (.panic .arrayCapacity) := by
  unfold decodeLinks
  split <;> exact fun h => by cases h

theorem patchAll_ne_overflow (hM : M ≤ M0) {toDelete : RoaringBitmap} :
    ∀ {entries : List (Key × Value)} {n : Nat} {layers : Layers M0},
      patchAll D M options env lmdb toDelete n entries layers ≠ .error (.panic .arrayCapacity)
  | [], _, _ => fun h => by cases h
  | (k, v) :: entries, n, layers => by
    unfold patchAll
    split_ifs
    · exact fun h => by cases h
    · exact fun h => by cases h
    · exact bind_ne_error decodeLinks_ne_overflow fun links _ => patchAll_ne_overflow hM
    · exact bind_ne_error decodeLinks_ne_overflow fun links _ =>
        bind_ne_error (patchLinks_ne_overflow hM) fun layers' _ => patchAll_ne_overflow hM

/-- **The repair keeps to the arrays** when the caps fit. -/
theorem fillGaps_ne_overflow (hM : M ≤ M0) {toDelete : RoaringBitmap} {layers : Layers M0} :
    fillGapsFromDeleted D M options env lmdb toDelete layers ≠
      .error (.panic .arrayCapacity) := by
  unfold fillGapsFromDeleted
  split_ifs
  · exact fun h => by cases h
  · exact patchAll_ne_overflow hM

/-! ## Sequences of steps -/

/-- A step of a build that fills link arrays. -/
inductive LinkStep where
  | addLink (p : ItemId) (q : ScoredLink) (level : Nat)
  | fillGapsFromDeleted (toDelete : RoaringBitmap)

variable (D M options env lmdb) in
/-- Take one step. -/
def LinkStep.apply (layers : Layers M0) : LinkStep → Except Failure (Layers M0)
  | .addLink p q level => do
    pure (← runClient D M options lmdb (HnswBuilder.addLink M0 p q level) layers).2
  | .fillGapsFromDeleted toDelete =>
    HnswBuilder.fillGapsFromDeleted D M options env lmdb toDelete layers

variable (D M options env lmdb) in
/-- The steps one after the other, up to the first that fails. -/
def linkSteps (layers : Layers M0) (steps : List LinkStep) : Except Failure (Layers M0) :=
  steps.foldlM (LinkStep.apply D M options env lmdb) layers

theorem linkSteps_concat (layers : Layers M0) (steps : List LinkStep) (step : LinkStep) :
    linkSteps D M options env lmdb layers (steps ++ [step]) = (do
      step.apply D M options env lmdb (← linkSteps D M options env lmdb layers steps)) := by
  simp [linkSteps]

/-- One step keeps to the arrays when the caps fit. -/
theorem apply_ne_overflow (hM0 : 1 ≤ M0) (hM : M ≤ M0) (layers : Layers M0) (step : LinkStep) :
    step.apply D M options env lmdb layers ≠ .error (.panic .arrayCapacity) := by
  cases step with
  | addLink p q level =>
    refine bind_ne_error (fun h => ?_) fun r _ h => by cases h
    have hcap := ((addLink_overflows_iff D M options.alpha lmdb hM0).mp h).2.2
    have hle := linkCap_le hM level
    omega
  | fillGapsFromDeleted toDelete => exact fillGaps_ne_overflow hM

variable (D options env lmdb) in
/-- Links added above layer 0 fill the array. -/
theorem linkSteps_fill (hM : M0 < M) {p : ItemId} {q : ScoredLink} {level : Nat}
    {layers : Layers M0} (hp : p ≠ q.id) (hlevel : level < layers.length) (hl : level ≠ 0)
    (hempty : layers.linksAt level p = []) : ∀ {n : Nat}, n ≤ M0 →
      ∃ layers', linkSteps D M options env lmdb layers
          (List.replicate n (.addLink p q level)) = .ok layers' ∧
        layers'.length = layers.length ∧ (layers'.linksAt level p).length = n
  | 0, _ => ⟨layers, rfl, rfl, by rw [hempty]; rfl⟩
  | n + 1, hn => by
    obtain ⟨mid, hmid, hlen, hlinks⟩ := linkSteps_fill hM hp hlevel hl hempty
      (Nat.le_of_succ_le hn)
    have hcap : M0 < linkCap M M0 level := lt_linkCap_iff.mpr ⟨hl, hM⟩
    obtain ⟨layers', hadd, hlen', hlinks'⟩ := addLink_adds D M options.alpha lmdb hp
      (show level < mid.length by omega) (show (mid.linksAt level p).length < M0 by omega)
      (by omega)
    refine ⟨layers', ?_, hlen'.trans hlen, by omega⟩
    have hstep : LinkStep.apply D M options env lmdb mid (.addLink p q level) = .ok layers' := by
      rw [LinkStep.apply, runClient, hadd]
      rfl
    rw [List.replicate_succ', linkSteps_concat, hmid]
    exact hstep

/-- **A cap above the array overflows it**: one link more than the array holds. -/
theorem linkSteps_overflow (hM0 : 1 ≤ M0) (hM : M0 < M) {p : ItemId} {q : ScoredLink}
    {level : Nat} {layers : Layers M0} (hp : p ≠ q.id) (hlevel : level < layers.length)
    (hl : level ≠ 0) (hempty : layers.linksAt level p = []) :
    linkSteps D M options env lmdb layers (List.replicate (M0 + 1) (.addLink p q level)) =
      .error (.panic .arrayCapacity) := by
  obtain ⟨full, hfull, -, hlinks⟩ := linkSteps_fill D options env lmdb hM hp hlevel hl hempty le_rfl
  have hover := (addLink_overflows_iff D M options.alpha lmdb hM0).mpr
    ⟨hp, hlinks, lt_linkCap_iff.mpr ⟨hl, hM⟩⟩
  have hstep : LinkStep.apply D M options env lmdb full (.addLink p q level) =
      .error (.panic .arrayCapacity) := by
    rw [LinkStep.apply, runClient, hover]
    rfl
  rw [List.replicate_succ', linkSteps_concat, hfull]
  exact hstep

/-- With an array as long as the caps, no sequence of steps overflows one. -/
theorem linkSteps_ne_overflow (hM0 : 1 ≤ M0) (hM : M ≤ M0) (layers : Layers M0)
    (steps : List LinkStep) :
    linkSteps D M options env lmdb layers steps ≠ .error (.panic .arrayCapacity) :=
  foldlM_ne_error (apply_ne_overflow hM0 hM)

/-- **No sequence of steps of a build overflows a link array exactly if `M` is at most `M0`**; then
none does from any layers. -/
theorem never_overflows_iff (hM0 : 1 ≤ M0) :
    ((∀ D options env lmdb n steps,
        linkSteps D M options env lmdb (List.replicate n ∅ : Layers M0) steps ≠
          .error (.panic .arrayCapacity)) ↔ M ≤ M0) ∧
      (M ≤ M0 → ∀ D options env lmdb (layers : Layers M0) steps,
        linkSteps D M options env lmdb layers steps ≠ .error (.panic .arrayCapacity)) := by
  refine ⟨⟨fun h => ?_, fun hM _ _ _ _ _ steps => linkSteps_ne_overflow hM0 hM _ steps⟩,
    fun hM _ _ _ _ layers steps => linkSteps_ne_overflow hM0 hM layers steps⟩
  -- two layers, one link more for item 0 on the upper one than its array holds
  by_contra hM
  refine h manhattan BuildOption.default Environment.oneLevel ⟨∅, 0⟩ 2
    (List.replicate (M0 + 1) (.addLink 0 ⟨F32.one, 1⟩ 1)) ?_
  exact linkSteps_overflow hM0 (Nat.lt_of_not_le hM) (by decide) Nat.one_lt_two Nat.one_ne_zero rfl

theorem never_overflows_two_four :
    (2 ≤ 4 ∧ ∀ D options env lmdb (layers : Layers 4) steps,
      linkSteps D 2 options env lmdb layers steps ≠ .error (.panic .arrayCapacity)) ∧
    ¬ ∀ D options env lmdb n steps,
      linkSteps D 2 options env lmdb (List.replicate n ∅ : Layers 1) steps ≠
        .error (.panic .arrayCapacity) :=
  ⟨⟨by decide, (never_overflows_iff (by decide)).2 (by decide)⟩,
    fun h => absurd ((never_overflows_iff (by decide)).1.mp h) (by decide)⟩

/-- Three equal items, all on layer 1, with two links at most there and one on layer 0. -/
def buildTwoOne : RwTxn Unit := do
  Writer.addItem manhattan ⟨0, 1⟩ 0 [F32.one]
  Writer.addItem manhattan ⟨0, 1⟩ 1 [F32.one]
  Writer.addItem manhattan ⟨0, 1⟩ 2 [F32.one]
  Writer.build manhattan ⟨0, 1⟩ 2 1 (.sequential (fun _ => 1) fun _ => by decide)
    BuildOption.default

/-- The build overflows an array, and two links for one node do. -/
theorem buildTwoOne_overflows :
    (∃ db, buildTwoOne ∅ = .error (.panic .arrayCapacity) db) ∧
      linkSteps manhattan 2 BuildOption.default Environment.oneLevel ⟨∅, 0⟩ ([∅, ∅] : Layers 1)
        [.addLink 0 ⟨F32.one, 1⟩ 1, .addLink 0 ⟨F32.one, 2⟩ 1] =
          .error (.panic .arrayCapacity) := by
  refine ⟨?_, by rfl⟩
  have h : (errorOf (buildTwoOne ∅)).map Prod.fst = some (.panic .arrayCapacity) := by
    decide +kernel
  obtain ⟨⟨e, db⟩, hbuild, rfl⟩ := Option.map_eq_some_iff.mp h
  exact ⟨db, errorOf_eq_some hbuild⟩

end Hannoy.Graph
