import Hannoy.Graph.Patch
import Hannoy.Library.Disjoint

/-!
# The repair in parallel (`hnsw.rs:334-415`)

`fill_gaps_from_deleted` repairs the stored nodes in parallel. The task of a node gets the links of
the node from the map of its layer, and inserts the repaired ones there; the tasks of other nodes
may be served in between. A task addresses the entry of its node only, so the order does not matter.
Which error is returned does depend on it, when several nodes cannot be repaired.

* `patchTask`: the task of a stored node, as a client of the layers.
* `FillGapsInParallel`: what may be returned.
* `cells_exec`: the entries of the layers are the cells of the server.
* `fillGaps_in_parallel`: the layers that may be returned are those of `fillGapsFromDeleted`, which
  repairs the nodes one after the other, and an error may be returned when it fails.
-/

namespace Hannoy.Graph

open Hannoy.Library Hannoy.Library.Server Hannoy.HnswBuilder

/-! ## Tasks -/

section tasks

variable (D : Distance) (M : Nat) {M0 : Nat} (options : BuildOption) (env : Environment)
  (lmdb : FrozenReader) (toDelete : RoaringBitmap)

/-- The repaired entry of a node that was linked to `newLinks` in this build. -/
def patchedNode (id : ItemId) (level : Nat) (links : RoaringBitmap) (newLinks : List ScoredLink) :
    Except Failure (NodeState M0) := do
  let bitmap := mergedLinks lmdb toDelete links level
  if bitmap.card + newLinks.length ≤ linkCap M M0 level then
    let entries :=
      (ascending bitmap).map (fun other => (⟨F32.zero, other⟩ : ScoredLink)) ++ newLinks
    pure ⟨← ArrayVec.fromIter M0 entries⟩
  else
    let curr ← lmdb.item id
    let scored ← (ascending bitmap).mapM fun other => do
      pure (⟨D.distance curr (← lmdb.item other), other⟩ : ScoredLink)
    let pruned ← robustPrune D M M0 options.alpha lmdb (newLinks ++ scored) level
    pure ⟨← ArrayVec.fromIter M0 pruned⟩

/-- The requests of a task. -/
def patchNode (id : ItemId) (level : Nat) (links : RoaringBitmap) : Client M0 Unit :=
  .call (.get level id) fun
    | .entry state =>
      Prog.ofExcept (patchedNode D M options lmdb toDelete id level links
        (match state with
          | some node => node.links.toList
          | none => [])) >>= fun node => .call (.insert level id node) fun _ => .ret ()
    -- `self.layers[lvl]` is there: the layers were resized
    | _ => .fail (.panic .unreachable)

/-- The repair of the `k`-th stored node. -/
def patchEntry (k : Nat) (e : Key × Value) : Client M0 Unit :=
  if env.fault (.patch k) then .fail (.err .heed)
  else Prog.ofExcept (decodeLinks e.2) >>= fun links =>
    if e.1.node.item ∈ toDelete then .ret ()
    else patchNode D M options lmdb toDelete e.1.node.item e.1.node.layer.toNat links

/-- The task of the `k`-th stored node, when it is the `n`-th to be started. -/
def patchTask (n k : Nat) (e : Key × Value) : Client M0 Unit :=
  if options.cancelled n .patch then .fail (.err .buildCancelled)
  else patchEntry D M options env lmdb toDelete k e

/-- The tasks, with the numbers that `cancel_index` gives them. -/
def patchTasks (numbers : List Nat) : List (Client M0 Unit) :=
  numbers.zipWith (fun n p => patchTask D M options env lmdb toDelete n p.2 p.1)
    lmdb.linksEntries.zipIdx

/-- What `fill_gaps_from_deleted` may return. The tasks are started in any order. -/
inductive FillGapsInParallel (layers : Layers M0) : Except Failure (Layers M0) → Prop
  | iterLinks (h : env.fault .iterLinks = true) :
      FillGapsInParallel layers (.error (.err .heed))
  | tasks {numbers : List Nat} {out : Except Failure (Layers M0)}
      (h : env.fault .iterLinks = false)
      (hn : numbers.Perm (List.range lmdb.linksEntries.length))
      (hout : TryForEach (exec D M options.alpha lmdb)
        (patchTasks D M options env lmdb toDelete numbers) (resizeLayers lmdb.linksEntries layers)
        out) : FillGapsInParallel layers out

end tasks

variable {D : Distance} {M M0 : Nat} {options : BuildOption} {env : Environment}
  {lmdb : FrozenReader} {toDelete : RoaringBitmap} {alpha : F32}

/-! ## Cells -/

/-- The entry a request addresses. -/
def cellOf (r : Request M0) : Nat × ItemId := (r.level, r.item)

/-- The entry of a node, when its layer is there. -/
def lookAt (layers : Layers M0) (c : Nat × ItemId) : Option (Option (NodeState M0)) :=
  layers[c.1]?.map fun map => map[c.2]?

theorem lookAt_insert_of_ne {layers : Layers M0} {l : Nat} {x : ItemId} {st : NodeState M0}
    {c : Nat × ItemId} (hc : c ≠ (l, x)) : lookAt (layers.insert l x st) c = lookAt layers c := by
  obtain ⟨k, y⟩ := c
  unfold lookAt Layers.insert
  rw [List.getElem?_modify]
  by_cases hk : k = l
  · subst hk
    have hy : y ≠ x := fun h => hc (by rw [h])
    cases layers[k]? with
    | none => simp
    | some map => simp [Std.ExtTreeMap.getElem?_insert, hy.symm]
  · have hk' : ¬ l = k := fun h => hk h.symm
    cases layers[k]? with
    | none => simp
    | some map => simp [hk']

theorem layers_ext {layers layers' : Layers M0}
    (h : ∀ c, lookAt layers c = lookAt layers' c) : layers = layers' := by
  refine List.ext_getElem? fun l => ?_
  have hl : ∀ x, (layers[l]?.map fun map => map[x]?) = layers'[l]?.map fun map => map[x]? :=
    fun x => h (l, x)
  cases hmap : layers[l]? with
  | none =>
    have := hl 0
    rw [hmap] at this
    cases hmap' : layers'[l]? with
    | none => rfl
    | some map' =>
      rw [hmap'] at this
      cases this
  | some map =>
    rw [hmap] at hl
    cases hmap' : layers'[l]? with
    | none =>
      have := hl 0
      rw [hmap'] at this
      cases this
    | some map' =>
      rw [hmap'] at hl
      rw [Std.ExtTreeMap.ext_getElem? fun x => Option.some.inj (hl x)]

theorem lookAt_insert_self {layers : Layers M0} {l : Nat} (hl : l < layers.length) (x : ItemId)
    (st : NodeState M0) : lookAt (layers.insert l x st) (l, x) = some (some st) := by
  simp [lookAt, Layers.insert, List.getElem?_eq_getElem hl]

/-- What a request to an entry does, when its layer is there. -/
def served (D : Distance) (M : Nat) (alpha : F32) (lmdb : FrozenReader) :
    Request M0 → Option (NodeState M0) → Reply M0 × Option (NodeState M0)
  | .get _ _, entry => (.entry entry, none)
  | .insert _ _ st, _ => (.done, some st)
  | .getOrInsert _ _ st, entry =>
    match entry with
    | some _ => (.done, none)
    | none => (.done, some st)
  | .updateOrInsertWith level _ q, entry =>
    match (match entry with
      | some node => addLinkUpdate D M alpha lmdb level q node
      | none => addLinkInsert q) with
    | .ok node => (.done, some node)
    | .error e => (.failed e, none)

theorem exec_eq (r : Request M0) (layers : Layers M0) : exec D M alpha lmdb r layers =
    match lookAt layers (cellOf r) with
    | none => (.noLayer, layers)
    | some entry => ((served D M alpha lmdb r entry).1,
        match (served D M alpha lmdb r entry).2 with
        | some st => layers.insert r.level r.item st
        | none => layers) := by
  unfold exec lookAt cellOf
  cases hmap : layers[r.level]? with
  | none => rfl
  | some map =>
    cases r with
    | get l x => rfl
    | insert l x st => rfl
    | getOrInsert l x st =>
      simp only [Request.item, Option.map_some, served]
      cases map[x]? <;> rfl
    | updateOrInsertWith l x q =>
      simp only [Request.item, Option.map_some, served]
      cases map[x]? with
      | none =>
        simp only
        cases (addLinkInsert q : Except Failure (NodeState M0)) <;> rfl
      | some node =>
        simp only
        cases addLinkUpdate D M alpha lmdb l q node <;> rfl

variable (D M alpha lmdb) in
/-- **The entries of the layers are the cells of the server.** -/
theorem cells_exec :
    Cells (exec D M alpha lmdb : Request M0 → Layers M0 → Reply M0 × Layers M0) cellOf lookAt where
  ext := layers_ext
  elsewhere r layers c hc := by
    rcases exec_cases D M alpha lmdb r layers with h | ⟨node, -, -, h⟩
    · rw [h]
    · rw [h]
      exact lookAt_insert_of_ne hc
  reply r layers layers' h := by
    rw [exec_eq, exec_eq, h]
    cases lookAt layers' (cellOf r) <;> rfl
  write r layers layers' h := by
    have hlt : ∀ {layers : Layers M0} {entry}, lookAt layers (cellOf r) = some entry →
        r.level < layers.length := fun h => by
      obtain ⟨map, hmap, -⟩ := Option.map_eq_some_iff.mp h
      exact (List.getElem?_eq_some_iff.mp hmap).1
    rw [exec_eq, exec_eq, h]
    cases h' : lookAt layers' (cellOf r) with
    | none => exact h
    | some entry =>
      simp only
      cases (served D M alpha lmdb r entry).2 with
      | none => exact h
      | some st =>
        exact (lookAt_insert_self (hlt (h.trans h')) _ _).trans
          (lookAt_insert_self (hlt h') _ _).symm

/-! ## Tasks keep to their entry -/

theorem patchTask_within (n k : Nat) (e : Key × Value) :
    (patchTask D M options env lmdb toDelete n k e : Client M0 Unit).Within cellOf
      (e.1.node.layer.toNat, e.1.node.item) := by
  unfold patchTask patchEntry
  split_ifs
  · exact .fail _
  · exact .fail _
  · exact (Prog.Within.ofExcept _).bind fun links => .ret ()
  · refine (Prog.Within.ofExcept _).bind fun links => .call rfl fun reply => ?_
    cases reply with
    | entry state => exact (Prog.Within.ofExcept _).bind fun node => .call rfl fun _ => .ret ()
    | _ => exact .fail _

theorem tasks_within : ∀ (numbers : List Nat) (entries : List (Key × Value)) (k : Nat),
    numbers.length = entries.length →
      List.Forall₂ (fun c (p : Client M0 Unit) => p.Within cellOf c)
        (entries.map fun e => (e.1.node.layer.toNat, e.1.node.item))
        (numbers.zipWith (fun n p => patchTask D M options env lmdb toDelete n p.2 p.1)
          (entries.zipIdx k))
  | [], [], _, _ => .nil
  | n :: numbers, e :: entries, k, h =>
    .cons (patchTask_within n k e) (tasks_within numbers entries (k + 1) (Nat.succ_inj.mp h))

/-- The stored nodes are distinct. -/
theorem nodup_linksEntries (lmdb : FrozenReader) :
    (lmdb.linksEntries.map fun e => (e.1.node.layer.toNat, e.1.node.item)).Nodup := by
  refine List.pairwise_map.mpr ((Database.pairwise_prefixIter (Prefix.links lmdb.index)).imp_of_mem
    fun {e e'} he he' hlt heq => ?_)
  obtain ⟨-, hi, hm⟩ := Database.mem_prefixIter.mp he
  obtain ⟨-, hi', hm'⟩ := Database.mem_prefixIter.mp he'
  obtain ⟨hlayer, hitem⟩ := Prod.mk.inj heq
  refine hlt.ne ?_
  obtain ⟨⟨i, ⟨mode, item, layer⟩⟩, v⟩ := e
  obtain ⟨⟨i', ⟨mode', item', layer'⟩⟩, v'⟩ := e'
  have hmode := (hm _ rfl).trans (hm' _ rfl).symm
  simp only at hi hi' hmode hlayer hitem ⊢
  rw [hi, hi', hmode, hitem, UInt8.toNat_inj.mp hlayer]

/-! ## One after the other -/

theorem patchLinks_eq (id : ItemId) (level : Nat) (links : RoaringBitmap) (layers : Layers M0) :
    patchLinks D M options lmdb toDelete id level links layers =
      (patchedNode D M options lmdb toDelete id level links (layers.linksAt level id)).map
        (layers.insert level id) := by
  unfold patchLinks patchedNode
  simp only [bind, Except.bind, pure, Except.pure]
  split_ifs
  · cases ArrayVec.fromIter M0 _ <;> rfl
  · cases lmdb.item id with
    | error e => rfl
    | ok curr =>
      simp only
      split
      · rfl
      · cases robustPrune D M M0 options.alpha lmdb _ level with
        | error e => rfl
        | ok pruned =>
          simp only
          cases ArrayVec.fromIter M0 pruned <;> rfl

/-- The task of a node alone. -/
theorem patchNode_run {id : ItemId} {level : Nat} {links : RoaringBitmap} {layers : Layers M0}
    (hl : level < layers.length) :
    (patchNode D M options lmdb toDelete id level links).run (exec D M options.alpha lmdb) layers =
      (patchLinks D M options lmdb toDelete id level links layers).map ((), ·) := by
  have hget : exec D M options.alpha lmdb (.get level id) layers =
      (.entry (layers.get? level id), layers) := by
    simp [exec, Request.level, Layers.get?, List.getElem?_eq_getElem hl]
  rw [patchLinks_eq, patchNode, Prog.run, hget]
  simp only [Layers.linksAt]
  cases patchedNode D M options lmdb toDelete id level links _ with
  | error e => rfl
  | ok node =>
    have hinsert : exec D M options.alpha lmdb (.insert level id node) layers =
        (.done, layers.insert level id node) := by
      simp [exec, Request.level, List.getElem?_eq_getElem hl]
    show Prog.run _ (.call (Request.insert level id node) fun _ => .ret ()) layers = _
    rw [Prog.run, hinsert]
    rfl

/-- One round of `patchAll`. -/
def patchRound (D : Distance) (M : Nat) (options : BuildOption) (env : Environment)
    (lmdb : FrozenReader) (toDelete : RoaringBitmap) (n : Nat) (e : Key × Value)
    (layers : Layers M0) : Except Failure (Layers M0) :=
  if options.cancelled n .patch then .error (.err .buildCancelled)
  else if env.fault (.patch n) then .error (.err .heed)
  else do
    let links ← decodeLinks e.2
    if e.1.node.item ∈ toDelete then .ok layers
    else patchLinks D M options lmdb toDelete e.1.node.item e.1.node.layer.toNat links layers

theorem patchAll_eq (n : Nat) (e : Key × Value) (entries : List (Key × Value))
    (layers : Layers M0) : patchAll D M options env lmdb toDelete n (e :: entries) layers =
      patchRound D M options env lmdb toDelete n e layers >>=
        patchAll D M options env lmdb toDelete (n + 1) entries := by
  obtain ⟨k, v⟩ := e
  unfold patchRound
  rw [patchAll]
  split_ifs
  · rfl
  · rfl
  · cases decodeLinks v <;> rfl
  · cases decodeLinks v <;> rfl

theorem length_patchRound {n : Nat} {e : Key × Value} {layers layers' : Layers M0}
    (h : patchRound D M options env lmdb toDelete n e layers = .ok layers') :
    layers'.length = layers.length := by
  unfold patchRound at h
  split_ifs at h
  · obtain ⟨links, -, h⟩ := Txn.ok_bind_iff.mp h
    cases h
    rfl
  · obtain ⟨links, -, h⟩ := Txn.ok_bind_iff.mp h
    rw [patchLinks_eq] at h
    cases hnode : patchedNode D M options lmdb toDelete e.1.node.item e.1.node.layer.toNat links
      (layers.linksAt e.1.node.layer.toNat e.1.node.item) with
    | error e =>
      rw [hnode] at h
      cases h
    | ok node =>
      rw [hnode] at h
      cases h
      exact Layers.length_insert ..

/-- The task of an entry alone is a round. -/
theorem patchTask_run {n : Nat} {e : Key × Value} {layers : Layers M0} (hlayer : ∀ links,
    decodeLinks e.2 = .ok links → e.1.node.layer.toNat < layers.length) :
    (patchTask D M options env lmdb toDelete n n e).run (exec D M options.alpha lmdb) layers =
      (patchRound D M options env lmdb toDelete n e layers).map ((), ·) := by
  unfold patchTask patchEntry patchRound
  split_ifs
  · rfl
  · rfl
  · cases decodeLinks e.2 <;> rfl
  · cases hv : decodeLinks e.2 with
    | error e => rfl
    | ok links => exact patchNode_run (hlayer links hv)

/-- The tasks in the order of the stored nodes. -/
theorem runAll_patchTasks : ∀ {entries : List (Key × Value)} {n : Nat} {layers : Layers M0},
    (∀ e ∈ entries, ∀ links, decodeLinks e.2 = .ok links →
      e.1.node.layer.toNat < layers.length) →
    runAll (exec D M options.alpha lmdb)
      ((List.range' n entries.length).zipWith
        (fun n p => patchTask D M options env lmdb toDelete n p.2 p.1) (entries.zipIdx n)) layers =
        patchAll D M options env lmdb toDelete n entries layers
  | [], _, _, _ => rfl
  | e :: entries, n, layers, h => by
    obtain ⟨hlayer, hrest⟩ := List.forall_mem_cons.mp h
    rw [List.length_cons, List.range'_succ, List.zipIdx_cons, List.zipWith_cons_cons, runAll,
      List.foldlM_cons, patchTask_run hlayer, patchAll_eq]
    cases hround : patchRound D M options env lmdb toDelete n e layers with
    | error e => rfl
    | ok mid =>
      exact runAll_patchTasks fun e he links hlinks =>
        length_patchRound hround ▸ hrest e he links hlinks

/-- Resizing makes room for every stored node. -/
theorem lt_length_resizeLayers : ∀ (entries : List (Key × Value)) (layers : Layers M0),
    layers.length ≤ (resizeLayers entries layers).length ∧ ∀ e ∈ entries, ∀ links,
      decodeLinks e.2 = .ok links →
        e.1.node.layer.toNat < (resizeLayers entries layers).length
  | [], _ => ⟨le_rfl, fun _ he => absurd he List.not_mem_nil⟩
  | e :: entries, layers => by
    have hcons : ∃ mid : Layers M0, resizeLayers (e :: entries) layers =
        resizeLayers entries mid ∧ layers.length ≤ mid.length ∧
          ∀ links, decodeLinks e.2 = .ok links → e.1.node.layer.toNat < mid.length := by
      rw [resizeLayers, List.foldl_cons, ← resizeLayers]
      cases decodeLinks e.2 with
      | error err => exact ⟨layers, rfl, le_rfl, fun links h => by cases h⟩
      | ok links =>
        refine ⟨_, rfl, by simp, fun _ _ => ?_⟩
        rw [List.length_append, List.length_replicate]
        omega
    obtain ⟨mid, hmid, hle, hroom⟩ := hcons
    obtain ⟨hle', hrest⟩ := lt_length_resizeLayers entries mid
    rw [hmid]
    refine ⟨hle.trans hle', List.forall_mem_cons.mpr ⟨fun links h => ?_, hrest⟩⟩
    exact (hroom links h).trans_le hle'

/-! ## In any order -/

/-- While no task is cancelled, their numbers do not matter. -/
theorem zipWith_patchTask : ∀ {numbers : List Nat} {entries : List ((Key × Value) × Nat)},
    numbers.length = entries.length → (∀ n ∈ numbers, options.cancelled n .patch = false) →
      numbers.zipWith (fun n p => patchTask D M options env lmdb toDelete n p.2 p.1) entries =
        entries.map fun p => (patchEntry D M options env lmdb toDelete p.2 p.1 : Client M0 Unit)
  | [], [], _, _ => rfl
  | n :: numbers, p :: entries, h, hno => by
    obtain ⟨hn, hrest⟩ := List.forall_mem_cons.mp hno
    rw [List.zipWith_cons_cons, List.map_cons, zipWith_patchTask (Nat.succ_inj.mp h) hrest,
      patchTask, if_neg (by rw [hn]; exact Bool.false_ne_true)]

/-- A number at which the callback returns true is given to some task. -/
theorem mem_zipWith_patchTask {n : Nat} (hn : options.cancelled n .patch = true) :
    ∀ {numbers : List Nat} {entries : List ((Key × Value) × Nat)},
      numbers.length = entries.length → n ∈ numbers →
        (.fail (.err .buildCancelled) : Client M0 Unit) ∈
          numbers.zipWith (fun n p => patchTask D M options env lmdb toDelete n p.2 p.1) entries
  | m :: numbers, p :: entries, h, hmem => by
    rw [List.zipWith_cons_cons]
    rcases List.mem_cons.mp hmem with rfl | hmem
    · rw [patchTask, if_pos hn]
      exact List.mem_cons_self
    · exact List.mem_cons_of_mem _ (mem_zipWith_patchTask hn (Nat.succ_inj.mp h) hmem)

/-- The cells of the tasks. -/
theorem patchTasks_within {numbers : List Nat}
    (hn : numbers.Perm (List.range lmdb.linksEntries.length)) :
    List.Forall₂ (fun c (p : Client M0 Unit) => p.Within cellOf c)
      (lmdb.linksEntries.map fun e => (e.1.node.layer.toNat, e.1.node.item))
      (patchTasks D M options env lmdb toDelete numbers) :=
  tasks_within numbers _ 0 (hn.length_eq.trans List.length_range)

variable (D toDelete) in
/-- **The order of the tasks does not matter**: they lead to the same layers, or in every order to
an error. -/
theorem runAll_perm {numbers : List Nat}
    (hn : numbers.Perm (List.range lmdb.linksEntries.length)) (layers : Layers M0) :
    runAll (exec D M options.alpha lmdb) (patchTasks D M options env lmdb toDelete numbers) layers =
        runAll (exec D M options.alpha lmdb) (patchTasks D M options env lmdb toDelete
          (List.range lmdb.linksEntries.length)) layers ∨
      (∃ e, runAll (exec D M options.alpha lmdb)
        (patchTasks D M options env lmdb toDelete numbers) layers = .error e) ∧
      ∃ e, runAll (exec D M options.alpha lmdb) (patchTasks D M options env lmdb toDelete
        (List.range lmdb.linksEntries.length)) layers = .error e := by
  have hlen : ∀ {numbers : List Nat}, numbers.Perm (List.range lmdb.linksEntries.length) →
      numbers.length = lmdb.linksEntries.zipIdx.length := fun hn => by
    rw [hn.length_eq, List.length_range, List.length_zipIdx]
  by_cases hcancel : ∃ n ∈ numbers, options.cancelled n .patch = true
  · obtain ⟨n, hmem, hc⟩ := hcancel
    have hfails : ∀ {numbers : List Nat}, numbers.Perm (List.range lmdb.linksEntries.length) →
        n ∈ numbers → ∃ e, runAll (exec D M options.alpha lmdb)
          (patchTasks D M options env lmdb toDelete numbers) layers = .error e :=
      fun hn hmem => (runAll_error_iff (cells_exec D M lmdb options.alpha)
        (nodup_linksEntries lmdb) (patchTasks_within hn)).mpr
          ⟨_, mem_zipWith_patchTask hc (hlen hn) hmem, _, rfl⟩
    exact Or.inr ⟨hfails hn hmem, hfails (List.Perm.refl _) (hn.mem_iff.mp hmem)⟩
  · have hno : ∀ n ∈ numbers, options.cancelled n .patch = false := fun n hmem =>
      Bool.eq_false_iff.mpr fun hc => hcancel ⟨n, hmem, hc⟩
    left
    unfold patchTasks
    rw [zipWith_patchTask (hlen hn) hno, zipWith_patchTask (hlen (List.Perm.refl _))
      fun n hmem => hno n (hn.mem_iff.mpr hmem)]

/-- What the tasks may return, in whichever order they are started. -/
theorem tryForEach_patchTasks {numbers : List Nat}
    (hn : numbers.Perm (List.range lmdb.linksEntries.length)) (layers : Layers M0) :
    (∀ layers', TryForEach (exec D M options.alpha lmdb)
        (patchTasks D M options env lmdb toDelete numbers) layers (.ok layers') ↔
      runAll (exec D M options.alpha lmdb) (patchTasks D M options env lmdb toDelete
        (List.range lmdb.linksEntries.length)) layers = .ok layers') ∧
    ((∃ e, TryForEach (exec D M options.alpha lmdb)
        (patchTasks D M options env lmdb toDelete numbers) layers (.error e)) ↔
      ∃ e, runAll (exec D M options.alpha lmdb) (patchTasks D M options env lmdb toDelete
        (List.range lmdb.linksEntries.length)) layers = .error e) := by
  have hcells : Cells (exec D M options.alpha lmdb : Request M0 → _) cellOf lookAt :=
    cells_exec D M lmdb options.alpha
  have hnodup := nodup_linksEntries lmdb
  constructor
  · intro layers'
    rw [tryForEach_ok_iff hcells hnodup (patchTasks_within hn)]
    rcases runAll_perm D toDelete hn layers with heq | ⟨⟨e, he⟩, e', he'⟩
    · rw [heq]
    · rw [he, he']
      exact iff_of_false (by rintro ⟨⟩) (by rintro ⟨⟩)
  · rw [exists_tryForEach_error_iff hcells hnodup (patchTasks_within hn)]
    rcases runAll_perm D toDelete hn layers with heq | ⟨hfails, hfails'⟩
    · rw [heq]
    · exact iff_of_true hfails hfails'

/-- While the database answers, the repair runs the tasks one after the other. -/
theorem fillGaps_eq_runAll (h : env.fault .iterLinks = false) (layers : Layers M0) :
    fillGapsFromDeleted D M options env lmdb toDelete layers =
      runAll (exec D M options.alpha lmdb) (patchTasks D M options env lmdb toDelete
        (List.range lmdb.linksEntries.length)) (resizeLayers lmdb.linksEntries layers) := by
  unfold fillGapsFromDeleted patchTasks
  rw [if_neg (by rw [h]; exact Bool.false_ne_true), List.range_eq_range',
    runAll_patchTasks (lt_length_resizeLayers _ layers).2]

/-- **The repair in parallel** may return the layers that repairing the nodes one after the other
leads to, and no others; it may fail exactly when that fails. -/
theorem fillGaps_in_parallel (layers : Layers M0) :
    (∀ layers', FillGapsInParallel D M options env lmdb toDelete layers (.ok layers') ↔
      fillGapsFromDeleted D M options env lmdb toDelete layers = .ok layers') ∧
    ((∃ e, FillGapsInParallel D M options env lmdb toDelete layers (.error e)) ↔
      ∃ e, fillGapsFromDeleted D M options env lmdb toDelete layers = .error e) := by
  cases hfault : env.fault .iterLinks with
  | true =>
    have hseq : fillGapsFromDeleted D M options env lmdb toDelete layers =
        .error (.err .heed) := by
      unfold fillGapsFromDeleted
      rw [if_pos hfault]
      rfl
    rw [hseq]
    refine ⟨fun layers' => iff_of_false (fun h => ?_) (by rintro ⟨⟩),
      iff_of_true ⟨_, .iterLinks hfault⟩ ⟨_, rfl⟩⟩
    cases h with
    | tasks h =>
      rw [hfault] at h
      cases h
  | false =>
    rw [fillGaps_eq_runAll hfault]
    constructor
    · intro layers'
      constructor
      · intro h
        cases h with
        | tasks _ hn hout => exact ((tryForEach_patchTasks hn _).1 layers').mp hout
      · intro h
        exact .tasks hfault (List.Perm.refl _)
          (((tryForEach_patchTasks (List.Perm.refl _) _).1 layers').mpr h)
    · constructor
      · rintro ⟨e, h⟩
        cases h with
        | iterLinks h =>
          rw [hfault] at h
          cases h
        | tasks _ hn hout => exact (tryForEach_patchTasks hn _).2.mp ⟨e, hout⟩
      · intro h
        obtain ⟨e, hout⟩ := (tryForEach_patchTasks (List.Perm.refl _) _).2.mpr h
        exact ⟨e, .tasks hfault (List.Perm.refl _) hout⟩

end Hannoy.Graph
