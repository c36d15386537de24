import Hannoy.Graph.Asked
import Hannoy.Graph.LostLinks
import Hannoy.Graph.Repair

/-!
# Links that are added twice (`hnsw.rs:172-185, 372-411, 523-560`)

`add_link` appends an id without looking whether the list holds it. Each insert links a pair once,
so a second copy comes from the insert of the other end, or from the repair of a stored node, which
puts the stored links in front of the list in memory.

* `linkedOnce_iff`: no list of a run holds an id twice exactly if none is appended to a list with
  room that holds it.
* `NewOnly.not_repeats`: items without stored links are linked once, when the inserts run one after
  the other.
* `linkedOnce_repair_iff`: when a repair leaves every list without copies.
-/

namespace Hannoy.Graph

open Hannoy.Library Hannoy.Library.Server Hannoy.HnswBuilder
open Hannoy.Layers (linksAt)

variable {D : Distance} {M M0 : Nat} {alpha : F32} {lmdb : FrozenReader} {options : BuildOption}
  {env : Environment} {rs : List (Request M0)} {level : Nat}

/-! ## Copies of a link -/

/-- How often the list of `p` holds `q`. -/
def copies (layers : Layers M0) (l : Nat) (p q : ItemId) : Nat :=
  ((linksAt layers l p).map Scored.id).count q

theorem copies_of_get? {layers : Layers M0} {l : Nat} {p : ItemId} {node : NodeState M0}
    (h : layers.get? l p = some node) (q : ItemId) :
    copies layers l p q = node.targets.count q := by
  rw [copies, linksAt, h, NodeState.targets]

theorem copies_of_none {layers : Layers M0} {l : Nat} {p : ItemId}
    (h : layers.get? l p = none) (q : ItemId) : copies layers l p q = 0 := by
  rw [copies, Layers.linksAt_of_none h]
  rfl

theorem copies_congr {layers layers' : Layers M0} {l : Nat} {p : ItemId}
    (h : layers'.get? l p = layers.get? l p) (q : ItemId) :
    copies layers' l p q = copies layers l p q := by
  rw [copies, copies, Layers.linksAt_congr h]

theorem count_robustPrune_le {links out : List ScoredLink}
    (h : robustPrune D M M0 alpha lmdb links level = .ok out) (q : ItemId) :
    (out.map Scored.id).count q ≤ (links.map Scored.id).count q := by
  have hsub : out.Sublist (links.insertionSort (· ≤ ·)) := robustPrune_eq h ▸ pick_sublist _ _
  refine ((hsub.map Scored.id).count_le q).trans (le_of_eq ?_)
  exact ((List.perm_insertionSort _ links).map Scored.id).count_eq q

/-- The request appends `q` to the list of `p`, which has room. -/
def Appends (M : Nat) (r : Request M0) (layers : Layers M0) (l : Nat) (p q : ItemId) : Prop :=
  ∃ s, r = .updateOrInsertWith l p s ∧ s.id = q ∧
    (linksAt layers l p).length < min (linkCap M M0 l) M0

/-- An update appends its link where there is room, and adds no copy where there is none. -/
theorem count_addLinkUpdate {s : ScoredLink} {before node : NodeState M0}
    (h : addLinkUpdate D M alpha lmdb level s before = .ok node) (q : ItemId) :
    node.targets.count q ≤ before.targets.count q ∨
      (s.id = q ∧ before.links.toList.length < min (linkCap M M0 level) M0 ∧
        node.targets.count q = before.targets.count q + 1) := by
  rw [NodeState.targets, NodeState.targets]
  rcases addLinkUpdate_ok h with ⟨hroom, hlinks⟩ | ⟨-, hprune | ⟨-, rfl⟩⟩
  · have hfits := node.links.length_le
    rw [hlinks, List.length_append, List.length_singleton] at hfits
    rw [hlinks, List.map_append, List.count_append, List.map_singleton, List.count_singleton]
    by_cases hs : s.id = q
    · exact Or.inr ⟨hs, lt_min hroom hfits, by simp [hs]⟩
    · exact Or.inl (by simp [hs])
  · exact Or.inl (count_robustPrune_le hprune q)
  · exact Or.inl le_rfl

/-- A new entry holds its link alone. -/
theorem count_addLinkInsert {s : ScoredLink} {node : NodeState M0}
    (h : addLinkInsert s = .ok node) (q : ItemId) :
    node.targets.count q = (if s.id = q then 1 else 0) ∧ 0 < M0 := by
  have hlinks := addLinkInsert_ok h
  have hfits := node.links.length_le
  rw [hlinks, List.length_singleton] at hfits
  refine ⟨?_, hfits⟩
  rw [NodeState.targets, hlinks, List.map_singleton, List.count_singleton]
  simp

/-- **Only an append adds a copy.** -/
theorem copies_exec_le {r : Request M0} (hr : Modest M M0 r) (layers : Layers M0) (l : Nat)
    (p q : ItemId) : copies (exec D M alpha lmdb r layers).2 l p q ≤ copies layers l p q ∨
      (Appends M r layers l p q ∧
        copies (exec D M alpha lmdb r layers).2 l p q ≤ copies layers l p q + 1) := by
  rcases get?_exec D M alpha lmdb r layers l p with hsame | ⟨node, rfl, rfl, hw, hnew⟩
  · exact Or.inl (copies_congr hsame q).le
  rw [copies_of_get? hnew]
  generalize hold : layers.get? r.level r.item = old at hw
  cases hw with
  | insert =>
    obtain rfl : node = NodeState.empty := hr
    exact Or.inl (Nat.zero_le _)
  | getOrInsert =>
    obtain rfl : node = NodeState.empty := hr
    exact Or.inl (Nat.zero_le _)
  | update x hup =>
    rename_i l s before
    have hbefore : linksAt layers l x = before.links.toList := Layers.linksAt_of_get? hold
    rw [copies_of_get? hold]
    refine (count_addLinkUpdate hup q).imp id ?_
    rintro ⟨hs, hroom, hcount⟩
    exact ⟨⟨s, rfl, hs, hbefore ▸ hroom⟩, hcount.le⟩
  | create l x hup =>
    rename_i s
    have hbefore : linksAt layers l x = [] := Layers.linksAt_of_none hold
    obtain ⟨hcount, hpos⟩ := count_addLinkInsert hup q
    rw [hcount]
    by_cases hs : s.id = q
    · have hcap : 0 < linkCap M M0 l := by
        rw [linkCap]
        split_ifs with hl
        · exact hpos
        · exact Or.resolve_left hr hl
      have hroom : (linksAt layers l x).length < min (linkCap M M0 l) M0 := by
        rw [hbefore]
        exact lt_min hcap hpos
      exact Or.inr ⟨⟨s, rfl, hs, hroom⟩, by simp [hs]⟩
    · exact Or.inl (by simp [hs])

variable (D alpha lmdb) in
/-- An append to a list that holds the id already. -/
theorem copies_append {r : Request M0} {layers : Layers M0} {l : Nat} {p q : ItemId}
    (h : Appends M r layers l p q) (hq : copies layers l p q ≠ 0) :
    copies (exec D M alpha lmdb r layers).2 l p q = copies layers l p q + 1 := by
  obtain ⟨s, rfl, rfl, hroom⟩ := h
  cases hold : layers.get? l p with
  | none => exact absurd (copies_of_none hold s.id) hq
  | some before =>
    rw [Layers.linksAt_of_get? hold] at hroom
    have hlt := Layers.lt_length_of_get? hold
    have hpush : addLinkUpdate D M alpha lmdb l s before =
        .ok ⟨⟨before.links.toList ++ [s], by
          rw [List.length_append, List.length_singleton]
          exact hroom.trans_le (min_le_right _ _)⟩⟩ := by
      rw [addLinkUpdate, if_pos (hroom.trans_le (min_le_left _ _)), ArrayVec.push,
        ArrayVec.fromIter, dif_pos]
      rfl
    obtain ⟨entry, hentry, hexec⟩ := exec_update D M alpha lmdb hlt p s
    have hentry : entry = addLinkUpdate D M alpha lmdb l s before := by
      rcases hentry with ⟨old, hget, rfl⟩ | ⟨hget, -⟩
      · rw [hold] at hget
        cases hget
        rfl
      · rw [hold] at hget
        cases hget
    rw [hentry, hpush] at hexec
    obtain ⟨node, hnode, hexec⟩ | ⟨e, he, -⟩ := hexec
    · cases hnode
      rw [hexec, copies_of_get? (by rw [Layers.get?_insert hlt, if_pos ⟨rfl, rfl⟩]),
        copies_of_get? hold]
      simp [NodeState.targets]
    · cases he

/-! ## Runs -/

section runs

variable {c c' : Config (Request M0) (Reply M0) Failure (Layers M0) Unit}
  {tr : List (Event (Request M0) (Layers M0))} {E : ItemId → Prop} {l : Nat} {p q : ItemId}

/-- No list holds an id twice, those of `E` apart. -/
def LinkedOnce (E : ItemId → Prop) (layers : Layers M0) : Prop :=
  ∀ l p q, p ≠ q → ¬ E p → ¬ E q → copies layers l p q ≤ 1

/-- The event appends an id to a list that has room and holds it already. -/
def Repeats (M : Nat) (E : ItemId → Prop) (e : Event (Request M0) (Layers M0)) : Prop :=
  ∃ l p q, p ≠ q ∧ ¬ E p ∧ ¬ E q ∧ Appends M e.req e.before l p q ∧ copies e.before l p q ≠ 0

/-- **Every list of a run holds an id once** exactly if none is appended to a list that holds
it. -/
theorem linkedOnce_iff (h : Run (exec D M alpha lmdb) c tr c')
    (hc : ∀ p ∈ c.clients, p.Issues (Modest M M0)) (h₀ : LinkedOnce E c.state) :
    (∀ e ∈ tr, LinkedOnce E e.after) ↔ ∀ e ∈ tr, ¬ Repeats M E e := by
  have hserved := h.served
  constructor
  · rintro hall e he ⟨l, p, q, hne, hp, hq, happ, hcopy⟩
    have hone := hall e he l p q hne hp hq
    rw [hserved e he, copies_append D alpha lmdb happ hcopy] at hone
    omega
  · intro hnone
    refine h.keeps_after (fun e he hbefore l p q hne hp hq => ?_) h₀
    have hone := hbefore l p q hne hp hq
    rw [hserved e he]
    rcases copies_exec_le (h.issued hc e he) e.before l p q with hle | ⟨happ, hle⟩
    · exact hle.trans hone
    · have hzero : copies e.before l p q = 0 := by
        by_contra hcopy
        exact hnone e he ⟨l, p, q, hne, hp, hq, happ, hcopy⟩
      omega

/-- A link that is in a list was asked for. -/
theorem exists_asked (h : Run (exec D M alpha lmdb) c tr c')
    (hc : ∀ p ∈ c.clients, p.Issues (Modest M M0)) (h₀ : copies c.state l p q = 0)
    (hq : copies c'.state l p q ≠ 0) :
    ∃ e ∈ tr, ∃ s, e.req = .updateOrInsertWith l p s ∧ s.id = q := by
  by_contra hnone
  push Not at hnone
  refine hq (h.keeps (J := fun layers => copies layers l p q = 0) (fun e he hbefore => ?_) h₀)
  rcases copies_exec_le (h.issued hc e he) e.before l p q with hle | ⟨⟨s, hreq, hs, -⟩, -⟩
  · rw [h.served e he]
    exact Nat.le_zero.mp (hbefore ▸ hle)
  · exact absurd hs (hnone e he s hreq)

end runs

/-! ## The tasks of a build -/

section tasks

variable {b : HnswBuilder M0} {n : Nat} {levels : List (ItemId × Nat)} {layers : Layers M0}
  {c : Config (Request M0) (Reply M0) Failure (Layers M0) Unit}
  {tr : List (Event (Request M0) (Layers M0))} {E : ItemId → Prop} {l : Nat} {p q : ItemId}

theorem groupTasks_getElem? {i : Nat} {task : Client M0 Unit}
    (h : (groupTasks D M options env lmdb b n levels)[i]? = some task) :
    ∃ x top, levels[i]? = some (x, top) ∧
      task = insertTask D M options env lmdb b (n + i) x top := by
  rw [groupTasks, List.getElem?_map, List.getElem?_zipIdx] at h
  cases hi : levels[i]? with
  | none => rw [hi] at h; cases h
  | some x =>
    rw [hi] at h
    cases h
    exact ⟨x.1, x.2, rfl, rfl⟩

theorem modest_groupTasks :
    ∀ task ∈ groupTasks D M options env lmdb b n levels, task.Issues (Modest M M0) := by
  intro task htask
  obtain ⟨x, -, rfl⟩ := List.mem_map.mp htask
  exact modest_insertTask

theorem insertTask_asks {item : ItemId} (hnd : b.entryPoints.Nodup)
    (h : (insertTask D M options env lmdb b n item level).Asks rs) : LinksSoFar item rs := by
  unfold insertTask at h
  split_ifs at h
  · cases h
    exact linksSoFar_of_nil fun _ => rfl
  · cases h
    exact linksSoFar_of_nil fun _ => rfl
  · exact insert_asks hnd h

/-- The requests of an event's client so far. -/
def askedBy (tr : List (Event (Request M0) (Layers M0))) (i : Nat) : List (Request M0) :=
  (tr.filter fun e => e.client = i).map Event.req

/-- An event belongs to the insert of some item, which links no pair twice. -/
theorem linksSoFar_of_event (hnd : b.entryPoints.Nodup)
    (h : Run (exec D M options.alpha lmdb) ⟨layers, groupTasks D M options env lmdb b 0 levels⟩
      tr c) {e : Event (Request M0) (Layers M0)} (he : e ∈ tr) :
    ∃ x top, levels[e.client]? = some (x, top) ∧ LinksSoFar x (askedBy tr e.client) := by
  have htask := List.getElem?_eq_getElem (h.client_lt.2 e he)
  obtain ⟨x, top, hlevel, heq⟩ := groupTasks_getElem? htask
  exact ⟨x, top, hlevel, insertTask_asks hnd (heq ▸ h.asks htask)⟩

theorem mem_askedBy {e : Event (Request M0) (Layers M0)} (he : e ∈ tr) :
    e.req ∈ askedBy tr e.client :=
  List.mem_map_of_mem (List.mem_filter.mpr ⟨he, by simp⟩)

/-- One end of every link that is asked for is the item whose insert asks. -/
theorem query_of_asked (hnd : b.entryPoints.Nodup)
    (h : Run (exec D M options.alpha lmdb) ⟨layers, groupTasks D M options env lmdb b 0 levels⟩
      tr c) {e : Event (Request M0) (Layers M0)} (he : e ∈ tr) {s : ScoredLink}
    (hreq : e.req = .updateOrInsertWith l p s) :
    ∃ x top, levels[e.client]? = some (x, top) ∧ (p = x ∨ s.id = x) := by
  obtain ⟨x, top, hlevel, hlinks⟩ := linksSoFar_of_event hnd h he
  exact ⟨x, top, hlevel,
    (hlinks.pairs l).2 _ (mem_pairsAsked (hreq ▸ mem_askedBy he))⟩

/-- An insert does not ask for a link again. -/
theorem client_ne_of_asked (hnd : b.entryPoints.Nodup)
    {pre post : List (Event (Request M0) (Layers M0))} {e e' : Event (Request M0) (Layers M0)}
    (h : Run (exec D M options.alpha lmdb) ⟨layers, groupTasks D M options env lmdb b 0 levels⟩
      (pre ++ e' :: post) c) (he : e ∈ pre) {s s' : ScoredLink}
    (hreq : e.req = .updateOrInsertWith l p s) (hreq' : e'.req = .updateOrInsertWith l p s')
    (hs : s.id = s'.id) : e.client ≠ e'.client := by
  intro hclient
  obtain ⟨x, top, -, hlinks⟩ := linksSoFar_of_event hnd h (e := e') (by simp)
  have hsplit : askedBy (pre ++ e' :: post) e'.client =
      askedBy pre e'.client ++ askedBy (e' :: post) e'.client := by
    rw [askedBy, List.filter_append, List.map_append, askedBy, askedBy]
  have hnodup := (hlinks.pairs l).1
  rw [hsplit, pairsAsked, linksAsked_append, List.map_append] at hnodup
  refine (List.nodup_append.mp hnodup).2.2 (p, s.id) ?_ (p, s'.id) ?_ (by rw [hs])
  · exact mem_pairsAsked (hreq ▸ hclient ▸ mem_askedBy he)
  · exact mem_pairsAsked (hreq' ▸ mem_askedBy List.mem_cons_self)

theorem groupTasks_append (n : Nat) (levels levels' : List (ItemId × Nat)) :
    groupTasks D M options env lmdb b n (levels ++ levels') =
      groupTasks D M options env lmdb b n levels ++
        groupTasks D M options env lmdb b (n + levels.length) levels' := by
  simp [groupTasks, List.zipIdx_append]

/-- Without concurrency the level groups are inserted one task after the other. -/
theorem insertGroups_eq_runAll (hpicks : ∀ g, env.schedule.picks g = []) :
    ∀ (groups : List (List (ItemId × Nat))) (n g : Nat) (layers : Layers M0),
      insertGroups D M options env lmdb b n g groups layers =
        runAll (exec D M options.alpha lmdb)
          (groupTasks D M options env lmdb b n groups.flatten) layers
  | [], _, _, _ => rfl
  | grp :: groups, n, g, layers => by
    have hgroup : insertGroup D M options env lmdb b n g grp layers =
        runAll (exec D M options.alpha lmdb) (groupTasks D M options env lmdb b n grp) layers := by
      rw [insertGroup, hpicks]
      rfl
    rw [List.flatten_cons, groupTasks_append, runAll_append, ← hgroup, insertGroups]
    congr 1
    funext mid
    exact insertGroups_eq_runAll hpicks groups _ _ mid

/-- **The inserts of a build without concurrency** are a run in which the tasks are served in
turn. -/
theorem run_of_insertGroups (hpicks : ∀ g, env.schedule.picks g = []) {layers layers' : Layers M0}
    (h : insertGroups D M options env lmdb b 0 0 (levelGroups levels) layers = .ok layers') :
    ∃ (tr : List (Event (Request M0) (Layers M0))) (values : List Unit),
      Run (exec D M options.alpha lmdb) ⟨layers, groupTasks D M options env lmdb b 0 levels⟩ tr
        ⟨layers', values.map .ret⟩ ∧ InTurn tr := by
  rw [insertGroups_eq_runAll hpicks, levelGroups, List.flatten_splitBy] at h
  exact runAll_run h

end tasks

/-! ## Items that are new to the graph -/

/-- The request enters no other item. -/
def EntersOnly (item : ItemId) : Request M0 → Prop
  | .getOrInsert _ x _ => x = item
  | _ => True

theorem Walks.entersOnly {item : ItemId} : ∀ r : Request M0, Walks r → EntersOnly item r
  | .get _ _, _ => trivial
  | .insert _ _ _, _ => trivial

theorem Enters.entersOnly {item : ItemId} : ∀ r : Request M0, Enters item r → EntersOnly item r
  | .getOrInsert _ _ _, h => h.1

theorem entersOnly_addLink {item p : ItemId} {s : ScoredLink} :
    (addLink M0 p s level).Issues (EntersOnly item) := by
  unfold addLink
  split_ifs
  · trivial
  · refine ⟨trivial, fun reply => ?_⟩
    cases reply <;> trivial

theorem entersOnly_insertTask {b : HnswBuilder M0} {n : Nat} {item : ItemId} {level : Nat} :
    (insertTask D M options env lmdb b n item level).Issues (EntersOnly item) := by
  unfold insertTask
  split_ifs
  · trivial
  · trivial
  · refine (issues_ofExcept _).bind fun q => ?_
    refine (issues_foldlM (fun level _ eps => walks_greedyLayer.mono Walks.entersOnly) _).bind
      fun eps => ?_
    refine ((enters_addInLayers _).mono Enters.entersOnly).bind fun _ => ?_
    refine (issues_foldlM (fun l _ eps => ?_) _).bind fun _ => trivial
    refine (walks_walkLayer.mono Walks.entersOnly).bind fun neighbours =>
      (issues_ofExcept _).bind fun selected => issues_foldlM (fun s _ eps => ?_) _
    exact entersOnly_addLink.bind fun _ => entersOnly_addLink.bind fun _ =>
      (trivial : (Prog.ret _).Issues _)

/-- A request that may enter another item only leaves this one as absent as it was. -/
theorem present_of_exec {r : Request M0} {layers : Layers M0} {item x : ItemId} {l : Nat}
    (hallowed : Allowed lmdb r layers) (honly : EntersOnly item r) (hx : x ≠ item)
    (h : Present lmdb (exec D M alpha lmdb r layers).2 l x) : Present lmdb layers l x := by
  rcases h with ⟨hlive, ⟨st, hst⟩ | hdisk⟩
  swap
  · exact ⟨hlive, Or.inr hdisk⟩
  rcases get?_exec D M alpha lmdb r layers l x with hsame | ⟨node, rfl, rfl, hw, -⟩
  · exact ⟨hlive, Or.inl ⟨st, hsame ▸ hst⟩⟩
  generalize hold : layers.get? r.level r.item = old at hw
  cases hw with
  | insert => exact hallowed.1
  | getOrInsert => exact absurd honly hx
  | update => exact hallowed.1
  | create => exact hallowed.1

section new

variable {b : HnswBuilder M0} {levels drawn : List (ItemId × Nat)}
  {c : Config (Request M0) (Reply M0) Failure (Layers M0) Unit}
  {tr : List (Event (Request M0) (Layers M0))} {E : ItemId → Prop} {l : Nat} {p q : ItemId}

/-- The tasks of a build ask for what is allowed. -/
theorem allowed_of_event (hdisk : DiskOk lmdb) (hout : PrepareOutput lmdb drawn levels b)
    (h : Run (exec D M options.alpha lmdb) ⟨b.layers, groupTasks D M options env lmdb b 0 levels⟩
      tr c) : LayersOk lmdb c.state ∧ ∀ e ∈ tr, Allowed lmdb e.req e.before := by
  refine (h.safe (T := protocol D M M0 options.alpha lmdb) (Q := fun _ _ _ => True)
    hout.layersOk fun i task htask => ?_).imp id fun h => h.2.2
  obtain ⟨x, top, hlevel, rfl⟩ := groupTasks_getElem? htask
  refine (safe_insertTask hdisk hout.layersOk hout.length
    (hout.bounded _ (List.mem_of_getElem? hlevel)) fun ep hep => ?_).mono fun _ _ _ _ => trivial
  exact ⟨(hout.entryPoints ep hep).1, Or.inl ((hout.entryPoints ep hep).2 _ le_rfl)⟩

/-- **An item is absent until its own insert**, if it was in the beginning. -/
theorem absent_until (hdisk : DiskOk lmdb) (hout : PrepareOutput lmdb drawn levels b)
    (h : Run (exec D M options.alpha lmdb) ⟨b.layers, groupTasks D M options env lmdb b 0 levels⟩
      tr c) {x : ItemId} (hown : ∀ e ∈ tr, ∀ top, levels[e.client]? ≠ some (x, top))
    (h₀ : ¬ Present lmdb b.layers l x) : ¬ Present lmdb c.state l x := by
  refine h.keeps (J := fun layers => ¬ Present lmdb layers l x) (fun e he hbefore hafter => ?_) h₀
  have htask := List.getElem?_eq_getElem (h.client_lt.2 e he)
  obtain ⟨y, top, hlevel, heq⟩ := groupTasks_getElem? htask
  have honly : EntersOnly y e.req :=
    entersOnly_insertTask.asks (heq ▸ h.asks htask) e.req (mem_askedBy he)
  rw [h.served e he] at hafter
  refine hbefore (present_of_exec ((allowed_of_event hdisk hout h).2 e he) honly ?_ hafter)
  rintro rfl
  exact hown e he top hlevel

/-- What the tasks start from: no links, and entries of entry points only; the other items are
scheduled once and are new to the graph. -/
structure NewOnly (lmdb : FrozenReader) (b : HnswBuilder M0) (levels : List (ItemId × Nat))
    (E : ItemId → Prop) : Prop where
  nodup : b.entryPoints.Nodup
  entered : ∀ l x node, b.layers.get? l x = some node → node = NodeState.empty ∧ E x
  once : ∀ x, ¬ E x → (levels.map Prod.fst).count x ≤ 1
  new : ∀ x ∈ levels.map Prod.fst, ¬ E x → ∀ l, disk lmdb l x = none

theorem copies_start {layers : Layers M0}
    (hempty : ∀ l x node, layers.get? l x = some node → node = NodeState.empty) (l : Nat)
    (p q : ItemId) : copies layers l p q = 0 := by
  cases hp : layers.get? l p with
  | none => exact copies_of_none hp q
  | some node =>
    rw [copies_of_get? hp, hempty l p node hp]
    rfl

theorem getElem?_inj_of_count {α : Type} [DecidableEq α] {x : α} : ∀ {xs : List α},
    xs.count x ≤ 1 → ∀ {i j : Nat}, xs[i]? = some x → xs[j]? = some x → i < j → False
  | [], _, _, _, hi, _, _ => by cases hi
  | y :: xs, h, i, j + 1, hi, hj, hlt => by
    cases i with
    | zero =>
      obtain rfl : y = x := by simpa using hi
      have hmem : 0 < xs.count y := List.count_pos_iff.mpr (List.mem_of_getElem? hj)
      rw [List.count_cons_self] at h
      omega
    | succ i =>
      refine getElem?_inj_of_count (List.count_le_count_cons.trans h) (i := i) (j := j)
        (by simpa using hi) (by simpa using hj) (by omega)

/-- **New items are linked once** by inserts that run one after the other: a link is asked for by
the insert of one of its ends, and when the first insert asks the other end is not there yet. -/
theorem NewOnly.not_repeats (hdisk : DiskOk lmdb) (hout : PrepareOutput lmdb drawn levels b)
    (hnew : NewOnly lmdb b levels E)
    (h : Run (exec D M options.alpha lmdb) ⟨b.layers, groupTasks D M options env lmdb b 0 levels⟩
      tr c) (hturn : InTurn tr) : ∀ e ∈ tr, ¬ Repeats M E e := by
  rintro e' he' ⟨l, p, q, hne, hp, hq, ⟨s', hreq', rfl, -⟩, hcopy⟩
  obtain ⟨pre, post, rfl⟩ := List.append_of_mem he'
  obtain ⟨c₁, c₂, hpre, hstep, -⟩ := h.at
  rw [hstep.spec.1] at hcopy
  obtain ⟨e, he, s, hreq, hs⟩ := exists_asked hpre modest_groupTasks
    (copies_start (fun l x node hx => (hnew.entered l x node hx).1) l p _) hcopy
  have hclient := client_ne_of_asked hnew.nodup h he hreq hreq' hs
  have hle : e.client ≤ e'.client :=
    (List.pairwise_append.mp hturn).2.2 e he e' List.mem_cons_self
  obtain ⟨x, top, hx, hend⟩ := query_of_asked hnew.nodup h he' hreq'
  have hxE : ¬ E x := hend.elim (· ▸ hp) (· ▸ hq)
  have hxs : (levels.map Prod.fst)[e'.client]? = some x := by rw [List.getElem?_map, hx]; rfl
  -- the later of the two items is not in the graph when the earlier one asks
  obtain ⟨pre', post', rfl⟩ := List.append_of_mem he
  obtain ⟨c₃, c₄, hpre', hstep', -⟩ := hpre.at
  have habsent : ¬ Present lmdb c₃.state l x := by
    refine absent_until hdisk hout hpre' (fun f hf top' hf' => ?_) ?_
    · have hfs : (levels.map Prod.fst)[f.client]? = some x := by rw [List.getElem?_map, hf']; rfl
      have hle' : f.client ≤ e.client := by
        have hpair := (List.pairwise_append.mp hturn).1
        exact (List.pairwise_append.mp hpair).2.2 f hf e List.mem_cons_self
      exact getElem?_inj_of_count (hnew.once x hxE) hfs hxs (by omega)
    · rintro ⟨-, ⟨node, hnode⟩ | ⟨t, ht⟩⟩
      · exact hxE (hnew.entered l x node hnode).2
      · rw [hnew.new x (List.mem_of_getElem? hxs) hxE l] at ht
        cases ht
  have hallowed := (allowed_of_event hdisk hout hpre).2 e (by simp)
  rw [hreq, hstep'.spec.1] at hallowed
  rcases hend with rfl | hend
  · exact habsent hallowed.1
  · exact habsent (hend ▸ hs ▸ hallowed.2.1)

/-- A link that the inserts made leads from a new item or to one. -/
theorem NewOnly.not_both (hdisk : DiskOk lmdb) (hnew : NewOnly lmdb b levels E)
    (h : Run (exec D M options.alpha lmdb) ⟨b.layers, groupTasks D M options env lmdb b 0 levels⟩
      tr c) {toDelete links : RoaringBitmap} {x q : ItemId} (hx : ¬ E x) (hq : ¬ E q)
    (hlinks : disk lmdb l x = some links) :
    ¬ (q ∈ mergedLinks lmdb toDelete links l ∧ q ∈ (linksAt c.state l x).map Scored.id) := by
  rintro ⟨hstored, hmem⟩
  have hcopy : copies c.state l x q ≠ 0 := (List.count_pos_iff.mpr hmem).ne'
  obtain ⟨e, he, s, hreq, rfl⟩ := exists_asked h modest_groupTasks
    (copies_start (fun l y node hy => (hnew.entered l y node hy).1) l x q) hcopy
  obtain ⟨y, top, hlevel, hend⟩ := query_of_asked hnew.nodup h he hreq
  have hy : y ∈ levels.map Prod.fst := List.mem_map_of_mem (List.mem_of_getElem? hlevel)
  rcases hend with rfl | rfl
  · rw [hnew.new x hy hx l] at hlinks
    cases hlinks
  · -- what a stored node links to is stored
    obtain ⟨t, ht⟩ : ∃ t, disk lmdb l s.id = some t := by
      obtain ⟨-, hin | ⟨d, -, -, t, ht, hin⟩⟩ := mem_mergedLinks.mp hstored
      · exact hdisk.closed hlinks hin
      · exact hdisk.closed ht hin
    rw [hnew.new s.id hy hq l] at ht
    cases ht

end new

/-! ## What the inserts start from -/

section start

variable {toInsert toDelete : RoaringBitmap} {b b' : HnswBuilder M0}
  {levels drawn : List (ItemId × Nat)} {curMaxLevel : Nat}

/-- The item is an entry point of the build, an old one or a new one. -/
def EntryPoint (b b' : HnswBuilder M0) (x : ItemId) : Prop :=
  x ∈ b.entryPoints ∨ x ∈ b'.entryPoints

/-- The only entries are those of entry points, and they are empty. -/
theorem entered_of_prepare (hlayers : b.layers = [])
    (h : prepareLevelsAndEntryPoints D M options env lmdb b drawn curMaxLevel toDelete =
      .ok (levels, b')) (l : Nat) (x : ItemId) (node : NodeState M0)
    (hx : b'.layers.get? l x = some node) : node = NodeState.empty ∧ x ∈ b'.entryPoints := by
  obtain ⟨newEps, -, -, hraise⟩ := prepare_ok h
  obtain ⟨-, heps, hrun⟩ := raise_ok hraise
  have hupper : ∀ x ∈ (upperLayer levels b'.maxLevel).map Prod.fst, x ∈ b'.entryPoints := by
    intro x hx
    rw [heps, mem_ascending]
    exact Finset.mem_union_right _ (List.mem_toFinset.mpr hx)
  rw [hlayers, List.nil_append] at hrun
  let J : Layers M0 → Prop := fun layers => ∀ l x node, layers.get? l x = some node →
    node = NodeState.empty ∧ x ∈ (upperLayer levels b'.maxLevel).map Prod.fst
  have hinv : J b'.layers := by
    refine Prog.run_invariant (J := J)
      (P := fun r => ∃ p ∈ upperLayer levels b'.maxLevel, Enters p.1 r)
      (fun r layers hr hJ l x node hx => ?_)
      (issues_foldlM (fun p hp _ => (enters_addInLayers _).mono fun r hr => ⟨p, hp, hr⟩) _) hrun
      (fun l x node hx => ?_)
    · obtain ⟨p, hp, hr⟩ := hr
      rcases get?_exec D M options.alpha lmdb r layers l x with
        hsame | ⟨node', rfl, rfl, hw, hnew⟩
      · exact hJ l x node (hsame ▸ hx)
      · rw [hnew] at hx
        cases hx
        cases r with
        | getOrInsert k y st =>
          obtain ⟨rfl, rfl⟩ := hr
          generalize hold : layers.get? (Request.level (.getOrInsert k p.1 NodeState.empty)) _ =
            old at hw
          cases hw
          exact ⟨rfl, List.mem_map_of_mem hp⟩
        | _ => exact hr.elim
    · rw [← List.nil_append (List.replicate _ _), get?_append_replicate] at hx
      cases hx
  exact ⟨(hinv l x node hx).1, hupper x (hinv l x node hx).2⟩

/-- An entry point that replaces a deleted one was stored. -/
theorem stored_of_replaced (hwt : lmdb.db.WellTyped lmdb.index) {newEps : RoaringBitmap}
    {x : ItemId} (hrep : Replaces lmdb toDelete (b.entryPoints.toFinset \ toDelete) newEps)
    (hx : x ∈ newEps) :
    x ∈ b.entryPoints ∨ ∃ l links, disk lmdb l x = some links := by
  rcases hrep.2 x hx with hold | ⟨-, ⟨k, v⟩, he, rfl⟩
  · exact Or.inl (List.mem_toFinset.mp (Finset.mem_sdiff.mp hold).1)
  · obtain ⟨y, l, links, rfl, rfl, hlinks⟩ := (mem_linksEntries hwt).mp he
    exact Or.inr ⟨l.toNat, links, hlinks⟩

/-- **A build without stored links for the items it schedules**, entry points apart. -/
theorem newOnly_of_prepare (hin : BuildInput lmdb toInsert toDelete b)
    (h : prepareLevelsAndEntryPoints D M options env lmdb b (drawnLevels env toInsert)
      (((drawnLevels env toInsert).map Prod.snd).foldl max 0) toDelete = .ok (levels, b'))
    (hnew : ∀ x ∈ levels.map Prod.fst, ¬ EntryPoint b b' x → ∀ l, disk lmdb l x = none) :
    NewOnly lmdb b' levels (EntryPoint b b') where
  nodup := (prepare_spec hin.disk (prepareInput_of_buildInput env hin) h).nodup
  entered l x node hx := (entered_of_prepare hin.layers h l x node hx).imp id Or.inr
  new := hnew
  once x hx := by
    obtain ⟨newEps, hreplaced, hlevels, -⟩ := prepare_ok h
    have hrep := (replaceDeleted_spec _ _ hreplaced).1
    have hperm : (levels.map Prod.fst).Perm (ascending toInsert ++ ascending newEps) := by
      rw [hlevels, scheduleLevels]
      refine ((env.schedule.order_perm _).map Prod.fst).trans (List.Perm.of_eq ?_)
      simp [drawnLevels, List.map_map, Function.comp_def]
    have hnone : x ∉ newEps := by
      intro hmem
      rcases stored_of_replaced hin.wellTyped hrep hmem with hold | ⟨l, links, hlinks⟩
      · exact hx (Or.inl hold)
      · have hsched : x ∈ levels.map Prod.fst :=
          hperm.mem_iff.mpr (List.mem_append_right _ (mem_ascending.mpr hmem))
        rw [hnew x hsched hx l] at hlinks
        cases hlinks
    rw [hperm.count_eq, List.count_append, count_ascending, count_ascending, if_neg hnone]
    split_ifs <;> omega

end start

/-! ## The repair -/

section repair

variable {toDelete : RoaringBitmap} {E : ItemId → Prop} {x q : ItemId} {l : Nat}
  {merged : RoaringBitmap} {old new : List ScoredLink}

/-- The repair leaves one copy of `q` at most: it is not both stored and in memory where all links
fit, and `robust_prune` selects one copy where they do not. -/
def RepairsOnce (D : Distance) (M M0 : Nat) (alpha : F32) (lmdb : FrozenReader) (x : ItemId)
    (l : Nat) (merged : RoaringBitmap) (old : List ScoredLink) (q : ItemId) : Prop :=
  if merged.card + old.length ≤ linkCap M M0 l then ¬ (q ∈ merged ∧ q ∈ old.map Scored.id)
  else ∀ out, robustPrune D M M0 alpha lmdb (old ++ (ascending merged).map (linkScore D lmdb x)) l =
    .ok out → (out.map Scored.id).count q ≤ 1

theorem Repaired.once_iff (h : Repaired D M M0 options lmdb x l merged old new)
    (hold : (old.map Scored.id).count q ≤ 1) :
    (new.map Scored.id).count q ≤ 1 ↔ RepairsOnce D M M0 options.alpha lmdb x l merged old q := by
  unfold RepairsOnce
  cases h with
  | joined hfits h =>
    rw [if_pos hfits, h, List.map_append, List.map_map, List.count_append]
    have hids : (ascending merged).map (Scored.id ∘ (⟨F32.zero, ·⟩ : ItemId → ScoredLink)) =
        ascending merged := List.map_id _
    rw [hids, count_ascending, ← List.count_pos_iff (l := old.map Scored.id)]
    by_cases hq : q ∈ merged
    · rw [if_pos hq, and_iff_right hq]
      omega
    · rw [if_neg hq]
      exact iff_of_true (by omega) fun hboth => hq hboth.1
  | pruned hfull hcurr hscored h =>
    rw [if_neg hfull, ← scored_eq hcurr hscored]
    refine ⟨fun hle out hout => ?_, fun hall => hall _ h⟩
    rw [h] at hout
    cases hout
    exact hle

/-- What is not both stored and in memory is left once. -/
theorem repairsOnce_of_not_both (hold : (old.map Scored.id).count q ≤ 1)
    (hboth : ¬ (q ∈ merged ∧ q ∈ old.map Scored.id)) :
    RepairsOnce D M M0 alpha lmdb x l merged old q := by
  unfold RepairsOnce
  split_ifs
  · exact hboth
  · intro out hout
    refine (count_robustPrune_le hout q).trans ?_
    have hids : ((ascending merged).map (linkScore D lmdb x)).map Scored.id = ascending merged := by
      rw [List.map_map]
      exact (List.map_congr_left fun y _ => linkScore_id x y).trans (List.map_id _)
    rw [List.map_append, List.count_append, hids, count_ascending]
    by_cases hq : q ∈ merged
    · have hnone : (old.map Scored.id).count q = 0 :=
        List.count_eq_zero.mpr fun hmem => hboth ⟨hq, hmem⟩
      rw [if_pos hq, hnone]
    · rw [if_neg hq]
      exact hold

/-- **When a repair leaves every list without copies.** -/
theorem linkedOnce_repair_iff (hwt : lmdb.db.WellTyped lmdb.index) (hdisk : DiskOk lmdb)
    (hown : OwnersLive lmdb toDelete) {layers layers' : Layers M0} (hok : Linked lmdb layers)
    (hone : LinkedOnce E layers)
    (h : fillGapsFromDeleted D M options env lmdb toDelete layers = .ok layers') :
    LinkedOnce E layers' ↔ ∀ (l : LayerId) x q links, x ≠ q → ¬ E x → ¬ E q →
      disk lmdb l.toNat x = some links → x ∉ toDelete →
      RepairsOnce D M M0 options.alpha lmdb x l.toNat (mergedLinks lmdb toDelete links l.toNat)
        (linksAt layers l.toNat x) q := by
  have hrepaired : ∀ {l : LayerId} {x q links}, x ≠ q → ¬ E x → ¬ E q →
      disk lmdb l.toNat x = some links → x ∉ toDelete →
      (copies layers' l.toNat x q ≤ 1 ↔
        RepairsOnce D M M0 options.alpha lmdb x l.toNat (mergedLinks lmdb toDelete links l.toNat)
          (linksAt layers l.toNat x) q) := by
    intro l x q links hne hx hq hlinks hdel
    obtain ⟨node, hnode, hrep⟩ := fillGaps_repaired hwt hok.length_le h hlinks hdel
    rw [copies_of_get? hnode]
    exact hrep.once_iff (hone l.toNat x q hne hx hq)
  constructor
  · intro hall l x q links hne hx hq hlinks hdel
    exact (hrepaired hne hx hq hlinks hdel).mp (hall l.toNat x q hne hx hq)
  · intro hall l x q hne hx hq
    cases hget : layers'.get? l x with
    | none => rw [copies_of_none hget]; exact Nat.zero_le 1
    | some node =>
      have hlt : l < 256 := (Layers.lt_length_of_get? hget).trans_le
        (fillGaps_spec hwt hdisk hown hok h).1.length_le
      obtain ⟨k, rfl⟩ : ∃ k : LayerId, k.toNat = l :=
        ⟨l.toUInt8, by rw [UInt8.toNat_ofNat']; exact Nat.mod_eq_of_lt hlt⟩
      by_cases hstored : ∀ links, disk lmdb k.toNat x = some links → x ∈ toDelete
      · rw [copies_congr (fillGaps_untouched hwt hok.length_le h hstored)]
        exact hone k.toNat x q hne hx hq
      · push Not at hstored
        obtain ⟨links, hlinks, hdel⟩ := hstored
        exact (hrepaired hne hx hq hlinks hdel).mpr (hall k x q links hne hx hq hlinks hdel)

end repair

end Hannoy.Graph
