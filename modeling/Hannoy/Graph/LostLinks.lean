import Hannoy.Graph.Degree
import Hannoy.Index.Run

/-!
# Concurrent inserts (`hnsw.rs:172-185, 428-456, 523-560`)

The inserts of a level group share the layers. `add_link` updates an entry in one request, but
`get_neighbours` looks an entry up and, when there is none, inserts an empty one in a second
request. What another insert added in between is lost.

* `Prunes`: the only way in which `add_link` drops links.
* `links_leave_by_prune`: in a run whose lists only shrink by pruning, a link leaves a list only
  through a pruning `add_link` on it.
* `run_of_insertGroup` and `insertGroup_of_run`: what a build does with a level group is a run of
  its tasks, and every such run is what a build does under some schedule.
* `linksKept_iff`: the lists of a run only shrink by pruning exactly when every empty entry that
  `get_neighbours` inserts finds no links in its place.
* `link_lost_in_race`: two inserts of one level group, and a link that is lost.
-/

namespace Hannoy.Graph

open Hannoy.Library Hannoy.Library.Server Hannoy.HnswBuilder
open Hannoy.Layers (linksAt)

variable {D : Distance} {M M0 : Nat} {alpha : F32} {lmdb : FrozenReader}
  {options : BuildOption} {env : Environment}

/-! ## What one request does to a list -/

/-- The request is an `add_link` on the node, whose list is full and pruned. -/
def Prunes (M : Nat) (e : Event (Request M0) (Layers M0)) (l : Nat) (x : ItemId) : Prop :=
  (∃ q, e.req = .updateOrInsertWith l x q) ∧ linkCap M M0 l ≤ (linksAt e.before l x).length

/-- Lists only shrink by pruning: any other request leaves a list as it is or appends to it. -/
def LinksKept (M : Nat) (tr : List (Event (Request M0) (Layers M0))) : Prop :=
  ∀ e ∈ tr, ∀ l x, linksAt e.before l x <+: linksAt e.after l x ∨ Prunes M e l x

/-- A request that inserts an entry inserts an empty one. -/
def InsertsEmpty : Request M0 → Prop
  | .insert _ _ st => st = NodeState.empty
  | _ => True

/-- An entry is inserted where there are no links. -/
def FindsNoLinks (e : Event (Request M0) (Layers M0)) : Prop :=
  ∀ l x st, e.req = .insert l x st → linksAt e.before l x = []

/-- `add_link` on a list with room appends. -/
theorem prefix_addLinkUpdate {level : Nat} {q : ScoredLink} {node node' : NodeState M0}
    (h : addLinkUpdate D M alpha lmdb level q node = .ok node')
    (hroom : node.links.toList.length < linkCap M M0 level) :
    node.links.toList <+: node'.links.toList := by
  rcases addLinkUpdate_ok h with ⟨-, hlinks⟩ | ⟨hfull, -⟩
  · rw [hlinks]
    exact List.prefix_append _ _
  · exact absurd hroom hfull.not_gt

/-- **One request** appends to a list, prunes it, or inserts an entry over it. -/
theorem prefix_exec {e : Event (Request M0) (Layers M0)}
    (he : e.after = (exec D M alpha lmdb e.req e.before).2) (l : Nat) (x : ItemId) :
    linksAt e.before l x <+: linksAt e.after l x ∨ Prunes M e l x ∨
      ∃ st, e.req = .insert l x st := by
  obtain ⟨i, r, before, after⟩ := e
  simp only at he
  subst he
  rcases get?_exec D M alpha lmdb r before l x with
    h | ⟨node', rfl, rfl, hw, h⟩
  · left
    rw [Layers.linksAt_congr h]
  · generalize hold : before.get? r.level r.item = old at hw
    cases hw with
    | insert => exact Or.inr (Or.inr ⟨node', rfl⟩)
    | getOrInsert l x st =>
      left
      rw [Layers.linksAt_of_none hold]
      exact List.nil_prefix
    | update x hup =>
      rename_i l q node
      by_cases hroom : node.links.toList.length < linkCap M M0 l
      · left
        rw [Layers.linksAt_of_get? hold, Layers.linksAt_of_get? h]
        exact prefix_addLinkUpdate hup hroom
      · right; left
        refine ⟨⟨q, rfl⟩, ?_⟩
        rw [Layers.linksAt_of_get? hold]
        exact Nat.le_of_not_lt hroom
    | create l x hup =>
      left
      rw [Layers.linksAt_of_none hold]
      exact List.nil_prefix

/-- Inserting an empty entry empties the list. -/
theorem linksAt_exec_insert {layers : Layers M0} {l : Nat} {x : ItemId} :
    linksAt (exec D M alpha lmdb (.insert l x NodeState.empty) layers).2 l x = [] := by
  unfold exec
  cases hmap : layers[l]? with
  | none => simp [Request.level, hmap, linksAt, Layers.get?]
  | some map =>
    have hlt : l < layers.length := (List.getElem?_eq_some_iff.mp hmap).1
    simp [Request.level, hmap, linksAt, Layers.get?_insert hlt, NodeState.empty]

/-! ## Runs -/

/-- **A link leaves a list through a prune only**, in a run that keeps its lists. -/
theorem links_leave_by_prune {c c' : Config (Request M0) (Reply M0) Failure (Layers M0) Unit}
    {tr : List (Event (Request M0) (Layers M0))} (h : Run (exec D M alpha lmdb) c tr c')
    (hkept : LinksKept M tr) {l : Nat} {x : ItemId} {q : ScoredLink}
    (hq : q ∈ linksAt c.state l x) (hgone : q ∉ linksAt c'.state l x) :
    ∃ e ∈ tr, q ∈ linksAt e.before l x ∧ q ∉ linksAt e.after l x ∧ Prunes M e l x := by
  induction h with
  | nil c => exact absurd hq hgone
  | cons hs hr ih =>
    rename_i c c₁ c₂ e tr
    obtain ⟨hbefore, hafter, -⟩ := hs.spec
    by_cases hq₁ : q ∈ linksAt c₁.state l x
    · obtain ⟨e', he', hprune⟩ := ih (fun e' he' => hkept e' (List.mem_cons_of_mem _ he')) hq₁
        hgone
      exact ⟨e', List.mem_cons_of_mem _ he', hprune⟩
    · rw [← hbefore] at hq
      rw [← hafter] at hq₁
      refine ⟨e, List.mem_cons_self, hq, hq₁, ?_⟩
      exact (hkept e List.mem_cons_self l x).resolve_left fun hpre => hq₁ (hpre.subset hq)

/-- An insert that empties a list does not keep it. -/
theorem eq_nil_of_linksKept {tr : List (Event (Request M0) (Layers M0))} (h : LinksKept M tr)
    {e : Event (Request M0) (Layers M0)} (he : e ∈ tr) {l : Nat} {x : ItemId} {st : NodeState M0}
    (hreq : e.req = .insert l x st) (hafter : linksAt e.after l x = []) :
    linksAt e.before l x = [] := by
  rcases h e he l x with hpre | ⟨⟨q, hq⟩, -⟩
  · rw [hafter] at hpre
    exact List.prefix_nil.mp hpre
  · rw [hreq] at hq
    cases hq

/-- A run whose clients insert empty entries only. -/
theorem linksKept_iff_of_insertsEmpty
    {c c' : Config (Request M0) (Reply M0) Failure (Layers M0) Unit}
    {tr : List (Event (Request M0) (Layers M0))} (h : Run (exec D M alpha lmdb) c tr c')
    (hc : ∀ p ∈ c.clients, p.Issues InsertsEmpty) :
    LinksKept M tr ↔ ∀ e ∈ tr, FindsNoLinks e := by
  constructor
  · intro hkept e he l x st hreq
    have hempty : st = NodeState.empty := by
      have := h.issued hc e he
      rw [hreq] at this
      exact this
    refine eq_nil_of_linksKept hkept he hreq ?_
    rw [h.served e he, hreq, hempty]
    exact linksAt_exec_insert
  · intro hfinds e he l x
    rcases prefix_exec (h.served e he) l x with hpre | hprune | ⟨st, hreq⟩
    · exact Or.inl hpre
    · exact Or.inr hprune
    · left
      rw [hfinds e he l x st hreq]
      exact List.nil_prefix

/-- **The task of an insert** inserts empty entries only. -/
theorem issues_insertTask {b : HnswBuilder M0} {n : Nat} {item : ItemId} {level : Nat} :
    (insertTask D M options env lmdb b n item level).Issues InsertsEmpty := by
  refine modest_insertTask.mono fun r hr => ?_
  cases r with
  | insert l x st => exact hr
  | _ => trivial

/-! ## Level groups -/

/-- The clients of a level group. -/
def groupTasks (D : Distance) (M : Nat) (options : BuildOption) (env : Environment)
    (lmdb : FrozenReader) (b : HnswBuilder M0) (n : Nat) (grp : List (ItemId × Nat)) :
    List (Client M0 Unit) :=
  (grp.zipIdx n).map fun p => insertTask D M options env lmdb b p.2 p.1.1 p.1.2

/-- A level group that is inserted is a run of its tasks. -/
theorem run_of_insertGroup {b : HnswBuilder M0} {n g : Nat} {grp : List (ItemId × Nat)}
    {layers layers' : Layers M0}
    (h : insertGroup D M options env lmdb b n g grp layers = .ok layers') :
    ∃ (tr : List (Event (Request M0) (Layers M0))) (values : List Unit),
      Run (exec D M options.alpha lmdb)
        ⟨layers, groupTasks D M options env lmdb b n grp⟩ tr ⟨layers', values.map .ret⟩ :=
  interleave_run h

/-- **Every run of the tasks of a level group** that ends is the insertion of the group under some
schedule. -/
theorem insertGroup_of_run {b : HnswBuilder M0} {n g : Nat} {grp : List (ItemId × Nat)}
    {layers layers' : Layers M0} {tr : List (Event (Request M0) (Layers M0))} {values : List Unit}
    (h : Run (exec D M options.alpha lmdb)
      ⟨layers, groupTasks D M options env lmdb b n grp⟩ tr ⟨layers', values.map .ret⟩)
    (hpicks : env.schedule.picks g = tr.map Event.client) :
    insertGroup D M options env lmdb b n g grp layers = .ok layers' := by
  rw [insertGroup, hpicks]
  exact h.interleave_eq

/-- **No link is lost** between the concurrent inserts of a level group exactly when every empty
entry that `get_neighbours` inserts finds no links in its place. -/
theorem linksKept_iff {b : HnswBuilder M0} {n : Nat} {grp : List (ItemId × Nat)}
    {layers : Layers M0} {tr : List (Event (Request M0) (Layers M0))}
    {c : Config (Request M0) (Reply M0) Failure (Layers M0) Unit}
    (h : Run (exec D M options.alpha lmdb)
      ⟨layers, groupTasks D M options env lmdb b n grp⟩ tr c) :
    LinksKept M tr ↔ ∀ e ∈ tr, FindsNoLinks e := by
  refine linksKept_iff_of_insertsEmpty h fun p hp => ?_
  obtain ⟨x, -, rfl⟩ := List.mem_map.mp hp
  exact issues_insertTask

/-! ## A race -/

def raceOptions : BuildOption := { BuildOption.default with efConstruction := 1 }

/-- Items 0 and 1 are built, items 2 and 3 are added. -/
def raceHistory : List (Writer × Index.Op) :=
  [.addItem 3 [F32.one], .addItem 2 [F32.one], .build 2 2 .twoLevels raceOptions,
    .addItem 1 [F32.one], .addItem 0 [F32.zero]].map (⟨0, 1⟩, ·)

/-- Where the second level group of the next build starts: the snapshot, the builder, the group
and the layers. -/
def raceStart :
    Except Failure (FrozenReader × HnswBuilder 2 × List (ItemId × Nat) × Layers 2) := do
  let some db := Index.play manhattan ∅ raceHistory | throw (.err .heed)
  let sets := Index.buildSets raceOptions 0 db
  let lmdb := Index.snapshot raceOptions 0 db
  let (levels, b) ← prepareLevelsAndEntryPoints manhattan 2 raceOptions .twoLevels lmdb
    (Index.builderOf 2 0 lmdb.db) (drawnLevels .twoLevels sets.toInsert) 0 sets.toDelete
  match levelGroups levels with
  | [upper, grp] => do
    let layers ← insertGroup manhattan 2 raceOptions .twoLevels lmdb b 0 0 upper b.layers
    pure (lmdb, b, grp, layers)
  | _ => throw (.panic .unreachable)

/-- The trace of the group along a list of choices. -/
def raceTrace (picks : List Nat) (lmdb : FrozenReader) (b : HnswBuilder 2)
    (grp : List (ItemId × Nat)) (layers : Layers 2) : List (Event (Request 2) (Layers 2)) :=
  trace (exec manhattan 2 raceOptions.alpha lmdb) picks
    ⟨layers, groupTasks manhattan 2 raceOptions .twoLevels lmdb b 1 grp⟩

/-- One insert after the other keeps the links. -/
theorem linksKept_in_turn : ∃ lmdb b grp layers tr c,
    raceStart = .ok (lmdb, b, grp, layers) ∧ grp.length = 2 ∧
      Run (exec manhattan 2 raceOptions.alpha lmdb)
        ⟨layers, groupTasks manhattan 2 raceOptions .twoLevels lmdb b 1 grp⟩ tr c ∧
      LinksKept 2 tr := by
  have h : (raceStart.toOption.map fun (lmdb, b, grp, layers) => (grp.length,
      (raceTrace (List.replicate 7 0 ++ List.replicate 6 1) lmdb b grp layers).all fun e =>
        match e.req with
        | .insert l x _ => linksAt e.before l x = []
        | _ => true)) = some (2, true) := by decide +kernel
  obtain ⟨⟨lmdb, b, grp, layers⟩, hstart, h⟩ := Option.map_eq_some_iff.mp h
  obtain ⟨hlen, hall⟩ := Prod.mk.inj h
  have hrun := run_trace (exec manhattan 2 raceOptions.alpha lmdb)
    (List.replicate 7 0 ++ List.replicate 6 1)
    ⟨layers, groupTasks manhattan 2 raceOptions .twoLevels lmdb b 1 grp⟩
  refine ⟨lmdb, b, grp, layers, _, _, Txn.ok_of_toOption hstart, hlen, hrun,
    (linksKept_iff hrun).mpr fun e he l x st hreq => ?_⟩
  have := List.all_eq_true.mp hall e he
  rw [hreq] at this
  exact of_decide_eq_true this

/-- The first insert looks up node 1 and finds no entry; the second one links node 1 to its item;
then the first one inserts the empty entry over it. -/
theorem link_lost_in_race : ∃ lmdb b grp layers tr c,
    raceStart = .ok (lmdb, b, grp, layers) ∧
      Run (exec manhattan 2 raceOptions.alpha lmdb)
        ⟨layers, groupTasks manhattan 2 raceOptions .twoLevels lmdb b 1 grp⟩ tr c ∧
      ∃ e ∈ tr, e.req = .insert 0 1 NodeState.empty ∧
        (linksAt e.before 0 1).map Scored.id = [3] ∧ linksAt e.after 0 1 = [] ∧
        ¬ LinksKept 2 tr := by
  have h : (raceStart.toOption.map fun (lmdb, b, grp, layers) =>
      (raceTrace (List.replicate 4 0 ++ List.replicate 7 1 ++ [0]) lmdb b grp layers).any fun e =>
        e.req = .insert 0 1 NodeState.empty ∧
          (linksAt e.before 0 1).map Scored.id = [3] ∧ linksAt e.after 0 1 = []) = some true := by
    decide +kernel
  obtain ⟨⟨lmdb, b, grp, layers⟩, hstart, h⟩ := Option.map_eq_some_iff.mp h
  obtain ⟨e, he, hlost⟩ := List.any_eq_true.mp h
  obtain ⟨hreq, hbefore, hafter⟩ := of_decide_eq_true hlost
  refine ⟨lmdb, b, grp, layers, _, _, Txn.ok_of_toOption hstart, run_trace _ _ _, e, he, hreq,
    hbefore, hafter, fun hkept => ?_⟩
  rw [eq_nil_of_linksKept hkept he hreq hafter] at hbefore
  cases hbefore

end Hannoy.Graph
