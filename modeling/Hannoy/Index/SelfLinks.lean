import Hannoy.Index.Run

/-!
# Self links

Inserting never links a node to itself. The repair of deleted neighbours can: it merges the links
of a deleted neighbour into those of a node, and links are mostly mutual.

* `MeetsRepair`: the runs in whose builds no surviving node has a deleted neighbour that links
  back to it.
* `noSelfLinks_of_run`: no state of such a run has a self link.
* `self_link_after_delete`: deleting one of two items leaves the other linked to itself.
-/

namespace Hannoy.Index

open Hannoy.Library Hannoy.Library.Txn Hannoy.Writer Hannoy.Graph

variable {D : Distance} {i : UInt16} {db db' db₀ : Database} {w : Writer}
  {options : BuildOption}

/-- No stored links of the index contain their own node. -/
def NoSelfLinks (i : UInt16) (db : Database) : Prop :=
  ∀ x l s, db.links? i x l = some s → x ∉ s

/-- No surviving node has, at some layer, a deleted neighbour that links back to it. -/
def NoDeletedBackLink (i : UInt16) (db : Database) : Prop :=
  ∀ x l s d t, db.links? i x l = some s → db.stone? i x ≠ some .removed → d ∈ s →
    db.stone? i d = some .removed → db.links? i d l = some t → x ∉ t

/-- A check of `NoDeletedBackLink`. -/
def checkDeletedBackLink (i : UInt16) (db : Database) : Bool :=
  (db.prefixIter (Prefix.links i)).all fun e =>
    match e.2 with
    | .node (.links s) =>
      db.stone? i e.1.node.item = some .removed || (ascending s).all fun d =>
        db.stone? i d ≠ some .removed ||
          match db.links? i d e.1.node.layer with
          | some t => e.1.node.item ∉ t
          | none => true
    | _ => true

theorem noDeletedBackLink_of_check (h : checkDeletedBackLink i db = true) :
    NoDeletedBackLink i db := by
  intro x l s d t hs hx hd hdel ht
  have hk : db[Key.links i x l]? = some (.node (.links s)) := by
    unfold Database.links? at hs
    split at hs
    · rename_i hk
      cases hs
      exact hk
    · cases hs
  have hmem := (Database.mem_prefixIter (p := Prefix.links i)).mpr
    ⟨hk, rfl, fun m hm => by cases hm; rfl⟩
  have := List.all_eq_true.mp h _ hmem
  simp only [Key.links, Bool.or_eq_true, decide_eq_true_eq, hx, false_or] at this
  have := List.all_eq_true.mp this d (mem_ascending.mpr hd)
  simp only [hdel, ht, ne_eq, not_true_eq_false, decide_false, Bool.false_or] at this
  exact of_decide_eq_true this

/-- The layers a build repairs stay free of self links. -/
theorem noBackLinks_snapshot (hwt : db.WellTyped i) (hr : options.relinkAllItems = false)
    (hself : NoSelfLinks i db) (hback : NoDeletedBackLink i db) :
    NoBackLinks (snapshot options i db) (buildSets options i db).toDelete := by
  intro l x s hs hx hmem
  rw [disk_snapshot] at hs
  rw [mem_toDelete hwt hr] at hx
  obtain ⟨-, h | ⟨d, hd, hdel, t, ht, hxt⟩⟩ := mem_mergedLinks.mp hmem
  · exact hself x l s hs h
  · rw [mem_toDelete hwt hr] at hdel
    rw [disk_snapshot] at ht
    exact hback x l s d t hs hx hd hdel ht hxt

/-- A build whose layers have no self link leaves none. -/
theorem noSelfLinks_done {M0 : Nat} {b : HnswBuilder M0} (hready : Ready options w.index db)
    (h : BuildDone D w options b db db')
    (hback : NoBackLinks (snapshot options w.index db) (buildSets options w.index db).toDelete) :
    NoSelfLinks w.index db' := by
  intro x l s hs hx
  obtain ⟨node, hnode, rfl⟩ := (links?_done hready h).mp hs
  exact h.layers.irrefl hback hnode (List.mem_toFinset.mp hx)

/-- What a step asks of the state it starts in: the repair of a build brings no node back to
itself. -/
def Op.MeetsRepair (i : UInt16) (db : Database) : Op → Prop
  | .build _ _ _ _ => NoDeletedBackLink i db
  | _ => True

theorem Step.noSelfLinks {op : Op} (h : Step D w op db db') (hc : Consistent w.index db)
    (hself : NoSelfLinks w.index db) (hop : op.MeetsRepair w.index db) :
    NoSelfLinks w.index db' := by
  cases h with
  | addItem h =>
    obtain ⟨-, hmark⟩ := addItem_marks h
    intro x l s hs
    exact hself x l s (hmark.links x l ▸ hs)
  | delItem h =>
    obtain ⟨-, hmark⟩ := delItem_marks hc.typed h
    split_ifs at hmark with hb
    · intro x l s hs
      exact hself x l s (hmark.links x l ▸ hs)
    · rw [hmark]
      exact hself
  | clear h =>
    intro x l s hs
    rw [Database.links?, clear_noEntries h _ rfl] at hs
    cases hs
  | build hr h =>
    have hready := ready_of_consistent hc hr
    obtain ⟨b, hdone⟩ := hready.build_done h
    exact noSelfLinks_done hready hdone (noBackLinks_snapshot hc.typed hr hself hop)
  | forceRebuild hs h =>
    rename_i M M0 env opts u
    obtain ⟨m, hm, hb⟩ := forceRebuild_ok h
    have hready := ready_dropLinks { opts with relinkAllItems := true } hc
      (stone?_of_prefixIter_nil hs) rfl hm
    obtain ⟨b, hdone⟩ := hready.build_done hb
    refine noSelfLinks_done hready hdone fun {l x s} hs => ?_
    rw [disk_snapshot, links?_dropLinks hc hm] at hs
    cases hs

/-- A run all of whose steps meet `MeetsRepair`. -/
inductive RepairRun (D : Distance) (i : UInt16) (db₀ : Database) :
    List (Writer × Op) → Database → Prop
  | start : RepairRun D i db₀ [] db₀
  | step {w : Writer} {op : Op} {tr : List (Writer × Op)} {db db' : Database} (hw : w.index = i)
      (hrun : RepairRun D i db₀ tr db) (hop : op.MeetsRepair i db) (hstep : Step D w op db db') :
      RepairRun D i db₀ ((w, op) :: tr) db'

theorem RepairRun.run {tr : List (Writer × Op)} (h : RepairRun D i db₀ tr db) :
    Run D i db₀ tr db := by
  induction h with
  | start => exact .start
  | step hw _ _ hstep ih => exact .step hw ih hstep

/-- **No self link**: in a run whose builds meet no deleted neighbour that links back, no state
has a self link. -/
theorem noSelfLinks_of_run (h₀ : NoEntries i db₀) {tr : List (Writer × Op)}
    (h : RepairRun D i db₀ tr db) : NoSelfLinks i db := by
  induction h with
  | start =>
    intro x l s hs
    rw [Database.links?, h₀ _ rfl] at hs
    cases hs
  | step hw hrun hop hstep ih =>
    subst hw
    exact hstep.noSelfLinks (hrun.run.consistent h₀) ih hop

/-- A check of `Op.MeetsRepair`. -/
def Op.checkRepair (i : UInt16) (db : Database) : Op → Bool
  | .build _ _ _ _ => checkDeletedBackLink i db
  | _ => true

theorem Op.meetsRepair_of_check : ∀ {op : Op}, op.checkRepair i db = true → op.MeetsRepair i db
  | .build _ _ _ _, h => noDeletedBackLink_of_check h
  | .addItem _ _, _ => trivial
  | .delItem _, _ => trivial
  | .clear, _ => trivial
  | .forceRebuild _ _ _ _, _ => trivial

/-- Run operations and check that the builds meet `MeetsRepair`. -/
def playRepair (D : Distance) (db₀ : Database) : List (Writer × Op) → Option Database
  | [] => some db₀
  | (w, op) :: tr => (playRepair D db₀ tr).bind fun db =>
    if op.checkRepair w.index db then op.apply D w db else none

theorem RepairRun.of_playRepair : ∀ {tr : List (Writer × Op)} {db : Database},
    (∀ e ∈ tr, e.1.index = i) → playRepair D db₀ tr = some db → RepairRun D i db₀ tr db
  | [], _, _, h => by
    cases h
    exact .start
  | (w, op) :: tr, db, hi, h => by
    obtain ⟨db₁, h₁, h⟩ := Option.bind_eq_some_iff.mp h
    have hw : w.index = i := hi _ List.mem_cons_self
    split_ifs at h with hcheck
    rw [hw] at hcheck
    exact .step hw (RepairRun.of_playRepair (fun e he => hi e (List.mem_cons_of_mem _ he)) h₁)
      (Op.meetsRepair_of_check hcheck) (Step.of_apply h)

/-- Items 0, 1, 2, 3, 4 at 3, 1, 0, 2, 4. The list of item 1 is full when item 3 comes, which links
to it. Items 1 and 2 are deleted. -/
def deleteOneWay : List (Writer × Op) :=
  let build := Op.build 2 2 .twoLevels BuildOption.default
  [build, .delItem 2, .delItem 1, build, .addItem 4 [⟨0x40800000⟩], .addItem 3 [⟨0x40000000⟩],
    .addItem 2 [F32.zero], .addItem 1 [F32.one], .addItem 0 [⟨0x40400000⟩]].map (⟨0, 1⟩, ·)

/-- Before the second build item 3 is linked to item 1, which does not link back. Item 3 is
repaired. -/
theorem noSelfLinks_deleteOneWay : ∃ before db,
    RepairRun manhattan 0 ∅ deleteOneWay.tail before ∧ before.stone? 0 1 = some .removed ∧
    before.links? 0 3 0 = some {0, 1} ∧ before.links? 0 1 0 = some {0, 2} ∧
    RepairRun manhattan 0 ∅ deleteOneWay db ∧ db.links? 0 3 0 = some {0} ∧ NoSelfLinks 0 db := by
  have h : ((playRepair manhattan ∅ deleteOneWay.tail).map fun db => (db.stone? 0 1,
      db.links? 0 3 0, db.links? 0 1 0)) = some (some .removed, some {0, 1}, some {0, 2}) := by
    decide +kernel
  have h' : (playRepair manhattan ∅ deleteOneWay).map (fun db => db.links? 0 3 0) =
      some (some {0}) := by
    decide +kernel
  obtain ⟨before, hbefore, h⟩ := Option.map_eq_some_iff.mp h
  obtain ⟨db, hdb, hlinks⟩ := Option.map_eq_some_iff.mp h'
  simp only [Prod.mk.injEq] at h
  obtain ⟨hstone, hthree, hone⟩ := h
  have hrun : RepairRun manhattan 0 ∅ deleteOneWay db := RepairRun.of_playRepair (by decide) hdb
  exact ⟨before, db, RepairRun.of_playRepair (by decide) hbefore, hstone, hthree, hone, hrun,
    hlinks, noSelfLinks_of_run noEntries_empty hrun⟩

/-- Two items are added and built, one is deleted, and the index is built again. -/
def deleteOneOfTwo : List (Writer × Op) :=
  let build := Op.build 2 2 .oneLevel BuildOption.default
  [build, .delItem 1, build, .addItem 1 [F32.one], .addItem 0 [F32.zero]].map (⟨0, 1⟩, ·)

/-- The surviving item links to itself. -/
theorem self_link_after_delete :
    ∃ db, Run manhattan 0 ∅ deleteOneOfTwo db ∧ db.links? 0 0 0 = some {0} := by
  have h : (play manhattan ∅ deleteOneOfTwo).map (fun db => db.links? 0 0 0) = some (some {0}) := by
    decide +kernel
  obtain ⟨db, hdb, hlinks⟩ := Option.map_eq_some_iff.mp h
  exact ⟨db, Run.of_play (by decide) hdb, hlinks⟩

end Hannoy.Index
