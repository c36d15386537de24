import Hannoy.Graph.Degree
import Hannoy.Graph.Repair

/-!
# Which nodes a build has at which layer (`hnsw.rs:122-216`)

An item is scheduled at its level. Inserting it enters it at that level and below, and nothing else
enters an item at a layer: the walks and the links of the other inserts only touch nodes that are
there, in memory or in the database, and the repair writes the surviving nodes of the database.

* `Scheduled`: an insert enters the item at the layer.
* `Entered`: the nodes that may have an entry; `entered_exec`: a request of an insert keeps to them.
* `inMemory_buildLayers`: the layers a build writes have exactly the scheduled nodes and the
  surviving nodes of the database, for any interleaving.
-/

namespace Hannoy.Graph

open Hannoy.Library Hannoy.Library.Server Hannoy.Library.Txn Hannoy.HnswBuilder

variable {D : Distance} {M M0 : Nat} {alpha : F32} {lmdb : FrozenReader} {options : BuildOption}
  {env : Environment} {toInsert toDelete : RoaringBitmap} {b b' : HnswBuilder M0}
  {levels : List (ItemId × Nat)} {layers layers' : Layers M0} {l : Nat} {x : ItemId}

/-- The item is inserted at the layer or above. -/
def Scheduled (levels : List (ItemId × Nat)) (l : Nat) (x : ItemId) : Prop :=
  ∃ p ∈ levels, p.1 = x ∧ l ≤ p.2

/-- Every entry is of a stored node or of a scheduled one. -/
def Entered (lmdb : FrozenReader) (levels : List (ItemId × Nat)) (layers : Layers M0) : Prop :=
  ∀ l x, InMemory layers l x → (∃ s, disk lmdb l x = some s) ∨ Scheduled levels l x

/-! ## The requests of an insert -/

/-- The request enters scheduled nodes only. -/
def Raises (levels : List (ItemId × Nat)) : Request M0 → Prop
  | .getOrInsert l x _ => Scheduled levels l x
  | _ => True

theorem issues_addInLayersBelow {P : Request M0 → Prop} {item : ItemId} {level : Nat}
    (henter : ∀ k ≤ level, ∀ st, P (.getOrInsert k item st)) :
    (addInLayersBelow M0 item level).Issues P := by
  have hlayers : ∀ ks : List Nat, (∀ k ∈ ks, k ≤ level) → (addInLayers M0 item ks).Issues P := by
    intro ks
    induction ks with
    | nil => exact fun _ => trivial
    | cons k ks ih =>
      intro hks
      obtain ⟨hk, hks⟩ := List.forall_mem_cons.mp hks
      refine ⟨henter k hk _, fun reply => ?_⟩
      cases reply with
      | noLayer => trivial
      | _ => exact ih hks
  exact hlayers _ fun k hk => Nat.le_of_lt_succ (List.mem_range.mp hk)

/-- An insert walks, enters its item at its layers, and links. -/
theorem issues_insertTask_of_walks {P : Request M0 → Prop} {n : Nat} {item : ItemId} {level : Nat}
    (hwalk : ∀ r, Walks r → P r) (henter : ∀ k ≤ level, ∀ st, P (.getOrInsert k item st))
    (hlink : ∀ l y q, P (.updateOrInsertWith l y q)) :
    (insertTask D M options env lmdb b n item level).Issues P := by
  have hadd : ∀ y q l, (addLink M0 y q l).Issues P := fun y q l => by
    unfold addLink
    split_ifs
    · trivial
    · exact ⟨hlink l y q, fun reply => by cases reply <;> trivial⟩
  unfold insertTask
  split_ifs
  · trivial
  · trivial
  · refine (issues_ofExcept _).bind fun q => ?_
    refine (issues_foldlM (fun k _ eps => walks_greedyLayer.mono hwalk) _).bind fun eps => ?_
    refine (issues_addInLayersBelow henter).bind fun _ => ?_
    refine (issues_foldlM (fun k _ eps => ?_) _).bind fun _ => trivial
    refine (walks_walkLayer.mono hwalk).bind fun neighbours => (issues_ofExcept _).bind
      fun selected => issues_foldlM (fun s _ eps => ?_) _
    exact (hadd _ _ _).bind fun _ => (hadd _ _ _).bind fun _ => (trivial : (Prog.ret _).Issues _)

theorem Walks.raises : ∀ r : Request M0, Walks r → Raises levels r
  | .get _ _, _ => trivial
  | .insert _ _ _, _ => trivial

theorem raises_insertTask {n : Nat} {p : ItemId × Nat} (hp : p ∈ levels) :
    (insertTask D M options env lmdb b n p.1 p.2).Issues (Raises levels) :=
  issues_insertTask_of_walks Walks.raises (fun _ hk _ => ⟨p, hp, rfl, hk⟩) fun _ _ _ => trivial

/-- A request at a node that is present or scheduled. -/
theorem entered_write {r : Request M0} (h : Entered lmdb levels layers)
    (hr : Present lmdb layers r.level r.item ∨ Scheduled levels r.level r.item) :
    Entered lmdb levels (exec D M alpha lmdb r layers).2 := by
  intro l x hx
  rcases exec_cases D M alpha lmdb r layers with heq | ⟨node, hlt, -, heq⟩
  · exact h l x (heq ▸ hx)
  · rw [heq, inMemory_insert hlt] at hx
    rcases hx with ⟨rfl, rfl⟩ | hx
    · rcases hr with ⟨-, hm | hd⟩ | hr
      · exact h _ _ hm
      · exact Or.inl hd
      · exact Or.inr hr
    · exact h l x hx

/-- **A request of an insert enters no other node.** -/
theorem entered_exec {r : Request M0} (hr : Allowed lmdb r layers) (hraise : Raises levels r)
    (h : Entered lmdb levels layers) : Entered lmdb levels (exec D M alpha lmdb r layers).2 := by
  cases r with
  | get l x => rwa [exec_get]
  | insert l x st => exact entered_write h (Or.inl hr.1)
  | getOrInsert l x st => exact entered_write h (Or.inr hraise)
  | updateOrInsertWith l x q => exact entered_write h (Or.inl hr.1)

/-! ## The phases of a build -/

theorem entered_replicate (n : Nat) : Entered lmdb levels (List.replicate n ∅ : Layers M0) := by
  rintro l x ⟨st, hst⟩
  rw [← List.nil_append (List.replicate n ∅), get?_append_replicate] at hst
  cases hst

/-- Level groups, one after the other. -/
theorem entered_insertGroups (hdisk : DiskOk lmdb) :
    ∀ {groups : List (List (ItemId × Nat))} {n g : Nat} {layers layers' : Layers M0},
      LayersOk lmdb layers → layers.length = b.maxLevel + 1 →
      AllPresent lmdb b.maxLevel b.entryPoints layers →
      (∀ grp ∈ groups, ∀ p ∈ grp, p ∈ levels ∧ p.2 ≤ b.maxLevel) → Entered lmdb levels layers →
      insertGroups D M options env lmdb b n g groups layers = .ok layers' →
      Entered lmdb levels layers'
  | [], _, _, _, _, _, _, _, _, h, hins => by
    cases hins
    exact h
  | grp :: groups, n, g, layers, layers', hok, hlen, heps, hlevel, h, hins => by
    obtain ⟨mid, hgrp, hins⟩ := ok_bind_iff.mp hins
    obtain ⟨hhead, hrest⟩ := List.forall_mem_cons.mp hlevel
    obtain ⟨hmid, hgrow, -⟩ :=
      insertGroup_spec hdisk hok hlen heps (fun p hp => (hhead p hp).2) hgrp
    have hsafe : AllSafe (protocol D M M0 options.alpha lmdb) (fun _ _ _ => True)
        ⟨layers, (grp.zipIdx n).map fun p =>
          insertTask D M options env lmdb b p.2 p.1.1 p.1.2⟩ := by
      intro i task htask
      obtain ⟨e, he, rfl⟩ := List.mem_map.mp (List.mem_of_getElem? htask)
      exact (safe_insertTask hdisk hok hlen (hhead _ (List.fst_mem_of_mem_zipIdx he)).2 heps).mono
        fun _ _ _ _ => trivial
    have hmid' : Entered lmdb levels mid := by
      refine interleave_keeps (fun r s => entered_exec) hgrp hok hsafe (fun task htask => ?_) h
      obtain ⟨e, he, rfl⟩ := List.mem_map.mp htask
      exact raises_insertTask (hhead _ (List.fst_mem_of_mem_zipIdx he)).1
    exact entered_insertGroups hdisk hmid (hgrow.1.trans hlen) (heps.grows hgrow) hrest hmid' hins

theorem sorted_scheduleLevels {newEps : RoaringBitmap} {top : Nat} :
    (scheduleLevels env levels newEps top).Pairwise fun a b => b.2 ≤ a.2 :=
  env.schedule.order_sorted _

/-- Before the repair. -/
theorem entered_inserted (hin : BuildInput lmdb toInsert toDelete b)
    {b₁ : HnswBuilder M0}
    (hprep : prepareLevelsAndEntryPoints D M options env lmdb b (drawnLevels env toInsert)
      (((drawnLevels env toInsert).map Prod.snd).foldl max 0) toDelete = .ok (levels, b₁))
    (hins : insertGroups D M options env lmdb b₁ 0 0 (levelGroups levels) b₁.layers = .ok layers) :
    Entered lmdb levels layers := by
  have hout := prepare_spec hin.disk (prepareInput_of_buildInput env hin) hprep
  have hgroups : ∀ grp ∈ levelGroups levels, ∀ p ∈ grp, p ∈ levels := fun grp hgrp p hp => by
    have hflat := List.mem_flatten.mpr ⟨grp, hgrp, hp⟩
    rwa [levelGroups, List.flatten_splitBy] at hflat
  obtain ⟨newEps, -, rfl, hraise⟩ := prepare_ok hprep
  obtain ⟨-, -, hrun⟩ := raise_ok hraise
  rw [hin.layers, List.nil_append] at hrun
  -- the items of the upper layer are entered first
  have hupper : Entered lmdb (scheduleLevels env (drawnLevels env toInsert) newEps
      (resetMaxLevel b toDelete newEps)) b₁.layers := by
    have hwrite : ∀ (r : Request M0) s, Scheduled (scheduleLevels env (drawnLevels env toInsert)
        newEps (resetMaxLevel b toDelete newEps)) r.level r.item → Entered lmdb _ s →
          Entered lmdb _ (exec D M options.alpha lmdb r s).2 :=
      fun r s hr hs => entered_write hs (Or.inr hr)
    refine Prog.run_invariant hwrite (issues_foldlM (fun p hp _ =>
      issues_addInLayersBelow fun k hk _ => ?_) _) hrun (entered_replicate _)
    obtain ⟨hp, hl⟩ := (mem_upperLayer sorted_scheduleLevels hout.bounded).mp hp
    exact ⟨p, hp, rfl, hl ▸ hk⟩
  refine entered_insertGroups hin.disk hout.layersOk hout.length
    (fun ep hep => ⟨(hout.entryPoints ep hep).1, Or.inl ((hout.entryPoints ep hep).2 _ le_rfl)⟩)
    (fun grp hgrp p hp => ?_) hupper hins
  have hp := hgroups grp hgrp p hp
  exact ⟨hp, hout.bounded p hp⟩

theorem scheduled_iff {newEps : RoaringBitmap} {top : Nat} :
    Scheduled (scheduleLevels env (drawnLevels env toInsert) newEps top) l x ↔
      (x ∈ toInsert ∧ l ≤ env.schedule.level x) ∨ (x ∈ newEps ∧ l ≤ top) := by
  constructor
  · rintro ⟨p, hp, rfl, hl⟩
    rcases mem_scheduleLevels.mp hp with hp | ⟨hx, hp⟩
    · obtain ⟨hx, hp⟩ := mem_drawnLevels.mp hp
      exact Or.inl ⟨hx, hp ▸ hl⟩
    · exact Or.inr ⟨hx, hp ▸ hl⟩
  · rintro (⟨hx, hl⟩ | ⟨hx, hl⟩)
    · exact ⟨(x, env.schedule.level x),
        mem_scheduleLevels.mpr (Or.inl (mem_drawnLevels.mpr ⟨hx, rfl⟩)), rfl, hl⟩
    · exact ⟨(x, top), mem_scheduleLevels.mpr (Or.inr ⟨hx, rfl⟩), rfl, hl⟩

/-- The entry points are what is scheduled at the top. -/
theorem mem_entryPoints_raise {newEps : RoaringBitmap} {curMaxLevel maxLevel : Nat}
    (hsorted : levels.Pairwise fun a b => b.2 ≤ a.2)
    (hnew : ∀ y ∈ newEps, (y, maxLevel) ∈ levels)
    (hbound : ∀ p ∈ levels, p.2 ≤ max maxLevel curMaxLevel)
    (h : raiseEntryPoints D M options lmdb b levels curMaxLevel newEps maxLevel = .ok b') :
    x ∈ b'.entryPoints ↔ Scheduled levels b'.maxLevel x := by
  obtain ⟨hmax, heps, -⟩ := raise_ok h
  have hupper : ∀ p, p ∈ upperLayer levels b'.maxLevel ↔ p ∈ levels ∧ p.2 = b'.maxLevel :=
    fun p => mem_upperLayer hsorted (hmax ▸ hbound)
  rw [heps, mem_ascending, Finset.mem_union, List.mem_toFinset, List.mem_map]
  constructor
  · rintro (hx | ⟨p, hp, rfl⟩)
    · split_ifs at hx with hcase
      · exact absurd hx (Finset.notMem_empty x)
      · exact ⟨_, hnew x hx, rfl, by simp only; omega⟩
    · obtain ⟨hp, hl⟩ := (hupper p).mp hp
      exact ⟨p, hp, rfl, hl.ge⟩
  · rintro ⟨p, hp, rfl, hl⟩
    exact Or.inr ⟨p, (hupper p).mpr ⟨hp, (hmax ▸ hbound p hp).antisymm hl⟩, rfl⟩

/-- The height, the entry points and the nodes of a build whose reserve entry points are `newEps`,
of which those of the previous graph are inserted again at `top`. -/
structure Layered (env : Environment) (lmdb : FrozenReader)
    (toInsert toDelete newEps : RoaringBitmap) (top : Nat) (b' : HnswBuilder M0) : Prop where
  maxLevel : b'.maxLevel = max top (((drawnLevels env toInsert).map Prod.snd).foldl max 0)
  entryPoints : ∀ x, x ∈ b'.entryPoints ↔
    (x ∈ toInsert ∧ b'.maxLevel ≤ env.schedule.level x) ∨ (x ∈ newEps ∧ b'.maxLevel ≤ top)
  nodes : ∀ (l : LayerId) x, InMemory b'.layers l.toNat x ↔
    (x ∉ toDelete ∧ ∃ s, disk lmdb l.toNat x = some s) ∨
      (x ∈ toInsert ∧ l.toNat ≤ env.schedule.level x) ∨ (x ∈ newEps ∧ l.toNat ≤ top)

/-- **The layers of a build hold the scheduled and the surviving nodes**, and no other. -/
theorem layered_buildLayers (hin : BuildInput lmdb toInsert toDelete b)
    (hgone : ∀ x ∈ toDelete, ¬ Live lmdb x)
    (h : buildLayers D M options env lmdb b toInsert toDelete = .ok b') :
    ∃ newEps, replaceDeleted lmdb toDelete b.maxLevel (b.entryPoints.toFinset ∩ toDelete).card
        (b.entryPoints.toFinset \ toDelete) = .ok newEps ∧
      Layered env lmdb toInsert toDelete newEps (resetMaxLevel b toDelete newEps) b' := by
  obtain ⟨levels, b₁, layers, hprep, hins, hfill, hmax, heps⟩ := buildLayers_ok h
  have hpin := prepareInput_of_buildInput env hin
  have hout := prepare_spec hin.disk hpin hprep
  obtain ⟨hok, -, hmem⟩ := layersOk_inserted hin hprep hins
  obtain ⟨hlinked, -, hgrow, hkept, -⟩ :=
    fillGaps_spec hin.wellTyped hin.disk hin.owners hok.toLinked hfill
  obtain ⟨newEps, hrep, rfl, hraise⟩ := prepare_ok hprep
  have hbound := hout.bounded
  rw [(raise_ok hraise).1] at hbound
  refine ⟨newEps, hrep, hmax.trans (raise_ok hraise).1, fun x => ?_, fun l x => ?_⟩
  · rw [heps, mem_entryPoints_raise sorted_scheduleLevels
      (fun y hy => mem_scheduleLevels.mpr (Or.inr ⟨hy, rfl⟩)) hbound hraise, scheduled_iff, hmax]
  · rw [← scheduled_iff]
    constructor
    · rintro ⟨st, hst⟩
      have hd : x ∉ toDelete := fun hd => hgone x hd (hlinked.live hst)
      by_cases hdisk : ∃ s, disk lmdb l.toNat x = some s
      · exact Or.inl ⟨hd, hdisk⟩
      · rw [fillGaps_untouched hin.wellTyped hok.length_le hfill
          fun s hs => absurd ⟨s, hs⟩ hdisk] at hst
        exact ((entered_inserted hin hprep hins) _ _ ⟨st, hst⟩).imp (absurd · hdisk) id
    · rintro (⟨hd, s, hs⟩ | ⟨p, hp, rfl, hl⟩)
      · exact hkept l x s hs hd
      · exact hgrow _ _ (hmem p hp _ hl)

end Hannoy.Graph
