import Hannoy.Graph.EntryPoints
import Hannoy.Graph.Hierarchy
import Hannoy.Index.EntryPoints
import Hannoy.Library.Simulation
import Mathlib.Order.Lattice.Nat

/-!
# The hierarchy of an index

What is known of the layers without their links: which nodes are on which layer, where a search
starts, and the updates the next build will take in. `Hierarchy` moves on its own, given the levels
drawn and the nodes that replace deleted entry points.

* `Depicts`: the entries of an index show the hierarchy. `hierarchy_simulated`: each operation of a
  writer moves the hierarchy.
* `hierarchy_of_run`: so every run of the code is one of the hierarchy, and has exactly its nodes.
* `Crowned`: the entry points are the nodes of the top layer. `crowned_of_run`: it holds as long as
  no build resets the height of a graph that survives.
-/

namespace Hannoy.Index

open Hannoy.Library Hannoy.Library.Txn Hannoy.Writer Hannoy.Graph Hannoy.HnswBuilder

variable {D : Distance} {w : Writer} {i : UInt16} {M M0 : Nat} {env : Environment}
  {options : BuildOption} {db db' db₀ : Database}

/-! ## Hierarchies -/

/-- The nodes of each layer, the entry points at the height, and the pending updates. -/
structure Hierarchy where
  layer : Nat → RoaringBitmap
  antitone : Antitone layer
  entryPoints : RoaringBitmap
  maxLevel : Nat
  /-- A search starts at nodes of the top layer. -/
  entry : entryPoints ⊆ layer maxLevel
  updated : RoaringBitmap
  removed : RoaringBitmap
  disjoint : Disjoint updated removed

namespace Hierarchy

/-- No node and no update. -/
def empty : Hierarchy :=
  ⟨fun _ => ∅, fun _ _ _ => le_rfl, ∅, 0, le_rfl, ∅, ∅, disjoint_bot_left⟩

/-- The items are stored that are marked as updated, or are in the graph and not marked. -/
def stored (H : Hierarchy) : RoaringBitmap := H.updated ∪ (H.layer 0 \ H.removed)

/-- `x` is added. -/
def addItem (H : Hierarchy) (x : ItemId) : Hierarchy :=
  { H with
    updated := insert x H.updated
    removed := H.removed.erase x
    disjoint := by
      rw [Finset.disjoint_insert_left]
      exact ⟨Finset.notMem_erase x _, H.disjoint.mono_right (Finset.erase_subset x _)⟩ }

/-- `x` is deleted. -/
def delItem (H : Hierarchy) (x : ItemId) : Hierarchy :=
  { H with
    updated := H.updated.erase x
    removed := insert x H.removed
    disjoint := by
      rw [Finset.disjoint_insert_right]
      exact ⟨Finset.notMem_erase x _, H.disjoint.mono_left (Finset.erase_subset x _)⟩ }

/-- What inserts enter at a layer: items at the levels drawn for them, and nodes of the previous
graph at its height. -/
def entered (level : ItemId → Nat) (inserted reserve : RoaringBitmap) (top l : Nat) :
    RoaringBitmap :=
  (inserted.filter fun x => l ≤ level x) ∪ reserve.filter fun _ => l ≤ top

/-- The hierarchy over the layers `old`. -/
def grown (old : Nat → RoaringBitmap) (hold : Antitone old) (level : ItemId → Nat)
    (inserted reserve : RoaringBitmap) (top : Nat) : Hierarchy where
  layer l := old l ∪ entered level inserted reserve top l
  antitone _ _ hkl := Finset.union_subset_union (hold hkl) <| Finset.union_subset_union
    (Finset.monotone_filter_right _ fun _ _ h => hkl.trans h)
    (Finset.monotone_filter_right _ fun _ _ h => hkl.trans h)
  entryPoints := entered level inserted reserve top (max top (inserted.sup level))
  maxLevel := max top (inserted.sup level)
  entry := Finset.subset_union_right
  updated := ∅
  removed := ∅
  disjoint := disjoint_bot_left

/-- The nodes that survive the next build. -/
def surviving (H : Hierarchy) (l : Nat) : RoaringBitmap := H.layer l \ H.removed

theorem surviving_antitone (H : Hierarchy) : Antitone H.surviving := fun _ _ h =>
  Finset.sdiff_subset_sdiff (H.antitone h) le_rfl

/-- The nodes that take over from the entry points: those that survive, and replacements for the
others. There is one too many for each layer where a survivor can be had that is no entry point. -/
structure Reserve (H : Hierarchy) (reserve : RoaringBitmap) : Prop where
  kept : H.entryPoints \ H.removed ⊆ reserve
  survive : reserve ⊆ H.surviving 0
  card : ∃ extra, reserve.card = min (H.entryPoints.card + extra) (H.surviving 0).card ∧
    (extra = 0 ↔ Disjoint H.entryPoints H.removed ∨ H.maxLevel = 0 ∨
      H.surviving 1 ⊆ H.entryPoints)

/-- The height the previous graph keeps: none, when an entry point was deleted and the number of
entry points changes. -/
def top (H : Hierarchy) (reserve : RoaringBitmap) : Nat :=
  if H.entryPoints ∩ H.removed ≠ ∅ ∧ reserve.card ≠ H.entryPoints.card then 0 else H.maxLevel

/-- What an operation does. -/
inductive Step : Hierarchy → Op → Hierarchy → Prop
  | addItem {H : Hierarchy} {x : ItemId} {v : List F32} : Step H (.addItem x v) (H.addItem x)
  | delItem {H : Hierarchy} {x : ItemId} (hx : x ∈ H.stored) : Step H (.delItem x) (H.delItem x)
  | delNothing {H : Hierarchy} {x : ItemId} (hx : x ∉ H.stored) : Step H (.delItem x) H
  | clear {H : Hierarchy} : Step H .clear empty
  | build {H : Hierarchy} {M M0 : Nat} {env : Environment} {options : BuildOption}
      {reserve : RoaringBitmap} (hr : H.Reserve reserve) :
      Step H (.build M M0 env options) (grown H.surviving H.surviving_antitone env.schedule.level
        H.updated reserve (H.top reserve))
  | forceRebuild {H : Hierarchy} {M M0 : Nat} {env : Environment} {options : BuildOption}
      (hu : H.updated = ∅) (hr : H.removed = ∅) :
      Step H (.forceRebuild M M0 env options) (grown (fun _ => ∅) (fun _ _ _ => le_rfl)
        env.schedule.level (H.layer 0) H.entryPoints H.maxLevel)

/-- A hierarchy from its first node on. -/
def system : System Hierarchy Op where
  init H := H = empty
  step := Step

end Hierarchy

open Hierarchy

/-! ## What the entries show -/

/-- The entries of the index show the hierarchy. -/
structure Depicts (i : UInt16) (db : Database) (H : Hierarchy) : Prop where
  consistent : Consistent i db
  layer : ∀ (l : LayerId) x, x ∈ H.layer l.toNat ↔ ∃ s, db.links? i x l = some s
  low : H.layer 256 = ∅
  updated : ∀ x, x ∈ H.updated ↔ db.stone? i x = some .updated
  removed : ∀ x, x ∈ H.removed ↔ db.stone? i x = some .removed
  built : ∀ {m}, db.metadata? i = some m →
    H.entryPoints = m.entryPoints.toFinset ∧ H.maxLevel = m.maxLevel.toNat
  unbuilt : db.metadata? i = none → H.entryPoints = ∅ ∧ H.maxLevel = 0

theorem depicts_empty (h : NoEntries i db) : Depicts i db empty := by
  have hnone : ∀ k : Key, k.index = i → db[k]? = none := h
  refine ⟨consistent_of_noEntries h, fun l x => ?_, rfl, fun x => ?_, fun x => ?_, fun hm => ?_,
    fun _ => ⟨rfl, rfl⟩⟩
  · simp [empty, Database.links?, hnone (Key.links i x l) rfl]
  · simp [empty, Database.stone?, hnone (Key.updated i x) rfl]
  · simp [empty, Database.stone?, hnone (Key.updated i x) rfl]
  · rw [Database.metadata?, hnone _ rfl] at hm
    cases hm

section depicts

variable {H : Hierarchy} (h : Depicts i db H)
include h

theorem Depicts.mem_stored (x : ItemId) : x ∈ H.stored ↔ (db.item? i x).isSome := by
  have hbase : x ∈ H.layer 0 ↔ x ∈ indexed i db :=
    (h.layer 0 x).trans ⟨fun ⟨_, hs⟩ => h.consistent.owner hs, h.consistent.base⟩
  rw [h.consistent.stored, stored, Finset.mem_union, Finset.mem_sdiff, h.updated, h.removed, hbase]
  cases db.stone? i x with
  | none => simp
  | some s => cases s <;> simp

/-- Marking an item moves the updates only. -/
theorem Depicts.mark {x : ItemId} {it : Option Item} {status : UpdateStatus}
    (hm : Marks i x it status db db') (hit : it.isSome ↔ status = .updated) {H' : Hierarchy}
    (hlayer : H'.layer = H.layer) (heps : H'.entryPoints = H.entryPoints)
    (hmax : H'.maxLevel = H.maxLevel)
    (hu : ∀ y, y ∈ H'.updated ↔ if y = x then status = .updated else y ∈ H.updated)
    (hr : ∀ y, y ∈ H'.removed ↔ if y = x then status = .removed else y ∈ H.removed) :
    Depicts i db' H' := by
  refine ⟨h.consistent.mark hm hit, fun l y => ?_, by rw [hlayer]; exact h.low, fun y => ?_,
    fun y => ?_, fun hm' => ?_, fun hm' => ?_⟩
  · rw [hlayer, hm.links]
    exact h.layer l y
  · rw [hu, hm.stone]
    split_ifs
    · simp
    · exact h.updated y
  · rw [hr, hm.stone]
    split_ifs
    · simp
    · exact h.removed y
  · rw [heps, hmax]
    exact h.built (hm.metadata ▸ hm')
  · rw [heps, hmax]
    exact h.unbuilt (hm.metadata ▸ hm')

theorem Depicts.addItem {x : ItemId} {v : List F32} {u : Unit} (hw : w.index = i)
    (hadd : w.addItem D x v db = .ok u db') : Depicts i db' (H.addItem x) := by
  subst hw
  obtain ⟨-, hm⟩ := addItem_marks hadd
  refine h.mark hm (by simp) rfl rfl rfl (fun y => ?_) fun y => ?_
  · by_cases hy : y = x <;> simp [Hierarchy.addItem, hy]
  · by_cases hy : y = x <;> simp [Hierarchy.addItem, hy]

theorem Depicts.delItem {x : ItemId} {existed : Bool} (hw : w.index = i)
    (hdel : w.delItem x db = .ok existed db') :
    ∃ H', Hierarchy.Step H (.delItem x) H' ∧ Depicts i db' H' := by
  subst hw
  obtain ⟨hb, hm⟩ := delItem_marks h.consistent.typed hdel
  have hstored := h.mem_stored x
  rw [← hb] at hstored
  split_ifs at hm with hex
  · refine ⟨_, .delItem (hstored.mpr hex),
      h.mark hm (by simp) rfl rfl rfl (fun y => ?_) fun y => ?_⟩
    · by_cases hy : y = x <;> simp [Hierarchy.delItem, hy]
    · by_cases hy : y = x <;> simp [Hierarchy.delItem, hy]
  · subst hm
    exact ⟨H, .delNothing (hstored.not.mpr hex), h⟩

end depicts

/-! ## Building -/

theorem mem_entered {level : ItemId → Nat} {inserted reserve : RoaringBitmap} {top l : Nat}
    {x : ItemId} : x ∈ entered level inserted reserve top l ↔
      (x ∈ inserted ∧ l ≤ level x) ∨ (x ∈ reserve ∧ l ≤ top) := by
  rw [entered, Finset.mem_union, Finset.mem_filter, Finset.mem_filter]

/-- The highest level drawn. -/
theorem foldl_max_drawn (inserted : RoaringBitmap) :
    ((drawnLevels env inserted).map Prod.snd).foldl max 0 = inserted.sup env.schedule.level := by
  refine le_antisymm ?_ (Finset.sup_le fun x hx => ?_)
  · by_cases hzero : ((drawnLevels env inserted).map Prod.snd).foldl max 0 = 0
    · rw [hzero]
      exact Nat.zero_le _
    · obtain ⟨p, hp, hl⟩ := highest_drawn hzero
      obtain ⟨hx, hp⟩ := mem_drawnLevels.mp hp
      rw [← hl, hp]
      exact Finset.le_sup hx
  · have hmem : (x, env.schedule.level x) ∈ drawnLevels env inserted :=
      mem_drawnLevels.mpr ⟨hx, rfl⟩
    exact level_le_drawn hmem

/-- **What a build leaves** over the layers `old` that survive it. -/
theorem depicts_grown {b : HnswBuilder M0} {newEps : RoaringBitmap} {top : Nat}
    (hready : Ready options w.index db) (hdone : BuildDone D w options b db db')
    (hl : Layered env (snapshot options w.index db) (buildSets options w.index db).toInsert
      (buildSets options w.index db).toDelete newEps top b) {old : Nat → RoaringBitmap}
    (hanti : Antitone old) (hlow : old 256 = ∅)
    (hold : ∀ (l : LayerId) x, x ∈ old l.toNat ↔
      x ∉ (buildSets options w.index db).toDelete ∧ ∃ s, db.links? w.index x l = some s) :
    Depicts w.index db' (grown old hanti env.schedule.level
      (buildSets options w.index db).toInsert newEps top) := by
  have hmax : b.maxLevel =
      max top ((buildSets options w.index db).toInsert.sup env.schedule.level) :=
    hl.maxLevel.trans (by rw [foldl_max_drawn])
  have hheight := hdone.layers.height
  have hstone := stone?_done hready hdone
  refine ⟨consistent_done hready hdone, fun l x => ?_, ?_, fun x => ?_, fun x => ?_, fun hm => ?_,
    fun hm => ?_⟩
  · have hnodes : (∃ s, db'.links? w.index x l = some s) ↔ InMemory b.layers l.toNat x :=
      ⟨fun ⟨s, hs⟩ => by
        obtain ⟨node, hnode, -⟩ := (links?_done hready hdone).mp hs
        exact ⟨node, hnode⟩, links?_done_of_inMemory hready hdone⟩
    rw [hnodes, hl.nodes, disk_snapshot]
    exact Finset.mem_union.trans (or_congr (hold l x) mem_entered)
  · refine Finset.eq_empty_of_forall_notMem fun x hx => ?_
    rcases Finset.mem_union.mp hx with hx | hx
    · rw [hlow] at hx
      exact Finset.notMem_empty x hx
    · rcases mem_entered.mp hx with ⟨-, hx⟩ | ⟨-, hx⟩
      · exact absurd (env.schedule.level_lt x) (by omega)
      · omega
  · simp [grown, hstone]
  · simp [grown, hstone]
  · rw [hdone.built.metadata] at hm
    cases hm
    refine ⟨Finset.ext fun x => ?_, ?_⟩
    · rw [newMetadata, List.mem_toFinset, hl.entryPoints, hmax]
      exact mem_entered
    · exact hmax.symm.trans (UInt8.toNat_ofNat_of_lt' hheight).symm
  · rw [hdone.built.metadata] at hm
    cases hm

variable (M0) in
/-- The previous graph of a build. -/
theorem Depicts.previous {H : Hierarchy} (h : Depicts i db H) {db₁ : Database}
    (hm : db₁.metadata? i = db.metadata? i) :
    (builderOf M0 i db₁).entryPoints.toFinset = H.entryPoints ∧
      (builderOf M0 i db₁).maxLevel = H.maxLevel := by
  rw [builderOf, hm]
  cases hmeta : db.metadata? i with
  | none =>
    obtain ⟨heps, hmax⟩ := h.unbuilt hmeta
    exact ⟨heps.symm, hmax.symm⟩
  | some m =>
    obtain ⟨heps, hmax⟩ := h.built hmeta
    exact ⟨heps.symm, hmax.symm⟩

theorem gone_of_ready (hready : Ready options i db) :
    ∀ x ∈ (buildSets options i db).toDelete, ¬ Live (snapshot options i db) x := by
  intro x hx hlive
  rw [live_snapshot, hready.deleted x hx] at hlive
  cases hlive

/-- A node of the layers below 256. -/
theorem Depicts.mem_layer {H : Hierarchy} (h : Depicts i db H) {l : Nat} (hl : l < 256)
    (x : ItemId) : x ∈ H.layer l ↔ ∃ s, disk (snapshot options i db) l x = some s := by
  have hto : l.toUInt8.toNat = l := UInt8.toNat_ofNat_of_lt' hl
  have hlayer := h.layer l.toUInt8 x
  rw [hto] at hlayer
  rw [hlayer, ← hto, disk_snapshot, hto]

theorem Depicts.maxLevel_lt {H : Hierarchy} (h : Depicts i db H) : H.maxLevel < 256 := by
  cases hm : db.metadata? i with
  | none => exact (h.unbuilt hm).2 ▸ Nat.zero_lt_succ _
  | some m => exact (h.built hm).2 ▸ UInt8.toNat_lt _

/-- **What replaces the entry points** that were deleted. -/
theorem Depicts.reserve {H : Hierarchy} (h : Depicts i db H)
    (hdisk : DiskOk (snapshot options i db)) {newEps : RoaringBitmap}
    (hrep : replaceDeleted (snapshot options i db) H.removed H.maxLevel
      (H.entryPoints ∩ H.removed).card (H.entryPoints \ H.removed) = .ok newEps) :
    H.Reserve newEps := by
  have hheight := h.maxLevel_lt
  have hpool : ∀ x, x ∈ H.surviving 0 ↔
      x ∉ H.removed ∧ ∃ s, disk (snapshot options i db) 0 x = some s := fun x => by
    rw [surviving, Finset.mem_sdiff, and_comm, h.mem_layer (by decide)]
  have hsub : H.entryPoints \ H.removed ⊆ H.surviving 0 :=
    Finset.sdiff_subset_sdiff (H.entry.trans (H.antitone (Nat.zero_le _))) le_rfl
  obtain ⟨u, hfills, hu⟩ := replaceDeleted_fills (wellTyped_takeStones h.consistent.typed) hpool
    (fun hl hs => hdisk.down hl hs (Nat.zero_le _)) hheight hsub hrep
  have hold := Finset.card_sdiff_add_card_inter H.entryPoints H.removed
  have hcard := hfills.card
  refine ⟨hfills.kept, hfills.within, u, by omega, hu.trans (or_congr ?_ ?_)⟩
  · rw [Finset.card_eq_zero, Finset.disjoint_iff_inter_eq_empty]
  · constructor
    · intro htaken
      refine or_iff_not_imp_left.mpr fun hpos x hx => ?_
      obtain ⟨hx, hd⟩ := Finset.mem_sdiff.mp hx
      obtain ⟨s, hs⟩ := (h.mem_layer (by decide) x).mp hx
      exact (Finset.mem_sdiff.mp (htaken 1 Nat.one_pos (by omega) x s hs hd)).1
    · rintro hcond k hk hle x s hs hd
      have hx := H.antitone (show 1 ≤ k from hk) ((h.mem_layer (by omega) x).mpr ⟨s, hs⟩)
      refine Finset.mem_sdiff.mpr ⟨?_, hd⟩
      exact hcond.resolve_left (by omega) (Finset.mem_sdiff.mpr ⟨hx, hd⟩)

theorem Depicts.build {H : Hierarchy} (h : Depicts i db H) {u : Unit} (hw : w.index = i)
    (hr : options.relinkAllItems = false) (hb : w.build D M M0 env options db = .ok u db') :
    ∃ H', Hierarchy.Step H (.build M M0 env options) H' ∧ Depicts i db' H' := by
  subst hw
  have hready := ready_of_consistent h.consistent hr
  obtain ⟨b, hlayers, hdone⟩ := hready.build_layers hb
  have hins : (buildSets options w.index db).toInsert = H.updated := Finset.ext fun x =>
    (mem_toInsert h.consistent.typed hr).trans (h.updated x).symm
  have hdel : (buildSets options w.index db).toDelete = H.removed := Finset.ext fun x =>
    (mem_toDelete h.consistent.typed hr).trans (h.removed x).symm
  obtain ⟨heps, hmax⟩ := h.previous M0 metadata?_takeStones
  obtain ⟨newEps, hrep, hl⟩ :=
    layered_buildLayers hready.buildInput (gone_of_ready hready) hlayers
  have htop : resetMaxLevel (builderOf M0 w.index (takeStones options w.index db)) H.removed
      newEps = H.top newEps := by
    rw [resetMaxLevel, heps, hmax, top]
  rw [hdel, heps, hmax] at hrep
  rw [hdel, htop] at hl
  have hgrown := depicts_grown hready hdone (by rwa [hdel]) H.surviving_antitone
    (by rw [surviving, h.low, Finset.empty_sdiff]) fun l x => by
      rw [surviving, Finset.mem_sdiff, h.layer, hdel, and_comm]
  rw [hins] at hgrown
  exact ⟨_, .build (h.reserve hready.disk hrep), hgrown⟩

theorem Depicts.forceRebuild {H : Hierarchy} (h : Depicts i db H) {u : Unit} (hw : w.index = i)
    (hs : db.prefixIter (Prefix.updated w.index) = [])
    (hb : w.forceRebuild D M M0 env options db = .ok u db') :
    ∃ H', Hierarchy.Step H (.forceRebuild M M0 env options) H' ∧ Depicts i db' H' := by
  subst hw
  obtain ⟨m, hm, hb⟩ := forceRebuild_ok hb
  have hstone := stone?_of_prefixIter_nil hs
  have hr : { options with relinkAllItems := true }.relinkAllItems = true := rfl
  generalize { options with relinkAllItems := true } = options at hr hb
  have hready := ready_dropLinks options h.consistent hstone hr hm
  obtain ⟨b, hlayers, hdone⟩ := hready.build_layers hb
  have hmeta : (dropLinks w.index db m).metadata? w.index = db.metadata? w.index := by
    rw [Database.metadata?, getElem?_dropLinks (by simp [Key.metadata])]
    rfl
  have hbase : indexed w.index db = H.layer 0 := by
    ext x
    refine Iff.trans ?_ (h.layer 0 x).symm
    constructor
    · exact h.consistent.base
    · rintro ⟨_, hs⟩
      exact h.consistent.owner hs
  have hsets : buildSets options w.index (dropLinks w.index db m) = ⟨H.layer 0, ∅, H.layer 0⟩ := by
    rw [buildSets, if_pos hr, indexed, hmeta, ← indexed, hbase]
  have hkept : (takeStones options w.index (dropLinks w.index db m)).metadata? w.index =
      db.metadata? w.index := metadata?_takeStones.trans hmeta
  obtain ⟨heps, hmax⟩ := h.previous M0 hkept
  obtain ⟨newEps, hrep, hl⟩ :=
    layered_buildLayers hready.buildInput (gone_of_ready hready) hlayers
  -- no entry point is deleted
  rw [hsets, heps, Finset.inter_empty, Finset.sdiff_empty] at hrep
  obtain rfl : H.entryPoints = newEps := Except.ok.inj hrep
  have htop : resetMaxLevel (builderOf M0 w.index (takeStones options w.index
      (dropLinks w.index db m))) ∅ H.entryPoints = H.maxLevel := by
    rw [resetMaxLevel, if_neg (fun h => h.1 (Finset.inter_empty _)), hmax]
  have hnone : Antitone fun _ : Nat => (∅ : RoaringBitmap) := fun _ _ _ => le_rfl
  have hgrown := depicts_grown hready hdone hl hnone rfl fun l x => by
    simp [links?_dropLinks h.consistent hm]
  rw [hsets, htop] at hgrown
  refine ⟨_, .forceRebuild ?_ ?_, hgrown⟩
  · exact Finset.eq_empty_of_forall_notMem fun x hx => by simp [h.updated, hstone] at hx
  · exact Finset.eq_empty_of_forall_notMem fun x hx => by simp [h.removed, hstone] at hx

/-! ## Runs -/

/-- The writers of an index. -/
def writers (D : Distance) (i : UInt16) : System Database Op where
  init := NoEntries i
  step db op db' := ∃ w : Writer, w.index = i ∧ Step D w op db db'

/-- **Each operation of a writer moves the hierarchy.** -/
theorem hierarchy_simulated : Simulates (Depicts i) (writers D i) Hierarchy.system where
  init h := ⟨empty, rfl, depicts_empty h⟩
  step := by
    rintro db H op db' h ⟨w, rfl, hstep⟩
    cases hstep with
    | addItem hadd => exact ⟨_, .addItem, h.addItem rfl hadd⟩
    | delItem hdel => exact h.delItem rfl hdel
    | clear hclear => exact ⟨empty, .clear, depicts_empty (clear_noEntries hclear)⟩
    | build hr hb => exact h.build rfl hr hb
    | forceRebuild hs hb => exact h.forceRebuild rfl hs hb

theorem exec_of_run (h₀ : NoEntries i db₀) {tr : List (Writer × Op)} (h : Run D i db₀ tr db) :
    (writers D i).Exec (tr.map Prod.snd) db := by
  induction h with
  | start => exact .start h₀
  | step hw _ hstep ih => exact .step ih ⟨_, hw, hstep⟩

/-- **Every run of an index is a run of its hierarchy**: after it the index has the nodes, the entry
points and the height that the hierarchy has. -/
theorem hierarchy_of_run (h₀ : NoEntries i db₀) {tr : List (Writer × Op)}
    (h : Run D i db₀ tr db) : ∃ H, Hierarchy.system.Exec (tr.map Prod.snd) H ∧ Depicts i db H :=
  hierarchy_simulated.exec (exec_of_run h₀ h)

theorem hierarchy_of_twoItems : ∃ db H, play manhattan ∅ twoItems = some db ∧
    Hierarchy.system.Exec (twoItems.map Prod.snd) H ∧ Depicts 0 db H := by
  have h : (play manhattan ∅ twoItems).isSome := by decide +kernel
  obtain ⟨db, hdb⟩ := Option.isSome_iff_exists.mp h
  have hrun : Run manhattan 0 ∅ twoItems db := Run.of_play (by decide) hdb
  obtain ⟨H, hexec, hdepicts⟩ := hierarchy_of_run noEntries_empty hrun
  exact ⟨db, H, hdb, hexec, hdepicts⟩

/-! ## The top layer -/

namespace Hierarchy

/-- The entry points are the nodes of the top layer, and no node is above it. -/
structure Crowned (H : Hierarchy) : Prop where
  entryPoints : H.layer H.maxLevel ⊆ H.entryPoints
  above : H.layer (H.maxLevel + 1) = ∅

/-- The next build keeps the height, or has no graph to keep: no entry point is deleted; or they
are replaced one for one, there being as many survivors and above layer 0 none to spare; or nothing
survives. -/
def Steady (H : Hierarchy) : Prop :=
  Disjoint H.entryPoints H.removed ∨ H.surviving 0 = ∅ ∨
    (H.surviving 0).card = H.entryPoints.card ∨
    (H.entryPoints.card ≤ (H.surviving 0).card ∧
      (H.maxLevel = 0 ∨ H.surviving 1 ⊆ H.entryPoints))

theorem top_of_steady {H : Hierarchy} {reserve : RoaringBitmap} (hs : H.Steady)
    (hr : H.Reserve reserve) : H.surviving 0 = ∅ ∨ H.top reserve = H.maxLevel := by
  obtain ⟨extra, hcard, hextra⟩ := hr.card
  have hsame : reserve.card = H.entryPoints.card → H.top reserve = H.maxLevel := fun h =>
    if_neg fun hreset => hreset.2 h
  rcases hs with hs | hs | hs | ⟨henough, hs⟩
  · exact Or.inr (if_neg fun hreset => hreset.1 (Finset.disjoint_iff_inter_eq_empty.mp hs))
  · exact Or.inl hs
  · exact Or.inr (hsame (by omega))
  · have hnone := hextra.mpr (Or.inr hs)
    exact Or.inr (hsame (by omega))

/-- The old layers end at the height, and their top layer is among the reserve. -/
theorem crowned_grown {old : Nat → RoaringBitmap} {hold : Antitone old} {level : ItemId → Nat}
    {inserted reserve : RoaringBitmap} {top : Nat} (habove : old (top + 1) = ∅)
    (htop : old top ⊆ reserve) : (grown old hold level inserted reserve top).Crowned := by
  have hempty : ∀ {l}, top < l → old l = ∅ := fun hl =>
    Finset.subset_empty.mp (habove ▸ hold hl)
  refine ⟨Finset.union_subset (fun x hx => ?_) le_rfl, ?_⟩
  · by_cases hl : top < max top (inserted.sup level)
    · exact absurd (hempty hl ▸ hx) (Finset.notMem_empty x)
    · have hmax : max top (inserted.sup level) = top := by omega
      refine mem_entered.mpr (Or.inr ⟨htop ?_, by omega⟩)
      rw [← hmax]
      exact hx
  · show old (max top (inserted.sup level) + 1) ∪ entered level inserted reserve top
      (max top (inserted.sup level) + 1) = ∅
    refine Finset.eq_empty_of_forall_notMem fun x hx => ?_
    rcases Finset.mem_union.mp hx with hx | hx
    · exact absurd (hempty (Nat.lt_succ_of_le (le_max_left _ _)) ▸ hx) (Finset.notMem_empty x)
    · rcases mem_entered.mp hx with ⟨hx, hl⟩ | ⟨-, hl⟩
      · have hsup : level x ≤ inserted.sup level := Finset.le_sup hx
        omega
      · omega

/-- **A steady operation keeps the crown.** -/
theorem Step.crowned {H H' : Hierarchy} {op : Op} (h : Step H op H') (hc : H.Crowned)
    (hs : (∃ M M0 env options, op = .build M M0 env options) → H.Steady) : H'.Crowned := by
  cases h with
  | addItem => exact ⟨hc.entryPoints, hc.above⟩
  | delItem => exact ⟨hc.entryPoints, hc.above⟩
  | delNothing => exact hc
  | clear => exact ⟨le_rfl, rfl⟩
  | forceRebuild => exact crowned_grown rfl (Finset.empty_subset _)
  | build hr =>
    rcases top_of_steady (hs ⟨_, _, _, _, rfl⟩) hr with hgone | htop
    · have hnone : ∀ l, H.surviving l = ∅ := fun l =>
        Finset.subset_empty.mp (hgone ▸ H.surviving_antitone (Nat.zero_le l))
      exact crowned_grown (hnone _) (by rw [hnone]; exact Finset.empty_subset _)
    · rw [htop]
      refine crowned_grown (by rw [surviving, hc.above, Finset.empty_sdiff]) ?_
      exact (Finset.sdiff_subset_sdiff hc.entryPoints le_rfl).trans hr.kept

end Hierarchy

/-- A build finds no graph, or nothing of it survives, or no entry point is deleted, or they can be
replaced one for one. -/
def SteadyBuild (i : UInt16) (db : Database) : Prop :=
  ∀ m, db.metadata? i = some m → m.items ⊆ removedItems i db ∨
    (∀ ep ∈ m.entryPoints, ep ∉ removedItems i db) ∨
    (m.entryPoints.length ≤ (m.items \ removedItems i db).card ∧
      Replaceable i db m (removedItems i db))

/-- A run whose builds are steady. -/
inductive SteadyRun (D : Distance) (i : UInt16) (db₀ : Database) :
    List (Writer × Op) → Database → Prop
  | start : SteadyRun D i db₀ [] db₀
  | step {w : Writer} {op : Op} {tr : List (Writer × Op)} {db db' : Database} (hw : w.index = i)
      (hrun : SteadyRun D i db₀ tr db) (hstep : Step D w op db db')
      (hs : (∃ M M0 env options, op = .build M M0 env options) → SteadyBuild i db) :
      SteadyRun D i db₀ ((w, op) :: tr) db'

theorem SteadyRun.apply {w : Writer} {op : Op} {tr : List (Writer × Op)}
    (h : SteadyRun D w.index db₀ tr db) (ha : op.apply D w db = some db')
    (hs : (∃ M M0 env options, op = .build M M0 env options) → SteadyBuild w.index db) :
    SteadyRun D w.index db₀ ((w, op) :: tr) db' :=
  .step rfl h (.of_apply ha) hs

theorem Depicts.steady {H : Hierarchy} (h : Depicts i db H) (hs : SteadyBuild i db) :
    H.Steady := by
  have hremoved : removedItems i db = H.removed := Finset.ext fun x =>
    (mem_removedItems h.consistent.typed).trans (h.removed x).symm
  cases hm : db.metadata? i with
  | none =>
    refine Or.inl ?_
    rw [(h.unbuilt hm).1]
    exact Finset.disjoint_empty_left _
  | some m =>
    obtain ⟨heps, hmax⟩ := h.built hm
    have hcard : H.entryPoints.card = m.entryPoints.length := by
      rw [heps, card_entryPoints h.consistent hm]
    have hbase : H.surviving 0 = m.items \ H.removed := by
      refine congrArg (· \ H.removed) (Finset.ext fun x => ?_)
      rw [← indexed_of_metadata hm]
      exact (h.layer 0 x).trans ⟨fun ⟨_, hs⟩ => h.consistent.owner hs, h.consistent.base⟩
    have hs := hs m hm
    rw [hremoved, ← hbase, ← hcard] at hs
    have hnone : (∀ ep ∈ m.entryPoints, ep ∉ H.removed) → Disjoint H.entryPoints H.removed :=
      fun hno => Finset.disjoint_left.mpr fun x hx => hno x (List.mem_toFinset.mp (heps ▸ hx))
    rcases hs with hgone | hno | ⟨henough, hno | habove | hsame⟩
    · exact Or.inr (Or.inl (by rw [hbase, Finset.sdiff_eq_empty_iff_subset]; exact hgone))
    · exact Or.inl (hnone hno)
    · exact Or.inl (hnone hno)
    · refine Or.inr (Or.inr (Or.inr ⟨henough, or_iff_not_imp_left.mpr fun hpos x hx => ?_⟩))
      obtain ⟨hx, hd⟩ := Finset.mem_sdiff.mp hx
      obtain ⟨s, hs⟩ := (h.layer 1 x).mp hx
      rw [heps, List.mem_toFinset]
      refine habove x 1 s hs (by decide) (UInt8.le_iff_toNat_le.mpr ?_) hd
      rw [← hmax]
      exact Nat.one_le_iff_ne_zero.mpr hpos
    · exact Or.inr (Or.inr (Or.inl (by rw [hbase, hcard]; exact hsame)))

/-- **The entry points are the nodes of the top layer**, in every run whose builds are steady. -/
theorem crowned_of_run (h₀ : NoEntries i db₀) {tr : List (Writer × Op)}
    (h : SteadyRun D i db₀ tr db) {m : Metadata} (hm : db.metadata? i = some m) :
    (∀ x, x ∈ m.entryPoints ↔ ∃ s, db.links? i x m.maxLevel = some s) ∧
      ∀ x l s, db.links? i x l = some s → l ≤ m.maxLevel := by
  obtain ⟨H, hdepicts, hcrown⟩ : ∃ H, Depicts i db H ∧ H.Crowned := by
    clear hm
    induction h with
    | start => exact ⟨empty, depicts_empty h₀, le_rfl, rfl⟩
    | step hw _ hstep hs ih =>
      obtain ⟨H, hdepicts, hcrown⟩ := ih
      obtain ⟨H', hmove, hdepicts'⟩ := hierarchy_simulated.step hdepicts ⟨_, hw, hstep⟩
      have hsteady := fun hb => hdepicts.steady (hs hb)
      exact ⟨H', hdepicts', Hierarchy.Step.crowned hmove hcrown hsteady⟩
  obtain ⟨heps, hmax⟩ := hdepicts.built hm
  have htop : ∀ x, x ∈ H.layer H.maxLevel ↔ ∃ s, db.links? i x m.maxLevel = some s := by
    rw [hmax]
    exact hdepicts.layer m.maxLevel
  refine ⟨fun x => ?_, fun x l s hs => ?_⟩
  · rw [← htop, ← List.mem_toFinset, ← heps]
    exact ⟨fun hx => H.entry hx, fun hx => hcrown.entryPoints hx⟩
  · rw [UInt8.le_iff_toNat_le, ← hmax]
    by_contra hl
    have hx := H.antitone (Nat.lt_of_not_le hl) ((hdepicts.layer l x).mpr ⟨s, hs⟩)
    rw [hcrown.above] at hx
    exact Finset.notMem_empty x hx

/-- Two items are built, the lower one is deleted, and the index is built again. -/
def lowerDeleted : List (Writer × Op) :=
  [.build 2 2 .twoLevels BuildOption.default, .delItem 1,
    .build 2 2 .twoLevels BuildOption.default, .addItem 1 [F32.one],
    .addItem 0 [F32.zero]].map (⟨0, 1⟩, ·)

theorem crowned_lowerDeleted : ∃ db m, SteadyRun manhattan 0 ∅ lowerDeleted db ∧
    db.metadata? 0 = some m ∧ m.entryPoints = [0] ∧
      (∀ x, x ∈ m.entryPoints ↔ ∃ s, db.links? 0 x m.maxLevel = some s) ∧
      ∀ x l s, db.links? 0 x l = some s → l ≤ m.maxLevel := by
  have h : (((Op.addItem 0 [F32.zero]).apply manhattan ⟨0, 1⟩ ∅).bind fun db₁ =>
      ((Op.addItem 1 [F32.one]).apply manhattan ⟨0, 1⟩ db₁).bind fun db₂ =>
      ((Op.build 2 2 .twoLevels BuildOption.default).apply manhattan ⟨0, 1⟩ db₂).bind fun db₃ =>
      ((Op.delItem 1).apply manhattan ⟨0, 1⟩ db₃).bind fun db₄ =>
      ((Op.build 2 2 .twoLevels BuildOption.default).apply manhattan ⟨0, 1⟩ db₄).map fun db₅ =>
        (db₂.metadata? 0, (db₄.metadata? 0).map Metadata.entryPoints, removedItems 0 db₄,
          (db₅.metadata? 0).map Metadata.entryPoints)) =
      some (none, some [0], {1}, some [0]) := by decide +kernel
  obtain ⟨db₁, h₁, h⟩ := Option.bind_eq_some_iff.mp h
  obtain ⟨db₂, h₂, h⟩ := Option.bind_eq_some_iff.mp h
  obtain ⟨db₃, h₃, h⟩ := Option.bind_eq_some_iff.mp h
  obtain ⟨db₄, h₄, h⟩ := Option.bind_eq_some_iff.mp h
  obtain ⟨db₅, h₅, h⟩ := Option.map_eq_some_iff.mp h
  simp only [Prod.mk.injEq] at h
  obtain ⟨hnone, heps, hremoved, hm⟩ := h
  obtain ⟨m, hm, hentry⟩ := Option.map_eq_some_iff.mp hm
  have hquiet : ∀ {op : Op} {P : Prop}, ¬ op.Builds →
      (∃ M M0 env options, op = .build M M0 env options) → P := by
    rintro _ _ hop ⟨_, _, _, _, rfl⟩
    exact absurd trivial hop
  have hrun : SteadyRun manhattan 0 ∅ lowerDeleted db₅ := by
    refine (((((SteadyRun.start (i := 0)).apply h₁ (hquiet id)).apply h₂ (hquiet id)).apply h₃
      fun _ m' hm' => ?_).apply h₄ (hquiet id)).apply h₅ fun _ m' hm' => ?_
    · rw [hnone] at hm'
      cases hm'
    · rw [hm'] at heps
      refine Or.inr (Or.inl fun ep hep => ?_)
      rw [hremoved]
      rw [Option.some.inj heps] at hep
      obtain rfl := List.mem_singleton.mp hep
      simp
  obtain ⟨htop, habove⟩ := crowned_of_run noEntries_empty hrun hm
  exact ⟨db₅, m, hrun, hm, hentry, htop, habove⟩

end Hannoy.Index
