import Hannoy.Graph.Insert

/-!
# Levels and entry points

`prepare_levels_and_entry_points` hands the insert phase a list of levels, entry points that are
present on the top layer, and layers in which nothing else is stored yet.

Results:
* `replaceDeleted_spec`: the replaced entry points are survivors of the previous graph, and there
  is one as soon as any node of layer 0 survives.
* `prepare_spec`: what the insert phase starts from.
* `nothing_to_index`: without entry points there is nothing to index.
-/

namespace Hannoy.Graph

open Hannoy.Library Hannoy.Library.Server Hannoy.HnswBuilder

variable {D : Distance} {M M0 : Nat} {lmdb : FrozenReader} {options : BuildOption}
  {env : Environment}

/-! ## Replacing deleted entry points -/

/-- `eps'` adds survivors of the stored graph to `eps`. -/
def Replaces (lmdb : FrozenReader) (toDelete eps eps' : RoaringBitmap) : Prop :=
  eps ⊆ eps' ∧ ∀ x ∈ eps', x ∈ eps ∨
    x ∉ toDelete ∧ ∃ e ∈ lmdb.linksEntries, e.1.node.item = x

theorem Replaces.refl (toDelete eps : RoaringBitmap) : Replaces lmdb toDelete eps eps :=
  ⟨Finset.Subset.refl _, fun _ hx => Or.inl hx⟩

theorem Replaces.trans {toDelete eps eps' eps'' : RoaringBitmap}
    (h : Replaces lmdb toDelete eps eps') (h' : Replaces lmdb toDelete eps' eps'') :
    Replaces lmdb toDelete eps eps'' := by
  refine ⟨h.1.trans h'.1, fun x hx => ?_⟩
  rcases h'.2 x hx with hx | hx
  · exact h.2 x hx
  · exact Or.inr hx

/-- **One layer adds at most one entry point**, and one as soon as there is one to add. -/
theorem replaceAt_ok {toDelete : RoaringBitmap} {level : LayerId} :
    ∀ {entries : List (Key × Value)} {eps eps' : RoaringBitmap},
      replaceAt toDelete level entries eps = .ok eps' →
      (eps' = eps ∧ ∀ e ∈ entries, e.1.node.layer = level → e.1.node.item ∉ toDelete →
          e.1.node.item ∈ eps) ∨
        ∃ e ∈ entries, e.1.node.layer = level ∧ e.1.node.item ∉ toDelete ∧
          e.1.node.item ∉ eps ∧ eps' = insert e.1.node.item eps
  | [], eps, eps', h => by
    cases h
    exact Or.inl ⟨rfl, fun e he => absurd he List.not_mem_nil⟩
  | (k, v) :: entries, eps, eps', h => by
    have hrest : replaceAt toDelete level entries eps = .ok eps' →
        (k.node.layer = level → k.node.item ∉ toDelete → k.node.item ∈ eps) →
        (eps' = eps ∧ ∀ e ∈ (k, v) :: entries, e.1.node.layer = level → e.1.node.item ∉ toDelete →
            e.1.node.item ∈ eps) ∨
          ∃ e ∈ (k, v) :: entries, e.1.node.layer = level ∧ e.1.node.item ∉ toDelete ∧
            e.1.node.item ∉ eps ∧ eps' = insert e.1.node.item eps := by
      intro h hk
      rcases replaceAt_ok h with ⟨rfl, hall⟩ | ⟨e, he, hnew⟩
      · exact Or.inl ⟨rfl, List.forall_mem_cons.mpr ⟨hk, hall⟩⟩
      · exact Or.inr ⟨e, List.mem_cons_of_mem _ he, hnew⟩
    unfold replaceAt at h
    by_cases hlayer : k.node.layer ≠ level
    · rw [if_pos hlayer] at h
      exact hrest h fun hl => absurd hl hlayer
    · rw [if_neg hlayer] at h
      obtain ⟨_, -, h⟩ := Txn.ok_bind_iff.mp h
      split_ifs at h with hnew
      · cases h
        exact Or.inr ⟨(k, v), List.mem_cons_self, not_not.mp hlayer, hnew.1, hnew.2, rfl⟩
      · exact hrest h fun _ hd => not_not.mp fun hmem => hnew ⟨hd, hmem⟩

theorem replaceAt_spec {toDelete : RoaringBitmap} {level : LayerId}
    {eps eps' : RoaringBitmap} (h : replaceAt toDelete level lmdb.linksEntries eps = .ok eps') :
    Replaces lmdb toDelete eps eps' ∧
      ((∃ e ∈ lmdb.linksEntries, e.1.node.layer = level ∧ e.1.node.item ∉ toDelete) →
        eps'.Nonempty) := by
  rcases replaceAt_ok h with ⟨rfl, hall⟩ | ⟨e, he, -, hd, -, rfl⟩
  · exact ⟨Replaces.refl _ _, fun ⟨e, he, hl, hd⟩ => ⟨_, hall e he hl hd⟩⟩
  · refine ⟨⟨Finset.subset_insert _ _, fun x hx => ?_⟩, fun _ => Finset.insert_nonempty _ _⟩
    rcases Finset.mem_insert.mp hx with rfl | hx
    · exact Or.inr ⟨hd, e, he, rfl⟩
    · exact Or.inl hx

/-- Some node of layer 0 survives. -/
def SurvivorAtZero (lmdb : FrozenReader) (toDelete : RoaringBitmap) : Prop :=
  ∃ e ∈ lmdb.linksEntries, e.1.node.layer = 0 ∧ e.1.node.item ∉ toDelete

theorem replaceFrom_spec {toDelete : RoaringBitmap} : ∀ (l : Nat) {eps eps' : RoaringBitmap},
    replaceFrom lmdb toDelete l eps = .ok eps' →
      Replaces lmdb toDelete eps eps' ∧ (SurvivorAtZero lmdb toDelete → eps'.Nonempty)
  | 0, _, _, h => replaceAt_spec h
  | l + 1, eps, eps', h => by
    obtain ⟨mid, hat, h⟩ := Txn.ok_bind_iff.mp h
    obtain ⟨hrep, -⟩ := replaceAt_spec hat
    obtain ⟨hrep', hne⟩ := replaceFrom_spec l h
    exact ⟨hrep.trans hrep', hne⟩

/-- **The replaced entry points are survivors of the previous graph.** If an entry point was
deleted and a node of layer 0 survives, some entry point is left. -/
theorem replaceDeleted_spec {toDelete : RoaringBitmap} : ∀ (n maxLevel : Nat)
    {eps eps' : RoaringBitmap}, replaceDeleted lmdb toDelete maxLevel n eps = .ok eps' →
      Replaces lmdb toDelete eps eps' ∧
        (n ≠ 0 → SurvivorAtZero lmdb toDelete → eps'.Nonempty)
  | 0, _, _, _, h => by
    cases h
    exact ⟨Replaces.refl _ _, fun h => absurd rfl h⟩
  | n + 1, maxLevel, eps, eps', h => by
    obtain ⟨mid, hfrom, h⟩ := Txn.ok_bind_iff.mp h
    obtain ⟨hrep, hne⟩ := replaceFrom_spec maxLevel hfrom
    obtain ⟨hrep', -⟩ := replaceDeleted_spec n 0 h
    exact ⟨hrep.trans hrep', fun _ hs => (hne hs).mono hrep'.1⟩

/-! ## The upper layer -/

/-- In a list sorted by descending level, the items of the highest level come first. -/
theorem mem_upperLayer {maxLevel : Nat} : ∀ {levels : List (ItemId × Nat)},
    levels.Pairwise (fun a b => b.2 ≤ a.2) → (∀ p ∈ levels, p.2 ≤ maxLevel) →
      ∀ {p : ItemId × Nat}, p ∈ upperLayer levels maxLevel ↔ p ∈ levels ∧ p.2 = maxLevel
  | [], _, _, p => by simp [upperLayer]
  | q :: levels, hs, hle, p => by
    rw [List.pairwise_cons] at hs
    have ih : p ∈ upperLayer levels maxLevel ↔ p ∈ levels ∧ p.2 = maxLevel :=
      mem_upperLayer hs.2 fun r hr => hle r (List.mem_cons_of_mem _ hr)
    unfold upperLayer at ih ⊢
    rw [List.takeWhile_cons]
    by_cases hq : q.2 = maxLevel
    · rw [if_pos (by simpa using hq), List.mem_cons, List.mem_cons, ih]
      constructor
      · rintro (rfl | h)
        · exact ⟨Or.inl rfl, hq⟩
        · exact ⟨Or.inr h.1, h.2⟩
      · rintro ⟨rfl | h, hp⟩
        · exact Or.inl rfl
        · exact Or.inr ⟨h, hp⟩
    · rw [if_neg (by simpa using hq)]
      refine ⟨fun h => absurd h List.not_mem_nil, fun ⟨hp, hpl⟩ => ?_⟩
      rcases List.mem_cons.mp hp with rfl | hp
      · exact absurd hpl hq
      · have h1 := hs.1 p hp
        have h2 := hle q List.mem_cons_self
        omega

variable (D M options) in
theorem safe_addUpperLayer {maxLevel : Nat} : ∀ {upper : List (ItemId × Nat)}
    {layers : Layers M0}, LayersOk lmdb layers → layers.length = maxLevel + 1 →
      (∀ p ∈ upper, Live lmdb p.1) →
      Safe (protocol D M M0 options.alpha lmdb)
        (fun _ s => ∀ p ∈ upper, ∀ k ≤ maxLevel, InMemory s k p.1)
        (upper.foldlM (fun _ p => addInLayersBelow M0 p.1 maxLevel) ()) layers
  | [], _, _, _, _ => fun _ _ _ p hp => absurd hp List.not_mem_nil
  | q :: upper, layers, hinv, hlen, hlive => by
    rw [List.foldlM_cons]
    refine Safe.bind hinv ((safe_addInLayersBelow (hlive q List.mem_cons_self)
      (by omega)).moved.mono fun _ s hsinv hs => ?_)
    refine (safe_addUpperLayer hsinv (hs.1.1.trans hlen)
      fun p hp => hlive p (List.mem_cons_of_mem _ hp)).moved.mono fun _ t _ ht p hp k hk => ?_
    rcases List.mem_cons.mp hp with rfl | hp
    · exact ht.1.2 k p.1 (hs.2 k hk)
    · exact ht.2 p hp k hk

/-- Layers without entries. -/
theorem layersOk_replicate (hdisk : DiskOk lmdb) {n : Nat} (hn : n ≤ 256) :
    LayersOk lmdb (List.replicate n ∅ : Layers M0) := by
  have hnone : ∀ l x, Layers.get? (List.replicate n ∅ : Layers M0) l x = none := by
    intro l x
    unfold Layers.get?
    cases hl : (List.replicate n ∅ : Layers M0)[l]? with
    | none => rfl
    | some map =>
      obtain ⟨-, rfl⟩ := List.mem_replicate.mp (List.mem_of_getElem? hl)
      simp
  refine ⟨⟨by simpa using hn, fun h => ?_, fun h => ?_, fun hl hx hk => ?_⟩, fun h => ?_⟩
  · rw [hnone] at h; cases h
  · rw [hnone] at h; cases h
  · rcases hx.2 with ⟨st, hst⟩ | ⟨s, hs⟩
    · rw [hnone] at hst; cases hst
    · exact ⟨hx.1, Or.inr (hdisk.down hl hs hk)⟩
  · rw [hnone] at h; cases h

/-! ## What the insert phase starts from -/

/-- The input of `prepare_levels_and_entry_points`: levels drawn for stored items, and entry
points that are stored unless they are to be deleted. -/
structure PrepareInput (lmdb : FrozenReader) (b : HnswBuilder M0) (levels : List (ItemId × Nat))
    (curMaxLevel : Nat) (toDelete : RoaringBitmap) : Prop where
  layers : b.layers = []
  height : b.maxLevel < 256
  curHeight : curMaxLevel < 256
  drawn : ∀ p ∈ levels, Live lmdb p.1 ∧ p.2 ≤ curMaxLevel
  highest : curMaxLevel ≠ 0 → ∃ p ∈ levels, p.2 = curMaxLevel
  survive : ∀ x ∈ b.entryPoints, x ∉ toDelete → Live lmdb x
  owners : ∀ e ∈ lmdb.linksEntries, e.1.node.item ∉ toDelete → Live lmdb e.1.node.item

/-- The output: levels up to the top one, entry points with an entry at every layer, and layers
with nothing wrong in them. -/
structure PrepareOutput (lmdb : FrozenReader) (levels : List (ItemId × Nat))
    (levels' : List (ItemId × Nat)) (b' : HnswBuilder M0) : Prop where
  height : b'.maxLevel < 256
  length : b'.layers.length = b'.maxLevel + 1
  layersOk : LayersOk lmdb b'.layers
  scheduled : ∀ p ∈ levels, p ∈ levels'
  bounded : ∀ p ∈ levels', p.2 ≤ b'.maxLevel
  entryPoints : ∀ ep ∈ b'.entryPoints, Live lmdb ep ∧ ∀ k ≤ b'.maxLevel, InMemory b'.layers k ep
  nodup : b'.entryPoints.Nodup

/-- The steps of `prepare_levels_and_entry_points`. -/
theorem prepare_ok {b b' : HnswBuilder M0} {levels levels' : List (ItemId × Nat)}
    {curMaxLevel : Nat} {toDelete : RoaringBitmap}
    (h : prepareLevelsAndEntryPoints D M options env lmdb b levels curMaxLevel toDelete =
      .ok (levels', b')) :
    ∃ newEps, replaceDeleted lmdb toDelete b.maxLevel
        (b.entryPoints.toFinset ∩ toDelete).card (b.entryPoints.toFinset \ toDelete) =
          .ok newEps ∧
      levels' = scheduleLevels env levels newEps (resetMaxLevel b toDelete newEps) ∧
      raiseEntryPoints D M options lmdb b levels' curMaxLevel newEps
        (resetMaxLevel b toDelete newEps) = .ok b' := by
  unfold prepareLevelsAndEntryPoints at h
  dsimp only at h
  split_ifs at h
  · cases h
  · obtain ⟨newEps, hrep, h⟩ := Txn.ok_bind_iff.mp h
    obtain ⟨b'', hraise, h⟩ := Txn.ok_bind_iff.mp h
    cases h
    exact ⟨newEps, hrep, rfl, hraise⟩

/-- The steps of the end of `prepare_levels_and_entry_points`. -/
theorem raise_ok {b b' : HnswBuilder M0} {levels : List (ItemId × Nat)} {curMaxLevel maxLevel : Nat}
    {newEps : RoaringBitmap}
    (h : raiseEntryPoints D M options lmdb b levels curMaxLevel newEps maxLevel = .ok b') :
    b'.maxLevel = max maxLevel curMaxLevel ∧
      b'.entryPoints = ascending ((if maxLevel < curMaxLevel then ∅ else newEps) ∪
        ((upperLayer levels b'.maxLevel).map Prod.fst).toFinset) ∧
      ((upperLayer levels b'.maxLevel).foldlM
        (fun _ p => addInLayersBelow M0 p.1 b'.maxLevel) ()).run (exec D M options.alpha lmdb)
          (b.layers ++ List.replicate (b'.maxLevel + 1) ∅) = .ok ((), b'.layers) := by
  have hmax : (if maxLevel < curMaxLevel then curMaxLevel else maxLevel) =
      max maxLevel curMaxLevel := by split_ifs <;> omega
  unfold raiseEntryPoints at h
  simp only [hmax] at h
  obtain ⟨⟨_, layers⟩, hrun, h⟩ := Txn.ok_bind_iff.mp h
  cases h
  exact ⟨rfl, rfl, hrun⟩

section spec

variable {b b' : HnswBuilder M0} {levels levels' : List (ItemId × Nat)} {curMaxLevel : Nat}
  {toDelete : RoaringBitmap}

theorem resetMaxLevel_le (b : HnswBuilder M0) (toDelete newEps : RoaringBitmap) :
    resetMaxLevel b toDelete newEps ≤ b.maxLevel := by
  unfold resetMaxLevel
  split_ifs <;> omega

theorem mem_scheduleLevels {newEps : RoaringBitmap} {maxLevel : Nat} {p : ItemId × Nat} :
    p ∈ scheduleLevels env levels newEps maxLevel ↔
      p ∈ levels ∨ p.1 ∈ newEps ∧ p.2 = maxLevel := by
  obtain ⟨x, l⟩ := p
  unfold scheduleLevels
  rw [(env.schedule.order_perm _).mem_iff, List.mem_append, List.mem_map]
  simp only [mem_ascending, Prod.mk.injEq]
  constructor
  · rintro (h | ⟨y, hy, rfl, rfl⟩)
    · exact Or.inl h
    · exact Or.inr ⟨hy, rfl⟩
  · rintro (h | ⟨hx, rfl⟩)
    · exact Or.inl h
    · exact Or.inr ⟨x, hx, rfl, rfl⟩

/-- The surviving and the replaced entry points are stored. -/
theorem live_of_replaces (hin : PrepareInput lmdb b levels curMaxLevel toDelete)
    {newEps : RoaringBitmap}
    (hrep : Replaces lmdb toDelete (b.entryPoints.toFinset \ toDelete) newEps) :
    ∀ x ∈ newEps, Live lmdb x := by
  intro x hx
  rcases hrep.2 x hx with h | ⟨hd, e, he, rfl⟩
  · obtain ⟨hep, hd⟩ := Finset.mem_sdiff.mp h
    exact hin.survive x (List.mem_toFinset.mp hep) hd
  · exact hin.owners e he hd

/-- **What the insert phase starts from.** -/
theorem prepare_spec (hdisk : DiskOk lmdb)
    (hin : PrepareInput lmdb b levels curMaxLevel toDelete)
    (h : prepareLevelsAndEntryPoints D M options env lmdb b levels curMaxLevel toDelete =
      .ok (levels', b')) : PrepareOutput lmdb levels levels' b' := by
  obtain ⟨newEps, hrep, rfl, hraise⟩ := prepare_ok h
  obtain ⟨hmax, heps, hrun⟩ := raise_ok hraise
  have hreset := resetMaxLevel_le b toDelete newEps
  have hb := hin.height
  have hcur := hin.curHeight
  have hlt : b'.maxLevel < 256 := by omega
  have hlive := live_of_replaces hin (replaceDeleted_spec _ _ hrep).1
  have hbound : ∀ p ∈ scheduleLevels env levels newEps (resetMaxLevel b toDelete newEps),
      Live lmdb p.1 ∧ p.2 ≤ b'.maxLevel := by
    intro p hp
    rcases mem_scheduleLevels.mp hp with hp | ⟨hx, hl⟩
    · have := hin.drawn p hp
      exact ⟨this.1, by omega⟩
    · exact ⟨hlive p.1 hx, by omega⟩
  have hupper : ∀ p ∈ upperLayer (scheduleLevels env levels newEps
      (resetMaxLevel b toDelete newEps)) b'.maxLevel, Live lmdb p.1 := fun p hp =>
    (hbound p (List.takeWhile_sublist _ |>.subset hp)).1
  rw [hin.layers, List.nil_append] at hrun
  have hstart : LayersOk lmdb (List.replicate (b'.maxLevel + 1) ∅ : Layers M0) :=
    layersOk_replicate hdisk (by omega)
  obtain ⟨hok, hgrow, hpost⟩ := (safe_addUpperLayer D M options hstart
    (by simp) hupper).run hstart hrun
  refine ⟨hlt, by rw [hgrow.1]; simp, hok, fun p hp => mem_scheduleLevels.mpr (Or.inl hp),
    fun p hp => (hbound p hp).2, fun ep hep => ?_, by rw [heps]; exact nodup_ascending _⟩
  rw [heps, mem_ascending, Finset.mem_union, List.mem_toFinset] at hep
  -- a surviving entry point that is kept is scheduled at the top level
  have hmem : ep ∈ (upperLayer (scheduleLevels env levels newEps
      (resetMaxLevel b toDelete newEps)) b'.maxLevel).map Prod.fst := by
    rcases hep with hep | hep
    · split_ifs at hep with hcase
      · exact absurd hep (Finset.notMem_empty _)
      · refine List.mem_map.mpr ⟨(ep, b'.maxLevel), ?_, rfl⟩
        refine (mem_upperLayer (env.schedule.order_sorted _) fun p hp => (hbound p hp).2).mpr
          ⟨mem_scheduleLevels.mpr (Or.inr ⟨hep, by simp only; omega⟩), rfl⟩
    · exact hep
  obtain ⟨p, hp, rfl⟩ := List.mem_map.mp hmem
  exact ⟨hupper p hp, hpost p hp⟩

/-- When all entry points are deleted and none is replaced, the height is reset. -/
theorem resetMaxLevel_empty (hb : b.entryPoints ≠ [])
    (hdel : b.entryPoints.toFinset ⊆ toDelete) : resetMaxLevel b toDelete ∅ = 0 := by
  have hold : b.entryPoints.toFinset ≠ ∅ := by
    rwa [Ne, List.toFinset_eq_empty_iff]
  unfold resetMaxLevel
  rw [if_pos]
  refine ⟨by rwa [Finset.inter_eq_left.mpr hdel], ?_⟩
  rw [Finset.card_empty]
  exact fun h0 => hold (Finset.card_eq_zero.mp h0.symm)

/-- **Without entry points there is nothing to index**: nothing is to be inserted, every old
entry point was deleted, and with them every node of layer 0. The height is zero again. -/
theorem prepare_empty (hdrawn : ∀ p ∈ levels, p.2 ≤ curMaxLevel)
    (hhighest : curMaxLevel ≠ 0 → ∃ p ∈ levels, p.2 = curMaxLevel)
    (hzero : b.entryPoints = [] → b.maxLevel = 0)
    (h : prepareLevelsAndEntryPoints D M options env lmdb b levels curMaxLevel toDelete =
      .ok (levels', b')) (hnil : b'.entryPoints = []) :
    levels = [] ∧ b'.maxLevel = 0 ∧
      (b.entryPoints ≠ [] → ¬ SurvivorAtZero lmdb toDelete) := by
  obtain ⟨newEps, hrep, rfl, hraise⟩ := prepare_ok h
  obtain ⟨hmax, heps, -⟩ := raise_ok hraise
  obtain ⟨⟨hsub, -⟩, hsurv⟩ := replaceDeleted_spec _ _ hrep
  have hreset := resetMaxLevel_le b toDelete newEps
  have hbound : ∀ p ∈ scheduleLevels env levels newEps (resetMaxLevel b toDelete newEps),
      p.2 ≤ b'.maxLevel := by
    intro p hp
    rcases mem_scheduleLevels.mp hp with hp | ⟨-, hl⟩
    · have := hdrawn p hp
      omega
    · omega
  have hempty : ∀ x, x ∉ (if resetMaxLevel b toDelete newEps < curMaxLevel then ∅ else newEps) ∪
      ((upperLayer (scheduleLevels env levels newEps (resetMaxLevel b toDelete newEps))
        b'.maxLevel).map Prod.fst).toFinset := by
    intro x hx
    rw [hnil] at heps
    exact absurd (heps ▸ mem_ascending.mpr hx) List.not_mem_nil
  have hupper : ∀ p ∈ levels, p.2 ≠ b'.maxLevel := by
    intro p hp hl
    refine hempty p.1 (Finset.mem_union_right _ (List.mem_toFinset.mpr (List.mem_map.mpr
      ⟨p, (mem_upperLayer (env.schedule.order_sorted _) hbound).mpr
        ⟨mem_scheduleLevels.mpr (Or.inl hp), hl⟩, rfl⟩)))
  -- Case 2 would make the highest new item an entry point
  have hcase : ¬ resetMaxLevel b toDelete newEps < curMaxLevel := by
    intro hlt
    obtain ⟨p, hp, hl⟩ := hhighest (by omega)
    exact hupper p hp (by omega)
  have hnew : newEps = ∅ := by
    refine Finset.eq_empty_of_forall_notMem fun x hx => hempty x (Finset.mem_union_left _ ?_)
    rw [if_neg hcase]
    exact hx
  have hdel : b.entryPoints.toFinset ⊆ toDelete := by
    rw [← Finset.sdiff_eq_empty_iff_subset]
    exact Finset.subset_empty.mp (hnew ▸ hsub)
  have hreset0 : resetMaxLevel b toDelete newEps = 0 := by
    by_cases hb : b.entryPoints = []
    · have := hzero hb
      omega
    · rw [hnew]
      exact resetMaxLevel_empty hb hdel
  have hmax0 : b'.maxLevel = 0 := by omega
  refine ⟨?_, hmax0, fun hb hsz => ?_⟩
  · refine List.eq_nil_iff_forall_not_mem.mpr fun p hp => hupper p hp ?_
    have := hdrawn p hp
    omega
  · have hcard : (b.entryPoints.toFinset ∩ toDelete).card ≠ 0 := by
      rw [Finset.inter_eq_left.mpr hdel, Ne, Finset.card_eq_zero, List.toFinset_eq_empty_iff]
      exact hb
    have := hsurv hcard hsz
    rw [hnew] at this
    exact Finset.not_nonempty_empty this

theorem nothing_to_index (hin : PrepareInput lmdb b levels curMaxLevel toDelete)
    (hzero : b.entryPoints = [] → b.maxLevel = 0)
    (h : prepareLevelsAndEntryPoints D M options env lmdb b levels curMaxLevel toDelete =
      .ok (levels', b')) (hnil : b'.entryPoints = []) :
    levels = [] ∧ b'.maxLevel = 0 ∧
      (b.entryPoints ≠ [] → ¬ SurvivorAtZero lmdb toDelete) :=
  prepare_empty (fun p hp => (hin.drawn p hp).2) hin.highest hzero h hnil

end spec

end Hannoy.Graph
