import Hannoy.Graph.Levels

/-!
# Repairing the links around deleted items

After the inserts, every node stored in the database that survives gets an entry in memory: its
stored links and those of its deleted neighbours, without the deleted ids, next to the links of
this build.

Results:
* `patchLinks_ok`: where the links of a repaired node come from.
* `fillGaps_spec`: the repaired layers are linked, and hold an entry for every surviving node.
  With `NoBackLinks`, none of them links to itself.
-/

namespace Hannoy.Graph

open Hannoy.Library Hannoy.Library.Txn Hannoy.HnswBuilder

variable {D : Distance} {M M0 : Nat} {lmdb : FrozenReader} {options : BuildOption}
  {env : Environment} {toDelete : RoaringBitmap}

theorem toUInt8_toNat (l : LayerId) : l.toNat.toUInt8 = l := by
  rw [← UInt8.toNat_inj]
  simp

/-- The entries a build walks over are the nodes stored in the database. -/
theorem mem_linksEntries (hwt : lmdb.db.WellTyped lmdb.index) {k : Key} {v : Value} :
    (k, v) ∈ lmdb.linksEntries ↔ ∃ x l s, k = Key.links lmdb.index x l ∧ v = .node (.links s) ∧
      disk lmdb l.toNat x = some s := by
  unfold FrozenReader.linksEntries disk
  rw [Database.mem_prefixIter_links hwt]
  simp only [toUInt8_toNat]

/-! ## The merged links -/

theorem mem_mergedLinks {links : RoaringBitmap} {level : Nat} {y : ItemId} :
    y ∈ mergedLinks lmdb toDelete links level ↔
      y ∉ toDelete ∧ (y ∈ links ∨
        ∃ d ∈ links, d ∈ toDelete ∧ ∃ s, disk lmdb level d = some s ∧ y ∈ s) := by
  unfold mergedLinks
  rw [Finset.mem_sdiff, Finset.mem_union, Finset.mem_biUnion, and_comm]
  refine and_congr_right fun _ => ?_
  rw [or_comm]
  refine or_congr_right ⟨?_, ?_⟩
  · rintro ⟨d, hd, hy⟩
    obtain ⟨hd, hdel⟩ := Finset.mem_inter.mp hd
    cases hl : lmdb.links d level with
    | error e => rw [hl] at hy; exact absurd hy (Finset.notMem_empty _)
    | ok s =>
      rw [hl] at hy
      exact ⟨d, hd, hdel, s, links_ok_iff.mp hl, hy⟩
  · rintro ⟨d, hd, hdel, s, hs, hy⟩
    refine ⟨d, Finset.mem_inter.mpr ⟨hd, hdel⟩, ?_⟩
    rw [links_ok_iff.mpr hs]
    exact hy

/-! ## One node -/

variable (D lmdb) in
/-- `y`, at its distance from `id`. -/
def linkScore (id y : ItemId) : ScoredLink :=
  match lmdb.item id, lmdb.item y with
  | .ok a, .ok b => ⟨D.distance a b, y⟩
  | _, _ => ⟨F32.zero, y⟩

@[simp] theorem linkScore_id (id y : ItemId) : (linkScore D lmdb id y).id = y := by
  unfold linkScore
  split <;> rfl

/-- What scoring returns. -/
theorem scored_eq {id : ItemId} {curr : Item} (hcurr : lmdb.item id = .ok curr) :
    ∀ {others : List ItemId} {scored : List ScoredLink},
      others.mapM (fun other => do
        pure (⟨D.distance curr (← lmdb.item other), other⟩ : ScoredLink)) = .ok scored →
      scored = others.map (linkScore D lmdb id)
  | [], _, h => by
    cases h
    rfl
  | other :: others, scored, h => by
    rw [List.mapM_cons] at h
    simp only [ok_bind_iff] at h
    obtain ⟨_, ⟨it, hit, hscore⟩, rest, hrest, h⟩ := h
    cases hscore
    cases h
    rw [List.map_cons, scored_eq hcurr hrest]
    simp only [linkScore, hcurr, hit]

theorem mem_linksAt {layers : Layers M0} {level : Nat} {id : ItemId} {s : ScoredLink}
    (hs : s ∈ layers.linksAt level id) :
    ∃ old, layers.get? level id = some old ∧ s.id ∈ old.targets := by
  cases hget : layers.get? level id with
  | none =>
    rw [Layers.linksAt_of_none hget] at hs
    exact absurd hs List.not_mem_nil
  | some old =>
    rw [Layers.linksAt_of_get? hget] at hs
    exact ⟨old, rfl, List.mem_map_of_mem hs⟩

/-- What is stored for a repaired node. -/
inductive Repaired (D : Distance) (M M0 : Nat) (options : BuildOption)
    (lmdb : FrozenReader) (id : ItemId) (level : Nat) (merged : RoaringBitmap)
    (old new : List ScoredLink) : Prop
  /-- Case 1: the merged links are added as they are. -/
  | joined (hfits : merged.card + old.length ≤ linkCap M M0 level)
      (h : new = (ascending merged).map (⟨F32.zero, ·⟩) ++ old)
  /-- Case 2: they are scored and pruned with the others. -/
  | pruned (hfull : ¬ merged.card + old.length ≤ linkCap M M0 level) {curr : Item}
      (hcurr : lmdb.item id = .ok curr) {scored : List ScoredLink}
      (hscored : (ascending merged).mapM (fun other => do
        pure (⟨D.distance curr (← lmdb.item other), other⟩ : ScoredLink)) = .ok scored)
      (h : robustPrune D M M0 options.alpha lmdb (old ++ scored) level = .ok new)

/-- **What a repair does.** -/
theorem patchLinks_repaired {id : ItemId} {level : Nat} {links : RoaringBitmap}
    {layers layers' : Layers M0}
    (h : patchLinks D M options lmdb toDelete id level links layers = .ok layers') :
    ∃ node : NodeState M0, layers' = layers.insert level id node ∧
      Repaired D M M0 options lmdb id level (mergedLinks lmdb toDelete links level)
        (layers.linksAt level id) node.links.toList := by
  unfold patchLinks at h
  dsimp only at h
  split_ifs at h with hcase
  · obtain ⟨v, hv, h⟩ := ok_bind_iff.mp h
    cases h
    exact ⟨⟨v⟩, rfl, .joined hcase (ArrayVec.fromIter_ok hv)⟩
  · simp only [ok_bind_iff] at h
    obtain ⟨curr, hcurr, scored, hscored, pruned, hpruned, v, hv, h⟩ := h
    cases h
    refine ⟨⟨v⟩, rfl, .pruned hcase hcurr hscored ?_⟩
    rw [hpruned, ArrayVec.fromIter_ok hv]

/-- A repaired node is within the cap of its layer. -/
theorem Repaired.length_le {id : ItemId} {level : Nat} {merged : RoaringBitmap}
    {old new : List ScoredLink}
    (h : Repaired D M M0 options lmdb id level merged old new) :
    new.length ≤ linkCap M M0 level := by
  cases h with
  | joined hfits h => rw [h, List.length_append, List.length_map, length_ascending]; exact hfits
  | pruned _ _ _ h => exact length_robustPrune_le h

/-- **Where the links of a repaired node come from.** -/
theorem patchLinks_ok {id : ItemId} {level : Nat} {links : RoaringBitmap}
    {layers layers' : Layers M0}
    (h : patchLinks D M options lmdb toDelete id level links layers = .ok layers') :
    ∃ node : NodeState M0, layers' = layers.insert level id node ∧
      ∀ y ∈ node.targets, y ∈ mergedLinks lmdb toDelete links level ∨
        ∃ old, layers.get? level id = some old ∧ y ∈ old.targets := by
  obtain ⟨node, rfl, hrep⟩ := patchLinks_repaired h
  refine ⟨node, rfl, fun y hy => ?_⟩
  obtain ⟨s, hs, rfl⟩ := List.mem_map.mp hy
  cases hrep with
  | joined _ hnew =>
    rw [hnew] at hs
    rcases List.mem_append.mp hs with hs | hs
    · obtain ⟨other, hother, rfl⟩ := List.mem_map.mp hs
      exact Or.inl (mem_ascending.mp hother)
    · exact Or.inr (mem_linksAt hs)
  | pruned _ hcurr hscored hpruned =>
    rw [scored_eq hcurr hscored] at hpruned
    rcases List.mem_append.mp (mem_of_robustPrune hpruned s hs) with hs | hs
    · exact Or.inr (mem_linksAt hs)
    · obtain ⟨other, hother, rfl⟩ := List.mem_map.mp hs
      rw [linkScore_id]
      exact Or.inl (mem_ascending.mp hother)

/-! ## Making room -/

theorem get?_append_replicate (layers : Layers M0) (n l : Nat) (x : ItemId) :
    Layers.get? (layers ++ List.replicate n ∅) l x = layers.get? l x := by
  unfold Layers.get?
  rw [List.getElem?_append]
  split_ifs with hl
  · rfl
  · rw [List.getElem?_eq_none (Nat.le_of_not_lt hl)]
    cases hr : (List.replicate n (∅ : Layer M0))[l - layers.length]? with
    | none => rfl
    | some map =>
      obtain ⟨-, rfl⟩ := List.mem_replicate.mp (List.mem_of_getElem? hr)
      simp

/-- Resizing only adds empty layers. -/
theorem get?_resizeLayers (l : Nat) (x : ItemId) : ∀ (entries : List (Key × Value))
    (layers : Layers M0), (resizeLayers entries layers).get? l x = layers.get? l x
  | [], _ => rfl
  | (k, v) :: entries, layers => by
    rw [resizeLayers, List.foldl_cons, ← resizeLayers, get?_resizeLayers l x entries]
    cases decodeLinks v with
    | ok links => exact get?_append_replicate _ _ _ _
    | error e => rfl

/-- Resizing adds empty layers, up to those of the stored links. -/
theorem resizeLayers_spec : ∀ (entries : List (Key × Value)) (layers : Layers M0),
    layers.length ≤ 256 →
      layers.length ≤ (resizeLayers entries layers).length ∧
      (resizeLayers entries layers).length ≤ 256 ∧ ∀ k s, (k, .node (.links s)) ∈ entries →
        k.node.layer.toNat < (resizeLayers entries layers).length
  | [], layers, h => ⟨le_rfl, h, fun _ _ he => absurd he List.not_mem_nil⟩
  | (k, v) :: entries, layers, h => by
    have hlt := k.node.layer.toNat_lt
    cases hv : decodeLinks v with
    | error e =>
      have heq : resizeLayers ((k, v) :: entries) layers = resizeLayers entries layers := by
        simp [resizeLayers, hv]
      rw [heq]
      obtain ⟨h1, h2, h3⟩ := resizeLayers_spec entries layers h
      refine ⟨h1, h2, fun k' s he => ?_⟩
      rcases List.mem_cons.mp he with he | he
      · cases he
        cases hv
      · exact h3 k' s he
    | ok links =>
      have heq : resizeLayers ((k, v) :: entries) layers = resizeLayers entries
          (layers ++ List.replicate (k.node.layer.toNat + 1 - layers.length) ∅) := by
        simp [resizeLayers, hv]
      have hlen : (layers ++ List.replicate (k.node.layer.toNat + 1 - layers.length)
          (∅ : Layer M0)).length = max layers.length (k.node.layer.toNat + 1) := by
        rw [List.length_append, List.length_replicate]
        omega
      rw [heq]
      obtain ⟨h1, h2, h3⟩ := resizeLayers_spec entries
        (layers ++ List.replicate (k.node.layer.toNat + 1 - layers.length) ∅) (by rw [hlen]; omega)
      rw [hlen] at h1
      refine ⟨by omega, h2, fun k' s he => ?_⟩
      rcases List.mem_cons.mp he with he | he
      · cases he
        omega
      · exact h3 k' s he

theorem linked_resize {entries : List (Key × Value)} {layers : Layers M0}
    (h : Linked lmdb layers) : Linked lmdb (resizeLayers entries layers) := by
  obtain ⟨-, hlen, -⟩ := resizeLayers_spec entries layers h.length_le
  have hget := fun l x => get?_resizeLayers l x entries layers
  have hpresent : ∀ l x, Present lmdb (resizeLayers entries layers) l x ↔
      Present lmdb layers l x := by
    intro l x
    simp only [Present, InMemory, hget]
  refine ⟨hlen, fun hx => h.live ((hget _ _).symm.trans hx), fun hx hy => ?_, fun hl hx hk => ?_⟩
  · exact (hpresent _ _).mpr (h.target ((hget _ _).symm.trans hx) hy)
  · exact (hpresent _ _).mpr (h.down hl ((hpresent _ _).mp hx) hk)

/-! ## All nodes -/

/-- The stored links lead to stored nodes, but for deleted ones. -/
def OwnersLive (lmdb : FrozenReader) (toDelete : RoaringBitmap) : Prop :=
  ∀ {l x s}, disk lmdb l x = some s → x ∉ toDelete → Live lmdb x

/-- No surviving node has a deleted neighbour that links back to it, nor links to itself. -/
def NoBackLinks (lmdb : FrozenReader) (toDelete : RoaringBitmap) : Prop :=
  ∀ {l : LayerId} {x s}, disk lmdb l.toNat x = some s → x ∉ toDelete →
    x ∉ mergedLinks lmdb toDelete s l.toNat

/-- One repaired node. -/
theorem linked_patchLinks (hdisk : DiskOk lmdb) (hown : OwnersLive lmdb toDelete)
    {id : ItemId} {level : Nat} {links : RoaringBitmap} {layers layers' : Layers M0}
    (hok : Linked lmdb layers) (hlevel : level < layers.length)
    (hlinks : disk lmdb level id = some links) (hid : id ∉ toDelete)
    (h : patchLinks D M options lmdb toDelete id level links layers = .ok layers') :
    Linked lmdb layers' ∧ Grows layers layers' ∧ InMemory layers' level id ∧
      (Irreflexive layers → id ∉ mergedLinks lmdb toDelete links level → Irreflexive layers') := by
  obtain ⟨node, rfl, htarget⟩ := patchLinks_ok h
  have hpresent : Present lmdb layers level id := ⟨hown hlinks hid, Or.inr ⟨links, hlinks⟩⟩
  have hl256 : level < 256 := hlevel.trans_le hok.length_le
  have hmerged : ∀ y ∈ mergedLinks lmdb toDelete links level, Present lmdb layers level y := by
    intro y hy
    obtain ⟨hydel, hy⟩ := mem_mergedLinks.mp hy
    have hstored : ∃ s, disk lmdb level y = some s := by
      rcases hy with hy | ⟨d, -, -, s, hs, hy⟩
      · exact hdisk.closed hlinks hy
      · exact hdisk.closed hs hy
    obtain ⟨s, hs⟩ := hstored
    exact ⟨hown hs hydel, Or.inr ⟨s, hs⟩⟩
  refine ⟨linked_insert hok hlevel hpresent.1
    (fun k hk => hok.down hl256 hpresent (Nat.le_of_lt hk)) fun y hy => ?_,
    grows_insert hlevel id node, (inMemory_insert hlevel id node).mpr (Or.inl ⟨rfl, rfl⟩),
    fun hirr hself => irreflexive_insert hirr hlevel fun hy => ?_⟩
  · rcases htarget y hy with hy | ⟨old, hold, hy⟩
    · exact hmerged y hy
    · exact hok.target hold hy
  · rcases htarget id hy with hy | ⟨old, hold, hy⟩
    · exact hself hy
    · exact hirr hold hy

/-- One stored node: a deleted one is left alone, another is repaired. -/
theorem patchAll_cons {n : Nat} {x : ItemId} {l : LayerId} {s : RoaringBitmap}
    {entries : List (Key × Value)} {layers layers' : Layers M0}
    (h : patchAll D M options env lmdb toDelete n
      ((Key.links lmdb.index x l, .node (.links s)) :: entries) layers = .ok layers') :
    (x ∈ toDelete ∧ patchAll D M options env lmdb toDelete (n + 1) entries layers = .ok layers') ∨
    (x ∉ toDelete ∧ ∃ mid, patchLinks D M options lmdb toDelete x l.toNat s layers = .ok mid ∧
      patchAll D M options env lmdb toDelete (n + 1) entries mid = .ok layers') := by
  unfold patchAll at h
  split_ifs at h with _ _ hdel
  · obtain ⟨_, -, h⟩ := ok_bind_iff.mp h
    exact Or.inl ⟨hdel, h⟩
  · obtain ⟨_, hs, h⟩ := ok_bind_iff.mp h
    cases hs
    exact Or.inr ⟨hdel, ok_bind_iff.mp h⟩

/-- What the repair of one node keeps, the repair of all keeps. -/
theorem patchAll_invariant {J : Layers M0 → Prop}
    (hJ : ∀ {id level links layers layers'}, J layers →
      patchLinks D M options lmdb toDelete id level links layers = .ok layers' → J layers') :
    ∀ {entries : List (Key × Value)} {n : Nat} {layers layers' : Layers M0}, J layers →
      patchAll D M options env lmdb toDelete n entries layers = .ok layers' → J layers'
  | [], _, _, _, hlayers, h => by
    cases h
    exact hlayers
  | (k, v) :: entries, n, layers, layers', hlayers, h => by
    unfold patchAll at h
    split_ifs at h
    · obtain ⟨links, -, h⟩ := ok_bind_iff.mp h
      exact patchAll_invariant hJ hlayers h
    · obtain ⟨links, -, h⟩ := ok_bind_iff.mp h
      obtain ⟨mid, hpatch, h⟩ := ok_bind_iff.mp h
      exact patchAll_invariant hJ (hJ hlayers hpatch) h

theorem fillGaps_ok {layers layers' : Layers M0}
    (h : fillGapsFromDeleted D M options env lmdb toDelete layers = .ok layers') :
    patchAll D M options env lmdb toDelete 0 lmdb.linksEntries
      (resizeLayers lmdb.linksEntries layers) = .ok layers' := by
  unfold fillGapsFromDeleted at h
  split_ifs at h
  · cases h
  · exact h

theorem patchAll_spec (hdisk : DiskOk lmdb) (hown : OwnersLive lmdb toDelete) :
    ∀ {entries : List (Key × Value)} {n : Nat} {layers layers' : Layers M0},
      (∀ k v, (k, v) ∈ entries → ∃ x l s, k = Key.links lmdb.index x l ∧ v = .node (.links s) ∧
        disk lmdb l.toNat x = some s ∧ l.toNat < layers.length) →
      Linked lmdb layers →
      patchAll D M options env lmdb toDelete n entries layers = .ok layers' →
      Linked lmdb layers' ∧ Grows layers layers' ∧
        (∀ k v, (k, v) ∈ entries → k.node.item ∉ toDelete →
          InMemory layers' k.node.layer.toNat k.node.item) ∧
        (Irreflexive layers → NoBackLinks lmdb toDelete → Irreflexive layers')
  | [], _, layers, _, _, hok, h => by
    cases h
    exact ⟨hok, ⟨rfl, fun _ _ hx => hx⟩, fun _ _ he => absurd he List.not_mem_nil, fun h _ => h⟩
  | (k, v) :: entries, n, layers, layers', hent, hok, h => by
    obtain ⟨x, l, s, rfl, rfl, hs, hl⟩ := hent k v List.mem_cons_self
    have hent' := fun k v he => hent k v (List.mem_cons_of_mem _ he)
    rcases patchAll_cons h with ⟨hdel, h⟩ | ⟨hdel, mid, hpatch, h⟩
    · obtain ⟨h1, h2, h3, h4⟩ := patchAll_spec hdisk hown hent' hok h
      refine ⟨h1, h2, fun k' v' he hk' => ?_, h4⟩
      rcases List.mem_cons.mp he with he | he
      · cases he
        exact absurd hdel hk'
      · exact h3 k' v' he hk'
    · obtain ⟨hmid, hgrow, hmem, hirr⟩ := linked_patchLinks hdisk hown hok hl hs hdel hpatch
      rw [← hgrow.1] at hent'
      obtain ⟨h1, h2, h3, h4⟩ := patchAll_spec hdisk hown hent' hmid h
      refine ⟨h1, ⟨h2.1.trans hgrow.1, fun l x hx => h2.2 l x (hgrow.2 l x hx)⟩,
        fun k' v' he hk' => ?_, fun h0 hback => h4 (hirr h0 (hback hs hdel)) hback⟩
      rcases List.mem_cons.mp he with he | he
      · cases he
        exact h2.2 _ _ hmem
      · exact h3 k' v' he hk'

/-- **The repaired layers are linked and hold every surviving node.** -/
theorem fillGaps_spec (hwt : lmdb.db.WellTyped lmdb.index) (hdisk : DiskOk lmdb)
    (hown : OwnersLive lmdb toDelete) {layers layers' : Layers M0} (hok : Linked lmdb layers)
    (h : fillGapsFromDeleted D M options env lmdb toDelete layers = .ok layers') :
    Linked lmdb layers' ∧ layers.length ≤ layers'.length ∧
      (∀ l x, InMemory layers l x → InMemory layers' l x) ∧
      (∀ (l : LayerId) x s, disk lmdb l.toNat x = some s → x ∉ toDelete →
        InMemory layers' l.toNat x) ∧
      (Irreflexive layers → NoBackLinks lmdb toDelete → Irreflexive layers') := by
  obtain ⟨hlen, -, hroom⟩ := resizeLayers_spec lmdb.linksEntries layers hok.length_le
  have hget := fun l x => get?_resizeLayers l x lmdb.linksEntries layers
  obtain ⟨h1, h2, h3, h4⟩ := patchAll_spec hdisk hown (fun k v he => by
    obtain ⟨x, l, s, rfl, rfl, hs⟩ := (mem_linksEntries hwt).mp he
    exact ⟨x, l, s, rfl, rfl, hs, hroom _ s he⟩) (linked_resize hok) (fillGaps_ok h)
  refine ⟨h1, by rw [h2.1]; exact hlen, fun l x hx => h2.2 l x ?_, fun l x s hs hx => ?_,
    fun hirr => h4 fun hx => hirr ((hget _ _).symm.trans hx)⟩
  · obtain ⟨st, hst⟩ := hx
    exact ⟨st, (hget l x).trans hst⟩
  · exact h3 (Key.links lmdb.index x l) _ ((mem_linksEntries hwt).mpr
      ⟨x, l, s, rfl, rfl, hs⟩) hx

end Hannoy.Graph
