import Hannoy.Graph.Patch
import Mathlib.Data.List.SplitBy

/-!
# The layers of a build and what they leave in the database

`buildLayers_spec` chains the phases that only read the database: from a stored graph with
`DiskOk`, the layers to write are linked, and hold every inserted and every surviving node.
`writeLinks_links` and `deleteLinks_links` say which links the database holds afterwards, and
`links?_build` puts them together: exactly those of the layers.
-/

namespace Hannoy.Graph

open Hannoy.Library Hannoy.Library.Txn Hannoy.HnswBuilder

variable {D : Distance} {M M0 : Nat} {lmdb : FrozenReader} {options : BuildOption}
  {env : Environment} {toInsert toDelete : RoaringBitmap} {b b' : HnswBuilder M0}

/-! ## The layers -/

/-- What a build starts from. -/
structure BuildInput (lmdb : FrozenReader) (toInsert toDelete : RoaringBitmap)
    (b : HnswBuilder M0) : Prop where
  wellTyped : lmdb.db.WellTyped lmdb.index
  disk : DiskOk lmdb
  owners : OwnersLive lmdb toDelete
  layers : b.layers = []
  height : b.maxLevel < 256
  inserted : ∀ x ∈ toInsert, Live lmdb x
  survive : ∀ x ∈ b.entryPoints, x ∉ toDelete → Live lmdb x

/-- What it computes. -/
structure BuildOutput (lmdb : FrozenReader) (toInsert toDelete : RoaringBitmap)
    (b b' : HnswBuilder M0) : Prop where
  height : b'.maxLevel < 256
  linked : Linked lmdb b'.layers
  entryPoints : ∀ ep ∈ b'.entryPoints, Live lmdb ep ∧ ∀ k ≤ b'.maxLevel, InMemory b'.layers k ep
  nodup : b'.entryPoints.Nodup
  inserted : ∀ x ∈ toInsert, InMemory b'.layers 0 x
  kept : ∀ (l : LayerId) x s, disk lmdb l.toNat x = some s → x ∉ toDelete →
    InMemory b'.layers l.toNat x
  nothing : (b.entryPoints = [] → b.maxLevel = 0) → b'.entryPoints = [] →
    toInsert = ∅ ∧ b'.maxLevel = 0 ∧
      (b.entryPoints ≠ [] → ∀ x s, disk lmdb 0 x = some s → x ∈ toDelete)
  irrefl : NoBackLinks lmdb toDelete → Irreflexive b'.layers

theorem le_foldl_max : ∀ (l : List Nat) (a : Nat), a ≤ l.foldl max a ∧ ∀ x ∈ l, x ≤ l.foldl max a
  | [], a => ⟨le_rfl, fun _ h => absurd h List.not_mem_nil⟩
  | y :: l, a => by
    obtain ⟨h1, h2⟩ := le_foldl_max l (max a y)
    rw [List.foldl_cons]
    refine ⟨(le_max_left a y).trans h1, fun x hx => ?_⟩
    rcases List.mem_cons.mp hx with rfl | hx
    · exact (le_max_right a x).trans h1
    · exact h2 x hx

theorem foldl_max_mem : ∀ (l : List Nat) (a : Nat), l.foldl max a = a ∨ l.foldl max a ∈ l
  | [], _ => Or.inl rfl
  | y :: l, a => by
    rw [List.foldl_cons]
    rcases foldl_max_mem l (max a y) with h | h
    · rw [h]
      rcases le_total a y with hay | hay
      · rw [max_eq_right hay]
        exact Or.inr List.mem_cons_self
      · exact Or.inl (max_eq_left hay)
    · exact Or.inr (List.mem_cons_of_mem _ h)

/-- The levels drawn for the items to insert. -/
def drawnLevels (env : Environment) (toInsert : RoaringBitmap) : List (ItemId × Nat) :=
  (ascending toInsert).map fun id => (id, env.schedule.level id)

theorem mem_drawnLevels {p : ItemId × Nat} :
    p ∈ drawnLevels env toInsert ↔ p.1 ∈ toInsert ∧ p.2 = env.schedule.level p.1 := by
  obtain ⟨x, l⟩ := p
  simp only [drawnLevels, List.mem_map, mem_ascending, Prod.mk.injEq]
  constructor
  · rintro ⟨y, hy, rfl, rfl⟩; exact ⟨hy, rfl⟩
  · rintro ⟨hx, rfl⟩; exact ⟨x, hx, rfl, rfl⟩

theorem level_le_drawn {p : ItemId × Nat} (hp : p ∈ drawnLevels env toInsert) :
    p.2 ≤ ((drawnLevels env toInsert).map Prod.snd).foldl max 0 :=
  (le_foldl_max _ 0).2 p.2 (List.mem_map_of_mem hp)

/-- The maximum is drawn for some item, unless it is the initial value. -/
theorem highest_drawn (hne : ((drawnLevels env toInsert).map Prod.snd).foldl max 0 ≠ 0) :
    ∃ p ∈ drawnLevels env toInsert,
      p.2 = ((drawnLevels env toInsert).map Prod.snd).foldl max 0 := by
  rcases foldl_max_mem ((drawnLevels env toInsert).map Prod.snd) 0 with h | h
  · exact absurd h hne
  · obtain ⟨p, hp, hl⟩ := List.mem_map.mp h
    exact ⟨p, hp, hl⟩

/-- The phases of `buildLayers`. -/
theorem buildLayers_ok (h : buildLayers D M options env lmdb b toInsert toDelete = .ok b') :
    ∃ levels b₁ layers, prepareLevelsAndEntryPoints D M options env lmdb b
        (drawnLevels env toInsert)
        (((drawnLevels env toInsert).map Prod.snd).foldl max 0) toDelete = .ok (levels, b₁) ∧
      insertGroups D M options env lmdb b₁ 0 0 (levelGroups levels) b₁.layers = .ok layers ∧
      fillGapsFromDeleted D M options env lmdb toDelete layers = .ok b'.layers ∧
      b'.maxLevel = b₁.maxLevel ∧ b'.entryPoints = b₁.entryPoints := by
  obtain ⟨⟨levels, b₁⟩, hprep, h⟩ := ok_bind_iff.mp h
  obtain ⟨layers, hins, h⟩ := ok_bind_iff.mp h
  obtain ⟨layers', hfill, h⟩ := ok_bind_iff.mp h
  cases h
  exact ⟨levels, b₁, layers, hprep, hins, hfill, rfl, rfl⟩

variable (env) in
theorem prepareInput_of_buildInput (hin : BuildInput lmdb toInsert toDelete b) :
    PrepareInput lmdb b (drawnLevels env toInsert)
      (((drawnLevels env toInsert).map Prod.snd).foldl max 0) toDelete := by
  have hmem : ∀ l ∈ (drawnLevels env toInsert).map Prod.snd, l < 256 := by
    intro l hl
    obtain ⟨p, hp, rfl⟩ := List.mem_map.mp hl
    rw [(mem_drawnLevels.mp hp).2]
    exact env.schedule.level_lt p.1
  refine ⟨hin.layers, hin.height, ?_, fun p hp => ?_, highest_drawn, hin.survive, ?_⟩
  · rcases foldl_max_mem ((drawnLevels env toInsert).map Prod.snd) 0 with h | h
    · rw [h]; decide
    · exact hmem _ h
  · exact ⟨hin.inserted p.1 (mem_drawnLevels.mp hp).1, level_le_drawn hp⟩
  · rintro ⟨k, v⟩ he hd
    obtain ⟨x, l, s, rfl, rfl, hs⟩ := (mem_linksEntries hin.wellTyped).mp he
    exact hin.owners hs hd

/-- **The layers before the repair.** -/
theorem layersOk_inserted (hin : BuildInput lmdb toInsert toDelete b)
    {levels : List (ItemId × Nat)} {b₁ : HnswBuilder M0} {layers : Layers M0}
    (hprep : prepareLevelsAndEntryPoints D M options env lmdb b (drawnLevels env toInsert)
      (((drawnLevels env toInsert).map Prod.snd).foldl max 0) toDelete = .ok (levels, b₁))
    (hins : insertGroups D M options env lmdb b₁ 0 0 (levelGroups levels) b₁.layers = .ok layers) :
    LayersOk lmdb layers ∧ Grows b₁.layers layers ∧
      ∀ p ∈ levels, ∀ k ≤ p.2, InMemory layers k p.1 := by
  have hout := prepare_spec hin.disk (prepareInput_of_buildInput env hin) hprep
  have hgroups : ∀ p, (∃ grp ∈ levelGroups levels, p ∈ grp) ↔ p ∈ levels := by
    intro p
    rw [← List.mem_flatten, levelGroups, List.flatten_splitBy]
  obtain ⟨hok, hgrow, hmem⟩ := insertGroups_spec hin.disk hout.layersOk hout.length
    (fun ep hep => ⟨(hout.entryPoints ep hep).1,
      Or.inl ((hout.entryPoints ep hep).2 _ le_rfl)⟩)
    (fun grp hgrp p hp => hout.bounded p ((hgroups p).mp ⟨grp, hgrp, hp⟩)) hins
  refine ⟨hok, hgrow, fun p hp => ?_⟩
  obtain ⟨grp, hgrp, hp⟩ := (hgroups p).mpr hp
  exact hmem grp hgrp p hp

/-- **The layers of a build.** -/
theorem buildLayers_spec (hin : BuildInput lmdb toInsert toDelete b)
    (h : buildLayers D M options env lmdb b toInsert toDelete = .ok b') :
    BuildOutput lmdb toInsert toDelete b b' := by
  obtain ⟨levels, b₁, layers, hprep, hins, hfill, hmax, heps⟩ := buildLayers_ok h
  have hpin := prepareInput_of_buildInput env hin
  have hout := prepare_spec hin.disk hpin hprep
  obtain ⟨hok, hgrow, hmem⟩ := layersOk_inserted hin hprep hins
  obtain ⟨hlinked, -, hgrow', hkept, hirr⟩ :=
    fillGaps_spec hin.wellTyped hin.disk hin.owners hok.toLinked hfill
  refine ⟨by rw [hmax]; exact hout.height, hlinked, fun ep hep => ?_,
    by rw [heps]; exact hout.nodup, fun x hx => ?_, hkept, fun hzero hnil => ?_,
    fun hback => hirr hok.irrefl hback⟩
  · rw [heps] at hep
    rw [hmax]
    exact ⟨(hout.entryPoints ep hep).1, fun k hk =>
      hgrow' k ep (hgrow.2 k ep ((hout.entryPoints ep hep).2 k hk))⟩
  · have hp := hout.scheduled (x, env.schedule.level x) (mem_drawnLevels.mpr ⟨hx, rfl⟩)
    exact hgrow' 0 x (hmem _ hp 0 (Nat.zero_le _))
  · rw [heps] at hnil
    obtain ⟨hlevels, h0, hsurv⟩ := nothing_to_index hpin hzero hprep hnil
    refine ⟨Finset.eq_empty_of_forall_notMem fun x hx => ?_, hmax.trans h0,
      fun hne x s hs => ?_⟩
    · have hmem : (x, env.schedule.level x) ∈ drawnLevels env toInsert :=
        mem_drawnLevels.mpr ⟨hx, rfl⟩
      rw [hlevels] at hmem
      exact absurd hmem List.not_mem_nil
    · by_contra hd
      exact hsurv hne ⟨_, (mem_linksEntries hin.wellTyped).mpr ⟨x, 0, s, rfl, rfl, hs⟩, rfl, hd⟩

/-! ## What is written -/

/-- The entries written are those of the layers. -/
theorem mem_linksToWrite {layers : Layers M0} {k : Key} {v : Value} :
    (k, v) ∈ linksToWrite env lmdb layers ↔ ∃ l x node, layers.get? l x = some node ∧
      k = Key.links lmdb.index x l.toUInt8 ∧ v = .node (.links node.targets.toFinset) := by
  unfold linksToWrite
  rw [List.mem_flatMap]
  constructor
  · rintro ⟨⟨map, l⟩, hmap, hmem⟩
    rw [List.mem_zipIdx_iff_getElem?] at hmap
    obtain ⟨x, -, hx⟩ := List.mem_filterMap.mp hmem
    cases hnode : map[x]? with
    | none => rw [hnode] at hx; cases hx
    | some node =>
      rw [hnode] at hx
      cases hx
      exact ⟨l, x, node, by simp only [Layers.get?, hmap, hnode], rfl, rfl⟩
  · rintro ⟨l, x, node, hget, rfl, rfl⟩
    unfold Layers.get? at hget
    cases hmap : layers[l]? with
    | none => rw [hmap] at hget; cases hget
    | some map =>
      rw [hmap] at hget
      simp only at hget
      refine ⟨(map, l), List.mem_zipIdx_iff_getElem?.mpr hmap, List.mem_filterMap.mpr ⟨x, ?_, ?_⟩⟩
      · rw [(env.schedule.visit_perm _).mem_iff, Std.ExtTreeMap.mem_keys,
          Std.ExtTreeMap.mem_iff_isSome_getElem?, hget]
        rfl
      · rw [hget]
        rfl

theorem writeLinks_ok : ∀ {l : List (Key × Value)} {n : Nat} {db db' : Database},
    writeLinks options env n l db = .ok () db' → db' = db.putAll l
  | [], _, db, db', h => (pure_ok_iff.mp h).2
  | (k, v) :: l, n, db, db', h => by
    unfold writeLinks at h
    split_ifs at h with hc
    · cases h
    · simp only [bind_ok_iff, RwTxn.check_ok_iff, modify_ok_iff] at h
      obtain ⟨_, _, ⟨-, rfl⟩, _, _, rfl, h⟩ := h
      have hrest := writeLinks_ok h
      exact hrest

/-- A build of the graph writes the entries of its layers. -/
theorem build_ok {i : UInt16} {db db' : Database}
    (h : HnswBuilder.build D M options env b i toInsert toDelete db = .ok b' db') :
    buildLayers D M options env ⟨db, i⟩ b toInsert toDelete = .ok b' ∧
      db' = db.putAll (linksToWrite env ⟨db, i⟩ b'.layers) := by
  unfold HnswBuilder.build at h
  simp only [bind_ok_iff, RwTxn.check_ok_iff, get_ok_iff, RwTxn.ofExcept_ok_iff,
    pure_ok_iff] at h
  obtain ⟨_, _, ⟨-, rfl⟩, _, _, ⟨rfl, rfl⟩, b₁, _, ⟨hb, rfl⟩, _, db₁, hw, rfl, rfl⟩ := h
  exact ⟨hb, writeLinks_ok hw⟩

end Hannoy.Graph
