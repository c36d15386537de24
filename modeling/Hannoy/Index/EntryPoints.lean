import Hannoy.Graph.EntryPoints
import Hannoy.Index.Run

/-!
# Replacing deleted entry points (`hnsw.rs:218-289`)

`prepare_levels_and_entry_points` replaces the deleted entry points by survivors of the previous
graph, and takes a different number of entry points for a graph that is gone: it resets the
height. More replacements than deletions look the same as fewer.

* `OneForOne`: what is expected while enough items survive.
* `one_for_one_iff`: it holds exactly when no entry point was deleted, or every survivor above
  layer 0 is an entry point already, or there are no more survivors than entry points.
* `height_collapses`: the entry point of three layers is deleted, two items survive, and the graph
  is flattened.
-/

namespace Hannoy.Index

open Hannoy.Library Hannoy.Library.Txn Hannoy.Writer Hannoy.Graph Hannoy.HnswBuilder

variable {D : Distance} {M M0 : Nat} {env : Environment} {options : BuildOption} {i : UInt16}
  {db : Database} {m : Metadata} {toDelete : RoaringBitmap}

/-- The deleted entry points are replaced one for one by surviving items, and the height stays. -/
structure OneForOne (m : Metadata) (toDelete newEps : RoaringBitmap) (maxLevel : Nat) : Prop where
  card : newEps.card = m.entryPoints.length
  kept : ∀ ep ∈ m.entryPoints, ep ∉ toDelete → ep ∈ newEps
  survive : ∀ x ∈ newEps, x ∈ m.items ∧ x ∉ toDelete
  height : m.maxLevel.toNat ≤ maxLevel

/-- No entry point was deleted; or every survivor above layer 0 is an entry point; or there are
only as many survivors as entry points. -/
def Replaceable (i : UInt16) (db : Database) (m : Metadata) (toDelete : RoaringBitmap) : Prop :=
  (∀ ep ∈ m.entryPoints, ep ∉ toDelete) ∨
  (∀ x l s, db.links? i x l = some s → 0 < l → l ≤ m.maxLevel → x ∉ toDelete →
    x ∈ m.entryPoints) ∨
  (m.items \ toDelete).card = m.entryPoints.length

/-! ## The previous graph -/

theorem builderOf_snapshot (hm : db.metadata? i = some m) :
    builderOf M0 i (takeStones options i db) = ⟨m.maxLevel.toNat, m.entryPoints, []⟩ := by
  rw [builderOf, metadata?_takeStones, hm]

/-- The survivors are the nodes of layer 0 that are not deleted. -/
theorem mem_survivors (hc : Consistent i db) (hm : db.metadata? i = some m) (x : ItemId) :
    x ∈ m.items \ toDelete ↔
      x ∉ toDelete ∧ ∃ s, disk (snapshot options i db) 0 x = some s := by
  have hbase : x ∈ m.items ↔ ∃ s, db.links? i x 0 = some s := by
    rw [← indexed_of_metadata hm]
    exact ⟨hc.base, fun ⟨s, hs⟩ => hc.owner hs⟩
  rw [Finset.mem_sdiff, hbase, and_comm]
  refine and_congr_right fun _ => ?_
  rw [← disk_snapshot options 0 x]
  rfl

theorem disk_down (hc : Consistent i db) {l : Nat} {x : ItemId} {s : RoaringBitmap}
    (h : disk (snapshot options i db) l x = some s) :
    ∃ s', disk (snapshot options i db) 0 x = some s' := by
  rw [disk, links?_takeStones] at h
  obtain ⟨s', hs'⟩ := hc.down (k := 0) h (UInt8.le_iff_toNat_le.mpr (Nat.zero_le _))
  exact ⟨s', by rw [disk, links?_takeStones]; exact hs'⟩

/-- The surviving entry points take every layer when they hold all survivors above layer 0. -/
theorem taken_iff (hle : m.maxLevel.toNat < 256) :
    (∀ k, 0 < k → k ≤ m.maxLevel.toNat → Taken (snapshot options i db) toDelete
        (m.entryPoints.toFinset \ toDelete) k) ↔
      ∀ x l s, db.links? i x l = some s → 0 < l → l ≤ m.maxLevel → x ∉ toDelete →
        x ∈ m.entryPoints := by
  constructor
  · intro h x l s hs hpos hl hd
    rw [← disk_snapshot options l x] at hs
    have hmem := h l.toNat (UInt8.lt_iff_toNat_lt.mp hpos) (UInt8.le_iff_toNat_le.mp hl) x s hs hd
    exact List.mem_toFinset.mp (Finset.mem_sdiff.mp hmem).1
  · intro h k hpos hk x s hs hd
    rw [disk, links?_takeStones] at hs
    have hto : k.toUInt8.toNat = k := UInt8.toNat_ofNat_of_lt' (by show k < 256; omega)
    refine Finset.mem_sdiff.mpr ⟨List.mem_toFinset.mpr (h x _ s hs ?_ ?_ hd), hd⟩
    · rw [UInt8.lt_iff_toNat_lt, hto]
      exact hpos
    · rw [UInt8.le_iff_toNat_le, hto]
      exact hk

/-! ## One for one -/

theorem card_entryPoints (hc : Consistent i db) (hm : db.metadata? i = some m) :
    m.entryPoints.toFinset.card = m.entryPoints.length :=
  List.toFinset_card_of_nodup (hc.nodup hm)

/-- **The deleted entry points are replaced one for one** exactly when they are `Replaceable`, as
long as enough items survive. -/
theorem one_for_one_iff (hc : Consistent i db) (hm : db.metadata? i = some m)
    {levels levels' : List (ItemId × Nat)} {curMaxLevel : Nat} {b' : HnswBuilder M0}
    (henough : m.entryPoints.length ≤ (m.items \ toDelete).card)
    (h : prepareLevelsAndEntryPoints D M options env (snapshot options i db)
      (builderOf M0 i (takeStones options i db)) levels curMaxLevel toDelete = .ok (levels', b')) :
    ∃ newEps, replaceDeleted (snapshot options i db) toDelete m.maxLevel.toNat
        (m.entryPoints.toFinset ∩ toDelete).card (m.entryPoints.toFinset \ toDelete) = .ok newEps ∧
      (OneForOne m toDelete newEps b'.maxLevel ↔ Replaceable i db m toDelete) := by
  rw [builderOf_snapshot hm] at h
  obtain ⟨newEps, hrep, rfl, hraise⟩ := prepare_ok h
  simp only at hrep
  refine ⟨newEps, hrep, ?_⟩
  have hlt : m.maxLevel.toNat < 256 := UInt8.toNat_lt _
  have hsub : m.entryPoints.toFinset \ toDelete ⊆ m.items \ toDelete :=
    Finset.sdiff_subset_sdiff (fun x hx => (hc.entry hm x (List.mem_toFinset.mp hx)).1)
      (Finset.Subset.refl _)
  obtain ⟨u, hfills, hu⟩ := replaceDeleted_fills (wellTyped_takeStones hc.typed)
    (mem_survivors hc hm) (fun _ hs => disk_down hc hs) hlt hsub hrep
  have hold : (m.entryPoints.toFinset \ toDelete).card +
      (m.entryPoints.toFinset ∩ toDelete).card = m.entryPoints.length := by
    rw [Finset.card_sdiff_add_card_inter, card_entryPoints hc hm]
  have hcard := hfills.card
  have hreplaceable : Replaceable i db m toDelete ↔
      u = 0 ∨ (m.items \ toDelete).card = m.entryPoints.length := by
    rw [hu, taken_iff hlt, Finset.card_eq_zero, Finset.eq_empty_iff_forall_notMem, or_assoc]
    refine or_congr ⟨fun hno x hx => ?_, fun hno ep hep hd => ?_⟩ Iff.rfl
    · obtain ⟨hep, hd⟩ := Finset.mem_inter.mp hx
      exact hno x (List.mem_toFinset.mp hep) hd
    · exact hno ep (Finset.mem_inter.mpr ⟨List.mem_toFinset.mpr hep, hd⟩)
  rw [hreplaceable]
  constructor
  · intro hone
    have := hone.card
    omega
  · intro hcond
    have hsame : newEps.card = m.entryPoints.length := by omega
    have hreset : resetMaxLevel (⟨m.maxLevel.toNat, m.entryPoints, []⟩ : HnswBuilder M0) toDelete
        newEps = m.maxLevel.toNat := by
      rw [resetMaxLevel, if_neg]
      exact fun hchanged => hchanged.2 (hsame.trans (card_entryPoints hc hm).symm)
    refine ⟨hsame, fun ep hep hd => hfills.kept (Finset.mem_sdiff.mpr
      ⟨List.mem_toFinset.mpr hep, hd⟩), fun x hx => Finset.mem_sdiff.mp (hfills.within hx), ?_⟩
    rw [(raise_ok hraise).1, hreset]
    exact le_max_left _ _

/-! ## Deleting the only entry point -/

/-- Item 0 is on level 2, item 1 on level 1, the others on level 0. -/
def threeLevels : Environment :=
  .sequential (fun x => if x = 0 then 2 else if x = 1 then 1 else 0) fun x => by
    split_ifs <;> decide

/-- Three items are built, and item 0, the only entry point, is deleted. -/
def withoutTop (env : Environment) : List (Writer × Op) :=
  [.delItem 0, .build 2 2 env BuildOption.default, .addItem 2 [F32.one], .addItem 1 [F32.one],
    .addItem 0 [F32.zero]].map (⟨0, 1⟩, ·)

/-- The preparation of the next build, without new items. -/
def prepared (db : Database) : Except Failure (List (ItemId × Nat) × HnswBuilder 2) :=
  prepareLevelsAndEntryPoints manhattan 2 BuildOption.default .oneLevel
    (snapshot BuildOption.default 0 db) (builderOf 2 0 (takeStones BuildOption.default 0 db)) [] 0
    (buildSets BuildOption.default 0 db).toDelete

theorem consistent_withoutTop {env : Environment}
    (h : play manhattan ∅ (withoutTop env) = some db) : Consistent 0 db := by
  have hindex : ∀ e ∈ withoutTop env, e.1.index = 0 := by
    intro e he
    obtain ⟨op, -, rfl⟩ := List.mem_map.mp he
    rfl
  exact (Run.of_play hindex h).consistent noEntries_empty

/-- On two layers the entry point is replaced by an item of layer 0. -/
theorem replaced_on_two_layers : ∃ db m levels b newEps,
    play manhattan ∅ (withoutTop .twoLevels) = some db ∧ db.metadata? 0 = some m ∧
    prepared db = .ok (levels, b) ∧
    OneForOne m (buildSets BuildOption.default 0 db).toDelete newEps b.maxLevel := by
  have h : ((play manhattan ∅ (withoutTop .twoLevels)).bind fun db =>
      (db.metadata? 0).bind fun m => (prepared db).toOption.map fun _ =>
        (m.entryPoints, m.items, (buildSets BuildOption.default 0 db).toDelete, m.maxLevel,
          (db.links? 0 1 1).isSome || (db.links? 0 2 1).isSome)) =
      some ([0], {0, 1, 2}, {0}, 1, false) := by decide +kernel
  obtain ⟨db, hdb, h⟩ := Option.bind_eq_some_iff.mp h
  obtain ⟨m, hm, h⟩ := Option.bind_eq_some_iff.mp h
  obtain ⟨⟨levels, b⟩, hprepared, h⟩ := Option.map_eq_some_iff.mp h
  simp only [Prod.mk.injEq, Bool.or_eq_false_iff] at h
  obtain ⟨heps, hitems, hdel, htop, h1, h2⟩ := h
  have hc := consistent_withoutTop hdb
  have hprepared := ok_of_toOption hprepared
  obtain ⟨newEps, -, hiff⟩ := one_for_one_iff hc hm
    (by rw [heps, hitems, hdel]; decide) hprepared
  refine ⟨db, m, levels, b, newEps, hdb, hm, hprepared, hiff.mpr (Or.inr (Or.inl ?_))⟩
  intro x l s hs hpos hl hd
  have hone : l = 1 := by
    rw [htop] at hl
    exact le_antisymm hl (UInt8.lt_iff_toNat_lt.mp hpos)
  subst hone
  have hx : x ∈ m.items := by
    rw [← indexed_of_metadata hm]
    exact hc.owner hs
  rw [hdel, Finset.mem_singleton] at hd
  rw [hitems] at hx
  simp only [Finset.mem_insert, Finset.mem_singleton, hd, false_or] at hx
  rcases hx with rfl | rfl
  · rw [hs] at h1
    cases h1
  · rw [hs] at h2
    cases h2

/-- On three layers two items replace the entry point, and the height is reset. -/
theorem height_collapses : ∃ db m levels b,
    play manhattan ∅ (withoutTop threeLevels) = some db ∧ Consistent 0 db ∧
    db.metadata? 0 = some m ∧
    m.entryPoints.length ≤ (m.items \ (buildSets BuildOption.default 0 db).toDelete).card ∧
    prepared db = .ok (levels, b) ∧ m.maxLevel = 2 ∧ b.maxLevel = 0 ∧
    ∀ newEps, ¬ OneForOne m (buildSets BuildOption.default 0 db).toDelete newEps b.maxLevel := by
  have h : ((play manhattan ∅ (withoutTop threeLevels)).bind fun db =>
      (db.metadata? 0).bind fun m => (prepared db).toOption.map fun x =>
        (decide (m.entryPoints.length ≤
          (m.items \ (buildSets BuildOption.default 0 db).toDelete).card),
          m.maxLevel, x.2.maxLevel)) = some (true, 2, 0) := by decide +kernel
  obtain ⟨db, hdb, h⟩ := Option.bind_eq_some_iff.mp h
  obtain ⟨m, hm, h⟩ := Option.bind_eq_some_iff.mp h
  obtain ⟨⟨levels, b⟩, hprepared, h⟩ := Option.map_eq_some_iff.mp h
  simp only [Prod.mk.injEq, decide_eq_true_eq] at h
  obtain ⟨henough, htop, hflat⟩ := h
  refine ⟨db, m, levels, b, hdb, consistent_withoutTop hdb, hm, henough,
    ok_of_toOption hprepared, htop, hflat, fun newEps hone => ?_⟩
  have hheight := hone.height
  rw [htop, hflat] at hheight
  exact absurd hheight (by decide)

end Hannoy.Index
