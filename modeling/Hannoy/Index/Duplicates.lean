import Hannoy.Graph.Duplicates
import Hannoy.Index.Degree

/-!
# Links that a build adds twice (`hnsw.rs:122-216, 520-560`)

An item that is added again keeps its stored links until the build writes the new ones. The insert
of another such item finds it through them, and its own insert finds the other one: the pair is
linked twice, and neither is an entry point.

* `BuildStart`, `Inserting`: the builds of a run, and their inserts one after the other.
* `links_once_iff`: a build holds every link once exactly if no step appends a link that a list
  with room holds, and the repair leaves one copy of each; a build whose scheduled items, entry
  points apart, have no stored links always does.
* `linkedOnce_of_new_items`: so does a build that adds new items and deletes no entry point.
* `link_added_twice`: two items that are added again, and a link that is added twice.
-/

namespace Hannoy.Index

open Hannoy.Library Hannoy.Library.Server Hannoy.Library.Txn Hannoy.Graph Hannoy.HnswBuilder
open Hannoy.Layers (linksAt)

variable {D : Distance} {M M0 : Nat} {env : Environment} {options : BuildOption} {i : UInt16}
  {db db₀ : Database} {T : Type} {dist : T → Distance} {levels : List (ItemId × Nat)}
  {b : HnswBuilder M0} {tr : List (Event (Request M0) (Layers M0))}
  {c : Config (Request M0) (Reply M0) Failure (Layers M0) Unit}

/-! ## Where a build starts -/

/-- The database a build of a run finds; `force_rebuild` has dropped the links. -/
inductive BuildStart [DecidableEq T] (dist : T → Distance) (i : UInt16) (db₀ : Database)
    (options : BuildOption) : Database → Prop
  | build {states : List (State T)} {S : T} {db : Database}
      (hrun : Course dist i db₀ (⟨S, db⟩ :: states)) (hr : options.relinkAllItems = false) :
      BuildStart dist i db₀ options db
  | forceRebuild {states : List (State T)} {S : T} {db : Database} {m : Metadata}
      (hrun : Course dist i db₀ (⟨S, db⟩ :: states))
      (hs : db.prefixIter (Prefix.updated i) = []) (hr : options.relinkAllItems = true)
      (hm : db.metadata? i = some m) : BuildStart dist i db₀ options (dropLinks i db m)

theorem BuildStart.ready [DecidableEq T] (h₀ : NoEntries i db₀)
    (h : BuildStart dist i db₀ options db) : Ready options i db := by
  cases h with
  | build hrun hr => exact ready_of_consistent (hrun.consistent h₀ _ List.mem_cons_self) hr
  | forceRebuild hrun hs hr hm =>
    exact ready_dropLinks _ (hrun.consistent h₀ _ List.mem_cons_self)
      (stone?_of_prefixIter_nil hs) hr hm

/-- The levels of a build and its builder, before the inserts. -/
def preparedFor (D : Distance) (M M0 : Nat) (env : Environment) (options : BuildOption) (i : UInt16)
    (db : Database) : Except Failure (List (ItemId × Nat) × HnswBuilder M0) :=
  prepareLevelsAndEntryPoints D M options env (snapshot options i db)
    (builderOf M0 i (takeStones options i db)) (drawnLevels env (buildSets options i db).toInsert)
    (((drawnLevels env (buildSets options i db).toInsert).map Prod.snd).foldl max 0)
    (buildSets options i db).toDelete

/-- The inserts of a build one after the other, as far as they have come. -/
structure Inserting (D : Distance) (M : Nat) (env : Environment) (options : BuildOption)
    (i : UInt16) (db : Database) (levels : List (ItemId × Nat)) (b : HnswBuilder M0)
    (tr : List (Event (Request M0) (Layers M0)))
    (c : Config (Request M0) (Reply M0) Failure (Layers M0) Unit) : Prop where
  start : preparedFor D M M0 env options i db = .ok (levels, b)
  run : Server.Run (exec D M options.alpha (snapshot options i db))
    ⟨b.layers, groupTasks D M options env (snapshot options i db) b 0 levels⟩ tr c
  inTurn : InTurn tr

/-- The inserts of a build without concurrency. -/
theorem Inserting.of_insertGroups (hstart : preparedFor D M M0 env options i db = .ok (levels, b))
    (hpicks : ∀ g, env.schedule.picks g = []) {layers : Layers M0}
    (h : insertGroups D M options env (snapshot options i db) b 0 0 (levelGroups levels) b.layers =
      .ok layers) :
    ∃ tr values, Inserting D M env options i db levels b tr ⟨layers, values⟩ := by
  obtain ⟨tr, values, hrun, hturn⟩ := run_of_insertGroups hpicks h
  exact ⟨tr, _, hstart, hrun, hturn⟩

/-- The entry points of the build, old and new. -/
abbrev entryPointOf (options : BuildOption) (i : UInt16) (db : Database) (b : HnswBuilder M0) :
    ItemId → Prop :=
  EntryPoint (builderOf M0 i (takeStones options i db)) b

/-! ## When every link is held once -/

/-- The repair leaves one copy of every link of a surviving node. -/
def RepairedOnce (D : Distance) (M : Nat) (options : BuildOption) (i : UInt16) (db : Database)
    (E : ItemId → Prop) (layers : Layers M0) : Prop :=
  ∀ (l : LayerId) x q links, x ≠ q → ¬ E x → ¬ E q → db.links? i x l = some links →
    x ∉ (buildSets options i db).toDelete →
    RepairsOnce D M M0 options.alpha (snapshot options i db) x l.toNat
      (mergedLinks (snapshot options i db) (buildSets options i db).toDelete links l.toNat)
      (linksAt layers l.toNat x) q

/-- The layers after the repair. -/
def repaired (D : Distance) (M : Nat) (env : Environment) (options : BuildOption) (i : UInt16)
    (db : Database) (layers : Layers M0) : Except Failure (Layers M0) :=
  fillGapsFromDeleted D M options env (snapshot options i db) (buildSets options i db).toDelete
    layers

/-- No list of the build holds a link twice, entry points apart: after any step of the inserts, and
after the repair. -/
def LinksOnce (D : Distance) (M : Nat) (env : Environment) (options : BuildOption) (i : UInt16)
    (db : Database) (b : HnswBuilder M0) (tr : List (Event (Request M0) (Layers M0)))
    (layers : Layers M0) : Prop :=
  (∀ e ∈ tr, LinkedOnce (entryPointOf options i db b) e.after) ∧
    ∀ layers', repaired D M env options i db layers = .ok layers' →
      LinkedOnce (entryPointOf options i db b) layers'

section builds

variable (h : Inserting D M env options i db levels b tr c)
include h

theorem Inserting.linkedOnce_start (hready : Ready options i db) (E : ItemId → Prop) :
    LinkedOnce E b.layers := fun l p q _ _ _ => by
  rw [copies_start (fun l x node hx =>
    (entered_of_prepare hready.buildInput.layers h.start l x node hx).1)]
  exact Nat.zero_le _

/-- One build from a ready index. -/
theorem Inserting.linksOnce_iff (hready : Ready options i db) :
    LinksOnce D M env options i db b tr c.state ↔
      (∀ e ∈ tr, ¬ Repeats M (entryPointOf options i db b) e) ∧
        ∀ layers', repaired D M env options i db c.state = .ok layers' →
          RepairedOnce D M options i db (entryPointOf options i db b) c.state := by
  have hstart := h.linkedOnce_start hready (entryPointOf options i db b)
  rw [← linkedOnce_iff h.run modest_groupTasks hstart]
  refine and_congr_right fun hafter => forall_congr' fun layers' =>
    imp_congr_right fun hrepair => ?_
  have hlast : LinkedOnce (entryPointOf options i db b) c.state :=
    h.run.keeps (fun e he _ => hafter e he) hstart
  have hin : BuildInput _ _ _ (builderOf M0 i (takeStones options i db)) := hready.buildInput
  have hok : LayersOk (snapshot options i db) c.state :=
    (allowed_of_event hin.disk (prepare_spec hin.disk (prepareInput_of_buildInput env hin) h.start)
      h.run).1
  rw [linkedOnce_repair_iff hin.wellTyped hin.disk hin.owners hok.toLinked hlast hrepair]
  simp only [RepairedOnce, disk_snapshot]

/-- One build whose scheduled items, entry points apart, have no stored links. -/
theorem Inserting.linksOnce_of_new (hready : Ready options i db)
    (hnew : ∀ x ∈ levels.map Prod.fst, ¬ entryPointOf options i db b x →
      db.links? i x 0 = none) : LinksOnce D M env options i db b tr c.state := by
  have hin : BuildInput _ _ _ (builderOf M0 i (takeStones options i db)) := hready.buildInput
  have hnewOnly := newOnly_of_prepare hin h.start fun x hx hE l => by
    -- a node with links at some layer has links at layer 0
    refine Option.eq_none_iff_forall_ne_some.mpr fun links hlinks => ?_
    rw [disk, links?_takeStones, ← disk_snapshot options] at hlinks
    obtain ⟨links', h0⟩ := hin.disk.down (UInt8.toNat_lt _) hlinks (Nat.zero_le _)
    rw [disk, links?_takeStones] at h0
    exact absurd ((hnew x hx hE).symm.trans h0) (by simp)
  have hnone := hnewOnly.not_repeats hin.disk
    (prepare_spec hin.disk (prepareInput_of_buildInput env hin) h.start) h.run h.inTurn
  refine (h.linksOnce_iff hready).mpr ⟨hnone, fun layers' _ l x q links hne hx hq hlinks _ => ?_⟩
  have hstart := h.linkedOnce_start hready (entryPointOf options i db b)
  have hlast := h.run.keeps (fun e he _ =>
    (linkedOnce_iff h.run modest_groupTasks hstart).mpr hnone e he) hstart
  refine repairsOnce_of_not_both (hlast l.toNat x q hne hx hq)
    (hnewOnly.not_both hin.disk h.run hx hq ?_)
  rw [disk_snapshot]
  exact hlinks

end builds

/-! ## Builds that only add items -/

/-- A build without concurrency inserts one item after the other, and then repairs. -/
theorem Inserting.of_buildLayers (hpicks : ∀ g, env.schedule.picks g = []) {b' : HnswBuilder M0}
    (h : buildLayers D M options env (snapshot options i db)
      (builderOf M0 i (takeStones options i db)) (buildSets options i db).toInsert
      (buildSets options i db).toDelete = .ok b') :
    ∃ (levels : List (ItemId × Nat)) (b : HnswBuilder M0) (tr : List _) (c : Config _ _ _ _ _),
      Inserting D M env options i db levels b tr c ∧
        repaired D M env options i db c.state = .ok b'.layers ∧
        b'.entryPoints = b.entryPoints := by
  obtain ⟨levels, b, layers, hstart, hins, hrepair, -, heps⟩ := buildLayers_ok h
  obtain ⟨tr, values, hinserting⟩ := Inserting.of_insertGroups hstart hpicks hins
  exact ⟨levels, b, tr, _, hinserting, hrepair, heps⟩

/-- **New items only**: when no item to insert has stored links and no entry point is deleted, the
layers of the build hold every link once. -/
theorem linkedOnce_of_new_items (hready : Ready options i db)
    (hpicks : ∀ g, env.schedule.picks g = []) {b' : HnswBuilder M0}
    (h : buildLayers D M options env (snapshot options i db)
      (builderOf M0 i (takeStones options i db)) (buildSets options i db).toInsert
      (buildSets options i db).toDelete = .ok b')
    (hnew : ∀ x ∈ (buildSets options i db).toInsert, db.links? i x 0 = none)
    (hkept : (builderOf M0 i (takeStones options i db)).entryPoints.toFinset ∩
      (buildSets options i db).toDelete = ∅) :
    LinkedOnce (EntryPoint (builderOf M0 i (takeStones options i db)) b') b'.layers := by
  obtain ⟨levels, b, tr, c, hinserting, hrepair, heps⟩ := Inserting.of_buildLayers hpicks h
  have hE : EntryPoint (builderOf M0 i (takeStones options i db)) b' =
      entryPointOf options i db b := by
    funext x
    simp only [entryPointOf, EntryPoint, heps]
  rw [hE]
  refine (hinserting.linksOnce_of_new hready fun x hx hxE => ?_).2 _ hrepair
  obtain ⟨newEps, hreplaced, rfl, -⟩ := prepare_ok hinserting.start
  -- no entry point is replaced, so the scheduled items are the new ones and the entry points
  rw [hkept, Finset.card_empty, replaceDeleted] at hreplaced
  cases hreplaced
  obtain ⟨p, hp, rfl⟩ := List.mem_map.mp hx
  rcases mem_scheduleLevels.mp hp with hp | ⟨hp, -⟩
  · exact hnew p.1 (mem_drawnLevels.mp hp).1
  · exact absurd (Or.inl (List.mem_toFinset.mp (Finset.mem_sdiff.mp hp).1)) hxE

/-! ## The builds of a run -/

variable [DecidableEq T]

/-- **A build holds every link once**, entry points apart, exactly if no step appends a link that a
list with room holds and the repair leaves one copy of each; a build whose scheduled items, entry
points apart, have no stored links always does. -/
theorem links_once_iff (h₀ : NoEntries i db₀) (hstart : BuildStart dist i db₀ options db)
    (h : Inserting D M env options i db levels b tr c) :
    (LinksOnce D M env options i db b tr c.state ↔
      (∀ e ∈ tr, ¬ Repeats M (entryPointOf options i db b) e) ∧
        ∀ layers', repaired D M env options i db c.state = .ok layers' →
          RepairedOnce D M options i db (entryPointOf options i db b) c.state) ∧
      ((∀ x ∈ levels.map Prod.fst, ¬ entryPointOf options i db b x →
          db.links? i x 0 = none) → LinksOnce D M env options i db b tr c.state) :=
  ⟨h.linksOnce_iff (hstart.ready h₀), h.linksOnce_of_new (hstart.ready h₀)⟩

/-! ## Items that are added again -/

/-- The levels of the next build of a database, its builder, and the layers after its inserts. -/
def insertsOf (db : Database) :
    Except Failure (List (ItemId × Nat) × HnswBuilder 2 × Layers 2) := do
  let (levels, b) ← preparedFor manhattan 2 2 .twoLevels BuildOption.default 0 db
  let layers ← insertGroups manhattan 2 BuildOption.default .twoLevels
    (snapshot BuildOption.default 0 db) b 0 0 (levelGroups levels) b.layers
  pure (levels, b, layers)

theorem inserting_of_insertsOf {levels : List (ItemId × Nat)} {b : HnswBuilder 2}
    {layers : Layers 2} (h : insertsOf db = .ok (levels, b, layers)) : ∃ tr values,
      Inserting manhattan 2 .twoLevels BuildOption.default 0 db levels b tr ⟨layers, values⟩ := by
  unfold insertsOf at h
  simp only [ok_bind_iff] at h
  obtain ⟨⟨levels', b'⟩, hstart, layers', hins, h⟩ := h
  cases h
  exact Inserting.of_insertGroups hstart (fun _ => rfl) hins

theorem buildStart_of_play {history : List (Writer × Op)} (hi : ∀ e ∈ history, e.1.index = 0)
    (h : play manhattan ∅ history = some db) :
    BuildStart manhattans 0 ∅ BuildOption.default db := by
  obtain ⟨states, hrun⟩ := Course.of_run manhattans false (Run.of_play hi h)
  exact .build hrun rfl

/-- Two items are built, and a third one is added. -/
def thirdItem : List (Writer × Op) :=
  [.addItem 2 [⟨0x40400000⟩], .build 2 2 .twoLevels BuildOption.default,
    .addItem 1 [⟨0x40000000⟩], .addItem 0 [F32.zero]].map (⟨0, 1⟩, ·)

/-- The third item has no stored links. -/
theorem links_once_third_item : ∃ db levels b tr c, play manhattan ∅ thirdItem = some db ∧
    Inserting manhattan 2 .twoLevels BuildOption.default 0 db levels (b : HnswBuilder 2) tr c ∧
    (linksAt c.state 0 2).map Scored.id = [1] ∧
    LinksOnce manhattan 2 .twoLevels BuildOption.default 0 db b tr c.state := by
  have h : ((play manhattan ∅ thirdItem).bind fun db => (insertsOf db).toOption.map fun p =>
      (p.1.map Prod.fst, p.2.1.entryPoints, db.links? 0 2 0,
        (linksAt p.2.2 0 2).map Scored.id)) = some ([0, 2], [0], none, [1]) := by decide +kernel
  obtain ⟨db, hdb, h⟩ := Option.bind_eq_some_iff.mp h
  obtain ⟨⟨levels, b, layers⟩, hins, h⟩ := Option.map_eq_some_iff.mp h
  simp only [Prod.mk.injEq] at h
  obtain ⟨hlevels, heps, hlinks, hmem⟩ := h
  obtain ⟨tr, values, hinserting⟩ := inserting_of_insertsOf (ok_of_toOption hins)
  refine ⟨db, levels, b, tr, _, hdb, hinserting, hmem,
    (links_once_iff noEntries_empty (buildStart_of_play (by decide) hdb) hinserting).2
      fun x hx hE => ?_⟩
  rw [hlevels] at hx
  rcases List.mem_cons.mp hx with rfl | hx
  · exact absurd (Or.inr (by rw [heps]; exact List.mem_cons_self)) hE
  · obtain rfl := List.mem_singleton.mp hx
    exact hlinks

/-- Three items are built, and two of them are added again. -/
def readded : List (Writer × Op) :=
  [.addItem 2 [⟨0x40400000⟩], .addItem 1 [⟨0x40000000⟩],
    .build 2 2 .twoLevels BuildOption.default, .addItem 2 [⟨0x40400000⟩],
    .addItem 1 [⟨0x40000000⟩], .addItem 0 [F32.zero]].map (⟨0, 1⟩, ·)

/-- Item 2 has item 1 in its list twice; the only entry point is item 0. -/
theorem link_added_twice : ∃ db levels b tr c,
    BuildStart manhattans 0 ∅ BuildOption.default db ∧
    Inserting manhattan 2 .twoLevels BuildOption.default 0 db levels (b : HnswBuilder 2) tr c ∧
    ¬ entryPointOf BuildOption.default 0 db b 1 ∧ ¬ entryPointOf BuildOption.default 0 db b 2 ∧
    (linksAt c.state 0 2).map Scored.id = [1, 1] := by
  have h : ((play manhattan ∅ readded).bind fun db => (insertsOf db).toOption.map fun p =>
      ((builderOf 2 0 (takeStones BuildOption.default 0 db)).entryPoints, p.2.1.entryPoints,
        (linksAt p.2.2 0 2).map Scored.id)) = some ([0], [0], [1, 1]) := by decide +kernel
  obtain ⟨db, hdb, h⟩ := Option.bind_eq_some_iff.mp h
  obtain ⟨⟨levels, b, layers⟩, hins, h⟩ := Option.map_eq_some_iff.mp h
  simp only [Prod.mk.injEq] at h
  obtain ⟨hold, hnew, hlinks⟩ := h
  obtain ⟨tr, values, hinserting⟩ := inserting_of_insertsOf (ok_of_toOption hins)
  have hE : ∀ x, x ≠ 0 → ¬ entryPointOf BuildOption.default 0 db b x := by
    rintro x hx (hx' | hx')
    · rw [hold] at hx'
      exact hx (List.mem_singleton.mp hx')
    · rw [hnew] at hx'
      exact hx (List.mem_singleton.mp hx')
  exact ⟨db, levels, b, tr, _, buildStart_of_play (by decide) hdb, hinserting, hE 1 (by decide),
    hE 2 (by decide), hlinks⟩

end Hannoy.Index
