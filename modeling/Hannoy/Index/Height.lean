import Hannoy.Graph.Height
import Hannoy.Graph.Probas
import Hannoy.Index.Run
import Hannoy.Index.Writes

/-!
# How many layers an index has (`lib.rs:135-137`, `hnsw.rs:93-119, 191-213`, `writer.rs:585-595`)

Layers are counted in `usize` during a build and stored as a `u8`. With at least two links per node
every level that is drawn is below 30, whatever the generator; a build adds layers up to the highest
level it draws, and keeps those it finds.

* `Low`: the heights an index stores are below a bound.
* `maintains_build`: a build whose levels are below the bound keeps it, however it ends.
* `casts_exact`: the casts of such a build lose nothing.
* `fewer_than_256_layers`: the levels drawn, and the layers of any sequence of operations.
-/

namespace Hannoy.Index

open Hannoy.Library Hannoy.Library.Txn Hannoy.Writer Hannoy.Graph

variable {D : Distance} {w : Writer} {M M0 n : Nat} {env : Environment} {options : BuildOption}
  {i : UInt16} {db db' : Database}

/-- The height of the metadata and the layers of the stored links are below `n`. -/
structure Low (i : UInt16) (n : Nat) (db : Database) : Prop where
  height : ∀ m, db[Key.metadata i]? = some (.metadata m) → m.maxLevel.toNat < n
  layer : ∀ k : Key, k.index = i → k.node.mode = .links → db[k]?.isSome → k.node.layer.toNat < n

/-! ## Writes -/

theorem low_of_noEntries (h : NoEntries i db) : Low i n db where
  height m hm := by rw [h _ rfl] at hm; cases hm
  layer k hi _ hk := by rw [h k hi] at hk; cases hk

namespace Low

theorem delete (h : Low i n db) (k : Key) : Low i n (db.delete k) where
  height m hm := by
    rw [Database.getElem?_delete] at hm
    split_ifs at hm
    exact h.height m hm
  layer k' hi hmode hk' := by
    rw [Database.getElem?_delete] at hk'
    split_ifs at hk'
    · cases hk'
    · exact h.layer k' hi hmode hk'

theorem put (h : Low i n db) {k : Key} {v : Value}
    (hheight : ∀ m, k = Key.metadata i → v = .metadata m → m.maxLevel.toNat < n)
    (hlayer : k.node.mode = .links → k.node.layer.toNat < n) : Low i n (db.put k v) where
  height m hm := by
    rw [Database.getElem?_put] at hm
    split_ifs at hm with hk
    · exact hheight m hk.symm (Option.some.inj hm)
    · exact h.height m hm
  layer k' hi hmode hk' := by
    rw [Database.getElem?_put] at hk'
    split_ifs at hk' with hk
    · rw [hk] at hmode ⊢
      exact hlayer hmode
    · exact h.layer k' hi hmode hk'

/-- Items and stones have no height. -/
theorem put_of_mode (h : Low i n db) {k : Key} (v : Value) (hm : k.node.mode ≠ .metadata)
    (hl : k.node.mode ≠ .links) : Low i n (db.put k v) :=
  h.put (fun _ hk _ => absurd (congrArg (fun k => k.node.mode) hk) hm) fun hmode => absurd hmode hl

theorem deleteAll : ∀ {keys : List Key} {db : Database}, Low i n db → Low i n (db.deleteAll keys)
  | [], _, h => h
  | k :: keys, db, h => by
    show Low i n ((db.delete k).deleteAll keys)
    exact deleteAll (h.delete k)

theorem linksEntries (h : Low i n db) : ∀ e ∈ (⟨db, i⟩ : FrozenReader).linksEntries,
    e.1.node.layer.toNat < n := by
  rintro ⟨k, v⟩ he
  obtain ⟨hk, hi, hmode⟩ := Database.mem_prefixIter.mp he
  exact h.layer k hi (hmode _ rfl) (by rw [hk]; rfl)

end Low

instance : IsPreorder Database fun db db' => Low i n db → Low i n db' where
  refl _ h := h
  trans _ _ _ h h' hlow := h' (h hlow)

theorem getElem?_of_metadata? {m : Metadata} (h : db.metadata? i = some m) :
    db[Key.metadata i]? = some (.metadata m) := by
  unfold Database.metadata? at h
  split at h
  · cases h
    assumption
  · cases h

/-! ## Items -/

theorem maintains_addItem {x : ItemId} {v : List F32} :
    Maintains (Low i n) (fun _ => True) (w.addItem D x v) := by
  unfold addItem
  have hputs := Maintains.bind (Maintains.modify (ε := Failure) fun db (h : Low i n db) =>
    h.put_of_mode (k := Key.item w.index x) (.node (.item (Item.ofVector D v)))
      (by simp [Key.item]) (by simp [Key.item])) fun _ _ =>
    Maintains.modify fun db (h : Low i n db) => h.put_of_mode (k := Key.updated w.index x)
      (.status .updated) (by simp [Key.updated]) (by simp [Key.updated])
  split_ifs
  · exact Maintains.throw _
  · exact hputs

theorem maintains_delItem {x : ItemId} : Maintains (Low i n) (fun _ => True) (w.delItem x) := by
  intro db h
  refine ⟨?_, fun _ _ _ => trivial⟩
  rw [delItem_eq]
  split_ifs
  · exact (h.delete _).put_of_mode _ (by simp [Key.updated]) (by simp [Key.updated])
  · exact h

theorem maintains_clear : Maintains (Low i n) (fun _ => True) w.clear :=
  Maintains.modify fun _ h => h.deleteAll

/-! ## Builds -/

theorem maintains_check (site : Site) :
    Maintains (Low i n) (fun _ => True) (RwTxn.check env site) :=
  .of_keeps (keeps_check site)

theorem maintains_ofExcept {α : Type} (x : Except Failure α) :
    Maintains (Low i n) (fun a => x = .ok a) (RwTxn.ofExcept x) := by
  cases x with
  | ok a => exact Maintains.pure rfl
  | error e => exact Maintains.throw e

theorem maintains_retrieveSets :
    Maintains (Low i n) (fun _ => True) (w.retrieveSets env options) :=
  .of_keeps (keeps_retrieveSets fun k _ _ _ h => h.delete k)

theorem maintains_startBuilder (hn : 0 < n) : Maintains (Low w.index n)
    (fun b => b.maxLevel < n ∧ b.layers = []) (w.startBuilder M0 env) := by
  refine fun db h => ⟨keeps_startBuilder (R := fun db db' => Low w.index n db → Low w.index n db')
    db h, fun b db' hstart => ?_⟩
  obtain ⟨rfl, -⟩ := startBuilder_ok hstart
  unfold builderOf
  cases hm : db.metadata? w.index with
  | none => exact ⟨hn, rfl⟩
  | some m => exact ⟨h.height m (getElem?_of_metadata? hm), rfl⟩

/-- **The layers of a build from a low index** are below the bound. -/
theorem height_lt {b b' : HnswBuilder M0} {toInsert toDelete : RoaringBitmap}
    (hdrawn : ∀ x, env.schedule.level x < n) (hb : b.maxLevel < n ∧ b.layers = [])
    (h : Low i n db)
    (hbuild : HnswBuilder.buildLayers D M options env ⟨db, i⟩ b toInsert toDelete = .ok b') :
    b'.maxLevel < n ∧ b'.layers.length ≤ n :=
  height_buildLayers hdrawn hb.1 hb.2 h.linksEntries hbuild

theorem toNat_toUInt8_lt {l : Nat} (h : l < n) : l.toUInt8.toNat < n :=
  (Nat.mod_le l (2 ^ 8)).trans_lt h

theorem maintains_writeLinks : ∀ {l : List (Key × Value)} {k : Nat},
    (∀ e ∈ l, e.1.node.mode = .links ∧ e.1.node.layer.toNat < n) →
      Maintains (Low i n) (fun _ => True) (HnswBuilder.writeLinks options env k l)
  | [], _, _ => Maintains.pure trivial
  | (key, v) :: l, k, h => by
    obtain ⟨⟨hmode, hlt⟩, hrest⟩ := List.forall_mem_cons.mp h
    unfold HnswBuilder.writeLinks
    split_ifs
    · exact Maintains.throw _
    · refine (maintains_check _).bind fun _ _ => Maintains.bind (Maintains.modify fun db hlow =>
        hlow.put (fun m hk => ?_) fun _ => hlt) fun _ _ => maintains_writeLinks hrest
      rw [hk] at hmode
      cases hmode

theorem maintains_builderBuild {b : HnswBuilder M0} {toInsert toDelete : RoaringBitmap}
    (hdrawn : ∀ x, env.schedule.level x < n) (hb : b.maxLevel < n ∧ b.layers = []) :
    Maintains (Low i n) (fun b => b.maxLevel < n)
      (HnswBuilder.build D M options env b i toInsert toDelete) := by
  unfold HnswBuilder.build
  refine (maintains_check _).bind fun _ _ => Maintains.get.bind fun db h => ?_
  refine (maintains_ofExcept _).bind fun b' hlayers => ?_
  obtain ⟨hmax, hlength⟩ := height_lt hdrawn hb h hlayers
  refine (maintains_writeLinks fun e he => ?_).bind fun _ _ => Maintains.pure hmax
  obtain ⟨l, x, node, hget, hkey, -⟩ := mem_linksToWrite (k := e.1) (v := e.2) |>.mp he
  rw [hkey]
  exact ⟨rfl, toNat_toUInt8_lt ((Layers.lt_length_of_get? hget).trans_le hlength)⟩

theorem maintains_deleteLinksFromDb {toDelete : RoaringBitmap} :
    Maintains (Low i n) (fun _ => True) (w.deleteLinksFromDb env toDelete) := by
  unfold deleteLinksFromDb
  exact Maintains.get.bind fun _ _ => .of_keeps (keeps_deleteLinksLoop fun k _ _ h => h.delete k)

theorem maintains_writeMetadata {items : RoaringBitmap} {b : HnswBuilder M0}
    (hb : b.maxLevel < n) :
    Maintains (Low i n) (fun _ => True) (w.writeMetadata D M0 env items b) := by
  unfold writeMetadata
  split_ifs
  · exact Maintains.throw _
  · refine (maintains_check _).bind fun _ _ => Maintains.bind (Maintains.modify fun db h =>
      h.put (fun m _ hm => ?_) fun hmode => by cases hmode) fun _ _ =>
        (maintains_check _).bind fun _ _ => Maintains.modify fun db h =>
          h.put (fun m _ hm => by cases hm) fun hmode => by cases hmode
    cases hm
    exact toNat_toUInt8_lt hb

/-- **A build whose levels are below the bound** keeps the heights below it, however it ends. -/
theorem maintains_build (hn : 0 < n) (hdrawn : ∀ x, env.schedule.level x < n) :
    Maintains (Low w.index n) (fun _ => True) (w.build D M M0 env options) := by
  unfold Writer.build
  refine maintains_retrieveSets.bind fun sets _ => (maintains_startBuilder hn).bind fun b hb => ?_
  refine (maintains_builderBuild hdrawn hb).bind fun b' hb' => ?_
  exact maintains_deleteLinksFromDb.bind fun _ _ => maintains_writeMetadata hb'

theorem maintains_forceRebuild (hn : 0 < n) (hdrawn : ∀ x, env.schedule.level x < n) :
    Maintains (Low w.index n) (fun _ => True) (w.forceRebuild D M M0 env options) := by
  unfold forceRebuild
  refine Maintains.get.bind fun db _ => (maintains_ofExcept _).bind fun m _ => ?_
  cases m with
  | none => exact Maintains.throw _
  | some m =>
    exact maintains_deleteLinksFromDb.bind fun _ _ => maintains_build hn hdrawn

/-! ## Sequences of operations -/

variable {G : Type} {ε : ℝ} {S : Sampler ℝ G}

/-- The levels of a build are drawn, with at least two links per node. -/
def Op.Drawn (ε : ℝ) (S : Sampler ℝ G) : Op → Prop
  | .build M _ env _ => 2 ≤ M ∧ env.schedule.Drawn (exactMath ε) S M
  | .forceRebuild M _ env _ => 2 ≤ M ∧ env.schedule.Drawn (exactMath ε) S M
  | _ => True

/-- What an operation leaves, whether it returns or fails. -/
def Op.leaves (D : Distance) (w : Writer) (db : Database) : Op → Database
  | .addItem x v => final (w.addItem D x v db)
  | .delItem x => final (w.delItem x db)
  | .clear => final (w.clear db)
  | .build M M0 env options => final (w.build D M M0 env options db)
  | .forceRebuild M M0 env options => final (w.forceRebuild D M M0 env options db)

/-- A call of a writer, under a distance. -/
structure Invocation where
  distance : Distance
  writer : Writer
  op : Op

/-- What a sequence of calls leaves. -/
def leaves (calls : List Invocation) (db : Database) : Database :=
  calls.foldl (fun db c => c.op.leaves c.distance c.writer db) db

/-- **One operation** keeps the heights below 30. -/
theorem low_op (hS : S.Faithful) (hε : 0 ≤ ε) {op : Op} (hop : op.Drawn ε S)
    (h : Low w.index 30 db) : Low w.index 30 (op.leaves D w db) := by
  cases op with
  | addItem x v => exact (maintains_addItem db h).1
  | delItem x => exact (maintains_delItem db h).1
  | clear => exact (maintains_clear (w := w) db h).1
  | build M M0 env options =>
    exact (maintains_build (by decide) (level_lt hS hop.1 hε hop.2) db h).1
  | forceRebuild M M0 env options =>
    exact (maintains_forceRebuild (by decide) (level_lt hS hop.1 hε hop.2) db h).1

theorem low_calls (hS : S.Faithful) (hε : 0 ≤ ε) : ∀ {calls : List Invocation} {db : Database},
    (∀ c ∈ calls, c.writer.index = i ∧ c.op.Drawn ε S) → Low i 30 db → Low i 30 (leaves calls db)
  | [], _, _, h => h
  | c :: calls, db, hcalls, h => by
    obtain ⟨⟨hi, hop⟩, hrest⟩ := List.forall_mem_cons.mp hcalls
    have hlow : Low c.writer.index 30 db := hi.symm ▸ h
    have hnext : Low i 30 (c.op.leaves c.distance c.writer db) := hi ▸ low_op hS hε hop hlow
    show Low i 30 (leaves calls (c.op.leaves c.distance c.writer db))
    exact low_calls hS hε hrest hnext

/-- The casts of the heights of a build lose nothing. -/
def CastsExact (b : HnswBuilder M0) : Prop :=
  b.maxLevel.toUInt8.toNat = b.maxLevel ∧ ∀ l l', l < b.layers.length → l' < b.layers.length →
    l.toUInt8 = l'.toUInt8 → l = l'

theorem casts_exact {b : HnswBuilder M0} (hmax : b.maxLevel < 30) (hlength : b.layers.length ≤ 30) :
    CastsExact b := by
  refine ⟨UInt8.toNat_ofNat_of_lt' (hmax.trans (by decide)), fun l l' hl hl' heq => ?_⟩
  have hcast := congrArg UInt8.toNat heq
  have hlt : ∀ {l}, l < b.layers.length → l < UInt8.size :=
    fun h => (h.trans_le hlength).trans (by decide)
  rwa [UInt8.toNat_ofNat_of_lt' (hlt hl), UInt8.toNat_ofNat_of_lt' (hlt hl')] at hcast

/-- **There are fewer than 256 layers.** In exact arithmetic the loop over the levels ends, with at
most 30 positive weights that sum to less than one; and whatever a sequence of operations does, the
height and the layers it stores are below 30, and the next build casts its own without loss. -/
theorem fewer_than_256_layers (hS : S.Faithful) (hε : 0 ≤ ε) :
    (∀ M, 2 ≤ M → ∃ weights,
      (∀ fuel, 30 < fuel → HnswBuilder.getDefaultProbas (exactMath ε) M fuel = some weights) ∧
        weights ≠ [] ∧ (∀ p ∈ weights, 0 < p) ∧ weights.sum < 1 ∧ weights.length ≤ 30 ∧
        ∀ rng, ∃ level < 30, HnswBuilder.getRandomLevel S weights rng = some level) ∧
    ∀ (i : UInt16) (db₀ : Database) (calls : List Invocation), NoEntries i db₀ →
      (∀ c ∈ calls, c.writer.index = i ∧ c.op.Drawn ε S) → Low i 30 (leaves calls db₀) ∧
      ∀ (D : Distance) (w : Writer) (M M0 : Nat) (env : Environment) (options : BuildOption),
        w.index = i → 2 ≤ M → env.schedule.Drawn (exactMath ε) S M →
        ∀ sets db₁ b db₂ b', w.retrieveSets env options (leaves calls db₀) = .ok sets db₁ →
          w.startBuilder M0 env db₁ = .ok b db₂ →
          HnswBuilder.buildLayers D M options env ⟨db₂, i⟩ b sets.toInsert sets.toDelete = .ok b' →
          b'.maxLevel < 30 ∧ b'.layers.length ≤ 30 ∧ CastsExact b' := by
  refine ⟨fun M hM => ?_, fun i db₀ calls h₀ hcalls => ?_⟩
  · obtain ⟨m, hpos, hle, hloop⟩ := exists_probas hM hε
    refine ⟨_, fun fuel hfuel => hloop fuel (hle.trans_lt hfuel), ?_, fun p hp => ?_, ?_, ?_,
      fun rng => ?_⟩
    · rw [Ne, List.map_eq_nil_iff, List.range_eq_nil]
      exact hpos.ne'
    · obtain ⟨level, -, rfl⟩ := List.mem_map.mp hp
      exact proba_pos hM hε level
    · rw [sum_probas hM hε]
      exact sub_lt_self 1 (pow_pos (ratio_pos hM hε) m)
    · rwa [List.length_map, List.length_range]
    · obtain ⟨level, hlt, hdraw⟩ := exists_level hS hM hε hpos rng
      exact ⟨level, hlt.trans_le hle, hdraw⟩
  · have hlow := low_calls hS hε hcalls (low_of_noEntries h₀)
    refine ⟨hlow, fun D w M M0 env options hi hM hdrawn sets db₁ b db₂ b' hsets hstart hlayers =>
      ?_⟩
    subst hi
    obtain ⟨hlow₁, -⟩ := maintains_retrieveSets.of_ok hlow hsets
    obtain ⟨hlow₂, hb⟩ := (maintains_startBuilder (by decide)).of_ok hlow₁ hstart
    obtain ⟨hmax, hlength⟩ := height_lt (level_lt hS hM hε hdrawn) hb hlow₂ hlayers
    exact ⟨hmax, hlength, casts_exact hmax hlength⟩

/-- Two items are added and built with two links per node. -/
def builtOnce : List Invocation :=
  [.addItem 0 [F32.zero], .addItem 1 [F32.one],
    .build 2 2 .oneLevel BuildOption.default].map (⟨manhattan, ⟨0, 1⟩, ·⟩)

theorem fewer_than_256_layers_once :
    (∃ weights, HnswBuilder.getDefaultProbas (exactMath 0) 2 31 = some weights ∧
      weights.length ≤ 30) ∧ Low 0 30 (leaves builtOnce ∅) := by
  obtain ⟨hprobas, hlayers⟩ := fewer_than_256_layers lineSampler_faithful (le_refl (0 : ℝ))
  obtain ⟨weights, hloop, -, -, -, hlength, -⟩ := hprobas 2 le_rfl
  refine ⟨⟨weights, hloop 31 (by decide), hlength⟩, (hlayers 0 ∅ builtOnce noEntries_empty ?_).1⟩
  intro c hc
  simp only [builtOnce, List.map_cons, List.map_nil, List.mem_cons, List.not_mem_nil,
    or_false] at hc
  rcases hc with rfl | rfl | rfl
  · exact ⟨rfl, trivial⟩
  · exact ⟨rfl, trivial⟩
  · exact ⟨rfl, le_rfl, drawn_oneLevel⟩

end Hannoy.Index
