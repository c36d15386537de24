import Hannoy.Index.Run
import Hannoy.Index.Writes

/-!
# A build that fails (`writer.rs:521-603`)

A build deletes the "updated" stones before anything else. When it fails later on, in the same
transaction, the pending updates are gone.

* `Frame`: what the phases after the stones leave alone, however they end.
* `SamePending`: two states of the index that only differ in their links and in their height. All
  continuations index the same items.
* `failed_build_iff`: a failed build keeps the pending updates exactly when there were none, when
  it had to leave the stones alone, or when it stopped before it deleted the first one.
* `cancelled_build_forgets`: a build cancelled at the first insert loses the item to insert.
-/

namespace Hannoy.Index

open Hannoy.Library Hannoy.Library.Txn Hannoy.Writer Hannoy.Graph

variable {D : Distance} {w : Writer} {M M0 : Nat} {env : Environment} {options : BuildOption}
  {db db' db'' : Database} {i : UInt16} {items : RoaringBitmap}

/-! ## The phases after the stones -/

/-- Only links and metadata differ, and the new metadata lists `items` if the items differ. -/
structure Frame (i : UInt16) (items : RoaringBitmap) (db db' : Database) : Prop where
  entries : ∀ k : Key, k.node.mode ≠ .links → k.node.mode ≠ .metadata → db'[k]? = db[k]?
  indexed : indexed i db' = indexed i db ∨ indexed i db' = items

theorem indexed_congr (h : db'[Key.metadata i]? = db[Key.metadata i]?) :
    indexed i db' = indexed i db := by
  unfold indexed Database.metadata?
  rw [h]

namespace Frame

theorem refl (db : Database) : Frame i items db db := ⟨fun _ _ _ => rfl, Or.inl rfl⟩

theorem trans (h : Frame i items db db') (h' : Frame i items db' db'') :
    Frame i items db db'' := by
  refine ⟨fun k hl hm => (h'.entries k hl hm).trans (h.entries k hl hm), ?_⟩
  rcases h'.indexed with heq | heq
  · rw [heq]
    exact h.indexed
  · exact Or.inr heq

theorem of_write {f : Database → Database} (h : LateWrite i items f) (db : Database) :
    Frame i items db (f db) := by
  cases h with
  | putLinks x l s =>
    refine ⟨fun k hl _ => ?_, Or.inl (indexed_congr ?_)⟩
    · rw [Database.getElem?_put, if_neg]
      rintro rfl
      exact hl rfl
    · rw [Database.getElem?_put, if_neg (by simp [Key.metadata, Key.links])]
  | deleteLinks _ hk =>
    refine ⟨fun k' hl _ => ?_, Or.inl (indexed_congr ?_)⟩
    · rw [Database.getElem?_delete, if_neg]
      rintro rfl
      exact hl hk
    · rw [Database.getElem?_delete, if_neg]
      rintro rfl
      cases hk
  | putMetadata hm =>
    refine ⟨fun k _ hmode => ?_, Or.inr ?_⟩
    · rw [Database.getElem?_put, if_neg]
      rintro rfl
      exact hmode rfl
    · unfold Index.indexed Database.metadata?
      rw [Database.getElem?_put, if_pos rfl]
      exact hm
  | putVersion v =>
    refine ⟨fun k _ hmode => ?_, Or.inl (indexed_congr ?_)⟩
    · rw [Database.getElem?_put, if_neg]
      rintro rfl
      exact hmode rfl
    · rw [Database.getElem?_put, if_neg (by simp [Key.metadata, Key.version])]

end Frame

instance : IsPreorder Database (Frame i items) where
  refl := Frame.refl
  trans _ _ _ := Frame.trans

/-- **The phases after the stones** only write links and metadata. -/
theorem frame_buildFrom (sets : UpdateSets) :
    Keeps (Frame w.index sets.itemIndices) (buildFrom D w M M0 env options sets) :=
  keeps_buildFrom fun _ => Frame.of_write

/-! ## Taking the stones -/

/-- The build stops before it deletes a stone, if there is one: its metadata cannot be read, the
cursor fails, or the callback cancels at its first call. -/
def StopsBeforeStones (env : Environment) (options : BuildOption) : Prop :=
  env.fault .readItems = true ∨ env.fault (.nextStone 0) = true ∨
    options.cancel (.retrieve 0) = true ∨ env.fault (.delStone 0) = true

/-- Entries only go away. -/
def OnlyDeletes (db db' : Database) : Prop := ∀ k : Key, db[k]? = none → db'[k]? = none

instance : IsPreorder Database OnlyDeletes where
  refl _ _ h := h
  trans _ _ _ h h' k hk := h' k (h k hk)

theorem onlyDeletes_delete (k : Key) (db : Database) : OnlyDeletes db (db.delete k) := by
  intro k' hk'
  rw [Database.getElem?_delete]
  split_ifs
  · rfl
  · exact hk'

/-- A loop that is stopped before it deletes the first stone leaves the database as it is. -/
theorem retrieveLoop_stops (h : StopsBeforeStones env options)
    (hread : env.fault .readItems = false) (k : Key) (s : UpdateStatus)
    (entries : List (Key × Value)) (db : Database) :
    ∃ e, retrieveLoop env options 0 ((k, .status s) :: entries) ∅ ∅ db = .error e db := by
  rw [retrieveLoop, bind_eq]
  cases hnext : env.fault (.nextStone 0) with
  | true =>
    rw [RwTxn.check_of_fault hnext]
    exact ⟨_, rfl⟩
  | false =>
    rw [RwTxn.check_of_no_fault hnext]
    show ∃ e, (if options.cancelled 0 .retrieve = true then _ else _ : RwTxn _) db = .error e db
    cases hcancel : options.cancel (.retrieve 0) with
    | true =>
      rw [if_pos (by simp [BuildOption.cancelled, hcancel])]
      exact ⟨_, rfl⟩
    | false =>
      rw [if_neg (by simp [BuildOption.cancelled, hcancel]), bind_eq]
      have hdel : env.fault (.delStone 0) = true := by
        simpa [StopsBeforeStones, hread, hnext, hcancel] using h
      rw [RwTxn.check_of_fault hdel]
      exact ⟨_, rfl⟩

/-- A loop that is not stopped there deletes the first stone. -/
theorem retrieveLoop_starts (h : ¬ StopsBeforeStones env options) (k : Key) (s : UpdateStatus)
    (entries : List (Key × Value)) (db : Database) : ∃ updated deleted,
      retrieveLoop env options 0 ((k, .status s) :: entries) ∅ ∅ db =
        retrieveLoop env options 1 entries updated deleted (db.delete k) := by
  obtain ⟨-, hnext, hcancel, hdel⟩ : env.fault .readItems = false ∧
      env.fault (.nextStone 0) = false ∧ options.cancel (.retrieve 0) = false ∧
        env.fault (.delStone 0) = false := by
    simpa [StopsBeforeStones] using h
  refine ⟨insert k.node.item ∅, if s = .removed then insert k.node.item ∅ else ∅, ?_⟩
  rw [retrieveLoop, bind_eq, RwTxn.check_of_no_fault hnext]
  show (if options.cancelled 0 .retrieve = true then _ else _ : RwTxn _) db = _
  rw [if_neg (by simp [BuildOption.cancelled, hcancel]), bind_eq, RwTxn.check_of_no_fault hdel]
  rfl

theorem resetAndRetrieve_eq : w.resetAndRetrieveUpdatedItems env options db =
    retrieveLoop env options 0 (db.prefixIter (Prefix.updated w.index)) ∅ ∅ db := rfl

/-- `retrieveSets` on a well-typed index that can be read. -/
theorem retrieveSets_eq (hwt : db.WellTyped w.index) (hread : env.fault .readItems = false) :
    w.retrieveSets env options db =
      if options.relinkAllItems then .ok ⟨indexed w.index db, ∅, indexed w.index db⟩ db
      else match retrieveLoop env options 0 (db.prefixIter (Prefix.updated w.index)) ∅ ∅ db with
        | .ok (updated, deleted) db' =>
          .ok (updateSets updated deleted (indexed w.index db)) db'
        | .error e db' => .error e db' := by
  unfold retrieveSets indexed
  rw [bind_eq, RwTxn.check_of_no_fault hread]
  show (RwTxn.ofExcept (db.getMetadata w.index) >>= _ : RwTxn _) db = _
  rw [getMetadata_ok hwt]
  show (if options.relinkAllItems = true then _ else _ : RwTxn _) db = _
  split_ifs
  · rfl
  · rw [bind_eq, resetAndRetrieve_eq]
    cases retrieveLoop env options 0 (db.prefixIter (Prefix.updated w.index)) ∅ ∅ db with
    | ok a db' => rfl
    | error e db' => rfl

/-- Reading the stones leaves the database as it is when there are none, when they are left alone,
or when it stops before the first one. What it hands on is then what is indexed already. -/
theorem retrieveSets_quiet (hwt : db.WellTyped w.index)
    (h : options.relinkAllItems = true ∨ (∀ x, db.stone? w.index x = none) ∨
      StopsBeforeStones env options) :
    (∃ e, w.retrieveSets env options db = .error e db) ∨
      ∃ sets, w.retrieveSets env options db = .ok sets db ∧
        sets.itemIndices = indexed w.index db := by
  cases hread : env.fault .readItems with
  | true =>
    unfold retrieveSets
    rw [bind_eq, RwTxn.check_of_fault hread]
    exact Or.inl ⟨_, rfl⟩
  | false =>
    rw [retrieveSets_eq hwt hread]
    by_cases hr : options.relinkAllItems = true
    · rw [if_pos hr]
      exact Or.inr ⟨_, rfl, rfl⟩
    rw [if_neg hr]
    cases hentries : db.prefixIter (Prefix.updated w.index) with
    | nil =>
      rw [retrieveLoop, bind_eq]
      cases hnext : env.fault (.nextStone 0) with
      | true =>
        rw [RwTxn.check_of_fault hnext]
        exact Or.inl ⟨_, rfl⟩
      | false =>
        rw [RwTxn.check_of_no_fault hnext]
        exact Or.inr ⟨_, rfl, by simp [updateSets]⟩
    | cons e entries =>
      obtain ⟨k, v⟩ := e
      have hmem : (k, v) ∈ db.prefixIter (Prefix.updated w.index) :=
        hentries ▸ List.mem_cons_self
      obtain ⟨x, s, rfl, rfl, hx⟩ := (Database.mem_prefixIter_updated hwt).mp hmem
      have hstops : StopsBeforeStones env options := by
        rcases h with h | h | h
        · exact absurd h hr
        · rw [h x] at hx
          cases hx
        · exact h
      obtain ⟨e, he⟩ := retrieveLoop_stops hstops hread (Key.updated w.index x) s entries db
      rw [he]
      exact Or.inl ⟨e, rfl⟩

theorem stone?_of_none {x : ItemId} (h : db[Key.updated i x]? = none) : db.stone? i x = none := by
  rw [Database.stone?, h]

variable (D M M0) in
/-- Otherwise the first stone is gone, however the build ends. -/
theorem build_loses_stone (hwt : db.WellTyped w.index) (hr : options.relinkAllItems = false)
    {x : ItemId} {s : UpdateStatus} (hx : db.stone? w.index x = some s)
    (hstops : ¬ StopsBeforeStones env options) :
    ∃ y t, db.stone? w.index y = some t ∧
      (final (w.build D M M0 env options db)).stone? w.index y = none := by
  have hread : env.fault .readItems = false := by
    simp only [StopsBeforeStones, not_or, Bool.not_eq_true] at hstops
    exact hstops.1
  cases hentries : db.prefixIter (Prefix.updated w.index) with
  | nil =>
    rw [stone?_of_prefixIter_nil hentries x] at hx
    cases hx
  | cons e entries =>
    obtain ⟨k, v⟩ := e
    have hmem : (k, v) ∈ db.prefixIter (Prefix.updated w.index) := hentries ▸ List.mem_cons_self
    obtain ⟨y, t, rfl, rfl, hy⟩ := (Database.mem_prefixIter_updated hwt).mp hmem
    refine ⟨y, t, hy, ?_⟩
    have hgone : (db.delete (Key.updated w.index y))[Key.updated w.index y]? = none := by
      rw [Database.getElem?_delete, if_pos rfl]
    have hframe : ∀ {sets : UpdateSets} {db₁ : Database},
        db₁[Key.updated w.index y]? = none →
          (final (buildFrom D w M M0 env options sets db₁))[Key.updated w.index y]? = none := by
      intro sets db₁ h
      rw [(frame_buildFrom sets db₁).entries _ (by simp [Key.updated]) (by simp [Key.updated])]
      exact h
    obtain ⟨updated, deleted, hloop⟩ := retrieveLoop_starts hstops (Key.updated w.index y) t
      entries db
    have hkeeps : Keeps OnlyDeletes (retrieveLoop env options 1 entries updated deleted) :=
      keeps_retrieveLoop fun e _ => onlyDeletes_delete e.1
    have hdel := hkeeps _ _ hgone
    rw [build_eq, bind_eq, retrieveSets_eq hwt hread, if_neg (by simp [hr]), hentries, hloop]
    cases hrest : retrieveLoop env options 1 entries updated deleted
        (db.delete (Key.updated w.index y)) with
    | ok sets db₁ =>
      rw [hrest] at hdel
      exact stone?_of_none (hframe hdel)
    | error e db₁ =>
      rw [hrest] at hdel
      exact stone?_of_none hdel

/-! ## Continuing after a failure -/

/-- The index holds the same vectors, stones and indexed items in both states. -/
structure SamePending (i : UInt16) (db db' : Database) : Prop where
  entries : ∀ k : Key, k.index = i → k.node.mode = .item ∨ k.node.mode = .updated →
    db'[k]? = db[k]?
  indexed : indexed i db' = indexed i db

namespace SamePending

variable {a b a' b' : Database}

theorem of_frame (h : Frame i (Index.indexed i db) db db') : SamePending i db db' := by
  refine ⟨fun k _ hk => h.entries k ?_ ?_, h.indexed.elim id id⟩
  · rcases hk with hk | hk <;> rw [hk] <;> decide
  · rcases hk with hk | hk <;> rw [hk] <;> decide

theorem trans {c : Database} (h : SamePending i a b) (h' : SamePending i b c) :
    SamePending i a c :=
  ⟨fun k hi hk => (h'.entries k hi hk).trans (h.entries k hi hk), h'.indexed.trans h.indexed⟩

theorem put (h : SamePending i a b) {k : Key} (hk : k.node.mode ≠ .metadata) (v : Value) :
    SamePending i (a.put k v) (b.put k v) := by
  have hindexed : ∀ db : Database, Index.indexed i (db.put k v) = Index.indexed i db := by
    intro db
    refine indexed_congr ?_
    rw [Database.getElem?_put, if_neg]
    rintro rfl
    exact hk rfl
  refine ⟨fun k' hi hk' => ?_, ?_⟩
  · rw [Database.getElem?_put, Database.getElem?_put, h.entries k' hi hk']
  · rw [hindexed, hindexed, h.indexed]

theorem delete (h : SamePending i a b) {k : Key} (hk : k.node.mode ≠ .metadata) :
    SamePending i (a.delete k) (b.delete k) := by
  have hindexed : ∀ db : Database, Index.indexed i (db.delete k) = Index.indexed i db := by
    intro db
    refine indexed_congr ?_
    rw [Database.getElem?_delete, if_neg]
    rintro rfl
    exact hk rfl
  refine ⟨fun k' hi hk' => ?_, ?_⟩
  · rw [Database.getElem?_delete, Database.getElem?_delete, h.entries k' hi hk']
  · rw [hindexed, hindexed, h.indexed]

theorem addItem (h : SamePending w.index a b) {x : ItemId} {v : List F32} {u u' : Unit}
    (ha : w.addItem D x v a = .ok u a') (hb : w.addItem D x v b = .ok u' b') :
    SamePending w.index a' b' := by
  unfold Writer.addItem at ha hb
  by_cases hlen : v.length ≠ w.dimensions
  · rw [if_pos hlen] at ha
    cases ha
  · rw [if_neg hlen] at ha hb
    simp only [bind_ok_iff, modify_ok_iff] at ha hb
    obtain ⟨_, _, rfl, rfl⟩ := ha
    obtain ⟨_, _, rfl, rfl⟩ := hb
    exact (h.put (by simp [Key.item]) _).put (by simp [Key.updated]) _

theorem delItem (h : SamePending w.index a b) {x : ItemId} {r r' : Bool}
    (ha : w.delItem x a = .ok r a') (hb : w.delItem x b = .ok r' b') :
    SamePending w.index a' b' := by
  unfold Writer.delItem at ha hb
  simp only [bind_ok_iff, get_ok_iff] at ha hb
  obtain ⟨_, _, ⟨rfl, rfl⟩, ha⟩ := ha
  obtain ⟨_, _, ⟨rfl, rfl⟩, hb⟩ := hb
  rw [h.entries (Key.item w.index x) rfl (Or.inl rfl)] at hb
  split_ifs at ha hb
  · simp only [bind_ok_iff, modify_ok_iff, pure_ok_iff] at ha hb
    obtain ⟨_, _, rfl, _, _, rfl, -, rfl⟩ := ha
    obtain ⟨_, _, rfl, _, _, rfl, -, rfl⟩ := hb
    exact (h.delete (by simp [Key.item])).put (by simp [Key.updated]) _
  · obtain ⟨-, rfl⟩ := pure_ok_iff.mp ha
    obtain ⟨-, rfl⟩ := pure_ok_iff.mp hb
    exact h

theorem clear {u u' : Unit} (ha : w.clear a = .ok u a') (hb : w.clear b = .ok u' b') :
    SamePending w.index a' b' := by
  have ha := clear_noEntries ha
  have hb := clear_noEntries hb
  exact ⟨fun k hi _ => by rw [ha k hi, hb k hi], indexed_congr (by rw [ha _ rfl, hb _ rfl])⟩

/-- The stones are the same. -/
theorem mem_prefixIter (h : SamePending i a b) {e : Key × Value} :
    e ∈ b.prefixIter (Prefix.updated i) ↔ e ∈ a.prefixIter (Prefix.updated i) := by
  obtain ⟨k, v⟩ := e
  rw [Database.mem_prefixIter, Database.mem_prefixIter]
  refine and_congr_left fun hsel => ?_
  rw [h.entries k hsel.1 (Or.inr (hsel.2 _ rfl))]

/-- A build combines the same sets. -/
theorem buildSets (h : SamePending i a b) :
    Index.buildSets options i b = Index.buildSets options i a := by
  have htouched : touchedItems i b = touchedItems i a := by
    ext x
    simp only [touchedItems, List.mem_toFinset, List.mem_map, h.mem_prefixIter]
  have hremoved : removedItems i b = removedItems i a := by
    ext x
    simp only [removedItems, List.mem_toFinset, List.mem_map, List.mem_filter, h.mem_prefixIter]
  rw [Index.buildSets, Index.buildSets, htouched, hremoved, h.indexed]

end SamePending

/-- What is indexed after a build that returns. -/
theorem indexed_of_build {u : Unit} (h : w.build D M M0 env options db = .ok u db') :
    indexed w.index db' = (buildSets options w.index db).itemIndices := by
  obtain ⟨-, b, -, db₂, db₃, -, -, rfl⟩ := build_ok h
  have hm : ((db₃.put (Key.metadata w.index) (.metadata (newMetadata D w
      (buildSets options w.index db).itemIndices b))).put (Key.version w.index)
        (.version Version.current)).metadata? w.index =
      some (newMetadata D w (buildSets options w.index db).itemIndices b) := by
    rw [Database.metadata?, Database.getElem?_put, if_neg (by simp [Key.metadata, Key.version]),
      Database.getElem?_put, if_pos rfl]
  rw [indexed_of_metadata hm]
  rfl

/-- A build that returns changes no vector. -/
theorem entries_of_build {u : Unit} (h : w.build D M M0 env options db = .ok u db') {k : Key}
    (hl : k.node.mode ≠ .links) (hm : k.node.mode ≠ .metadata) :
    db'[k]? = (takeStones options w.index db)[k]? := by
  rw [build_eq, bind_ok_iff] at h
  obtain ⟨sets, _, hsets, h⟩ := h
  obtain ⟨rfl, rfl⟩ := retrieveSets_ok hsets
  exact ((frame_buildFrom _).of_ok h).entries k hl hm

/-- The stones of two states with the same pending updates are taken alike. -/
theorem SamePending.takeStones {a b : Database} (h : SamePending i a b) {k : Key}
    (hi : k.index = i) (hk : k.node.mode = .item ∨ k.node.mode = .updated) :
    (takeStones options i b)[k]? = (Index.takeStones options i a)[k]? := by
  have hkeys : k ∈ stoneKeys i b ↔ k ∈ stoneKeys i a := by
    simp only [stoneKeys, List.mem_map, h.mem_prefixIter]
  unfold Index.takeStones
  split_ifs
  · exact h.entries k hi hk
  · rw [Database.getElem?_deleteAll, Database.getElem?_deleteAll, h.entries k hi hk]
    simp only [hkeys]

theorem SamePending.build {a b a' b' : Database} (h : SamePending w.index a b) {u u' : Unit}
    (ha : w.build D M M0 env options a = .ok u a')
    (hb : w.build D M M0 env options b = .ok u' b') : SamePending w.index a' b' := by
  refine ⟨fun k hi hk => ?_, ?_⟩
  · have hl : k.node.mode ≠ .links := by rcases hk with hk | hk <;> rw [hk] <;> decide
    have hm : k.node.mode ≠ .metadata := by rcases hk with hk | hk <;> rw [hk] <;> decide
    rw [entries_of_build ha hl hm, entries_of_build hb hl hm, h.takeStones hi hk]
  · rw [indexed_of_build ha, indexed_of_build hb, h.buildSets]

/-- **The same operation keeps two states the same**, apart from links. -/
theorem SamePending.step {op : Op} {a b a' b' : Database} (h : SamePending w.index a b)
    (ha : Step D w op a a') (hb : Step D w op b b') : SamePending w.index a' b' := by
  cases ha with
  | addItem ha =>
    cases hb with
    | addItem hb => exact h.addItem ha hb
  | delItem ha =>
    cases hb with
    | delItem hb => exact h.delItem ha hb
  | clear ha =>
    cases hb with
    | clear hb => exact SamePending.clear ha hb
  | build _ ha =>
    cases hb with
    | build _ hb => exact h.build ha hb
  | forceRebuild _ ha =>
    cases hb with
    | forceRebuild _ hb =>
      obtain ⟨m, hm, ha⟩ := forceRebuild_ok ha
      obtain ⟨m', hm', hb⟩ := forceRebuild_ok hb
      refine SamePending.build ⟨fun k hi hk => ?_, ?_⟩ ha hb
      · have hl : k.node.mode ≠ .links := by rcases hk with hk | hk <;> rw [hk] <;> decide
        rw [getElem?_dropLinks hl, getElem?_dropLinks hl, h.entries k hi hk]
      · rw [indexed_congr (getElem?_dropLinks (by simp [Key.metadata])),
          indexed_congr (getElem?_dropLinks (by simp [Key.metadata])), h.indexed]

theorem SamePending.run {tr : List (Writer × Op)} {a b a' b' : Database}
    (h : SamePending i a b) (ha : Run D i a tr a') (hb : Run D i b tr b') :
    SamePending i a' b' := by
  induction ha generalizing b' with
  | start =>
    cases hb
    exact h
  | step hw _ hstep ih =>
    cases hb with
    | step _ hrun hstep' =>
      subst hw
      exact (ih hrun).step hstep hstep'

/-! ## Failed builds -/

/-- A failed build from `db` to `db'` loses no pending update. -/
structure KeepsPending (D : Distance) (w : Writer) (db db' : Database) : Prop where
  stones : ∀ x s, db.stone? w.index x = some s → db'.stone? w.index x = some s
  needBuild : (∃ x s, db.stone? w.index x = some s) → w.needBuild db' = true
  /-- Whatever happens in between, a later build indexes what it would have without the failure. -/
  later : ∀ {tr : List (Writer × Op)} {a b a' b' : Database}, Run D w.index db tr a →
    Run D w.index db' tr b → ∀ {M M0 M' M0' : Nat} {env env' : Environment}
      {options options' : BuildOption} {u u' : Unit}, options.relinkAllItems = false →
        options'.relinkAllItems = false → w.build D M M0 env options a = .ok u a' →
          w.build D M' M0' env' options' b = .ok u' b' → indexed w.index b' = indexed w.index a'

theorem keepsPending_of_same (hwt : db.WellTyped w.index) (h : SamePending w.index db db') :
    KeepsPending D w db db' := by
  have hstone : ∀ x, db'.stone? w.index x = db.stone? w.index x := fun x => by
    rw [Database.stone?, h.entries (Key.updated w.index x) rfl (Or.inr rfl)]
    rfl
  refine ⟨fun x s hx => (hstone x).trans hx, ?_, ?_⟩
  · rintro ⟨x, s, hx⟩
    have hmem := h.mem_prefixIter.mpr
      ((Database.mem_prefixIter_updated hwt).mpr ⟨x, s, rfl, rfl, hx⟩)
    rw [needBuild, Bool.or_eq_true, Bool.not_eq_true']
    exact Or.inl (List.isEmpty_eq_false_iff.mpr (List.ne_nil_of_mem hmem))
  · intro tr a b a' b' ha hb M M0 M' M0' env env' options options' u u' hr hr' ha' hb'
    have hoptions : buildSets options' w.index b = buildSets options w.index b := by
      rw [buildSets, buildSets, hr, hr']
    rw [indexed_of_build ha', indexed_of_build hb', hoptions, (h.run ha hb).buildSets]

variable (D M M0) in
/-- A build that leaves the stones alone leaves all pending updates as they are. -/
theorem samePending_of_quiet (hwt : db.WellTyped w.index)
    (h : options.relinkAllItems = true ∨ (∀ x, db.stone? w.index x = none) ∨
      StopsBeforeStones env options) :
    SamePending w.index db (final (w.build D M M0 env options db)) := by
  refine SamePending.of_frame ?_
  rw [build_eq, bind_eq]
  rcases retrieveSets_quiet hwt h with ⟨e, he⟩ | ⟨sets, hsets, hitems⟩
  · rw [he]
    exact Frame.refl db
  · rw [hsets, ← hitems]
    exact frame_buildFrom sets db

/-- **A failed build keeps the pending updates** exactly when there were none, when it leaves the
stones alone, or when it stops before it deletes the first one. -/
theorem failed_build_iff (hwt : db.WellTyped w.index) {e : Failure}
    (h : w.build D M M0 env options db = .error e db') :
    KeepsPending D w db db' ↔ options.relinkAllItems = true ∨
      (∀ x, db.stone? w.index x = none) ∨ StopsBeforeStones env options := by
  constructor
  · intro hkeeps
    by_contra hnot
    simp only [not_or, not_forall, Bool.not_eq_true] at hnot
    obtain ⟨hr, ⟨x, hx⟩, hstops⟩ := hnot
    obtain ⟨s, hx⟩ := Option.ne_none_iff_exists'.mp hx
    obtain ⟨y, t, hy, hgone⟩ := build_loses_stone D M M0 hwt hr hx hstops
    rw [h, final_error, hkeeps.stones y t hy] at hgone
    cases hgone
  · intro hquiet
    have hsame := samePending_of_quiet D M M0 hwt hquiet
    rw [h] at hsame
    exact keepsPending_of_same hwt hsame

/-- One item is added to an empty index. -/
def onePending : Database :=
  ((∅ : Database).put (Key.item 0 0) (.node (.item (Item.ofVector manhattan [F32.zero])))).put
    (Key.updated 0 0) (.status .updated)

example : committed (Writer.addItem manhattan ⟨0, 1⟩ 0 [F32.zero] ∅) = some onePending := rfl

theorem wellTyped_onePending : onePending.WellTyped 0 := by
  have h : (∅ : Database).WellTyped 0 := (consistent_of_noEntries noEntries_empty).typed
  exact (h.put fun _ => Database.Fits.item _ _).put fun _ => Database.Fits.updated _ _

/-- A build with these options, each item on level 0. -/
def buildOne (options : BuildOption) : RwTxn Unit :=
  Writer.build manhattan ⟨0, 1⟩ 2 2 .oneLevel options

/-- The state in which a transaction fails. -/
def failed {α : Type} : EStateM.Result Failure Database α → Option (Failure × Database)
  | .ok _ _ => none
  | .error e db => some (e, db)

theorem failed_eq_some {α : Type} {x : EStateM.Result Failure Database α} {e : Failure}
    {db : Database} (h : failed x = some (e, db)) : x = .error e db := by
  cases x with
  | ok a db' => cases h
  | error e' db' => cases h; rfl

/-- Cancelling at the first call of the callback keeps the pending item. -/
theorem cancelled_at_once_keeps :
    ∃ db', buildOne { BuildOption.default with cancel := fun _ => true } onePending =
        .error (.err .buildCancelled) db' ∧ KeepsPending manhattan ⟨0, 1⟩ onePending db' := by
  have h : (failed (buildOne { BuildOption.default with cancel := fun _ => true }
      onePending)).map Prod.fst = some (.err .buildCancelled) := by decide +kernel
  obtain ⟨⟨e, db'⟩, hfailed, rfl⟩ := Option.map_eq_some_iff.mp h
  have hbuild := failed_eq_some hfailed
  exact ⟨db', hbuild, (failed_build_iff wellTyped_onePending hbuild).mpr
    (Or.inr (Or.inr (Or.inr (Or.inr (Or.inl rfl)))))⟩

/-- Cancelling at the first insert forgets the pending item: its stone is gone, and the next build
indexes nothing. Without the cancelled build it indexes the item. -/
theorem cancelled_build_forgets :
    ∃ db' a b, buildOne { BuildOption.default with cancel := (· = .insert 0) } onePending =
        .error (.err .buildCancelled) db' ∧
      onePending.stone? 0 0 = some .updated ∧ db'.stone? 0 0 = none ∧
      buildOne BuildOption.default onePending = .ok () a ∧ indexed 0 a = {0} ∧
      buildOne BuildOption.default db' = .ok () b ∧ indexed 0 b = ∅ := by
  have h : ((failed (buildOne { BuildOption.default with cancel := (· = .insert 0) }
      onePending)).bind fun r => (committed (buildOne BuildOption.default r.2)).map fun b =>
        (r.1, r.2.stone? 0 0, indexed 0 b)) =
      some (.err .buildCancelled, none, ∅) := by decide +kernel
  have h' : (committed (buildOne BuildOption.default onePending)).map (indexed 0) = some {0} := by
    decide +kernel
  obtain ⟨⟨e, db'⟩, hfailed, h⟩ := Option.bind_eq_some_iff.mp h
  obtain ⟨b, hb, h⟩ := Option.map_eq_some_iff.mp h
  obtain ⟨a, ha, hindexed⟩ := Option.map_eq_some_iff.mp h'
  obtain ⟨_, hb⟩ := committed_eq_some hb
  obtain ⟨_, ha⟩ := committed_eq_some ha
  simp only [Prod.mk.injEq] at h
  obtain ⟨rfl, hstone, hnone⟩ := h
  exact ⟨db', a, b, failed_eq_some hfailed, by decide +kernel, hstone, ha, hindexed, hb, hnone⟩

end Hannoy.Index
