import Hannoy.Graph.Snapshot
import Hannoy.Index.Build
import Hannoy.Model.Convert

/-!
# Indexes that share a database

Every operation of a writer reads and writes the entries of its own index only: it selects them by
prefix, or by a key it makes from its index.

* `AgreeOn i`: two databases have the same entries of index `i`.
* `InStep i x`: two runs of `x` on databases that agree on index `i` make the same writes, all of
  them to keys of index `i`; one lemma for each function of the writer.
* `Isolated i x`: what follows for the entries of the other indexes and for the outcome of `x`.
* `operations_isolated`: the seven operations of a writer.
-/

namespace Hannoy.Index

open Hannoy.Library Hannoy.Library.Txn Hannoy.Writer Hannoy.Graph

variable {D ND : Distance} {w : Writer} {M M0 : Nat} {env : Environment} {options : BuildOption}
  {db db' : Database} {i : UInt16} {α β : Type}

/-! ## Databases that agree on an index -/

/-- The entries of index `i` are the same. -/
def AgreeOn (i : UInt16) (db db' : Database) : Prop := ∀ k : Key, k.index = i → db[k]? = db'[k]?

/-- The entries of the other indexes are the same. -/
def SameElsewhere (i : UInt16) (db db' : Database) : Prop :=
  ∀ k : Key, k.index ≠ i → db'[k]? = db[k]?

/-- Putting or deleting an entry of index `i`. -/
inductive WritesTo (i : UInt16) : (Database → Database) → Prop
  | put {k : Key} (hk : k.index = i) (v : Value) : WritesTo i fun db => db.put k v
  | delete {k : Key} (hk : k.index = i) : WritesTo i fun db => db.delete k

theorem AgreeOn.refl (i : UInt16) (db : Database) : AgreeOn i db db := fun _ _ => rfl

instance isPreorderSameElsewhere : IsPreorder Database (SameElsewhere i) where
  refl _ _ _ := rfl
  trans _ _ _ h h' k hk := (h' k hk).trans (h k hk)

theorem WritesTo.agreeOn {f : Database → Database} (hf : WritesTo i f) (h : AgreeOn i db db') :
    AgreeOn i (f db) (f db') := by
  intro k' hk'
  cases hf with
  | put hk v => rw [Database.getElem?_put, Database.getElem?_put, h k' hk']
  | delete hk => rw [Database.getElem?_delete, Database.getElem?_delete, h k' hk']

theorem WritesTo.sameElsewhere {f : Database → Database} (hf : WritesTo i f) (db : Database) :
    SameElsewhere i db (f db) := by
  intro k' hk'
  cases hf with
  | put hk v =>
    rw [Database.getElem?_put, if_neg]
    rintro rfl
    exact hk' hk
  | delete hk =>
    rw [Database.getElem?_delete, if_neg]
    rintro rfl
    exact hk' hk

/-! ## Reads -/

/-- A prefix of the index selects the same entries, in the same order. -/
theorem AgreeOn.prefixIter (h : AgreeOn i db db') {p : Prefix} (hp : p.index = i) :
    db.prefixIter p = db'.prefixIter p := by
  have hirrefl : Std.Irrefl fun a b : Key × Value => a.1 < b.1 := ⟨fun a => lt_irrefl a.1⟩
  have hantisymm : Std.Antisymm fun a b : Key × Value => a.1 < b.1 :=
    ⟨fun a b hab hba => absurd hba hab.not_gt⟩
  refine List.Pairwise.eq_of_mem_iff (Database.pairwise_prefixIter p)
    (Database.pairwise_prefixIter p) fun ⟨k, v⟩ => ?_
  rw [Database.mem_prefixIter, Database.mem_prefixIter]
  constructor
  · rintro ⟨hk, hsel⟩
    exact ⟨(h k (hsel.1.trans hp)).symm.trans hk, hsel⟩
  · rintro ⟨hk, hsel⟩
    exact ⟨(h k (hsel.1.trans hp)).trans hk, hsel⟩

theorem index_of_mem_prefixIter {p : Prefix} {k : Key} (hp : p.index = i)
    (hk : k ∈ (db.prefixIter p).map Prod.fst) : k.index = i := by
  obtain ⟨⟨k, v⟩, he, rfl⟩ := List.mem_map.mp hk
  exact (Database.mem_prefixIter.mp he).2.1.trans hp

theorem AgreeOn.getNode (h : AgreeOn i db db') {k : Key} (hk : k.index = i) :
    db.getNode k = db'.getNode k := by
  unfold Database.getNode
  rw [h k hk]

theorem AgreeOn.getMetadata (h : AgreeOn i db db') : db.getMetadata i = db'.getMetadata i := by
  unfold Database.getMetadata
  rw [h _ rfl]

/-- **The snapshots of a build** answer its reads alike. -/
theorem AgreeOn.sameReads (h : AgreeOn i db db') : SameReads ⟨db, i⟩ ⟨db', i⟩ where
  index := rfl
  item := by
    funext x
    unfold FrozenReader.item
    rw [h.getNode rfl]
  links := by
    funext x level
    unfold FrozenReader.links
    rw [h.getNode rfl]
  linksEntries := h.prefixIter rfl
  numItems := by
    unfold FrozenReader.numItems
    rw [h.prefixIter rfl]

/-! ## The phases of a build -/

/-- Two runs on databases that agree on index `i` make the same writes, all to that index. -/
abbrev InStep (i : UInt16) (x y : RwTxn α) : Prop := LockStep (AgreeOn i) (WritesTo i) x y

theorem inStep_put {k : Key} (hk : k.index = i) (v : Value) :
    InStep i (modify fun db => db.put k v) (modify fun db => db.put k v) :=
  .modify (.put hk v)

theorem inStep_delete {k : Key} (hk : k.index = i) :
    InStep i (modify fun db => db.delete k) (modify fun db => db.delete k) :=
  .modify (.delete hk)

theorem inStep_ofExcept (x : Except Failure α) :
    InStep i (RwTxn.ofExcept x) (RwTxn.ofExcept x) := by
  cases x with
  | ok a => exact .pure a
  | error e => exact .throw e

variable (env) in
theorem inStep_check (site : Site) : InStep i (RwTxn.check env site) (RwTxn.check env site) := by
  unfold RwTxn.check
  split_ifs
  · exact .throw _
  · exact .pure _

theorem inStep_writeLinks : ∀ {l : List (Key × Value)} {n : Nat}, (∀ e ∈ l, e.1.index = i) →
    InStep i (HnswBuilder.writeLinks options env n l) (HnswBuilder.writeLinks options env n l)
  | [], n, _ => .pure _
  | (k, v) :: l, n, h => by
    unfold HnswBuilder.writeLinks
    have hrest := inStep_writeLinks (n := n + 1) fun e he => h e (List.mem_cons_of_mem _ he)
    split_ifs
    · exact .throw _
    · refine .bind (inStep_check env _) fun _ => ?_
      exact .bind (inStep_put (h _ List.mem_cons_self) v) fun _ => hrest

theorem inStep_builderBuild (b : HnswBuilder M0) (toInsert toDelete : RoaringBitmap) :
    InStep i (b.build D M options env i toInsert toDelete)
      (b.build D M options env i toInsert toDelete) := by
  unfold HnswBuilder.build
  refine .bind (inStep_check env _) fun _ => .read fun db db' h => ?_
  simp only [HnswBuilder.buildLayers_congr h.sameReads, HnswBuilder.linksToWrite_congr h.sameReads]
  refine .bind (inStep_ofExcept _) fun b => .bind (inStep_writeLinks ?_) fun _ => .pure b
  rintro ⟨k, v⟩ he
  obtain ⟨l, x, node, -, rfl, -⟩ := mem_linksToWrite.mp he
  rfl

theorem inStep_retrieveLoop : ∀ {entries : List (Key × Value)} {n : Nat}
    {updated deleted : RoaringBitmap}, (∀ e ∈ entries, e.1.index = i) →
      InStep i (retrieveLoop env options n entries updated deleted)
        (retrieveLoop env options n entries updated deleted)
  | [], n, _, _, _ => .bind (inStep_check env _) fun _ => .pure _
  | (k, v) :: entries, n, updated, deleted, h => by
    have hdelete : ∀ updated deleted : RoaringBitmap, InStep i
        (do
          RwTxn.check env (.delStone n)
          modify fun db => db.delete k
          retrieveLoop env options (n + 1) entries updated deleted)
        (do
          RwTxn.check env (.delStone n)
          modify fun db => db.delete k
          retrieveLoop env options (n + 1) entries updated deleted) := fun updated deleted =>
      .bind (inStep_check env _) fun _ => .bind (inStep_delete (h _ List.mem_cons_self)) fun _ =>
        inStep_retrieveLoop fun e he => h e (List.mem_cons_of_mem _ he)
    unfold retrieveLoop
    refine .bind (inStep_check env _) fun _ => .bind (inStep_ofExcept _) fun status => ?_
    by_cases hc : options.cancelled n .retrieve = true
    · rw [if_pos hc]
      exact .bind (.throw _) fun _ => hdelete _ _
    · rw [if_neg hc]
      exact hdelete _ _

theorem inStep_deleteLinksLoop {toDelete : RoaringBitmap} : ∀ {keys : List Key} {n : Nat},
    (∀ k ∈ keys, k.index = i) →
      InStep i (deleteLinksLoop env toDelete n keys) (deleteLinksLoop env toDelete n keys)
  | [], n, _ => inStep_check env _
  | k :: keys, n, h => by
    unfold deleteLinksLoop
    have hrest : InStep i (deleteLinksLoop env toDelete (n + 1) keys)
        (deleteLinksLoop env toDelete (n + 1) keys) :=
      inStep_deleteLinksLoop fun k' hk' => h k' (List.mem_cons_of_mem _ hk')
    refine .bind (inStep_check env _) fun _ => ?_
    split_ifs
    · exact .bind (inStep_delete (h k List.mem_cons_self)) fun _ => hrest
    · exact hrest

theorem inStep_deleteLinksFromDb (toDelete : RoaringBitmap) :
    InStep w.index (w.deleteLinksFromDb env toDelete) (w.deleteLinksFromDb env toDelete) := by
  refine .read fun db db' h => ?_
  rw [h.prefixIter rfl]
  exact inStep_deleteLinksLoop fun k hk => index_of_mem_prefixIter rfl hk

theorem inStep_retrieveSets :
    InStep w.index (w.retrieveSets env options) (w.retrieveSets env options) := by
  refine .bind (inStep_check env _) fun _ => .read fun db db' h => ?_
  rw [h.getMetadata]
  refine .bind (inStep_ofExcept _) fun metadata => ?_
  split_ifs
  · exact .pure _
  · refine .bind (.read fun db db' h => ?_) fun _ => .pure _
    rw [h.prefixIter rfl]
    exact inStep_retrieveLoop fun e he =>
      index_of_mem_prefixIter rfl (List.mem_map.mpr ⟨e, he, rfl⟩)

theorem inStep_startBuilder :
    InStep w.index (w.startBuilder M0 env) (w.startBuilder M0 env) := by
  refine .bind (inStep_check env _) fun _ => .read fun db db' h => ?_
  rw [h.getMetadata]
  exact .bind (inStep_ofExcept _) fun _ => .pure _

theorem inStep_writeMetadata (items : RoaringBitmap) (b : HnswBuilder M0) :
    InStep w.index (w.writeMetadata D M0 env items b) (w.writeMetadata D M0 env items b) := by
  unfold writeMetadata
  have hput : ∀ m : Metadata, InStep w.index _ _ := fun m =>
    .bind (inStep_check env .putMetadata) fun _ =>
      .bind (inStep_put (k := Key.metadata w.index) rfl (.metadata m)) fun _ =>
        .bind (inStep_check env .putVersion) fun _ =>
          inStep_put (k := Key.version w.index) rfl (.version Version.current)
  split_ifs
  · exact .bind (.throw _) fun _ => hput _
  · exact hput _

theorem inStep_build : InStep w.index (w.build D M M0 env options) (w.build D M M0 env options) :=
  .bind inStep_retrieveSets fun _ => .bind inStep_startBuilder fun b =>
    .bind (inStep_builderBuild b _ _) fun b => .bind (inStep_deleteLinksFromDb _) fun _ =>
      inStep_writeMetadata _ b

theorem inStep_forceRebuild :
    InStep w.index (w.forceRebuild D M M0 env options) (w.forceRebuild D M M0 env options) := by
  refine .read fun db db' h => ?_
  rw [h.getMetadata]
  refine .bind (inStep_ofExcept _) fun metadata => ?_
  cases metadata with
  | none => exact .throw _
  | some m => exact .bind (inStep_deleteLinksFromDb _) fun _ => inStep_build

/-! ## The other operations -/

theorem inStep_addItem (x : ItemId) (v : List F32) :
    InStep w.index (Faulty.addItem w env D x v) (Faulty.addItem w env D x v) := by
  unfold Faulty.addItem
  have hput : InStep w.index _ _ := .bind (inStep_check env (.putItem 0)) fun _ =>
    .bind (inStep_put (k := Key.item w.index x) rfl (.node (.item (Item.ofVector D v)))) fun _ =>
      .bind (inStep_check env (.putStone 0)) fun _ =>
        inStep_put (k := Key.updated w.index x) rfl (.status .updated)
  split_ifs
  · exact .bind (.throw _) fun _ => hput
  · exact hput

theorem inStep_delItem (x : ItemId) :
    InStep w.index (Faulty.delItem w env x) (Faulty.delItem w env x) := by
  refine .bind (inStep_check env _) fun _ => .read fun db db' h => ?_
  rw [h (Key.item w.index x) rfl]
  split_ifs
  · exact .bind (inStep_delete rfl) fun _ => .bind (inStep_check env _) fun _ =>
      .bind (inStep_put (k := Key.updated w.index x) rfl _) fun _ => .pure _
  · exact .pure _

theorem inStep_deleteLoop {next del : Nat → Site} : ∀ {keys : List Key} {n : Nat},
    (∀ k ∈ keys, k.index = i) →
      InStep i (deleteLoop env next del n keys) (deleteLoop env next del n keys)
  | [], _, _ => inStep_check env _
  | k :: _, _, h => .bind (inStep_check env _) fun _ => .bind (inStep_check env _) fun _ =>
      .bind (inStep_delete (h k List.mem_cons_self)) fun _ =>
        inStep_deleteLoop fun k' hk' => h k' (List.mem_cons_of_mem _ hk')

theorem inStep_clear : InStep w.index (Faulty.clear w env) (Faulty.clear w env) := by
  refine .read fun db db' h => ?_
  rw [h.prefixIter rfl]
  exact inStep_deleteLoop fun k hk => index_of_mem_prefixIter rfl hk

theorem inStep_putStones : ∀ {l : List ItemId} {n : Nat},
    InStep i (putStones env i n l) (putStones env i n l)
  | [], _ => .pure _
  | x :: _, _ => .bind (inStep_check env _) fun _ =>
      .bind (inStep_put (k := Key.updated i x) rfl _) fun _ => inStep_putStones

theorem inStep_reencodeLoop : ∀ {entries : List (Key × Value)} {n : Nat}
    {updated : RoaringBitmap}, (∀ e ∈ entries, e.1.index = i) →
      InStep i (reencodeLoop env D ND n entries updated)
        (reencodeLoop env D ND n entries updated)
  | [], n, _, _ => .bind (inStep_check env _) fun _ => .pure _
  | (k, v) :: entries, n, updated, h => by
    unfold reencodeLoop
    refine .bind (inStep_check env _) fun _ => ?_
    split
    · exact .bind (inStep_check env _) fun _ =>
        .bind (inStep_put (h _ List.mem_cons_self) _) fun _ =>
        inStep_reencodeLoop fun e he => h e (List.mem_cons_of_mem _ he)
    · exact .throw _
    · exact .throw _

theorem inStep_prepareChangingDistance {T : Type} [DecidableEq T] (dist : T → Distance)
    (t u : T) : InStep w.index (w.prepareChangingDistance env dist t u)
      (w.prepareChangingDistance env dist t u) := by
  have hclear : InStep w.index (w.clearGraph env (dist t) (dist u))
      (w.clearGraph env (dist t) (dist u)) := by
    unfold clearGraph
    split_ifs
    · exact .pure _
    · refine .bind (.read fun db db' h => ?_) fun _ => .bind (inStep_check env _) fun _ =>
        inStep_delete rfl
      rw [h.prefixIter rfl]
      exact inStep_deleteLoop fun k hk => index_of_mem_prefixIter rfl hk
  have hitems : InStep w.index (w.reencodeItems env (dist t) (dist u))
      (w.reencodeItems env (dist t) (dist u)) := by
    refine .read fun db db' h => ?_
    rw [h.prefixIter rfl]
    refine .bind (inStep_reencodeLoop fun e he => ?_) fun _ => inStep_putStones
    exact index_of_mem_prefixIter rfl (List.mem_map.mpr ⟨e, he, rfl⟩)
  unfold prepareChangingDistance
  split_ifs
  · exact .bind hclear fun _ => .bind hitems fun _ => .pure w
  · exact .pure w

theorem inStep_arroyLoop {decode : Value → Decoded} {onDiskDim : Nat} :
    ∀ {entries : List (Key × Value)} {n : Nat} {newItems : RoaringBitmap},
      (∀ e ∈ entries, e.1.index = i) →
        InStep i (arroyLoop env D decode onDiskDim n entries newItems)
          (arroyLoop env D decode onDiskDim n entries newItems)
  | [], n, _, _ => .bind (inStep_check env _) fun _ => .pure _
  | (k, v) :: entries, n, newItems, h => by
    have hrest : ∀ newItems, InStep i (arroyLoop env D decode onDiskDim (n + 1) entries newItems)
        (arroyLoop env D decode onDiskDim (n + 1) entries newItems) := fun newItems =>
      inStep_arroyLoop fun e he => h e (List.mem_cons_of_mem _ he)
    unfold arroyLoop
    refine .bind (inStep_check env _) fun _ => ?_
    split
    · exact .throw _
    · split_ifs
      · exact .bind (.throw _) fun _ => hrest _
      · exact hrest _
    · exact .bind (inStep_check env _) fun _ =>
        .bind (inStep_delete (h _ List.mem_cons_self)) fun _ => hrest _

theorem inStep_prepareArroyConversion (decode : Value → Decoded) :
    InStep w.index (w.prepareArroyConversion env D decode)
      (w.prepareArroyConversion env D decode) := by
  refine .read fun db db' h => ?_
  rw [h.prefixIter rfl]
  refine .bind (inStep_arroyLoop fun e he => ?_) fun _ => inStep_putStones
  exact index_of_mem_prefixIter rfl (List.mem_map.mpr ⟨e, he, rfl⟩)

/-! ## Isolation -/

/-- However `x` ends, the entries of the other indexes are unchanged, and what it reads has index
`i`: databases with the same entries of that index give the same outcome, and still agree. -/
structure Isolated (i : UInt16) (x : RwTxn α) : Prop where
  elsewhere : ∀ (db : Database) (k : Key), k.index ≠ i → (final (x db))[k]? = db[k]?
  reads : ∀ db db', AgreeOn i db db' → Same (AgreeOn i) (x db) (x db')

theorem isolated_of_inStep {x : RwTxn α} (h : InStep i x x) : Isolated i x where
  elsewhere := h.keeps (S := SameElsewhere i) (AgreeOn.refl i) fun _ hf db => hf.sameElsewhere db
  reads _ _ hagree := h.same (fun _ hf _ _ => hf.agreeOn) hagree

/-- **The operations of a writer are isolated** to its index. -/
theorem operations_isolated (w : Writer) (env : Environment) (D : Distance) :
    (∀ x v, Isolated w.index (Faulty.addItem w env D x v)) ∧
    (∀ x, Isolated w.index (Faulty.delItem w env x)) ∧
    Isolated w.index (Faulty.clear w env) ∧
    (∀ M M0 options, Isolated w.index (w.build D M M0 env options)) ∧
    (∀ M M0 options, Isolated w.index (w.forceRebuild D M M0 env options)) ∧
    (∀ (T : Type) (_ : DecidableEq T) (dist : T → Distance) (t u : T),
      Isolated w.index (w.prepareChangingDistance env dist t u)) ∧
    ∀ decode, Isolated w.index (w.prepareArroyConversion env D decode) :=
  ⟨fun x v => isolated_of_inStep (inStep_addItem x v),
    fun x => isolated_of_inStep (inStep_delItem x),
    isolated_of_inStep inStep_clear,
    fun _ _ _ => isolated_of_inStep inStep_build,
    fun _ _ _ => isolated_of_inStep inStep_forceRebuild,
    fun _ _ dist t u => isolated_of_inStep (inStep_prepareChangingDistance dist t u),
    fun decode => isolated_of_inStep (inStep_prepareArroyConversion decode)⟩

end Hannoy.Index
