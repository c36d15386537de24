import Hannoy.Index.Build

/-!
# What a build writes (`writer.rs:521-718`)

Rules for what holds between the database before and after a build, however it ends: a relation
that is reflexive and transitive and that each of its writes keeps.

* `LateWrite`: the writes of the phases after the stones.
* `keeps_retrieveSets`, `keeps_buildFrom`: what the two parts of a build keep.
* `keeps_build`, `keeps_forceRebuild`: what a build keeps, and a rebuild.
-/

namespace Hannoy.Index

open Hannoy.Library Hannoy.Library.Txn Hannoy.Writer Hannoy.Graph

variable {D : Distance} {w : Writer} {M M0 : Nat} {env : Environment} {options : BuildOption}
  {i : UInt16} {items : RoaringBitmap}

/-- A write of the phases after the stones: the links of an item, the metadata, which lists
`items`, and the version. -/
inductive LateWrite (i : UInt16) (items : RoaringBitmap) : (Database → Database) → Prop
  | putLinks (x : ItemId) (l : LayerId) (s : RoaringBitmap) :
      LateWrite i items fun db => db.put (Key.links i x l) (.node (.links s))
  | deleteLinks {k : Key} (hi : k.index = i) (hk : k.node.mode = .links) :
      LateWrite i items fun db => db.delete k
  | putMetadata {m : Metadata} (hm : m.items = items) :
      LateWrite i items fun db => db.put (Key.metadata i) (.metadata m)
  | putVersion (v : Version) :
      LateWrite i items fun db => db.put (Key.version i) (.version v)

/-- The build once the stones are read. -/
def buildFrom (D : Distance) (w : Writer) (M M0 : Nat) (env : Environment)
    (options : BuildOption) (sets : UpdateSets) : RwTxn Unit := do
  let b ← w.startBuilder M0 env
  let b ← b.build D M options env w.index sets.toInsert sets.toDelete
  w.deleteLinksFromDb env sets.toDelete
  w.writeMetadata D M0 env sets.itemIndices b

theorem build_eq : w.build D M M0 env options =
    w.retrieveSets env options >>= buildFrom D w M M0 env options := rfl

section

variable {R : Database → Database → Prop} [IsPreorder Database R]

theorem keeps_check (site : Site) : Keeps R (RwTxn.check env site) := by
  unfold RwTxn.check
  split_ifs
  · exact keeps_throw _
  · exact keeps_pure _

theorem keeps_ofExcept {α : Type} : ∀ x : Except Failure α, Keeps R (RwTxn.ofExcept x)
  | .ok a => keeps_pure a
  | .error e => keeps_throw e

/-! ## The stones -/

theorem keeps_retrieveLoop : ∀ {entries : List (Key × Value)} {n : Nat}
    {updated deleted : RoaringBitmap}, (∀ e ∈ entries, ∀ db, R db (db.delete e.1)) →
      Keeps R (retrieveLoop env options n entries updated deleted)
  | [], n, updated, deleted, _ => by
    unfold retrieveLoop
    exact Keeps.bind (keeps_check _) fun _ => keeps_pure _
  | (k, v) :: entries, n, updated, deleted, h => by
    obtain ⟨hk, hrest⟩ := List.forall_mem_cons.mp h
    unfold retrieveLoop
    refine Keeps.bind (keeps_check _) fun _ => ?_
    refine Keeps.bind (keeps_ofExcept _) fun s => ?_
    by_cases hc : options.cancelled n .retrieve
    · rw [if_pos hc]
      exact keeps_throw _
    · rw [if_neg hc]
      refine Keeps.bind (keeps_check _) fun _ => ?_
      exact Keeps.bind (keeps_modify hk) fun _ => keeps_retrieveLoop hrest

/-- **Reading the sets** keeps what the deletion of a stone keeps. -/
theorem keeps_retrieveSets
    (hstone : ∀ k : Key, k.index = w.index → k.node.mode = .updated → ∀ db, R db (db.delete k)) :
    Keeps R (w.retrieveSets env options) := by
  unfold retrieveSets
  refine Keeps.bind (keeps_check _) fun _ => Keeps.bind keeps_get fun db =>
    Keeps.bind (keeps_ofExcept _) fun metadata => ?_
  split_ifs
  · exact keeps_pure _
  · refine Keeps.bind (Keeps.bind keeps_get fun db => keeps_retrieveLoop ?_) fun _ => keeps_pure _
    rintro ⟨k, v⟩ he
    obtain ⟨-, hi, hmode⟩ := Database.mem_prefixIter.mp he
    exact hstone k hi (hmode _ rfl)

/-! ## The phases after the stones -/

theorem keeps_writeLinks : ∀ {l : List (Key × Value)} {n : Nat},
    (∀ e ∈ l, ∀ db, R db (db.put e.1 e.2)) → Keeps R (HnswBuilder.writeLinks options env n l)
  | [], n, _ => keeps_pure _
  | (k, v) :: l, n, h => by
    obtain ⟨hk, hrest⟩ := List.forall_mem_cons.mp h
    unfold HnswBuilder.writeLinks
    split_ifs
    · exact keeps_throw _
    · refine Keeps.bind (keeps_check _) fun _ => ?_
      exact Keeps.bind (keeps_modify hk) fun _ => keeps_writeLinks hrest

theorem keeps_startBuilder : Keeps R (w.startBuilder M0 env) := by
  unfold startBuilder
  refine Keeps.bind (keeps_check _) fun _ => ?_
  refine Keeps.bind keeps_get fun db => ?_
  exact Keeps.bind (keeps_ofExcept _) fun _ => keeps_pure _

theorem keeps_deleteLinksLoop {toDelete : RoaringBitmap} : ∀ {keys : List Key} {n : Nat},
    (∀ k ∈ keys, ∀ db, R db (db.delete k)) → Keeps R (deleteLinksLoop env toDelete n keys)
  | [], n, _ => keeps_check _
  | k :: keys, n, h => by
    obtain ⟨hk, hrest⟩ := List.forall_mem_cons.mp h
    unfold deleteLinksLoop
    refine Keeps.bind (keeps_check _) fun _ => ?_
    split_ifs
    · exact Keeps.bind (keeps_modify hk) fun _ => keeps_deleteLinksLoop hrest
    · exact keeps_deleteLinksLoop hrest

section

variable (hR : ∀ f, LateWrite i items f → ∀ db, R db (f db))

include hR

theorem keeps_builderBuild {b : HnswBuilder M0} {toInsert toDelete : RoaringBitmap} :
    Keeps R (HnswBuilder.build D M options env b i toInsert toDelete) := by
  unfold HnswBuilder.build
  refine Keeps.bind (keeps_check _) fun _ => ?_
  refine Keeps.bind keeps_get fun db => ?_
  refine Keeps.bind (keeps_ofExcept _) fun b => ?_
  refine Keeps.bind (keeps_writeLinks ?_) fun _ => keeps_pure b
  rintro ⟨k, v⟩ he
  obtain ⟨l, x, node, -, rfl, rfl⟩ := mem_linksToWrite.mp he
  exact hR _ (.putLinks x _ _)

theorem keeps_deleteLinksFromDb {toDelete : RoaringBitmap} (hi : w.index = i) :
    Keeps R (w.deleteLinksFromDb env toDelete) := by
  subst hi
  unfold deleteLinksFromDb
  refine Keeps.bind keeps_get fun db => keeps_deleteLinksLoop fun k hk => ?_
  obtain ⟨e, he, rfl⟩ := List.mem_map.mp hk
  obtain ⟨-, hindex, hmode⟩ := Database.mem_prefixIter.mp he
  exact hR _ (.deleteLinks hindex (hmode _ rfl))

theorem keeps_writeMetadata {b : HnswBuilder M0} (hi : w.index = i) :
    Keeps R (w.writeMetadata D M0 env items b) := by
  subst hi
  unfold writeMetadata
  split_ifs
  · exact keeps_throw _
  · refine Keeps.bind (keeps_check _) fun _ => ?_
    refine Keeps.bind (keeps_modify (hR _ (.putMetadata rfl))) fun _ => ?_
    refine Keeps.bind (keeps_check _) fun _ => ?_
    exact keeps_modify (hR _ (.putVersion _))

end

/-- **The phases after the stones** keep what each of their writes keeps. -/
theorem keeps_buildFrom {sets : UpdateSets}
    (hR : ∀ f, LateWrite w.index sets.itemIndices f → ∀ db, R db (f db)) :
    Keeps R (buildFrom D w M M0 env options sets) := by
  unfold buildFrom
  refine Keeps.bind keeps_startBuilder fun b => ?_
  refine Keeps.bind (keeps_builderBuild hR) fun b => ?_
  exact Keeps.bind (keeps_deleteLinksFromDb hR rfl) fun _ => keeps_writeMetadata hR rfl

/-! ## Whole builds -/

section

variable
  (hstone : ∀ k : Key, k.index = w.index → k.node.mode = .updated → ∀ db, R db (db.delete k))
  (hlate : ∀ items f, LateWrite w.index items f → ∀ db, R db (f db))

include hstone hlate

/-- **A build** keeps what the deletion of a stone keeps and each later write. -/
theorem keeps_build : Keeps R (w.build D M M0 env options) := by
  rw [build_eq]
  exact Keeps.bind (keeps_retrieveSets hstone) fun sets => keeps_buildFrom (hlate _)

theorem keeps_forceRebuild : Keeps R (w.forceRebuild D M M0 env options) := by
  unfold forceRebuild
  refine Keeps.bind keeps_get fun db => Keeps.bind (keeps_ofExcept _) fun metadata => ?_
  cases metadata with
  | none => exact keeps_throw _
  | some m =>
    refine Keeps.bind (keeps_deleteLinksFromDb (hlate ∅) rfl) fun _ => ?_
    exact keeps_build hstone hlate

end

end

end Hannoy.Index
