import Hannoy.Graph.Interrupted
import Hannoy.Index.Run

/-!
# What can stop a build of an index (`writer.rs:521-718`)

A build of a consistent index can always be finished: it fails only when its cancel callback or a
call of the database says so, whatever the levels, the order of the inserts and their interleaving.
After builds that failed half-way it may return other errors, but it does not panic.

* `build_fails_of`, `forceRebuild_fails_of`: the phases of a build, and what comes before them in a
  rebuild.
* `build_interrupted`, `forceRebuild_interrupted`: from a consistent index.
* `Rooted.build_errs`, `Rooted.forceRebuild_errs`: from any entries of the right kinds.
-/

namespace Hannoy.Index

open Hannoy.Library Hannoy.Library.Txn Hannoy.Writer Hannoy.Graph

variable {D : Distance} {w : Writer} {M M0 : Nat} {env : Environment} {options : BuildOption}
  {db db' db₀ : Database} {i : UInt16} {E : Failure → Prop}

/-! ## The phases -/

theorem failsFrom_ofExcept {α : Type} {x : Except Failure α} (h : Fails E x) :
    FailsFrom E (RwTxn.ofExcept x) db := by
  cases x with
  | ok a => exact FailsFrom.pure a
  | error e => exact FailsFrom.throw (h e rfl)

/-- The metadata of a well-typed index is read. -/
theorem failsFrom_getMetadata (hwt : db.WellTyped i) :
    FailsFrom E (RwTxn.ofExcept (db.getMetadata i)) db :=
  failsFrom_ofExcept (Fails.of_ok (getMetadata_ok hwt))

section phases

variable (hE : ∀ f, Interrupted options env f → E f)
include hE

theorem failsFrom_check {site : Site} : FailsFrom E (RwTxn.check env site) db := by
  unfold RwTxn.check
  split_ifs with hfault
  · exact FailsFrom.throw (hE _ (Interrupted.fault hfault))
  · exact FailsFrom.pure ()

theorem retrieveLoop_fails : ∀ {entries : List (Key × Value)} {n : Nat}
    {updated deleted : RoaringBitmap} {db : Database},
      (∀ e ∈ entries, ∃ s, decodeStatus e.2 = .ok s) →
      FailsFrom E (retrieveLoop env options n entries updated deleted) db
  | [], _, _, _, _, _ => (failsFrom_check hE).bind fun _ _ _ => FailsFrom.pure _
  | (k, v) :: entries, n, updated, deleted, db, h => by
    obtain ⟨⟨s, hs⟩, hrest⟩ := List.forall_mem_cons.mp h
    unfold retrieveLoop
    refine (failsFrom_check hE).bind fun _ _ _ => ?_
    refine (failsFrom_ofExcept (Fails.of_ok hs)).bind fun _ _ _ => ?_
    by_cases hc : options.cancelled n .retrieve
    · rw [if_pos hc]
      exact FailsFrom.throw (hE _ (Interrupted.of_cancelled hc))
    · rw [if_neg hc]
      refine (failsFrom_check hE).bind fun _ _ _ => ?_
      exact (FailsFrom.modify _).bind fun _ _ _ => retrieveLoop_fails hrest

theorem retrieveSets_fails (hwt : db.WellTyped w.index) :
    FailsFrom E (w.retrieveSets env options) db := by
  unfold retrieveSets
  refine (failsFrom_check hE).bind fun _ db₁ h₁ => FailsFrom.read ?_
  obtain ⟨-, rfl⟩ := RwTxn.check_ok_iff.mp h₁
  refine (failsFrom_getMetadata hwt).bind fun metadata db₂ h₂ => ?_
  obtain ⟨-, rfl⟩ := RwTxn.ofExcept_ok_iff.mp h₂
  split_ifs
  · exact FailsFrom.pure _
  · refine FailsFrom.bind (FailsFrom.read (retrieveLoop_fails hE fun ⟨k, v⟩ he => ?_))
      fun _ _ _ => FailsFrom.pure _
    obtain ⟨x, s, -, rfl, -⟩ := (Database.mem_prefixIter_updated hwt).mp he
    exact ⟨s, rfl⟩

theorem startBuilder_fails (hwt : db.WellTyped w.index) :
    FailsFrom E (w.startBuilder M0 env) db := by
  unfold startBuilder
  refine (failsFrom_check hE).bind fun _ db₁ h₁ => FailsFrom.read ?_
  obtain ⟨-, rfl⟩ := RwTxn.check_ok_iff.mp h₁
  exact (failsFrom_getMetadata hwt).bind fun _ _ _ => FailsFrom.pure _

theorem writeLinks_fails : ∀ {l : List (Key × Value)} {n : Nat} {db : Database},
    FailsFrom E (HnswBuilder.writeLinks options env n l) db
  | [], _, _ => FailsFrom.pure ()
  | (k, v) :: l, n, db => by
    unfold HnswBuilder.writeLinks
    split_ifs with hc
    · exact FailsFrom.bind (FailsFrom.throw (hE _ (Interrupted.of_cancelled hc)))
        fun _ _ h => by cases h
    · refine (failsFrom_check hE).bind fun _ _ _ => ?_
      exact (FailsFrom.modify _).bind fun _ _ _ => writeLinks_fails

theorem builderBuild_fails {b : HnswBuilder M0} {toInsert toDelete : RoaringBitmap}
    (h : Fails E (HnswBuilder.buildLayers D M options env ⟨db, i⟩ b toInsert toDelete)) :
    FailsFrom E (HnswBuilder.build D M options env b i toInsert toDelete) db := by
  unfold HnswBuilder.build
  refine (failsFrom_check hE).bind fun _ db₁ h₁ => FailsFrom.read ?_
  obtain ⟨-, rfl⟩ := RwTxn.check_ok_iff.mp h₁
  exact (failsFrom_ofExcept h).bind fun b' _ _ =>
    (writeLinks_fails hE).bind fun _ _ _ => FailsFrom.pure b'

theorem deleteLinksLoop_fails {toDelete : RoaringBitmap} : ∀ {keys : List Key} {n : Nat}
    {db : Database}, FailsFrom E (deleteLinksLoop env toDelete n keys) db
  | [], _, _ => failsFrom_check hE
  | k :: keys, n, db => by
    unfold deleteLinksLoop
    refine (failsFrom_check hE).bind fun _ _ _ => ?_
    split_ifs
    · exact (FailsFrom.modify _).bind fun _ _ _ => deleteLinksLoop_fails
    · exact deleteLinksLoop_fails

theorem deleteLinksFromDb_fails {toDelete : RoaringBitmap} :
    FailsFrom E (w.deleteLinksFromDb env toDelete) db :=
  FailsFrom.read (deleteLinksLoop_fails hE)

theorem writeMetadata_fails (hdim : w.dimensions < 2 ^ 32) {items : RoaringBitmap}
    {b : HnswBuilder M0} : FailsFrom E (w.writeMetadata D M0 env items b) db := by
  unfold writeMetadata
  split_ifs with h
  · omega
  · refine (failsFrom_check hE).bind fun _ _ _ => (FailsFrom.modify _).bind fun _ _ _ => ?_
    exact (failsFrom_check hE).bind fun _ _ _ => FailsFrom.modify _

/-- **The phases of a build**: the layers are built from what the stones and the metadata say. -/
theorem build_fails_of (hwt : db.WellTyped w.index) (hdim : w.dimensions < 2 ^ 32)
    (h : Fails E (HnswBuilder.buildLayers D M options env (snapshot options w.index db)
      (builderOf M0 w.index (takeStones options w.index db))
      (buildSets options w.index db).toInsert (buildSets options w.index db).toDelete)) :
    FailsFrom E (w.build D M M0 env options) db := by
  unfold Writer.build
  refine (retrieveSets_fails hE hwt).bind fun sets db₁ h₁ => ?_
  obtain ⟨rfl, rfl⟩ := retrieveSets_ok h₁
  refine (startBuilder_fails hE (wellTyped_takeStones hwt)).bind fun b db₂ h₂ => ?_
  obtain ⟨rfl, rfl⟩ := startBuilder_ok h₂
  refine (builderBuild_fails hE h).bind fun b' db₃ _ => ?_
  exact (deleteLinksFromDb_fails hE).bind fun _ _ _ => writeMetadata_fails hE hdim

/-- A rebuild deletes the links of the items, which is no reason to fail, and builds. -/
theorem forceRebuild_fails_of (hwt : db.WellTyped w.index)
    (hnone : db.metadata? w.index = none → E (.panic .metadataMissing))
    (h : ∀ m, db.metadata? w.index = some m → FailsFrom E
      (w.build D M M0 env { options with relinkAllItems := true }) (dropLinks w.index db m)) :
    FailsFrom E (w.forceRebuild D M M0 env options) db := by
  unfold forceRebuild
  refine FailsFrom.read ((failsFrom_getMetadata hwt).bind fun metadata db₁ h₁ => ?_)
  obtain ⟨hm, rfl⟩ := RwTxn.ofExcept_ok_iff.mp h₁
  have hmeta := metadata?_of_getMetadata hm
  cases metadata with
  | none => exact FailsFrom.throw (hnone hmeta)
  | some m =>
    refine (deleteLinksFromDb_fails hE).bind fun _ db₂ h₂ => ?_
    obtain rfl := deleteLinksFromDb_ok h₂
    exact h m hmeta

end phases

/-! ## A consistent index -/

theorem Ready.build_fails (hready : Ready options w.index db) (hM : M ≤ M0)
    (hdim : w.dimensions < 2 ^ 32) :
    FailsFrom (Interrupted options env) (w.build D M M0 env options) db :=
  build_fails_of (fun _ => id) hready.typed hdim
    (buildLayers_fails hM hready.buildInput fun hnil => (hready.height_of_nil hnil).2)

/-- **A build fails only when it is interrupted.** -/
theorem build_interrupted (hc : Consistent w.index db) (hr : options.relinkAllItems = false)
    (hM : M ≤ M0) (hdim : w.dimensions < 2 ^ 32) :
    FailsFrom (Interrupted options env) (w.build D M M0 env options) db :=
  (ready_of_consistent hc hr).build_fails hM hdim

/-- Without entry points the graph has no height. -/
def Rooted (i : UInt16) (db : Database) : Prop :=
  ∀ m, db.metadata? i = some m → m.entryPoints = [] → m.maxLevel = 0

theorem Rooted.builderOf (h : Rooted i db) (hnil : (builderOf M0 i db).entryPoints = []) :
    (Index.builderOf M0 i db).maxLevel = 0 := by
  unfold Index.builderOf at hnil ⊢
  cases hm : db.metadata? i with
  | none => rfl
  | some m =>
    rw [hm] at hnil
    simp [h m hm hnil]

/-- **From any entries of the right kinds a build does not panic.** -/
theorem Rooted.build_errs (hrooted : Rooted w.index db) (hwt : db.WellTyped w.index) (hM : M ≤ M0)
    (hdim : w.dimensions < 2 ^ 32) : FailsFrom Errs (w.build D M M0 env options) db := by
  refine build_fails_of (fun _ => Interrupted.errs) hwt hdim
    (buildLayers_errs hM (wellTyped_takeStones hwt) (Rooted.builderOf fun m hm => ?_))
  rw [metadata?_takeStones] at hm
  exact hrooted m hm

/-- **Nor does a rebuild**, unless the index was never built. -/
theorem Rooted.forceRebuild_errs (hrooted : Rooted w.index db) (hwt : db.WellTyped w.index)
    (hM : M ≤ M0) (hdim : w.dimensions < 2 ^ 32) :
    FailsFrom (fun f => Errs f ∨ db.metadata? w.index = none ∧ f = .panic .metadataMissing)
      (w.forceRebuild D M M0 env options) db := by
  have hE : ∀ f, Interrupted options env f →
      Errs f ∨ db.metadata? w.index = none ∧ f = .panic .metadataMissing :=
    fun _ h => Or.inl h.errs
  refine forceRebuild_fails_of hE hwt (fun hnone => Or.inr ⟨hnone, rfl⟩)
    fun m hm e db' he => Or.inl ?_
  have hmeta : (dropLinks w.index db m).metadata? w.index = db.metadata? w.index := by
    rw [Database.metadata?, getElem?_dropLinks (by simp [Key.metadata])]
    rfl
  have hrooted' : Rooted w.index (dropLinks w.index db m) := fun m' hm' =>
    hrooted m' (hmeta ▸ hm')
  exact hrooted'.build_errs (Database.WellTyped.deleteAll _ hwt) hM hdim e db' he

end Hannoy.Index
