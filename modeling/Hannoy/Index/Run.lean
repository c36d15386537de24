import Hannoy.Index.Consistent
import Hannoy.Model.Reader

/-!
# Runs of a writer

A run is a list of operations of writers on one index, the latest first, each of which returned.
The index has no entries when it starts.

* `Run.consistent`: every state of a run is consistent.
* `Run.of_play`: operations that are played make a run.
* `graph_valid_after_build`: after each build the graph is valid.
-/

namespace Hannoy.Index

open Hannoy.Library Hannoy.Library.Txn Hannoy.Writer Hannoy.Graph

variable {D : Distance} {i : UInt16} {db db' db₀ : Database}

/-! ## Operations -/

/-- An operation of a writer. -/
inductive Op where
  | addItem (item : ItemId) (vector : List F32)
  | delItem (item : ItemId)
  | clear
  | build (M M0 : Nat) (env : Environment) (options : BuildOption)
  | forceRebuild (M M0 : Nat) (env : Environment) (options : BuildOption)

/-- One operation that returns. A build relinks everything only through `forceRebuild`, which is
called when no update is pending. -/
inductive Step (D : Distance) (w : Writer) : Op → Database → Database → Prop
  | addItem {x : ItemId} {v : List F32} {u : Unit} {db db' : Database}
      (h : w.addItem D x v db = .ok u db') : Step D w (.addItem x v) db db'
  | delItem {x : ItemId} {b : Bool} {db db' : Database} (h : w.delItem x db = .ok b db') :
      Step D w (.delItem x) db db'
  | clear {u : Unit} {db db' : Database} (h : w.clear db = .ok u db') : Step D w .clear db db'
  | build {M M0 : Nat} {env : Environment} {options : BuildOption} {u : Unit}
      {db db' : Database} (hr : options.relinkAllItems = false)
      (h : w.build D M M0 env options db = .ok u db') :
      Step D w (.build M M0 env options) db db'
  | forceRebuild {M M0 : Nat} {env : Environment} {options : BuildOption} {u : Unit}
      {db db' : Database} (hs : db.prefixIter (Prefix.updated w.index) = [])
      (h : w.forceRebuild D M M0 env options db = .ok u db') :
      Step D w (.forceRebuild M M0 env options) db db'

/-- The operation builds the graph. -/
def Op.Builds : Op → Prop
  | .build _ _ _ _ => True
  | .forceRebuild _ _ _ _ => True
  | _ => False

/-- A run of writers on index `i`, the latest operation first. -/
inductive Run (D : Distance) (i : UInt16) (db₀ : Database) : List (Writer × Op) → Database → Prop
  | start : Run D i db₀ [] db₀
  | step {w : Writer} {op : Op} {tr : List (Writer × Op)} {db db' : Database} (hw : w.index = i)
      (hrun : Run D i db₀ tr db) (hstep : Step D w op db db') : Run D i db₀ ((w, op) :: tr) db'

/-! ## Running operations -/

/-- The state of a transaction that returns. -/
def committed {α : Type} : EStateM.Result Failure Database α → Option Database
  | .ok _ db => some db
  | .error _ _ => none

theorem committed_eq_some {α : Type} {x : EStateM.Result Failure Database α} {db : Database}
    (h : committed x = some db) : ∃ a, x = .ok a db := by
  cases x with
  | ok a db' => cases h; exact ⟨a, rfl⟩
  | error e db' => cases h

/-- Run one operation. -/
def Op.apply (D : Distance) (w : Writer) (db : Database) : Op → Option Database
  | .addItem x v => committed (w.addItem D x v db)
  | .delItem x => committed (w.delItem x db)
  | .clear => committed (w.clear db)
  | .build M M0 env options =>
    if options.relinkAllItems = false then committed (w.build D M M0 env options db)
    else none
  | .forceRebuild M M0 env options =>
    if db.prefixIter (Prefix.updated w.index) = [] then
      committed (w.forceRebuild D M M0 env options db)
    else none

theorem Step.of_apply {w : Writer} : ∀ {op : Op}, op.apply D w db = some db' →
    Step D w op db db'
  | .addItem _ _, h =>
    have ⟨_, h⟩ := committed_eq_some h
    .addItem h
  | .delItem _, h =>
    have ⟨_, h⟩ := committed_eq_some h
    .delItem h
  | .clear, h =>
    have ⟨_, h⟩ := committed_eq_some (x := w.clear db) h
    .clear h
  | .build M M0 env options, h => by
    simp only [Op.apply] at h
    split_ifs at h with hc
    obtain ⟨_, h⟩ := committed_eq_some h
    exact .build hc h
  | .forceRebuild M M0 env options, h => by
    simp only [Op.apply] at h
    split_ifs at h with hc
    obtain ⟨_, h⟩ := committed_eq_some h
    exact .forceRebuild hc h

/-- Run operations on one index, the latest first. -/
def play (D : Distance) (db₀ : Database) : List (Writer × Op) → Option Database
  | [] => some db₀
  | (w, op) :: tr => (play D db₀ tr).bind fun db => op.apply D w db

/-- **`play` computes runs.** -/
theorem Run.of_play : ∀ {tr : List (Writer × Op)} {db : Database},
    (∀ e ∈ tr, e.1.index = i) → play D db₀ tr = some db → Run D i db₀ tr db
  | [], _, _, h => by
    cases h
    exact .start
  | (w, op) :: tr, db, hi, h => by
    obtain ⟨db₁, h₁, h⟩ := Option.bind_eq_some_iff.mp h
    exact .step (hi _ List.mem_cons_self)
      (Run.of_play (fun e he => hi e (List.mem_cons_of_mem _ he)) h₁) (Step.of_apply h)

/-! ## Consistency -/

theorem stone?_of_prefixIter_nil (hs : db.prefixIter (Prefix.updated i) = []) (x : ItemId) :
    db.stone? i x = none := by
  refine Option.eq_none_iff_forall_ne_some.mpr fun s hx => ?_
  unfold Database.stone? at hx
  split at hx
  · rename_i hk
    have := (Database.mem_prefixIter (p := Prefix.updated i)).mpr
      ⟨hk, rfl, fun m hm => by cases hm; rfl⟩
    rw [hs] at this
    exact absurd this List.not_mem_nil
  · cases hx

theorem prefixIter_nil_of_stone? (hwt : db.WellTyped i) (hs : ∀ x, db.stone? i x = none) :
    db.prefixIter (Prefix.updated i) = [] := by
  refine List.eq_nil_iff_forall_not_mem.mpr fun ⟨k, v⟩ he => ?_
  obtain ⟨x, s, -, -, hx⟩ := (Database.mem_prefixIter_updated hwt).mp he
  rw [hs x] at hx
  cases hx

/-- **One operation keeps the index consistent**, and a build leaves no stone. -/
theorem Step.consistent {w : Writer} {op : Op} (h : Step D w op db db')
    (hc : Consistent w.index db) :
    Consistent w.index db' ∧ (op.Builds → ∀ x, db'.stone? w.index x = none) := by
  cases h with
  | addItem h =>
    obtain ⟨-, hmark⟩ := addItem_marks h
    exact ⟨hc.mark hmark (by simp), False.elim⟩
  | delItem h =>
    refine ⟨?_, False.elim⟩
    obtain ⟨-, hmark⟩ := delItem_marks hc.typed h
    split_ifs at hmark with hb
    · exact hc.mark hmark (by simp)
    · rw [hmark]
      exact hc
  | clear h => exact ⟨consistent_of_noEntries (clear_noEntries h), False.elim⟩
  | build hr h =>
    obtain ⟨hc', hs'⟩ := consistent_build hc hr h
    exact ⟨hc', fun _ => hs'⟩
  | forceRebuild hs h =>
    obtain ⟨hc', hs'⟩ := consistent_forceRebuild hc (stone?_of_prefixIter_nil hs) h
    exact ⟨hc', fun _ => hs'⟩

/-- **Every state of a run is consistent.** -/
theorem Run.consistent (h₀ : NoEntries i db₀) {tr : List (Writer × Op)}
    (h : Run D i db₀ tr db) : Consistent i db := by
  induction h with
  | start => exact consistent_of_noEntries h₀
  | step hw _ hstep ih =>
    subst hw
    exact (hstep.consistent ih).1

theorem Step.metadata_of_builds {w : Writer} {op : Op} (h : Step D w op db db')
    (hc : Consistent w.index db) (hop : op.Builds) : ∃ m, db'.metadata? w.index = some m ∧
      m.distance = D.name ∧ w.dimensions < 2 ^ 32 ∧ m.dimensions = w.dimensions.toUInt32 := by
  cases h with
  | addItem h => exact hop.elim
  | delItem h => exact hop.elim
  | clear h => exact hop.elim
  | build hr h =>
    obtain ⟨b, hdone⟩ := (ready_of_consistent hc hr).build_done h
    exact ⟨_, hdone.built.metadata, rfl, hdone.dimensions, rfl⟩
  | forceRebuild hs h =>
    obtain ⟨m, hm, hb⟩ := forceRebuild_ok h
    obtain ⟨b, hdone⟩ :=
      (ready_dropLinks _ hc (stone?_of_prefixIter_nil hs) rfl hm).build_done hb
    exact ⟨_, hdone.built.metadata, rfl, hdone.dimensions, rfl⟩

/-- **Graph validity is an invariant of runs**: after each build the graph is valid. -/
theorem graph_valid_after_build (h₀ : NoEntries i db₀) {w : Writer} {op : Op}
    {tr : List (Writer × Op)} (hrun : Run D i db₀ ((w, op) :: tr) db) (hop : op.Builds) :
    ∃ m, db.metadata? i = some m ∧ db.WellTyped i ∧ ValidGraph i db m := by
  cases hrun with
  | step hw hrun hstep =>
    subst hw
    have hc := hrun.consistent h₀
    obtain ⟨hc', hs⟩ := hstep.consistent hc
    obtain ⟨m, hm, -⟩ := hstep.metadata_of_builds hc hop
    exact ⟨m, hm, hc'.typed, validGraph_of_consistent hc' (hs hop) hm⟩

/-- Two items are added and built, the first one on level 1. -/
def twoItems : List (Writer × Op) :=
  [.build 2 2 .twoLevels BuildOption.default,
    .addItem 1 [F32.one], .addItem 0 [F32.zero]].map (⟨0, 1⟩, ·)

theorem graph_valid_twoItems : ∃ db m, play manhattan ∅ twoItems = some db ∧
    db.metadata? 0 = some m ∧ m.items = {0, 1} ∧ db.WellTyped 0 ∧ ValidGraph 0 db m := by
  have h : ((play manhattan ∅ twoItems).bind fun db => db.metadata? 0).map Metadata.items =
      some {0, 1} := by decide +kernel
  obtain ⟨m, h, hitems⟩ := Option.map_eq_some_iff.mp h
  obtain ⟨db, hdb, hm⟩ := Option.bind_eq_some_iff.mp h
  have hrun : Run manhattan 0 ∅ twoItems db := Run.of_play (by decide) hdb
  obtain ⟨m', hm', hwt, hvalid⟩ := graph_valid_after_build noEntries_empty hrun trivial
  rw [hm] at hm'
  cases hm'
  exact ⟨db, m, hdb, hm, hitems, hwt, hvalid⟩

end Hannoy.Index
