import Hannoy.Index.Dimensions
import Hannoy.Model.Builder

/-!
# One builder over several calls (`writer.rs:215-259`)

`force_rebuild` turns `relink_all_items` off when it returns, and only then. After a rebuild that
failed, the builds of the same builder leave the stones alone.

* `Session`: a builder, the database, and the changes its builds have to take in (`Ledger`), over
  any calls, transactions that are aborted included.
* `relinkAllItems_iff`: the option is on exactly when the last `force_rebuild` failed.
* `build_consumes_iff`: a build that returns has taken in all changes exactly when it had no stone
  to leave alone, and no failed build has taken one away.
* `rebuild_sticks`: a cancelled `force_rebuild`, and a build that leaves an item out.
-/

namespace Hannoy.Index

open Hannoy.Library Hannoy.Library.Txn Hannoy.Writer Hannoy.Graph

variable {D : Distance} {w : Writer} {M M0 : Nat} {env : Environment} {options : BuildOption}
  {db db' : Database} {i : UInt16}

/-! ## Sessions -/

/-- What the builds have to take in. -/
structure Ledger where
  /-- The last change of each item since the last build that returned. -/
  pending : ItemId → Option UpdateStatus
  /-- A build has failed since, after it had started to take the stones. -/
  lost : Prop

/-- The changes of a database are its stones. -/
def Ledger.ofStones (i : UInt16) (db : Database) : Ledger := ⟨db.stone? i, False⟩

def Ledger.mark (l : Ledger) (x : ItemId) (status : UpdateStatus) : Ledger :=
  { l with pending := fun y => if y = x then some status else l.pending y }

/-- A builder at work on a database. -/
structure Session where
  builder : HannoyBuilder
  db : Database
  ledger : Ledger
  /-- What an abort goes back to. -/
  saved : Database × Ledger

namespace Session

/-- The index of the builder. -/
def index (s : Session) : UInt16 := s.builder.writer.index

/-- A new builder of a writer. -/
def start (w : Writer) (db : Database) : Session :=
  ⟨w.builder, db, .ofStones w.index db, (db, .ofStones w.index db)⟩

end Session

/-- A call. The items may be changed through any writer of the index. -/
inductive Call where
  | addItem (dimensions : Nat) (item : ItemId) (vector : List F32)
  | delItem (dimensions : Nat) (item : ItemId)
  | clear (dimensions : Nat)
  | cancel (cancel : Probe → Bool)
  | efConstruction (efConstruction : Nat)
  | alpha (alpha : F32)
  | build (M M0 : Nat) (env : Environment)
  | forceRebuild (M M0 : Nat) (env : Environment)
  | commit
  | abort

/-- The build leaves the stones as they are. -/
def LeavesStones (env : Environment) (options : BuildOption) (i : UInt16) (db : Database) : Prop :=
  options.relinkAllItems = true ∨ (∀ x, db.stone? i x = none) ∨ StopsBeforeStones env options

namespace Session

variable (D) in
/-- One call. A call that fails leaves its writes in the transaction. -/
def call (s : Session) : Call → Session
  | .addItem dimensions x v =>
    match (Writer.mk s.index dimensions).addItem D x v s.db with
    | .ok _ db => { s with db, ledger := s.ledger.mark x .updated }
    | .error _ db => { s with db }
  | .delItem dimensions x =>
    match (Writer.mk s.index dimensions).delItem x s.db with
    | .ok removed db =>
      { s with db, ledger := if removed then s.ledger.mark x .removed else s.ledger }
    | .error _ db => { s with db }
  | .clear dimensions =>
    match (Writer.mk s.index dimensions).clear s.db with
    | .ok _ db => { s with db, ledger := ⟨fun _ => none, False⟩ }
    | .error _ db => { s with db }
  | .cancel cancel => { s with builder := s.builder.cancel cancel }
  | .efConstruction n => { s with builder := s.builder.efConstruction n }
  | .alpha a => { s with builder := s.builder.alpha a }
  | .build M M0 env =>
    match s.builder.build D M M0 env s.db with
    | .ok _ db => { s with db, ledger := ⟨fun _ => none, False⟩ }
    | .error _ db =>
      { s with db, ledger := { s.ledger with
          lost := s.ledger.lost ∨ ¬ LeavesStones env s.builder.inner s.index s.db } }
  | .forceRebuild M M0 env =>
    let (builder, result) := s.builder.forceRebuild D M M0 env s.db
    { s with builder, db := final result }
  | .commit => { s with saved := (s.db, s.ledger) }
  | .abort => { s with db := s.saved.1, ledger := s.saved.2 }

variable (D) in
/-- Calls, the latest first. -/
def after (s₀ : Session) : List Call → Session
  | [] => s₀
  | c :: calls => (s₀.after calls).call D c

variable (D) in
/-- The last `force_rebuild` did not return. -/
def RebuildFailed (s₀ : Session) : List Call → Prop
  | [] => False
  | .forceRebuild M M0 env :: calls => ∃ e db,
    ((s₀.after D calls).builder.forceRebuild D M M0 env (s₀.after D calls).db).2 = .error e db
  | _ :: calls => RebuildFailed s₀ calls

/-! ## The option -/

/-- A rebuild turns the option on, and off again if it returns. -/
theorem forceRebuild_cases (b : HannoyBuilder) (db : Database) :
    (∃ db', b.writer.forceRebuild D M M0 env b.inner db = .ok () db' ∧
      b.forceRebuild D M M0 env db =
        ({ b with inner := { b.inner with relinkAllItems := false } }, .ok () db')) ∨
    ∃ e db', b.writer.forceRebuild D M M0 env b.inner db = .error e db' ∧
      b.forceRebuild D M M0 env db =
        ({ b with inner := { b.inner with relinkAllItems := true } }, .error e db') := by
  -- the writer turns the option on as well
  have heq : b.forceRebuild D M M0 env db =
      match b.writer.forceRebuild D M M0 env b.inner db with
      | .ok u db => ({ b with inner := { b.inner with relinkAllItems := false } }, .ok u db)
      | .error e db => ({ b with inner := { b.inner with relinkAllItems := true } }, .error e db) :=
    rfl
  rw [heq]
  cases b.writer.forceRebuild D M M0 env b.inner db with
  | ok u db' => exact Or.inl ⟨db', rfl, rfl⟩
  | error e db' => exact Or.inr ⟨e, db', rfl, rfl⟩

/-- The option after a call other than `force_rebuild`. -/
theorem relinkAllItems_call {s : Session} {c : Call} (hc : ∀ M M0 env, c ≠ .forceRebuild M M0 env) :
    (s.call D c).builder.inner.relinkAllItems = s.builder.inner.relinkAllItems := by
  cases c with
  | forceRebuild M M0 env => exact absurd rfl (hc M M0 env)
  | addItem | delItem | clear | build =>
    rw [call]
    split <;> rfl
  | cancel | efConstruction | alpha | commit | abort => rfl

/-- **The option is on** exactly when the last `force_rebuild` failed. -/
theorem relinkAllItems_iff (w : Writer) (db : Database) : ∀ calls : List Call,
    ((start w db).after D calls).builder.inner.relinkAllItems = true ↔
      (start w db).RebuildFailed D calls
  | [] => iff_of_false (by rintro ⟨⟩) id
  | .forceRebuild M M0 env :: calls => by
    rw [after, RebuildFailed, call]
    rcases forceRebuild_cases ((start w db).after D calls).builder
      ((start w db).after D calls).db with ⟨db', -, h⟩ | ⟨e, db', -, h⟩
    · rw [h]
      simp
    · rw [h]
      simp
  | .addItem .. :: calls | .delItem .. :: calls | .clear _ :: calls | .build .. :: calls
  | .cancel _ :: calls | .efConstruction _ :: calls | .alpha _ :: calls | .commit :: calls
  | .abort :: calls => by
    rw [after, relinkAllItems_call (by simp), relinkAllItems_iff w db calls]
    simp [RebuildFailed]

theorem index_call {s : Session} {c : Call} : (s.call D c).index = s.index := by
  cases c with
  | forceRebuild M M0 env =>
    rw [call]
    rcases forceRebuild_cases s.builder s.db with ⟨db', -, h⟩ | ⟨e, db', -, h⟩
    · rw [h]
      rfl
    · rw [h]
      rfl
  | addItem | delItem | clear | build =>
    rw [call]
    split <;> rfl
  | cancel | efConstruction | alpha | commit | abort => rfl

theorem index_after {s₀ : Session} : ∀ calls : List Call, (s₀.after D calls).index = s₀.index
  | [] => rfl
  | _ :: calls => index_call.trans (index_after calls)

end Session

/-! ## The pending changes -/

/-- Every pending change has its stone still, or the metadata has taken it in. -/
def Remembered (i : UInt16) (db : Database) (pending : ItemId → Option UpdateStatus) : Prop :=
  ∀ x status, pending x = some status → db.stone? i x = some status ∨
    (db.stone? i x = none ∧ (x ∈ indexed i db ↔ status = .updated))

/-- No change is forgotten unless a build has lost stones. -/
structure Kept (i : UInt16) (db : Database) (l : Ledger) : Prop where
  typed : db.WellTyped i
  remembered : ¬ l.lost → Remembered i db l.pending

theorem kept_ofStones (hwt : db.WellTyped i) : Kept i db (.ofStones i db) :=
  ⟨hwt, fun _ _ _ h => Or.inl h⟩

theorem Kept.none (hwt : db.WellTyped i) (lost : Prop) : Kept i db ⟨fun _ => Option.none, lost⟩ :=
  ⟨hwt, fun _ _ _ h => by cases h⟩

theorem Kept.mark {l : Ledger} (h : Kept i db l) {x : ItemId} {it : Option Item}
    {status : UpdateStatus} (hm : Marks i x it status db db') : Kept i db' (l.mark x status) := by
  refine ⟨hm.typed h.typed, fun hlost y s hy => ?_⟩
  have hindexed : indexed i db' = indexed i db := by
    unfold indexed
    rw [hm.metadata]
  rw [hm.stone, hindexed]
  by_cases hx : y = x
  · rw [if_pos hx]
    simp only [Ledger.mark, if_pos hx] at hy
    exact Or.inl hy
  · rw [if_neg hx]
    simp only [Ledger.mark, if_neg hx] at hy
    exact h.remembered hlost y s hy

/-- A call that only changes links keeps everything. -/
theorem Kept.same {l : Ledger} (h : Kept i db l) (hwt : db'.WellTyped i)
    (hsame : SamePending i db db') : Kept i db' l := by
  refine ⟨hwt, fun hlost x status hx => ?_⟩
  have hstone : db'.stone? i x = db.stone? i x := by
    rw [Database.stone?, hsame.entries _ rfl (Or.inr rfl)]
    rfl
  rw [hstone, hsame.indexed]
  exact h.remembered hlost x status hx

/-! ## Well-typed entries -/

/-- Entries stay well typed. -/
def StaysTyped (i : UInt16) (db db' : Database) : Prop := db.WellTyped i → db'.WellTyped i

instance : IsPreorder Database (StaysTyped i) where
  refl _ h := h
  trans _ _ _ h h' hwt := h' (h hwt)

theorem staysTyped_write {items : RoaringBitmap} {f : Database → Database}
    (h : LateWrite i items f) (db : Database) : StaysTyped i db (f db) := fun hwt => by
  cases h with
  | putLinks x l s => exact hwt.put fun _ => Database.Fits.links _ _ _
  | deleteLinks => exact hwt.delete _
  | putMetadata => exact hwt.put fun _ => Database.Fits.metadata _
  | putVersion v => exact hwt.put fun _ => Database.Fits.version _

theorem staysTyped_build : Keeps (StaysTyped w.index) (w.build D M M0 env options) :=
  keeps_build (fun _ _ _ _ h => h.delete _) fun _ _ => staysTyped_write

theorem staysTyped_forceRebuild : Keeps (StaysTyped w.index) (w.forceRebuild D M M0 env options) :=
  keeps_forceRebuild (fun _ _ _ _ h => h.delete _) fun _ _ => staysTyped_write

/-- **A rebuild leaves the stones and what is indexed**, however it ends. -/
theorem samePending_forceRebuild (hwt : db.WellTyped w.index) :
    SamePending w.index db (final (w.forceRebuild D M M0 env options db)) := by
  have hrefl : SamePending w.index db db := SamePending.of_frame (Frame.refl db)
  unfold forceRebuild
  rw [bind_eq]
  show SamePending w.index db
    (final ((RwTxn.ofExcept (db.getMetadata w.index) >>= _ : RwTxn Unit) db))
  rw [getMetadata_ok hwt]
  cases db.metadata? w.index with
  | none => exact hrefl
  | some m =>
    have hframe : Keeps (Frame w.index (indexed w.index db)) (w.deleteLinksFromDb env m.items) :=
      keeps_deleteLinksFromDb (fun _ => Frame.of_write) rfl
    have htyped : Keeps (StaysTyped w.index) (w.deleteLinksFromDb env m.items) :=
      keeps_deleteLinksFromDb (fun f (hf : LateWrite w.index ∅ f) => staysTyped_write hf) rfl
    show SamePending w.index db (final ((w.deleteLinksFromDb env m.items >>= _ : RwTxn Unit) db))
    rw [bind_eq]
    cases hdel : w.deleteLinksFromDb env m.items db with
    | error e db₁ => exact SamePending.of_frame (hframe.of_error hdel)
    | ok u db₁ =>
      have hsame : SamePending w.index db db₁ := SamePending.of_frame (hframe.of_ok hdel)
      exact hsame.trans (samePending_of_quiet D M M0 (htyped.of_ok hdel hwt) (Or.inl rfl))

/-! ## Runs of calls -/

namespace Session

/-- What is known of the changes, now and after an abort. -/
structure Sound (s : Session) : Prop where
  now : Kept s.index s.db s.ledger
  saved : Kept s.index s.saved.1 s.saved.2

theorem Sound.addItem {s : Session} (h : s.Sound) (dimensions : Nat) (x : ItemId) (v : List F32) :
    (s.call D (.addItem dimensions x v)).Sound := by
  rw [call]
  split
  · next db' hadd => exact ⟨h.now.mark (addItem_marks hadd).2, h.saved⟩
  · next e db' hadd =>
    unfold Writer.addItem at hadd
    split_ifs at hadd
    · cases hadd
      exact h
    · cases hadd

theorem Sound.delItem {s : Session} (h : s.Sound) (dimensions : Nat) (x : ItemId) :
    (s.call D (.delItem dimensions x)).Sound := by
  rw [call]
  split
  · next removed db' hdel =>
    have hmarks := (delItem_marks h.now.typed hdel).2
    cases removed with
    | true => exact ⟨h.now.mark hmarks, h.saved⟩
    | false =>
      obtain rfl : db' = s.db := hmarks
      exact h
  · next e db' hdel =>
    rw [delItem_eq] at hdel
    split_ifs at hdel

theorem Sound.clear {s : Session} (h : s.Sound) (dimensions : Nat) :
    (s.call D (.clear dimensions)).Sound := by
  rw [call]
  split
  · next db' hclear =>
    exact ⟨.none (consistent_of_noEntries (clear_noEntries hclear)).typed False, h.saved⟩
  · next e db' hclear => cases hclear

theorem Sound.build {s : Session} (h : s.Sound) (M M0 : Nat) (env : Environment) :
    (s.call D (.build M M0 env)).Sound := by
  rw [call]
  split
  · next db' hbuild =>
    exact ⟨.none (staysTyped_build.of_ok hbuild h.now.typed) False, h.saved⟩
  · next e db' hbuild =>
    have hwt : db'.WellTyped s.index := staysTyped_build.of_error hbuild h.now.typed
    refine ⟨⟨hwt, fun hlost => ?_⟩, h.saved⟩
    obtain ⟨hlost, hleaves⟩ := not_or.mp hlost
    have hsame := samePending_of_quiet D M M0 h.now.typed (not_not.mp hleaves)
    rw [show s.builder.writer.build D M M0 env s.builder.inner s.db = .error e db' from hbuild]
      at hsame
    exact (h.now.same hwt hsame).remembered hlost

theorem Sound.forceRebuild {s : Session} (h : s.Sound) (M M0 : Nat) (env : Environment) :
    (s.call D (.forceRebuild M M0 env)).Sound := by
  rw [call]
  have hsame : ∀ {result}, s.builder.writer.forceRebuild D M M0 env s.builder.inner s.db = result →
      Kept s.index (final result) s.ledger := by
    rintro _ rfl
    exact h.now.same (staysTyped_forceRebuild _ h.now.typed) (samePending_forceRebuild h.now.typed)
  rcases forceRebuild_cases s.builder s.db with ⟨db', hok, heq⟩ | ⟨e, db', herror, heq⟩
  · rw [heq]
    exact ⟨hsame hok, h.saved⟩
  · rw [heq]
    exact ⟨hsame herror, h.saved⟩

/-- **A call keeps track of the changes.** -/
theorem Sound.call {s : Session} (h : s.Sound) : ∀ c : Call, (s.call D c).Sound
  | .addItem dimensions x v => h.addItem dimensions x v
  | .delItem dimensions x => h.delItem dimensions x
  | .clear dimensions => h.clear dimensions
  | .build M M0 env => h.build M M0 env
  | .forceRebuild M M0 env => h.forceRebuild M M0 env
  | .commit => ⟨h.now, h.now⟩
  | .abort => ⟨h.saved, h.saved⟩
  | .cancel _ | .efConstruction _ | .alpha _ => ⟨h.now, h.saved⟩

theorem sound_after (hwt : db.WellTyped w.index) : ∀ calls : List Call,
    ((start w db).after D calls).Sound
  | [] => ⟨kept_ofStones hwt, kept_ofStones hwt⟩
  | c :: calls => (sound_after hwt calls).call c

/-- **Changes are forgotten only by a build** that fails after it has started to take the stones. -/
theorem remembered_after (hwt : db.WellTyped w.index) {calls : List Call} {s : Session}
    (hs : s = (start w db).after D calls) (hlost : ¬ s.ledger.lost) :
    Remembered s.index s.db s.ledger.pending := by
  subst hs
  exact (sound_after hwt calls).now.remembered hlost

/-- A build that returned has taken in all changes. -/
structure Consumed (s : Session) (db' : Database) : Prop where
  stones : ∀ x, db'.stone? s.index x = none
  items : ∀ x status, s.ledger.pending x = some status →
    (x ∈ indexed s.index db' ↔ status = .updated)

section

variable {s : Session} (hwt : s.db.WellTyped s.index)
  (h : s.builder.build D M M0 env s.db = .ok () db')

include hwt h

theorem stone?_of_build (x : ItemId) : db'.stone? s.index x =
    if s.builder.inner.relinkAllItems then s.db.stone? s.index x else none := by
  have hentry : db'[Key.updated s.index x]? =
      (takeStones s.builder.inner s.index s.db)[Key.updated s.index x]? :=
    entries_of_build h (by simp [Key.updated]) (by simp [Key.updated])
  rw [← stone?_takeStones hwt x, Database.stone?, hentry]
  rfl

/-- A build that relinks everything leaves the stones and indexes the same items. -/
theorem consumed_relinked_iff (hr : s.builder.inner.relinkAllItems = true) : s.Consumed db' ↔
    (∀ x, s.db.stone? s.index x = none) ∧ Remembered s.index s.db s.ledger.pending := by
  have hstone : ∀ x, db'.stone? s.index x = s.db.stone? s.index x := fun x => by
    rw [stone?_of_build hwt h, if_pos hr]
  have hsame : indexed s.index db' = indexed s.index s.db := by
    rw [show indexed s.index db' = (buildSets s.builder.inner s.index s.db).itemIndices from
      indexed_of_build h, buildSets, if_pos hr]
  constructor
  · intro hc
    have hnone : ∀ x, s.db.stone? s.index x = none := fun x => (hstone x).symm.trans (hc.stones x)
    refine ⟨hnone, fun x status hx => Or.inr ⟨hnone x, ?_⟩⟩
    rw [← hsame]
    exact hc.items x status hx
  · rintro ⟨hnone, hrem⟩
    refine ⟨fun x => (hstone x).trans (hnone x), fun x status hx => ?_⟩
    rw [hsame]
    rcases hrem x status hx with hpending | ⟨-, hpending⟩
    · rw [hnone x] at hpending
      cases hpending
    · exact hpending

/-- Any other build takes the stones and indexes what they say. -/
theorem consumed_stones_iff (hr : s.builder.inner.relinkAllItems = false) :
    s.Consumed db' ↔ Remembered s.index s.db s.ledger.pending := by
  have hstone : ∀ x, db'.stone? s.index x = none := fun x => by
    rw [stone?_of_build hwt h, if_neg (by simp [hr])]
  have hmem : ∀ x, x ∈ indexed s.index db' ↔ s.db.stone? s.index x = some .updated ∨
      (s.db.stone? s.index x = none ∧ x ∈ indexed s.index s.db) := fun x => by
    rw [show indexed s.index db' = (buildSets s.builder.inner s.index s.db).itemIndices from
      indexed_of_build h, mem_itemIndices hwt hr]
  constructor
  · intro hc x status hx
    have hitems := hc.items x status hx
    rw [hmem] at hitems
    cases hold : s.db.stone? s.index x with
    | none => exact Or.inr ⟨rfl, by simpa [hold] using hitems⟩
    | some t => cases t <;> cases status <;> simp [hold] at hitems ⊢
  · refine fun hrem => ⟨hstone, fun x status hx => ?_⟩
    rw [hmem]
    rcases hrem x status hx with hold | ⟨hold, hindexed⟩
    · simp [hold]
    · simpa [hold] using hindexed

theorem consumed_iff : s.Consumed db' ↔
    (s.builder.inner.relinkAllItems = true → ∀ x, s.db.stone? s.index x = none) ∧
      Remembered s.index s.db s.ledger.pending := by
  cases hr : s.builder.inner.relinkAllItems with
  | true => simp [consumed_relinked_iff hwt h hr]
  | false => simp [consumed_stones_iff hwt h hr]

end

/-- **A build takes in all changes** exactly when no rebuild has failed before it, or there is no
stone, and no failed build has taken the stone of a change that is not in the metadata. -/
theorem build_consumes_iff (D : Distance) (w : Writer) {db : Database}
    (hwt : db.WellTyped w.index) (calls : List Call) {s : Session}
    (hs : s = (start w db).after D calls) {M M0 : Nat} {env : Environment} {db' : Database}
    (h : s.builder.build D M M0 env s.db = .ok () db') : s.Consumed db' ↔
      ((start w db).RebuildFailed D calls → ∀ x, s.db.stone? s.index x = none) ∧
        Remembered s.index s.db s.ledger.pending := by
  subst hs
  rw [consumed_iff (sound_after hwt calls).now.typed h, relinkAllItems_iff]

/-- Item 1 is added after a build, and a cancelled rebuild is undone. -/
def cancelledRebuild : List Call :=
  [.cancel fun _ => false, .abort, .forceRebuild 2 2 .oneLevel, .cancel fun _ => true, .commit,
    .addItem 1 1 [F32.one], .build 2 2 .oneLevel, .addItem 1 0 [F32.zero]]

/-- **After a cancelled rebuild** a build returns, leaves the stone of item 1, and does not index
it. -/
theorem rebuild_sticks : ∃ s db', s = (start ⟨0, 1⟩ ∅).after manhattan cancelledRebuild ∧
    s.builder.build manhattan 2 2 .oneLevel s.db = .ok () db' ∧
    s.ledger.pending 1 = some .updated ∧ db'.stone? 0 1 = some .updated ∧
    indexed 0 db' = {0} ∧ ¬ s.Consumed db' := by
  have h : (committed (((start ⟨0, 1⟩ ∅).after manhattan cancelledRebuild).builder.build manhattan
      2 2 .oneLevel ((start ⟨0, 1⟩ ∅).after manhattan cancelledRebuild).db)).map (fun db' =>
        (((start ⟨0, 1⟩ ∅).after manhattan cancelledRebuild).ledger.pending 1, db'.stone? 0 1,
          indexed 0 db')) = some (some .updated, some .updated, {0}) := by
    decide +kernel
  obtain ⟨db', hdb, h⟩ := Option.map_eq_some_iff.mp h
  obtain ⟨_, hbuild⟩ := committed_eq_some hdb
  simp only [Prod.mk.injEq] at h
  obtain ⟨hpending, hstone, hindexed⟩ := h
  refine ⟨_, db', rfl, hbuild, hpending, hstone, hindexed, fun hc => ?_⟩
  have hgone := hc.stones 1
  rw [index_after, show (start ⟨0, 1⟩ ∅).index = 0 from rfl, hstone] at hgone
  cases hgone

/-- Item 0 is built. -/
def oneBuilt : List (Writer × Op) :=
  [.build 2 2 .oneLevel BuildOption.default, .addItem 0 [F32.zero]].map (⟨0, 1⟩, ·)

/-- Item 1 is added, and a rebuild is cancelled. -/
def failedRebuild : List Call :=
  [.forceRebuild 2 2 .oneLevel, .cancel fun _ => true, .commit, .addItem 1 1 [F32.one]]

/-- The rebuild is undone, and another one returns. -/
def rebuiltAgain : List Call :=
  .forceRebuild 2 2 .oneLevel :: .cancel (fun _ => false) :: .abort :: failedRebuild

/-- The second rebuild has turned the option off: the next build takes in item 1. -/
theorem consumed_rebuiltAgain : ∃ db s db', play manhattan ∅ oneBuilt = some db ∧
    (start ⟨0, 1⟩ db).RebuildFailed manhattan failedRebuild ∧
    s = (start ⟨0, 1⟩ db).after manhattan rebuiltAgain ∧
    s.builder.build manhattan 2 2 .oneLevel s.db = .ok () db' ∧
    s.ledger.pending 1 = some .updated ∧ indexed 0 db' = {0, 1} ∧ s.Consumed db' := by
  have h : ((play manhattan ∅ oneBuilt).bind fun db =>
      (committed (((start ⟨0, 1⟩ db).after manhattan rebuiltAgain).builder.build manhattan 2 2
        .oneLevel ((start ⟨0, 1⟩ db).after manhattan rebuiltAgain).db)).map fun db' =>
          (((start ⟨0, 1⟩ db).after manhattan failedRebuild).builder.inner.relinkAllItems,
            ((start ⟨0, 1⟩ db).after manhattan rebuiltAgain).builder.inner.relinkAllItems,
            ((start ⟨0, 1⟩ db).after manhattan rebuiltAgain).ledger.pending 1,
            indexed 0 db')) = some (true, false, some .updated, {0, 1}) := by
    decide +kernel
  obtain ⟨db, hplay, h⟩ := Option.bind_eq_some_iff.mp h
  obtain ⟨db', hdb, h⟩ := Option.map_eq_some_iff.mp h
  obtain ⟨_, hbuild⟩ := committed_eq_some hdb
  simp only [Prod.mk.injEq] at h
  obtain ⟨hfailed, hreset, hpending, hindexed⟩ := h
  have hwt : db.WellTyped 0 :=
    ((Run.of_play (by decide) hplay).consistent noEntries_empty).typed
  refine ⟨db, _, db', hplay, (relinkAllItems_iff ⟨0, 1⟩ db failedRebuild).mp hfailed, rfl, hbuild,
    hpending, hindexed, (build_consumes_iff manhattan ⟨0, 1⟩ hwt rebuiltAgain rfl hbuild).mpr
      ⟨fun hagain => ?_, remembered_after hwt rfl id⟩⟩
  rw [← relinkAllItems_iff, hreset] at hagain
  cases hagain

end Session

end Hannoy.Index
