import Hannoy.Index.History
import Hannoy.Index.Isolation
import Hannoy.Library.Simulation

/-!
# What an index is for

Whoever uses an index sees a map from ids to vectors, and whether it was built since it was last
changed. `Store` is that and nothing else; `Represents` says that the entries of an index stand for
a store.

* `Represents.runs`: each call of a writer does to the entries what `Store.Runs` does to the store.
* `Represents.elsewhere`: a call on another index leaves what the entries stand for.
* `service_simulated`: so the writers of one database, each with its index, are as good as one store
  for each index.
-/

namespace Hannoy.Index

open Hannoy.Library Hannoy.Library.Txn Hannoy.Writer

variable {D : Distance} {i j : UInt16} {n : Nat} {db db' : Database}

/-! ## Stores -/

/-- The vectors added last, and what is known of the graph. -/
structure Store where
  vectors : ItemId → Option (List F32)
  /-- A graph was built since the store was last cleared. -/
  built : Bool
  /-- Vectors were added or taken away since. -/
  pending : Bool

/-- A call of a writer that returns, with its answer; or an `add_item` that is refused. -/
inductive Command where
  | addItem (item : ItemId) (vector : List F32)
  | refusedItem (item : ItemId) (vector : List F32) (expected received : Nat)
  | delItem (item : ItemId) (existed : Bool)
  | clear
  | build
  | forceRebuild

namespace Store

/-- Nothing was added. -/
def empty : Store := ⟨fun _ => none, false, false⟩

/-- What a call does, in `n` dimensions. An index is rebuilt only when it is up to date. -/
inductive Runs (n : Nat) : Store → Command → Store → Prop
  | addItem {s : Store} {x : ItemId} {v : List F32} (hv : v.length = n) :
      Runs n s (.addItem x v) ⟨Function.update s.vectors x (some v), s.built, true⟩
  | refusedItem {s : Store} {x : ItemId} {v : List F32} (hv : v.length ≠ n) :
      Runs n s (.refusedItem x v n v.length) s
  | delItem {s : Store} {x : ItemId} (hx : (s.vectors x).isSome) :
      Runs n s (.delItem x true) ⟨Function.update s.vectors x none, s.built, true⟩
  | delNothing {s : Store} {x : ItemId} (hx : s.vectors x = none) : Runs n s (.delItem x false) s
  | clear {s : Store} : Runs n s .clear empty
  | build {s : Store} : Runs n s .build ⟨s.vectors, true, false⟩
  | forceRebuild {s : Store} (hb : s.built = true) (hp : s.pending = false) :
      Runs n s .forceRebuild s

/-- A store in `n` dimensions. -/
def system (n : Nat) : System Store Command where
  init s := s = empty
  step := Runs n

end Store

/-! ## Calls of a writer -/

/-- The calls of the code. A build relinks everything only through `force_rebuild`, which is called
when no update is pending. -/
inductive Command.Runs (D : Distance) (w : Writer) : Command → Database → Database → Prop
  | addItem {x : ItemId} {v : List F32} {db db' : Database} (h : w.addItem D x v db = .ok () db') :
      Runs D w (.addItem x v) db db'
  | refusedItem {x : ItemId} {v : List F32} {expected received : Nat} {db db' : Database}
      (h : w.addItem D x v db = .error (.err (.invalidVecDimension expected received)) db') :
      Runs D w (.refusedItem x v expected received) db db'
  | delItem {x : ItemId} {existed : Bool} {db db' : Database}
      (h : w.delItem x db = .ok existed db') : Runs D w (.delItem x existed) db db'
  | clear {db db' : Database} (h : w.clear db = .ok () db') : Runs D w .clear db db'
  | build {M M0 : Nat} {env : Environment} {options : BuildOption} {db db' : Database}
      (hr : options.relinkAllItems = false) (h : w.build D M M0 env options db = .ok () db') :
      Runs D w .build db db'
  | forceRebuild {M M0 : Nat} {env : Environment} {options : BuildOption} {db db' : Database}
      (hs : db.prefixIter (Prefix.updated w.index) = [])
      (h : w.forceRebuild D M M0 env options db = .ok () db') : Runs D w .forceRebuild db db'

/-- One database, with a writer for each index; `dist` and `dims` are what the writer of an index is
opened with. -/
def service (dist : UInt16 → Distance) (dims : UInt16 → Nat) :
    System Database (UInt16 × Command) where
  init db := db = ∅
  step db e db' := e.2.Runs (dist e.1) ⟨e.1, dims e.1⟩ db db'

/-! ## What the entries stand for -/

/-- The entries of index `i` stand for the store `s`. -/
structure Represents (D : Distance) (i : UInt16) (n : Nat) (s : Store) (db : Database) : Prop where
  consistent : Consistent i db
  item : ∀ x, db.item? i x = (s.vectors x).map (Item.ofVector D)
  length : ∀ {x v}, s.vectors x = some v → v.length = n
  built : s.built = true → ∃ m, db.metadata? i = some m ∧ m.distance = D.name ∧
    m.dimensions.toNat = n
  notBuilt : s.built = false → db.metadata? i = none
  pending : s.pending = true ↔ ∃ x, (db.stone? i x).isSome

namespace Represents

variable {s : Store}

theorem of_noEntries (h : NoEntries i db) : Represents D i n Store.empty db where
  consistent := consistent_of_noEntries h
  item x := by simp [Database.item?, h (Key.item i x) rfl, Store.empty]
  length h := by cases h
  built h := by cases h
  notBuilt _ := by simp [Database.metadata?, h (Key.metadata i) rfl]
  pending := by simp [Store.empty, Database.stone?, h (Key.updated i _) rfl]

theorem encodes (h : Represents D i n s db) : Encodes D i n db where
  dimensions hm := by
    by_cases hb : s.built = true
    · obtain ⟨m, hm', -, hdim⟩ := h.built hb
      rw [hm'] at hm
      cases hm
      exact hdim
    · rw [h.notBuilt (by simpa using hb)] at hm
      cases hm
  vectors hit := by
    rw [h.item] at hit
    obtain ⟨v, hv, rfl⟩ := Option.map_eq_some_iff.mp hit
    exact ⟨v, h.length hv, rfl⟩

theorem stones (h : Represents D i n s db) :
    s.pending = false ↔ db.prefixIter (Prefix.updated i) = [] := by
  have hnone : s.pending = false ↔ ∀ x, db.stone? i x = none := by
    rw [← Bool.not_eq_true, h.pending]
    simp
  exact hnone.trans
    ⟨prefixIter_nil_of_stone? h.consistent.typed, fun hs => stone?_of_prefixIter_nil hs⟩

/-- An item and its stone are written. -/
theorem mark {x : ItemId} {v : Option (List F32)} {status : UpdateStatus}
    (h : Represents D i n s db)
    (hmark : Marks i x (v.map (Item.ofVector D)) status db db') (hstatus : v.isSome ↔
      status = .updated) (hv : ∀ u ∈ v, u.length = n) :
    Represents D i n ⟨Function.update s.vectors x v, s.built, true⟩ db' where
  consistent := h.consistent.mark hmark (by simpa using hstatus)
  item y := by
    rw [hmark.item]
    by_cases hy : y = x
    · simp [hy]
    · simp [hy, h.item]
  length {y u} hu := by
    by_cases hy : y = x
    · subst hy
      exact hv u (by simpa using hu)
    · simp only [Function.update_of_ne hy] at hu
      exact h.length hu
  built hb := by
    rw [hmark.metadata]
    exact h.built hb
  notBuilt hb := by
    rw [hmark.metadata]
    exact h.notBuilt hb
  pending := by
    simp only [true_iff]
    exact ⟨x, by rw [hmark.stone, if_pos rfl]; rfl⟩

/-- A build. -/
theorem of_builds {op : Op} (h : Represents D i n s db) (hstep : Step D ⟨i, n⟩ op db db')
    (hop : op.Builds) : Represents D i n ⟨s.vectors, true, false⟩ db' := by
  obtain ⟨hc, hs⟩ := hstep.consistent h.consistent
  refine ⟨hc, fun x => ?_, h.length, fun _ => ?_, (fun hb : true = false => by cases hb), ?_⟩
  · rw [hstep.item?_of_builds h.consistent hop, h.item]
  · obtain ⟨m, hm, hname, hlt, hdim⟩ := hstep.metadata_of_builds h.consistent hop
    exact ⟨m, hm, hname, by rw [hdim]; exact UInt32.toNat_ofNat_of_lt' hlt⟩
  · simp [hs hop]

/-- **Each call does to the entries what it does to the store.** -/
theorem runs {c : Command} (h : Represents D i n s db) (hc : c.Runs D ⟨i, n⟩ db db') :
    ∃ s', Store.Runs n s c s' ∧ Represents D i n s' db' := by
  cases hc with
  | @addItem x v _ _ hadd =>
    obtain ⟨hv, hmark⟩ := addItem_marks hadd
    exact ⟨_, .addItem hv, h.mark (v := some v) hmark (by simp) (by simpa using hv)⟩
  | @refusedItem x v expected received _ _ hadd =>
    by_cases hv : v.length = n
    · rw [Writer.addItem, if_neg (not_not.mpr hv)] at hadd
      cases hadd
    · rw [Writer.addItem, if_pos hv] at hadd
      cases hadd
      exact ⟨s, .refusedItem hv, h⟩
  | @delItem x existed _ _ hdel =>
    obtain ⟨hb, hmark⟩ := delItem_marks h.consistent.typed hdel
    rw [h.item, Option.isSome_map] at hb
    cases existed with
    | true => exact ⟨_, .delItem hb.symm, h.mark (v := none) hmark (by simp) (by simp)⟩
    | false =>
      rw [if_neg Bool.false_ne_true] at hmark
      exact ⟨s, .delNothing (by simpa using hb.symm), hmark ▸ h⟩
  | clear hclear => exact ⟨_, .clear, of_noEntries (clear_noEntries hclear)⟩
  | build hr hbuild => exact ⟨_, .build, h.of_builds (.build hr hbuild) trivial⟩
  | forceRebuild hs hbuild =>
    have hp : s.pending = false := h.stones.mpr hs
    have hb : s.built = true := by
      obtain ⟨m, hm, -⟩ := forceRebuild_ok hbuild
      by_contra hb
      rw [h.notBuilt (by simpa using hb)] at hm
      cases hm
    have h' := h.of_builds (.forceRebuild hs hbuild) trivial
    obtain ⟨vectors, built, pending⟩ := s
    cases hb
    cases hp
    exact ⟨_, .forceRebuild rfl rfl, h'⟩

end Represents

/-! ## The other indexes -/

namespace AgreeOn

theorem item? (h : AgreeOn i db db') (x : ItemId) : db'.item? i x = db.item? i x := by
  rw [Database.item?, Database.item?, h _ rfl]

theorem links? (h : AgreeOn i db db') (x : ItemId) (l : LayerId) :
    db'.links? i x l = db.links? i x l := by
  rw [Database.links?, Database.links?, h _ rfl]

theorem stone? (h : AgreeOn i db db') (x : ItemId) : db'.stone? i x = db.stone? i x := by
  rw [Database.stone?, Database.stone?, h _ rfl]

theorem metadata? (h : AgreeOn i db db') : db'.metadata? i = db.metadata? i := by
  rw [Database.metadata?, Database.metadata?, h _ rfl]

theorem consistent (h : AgreeOn i db db') (hc : Consistent i db) : Consistent i db' := by
  refine hc.same_graph (fun k v hk hi => hc.typed k v ((h k hi).trans hk) hi) h.links? h.metadata?
    fun x => ?_
  rw [h.item?, h.stone?]
  exact hc.stored x

end AgreeOn

theorem SameElsewhere.agreeOn (h : SameElsewhere i db db') (hj : j ≠ i) : AgreeOn j db db' :=
  fun k hk => (h k (hk ▸ hj)).symm

section withoutFaults

variable {w : Writer} {env : Environment} (h : ∀ site, env.fault site = false)
include h

theorem check_eq_pure (site : Site) : RwTxn.check env site = pure () := by
  funext db
  exact RwTxn.check_of_no_fault (h site) db

theorem addItem_of_no_fault (x : ItemId) (v : List F32) :
    Faulty.addItem w env D x v = w.addItem D x v := by
  simp only [Faulty.addItem, Writer.addItem, check_eq_pure h, pure_bind]

theorem delItem_of_no_fault (x : ItemId) : Faulty.delItem w env x = w.delItem x := by
  simp only [Faulty.delItem, Writer.delItem, check_eq_pure h, pure_bind]

theorem deleteLoop_of_no_fault {next del : Nat → Site} : ∀ (keys : List Key) (n : Nat),
    deleteLoop env next del n keys = modify fun db => db.deleteAll keys
  | [], n => by
    rw [deleteLoop, check_eq_pure h]
    rfl
  | k :: keys, n => by
    simp only [deleteLoop, check_eq_pure h, pure_bind,
      deleteLoop_of_no_fault keys]
    rfl

theorem clear_of_no_fault : Faulty.clear w env = w.clear := by
  simp only [Faulty.clear, deleteLoop_of_no_fault h]
  rfl

end withoutFaults

/-- A call writes to the entries of its index only. -/
theorem Command.Runs.elsewhere {w : Writer} {c : Command} (h : c.Runs D w db db') :
    SameElsewhere w.index db db' := by
  have hwrites : ∀ {α : Type} {x : RwTxn α} {res}, InStep w.index x x → x db = res →
      SameElsewhere w.index db (final res) := by
    rintro α x _ hx rfl
    exact (isolated_of_inStep hx).elsewhere db
  have hno : ∀ site, Environment.oneLevel.fault site = false := fun _ => rfl
  cases h with
  | addItem h =>
    refine hwrites ?_ h
    rw [← addItem_of_no_fault hno]
    exact inStep_addItem _ _
  | refusedItem h =>
    refine hwrites ?_ h
    rw [← addItem_of_no_fault hno]
    exact inStep_addItem _ _
  | delItem h =>
    refine hwrites ?_ h
    rw [← delItem_of_no_fault hno]
    exact inStep_delItem _
  | clear h =>
    refine hwrites ?_ h
    rw [← clear_of_no_fault hno]
    exact inStep_clear
  | build hr h => exact hwrites inStep_build h
  | forceRebuild hs h => exact hwrites inStep_forceRebuild h

theorem Represents.agreeOn {s : Store} (h : Represents D i n s db) (ha : AgreeOn i db db') :
    Represents D i n s db' where
  consistent := ha.consistent h.consistent
  item x := by rw [ha.item?, h.item]
  length := h.length
  built hb := by rw [ha.metadata?]; exact h.built hb
  notBuilt hb := by rw [ha.metadata?]; exact h.notBuilt hb
  pending := by simp only [ha.stone?, h.pending]

/-- **A call on another index leaves what the entries stand for.** -/
theorem Represents.elsewhere {s : Store} {w : Writer} {D' : Distance} {c : Command}
    (h : Represents D i n s db) (hi : i ≠ w.index) (hc : c.Runs D' w db db') :
    Represents D i n s db' :=
  h.agreeOn (hc.elsewhere.agreeOn hi)

/-- **Writers that share a database are as good as one store for each index.** -/
theorem service_simulated (dist : UInt16 → Distance) (dims : UInt16 → Nat) :
    Simulates (fun db t => ∀ i, Represents (dist i) i (dims i) (t i) db) (service dist dims)
      (System.pi fun i => Store.system (dims i)) := by
  refine Simulates.pi (R := fun i db t => Represents (dist i) i (dims i) t db) ?_ ?_ ?_
  · rintro i db rfl
    exact ⟨Store.empty, rfl, .of_noEntries noEntries_empty⟩
  · exact fun i db s c db' h hc => h.runs hc
  · exact fun i j db s c db' hj h hc => h.elsewhere hj hc

end Hannoy.Index
