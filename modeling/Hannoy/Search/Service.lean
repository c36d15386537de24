import Hannoy.Codec.Distances
import Hannoy.Index.Store
import Hannoy.Model.Reads
import Hannoy.Search.Answers
import Hannoy.Search.Count
import Hannoy.Search.Sound

/-!
# The database as a service

One writer at a time changes the database in a transaction, which it commits or aborts; readers
look at the version that was committed when they began. What any of them is told, by a writer or by
a reader of any index, is what independent stores would tell (`Store.Shows`): the vectors added
last, and for a query distinct stored candidates with their distances, nearest first, as many as
there are when `ef` covers them.

* `Look`: a question with its answer; `Sees`: what the code answers.
* `Represents.shows`: what the entries of an index answer, the store they stand for shows.
* `service_history`: every history of the service is one of the stores.
-/

namespace Hannoy.Search

open Hannoy.Library Hannoy.Library.Txn Hannoy.Index

variable {D : Distance} {i : UInt16} {n : Nat} {db : Database} {s : Store} {r : Reader}

/-! ## Questions -/

/-- A question to a writer or to a reader, with its answer. -/
inductive Look where
  | containsItem (item : ItemId) (out : Bool)
  | itemVector (item : ItemId) (out : Except Failure (Option (List F32)))
  | iter (out : Except Failure (List (ItemId × List F32)))
  | isEmpty (out : Bool)
  | needBuild (out : Bool)
  | itemIds (out : Except Failure RoaringBitmap)
  | assertValidity (out : Except Failure Bool)
  | byVector (opt : QueryBuilder) (vector : List F32) (cancel : CancelFn)
      (out : Except Failure Searched)
  | byItem (opt : QueryBuilder) (item : ItemId) (cancel : CancelFn)
      (out : Except Failure (Option Searched))

/-- What the code answers: the first five are questions to a writer, for the others a reader is
opened. -/
inductive Sees (D : Distance) (w : Writer) (db : Database) : Look → Prop
  | containsItem (x : ItemId) : Sees D w db (.containsItem x (w.containsItem db x))
  | itemVector (x : ItemId) : Sees D w db (.itemVector x (w.itemVector D db x))
  | iter : Sees D w db (.iter (w.iter D db))
  | isEmpty : Sees D w db (.isEmpty (w.isEmpty db))
  | needBuild : Sees D w db (.needBuild (w.needBuild db))
  | itemIds : Sees D w db (.itemIds ((Reader.open D db w.index).map Reader.items))
  | assertValidity {r : Reader} (h : Reader.open D db w.index = .ok r) :
      Sees D w db (.assertValidity (r.assertValidity db))
  | byVector {r : Reader} (h : Reader.open D db w.index = .ok r) (opt : QueryBuilder)
      (vector : List F32) (cancel : CancelFn) : Sees D w db
        (.byVector opt vector cancel (r.byVectorWithCancellation D db opt vector cancel))
  | byItem {r : Reader} (h : Reader.open D db w.index = .ok r) (opt : QueryBuilder)
      (item : ItemId) (cancel : CancelFn) : Sees D w db
        (.byItem opt item cancel (r.byItemWithCancellation D db opt item cancel))

end Hannoy.Search

/-! ## What a store shows -/

namespace Hannoy.Index.Store

open Hannoy.Library Hannoy.Search

/-- The ids of the vectors. -/
def Holds (s : Store) (items : RoaringBitmap) : Prop := ∀ x, x ∈ items ↔ (s.vectors x).isSome

/-- The ids a query may return. -/
def eligible (items : RoaringBitmap) (opt : QueryBuilder) : RoaringBitmap :=
  items ∩ opt.candidates.getD items

/-- An answer to a query: distinct eligible ids with their distances, nearest first, no more than
asked for. -/
structure Answers (D : Distance) (s : Store) (items : RoaringBitmap) (opt : QueryBuilder)
    (query : List F32) (nns : List (ItemId × F32)) : Prop where
  length : nns.length ≤ opt.count
  nodup : (nns.map Prod.fst).Nodup
  eligible : ∀ p ∈ nns, p.1 ∈ eligible items opt
  distance : ∀ p ∈ nns, ∃ v, s.vectors p.1 = some v ∧
    p.2 = D.distance (Item.ofVector D query) (Item.ofVector D v)
  sorted : nns.Pairwise fun a b => a.2 ≤ b.2

/-- What is told of a store with the distance `D` in `n` dimensions, as index `i`. -/
inductive Shows (D : Distance) (i : UInt16) (n : Nat) (s : Store) : Look → Prop
  | containsItem (x : ItemId) : Shows D i n s (.containsItem x (s.vectors x).isSome)
  | itemVector (x : ItemId) :
      Shows D i n s (.itemVector x (.ok ((s.vectors x).map (codecImage D n))))
  | iter {items : RoaringBitmap} (hitems : s.Holds items) :
      Shows D i n s (.iter (.ok ((ascending items).filterMap fun x =>
        (s.vectors x).map fun v => (x, codecImage D n v))))
  | isEmpty {items : RoaringBitmap} (hitems : s.Holds items) :
      Shows D i n s (.isEmpty (items = ∅))
  | needBuild : Shows D i n s (.needBuild (s.pending || !s.built))
  | missing (hb : s.built = false) :
      Shows D i n s (.itemIds (.error (.err (.missingMetadata i))))
  | stale (hb : s.built = true) (hp : s.pending = true) :
      Shows D i n s (.itemIds (.error (.err (.needBuild i))))
  | itemIds {items : RoaringBitmap} (hb : s.built = true) (hp : s.pending = false)
      (hitems : s.Holds items) : Shows D i n s (.itemIds (.ok items))
  | assertValidity (hb : s.built = true) (hp : s.pending = false) :
      Shows D i n s (.assertValidity (.ok true))
  | refused {opt : QueryBuilder} {vector : List F32} {cancel : CancelFn} (hb : s.built = true)
      (hp : s.pending = false) (hlen : vector.length ≠ n) : Shows D i n s (.byVector opt vector
        cancel (.error (.err (.invalidVecDimension n vector.length))))
  | byVector {items : RoaringBitmap} {opt : QueryBuilder} {vector : List F32} {cancel : CancelFn}
      {out : Searched} (hb : s.built = true) (hp : s.pending = false) (hitems : s.Holds items)
      (hlen : vector.length = n) (hans : s.Answers D items opt vector out.nns)
      (hcount : (∀ k, cancel k = false) →
        opt.count ≤ opt.ef ∨ (eligible items opt).card ≤ opt.ef →
          out.nns.length = min opt.count (eligible items opt).card) :
      Shows D i n s (.byVector opt vector cancel (.ok out))
  | byNoItem {items : RoaringBitmap} {opt : QueryBuilder} {item : ItemId} {cancel : CancelFn}
      (hb : s.built = true) (hp : s.pending = false) (hitems : s.Holds items)
      (hno : s.vectors item = none ∨ eligible items opt = ∅) :
      Shows D i n s (.byItem opt item cancel (.ok none))
  | byItem {items : RoaringBitmap} {opt : QueryBuilder} {item : ItemId} {v : List F32}
      {cancel : CancelFn} {out : Searched} (hb : s.built = true) (hp : s.pending = false)
      (hitems : s.Holds items) (hv : s.vectors item = some v)
      (hans : s.Answers D items opt v out.nns) :
      Shows D i n s (.byItem opt item cancel (.ok (some out)))

end Hannoy.Index.Store

/-! ## What the entries answer -/

namespace Hannoy.Index.Represents

open Hannoy.Library Hannoy.Library.Txn Hannoy.Search Hannoy.Graph

variable {D : Distance} {i : UInt16} {n : Nat} {db : Database} {s : Store} {r : Reader}

theorem exists_items (h : Represents D i n s db) : ∃ items : RoaringBitmap, s.Holds items := by
  refine ⟨((db.prefixIter (Prefix.item i)).map fun e => e.1.node.item).toFinset, fun x => ?_⟩
  rw [List.mem_toFinset, List.mem_map]
  constructor
  · rintro ⟨⟨k, v⟩, he, rfl⟩
    obtain ⟨x, it, rfl, -, hit⟩ := (Database.mem_prefixIter_item h.consistent.typed).mp he
    rw [h.item] at hit
    show (s.vectors x).isSome
    simpa using congrArg Option.isSome hit
  · intro hx
    have hit : (db.item? i x).isSome := by rw [h.item, Option.isSome_map, hx]
    obtain ⟨it, hit⟩ := Option.isSome_iff_exists.mp hit
    exact ⟨_, (Database.mem_prefixIter_item h.consistent.typed).mpr ⟨x, it, rfl, rfl, hit⟩, rfl⟩

theorem holds_iff (h : Represents D i n s db) {items : RoaringBitmap} :
    s.Holds items ↔ ∀ x, x ∈ items ↔ (db.item? i x).isSome := by
  simp only [Store.Holds, h.item, Option.isSome_map]

theorem vector (h : Represents D i n s db) (x : ItemId) :
    (db.item? i x).map (Item.toVector D n) = (s.vectors x).map (codecImage D n) := by
  rw [h.item, Option.map_map]
  rfl

theorem iter (h : Represents D i n s db) {items : RoaringBitmap} (hitems : s.Holds items) :
    db.itemIter D i n = .ok ((ascending items).filterMap fun x =>
      (s.vectors x).map fun v => (x, codecImage D n v)) := by
  have hwt := h.consistent.typed
  rw [← map_item_prefixIter hwt (h.holds_iff.mp hitems)]
  have hentries : ∀ e ∈ db.prefixIter (Prefix.item i), ∃ x it,
      e = (Key.item i x, Value.node (.item it)) ∧ db.item? i x = some it := by
    rintro ⟨k, v⟩ he
    obtain ⟨x, it, rfl, rfl, hit⟩ := (Database.mem_prefixIter_item hwt).mp he
    exact ⟨x, it, rfl, hit⟩
  refine (mapM_decodeItemVector hentries).trans ?_
  simp only [h.item, Option.map_map]
  rfl

theorem containsItem (h : Represents D i n s db) (x : ItemId) :
    Writer.containsItem ⟨i, n⟩ db x = (s.vectors x).isSome := by
  rw [← Option.isSome_map (f := Item.ofVector D), ← h.item, Writer.containsItem, Database.item?]
  cases hk : db[Key.item i x]? with
  | none => rfl
  | some v =>
    cases h.consistent.typed _ v hk rfl
    rfl

theorem isEmpty (h : Represents D i n s db) {items : RoaringBitmap} (hitems : s.Holds items) :
    Writer.isEmpty db ⟨i, n⟩ = decide (items = ∅) := by
  have hids := map_item_prefixIter h.consistent.typed (h.holds_iff.mp hitems)
  rw [Writer.isEmpty, Database.itemIterIsNone, Bool.eq_iff_iff, List.isEmpty_iff,
    decide_eq_true_iff, ← List.map_eq_nil_iff (f := fun e : Key × Value => e.1.node.item), hids,
    ← List.length_eq_zero_iff, length_ascending, Finset.card_eq_zero]

theorem needBuild (h : Represents D i n s db) :
    Writer.needBuild ⟨i, n⟩ db = (s.pending || !s.built) := by
  have hmeta : (∃ m, db.metadata? i = some m) ↔ s.built = true := by
    constructor
    · rintro ⟨m, hm⟩
      by_contra hb
      rw [h.notBuilt (by simpa using hb)] at hm
      cases hm
    · intro hb
      obtain ⟨m, hm, -⟩ := h.built hb
      exact ⟨m, hm⟩
  have hfalse := needBuild_eq_false_iff h.consistent.typed (w := ⟨i, n⟩) rfl
  rw [hmeta, ← h.stones] at hfalse
  rw [← Bool.not_inj_iff, Bool.eq_iff_iff, Bool.not_eq_true', hfalse]
  simp

/-- A reader that opens finds what the store holds. -/
theorem opened (h : Represents D i n s db) (hopen : Reader.open D db i = .ok r) :
    s.built = true ∧ s.pending = false ∧ s.Holds r.items ∧ r.index = i ∧ r.dimensions = n ∧
      ValidIndex D r db := by
  obtain ⟨m, version, hm, -, -, hnil, rfl⟩ := (open_ok_iff h.consistent.typed).mp hopen
  have hs := searchable_of_validGraph h.consistent.typed
    (validGraph_of_consistent h.consistent (stone?_of_prefixIter_nil hnil) hm)
    (version.getD ⟨0, 0, 0⟩)
  have hdim := h.encodes.dimensions hm
  refine ⟨?_, h.stones.mpr hnil, h.holds_iff.mpr hs.items, rfl, hdim, hs, fun hit => ?_⟩
  · by_contra hb
    rw [h.notBuilt (by simpa using hb)] at hm
    cases hm
  · obtain ⟨v, hv, rfl⟩ := h.encodes.vectors hit
    exact ⟨v, hv.trans hdim.symm, rfl⟩

/-- What `open` answers. -/
theorem itemIds (h : Represents D i n s db) :
    s.Shows D i n (.itemIds ((Reader.open D db i).map Reader.items)) := by
  cases hopen : Reader.open D db i with
  | ok r =>
    obtain ⟨hb, hp, hitems, -⟩ := h.opened hopen
    exact .itemIds hb hp hitems
  | error e =>
    have hwt := h.consistent.typed
    obtain ⟨version, hv⟩ := getVersion_ok hwt
    unfold Reader.open at hopen
    rw [getMetadata_ok hwt, hv] at hopen
    by_cases hb : s.built = true
    · obtain ⟨m, hm, hname, -⟩ := h.built hb
      rw [hm] at hopen
      simp only [bind, Except.bind, hname, ne_eq, not_true_eq_false, if_false] at hopen
      by_cases hnil : db.prefixIter (Prefix.updated i) = []
      · simp [hnil, pure, Except.pure] at hopen
      · rw [if_pos (by simpa using hnil)] at hopen
        cases hopen
        have hp : s.pending = true := by simpa [hnil] using h.stones.not
        exact .stale hb hp
    · have hb : s.built = false := by simpa using hb
      rw [h.notBuilt hb] at hopen
      cases hopen
      exact .missing hb

/-- **The assertions of `assert_validity` hold** on a searchable index. -/
theorem assertValidity_ok (hs : Searchable r db) : r.assertValidity db = .ok true := by
  have hmem : ∀ {k v}, (k, v) ∈ db.prefixIter (Prefix.links r.index) ↔ ∃ x l links,
      k = Key.links r.index x l ∧ v = .node (.links links) ∧ db.links? r.index x l = some links :=
    Database.mem_prefixIter_links hs.typed
  have hids : ((db.prefixIter (Prefix.item r.index)).map fun e => e.1.node.item).toFinset =
      r.items := by
    ext x
    rw [hs.storedIds, List.mem_toFinset, mem_ascending]
  -- every entry under the prefix is a links node
  have hlinks : (db.prefixIter (Prefix.links r.index)).mapM Reader.linksOfEntry =
      .ok ((db.prefixIter (Prefix.links r.index)).map fun e =>
        (e.1.node.item, (db.links? r.index e.1.node.item e.1.node.layer).getD ∅)) := by
    refine mapM_eq_ok fun ⟨k, v⟩ he => ?_
    obtain ⟨x, l, links, rfl, rfl, h⟩ := hmem.mp he
    simp only [Reader.linksOfEntry, Key.links, h, Option.getD_some]
  have howners : (((db.prefixIter (Prefix.links r.index)).map fun e =>
      (e.1.node.item, (db.links? r.index e.1.node.item e.1.node.layer).getD ∅)).map
        Prod.fst).toFinset = r.items := by
    ext x
    rw [List.map_map, List.mem_toFinset, List.mem_map]
    constructor
    · rintro ⟨⟨k, v⟩, he, rfl⟩
      obtain ⟨x, l, links, rfl, rfl, h⟩ := hmem.mp he
      exact hs.owner h
    · intro hx
      obtain ⟨links, h⟩ := hs.base x hx
      exact ⟨_, hmem.mpr ⟨x, 0, links, rfl, rfl, h⟩, rfl⟩
  unfold Reader.assertValidity
  simp only [bind, Except.bind, pure, Except.pure, hids, hlinks, howners]
  congr 1
  simp only [Bool.and_eq_true, decide_eq_true_eq, List.all_eq_true, List.mem_map]
  refine ⟨⟨⟨trivial, ?_⟩, trivial⟩, fun ep hep => (hs.entry ep hep).1⟩
  rintro _ ⟨⟨k, v⟩, he, rfl⟩ y hy
  obtain ⟨x, l, links, rfl, rfl, h⟩ := hmem.mp he
  simp only [Key.links, h, Option.getD_some] at hy
  obtain ⟨links', h'⟩ := hs.closed h hy
  exact hs.owner h'

/-- An answer of a search is one to the store. -/
theorem answers (h : Represents D i n s db) (hindex : r.index = i) {opt : QueryBuilder}
    {query : List F32} {nns : List (ItemId × F32)}
    (hsound : Sound D (Item.ofVector D query) r db opt nns) :
    s.Answers D r.items opt query nns where
  length := hsound.length
  nodup := hsound.nodup
  eligible p hp := by
    refine Finset.mem_inter.mpr ⟨hsound.items p hp, ?_⟩
    cases hc : opt.candidates with
    | none => exact hsound.items p hp
    | some c => exact hsound.candidates c hc p hp
  distance p hp := by
    obtain ⟨it, hit, hd⟩ := hsound.distance p hp
    rw [hindex, h.item] at hit
    obtain ⟨v, hv, rfl⟩ := Option.map_eq_some_iff.mp hit
    exact ⟨v, hv, hd⟩
  sorted := hsound.sorted

variable {t : Target}

/-- What a query by vector answers. -/
theorem byVector (h : Represents D i n s db) (hD : D ∈ distances t)
    (hopen : Reader.open D db i = .ok r) (opt : QueryBuilder) (vector : List F32)
    (cancel : CancelFn) : s.Shows D i n
      (.byVector opt vector cancel (r.byVectorWithCancellation D db opt vector cancel)) := by
  obtain ⟨hb, hp, hitems, hindex, hdim, hv⟩ := h.opened hopen
  by_cases hlen : vector.length = n
  · obtain ⟨out, hout⟩ := byVectorWithCancellation_returns hv.toSearchable opt
      (hlen.trans hdim.symm) cancel
    rw [hout]
    obtain ⟨found, hfound, hnns⟩ := byVectorWithCancellation_ok hout
    have hsym : SymmetricTo D (Item.ofVector D vector) r db := fun x it hit => by
      obtain ⟨u, hu, rfl⟩ := hv.vectors hit
      exact distance_symm hD (length_ofVector hD (hlen.trans (hu.trans hdim).symm))
    refine .byVector hb hp hitems hlen ?_ fun hno hcov => ?_
    · rw [hnns]
      exact h.answers hindex (nnsByVec_sound_to hv hsym hfound)
    · obtain rfl : cancel = fun _ => false := funext hno
      have hlaw : CountLaw D r db opt vector :=
        count_law hv.toSearchable (Or.inr hcov) (hlen.trans hdim.symm)
      obtain ⟨out', hout', hcount⟩ := hlaw
      obtain ⟨found', hfound', hnns'⟩ := byVector_ok hout'
      rw [hfound] at hfound'
      cases hfound'
      rw [hnns, ← hnns']
      exact hcount
  · have hrefused : r.byVectorWithCancellation D db opt vector cancel =
        .error (.err (.invalidVecDimension n vector.length)) := by
      unfold Reader.byVectorWithCancellation Reader.queryItem
      rw [hdim, if_pos hlen]
      rfl
    rw [hrefused]
    exact .refused hb hp hlen

/-- What a query by item answers. -/
theorem byItem (h : Represents D i n s db) (hD : D ∈ distances t)
    (hopen : Reader.open D db i = .ok r) (opt : QueryBuilder) (item : ItemId)
    (cancel : CancelFn) : s.Shows D i n
      (.byItem opt item cancel (r.byItemWithCancellation D db opt item cancel)) := by
  obtain ⟨hb, hp, hitems, hindex, hdim, hv⟩ := h.opened hopen
  obtain ⟨out, hout, hsome⟩ := byItemWithCancellation_returns hv.toSearchable opt item cancel
  rw [hout]
  cases out with
  | none =>
    refine .byNoItem hb hp hitems ?_
    by_cases hitem : item ∈ r.items
    · have hno : r.noCandidates opt = true := by simpa [hitem] using hsome
      exact Or.inr (eligible_eq.symm.trans (filter_eq_empty_of_noCandidates hno))
    · exact Or.inl (by simpa using (hitems item).not.mp hitem)
  | some out =>
    obtain ⟨found, hfound, hnns⟩ := byItemWithCancellation_ok hout
    have hsym : ∀ it, db.item? r.index item = some it → SymmetricTo D it r db := by
      intro it hit x it' hit'
      obtain ⟨u, hu, rfl⟩ := hv.vectors hit
      obtain ⟨u', hu', rfl⟩ := hv.vectors hit'
      exact distance_symm hD (length_ofVector hD (hu.trans hu'.symm))
    obtain ⟨it, hit, hsound⟩ := nnsByItem_sound_to hv hsym hfound
    rw [hindex, h.item] at hit
    obtain ⟨v, hvec, rfl⟩ := Option.map_eq_some_iff.mp hit
    refine .byItem hb hp hitems hvec ?_
    rw [hnns]
    exact h.answers hindex hsound

/-- **What the entries of an index answer, its store shows.** -/
theorem shows (h : Represents D i n s db) (hD : D ∈ distances t) {q : Look}
    (hq : Sees D ⟨i, n⟩ db q) : s.Shows D i n q := by
  have hwt := h.consistent.typed
  obtain ⟨items, hitems⟩ := h.exists_items
  cases hq with
  | containsItem x =>
    rw [h.containsItem]
    exact .containsItem x
  | itemVector x =>
    rw [Writer.itemVector, getItem_ok hwt]
    show s.Shows D i n (.itemVector x (.ok ((db.item? i x).map (Item.toVector D n))))
    rw [h.vector]
    exact .itemVector x
  | iter =>
    rw [Writer.iter, h.iter hitems]
    exact .iter hitems
  | isEmpty =>
    rw [h.isEmpty hitems]
    exact .isEmpty hitems
  | needBuild =>
    rw [h.needBuild]
    exact .needBuild
  | itemIds => exact h.itemIds
  | assertValidity hopen =>
    obtain ⟨hb, hp, -, -, -, hv⟩ := h.opened hopen
    rw [assertValidity_ok hv.toSearchable]
    exact .assertValidity hb hp
  | byVector hopen opt vector cancel => exact h.byVector hD hopen opt vector cancel
  | byItem hopen opt item cancel => exact h.byItem hD hopen opt item cancel

end Hannoy.Index.Represents

/-! ## Histories -/

namespace Hannoy.Search

open Hannoy.Library Hannoy.Library.Txn Hannoy.Index

variable {dist : UInt16 → Distance} {dims : UInt16 → Nat} {K : Type} [DecidableEq K]

variable (K dist dims) in
/-- The database with its writers and readers; a question names its index. -/
def databaseService : System (Versions Database K)
    (Versioned (UInt16 × Command) (UInt16 × Look) K) :=
  (service dist dims).versioned K fun db q => Sees (dist q.1) ⟨q.1, dims q.1⟩ db q.2

variable (K dist dims) in
/-- A store for each index, with writers and readers. -/
def storesService : System (Versions (UInt16 → Store) K)
    (Versioned (UInt16 × Command) (UInt16 × Look) K) :=
  (System.pi fun i => Store.system (dims i)).versioned K fun t q =>
    (t q.1).Shows (dist q.1) q.1 (dims q.1) q.2

/-- **Every history of the database is one of the stores**, with the distances of the crate. -/
theorem service_history (hdist : ∀ i, ∃ t, dist i ∈ distances t)
    {tr : List (Versioned (UInt16 × Command) (UInt16 × Look) K)} {v : Versions Database K}
    (h : (databaseService dist dims K).Exec tr v) :
    ∃ stores, (storesService dist dims K).Exec tr stores ∧
      ∀ i, Represents (dist i) i (dims i) (stores.current i) v.current ∧
        Represents (dist i) i (dims i) (stores.saved i) v.saved := by
  have hsim : Simulates _ (databaseService dist dims K) (storesService dist dims K) :=
    (service_simulated dist dims).versioned fun {db t q} hR hq => by
      obtain ⟨target, hD⟩ := hdist q.1
      exact (hR q.1).shows hD hq
  obtain ⟨stores, hexec, hrel⟩ := hsim.exec h
  exact ⟨stores, hexec, fun i => ⟨hrel.current i, hrel.saved i⟩⟩

/-- An item is added, built and committed; a reader begins; the item is deleted, and the reader
still lists it. -/
def stillListed : List (Versioned (UInt16 × Command) (UInt16 × Look) Unit) :=
  [.read () (0, .itemIds (.ok {0})), .write (0, .delItem 0 true), .attach (), .commit,
    .write (0, .build), .write (0, .addItem 0 [F32.zero])]

theorem service_history_stillListed : ∃ v stores,
    (databaseService (fun _ => plainManhattan) (fun _ => 1) Unit).Exec stillListed v ∧
      (storesService (fun _ => plainManhattan) (fun _ => 1) Unit).Exec stillListed stores := by
  have h : ((committed (Writer.addItem plainManhattan ⟨0, 1⟩ 0 [F32.zero] ∅)).bind fun db₁ =>
      (committed (Writer.build plainManhattan ⟨0, 1⟩ 2 2 .oneLevel
        BuildOption.default db₁)).map fun db₂ =>
          ((Reader.open plainManhattan db₂ 0).toOption.map Reader.items,
            db₂[Key.item 0 0]?.isSome)) = some (some {0}, true) := by decide +kernel
  obtain ⟨db₁, h₁, h⟩ := Option.bind_eq_some_iff.mp h
  obtain ⟨db₂, h₂, h⟩ := Option.map_eq_some_iff.mp h
  obtain ⟨_, hadd⟩ := committed_eq_some h₁
  obtain ⟨_, hbuild⟩ := committed_eq_some h₂
  obtain ⟨hopen, hitem⟩ := Prod.mk.inj h
  obtain ⟨r, hr, hitems⟩ := Option.map_eq_some_iff.mp hopen
  have hsees : Sees plainManhattan ⟨0, 1⟩ db₂ (.itemIds (.ok {0})) := by
    have hids : Sees plainManhattan ⟨0, 1⟩ db₂
        (.itemIds ((Reader.open plainManhattan db₂ 0).map Reader.items)) := .itemIds
    rwa [ok_of_toOption hr, Except.map, hitems] at hids
  obtain ⟨db₃, hdel⟩ : ∃ db₃, Writer.delItem ⟨0, 1⟩ 0 db₂ = .ok true db₃ :=
    ⟨_, (delItem_eq 0).trans (if_pos hitem)⟩
  -- the calls as steps of the service
  have hadds : (service (fun _ => plainManhattan) fun _ => 1).step ∅
    (0, .addItem 0 [F32.zero]) db₁ := Command.Runs.addItem hadd
  have hbuilds : (service (fun _ => plainManhattan) fun _ => 1).step db₁ (0, .build) db₂ :=
    Command.Runs.build rfl hbuild
  have hdels : (service (fun _ => plainManhattan) fun _ => 1).step db₂
    (0, .delItem 0 true) db₃ := Command.Runs.delItem hdel
  have hstart : (databaseService (fun _ => plainManhattan) (fun _ => 1) Unit).Exec []
      ⟨∅, ∅, fun _ => none⟩ := .start ⟨rfl, rfl, fun _ => rfl⟩
  have hbuilt := ((hstart.step (.write hadds)).step (.write hbuilds)).step .commit
  have hdeleted : (databaseService (fun _ => plainManhattan) (fun _ => 1) Unit).Exec _
      ⟨db₂, db₃, Function.update (fun _ => none) () (some db₂)⟩ :=
    (hbuilt.step (.attach ())).step (.write hdels)
  have hheld : Function.update (fun _ : Unit => none) () (some db₂) () = some db₂ := by simp
  have hexec := hdeleted.step (.read (k := ()) (q := (0, .itemIds (.ok {0}))) hheld hsees)
  obtain ⟨stores, hstores, -⟩ := service_history (fun _ => ⟨.plain, plainManhattan_mem⟩) hexec
  exact ⟨_, stores, hexec, hstores⟩

end Hannoy.Search
