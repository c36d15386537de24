import Hannoy.Graph.Insert
import Hannoy.Index.Run
import Hannoy.Library.Offers
import Hannoy.Search.Exact

/-!
# What a beam search keeps (`reader.rs:327-369`, `hnsw.rs:460-518`)

`visit` and `walk_layer` read `f_max` once for each popped candidate, before its neighbours are
looked at. A heap that is not full then may be full, and hold farther points, when a later neighbour
comes: the neighbour is refused although it is nearer than a result.

* `visit_explored`, `walkLayer_explored`: the two functions as searches of `Library.Offers`;
  `walkLayer_explored_of_run` is the second one in a run of inserts.
* `keeps_nearest_iff`: they keep the nearest of the points they scored, all along, exactly when no
  such neighbour comes.
* `nearer_point_refused`: a search among three items that loses the second nearest.
-/

namespace Hannoy.Search

open Hannoy.Library Hannoy.Library.Beam Hannoy.Library.Server Hannoy.Library.Txn Hannoy.Index

variable {D : Distance} {query : Item} {r : Reader} {db : Database} {v : Visitor}
  {lmdb : FrozenReader} {M0 : Nat}

/-- A search that leaves the results `res` and has seen `seen` goes through these moments. -/
structure Explored (P : Beam.Params F32 ItemId) (dist : ItemId → F32) (known : ItemId → Prop)
    (answers : ItemId → List ItemId → Prop) (start : Beam.State F32 ItemId) (res : List ScoredLink)
    (seen : Finset ItemId) (ms : List (Moment F32 ItemId)) : Prop where
  trail : Trail P dist known answers start ms
  ended : ∃ b st, ms.head? = some ⟨b, [], st⟩ ∧ st.res = res ∧ st.seen = seen

/-! ## `visit` -/

/-- The stored items. -/
def Stored (r : Reader) (db : Database) (p : ItemId) : Prop := (db.item? r.index p).isSome

/-- A node answers with its links. -/
def Answers (r : Reader) (db : Database) (level : Nat) (p : ItemId) (l : List ItemId) : Prop :=
  l = neighbours r db level p

theorem visitSeed_eq {st st' : State F32 ItemId} {ep : ItemId}
    (h : v.visitSeed D query r db st ep = .ok st') :
    st' = st.seed v.params ⟨score D query r db ep, ep⟩ := by
  obtain ⟨it, hit, h⟩ := ok_bind_iff.mp h
  cases it with
  | none => cases h
  | some it =>
    cases h
    rw [score, Database.item?_of_getItem hit]

theorem visitPoint_advance {b : F32} {st st' : State F32 ItemId} {p : ItemId}
    (h : v.visitPoint D query r db b st p = .ok st') (todo : List ItemId) :
    Advance v.params (score D query r db) (Stored r db) (Answers r db v.level)
      ⟨b, p :: todo, st⟩ ⟨b, todo, st'⟩ := by
  rcases visitPoint_cases h with ⟨hseen, rfl⟩ | ⟨hseen, it, hstored, rfl⟩
  · have hsame : st'.offer v.params (score D query r db) b p = st' := if_pos hseen
    have hoffer : Advance v.params (score D query r db) (Stored r db) (Answers r db v.level)
        ⟨b, p :: todo, st'⟩ ⟨b, todo, st'.offer v.params (score D query r db) b p⟩ :=
      .offer (Or.inl hseen)
    rwa [hsame] at hoffer
  · have hoffer : st.offer v.params (score D query r db) b p =
        (st.see p).accept v.params b ⟨D.distance query it, p⟩ := by
      rw [State.offer, if_neg hseen, score, hstored]
    rw [← hoffer]
    exact .offer (Or.inr (by rw [Stored, hstored]; rfl))

theorem visitLoop_trail {cancel : CancelFn} {start : State F32 ItemId} {visited : Visited} :
    ∀ {fuel probes : Nat} {b : F32} {st : State F32 ItemId} {ms : List (Moment F32 ItemId)},
      v.visitLoop D query r db cancel fuel probes st = .ok visited →
      Trail v.params (score D query r db) (Stored r db) (Answers r db v.level) start
        (⟨b, [], st⟩ :: ms) →
      ∃ b st ms, Trail v.params (score D query r db) (Stored r db) (Answers r db v.level) start
          (⟨b, [], st⟩ :: ms) ∧
        st.res = visited.completion.intoInner ∧ st.seen = visited.path ∧
        ∀ heap, visited.completion = .done heap → st.Stopped v.params
  | 0, _, _, _, _, h, _ => by cases h
  | fuel + 1, probes, b, st, ms, h, htrail => by
    rcases visitLoop_cases h with ⟨hq, rfl⟩ | ⟨-, -, rfl⟩ | ⟨-, -, hstop, rfl⟩ |
      ⟨-, -, hopen, st', ⟨c, rest, links, hq, hlinks, hround⟩, h⟩
    · refine ⟨b, st, ms, htrail, rfl, rfl, fun _ _ c hc => ?_⟩
      rw [hq] at hc
      cases hc
    · exact ⟨b, st, ms, htrail, rfl, rfl, fun _ h => by cases h⟩
    · exact ⟨b, st, ms, htrail, rfl, rfl, fun _ _ => hstop⟩
    · have hanswers : Answers r db v.level (OrderDual.ofDual c.id) (ascending links) := by
        rw [Answers, neighbours, Database.links?_of_getLinks hlinks]
      obtain ⟨ms', htrail'⟩ := Trail.offers (fun _ _ _ h todo => visitPoint_advance h todo)
        hround (htrail.step (.round hq hopen hanswers))
      exact visitLoop_trail h htrail'

/-! ## `walk_layer` -/

/-- The distance of an item of the snapshot to the query. -/
def walkScore (D : Distance) (query : Item) (lmdb : FrozenReader) (p : ItemId) : F32 :=
  match lmdb.db.item? lmdb.index p with
  | some it => D.distance query it
  | none => F32.zero

/-- While other inserts add links, a node may answer with anything. -/
def AnswersAnything (_ : ItemId) (_ : List ItemId) : Prop := True

theorem walkSeed_eq {ef : Nat} {st st' : Walk} {ep : ItemId}
    (h : HnswBuilder.walkSeed D lmdb query ef st ep = .ok st') :
    st' = st.seed (HnswBuilder.walkParams ef) ⟨walkScore D query lmdb ep, ep⟩ := by
  obtain ⟨it, hit, rfl⟩ := Graph.walkSeed_seeds h
  rw [walkScore, Graph.item_ok_iff.mp hit]

theorem walkPoint_advance {ef : Nat} {b : F32} {st st' : Walk} {p : ItemId}
    (h : HnswBuilder.walkPoint D lmdb query ef b st p = .ok st') (todo : List ItemId) :
    Advance (HnswBuilder.walkParams ef) (walkScore D query lmdb) (Graph.Live lmdb)
      AnswersAnything ⟨b, p :: todo, st⟩ ⟨b, todo, st'⟩ := by
  rcases Graph.walkPoint_cases h with ⟨hseen, rfl⟩ | ⟨hseen, it, hit, rfl⟩ | ⟨hdead, rfl⟩
  · have hsame : st'.offer (HnswBuilder.walkParams ef) (walkScore D query lmdb) b p = st' :=
      if_pos hseen
    have hoffer : Advance (HnswBuilder.walkParams ef) (walkScore D query lmdb) (Graph.Live lmdb)
        AnswersAnything ⟨b, p :: todo, st'⟩
        ⟨b, todo, st'.offer (HnswBuilder.walkParams ef) (walkScore D query lmdb) b p⟩ :=
      .offer (Or.inl hseen)
    rwa [hsame] at hoffer
  · have hoffer : st.offer (HnswBuilder.walkParams ef) (walkScore D query lmdb) b p =
        (st.see p).accept (HnswBuilder.walkParams ef) b ⟨D.distance query it, p⟩ := by
      rw [State.offer, if_neg hseen, walkScore, Graph.item_ok_iff.mp hit]
    rw [← hoffer]
    exact .offer (Or.inr (Graph.live_of_item hit))
  · exact .skip hdead

theorem walkLoop_trail {level ef : Nat} {start : Walk} {res : List ScoredLink} :
    ∀ {fuel : Nat} {b : F32} {st : Walk} {ms : List (Moment F32 ItemId)},
      (HnswBuilder.walkLoop D M0 lmdb query level ef fuel st).Returns res →
      Trail (HnswBuilder.walkParams ef) (walkScore D query lmdb) (Graph.Live lmdb) AnswersAnything
        start (⟨b, [], st⟩ :: ms) →
      ∃ seen trail, Explored (HnswBuilder.walkParams ef) (walkScore D query lmdb)
        (Graph.Live lmdb) AnswersAnything start res seen trail
  | 0, _, _, _, h, _ => by cases h
  | fuel + 1, b, st, ms, h, htrail => by
    unfold HnswBuilder.walkLoop at h
    cases hq : st.queue with
    | nil =>
      rw [hq] at h
      cases h
      exact ⟨_, _, htrail, b, st, rfl, rfl, rfl⟩
    | cons c rest =>
      rw [hq] at h
      simp only at h
      cases htop : st.res.getLast? with
      | none =>
        rw [htop] at h
        cases h
      | some top =>
        rw [htop] at h
        simp only at h
        have hworst : st.worst (HnswBuilder.walkParams ef) = top.dist := by
          rw [State.worst, htop]
        split_ifs at h with hfar
        · cases h
          exact ⟨_, _, htrail, b, st, rfl, rfl, rfl⟩
        · obtain ⟨proximity, -, h⟩ := Prog.returns_bind_iff.mp h
          obtain ⟨st', hround, h⟩ := Prog.returns_bind_iff.mp h
          have hround := Prog.returns_ofExcept_iff.mp hround
          have hopen : ¬ st.Stopped (HnswBuilder.walkParams ef) := fun hstop => hfar (by
            rw [← hworst]
            exact hstop c (by rw [hq]; rfl))
          have hnext := htrail.step (.round (l := proximity) hq hopen trivial)
          rw [hworst] at hnext
          obtain ⟨ms', htrail'⟩ := Trail.offers (fun _ _ _ h todo => walkPoint_advance h todo)
            hround hnext
          exact walkLoop_trail h htrail'

/-! ## The moments of a search -/

/-- A visit that leaves `visited` goes through the moments `trail`. -/
abbrev VisitExplored (D : Distance) (v : Visitor) (query : Item) (r : Reader) (db : Database)
    (path : RoaringBitmap) (visited : Visited) (trail : List (Moment F32 ItemId)) : Prop :=
  Explored v.params (score D query r db) (Stored r db) (Answers r db v.level)
    (startState D v query r db path) visited.completion.intoInner visited.path trail

/-- A walk of a layer that returns `res` and has seen `seen` goes through the moments `trail`. -/
abbrev WalkExplored (D : Distance) (query : Item) (lmdb : FrozenReader) (ef : Nat)
    (eps : List ItemId) (res : List ScoredLink) (seen : Finset ItemId)
    (trail : List (Moment F32 ItemId)) : Prop :=
  Explored (HnswBuilder.walkParams ef) (walkScore D query lmdb) (Graph.Live lmdb) AnswersAnything
    (State.seedAll (HnswBuilder.walkParams ef) (walkScore D query lmdb) eps ⟨[], [], ∅⟩) res seen
    trail

/-- **The moments of `visit`.** -/
theorem visit_explored {path : RoaringBitmap} {cancel : CancelFn} {probes : Nat}
    {visited : Visited} (h : v.visit D query r db path cancel probes = .ok visited) :
    ∃ b st ms, VisitExplored D v query r db path visited (⟨b, [], st⟩ :: ms) ∧
      st.res = visited.completion.intoInner ∧
      ∀ heap, visited.completion = .done heap → st.Stopped v.params := by
  obtain ⟨start, hstart, h⟩ := ok_bind_iff.mp h
  rw [seedAll_of_foldlM (fun _ _ _ => visitSeed_eq) hstart] at h
  obtain ⟨b, st, ms, htrail, hres, hseen, hstop⟩ := visitLoop_trail h .start
  exact ⟨b, st, ms, ⟨htrail, b, st, rfl, hres, hseen⟩, hres, hstop⟩

/-- **The moments of `walk_layer`**, while other inserts add links. -/
theorem walkLayer_explored {eps : List ItemId} {level ef : Nat} {res : List ScoredLink}
    (h : (HnswBuilder.walkLayer D M0 lmdb query eps level ef).Returns res) :
    ∃ seen trail, WalkExplored D query lmdb ef eps res seen trail := by
  obtain ⟨start, hstart, h⟩ := Prog.returns_bind_iff.mp h
  have hstart := Prog.returns_ofExcept_iff.mp hstart
  rw [seedAll_of_foldlM (fun _ _ _ => walkSeed_eq) hstart] at h
  exact walkLoop_trail h .start

/-- A client of a run that walks a layer goes through such moments, whatever the others do. -/
theorem walkLayer_explored_of_run {M : Nat} {alpha : F32} {eps : List ItemId} {level ef : Nat}
    {c c' : Config (Request M0) (Reply M0) Failure (Layers M0) (List ScoredLink)}
    {tr : List (Event (Request M0) (Layers M0))}
    (hrun : Server.Run (exec D M alpha lmdb) c tr c') {i : Nat} {res : List ScoredLink}
    (hclient : c.clients[i]? = some (HnswBuilder.walkLayer D M0 lmdb query eps level ef))
    (hended : c'.clients[i]? = some (.ret res)) :
    ∃ seen trail, WalkExplored D query lmdb ef eps res seen trail :=
  walkLayer_explored (hrun.returns hclient hended)

/-! ## The nearest points -/

theorem Explored.keepsNearest_iff {P : Beam.Params F32 ItemId} {dist : ItemId → F32}
    {known : ItemId → Prop} {answers : ItemId → List ItemId → Prop} {eps : List ItemId}
    {old seen : Finset ItemId} {start : State F32 ItemId} {res : List ScoredLink}
    {trail : List (Moment F32 ItemId)} (hkeep : ∀ p, P.keep p = true)
    (hs : Seeded P dist old eps start) (h : Explored P dist known answers start res seen trail) :
    ((∀ m ∈ trail, KeepsNearest dist known P.ef eps old m.state.seen m.state.res) ↔
        ∀ m ∈ trail, ¬ m.Refuses P dist known) ∧
      ((∀ m ∈ trail, ¬ m.Refuses P dist known) →
        KeepsNearest dist known P.ef eps old seen res) := by
  obtain ⟨b, st, hhead, rfl, rfl⟩ := h.ended
  obtain ⟨ms, rfl⟩ : ∃ ms, trail = ⟨b, [], st⟩ :: ms := by
    cases trail with
    | nil => cases hhead
    | cons m ms => cases hhead; exact ⟨ms, rfl⟩
  have hlast : ¬ (⟨b, [], st⟩ : Moment F32 ItemId).Refuses P dist known := by
    rintro ⟨p, hp, -⟩
    cases hp
  have hiff : (∀ m ∈ ⟨b, [], st⟩ :: ms,
      KeepsNearest dist known P.ef eps old m.state.seen m.state.res) ↔
        ∀ m ∈ ⟨b, [], st⟩ :: ms, ¬ m.Refuses P dist known := by
    rw [h.trail.keepsNearest_iff hkeep hs.tidy_eps hs.keepsNearest]
    exact ⟨fun hno => List.forall_mem_cons.mpr ⟨hlast, hno⟩,
      fun hno => (List.forall_mem_cons.mp hno).2⟩
  exact ⟨hiff, fun hno => hiff.mpr hno _ List.mem_cons_self⟩

/-- **A beam search keeps the nearest points it scored**, all along, exactly when no neighbour is
refused that is nearer than a result; so it does of `visit`, and so it does of `walk_layer`. -/
theorem keeps_nearest_iff {eps : List ItemId} {ef : Nat} (hnd : eps.Nodup)
    (hlen : eps.length ≤ ef) :
    (∀ (r : Reader) (db : Database) (level : Nat) (path : RoaringBitmap) (cancel : CancelFn)
        (probes : Nat) (visited : Visited),
      Visitor.visit D ⟨eps, level, ef, none⟩ query r db path cancel probes = .ok visited →
      (∃ trail, VisitExplored D ⟨eps, level, ef, none⟩ query r db path visited trail) ∧
      ∀ trail, VisitExplored D ⟨eps, level, ef, none⟩ query r db path visited trail →
        ((∀ m ∈ trail, KeepsNearest (score D query r db) (Stored r db) ef eps path m.state.seen
            m.state.res) ↔ ∀ m ∈ trail, ¬ m.Refuses (Visitor.params ⟨eps, level, ef, none⟩)
              (score D query r db) (Stored r db)) ∧
        ((∀ m ∈ trail, ¬ m.Refuses (Visitor.params ⟨eps, level, ef, none⟩)
            (score D query r db) (Stored r db)) →
          KeepsNearest (score D query r db) (Stored r db) ef eps path visited.path
            visited.completion.intoInner)) ∧
    (∀ (M0 : Nat) (lmdb : FrozenReader) (level : Nat) (res : List ScoredLink),
      (HnswBuilder.walkLayer D M0 lmdb query eps level ef).Returns res →
      (∃ seen trail, WalkExplored D query lmdb ef eps res seen trail) ∧
      ∀ seen trail, WalkExplored D query lmdb ef eps res seen trail →
        ((∀ m ∈ trail, KeepsNearest (walkScore D query lmdb) (Graph.Live lmdb) ef eps ∅
            m.state.seen m.state.res) ↔ ∀ m ∈ trail, ¬ m.Refuses (HnswBuilder.walkParams ef)
              (walkScore D query lmdb) (Graph.Live lmdb)) ∧
        ((∀ m ∈ trail, ¬ m.Refuses (HnswBuilder.walkParams ef) (walkScore D query lmdb)
            (Graph.Live lmdb)) →
          KeepsNearest (walkScore D query lmdb) (Graph.Live lmdb) ef eps ∅ seen res)) := by
  constructor
  · intro r db level path cancel probes visited h
    obtain ⟨b, st, ms, htrail, -⟩ := visit_explored h
    exact ⟨⟨_, htrail⟩, fun trail htrail => htrail.keepsNearest_iff (fun _ => rfl)
      (seeded_seedAll (fun _ => rfl) hnd hlen)⟩
  · intro M0 lmdb level res h
    exact ⟨walkLayer_explored h, fun seen trail htrail => htrail.keepsNearest_iff (fun _ => rfl)
      (seeded_seedAll (fun _ => rfl) hnd hlen)⟩

/-! ## A nearer point is refused -/

/-- Item 2 lies at 0, with item 0 at 2 and item 1 at -1 as its neighbours. -/
def threeOnALine : List (Writer × Op) :=
  [.build 2 2 .oneLevel BuildOption.default, .addItem 2 [F32.zero],
    .addItem 1 [⟨0xbf800000⟩], .addItem 0 [⟨0x40000000⟩]].map (⟨0, 1⟩, ·)

/-- The search from item 2 for two results. -/
def lineSearch (x : Database × Reader) : Option Visited :=
  (Visitor.visit manhattan ⟨[2], 0, 2, none⟩ (Item.ofVector manhattan [F32.zero]) x.2 x.1 ∅
    (fun _ => false) 0).toOption

/-- Item 1 has been looked at and is nearer than the second result. -/
theorem lineSearch_found : ∃ db r visited, opened manhattan 0 threeOnALine = some (db, r) ∧
    Agree manhattan (Item.ofVector manhattan [F32.zero]) r db r.items ∧
    Visitor.visit manhattan ⟨[2], 0, 2, none⟩ (Item.ofVector manhattan [F32.zero]) r db ∅
      (fun _ => false) 0 = .ok visited ∧
    1 ∈ visited.path ∧ Stored r db 1 ∧
    score manhattan (Item.ofVector manhattan [F32.zero]) r db 1 = F32.one ∧
    visited.completion.intoInner = [⟨F32.zero, 2⟩, ⟨⟨0x40000000⟩, 0⟩] := by
  have h : ((opened manhattan 0 threeOnALine).bind fun x => (lineSearch x).map fun visited =>
      (x.2.items, (x.1.item? x.2.index 1).isSome && decide (1 ∈ visited.path), [0, 1, 2].map
        (score manhattan (Item.ofVector manhattan [F32.zero]) x.2 x.1),
        visited.completion.intoInner)) =
      some ({0, 1, 2}, true, [⟨0x40000000⟩, F32.one, F32.zero],
        [⟨F32.zero, 2⟩, ⟨⟨0x40000000⟩, 0⟩]) := by
    decide +kernel
  obtain ⟨⟨db, r⟩, hopened, h⟩ := Option.bind_eq_some_iff.mp h
  obtain ⟨visited, hvisit, h⟩ := Option.map_eq_some_iff.mp h
  simp only [Prod.mk.injEq, List.map_cons, List.map_nil, List.cons.injEq, and_true,
    Bool.and_eq_true, decide_eq_true_eq] at h
  obtain ⟨hitems, ⟨hstored, hseen⟩, ⟨h0, h1, h2⟩, hres⟩ := h
  refine ⟨db, r, visited, hopened, ?_, ok_of_toOption hvisit, hseen, hstored, h1, hres⟩
  intro a ha b hb
  simp only [hitems, Finset.mem_insert, Finset.mem_singleton] at ha hb
  rcases ha with rfl | rfl | rfl <;> rcases hb with rfl | rfl | rfl <;>
    simp only [h0, h1, h2] <;> decide +kernel

theorem not_keepsNearest_line {dist : ItemId → F32} {known : ItemId → Prop}
    {seen : RoaringBitmap} (hseen : 1 ∈ seen) (hknown : known 1) (hdist : dist 1 = F32.one) :
    ¬ KeepsNearest dist known 2 [2] ∅ seen [⟨F32.zero, 2⟩, ⟨⟨0x40000000⟩, 0⟩] := by
  intro hkept
  have hone := hkept 1 (Or.inr ⟨hseen, Finset.notMem_empty _, hknown⟩)
  rw [hdist] at hone
  revert hone
  decide

/-- Some offer of this search refuses a nearer point. -/
theorem refuses_on_line : ∃ db r visited, opened manhattan 0 threeOnALine = some (db, r) ∧
    Visitor.visit manhattan ⟨[2], 0, 2, none⟩ (Item.ofVector manhattan [F32.zero]) r db ∅
      (fun _ => false) 0 = .ok visited ∧
    ∃ trail, VisitExplored manhattan ⟨[2], 0, 2, none⟩ (Item.ofVector manhattan [F32.zero]) r db ∅
        visited trail ∧
      ∃ m ∈ trail, m.Refuses (Visitor.params ⟨[2], 0, 2, none⟩)
        (score manhattan (Item.ofVector manhattan [F32.zero]) r db) (Stored r db) := by
  obtain ⟨db, r, visited, hopened, -, hvisit, hseen, hstored, hdist, hres⟩ := lineSearch_found
  obtain ⟨⟨trail, htrail⟩, hall⟩ :=
    (keeps_nearest_iff (by decide) (by decide)).1 r db 0 ∅ _ 0 visited hvisit
  refine ⟨db, r, visited, hopened, hvisit, trail, htrail, ?_⟩
  by_contra hno
  push Not at hno
  have hkept := (hall trail htrail).2 hno
  rw [hres] at hkept
  exact not_keepsNearest_line hseen hstored hdist hkept

/-- The heap is full with item 0 when item 1 comes, which is nearer; it is refused. -/
theorem nearer_point_refused : ∃ db r visited, opened manhattan 0 threeOnALine = some (db, r) ∧
    Agree manhattan (Item.ofVector manhattan [F32.zero]) r db r.items ∧
    Visitor.visit manhattan ⟨[2], 0, 2, none⟩ (Item.ofVector manhattan [F32.zero]) r db ∅
      (fun _ => false) 0 = .ok visited ∧
    ¬ KeepsNearest (score manhattan (Item.ofVector manhattan [F32.zero]) r db) (Stored r db) 2
      [2] ∅ visited.path visited.completion.intoInner := by
  obtain ⟨db, r, visited, hopened, hagree, hvisit, hseen, hstored, hdist, hres⟩ :=
    lineSearch_found
  refine ⟨db, r, visited, hopened, hagree, hvisit, ?_⟩
  rw [hres]
  exact not_keepsNearest_line hseen hstored hdist

end Hannoy.Search
