import Hannoy.Search.Exact

/-!
# Filtered searches (`reader.rs:327-369`)

Points that do not pass the filter enter the search queue but not the result heap. The loop of
`visit` stops when the nearest queued point is farther than the worst result, also while the heap
has room; what lies behind a queued point that is farther is then never looked at.

* `visit_reaches_iff`: a visit that ends with room in its heap has visited everything it can reach
  exactly if it does not break off.
* `nnsByVec_eq_nearest_iff`: with a beam as wide as the index is large, on a connected layer 0, a
  filtered search returns the nearest candidates exactly if its first visit does not miss one.
* `filtered_iff`: both, for `by_vector` and the linear scan.
* `filtered_search_stops_early`: a candidate behind a farther item is missed.
-/

namespace Hannoy.Search

open Hannoy.Library Hannoy.Library.Beam Hannoy.Library.Txn Hannoy.Index

variable {D : Distance} {query : Item} {r : Reader} {db : Database} {v : Visitor}
  {opt : QueryBuilder} {cancel : CancelFn} {path : RoaringBitmap}

/-! ## One visit -/

/-- When the heap has room at the end, everything that is reached has been visited exactly if no
queued point is left with an unvisited neighbour. -/
theorem Ends.reaches_iff (hs : Searchable r db) {st : State F32 ItemId} {visited : Visited}
    (h : Ends D v query r db cancel (startState D v query r db path) st visited)
    (hnd : v.eps.Nodup) (hroom : st.res.length < v.ef) :
    (∀ e ∈ v.eps, ∀ x, ReachesPast (neighbours r db v.level) (path \ v.eps.toFinset) e x →
        x ∈ st.seen) ↔
      ∀ c ∈ st.queue, ∀ q ∈ neighbours r db v.level (OrderDual.ofDual c.id), q ∈ st.seen := by
  -- whether an entry point was visited before makes no difference
  rw [startState_eq, ← seedAll_sdiff, ← startState_eq] at h
  have hnew : ∀ ep ∈ v.eps, ep ∉ path \ v.eps.toFinset := fun ep hep hmem =>
    (Finset.mem_sdiff.mp hmem).2 (List.mem_toFinset.mpr hep)
  have hfresh : Fresh (fun x => ∃ e ∈ v.eps,
      ReachesPast (neighbours r db v.level) (path \ v.eps.toFinset) e x)
        (path \ v.eps.toFinset) st := by
    refine (Fresh.empty.seedAll fun ep hep => ⟨hnew ep hep, ep, hep, .refl⟩).pass
      (fun p hp hQ q hq => ?_) h.pass
    obtain ⟨e, he, hreach⟩ := hQ
    exact ⟨e, he, hreach.tail ⟨hp, hq⟩⟩
  refine (h.inv hnd hnew).reaches_iff hfresh hroom fun e he => ?_
  rw [← h.path]
  exact (h.finds hs hnd hnew).entry e he

/-- **When a filtered visit is complete**: it ends with room in its heap and has visited everything
that is reached from its entry points, without going on from what was visited before, exactly if it
does not break off. -/
theorem visit_reaches_iff (hs : Searchable r db) {v : Visitor} (hnd : v.eps.Nodup)
    (heps : ∀ ep ∈ v.eps, HasLinks r db v.level ep) {probes : Nat} {visited : Visited}
    (h : v.visit D query r db path cancel probes = .ok visited) {l : List ScoredLink}
    (hdone : visited.completion = .done l) (hfew : l.length < v.ef) :
    (∀ e ∈ v.eps, ∀ x, ReachesPast (neighbours r db v.level) (path \ v.eps.toFinset) e x →
        x ∈ visited.path) ↔
      ∀ st, Pass v.params (score D query r db) (neighbours r db v.level)
        (startState D v query r db path) st →
          ¬ st.BreaksOff v.params (neighbours r db v.level) := by
  obtain ⟨visited', st, hvisit, hends⟩ := visit_ok D query hs heps path cancel probes
  rw [h] at hvisit
  cases hvisit
  have hstop : st.Stopped v.params ∧ l = st.res := by
    rcases hends.completion with ⟨hc, hstop⟩ | ⟨hc, -⟩
    · exact ⟨hstop, Completion.done.inj (hdone.symm.trans hc)⟩
    · rw [hdone] at hc
      cases hc
  have hroom : st.res.length < v.ef := hstop.2 ▸ hfew
  rw [hends.path, hends.reaches_iff hs hnd hroom]
  constructor
  · rintro hclosed st' hpass ⟨hstop', -, c, hc, q, hq, hunseen⟩
    -- the run stops in one state only
    rw [hpass.eq_of_stopped hstop' hends.pass hstop.1] at hc hunseen
    exact hunseen (hclosed c hc q hq)
  · intro hopen c hc q hq
    by_contra hunseen
    exact hopen st hends.pass ⟨hstop.1, hroom, c, hc, q, hq, hunseen⟩

/-! ## The search -/

/-- The visit breaks off with enough results in hand, and a candidate it has not seen comes before
one of them. -/
def Misses (D : Distance) (query : Item) (r : Reader) (db : Database) (v : Visitor) (count : Nat) :
    Prop :=
  ∃ st, Pass v.params (score D query r db) (neighbours r db v.level)
      (startState D v query r db ∅) st ∧
    st.BreaksOff v.params (neighbours r db v.level) ∧ count ≤ st.res.length ∧
    ∃ x ∈ r.items, v.keep x = true ∧ x ∉ st.seen ∧
      ∃ s ∈ st.res.take count, scored D query r db x < s

/-- On a connected layer a visit with a wide beam breaks off before it leaves out an item. -/
theorem Ends.breaksOff (hs : Searchable r db) (hl : Landed r db v) (hef : r.items.card ≤ v.ef)
    (hreach : ∀ e ∈ v.eps, ∀ x ∈ r.items,
      Relation.ReflTransGen (fun a b => b ∈ neighbours r db 0 a) e x)
    {st : State F32 ItemId} {visited : Visited}
    (h : Ends D v query r db cancel (startState D v query r db ∅) st visited)
    (hstop : st.Stopped v.params) {x : ItemId} (hx : x ∈ r.items) (hk : v.keep x = true)
    (hunseen : x ∉ st.seen) : st.BreaksOff v.params (neighbours r db v.level) := by
  have hroom : st.res.length < v.ef := by
    by_contra hfull
    have hmem := h.keeps_seen hs hl.nodup hef hx (fun hroom => absurd hroom hfull) hk
    have := ((h.finds hs hl.nodup fun ep _ => Finset.notMem_empty ep).new _ hmem).2
    rw [h.path] at this
    exact hunseen this
  refine ⟨hstop, hroom, ?_⟩
  by_contra hclosed
  push Not at hclosed
  obtain ⟨e, he⟩ := List.exists_mem_of_ne_nil _ hl.nonempty
  refine hunseen ((h.reaches_iff hs hl.nodup hroom).mpr hclosed e he x ?_)
  refine Relation.ReflTransGen.mono (fun a b hab => ?_) e x (hreach e he x hx)
  rw [hl.level, Finset.empty_sdiff]
  exact ⟨Finset.notMem_empty a, hab⟩

theorem output_injective : Function.Injective Reader.output :=
  List.map_injective_iff.mpr pair_injective

/-- The results of the first visit are the nearest candidates exactly if it misses none. -/
theorem Ends.take_eq_iff (hs : Searchable r db) (hl : Landed r db v) (hef : r.items.card ≤ v.ef)
    (hreach : ∀ e ∈ v.eps, ∀ x ∈ r.items,
      Relation.ReflTransGen (fun a b => b ∈ neighbours r db 0 a) e x)
    {st : State F32 ItemId} {visited : Visited}
    (h : Ends D v query r db cancel (startState D v query r db ∅) st visited)
    (hstop : st.Stopped v.params) {count : Nat} (hcount : count ≤ st.res.length) :
    (Reader.output st.res).take count =
        nearest D query r db (r.items.filter (v.keep · = true)) count ↔
      ¬ Misses D query r db v count := by
  have hfinds := h.finds hs hl.nodup fun ep _ => Finset.notMem_empty ep
  have hmem : ∀ {x}, x ∈ r.items → v.keep x = true →
      (scored D query r db x ∈ st.res ↔ x ∈ st.seen) := fun {x} hx hk =>
    ⟨fun hres => h.path ▸ (hfinds.new _ hres).2,
      fun hseen => h.keeps_seen hs hl.nodup hef hx (fun _ => hseen) hk⟩
  rw [nearest, Reader.output, ← List.map_take]
  change Reader.output _ = Reader.output _ ↔ _
  rw [output_injective.eq_iff, take_eq_smallest_iff hfinds.found.sorted
    ((nodup_ascending _).map scored_injective) (fun s hs' => ?_) hcount]
  · constructor
    · rintro hall ⟨st', hpass, hbreak, -, x, hx, hk, hunseen, s, hs', hlt⟩
      rw [hpass.eq_of_stopped hbreak.1 h.pass hstop] at hunseen hs'
      refine absurd (hall _ (List.mem_map_of_mem (mem_ascending.mpr (Finset.mem_filter.mpr
        ⟨hx, hk⟩))) (fun hres => hunseen ((hmem hx hk).mp hres)) s hs') hlt.not_gt
    · intro hmiss b hb hbres s hs'
      obtain ⟨x, hx, rfl⟩ := List.mem_map.mp hb
      obtain ⟨hx, hk⟩ := Finset.mem_filter.mp (mem_ascending.mp hx)
      have hunseen := fun hseen => hbres ((hmem hx hk).mpr hseen)
      refine lt_of_le_of_ne (le_of_not_gt fun hlt => hmiss ⟨st, h.pass,
        h.breaksOff hs hl hef hreach hstop hx hk hunseen, hcount, x, hx, hk, hunseen, s, hs',
        hlt⟩) fun heq => hbres ?_
      rw [← heq]
      exact List.mem_of_mem_take hs'
  · obtain ⟨heq, hk, hitem⟩ := hfinds.found.sound s hs'
    exact List.mem_map.mpr ⟨s.id, mem_ascending.mpr (Finset.mem_filter.mpr ⟨hitem, hk⟩), heq.symm⟩

/-- A search that restarts finds every candidate when the limit covers the index. -/
theorem Restarted.take_eq {keep : ItemId → Bool} {limit count : Nat}
    {first heap : List ScoredLink}
    (h : Restarted D query r db keep cancel limit (ascending r.items) first (.done heap))
    (hlimit : r.items.card ≤ limit) :
    (Reader.output heap).take count =
      nearest D query r db (r.items.filter (keep · = true)) count := by
  refine h.found.take_eq (fun x hx hk => ?_) count
  rcases (h.done heap rfl).2.1 with hle | hall
  · exact h.found.mem_of_card_le (hlimit.trans hle) hx
  · exact hall x (mem_ascending.mpr hx) hk

variable (D query) in
/-- **The search of layer 0** returns the nearest candidates exactly if its first visit misses
none. -/
theorem searchLayer0_eq_nearest_iff (hs : Searchable r db) (hl : Landed r db v)
    (hreach : ∀ e ∈ v.eps, ∀ x ∈ r.items,
      Relation.ReflTransGen (fun a b => b ∈ neighbours r db 0 a) e x)
    (hef : r.items.card ≤ v.ef) {count limit : Nat} (hcount : count ≤ v.ef)
    (hlimit : r.items.card ≤ limit) {width : Nat → Except Failure Nat}
    (hwidth : ∀ n < max count limit, width n = .ok (limit - n)) :
    ∃ found, r.searchLayer0 D db query v count width limit (fun _ => false) = .ok found ∧
      (found.intoInner = nearest D query r db (r.items.filter (v.keep · = true)) count ↔
        ¬ Misses D query r db v count) := by
  obtain ⟨visited, st, out, hends, hout, -, -, hfollows⟩ :=
    searchLayer0_follows D query hs hl count width limit hcount hwidth fun _ => false
  refine ⟨_, hout, ?_⟩
  rw [Completion.intoInner_map]
  rcases hends.completion with ⟨hdone, hstop⟩ | ⟨-, n, hn⟩
  swap
  · exact absurd hn Bool.false_ne_true
  rcases hfollows.of_done hdone with ⟨hle, rfl⟩ | ⟨hlt, -, hrestarted⟩
  · exact hends.take_eq_iff hs hl hef hreach hstop hle
  · cases out with
    | cancelled heap =>
      obtain ⟨n, hn⟩ := hrestarted.cancelled heap rfl
      exact absurd hn Bool.false_ne_true
    | done heap =>
      refine iff_of_true (hrestarted.take_eq hlimit) ?_
      rintro ⟨st', hpass, hbreak, hle, -⟩
      rw [hpass.eq_of_stopped hbreak.1 hends.pass hstop] at hle
      exact absurd hlt hle.not_gt

theorem nnsByVec_eq_nearest_iff (hs : Searchable r db) {c : RoaringBitmap}
    (hc : opt.candidates = some c) (hscan : r.shouldLinearScan opt = false)
    (hef : r.items.card ≤ opt.ef) (hconn : Connected D query r db) :
    (∃ found, r.nnsByVec D db opt query (fun _ => false) = .ok found ∧
        found.intoInner = nearest D query r db (r.items ∩ c) opt.count) ↔
      ∀ v, r.descend D db query r.maxLevel (topVisitor r) ∅ = .ok v →
        ¬ Misses D query r db (vectorVisitor v opt) opt.count := by
  have hfilter : r.items.filter (optKeep opt · = true) = r.items ∩ c := by
    ext x
    rw [Finset.mem_filter, Finset.mem_inter, optKeep, hc]
    simp
  rcases nnsByVec_cases D opt hs query fun _ => false with
    ⟨hno, heq⟩ | ⟨-, hscan', -⟩ | ⟨-, -, v, hv, hl, heq⟩
  · -- there are no candidates
    have hempty : r.items ∩ c = ∅ := hfilter ▸ filter_eq_empty_of_noCandidates hno
    refine iff_of_true ⟨_, heq, ?_⟩ fun v _ => ?_
    · have hnil : ascending (∅ : RoaringBitmap) = [] := List.length_eq_zero_iff.mp (by simp)
      rw [hempty, nearest, hnil]
      simp [smallest, Reader.output, Completion.intoInner]
    · rintro ⟨st, -, -, -, x, hx, hk, -⟩
      have hmem := hfilter ▸ Finset.mem_filter.mpr ⟨hx, hk⟩
      rw [hempty] at hmem
      exact Finset.notMem_empty x hmem
  · rw [hscan] at hscan'
    cases hscan'
  · have hwidth : ∀ n < max opt.count opt.ef,
        Reader.widthByVector opt n = .ok (opt.ef - n) := fun _ _ => rfl
    obtain ⟨found, hfound, hiff⟩ := searchLayer0_eq_nearest_iff D query hs hl.vectorVisitor
      (hconn v hv)
      (hef.trans (le_max_left _ _)) (le_max_right _ _) hef hwidth
    rw [heq, hfound, ← hfilter]
    constructor
    · rintro ⟨found', hfound', hnear⟩ v' hv'
      cases hfound'
      rw [hv] at hv'
      cases hv'
      exact hiff.mp hnear
    · exact fun hmiss => ⟨found, rfl, hiff.mpr (hmiss v hv)⟩

/-- **When a filtered search is complete.** A visit of layer 0 that ends with fewer than `ef`
results has visited everything reached from where it starts exactly if it does not break off. With
a beam as wide as the index is large, on a connected layer 0, a filtered `by_vector` on the graph
returns what the linear scan of the candidates does exactly if its first visit misses none. -/
theorem filtered_iff (hv : ValidIndex D r db) :
    (∀ (query : Item) (v : Visitor) (path : RoaringBitmap) (cancel : CancelFn) (probes : Nat)
      (visited : Visited) (l : List ScoredLink), v.level = 0 → v.eps.Nodup →
      (∀ e ∈ v.eps, e ∈ r.items) → v.visit D query r db path cancel probes = .ok visited →
      visited.completion = .done l → l.length < v.ef →
      ((∀ e ∈ v.eps, ∀ x, ReachesPast (neighbours r db 0) (path \ v.eps.toFinset) e x →
          x ∈ visited.path) ↔
        ∀ st, Pass v.params (score D query r db) (neighbours r db 0)
          (startState D v query r db path) st → ¬ st.BreaksOff v.params (neighbours r db 0))) ∧
    (∀ (opt : QueryBuilder) (c : RoaringBitmap) (vector : List F32),
      vector.length = r.dimensions → SymmetricTo D (Item.ofVector D vector) r db →
      opt.candidates = some c → r.shouldLinearScan opt = false →
      r.items.card ≤ opt.ef → Connected D (Item.ofVector D vector) r db →
      ((∃ out, r.byVector D db opt vector = .ok out ∧
          r.bruteForceSearch D db (Item.ofVector D vector) c opt.count (fun _ => false) =
            .ok (.done out.nns)) ↔
        ∀ v, r.descend D db (Item.ofVector D vector) r.maxLevel (topVisitor r) ∅ = .ok v →
          ¬ Misses D (Item.ofVector D vector) r db (vectorVisitor v opt) opt.count)) := by
  have hs := hv.toSearchable
  constructor
  · intro query v path cancel probes visited l hlevel hnd heps h hdone hfew
    have hiff := visit_reaches_iff hs hnd (fun ep hep => by
      rw [hlevel]
      exact hasLinks_of_mem_items hs (heps ep hep)) h hdone hfew
    rwa [hlevel] at hiff
  · intro opt c vector hlen hsym hc hscan hef hconn
    rw [← nnsByVec_eq_nearest_iff hs hc hscan hef hconn, bruteForceSearch_inter hv hsym]
    constructor
    · rintro ⟨out, hout, hbrute⟩
      obtain ⟨found, hfound, hnns⟩ := byVector_ok hout
      exact ⟨found, hfound, hnns.symm.trans (Completion.done.inj (Except.ok.inj hbrute)).symm⟩
    · rintro ⟨found, hfound, hnns⟩
      exact ⟨_, byVector_eq hlen hfound, by rw [hnns]⟩

/-! ## A candidate behind a farther item -/

/-- Items 0, 1, 2, 3 at -3, -2, 1, -1; on layer 0 item 3 is reached from item 0 through item 2
only. -/
def farItemBetween : List (Writer × Op) :=
  [.build 2 2 .twoLevels BuildOption.default, .addItem 3 [⟨0xbf800000⟩], .addItem 2 [F32.one],
    .addItem 1 [⟨0xc0000000⟩], .addItem 0 [⟨0xc0400000⟩]].map (⟨0, 1⟩, ·)

/-- The nearest of the items 1 and 3, by the graph. -/
def oneOfTwo : QueryBuilder := ((nns 1).withCandidates {1, 3}).withLinearBelow 0

/-- The search starts at -1, where item 3 lies. -/
def atItem3 : Item := Item.ofVector manhattan [⟨0xbf800000⟩]

/-- The first visit of layer 0 of the search. -/
def firstVisit : Visitor := ⟨[0], 0, 100, some {1, 3}⟩

theorem farItemBetween_found : ∃ db r visited, opened manhattan 0 farItemBetween = some (db, r) ∧
    ValidIndex manhattan r db ∧ r.items = {0, 1, 2, 3} ∧ r.dimensions = 1 ∧
    [0, 1, 2, 3].map (neighbours r db 0) = [[1], [0, 2], [1, 3], [1, 2]] ∧
    r.shouldLinearScan oneOfTwo = false ∧
    (∀ v, r.descend manhattan db atItem3 r.maxLevel (topVisitor r) ∅ = .ok v → v.eps = [0]) ∧
    firstVisit.visit manhattan atItem3 r db ∅ (fun _ => false) 0 = .ok visited ∧
    visited.completion = .done [⟨F32.one, 1⟩] ∧ visited.path = {0, 1, 2} ∧
    r.byVector manhattan db oneOfTwo [⟨0xbf800000⟩] = .ok ⟨[(1, F32.one)], false⟩ ∧
    r.bruteForceSearch manhattan db atItem3 {1, 3} 1 (fun _ => false) =
      .ok (.done [(3, F32.zero)]) := by
  have h : ((opened manhattan 0 farItemBetween).bind fun x =>
      (firstVisit.visit manhattan atItem3 x.2 x.1 ∅ (fun _ => false) 0).toOption.map fun visited =>
        decide (x.2.items = {0, 1, 2, 3} ∧ x.2.dimensions = 1 ∧
          [0, 1, 2, 3].map (neighbours x.2 x.1 0) = [[1], [0, 2], [1, 3], [1, 2]] ∧
          x.2.shouldLinearScan oneOfTwo = false ∧
          (x.2.descend manhattan x.1 atItem3 x.2.maxLevel (topVisitor x.2) ∅).toOption.map
            Visitor.eps = some [0] ∧
          visited.completion = .done [⟨F32.one, 1⟩] ∧ visited.path = {0, 1, 2} ∧
          (x.2.byVector manhattan x.1 oneOfTwo [⟨0xbf800000⟩]).toOption =
            some ⟨[(1, F32.one)], false⟩ ∧
          (x.2.bruteForceSearch manhattan x.1 atItem3 {1, 3} 1 fun _ => false).toOption =
            some (.done [(3, F32.zero)]))) = some true := by
    decide +kernel
  obtain ⟨⟨db, r⟩, hopened, h⟩ := Option.bind_eq_some_iff.mp h
  obtain ⟨visited, hvisit, h⟩ := Option.map_eq_some_iff.mp h
  obtain ⟨hitems, hdim, hlinks, hscan, heps, hdone, hpath, hvector, hbrute⟩ :=
    of_decide_eq_true h
  obtain ⟨-, -, hv⟩ :=
    valid_of_opened (n := 1) (by decide) (by decide) hopened
  refine ⟨db, r, visited, hopened, hv, hitems, hdim, hlinks, hscan, fun v hv => ?_,
    ok_of_toOption hvisit, hdone, hpath, ok_of_toOption hvector, ok_of_toOption hbrute⟩
  rw [hv] at heps
  exact Option.some.inj heps

/-- From item 0 everything is reached. -/
theorem reaches_between {db : Database} {r : Reader}
    (h : [0, 1, 2, 3].map (neighbours r db 0) = [[1], [0, 2], [1, 3], [1, 2]]) {x : ItemId}
    (hx : x ∈ ({0, 1, 2, 3} : RoaringBitmap)) :
    Relation.ReflTransGen (fun a b => b ∈ neighbours r db 0 a) 0 x := by
  simp only [List.map_cons, List.map_nil, List.cons.injEq, and_true] at h
  obtain ⟨h0, h1, h2, -⟩ := h
  have h01 : Relation.ReflTransGen (fun a b => b ∈ neighbours r db 0 a) 0 1 :=
    .single (by rw [h0]; decide)
  have h02 := h01.tail (c := 2) (by rw [h1]; decide)
  have h03 := h02.tail (c := 3) (by rw [h2]; decide)
  simp only [Finset.mem_insert, Finset.mem_singleton] at hx
  rcases hx with rfl | rfl | rfl | rfl
  · exact .refl
  · exact h01
  · exact h02
  · exact h03

/-- The visit from item 0 breaks off, and the search misses item 3. -/
theorem breaks_off_between : ∃ db r, opened manhattan 0 farItemBetween = some (db, r) ∧
    (∃ st, Pass firstVisit.params (score manhattan atItem3 r db) (neighbours r db 0)
      (startState manhattan firstVisit atItem3 r db ∅) st ∧
      st.BreaksOff firstVisit.params (neighbours r db 0)) ∧
    ∃ v, r.descend manhattan db atItem3 r.maxLevel (topVisitor r) ∅ = .ok v ∧
      Misses manhattan atItem3 r db (vectorVisitor v oneOfTwo) 1 := by
  obtain ⟨db, r, visited, hopened, hv, hitems, hdim, hlinks, hscan, heps, hvisit, hdone, hpath,
    hvector, hbrute⟩ := farItemBetween_found
  refine ⟨db, r, hopened, ?_, ?_⟩
  · by_contra hno
    push Not at hno
    have hstored : ∀ e ∈ firstVisit.eps, e ∈ r.items := fun e he => by
      rw [List.mem_singleton.mp he, hitems]
      decide
    have hall := ((filtered_iff hv).1 atItem3 firstVisit ∅ (fun _ => false) 0 visited _ rfl
      (List.nodup_singleton 0) hstored hvisit hdone (by decide)).mpr hno
    have hreach : ReachesPast (neighbours r db 0) (∅ \ [(0 : ItemId)].toFinset) 0 3 :=
      Relation.ReflTransGen.mono (fun a b hab => ⟨by
        rw [Finset.empty_sdiff]
        exact Finset.notMem_empty a, hab⟩) 0 3 (reaches_between hlinks (by decide))
    have hmem := hall 0 (List.mem_singleton_self _) 3 hreach
    rw [hpath] at hmem
    revert hmem
    decide
  · by_contra hno
    push Not at hno
    have hlen : [(⟨0xbf800000⟩ : F32)].length = r.dimensions := hdim.symm
    have hconn : Connected manhattan atItem3 r db := fun v hv' e he x hx => by
      rw [heps v hv', List.mem_singleton] at he
      rw [he]
      exact reaches_between hlinks (hitems ▸ hx)
    obtain ⟨out, hout, hsame⟩ := ((filtered_iff hv).2 oneOfTwo {1, 3} _ hlen
      (Symmetric.to manhattan_symm) rfl hscan (by rw [hitems]; decide) hconn).mpr hno
    rw [hvector] at hout
    cases hout
    have := hbrute.symm.trans hsame
    revert this
    decide

/-- The visit from item 0 has room for 100 results and finds one; item 3 is reached but not visited.
`by_vector` returns item 1, the linear scan item 3. -/
theorem filtered_search_stops_early : ∃ db r visited,
    opened manhattan 0 farItemBetween = some (db, r) ∧ ValidIndex manhattan r db ∧
    (firstVisit.visit manhattan atItem3 r db ∅ (fun _ => false) 0 = .ok visited ∧
      visited.completion = .done [⟨F32.one, 1⟩] ∧
      Relation.ReflTransGen (fun a b => b ∈ neighbours r db 0 a) 0 3 ∧ 3 ∉ visited.path) ∧
    r.items.card ≤ oneOfTwo.ef ∧ Connected manhattan atItem3 r db ∧
    r.byVector manhattan db oneOfTwo [⟨0xbf800000⟩] = .ok ⟨[(1, F32.one)], false⟩ ∧
    r.bruteForceSearch manhattan db atItem3 {1, 3} oneOfTwo.count (fun _ => false) =
      .ok (.done [(3, F32.zero)]) := by
  obtain ⟨db, r, visited, hopened, hv, hitems, -, hlinks, -, heps, hvisit, hdone, hpath, hvector,
    hbrute⟩ := farItemBetween_found
  refine ⟨db, r, visited, hopened, hv, ⟨hvisit, hdone, reaches_between hlinks (by decide), ?_⟩,
    by rw [hitems]; decide, fun v hv' e he x hx => ?_, hvector, hbrute⟩
  · rw [hpath]
    decide
  · rw [heps v hv', List.mem_singleton] at he
    rw [he]
    exact reaches_between hlinks (hitems ▸ hx)

end Hannoy.Search
