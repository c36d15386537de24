import Hannoy.Search.Visit

/-!
# The search of layer 0

`searchLayer0` makes one visit and, when it finds too little, restarts from every item not visited
yet. The visits share the set of visited points, so no point is found twice.

* `Found`: a heap of distinct stored items that pass the filter, with their distances, in order.
* `Ends.found`: what one visit finds, given what was visited before.
* `restartLoop_ok`: the loop returns; unless it is cancelled it ends with `limit` results or with
  every item that passes the filter.
* `searchLayer0_follows`, `searchLayer0_ok`: the same for the search.
-/

namespace Hannoy.Search

open Hannoy.Library Hannoy.Library.Beam Hannoy.Library.Txn Hannoy.Index

variable {D : Distance} {query : Item} {r : Reader} {db : Database} {v : Visitor}
  {keep : ItemId → Bool} {cancel : CancelFn} {path : RoaringBitmap}

/-! ## What is found -/

/-- The scored link of an item. -/
def scored (D : Distance) (query : Item) (r : Reader) (db : Database) (x : ItemId) : ScoredLink :=
  ⟨score D query r db x, x⟩

/-- Distinct stored items that pass the filter, with their distances, in order. -/
structure Found (D : Distance) (query : Item) (r : Reader) (db : Database) (keep : ItemId → Bool)
    (heap : List ScoredLink) : Prop where
  sorted : heap.Pairwise (· < ·)
  sound : ∀ s ∈ heap, s = scored D query r db s.id ∧ keep s.id = true ∧ s.id ∈ r.items

theorem Found.nodup_ids {heap : List ScoredLink} (h : Found D query r db keep heap) :
    (heap.map Scored.id).Nodup := by
  refine List.Nodup.map_on (fun a ha b hb hab => ?_) (h.sorted.imp ne_of_lt)
  rw [(h.sound a ha).1, (h.sound b hb).1, hab]

theorem Found.ids_subset {heap : List ScoredLink} (h : Found D query r db keep heap) :
    (heap.map Scored.id).toFinset ⊆ r.items.filter (keep · = true) := by
  intro x hx
  obtain ⟨s, hs, rfl⟩ := List.mem_map.mp (List.mem_toFinset.mp hx)
  exact Finset.mem_filter.mpr ⟨(h.sound s hs).2.2, (h.sound s hs).2.1⟩

/-- No more is found than there is. -/
theorem Found.length_le {heap : List ScoredLink} (h : Found D query r db keep heap) :
    heap.length ≤ (r.items.filter (keep · = true)).card := by
  have := Finset.card_le_card h.ids_subset
  rwa [List.toFinset_card_of_nodup h.nodup_ids, List.length_map] at this

/-- Everything is found when the heap holds every item that passes the filter. -/
theorem Found.length_eq {heap : List ScoredLink} (h : Found D query r db keep heap)
    (hall : ∀ x ∈ r.items, keep x = true → scored D query r db x ∈ heap) :
    heap.length = (r.items.filter (keep · = true)).card := by
  refine le_antisymm h.length_le ?_
  have hsub : r.items.filter (keep · = true) ⊆ (heap.map Scored.id).toFinset := by
    intro x hx
    obtain ⟨hx, hk⟩ := Finset.mem_filter.mp hx
    exact List.mem_toFinset.mpr (List.mem_map.mpr ⟨_, hall x hx hk, rfl⟩)
  have := Finset.card_le_card hsub
  rwa [List.toFinset_card_of_nodup h.nodup_ids, List.length_map] at this

/-- A heap as large as the index holds every item. -/
theorem Found.mem_of_card_le {heap : List ScoredLink} (h : Found D query r db keep heap)
    (hle : r.items.card ≤ heap.length) {x : ItemId} (hx : x ∈ r.items) :
    scored D query r db x ∈ heap := by
  have hcard : ((heap.map Scored.id).toFinset).card = heap.length := by
    rw [List.toFinset_card_of_nodup h.nodup_ids, List.length_map]
  have heq := Finset.eq_of_subset_of_card_le
    (h.ids_subset.trans (Finset.filter_subset _ _)) (hcard ▸ hle)
  rw [← heq, List.mem_toFinset] at hx
  obtain ⟨s, hs, rfl⟩ := List.mem_map.mp hx
  rw [← (h.sound s hs).1]
  exact hs

/-- Finds of disjoint points can be put together. -/
theorem Found.pushAll {more heap : List ScoredLink} (hm : Found D query r db keep more)
    (hh : Found D query r db keep heap) (hdisj : ∀ s ∈ more, s ∉ heap) :
    Found D query r db keep (pushAll more heap) := by
  refine ⟨?_, fun s hs => ?_⟩
  · have hnd : (Library.pushAll more heap).Nodup := by
      rw [(perm_pushAll more heap).nodup_iff, List.nodup_append]
      refine ⟨hm.sorted.imp ne_of_lt, hh.sorted.imp ne_of_lt, fun a ha b hb hab => ?_⟩
      exact hdisj a ha (hab ▸ hb)
    exact ((pairwise_pushAll (l := more) (hh.sorted.imp le_of_lt)).and hnd).imp
      fun h => lt_of_le_of_ne h.1 h.2
  · rcases mem_pushAll.mp hs with hs | hs
    · exact hm.sound s hs
    · exact hh.sound s hs

/-- A result is determined by the pair that is returned for it. -/
theorem pair_injective : Function.Injective fun s : ScoredLink => (s.id, s.dist) := by
  rintro ⟨d, x⟩ ⟨d', x'⟩ h
  cases h
  rfl

/-! ## One visit -/

/-- Entry points that are distinct and new keep the invariant of the pass. -/
theorem Ends.inv {st : State F32 ItemId} {visited : Visited}
    (h : Ends D v query r db cancel (startState D v query r db path) st visited)
    (hnd : v.eps.Nodup) (hnew : ∀ ep ∈ v.eps, ep ∉ path) :
    Inv v.params (score D query r db) (neighbours r db v.level) path (fun _ => False) st :=
  (Inv.empty.seedAll hnd hnew).pass h.pass

/-- **What one visit finds**, given what was visited before. -/
structure Finds (D : Distance) (v : Visitor) (query : Item) (r : Reader) (db : Database)
    (path : RoaringBitmap) (res : List ScoredLink) (path' : RoaringBitmap) : Prop where
  found : Found D query r db v.keep res
  new : ∀ s ∈ res, s.id ∉ path ∧ s.id ∈ path'
  grows : path ⊆ path'
  entry : ∀ ep ∈ v.eps, ep ∈ path'
  unfull : res.length < v.ef → ∀ p ∈ path', p ∉ path → v.keep p = true →
    scored D query r db p ∈ res
  width : v.eps.length ≤ v.ef → res.length ≤ v.ef

theorem seen_mono {P : Params F32 ItemId} {dist : ItemId → F32} {nbrs : ItemId → List ItemId}
    {st st' : State F32 ItemId} (h : Pass P dist nbrs st st') : st.seen ⊆ st'.seen := by
  induction h with
  | refl => exact Finset.Subset.refl _
  | head hopen _ ih =>
    refine Finset.Subset.trans ?_ ih
    unfold State.expand
    split
    · exact Finset.Subset.refl _
    · rw [seen_foldl_offer]
      exact Finset.subset_union_left

theorem Ends.finds (hs : Searchable r db) {st : State F32 ItemId} {visited : Visited}
    (h : Ends D v query r db cancel (startState D v query r db path) st visited)
    (hnd : v.eps.Nodup) (hnew : ∀ ep ∈ v.eps, ep ∉ path) :
    Finds D v query r db path st.res visited.path := by
  have hI := h.inv hnd hnew
  rw [h.path]
  refine ⟨⟨hI.res_sorted, fun s hsr => ?_⟩, fun s hsr => ?_, hI.old_seen, fun ep hep => ?_,
    hI.unfull_kept, fun hlen => ?_⟩
  · obtain ⟨hd, hk, -, -⟩ := hI.res_sound s hsr
    refine ⟨?_, hk, (h.within.res s hsr).mem_items hs⟩
    rw [scored, ← hd]
  · exact ⟨(hI.res_sound s hsr).2.2.2, (hI.res_sound s hsr).2.2.1⟩
  · refine seen_mono h.pass ?_
    rw [startState_eq, seen_seedAll]
    exact Finset.mem_union_right _ (List.mem_toFinset.mpr hep)
  · refine length_res_le h.pass ((length_res_seedAll_le v.eps _).trans ?_)
    simpa [Visitor.params] using hlen

/-! ## The restarts -/

/-- Every point of `path` that passes the filter is in the heap. -/
def Complete (D : Distance) (query : Item) (r : Reader) (db : Database) (keep : ItemId → Bool)
    (path : RoaringBitmap) (heap : List ScoredLink) : Prop :=
  ∀ p ∈ path, keep p = true → scored D query r db p ∈ heap

/-- How the restarts over `ids` end, started with `neighbours`. -/
structure Restarted (D : Distance) (query : Item) (r : Reader) (db : Database)
    (keep : ItemId → Bool) (cancel : CancelFn) (limit : Nat) (ids : List ItemId)
    (neighbours : List ScoredLink) (out : Completion (List ScoredLink)) : Prop where
  found : Found D query r db keep out.intoInner
  done : ∀ heap, out = .done heap → (∀ s ∈ neighbours, s ∈ heap) ∧
    (limit ≤ heap.length ∨ ∀ x ∈ ids, keep x = true → scored D query r db x ∈ heap) ∧
    (neighbours.length < limit → heap.length ≤ limit)
  cancelled : ∀ heap, out = .cancelled heap → ∃ n, cancel n = true

theorem Restarted.cons {limit : Nat} {ids : List ItemId} {id : ItemId}
    {neighbours : List ScoredLink} {out : Completion (List ScoredLink)}
    (h : Restarted D query r db keep cancel limit ids neighbours out)
    (hid : keep id = true → scored D query r db id ∈ neighbours) :
    Restarted D query r db keep cancel limit (id :: ids) neighbours out := by
  refine ⟨h.found, fun heap heq => ?_, h.cancelled⟩
  obtain ⟨hsub, hcase, hle⟩ := h.done heap heq
  refine ⟨hsub, hcase.imp_right fun h x hx hk => ?_, hle⟩
  rcases List.mem_cons.mp hx with rfl | hx
  · exact hsub _ (hid hk)
  · exact h x hx hk

theorem Restarted.of_pushAll {limit : Nat} {ids : List ItemId}
    {more neighbours : List ScoredLink} {out : Completion (List ScoredLink)}
    (h : Restarted D query r db keep cancel limit ids (pushAll more neighbours) out)
    (hlim : (pushAll more neighbours).length < limit) :
    Restarted D query r db keep cancel limit ids neighbours out := by
  refine ⟨h.found, fun heap heq => ?_, h.cancelled⟩
  obtain ⟨hsub, hcase, hle⟩ := h.done heap heq
  exact ⟨fun s hs => hsub s (mem_pushAll.mpr (Or.inr hs)), hcase, fun _ => hle hlim⟩

/-- A restart begins at a stored item, so that its links can be read. -/
theorem hasLinks_singleton (hs : Searchable r db) (hlevel : v.level = 0) {id : ItemId}
    (hid : id ∈ r.items) : ∀ ep ∈ [id], HasLinks r db v.level ep := by
  intro ep hep
  rw [List.mem_singleton.mp hep, hlevel]
  exact hasLinks_of_mem_items hs hid

theorem Complete.visited {heap res : List ScoredLink} {path' : RoaringBitmap}
    (h : Complete D query r db v.keep path heap) (hfinds : Finds D v query r db path res path')
    (hlt : res.length < v.ef) : Complete D query r db v.keep path' (pushAll res heap) := by
  intro p hp hk
  by_cases hold : p ∈ path
  · exact mem_pushAll.mpr (Or.inr (h p hold hk))
  · exact mem_pushAll.mpr (Or.inl (hfinds.unfull hlt p hp hold hk))

variable (D query cancel) in
/-- **The restarts.** -/
theorem restartLoop_ok (hs : Searchable r db) (hlevel : v.level = 0)
    {width : Nat → Except Failure Nat} {limit bound : Nat} (hbound : limit ≤ bound)
    (hwidth : ∀ n < bound, width n = .ok (limit - n)) :
    ∀ (ids : List ItemId) (path : RoaringBitmap) (probes : Nat) {neighbours : List ScoredLink},
      (∀ x ∈ ids, x ∈ r.items) → neighbours.length < bound →
      Found D query r db v.keep neighbours → (∀ s ∈ neighbours, s.id ∈ path) →
      Complete D query r db v.keep path neighbours →
      ∃ out, r.restartLoop D db query v width limit cancel ids path probes neighbours = .ok out ∧
        Restarted D query r db v.keep cancel limit ids neighbours out
  | [], path, probes, neighbours, _, _, hf, _, _ => by
    refine ⟨.done neighbours, rfl, hf, fun heap h => ?_, fun heap h => by cases h⟩
    cases h
    exact ⟨fun _ h => h, Or.inr fun _ h => absurd h List.not_mem_nil, le_of_lt⟩
  | id :: ids, path, probes, neighbours, hids, hlt, hf, hpath, hall => by
    have hids' := fun x hx => hids x (List.mem_cons_of_mem _ hx)
    unfold Reader.restartLoop
    by_cases hid : id ∈ path
    · rw [if_pos hid]
      obtain ⟨out, hout, hr⟩ := restartLoop_ok hs hlevel hbound hwidth ids path probes hids' hlt
        hf hpath hall
      exact ⟨out, hout, hr.cons (hall id hid)⟩
    rw [if_neg hid, hwidth _ hlt]
    simp only [bind, Except.bind]
    -- one more visit, from `id` alone
    let v' : Visitor := { v with eps := [id], ef := limit - neighbours.length }
    obtain ⟨visited, st, hvisit, hends⟩ := visit_ok D query (v := v') hs
      (hasLinks_singleton hs hlevel (hids id List.mem_cons_self)) path cancel probes
    have hfinds := hends.finds hs (List.nodup_singleton _) fun ep hep => by
      rw [List.mem_singleton.mp hep]
      exact hid
    rw [hvisit]
    rcases hends.completion with ⟨hc, -⟩ | ⟨hc, hn⟩
    · simp only [hc]
      have hf' : Found D query r db v.keep (pushAll st.res neighbours) :=
        hfinds.found.pushAll hf fun s hs' hmem => (hfinds.new s hs').1 (hpath s hmem)
      have hlen := length_pushAll st.res neighbours
      have hle : neighbours.length < limit → (pushAll st.res neighbours).length ≤ limit := by
        intro hlt'
        have := hfinds.width (by
          show [id].length ≤ limit - neighbours.length
          rw [List.length_singleton]
          omega)
        simp only [v'] at this
        omega
      by_cases hlim : limit ≤ (pushAll st.res neighbours).length
      · rw [if_pos hlim]
        refine ⟨_, rfl, hf', fun heap h => ?_, fun heap h => by cases h⟩
        cases h
        exact ⟨fun s hs' => mem_pushAll.mpr (Or.inr hs'), Or.inl hlim, hle⟩
      · rw [if_neg hlim]
        have hroom : st.res.length < limit - neighbours.length := by omega
        have hall' := Complete.visited (v := v') hall hfinds hroom
        obtain ⟨out, hout, hr⟩ := restartLoop_ok hs hlevel hbound hwidth ids visited.path
          visited.probes hids' (by omega) hf' (fun s hs' => (mem_pushAll.mp hs').elim
            (fun h => (hfinds.new s h).2) fun h => hfinds.grows (hpath s h)) hall'
        refine ⟨out, hout, Restarted.of_pushAll (hr.cons ?_) (Nat.lt_of_not_le hlim)⟩
        exact hall' id (hfinds.entry id List.mem_cons_self)
    · simp only [hc]
      refine ⟨_, rfl, hfinds.found, fun heap h => (by cases h), fun heap h => hn⟩

/-! ## The search -/

/-- How the search of layer 0 ends, before its results are cut at `count`; `first` is what its
first visit found. -/
structure Layer0 (D : Distance) (query : Item) (r : Reader) (db : Database) (keep : ItemId → Bool)
    (cancel : CancelFn) (count limit : Nat) (first : List ScoredLink)
    (out : Completion (List ScoredLink)) : Prop where
  found : Found D query r db keep out.intoInner
  grows : ∀ heap, out = .done heap → ∀ s ∈ first, s ∈ heap
  done : ∀ heap, out = .done heap → count ≤ heap.length ∨ limit ≤ heap.length ∨
    ∀ x ∈ r.items, keep x = true → scored D query r db x ∈ heap
  bounded : ∀ heap, out = .done heap → first.length < count → first.length < limit →
    heap.length ≤ limit
  cancelled : ∀ heap, out = .cancelled heap → ∃ n, cancel n = true

/-- The way from the first visit to the heap: the visit is cancelled, it finds enough, or the
restarts follow. -/
def Follows (D : Distance) (query : Item) (r : Reader) (db : Database) (v : Visitor) (count : Nat)
    (width : Nat → Except Failure Nat) (limit : Nat) (cancel : CancelFn) (visited : Visited)
    (first : List ScoredLink) (out : Completion (List ScoredLink)) : Prop :=
  (visited.completion = .cancelled first ∧ out = .cancelled first) ∨
  (visited.completion = .done first ∧ count ≤ first.length ∧ out = .done first) ∨
  (visited.completion = .done first ∧ first.length < count ∧
    r.restartLoop D db query v width limit cancel (ascending r.items) visited.path visited.probes
      first = .ok out ∧
    Restarted D query r db v.keep cancel limit (ascending r.items) first out)

section Follows

variable {width : Nat → Except Failure Nat} {count limit : Nat} {visited : Visited}
  {first l : List ScoredLink} {out : Completion (List ScoredLink)}

theorem Follows.of_cancelled
    (h : Follows D query r db v count width limit cancel visited first out)
    (hc : visited.completion = .cancelled l) : out = .cancelled l := by
  rcases h with ⟨hc', rfl⟩ | ⟨hc', -⟩ | ⟨hc', -⟩
  · exact hc'.symm.trans hc
  · rw [hc] at hc'
    cases hc'
  · rw [hc] at hc'
    cases hc'

/-- After a first visit that is not cancelled it is the number of its results that decides. -/
theorem Follows.of_done (h : Follows D query r db v count width limit cancel visited first out)
    (hc : visited.completion = .done l) :
    (count ≤ l.length ∧ out = .done l) ∨
    (l.length < count ∧
      r.restartLoop D db query v width limit cancel (ascending r.items) visited.path
        visited.probes l = .ok out ∧
      Restarted D query r db v.keep cancel limit (ascending r.items) l out) := by
  rcases h with ⟨hc', -⟩ | ⟨hc', h⟩ | ⟨hc', h⟩
  · rw [hc] at hc'
    cases hc'
  · obtain rfl := Completion.done.inj (hc.symm.trans hc')
    exact Or.inl h
  · obtain rfl := Completion.done.inj (hc.symm.trans hc')
    exact Or.inr h

end Follows

variable (D query) in
/-- **The search of layer 0.** -/
theorem searchLayer0_follows (hs : Searchable r db) (hl : Landed r db v) (count : Nat)
    (width : Nat → Except Failure Nat) (limit : Nat) (hef : count ≤ v.ef)
    (hwidth : ∀ n < max count limit, width n = .ok (limit - n)) (cancel : CancelFn) :
    ∃ visited st out, Ends D v query r db cancel (startState D v query r db ∅) st visited ∧
      r.searchLayer0 D db query v count width limit cancel =
        .ok (out.map fun heap => (Reader.output heap).take count) ∧
      Layer0 D query r db v.keep cancel count limit st.res out ∧
      v.visit D query r db ∅ cancel 0 = .ok visited ∧
      Follows D query r db v count width limit cancel visited st.res out := by
  obtain ⟨visited, st, hvisit, hends⟩ := visit_ok D query hs
    (fun ep hep => by rw [hl.level]; exact hl.hasLinks ep hep) ∅ cancel 0
  have hfinds := hends.finds hs hl.nodup fun ep _ => Finset.notMem_empty ep
  unfold Reader.searchLayer0
  rw [hvisit]
  simp only [bind, Except.bind]
  rcases hends.completion with ⟨hc, -⟩ | ⟨hc, hn⟩
  · simp only [hc]
    by_cases hlt : st.res.length < count
    · rw [if_pos hlt, hs.storedIds]
      obtain ⟨out, hout, hr⟩ := restartLoop_ok D query cancel hs hl.level
        (le_max_right count limit) hwidth (ascending r.items) visited.path visited.probes
        (fun x hx => mem_ascending.mp hx) (hlt.trans_le (le_max_left _ _)) hfinds.found
        (fun s hs' => (hfinds.new s hs').2) fun p hp hk =>
          hfinds.unfull (hlt.trans_le hef) p hp (Finset.notMem_empty p) hk
      rw [hout]
      refine ⟨visited, st, out, hends, rfl, ⟨hr.found, fun heap h => (hr.done heap h).1,
        fun heap h => ?_, fun heap h _ => (hr.done heap h).2.2, hr.cancelled⟩, rfl,
        Or.inr (Or.inr ⟨hc, hlt, hout, hr⟩)⟩
      exact Or.inr ((hr.done heap h).2.1.imp_right fun h x hx hk => h x (mem_ascending.mpr hx) hk)
    · rw [if_neg hlt]
      refine ⟨visited, st, .done st.res, hends, rfl, ⟨hfinds.found, fun heap h => ?_,
        fun heap h => ?_, fun _ _ h => absurd h hlt, fun heap h => (by cases h)⟩, rfl,
        Or.inr (Or.inl ⟨hc, Nat.le_of_not_lt hlt, rfl⟩)⟩
      · cases h
        exact fun _ h => h
      · cases h
        exact Or.inl (Nat.le_of_not_lt hlt)
  · simp only [hc]
    exact ⟨visited, st, .cancelled st.res, hends, rfl, ⟨hfinds.found, fun heap h => (by cases h),
      fun heap h => (by cases h), fun heap h => (by cases h), fun _ _ => hn⟩, rfl,
      Or.inl ⟨hc, rfl⟩⟩

variable (D query) in
theorem searchLayer0_ok (hs : Searchable r db) (hl : Landed r db v) (count : Nat)
    (width : Nat → Except Failure Nat) (limit : Nat) (hef : count ≤ v.ef)
    (hwidth : ∀ n < max count limit, width n = .ok (limit - n)) (cancel : CancelFn) :
    ∃ visited st out, Ends D v query r db cancel (startState D v query r db ∅) st visited ∧
      r.searchLayer0 D db query v count width limit cancel =
        .ok (out.map fun heap => (Reader.output heap).take count) ∧
      Layer0 D query r db v.keep cancel count limit st.res out := by
  obtain ⟨visited, st, out, hends, hout, hlayer, -⟩ :=
    searchLayer0_follows D query hs hl count width limit hef hwidth cancel
  exact ⟨visited, st, out, hends, hout, hlayer⟩

end Hannoy.Search
