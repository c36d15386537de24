import Hannoy.Library.Seeds
import Hannoy.Search.Valid

/-!
# One visit

On a searchable index a visit is a pass of the beam search: every read succeeds, so its state goes
through the rounds of `Library.Beam` over the distances to the query and the stored links.

Results:
* `visitLoop_cases`: one turn of the loop.
* `visit_ok`: a visit from entry points with links at its layer returns, and what it returns is
  the end of a pass, stopped or cancelled.
* `descend_ok`: the descent through the layers ends on layer 0 with entry points that have links
  there.
-/

namespace Hannoy.Search

open Hannoy.Library Hannoy.Library.Beam Hannoy.Library.Txn Hannoy.Index

variable {D : Distance} {query : Item} {r : Reader} {db : Database} {v : Visitor}

/-! ## The searched graph -/

/-- The distance of a stored item to the query. -/
def score (D : Distance) (query : Item) (r : Reader) (db : Database) (p : ItemId) : F32 :=
  match db.item? r.index p with
  | some it => D.distance query it
  | none => F32.zero

/-- The link targets of a node at a layer, in the order they are looked at. -/
def neighbours (r : Reader) (db : Database) (level : Nat) (p : ItemId) : List ItemId :=
  match db.links? r.index p level.toUInt8 with
  | some links => ascending links
  | none => []

def HasLinks (r : Reader) (db : Database) (level : Nat) (p : ItemId) : Prop :=
  ∃ s, db.links? r.index p level.toUInt8 = some s

theorem HasLinks.mem_items (hs : Searchable r db) {level : Nat} {p : ItemId}
    (h : HasLinks r db level p) : p ∈ r.items := by
  obtain ⟨s, hp⟩ := h
  exact hs.owner hp

theorem Searchable.exists_item (hs : Searchable r db) {p : ItemId} (h : p ∈ r.items) :
    ∃ it, db.item? r.index p = some it := Option.isSome_iff_exists.mp ((hs.items p).mp h)

theorem hasLinks_of_mem_neighbours (hs : Searchable r db) {level : Nat} {p q : ItemId}
    (h : q ∈ neighbours r db level p) : HasLinks r db level q := by
  unfold neighbours at h
  split at h
  · rename_i s hp
    exact hs.closed hp (mem_ascending.mp h)
  · exact absurd h List.not_mem_nil

theorem HasLinks.down (hs : Searchable r db) {l k : Nat} {p : ItemId} (hl : l < 256)
    (h : HasLinks r db l p) (hk : k ≤ l) : HasLinks r db k p := by
  obtain ⟨s, hp⟩ := h
  refine hs.down hp ?_
  rw [UInt8.le_iff_toNat_le, UInt8.toNat_ofNat_of_lt' hl,
    UInt8.toNat_ofNat_of_lt' (hk.trans_lt hl)]
  exact hk

theorem hasLinks_of_mem_items (hs : Searchable r db) {p : ItemId} (h : p ∈ r.items) :
    HasLinks r db 0 p := hs.base p h

/-! ## Steps -/

/-- A visit without candidates keeps everything. -/
theorem keep_of_none (hnone : v.candidates = none) (p : ItemId) : v.keep p = true := by
  rw [Visitor.keep, hnone]

/-- Register an entry point that is stored. -/
def seedAt (D : Distance) (v : Visitor) (query : Item) (r : Reader) (db : Database)
    (st : State F32 ItemId) (ep : ItemId) : State F32 ItemId :=
  st.seed v.params ⟨score D query r db ep, ep⟩

theorem visitSeed_ok (hs : Searchable r db) {ep : ItemId} (h : ep ∈ r.items)
    (st : State F32 ItemId) :
    v.visitSeed D query r db st ep = .ok (seedAt D v query r db st ep) := by
  obtain ⟨it, hit⟩ := hs.exists_item h
  unfold Visitor.visitSeed seedAt score
  rw [getItem_ok hs.typed, hit]
  rfl

theorem visitPoint_ok (hs : Searchable r db) {p : ItemId} (h : p ∈ r.items) (fmax : F32)
    (st : State F32 ItemId) : v.visitPoint D query r db fmax st p =
      .ok (st.offer v.params (score D query r db) fmax p) := by
  obtain ⟨it, hit⟩ := hs.exists_item h
  unfold Visitor.visitPoint State.offer
  split_ifs with hp
  · rfl
  · unfold score
    rw [getItem_ok hs.typed, hit]
    rfl

/-- A link target was seen before, or is stored and accepted. -/
theorem visitPoint_cases {fmax : F32} {st st' : State F32 ItemId} {p : ItemId}
    (h : v.visitPoint D query r db fmax st p = .ok st') :
    (p ∈ st.seen ∧ st' = st) ∨
    (p ∉ st.seen ∧ ∃ it, db.item? r.index p = some it ∧
      st' = (st.see p).accept v.params fmax ⟨D.distance query it, p⟩) := by
  unfold Visitor.visitPoint at h
  split_ifs at h with hseen
  · cases h
    exact Or.inl ⟨hseen, rfl⟩
  · obtain ⟨it, hit, h⟩ := ok_bind_iff.mp h
    cases it with
    | none => cases h
    | some it =>
      cases h
      exact Or.inr ⟨hseen, it, Database.item?_of_getItem hit, rfl⟩

/-! ## The loop -/

/-- The round that expands the nearest queued point. -/
def Round (D : Distance) (v : Visitor) (query : Item) (r : Reader) (db : Database)
    (st st' : State F32 ItemId) : Prop :=
  ∃ c rest links, st.queue = c :: rest ∧
    db.getLinks r.index (OrderDual.ofDual c.id) v.level = .ok (some links) ∧
    (ascending links).foldlM (v.visitPoint D query r db (st.worst v.params))
      { st with queue := rest } = .ok st'

/-- **One turn of the loop of a visit**: the queue is empty, the search is cancelled, it stops, or
it goes on after a round. -/
theorem visitLoop_cases {cancel : CancelFn} {fuel probes : Nat} {st : State F32 ItemId}
    {visited : Visited}
    (h : v.visitLoop D query r db cancel (fuel + 1) probes st = .ok visited) :
    (st.queue = [] ∧ visited = ⟨.done st.res, st.seen, probes⟩) ∨
    (st.queue ≠ [] ∧ cancel probes = true ∧
      visited = ⟨.cancelled st.res, st.seen, probes + 1⟩) ∨
    (st.queue ≠ [] ∧ cancel probes = false ∧ st.Stopped v.params ∧
      visited = ⟨.done st.res, st.seen, probes + 1⟩) ∨
    (st.queue ≠ [] ∧ cancel probes = false ∧ ¬ st.Stopped v.params ∧
      ∃ st', Round D v query r db st st' ∧
        v.visitLoop D query r db cancel fuel (probes + 1) st' = .ok visited) := by
  unfold Visitor.visitLoop at h
  cases hq : st.queue with
  | nil =>
    rw [hq] at h
    cases h
    exact Or.inl ⟨rfl, rfl⟩
  | cons c rest =>
    rw [hq] at h
    simp only at h
    have hstopped : st.Stopped v.params ↔ F32.flt (st.worst v.params) c.dist = true := by
      rw [State.Stopped, hq]
      simp [Visitor.params]
    refine Or.inr ?_
    split_ifs at h with hc hfar
    · cases h
      exact Or.inl ⟨List.cons_ne_nil _ _, hc, rfl⟩
    · cases h
      exact Or.inr (Or.inl ⟨List.cons_ne_nil _ _, Bool.eq_false_iff.mpr hc, hstopped.mpr hfar, rfl⟩)
    · obtain ⟨links, hlinks, h⟩ := ok_bind_iff.mp h
      cases links with
      | none => cases h
      | some links =>
        obtain ⟨st', hround, h⟩ := ok_bind_iff.mp h
        exact Or.inr (Or.inr ⟨List.cons_ne_nil _ _, Bool.eq_false_iff.mpr hc,
          fun hstop => hfar (hstopped.mp hstop), st', ⟨c, rest, links, hq, hlinks, hround⟩, h⟩)

/-- How a visit ends: its state, and what it returns of it. -/
structure Ends (D : Distance) (v : Visitor) (query : Item) (r : Reader) (db : Database)
    (cancel : CancelFn) (start st : State F32 ItemId) (visited : Visited) : Prop where
  pass : Pass v.params (score D query r db) (neighbours r db v.level) start st
  within : Within (HasLinks r db v.level) st
  path : visited.path = st.seen
  inner : visited.completion.intoInner = st.res
  completion : (visited.completion = .done st.res ∧ st.Stopped v.params) ∨
    (visited.completion = .cancelled st.res ∧ ∃ n, cancel n = true)

variable (D query) in
theorem visitLoop_ok (hs : Searchable r db) (cancel : CancelFn) :
    ∀ {fuel : Nat} (probes : Nat) {st : State F32 ItemId}, Beam.measure r.items st < fuel →
      Within (HasLinks r db v.level) st →
      ∃ visited st', v.visitLoop D query r db cancel fuel probes st = .ok visited ∧
        Ends D v query r db cancel st st' visited
  | 0, _, _, hm, _ => absurd hm (Nat.not_lt_zero _)
  | fuel + 1, probes, st, hm, hw => by
    unfold Visitor.visitLoop
    cases hq : st.queue with
    | nil =>
      exact ⟨_, st, rfl, Pass.refl st, hw, rfl, rfl, Or.inl ⟨rfl, by simp [State.Stopped, hq]⟩⟩
    | cons c rest =>
      simp only
      by_cases hc : cancel probes = true
      · rw [if_pos hc]
        exact ⟨_, st, rfl, Pass.refl st, hw, rfl, rfl, Or.inr ⟨rfl, probes, hc⟩⟩
      rw [if_neg hc]
      by_cases hfar : F32.flt (st.worst v.params) c.dist = true
      · rw [if_pos hfar]
        refine ⟨_, st, rfl, Pass.refl st, hw, rfl, rfl, Or.inl ⟨rfl, fun d hd => ?_⟩⟩
        rw [hq] at hd
        cases hd
        exact hfar
      rw [if_neg hfar]
      -- the links of the popped point exist, and its neighbours are stored
      obtain ⟨links, hlinks⟩ := hw.queue c (by rw [hq]; exact List.mem_cons_self)
      have hnbrs : neighbours r db v.level (OrderDual.ofDual c.id) = ascending links := by
        rw [neighbours, hlinks]
      have hexp : st.expand v.params (score D query r db) (neighbours r db v.level) =
          (ascending links).foldl
            (State.offer v.params (score D query r db) (st.worst v.params))
            { st with queue := rest } := by
        rw [State.expand, hq, ← hnbrs]
      have hmem : ∀ q ∈ ascending links, q ∈ r.items := fun q hqm =>
        HasLinks.mem_items hs (hasLinks_of_mem_neighbours hs (hnbrs ▸ hqm))
      have hlt : Beam.measure r.items
          (st.expand v.params (score D query r db) (neighbours r db v.level)) < fuel := by
        have hshrink : Beam.measure r.items (st.expand v.params (score D query r db)
            (neighbours r db v.level)) < Beam.measure r.items st :=
          measure_expand hq fun q hqm => hmem q (hnbrs ▸ hqm)
        omega
      obtain ⟨visited, st', hvisit, hends⟩ := visitLoop_ok hs cancel (probes + 1) hlt
        (hw.expand fun p _ q hqm => hasLinks_of_mem_neighbours hs hqm)
      refine ⟨visited, st', ?_, ?_, hends.within, hends.path, hends.inner, hends.completion⟩
      · rw [getLinks_ok hs.typed, hlinks]
        show (do
          let st' ← (ascending links).foldlM
            (v.visitPoint D query r db (st.worst v.params)) { st with queue := rest }
          v.visitLoop D query r db cancel fuel (probes + 1) st') = _
        rw [foldlM_eq_ok fun q hqm b => visitPoint_ok hs (hmem q hqm) (st.worst v.params) b,
          ← hexp]
        exact hvisit
      · refine Pass.head (fun hstop => hfar ?_) hends.pass
        exact hstop c (by rw [hq]; rfl)

/-! ## A visit -/

/-- The state after the entry points. -/
def startState (D : Distance) (v : Visitor) (query : Item) (r : Reader) (db : Database)
    (path : RoaringBitmap) : State F32 ItemId :=
  v.eps.foldl (seedAt D v query r db) ⟨[], [], path⟩

theorem startState_eq (path : RoaringBitmap) : startState D v query r db path =
    State.seedAll v.params (score D query r db) v.eps ⟨[], [], path⟩ := rfl

/-- A visit is its loop, started with the entry points. -/
theorem visit_eq (hs : Searchable r db) {v : Visitor}
    (heps : ∀ ep ∈ v.eps, HasLinks r db v.level ep) (path : RoaringBitmap) (cancel : CancelFn)
    (probes : Nat) : v.visit D query r db path cancel probes =
      v.visitLoop D query r db cancel (v.fuel r db) probes (startState D v query r db path) := by
  unfold Visitor.visit
  rw [foldlM_eq_ok fun ep hep b => visitSeed_ok hs ((heps ep hep).mem_items hs) b]
  rfl

variable (D query) in
/-- **A visit is a pass.** -/
theorem visit_ok (hs : Searchable r db) {v : Visitor}
    (heps : ∀ ep ∈ v.eps, HasLinks r db v.level ep) (path : RoaringBitmap) (cancel : CancelFn)
    (probes : Nat) :
    ∃ visited st, v.visit D query r db path cancel probes = .ok visited ∧
      Ends D v query r db cancel (startState D v query r db path) st visited := by
  have hfuel : Beam.measure r.items (startState D v query r db path) < v.fuel r db := by
    have hlen : (db.prefixIter (Prefix.item r.index)).length = r.items.card := by
      rw [← length_ascending, ← hs.storedIds, List.length_map]
    have hcard := Finset.card_le_card
      (Finset.sdiff_subset (s := r.items) (t := (startState D v query r db path).seen))
    have hq : (startState D v query r db path).queue.length = v.eps.length := by
      rw [startState_eq, length_queue_seedAll]
      exact Nat.zero_add _
    rw [Beam.measure, Visitor.fuel, hlen, hq]
    omega
  rw [visit_eq hs heps]
  exact visitLoop_ok D query hs cancel probes hfuel ((Within.empty path).seedAll heps)

/-! ## The descent -/

/-- A visit without a filter finds something. -/
theorem Ends.res_ne_nil {path : RoaringBitmap} {st : State F32 ItemId} {visited : Visited}
    {cancel : CancelFn} (h : Ends D v query r db cancel (startState D v query r db path) st visited)
    (hne : v.eps ≠ []) (hkeep : ∀ p, v.keep p = true) : st.res ≠ [] := by
  have hstart : (startState D v query r db path).res ≠ [] :=
    res_seedAll_ne_nil hkeep hne _
  have hle := le_length_res h.pass
  intro hnil
  rw [hnil] at hle
  exact hstart (List.length_eq_zero_iff.mp (Nat.le_zero.mp hle))

/-- What the descent hands to layer 0. -/
structure Landed (r : Reader) (db : Database) (v : Visitor) : Prop where
  level : v.level = 0
  nonempty : v.eps ≠ []
  nodup : v.eps.Nodup
  hasLinks : ∀ ep ∈ v.eps, HasLinks r db 0 ep

variable (D query) in
/-- **The descent ends on layer 0.** -/
theorem descend_ok (hs : Searchable r db) : ∀ {n : Nat} {v : Visitor} (path : RoaringBitmap),
    v.level = n → n < 256 → v.candidates = none → v.eps ≠ [] → v.eps.Nodup →
    (∀ ep ∈ v.eps, HasLinks r db n ep) →
      ∃ v', r.descend D db query n v path = .ok v' ∧ Landed r db v'
  | 0, v, path, hl, _, _, hne, hnd, heps => ⟨v, rfl, hl, hne, hnd, heps⟩
  | n + 1, v, path, hl, hlt, hc, hne, hnd, heps => by
    have hkeep : ∀ p, v.keep p = true := keep_of_none hc
    obtain ⟨visited, st, hvisit, hends⟩ := visit_ok D query (v := v) hs
      (by rw [hl]; exact heps) path (fun _ => false) 0
    have hres := hends.res_ne_nil hne hkeep
    obtain ⟨closest, rest, hst⟩ := List.exists_cons_of_ne_nil hres
    have hclosest : HasLinks r db n closest.id := by
      have := hends.within.res closest (by rw [hst]; exact List.mem_cons_self)
      rw [hl] at this
      exact this.down hs hlt (Nat.le_succ n)
    obtain ⟨v', hv', hland⟩ := descend_ok hs (n := n)
      (v := { v with eps := [closest.id], level := n }) visited.path rfl (by omega) hc
      (List.cons_ne_nil _ _) (List.nodup_singleton _) fun ep hep => by
        rw [List.mem_singleton.mp hep]
        exact hclosest
    refine ⟨v', ?_, hland⟩
    unfold Reader.descend
    rw [hvisit]
    simp only [bind, Except.bind, hends.inner, hst, List.head?_cons, hl]
    exact hv'

/-- The visitor the descent starts with. -/
def topVisitor (r : Reader) : Visitor := ⟨r.entryPoints, r.maxLevel, 1, none⟩

variable (D query) in
theorem descend_top_ok (hs : Searchable r db) (hne : r.items ≠ ∅) :
    ∃ v, r.descend D db query r.maxLevel (topVisitor r) ∅ = .ok v ∧ Landed r db v :=
  descend_ok D query hs ∅ rfl hs.height rfl (hs.nonempty hne) hs.nodup fun ep hep =>
    (hs.entry ep hep).2 r.maxLevel le_rfl

end Hannoy.Search
