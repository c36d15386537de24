import Hannoy.Library.Revisit
import Hannoy.Search.Exact

/-!
# The descent and its set of visited points (`reader.rs:731-744`)

`hnsw_search` descends through the layers with one set of visited points, which it only clears
before layer 0. A point visited on a higher layer is skipped on the lower ones.

* `descendAfresh`: the descent with an empty set on every layer.
* `visit_shared`: below the top layer a visit finds the same, whatever was visited before, as long
  as no point of it is nearer than the entry point; and this holds again for the next layer.
* `shared_descent`: both descents hand the same item to layer 0.
-/

namespace Hannoy.Search

open Hannoy.Library Hannoy.Library.Beam Hannoy.Library.Txn Hannoy.Index

variable {D : Distance} {query : Item} {r : Reader} {db : Database} {v : Visitor}
  {path : RoaringBitmap}

/-- `descend`, with an empty set of visited points on every layer. -/
def descendAfresh (D : Distance) (r : Reader) (db : Database) (query : Item) :
    Nat → Visitor → Except Failure Visitor
  | 0, v => pure v
  | n + 1, v => do
    let visited ← v.visit D query r db ∅ (fun _ => false) 0
    match visited.completion.intoInner.head? with
    | none => throw (.panic .noNeighborFound)
    | some closest =>
      match v.level with
      | 0 => throw (.panic .levelUnderflow)
      | level + 1 => descendAfresh D r db query n { v with eps := [closest.id], level }

/-! ## One layer -/

/-- A visit that is never cancelled goes on until it is stopped. -/
theorem Ends.stopped {start st : State F32 ItemId} {visited : Visited}
    (h : Ends D v query r db (fun _ => false) start st visited) : st.Stopped v.params := by
  rcases h.completion with ⟨-, hstop⟩ | ⟨-, n, hn⟩
  · exact hstop
  · exact absurd hn Bool.false_ne_true

theorem mem_items_of_neighbours (hs : Searchable r db) (level : Nat) :
    ∀ p ∈ r.items, ∀ q ∈ neighbours r db level p, q ∈ r.items :=
  fun _ _ _ hq => (hasLinks_of_mem_neighbours hs hq).mem_items hs

/-- Nothing that was visited before is nearer than every entry point. -/
def Behind (D : Distance) (query : Item) (r : Reader) (db : Database) (eps : List ItemId)
    (path : RoaringBitmap) : Prop :=
  ∀ p ∈ path, p ∈ r.items ∧ ∃ ep ∈ eps, score D query r db ep ≤ score D query r db p

/-- **What one layer of the descent hands to the next**: a nearest one of the visited points. -/
theorem Ends.behind (hs : Searchable r db) (hagree : Agree D query r db r.items)
    (hnone : v.candidates = none) (hne : v.eps ≠ []) (hnd : v.eps.Nodup)
    (heps : ∀ ep ∈ v.eps, ep ∈ r.items) (hpath : Behind D query r db v.eps path)
    {st : State F32 ItemId} {visited : Visited} {cancel : CancelFn}
    (h : Ends D v query r db cancel (startState D v query r db path) st visited) :
    ∃ closest, visited.completion.intoInner.head? = some closest ∧
      Behind D query r db [closest.id] visited.path := by
  have hkeep : ∀ p, v.params.keep p = true := keep_of_none hnone
  have hstart : Surveyed (score D query r db) (· ∈ r.items) (startState D v query r db path) :=
    surveyed_seedAll hkeep hne hnd heps hpath
  have hsurvey := hstart.pass (P := v.params) hagree (mem_items_of_neighbours hs v.level) hkeep
    h.pass
  obtain ⟨closest, rest, hres⟩ := List.exists_cons_of_ne_nil hsurvey.nonempty
  refine ⟨closest, by rw [h.inner, hres]; rfl, fun p hp => ?_⟩
  rw [h.path] at hp
  obtain ⟨hitem, s, hs', hle⟩ := hsurvey.near p hp
  rw [hres] at hs'
  cases hs'
  have hdist := (hsurvey.neat.sound closest (by rw [hres]; exact List.mem_cons_self)).1
  exact ⟨hitem, closest.id, List.mem_singleton_self _, hdist ▸ hle⟩

/-- **What was visited before does not matter** to the visit of a layer from one entry point, when
it lies behind this point. -/
theorem visit_shared (hs : Searchable r db) (hagree : Agree D query r db r.items)
    (hnone : v.candidates = none) (hef : v.ef = 1) {ep : ItemId} (heps : v.eps = [ep])
    (hlinks : HasLinks r db v.level ep) (hpath : Behind D query r db [ep] path) :
    ∃ visited fresh closest, v.visit D query r db path (fun _ => false) 0 = .ok visited ∧
      v.visit D query r db ∅ (fun _ => false) 0 = .ok fresh ∧
      visited.completion.intoInner.head? = some closest ∧
      fresh.completion.intoInner.head? = some closest ∧ HasLinks r db v.level closest.id ∧
      Behind D query r db [closest.id] visited.path := by
  have hlinks' : ∀ e ∈ v.eps, HasLinks r db v.level e := fun e he => by
    rw [heps] at he
    rwa [List.mem_singleton.mp he]
  have hitem : ep ∈ r.items := hlinks.mem_items hs
  obtain ⟨visited, st, hvisit, hends⟩ := visit_ok D query hs hlinks' path (fun _ => false) 0
  obtain ⟨fresh, st', hfresh, hends'⟩ := visit_ok D query hs hlinks' ∅ (fun _ => false) 0
  have hkeep : ∀ p, v.params.keep p = true := keep_of_none hnone
  -- the fresh visit, with what was visited before recalled, is the other one
  have hstart : (startState D v query r db ∅).recall path = startState D v query r db path := by
    rw [startState, startState, heps]
    refine (recall_seed _ _).trans ?_
    simp [State.recall, seedAt]
  have hsurvey : Surveyed (score D query r db) (· ∈ r.items) (startState D v query r db ∅) :=
    surveyed_seedAll hkeep (by rw [heps]; exact List.cons_ne_nil _ _)
      (by rw [heps]; exact List.nodup_singleton _) (fun e he => (hlinks' e he).mem_items hs)
      fun p hp => absurd hp (Finset.notMem_empty p)
  have hres : (startState D v query r db ∅).res = [⟨score D query r db ep, ep⟩] := by
    rw [startState, heps]
    exact (res_seed _ _).trans (if_pos (hkeep _))
  have hhides : Hides v.params (score D query r db) (· ∈ r.items) path
      (startState D v query r db ∅) := by
    refine ⟨hsurvey.neat, by rw [hres]; exact hef.symm, hsurvey.nonempty, fun p hp s hs' => ?_⟩
    rw [hres] at hs'
    obtain ⟨-, e, he, hle⟩ := hpath p hp
    rw [List.mem_singleton.mp he] at hle
    rwa [List.mem_singleton.mp hs']
  have hpass := hhides.recall_pass (P := v.params) hagree (mem_items_of_neighbours hs v.level)
    (fun p hp => (hpath p hp).1) hends'.pass
  rw [hstart] at hpass
  have heq : st = st'.recall path := hends.pass.eq_of_stopped hends.stopped hpass hends'.stopped
  obtain ⟨closest, hclosest, hbehind⟩ := hends.behind hs hagree hnone
    (by rw [heps]; exact List.cons_ne_nil _ _) (by rw [heps]; exact List.nodup_singleton _)
    (fun e he => (hlinks' e he).mem_items hs) (by rw [heps]; exact hpath)
  refine ⟨visited, fresh, closest, hvisit, hfresh, hclosest, ?_, ?_, hbehind⟩
  · rw [hends'.inner]
    rw [hends.inner, heq] at hclosest
    exact hclosest
  · rw [hends.inner] at hclosest
    exact hends.within.res closest (List.mem_of_mem_head? hclosest)

/-! ## The descent -/

theorem descend_succ {n : Nat} {visited : Visited} {closest : ScoredLink} (hl : v.level = n + 1)
    (hvisit : v.visit D query r db path (fun _ => false) 0 = .ok visited)
    (hclosest : visited.completion.intoInner.head? = some closest) :
    r.descend D db query (n + 1) v path =
      r.descend D db query n { v with eps := [closest.id], level := n } visited.path := by
  rw [Reader.descend, hvisit]
  simp only [bind, Except.bind, hclosest, hl]

theorem descendAfresh_succ {n : Nat} {visited : Visited} {closest : ScoredLink}
    (hl : v.level = n + 1) (hvisit : v.visit D query r db ∅ (fun _ => false) 0 = .ok visited)
    (hclosest : visited.completion.intoInner.head? = some closest) :
    descendAfresh D r db query (n + 1) v =
      descendAfresh D r db query n { v with eps := [closest.id], level := n } := by
  rw [descendAfresh, hvisit]
  simp only [bind, Except.bind, hclosest, hl]

/-- From one entry point on, both descents are the same. -/
theorem descend_eq_afresh (hs : Searchable r db) (hagree : Agree D query r db r.items) :
    ∀ {n : Nat} {v : Visitor} {ep : ItemId} {path : RoaringBitmap}, v.level = n → n < 256 →
      v.candidates = none → v.ef = 1 → v.eps = [ep] → HasLinks r db n ep →
      Behind D query r db [ep] path →
      ∃ v' x, r.descend D db query n v path = .ok v' ∧ descendAfresh D r db query n v = .ok v' ∧
        v'.level = 0 ∧ v'.eps = [x]
  | 0, v, ep, path, hl, _, _, _, heps, _, _ => ⟨v, ep, rfl, rfl, hl, heps⟩
  | n + 1, v, ep, path, hl, hlt, hnone, hef, heps, hlinks, hpath => by
    obtain ⟨visited, fresh, closest, hvisit, hfresh, hclosest, hclosest', hlinks', hbehind⟩ :=
      visit_shared hs hagree hnone hef heps (hl ▸ hlinks) hpath
    obtain ⟨v', x, hshared, hafresh, hlevel, heps'⟩ := descend_eq_afresh hs hagree (n := n)
      (v := { v with eps := [closest.id], level := n }) rfl (by omega) hnone hef rfl
      ((hl ▸ hlinks').down hs hlt (Nat.le_succ n)) hbehind
    exact ⟨v', x, (descend_succ hl hvisit hclosest).trans hshared,
      (descendAfresh_succ hl hfresh hclosest').trans hafresh, hlevel, heps'⟩

/-- **Sharing the set of visited points does not change the descent**: `hnsw_search` hands the
same item to layer 0 as a descent that begins every layer afresh. -/
theorem shared_descent (hv : ValidIndex D r db) (query : Item) (hagree : Agree D query r db r.items)
    (hlevel : 1 ≤ r.maxLevel) :
    r.descend D db query r.maxLevel (topVisitor r) ∅ =
        descendAfresh D r db query r.maxLevel (topVisitor r) ∧
      (r.items ≠ ∅ → ∃ v x, r.descend D db query r.maxLevel (topVisitor r) ∅ = .ok v ∧
        v.level = 0 ∧ v.eps = [x]) := by
  have hs := hv.toSearchable
  obtain ⟨n, hn⟩ : ∃ n, r.maxLevel = n + 1 := ⟨r.maxLevel - 1, by omega⟩
  have hlinks : ∀ ep ∈ (topVisitor r).eps, HasLinks r db (topVisitor r).level ep := fun ep hep =>
    (hs.entry ep hep).2 r.maxLevel le_rfl
  obtain ⟨visited, st, hvisit, hends⟩ :=
    visit_ok D query hs hlinks ∅ (fun _ => false) 0
  by_cases hempty : r.items = ∅
  · have hnone : visited.completion.intoInner = [] := by
      have hnil : (topVisitor r).eps = [] := List.eq_nil_iff_forall_not_mem.mpr fun ep hep => by
        have := (hs.entry ep hep).1
        rw [hempty] at this
        exact Finset.notMem_empty ep this
      have hstart : startState D (topVisitor r) query r db ∅ = ⟨[], [], ∅⟩ := by
        rw [startState, hnil]
        rfl
      have hstop : (⟨[], [], ∅⟩ : State F32 ItemId).Stopped (topVisitor r).params := fun c hc => by
        cases hc
      rw [hends.inner, ← Pass.eq_of_stopped (.refl _) hstop (hstart ▸ hends.pass) hends.stopped]
    refine ⟨?_, fun h => absurd hempty h⟩
    rw [hn, Reader.descend, descendAfresh, hvisit]
    simp only [bind, Except.bind, hnone, List.head?_nil]
  · obtain ⟨closest, hclosest, hbehind⟩ := hends.behind hs hagree rfl (hs.nonempty hempty)
      hs.nodup (fun ep hep => (hs.entry ep hep).1) fun p hp => absurd hp (Finset.notMem_empty p)
    have hlinks' : HasLinks r db r.maxLevel closest.id := by
      rw [hends.inner] at hclosest
      exact hends.within.res closest (List.mem_of_mem_head? hclosest)
    obtain ⟨v', x, hshared, hafresh, hlevel', heps⟩ := descend_eq_afresh hs hagree (n := n)
      (v := { topVisitor r with eps := [closest.id], level := n }) rfl
      (by have := hs.height; omega) rfl rfl rfl
      (hlinks'.down hs hs.height (by omega)) hbehind
    have h₁ : r.descend D db query r.maxLevel (topVisitor r) ∅ = .ok v' := by
      rw [hn, descend_succ hn hvisit hclosest]
      exact hshared
    have h₂ : descendAfresh D r db query r.maxLevel (topVisitor r) = .ok v' := by
      rw [hn, descendAfresh_succ hn hvisit hclosest]
      exact hafresh
    exact ⟨h₁.trans h₂.symm, fun _ => ⟨v', x, h₁, hlevel', heps⟩⟩

/-- Items 0, 1 and 2 at 0, 1 and 2, all on layer 1, the first two on layer 2. -/
def towers : List (Writer × Op) :=
  [.build 3 3 (.sequential (fun x => if x = 2 then 1 else 2) fun x => by split_ifs <;> decide)
      BuildOption.default,
    .addItem 2 [⟨0x40000000⟩], .addItem 1 [F32.one], .addItem 0 [F32.zero]].map (⟨0, 1⟩, ·)

/-- Where item 2 lies. -/
def atItem2 : Item := Item.ofVector manhattan [⟨0x40000000⟩]

/-- Layer 2 leaves the items 0 and 1 visited. From item 1 on, layer 1 leads to item 2, without
looking at item 0 again. -/
theorem shared_descent_towers : ∃ db r visited v, opened manhattan 0 towers = some (db, r) ∧
    r.maxLevel = 2 ∧
    (topVisitor r).visit manhattan atItem2 r db ∅ (fun _ => false) 0 = .ok visited ∧
    visited.path = {0, 1} ∧ neighbours r db 1 1 = [0, 2] ∧
    r.descend manhattan db atItem2 r.maxLevel (topVisitor r) ∅ = .ok v ∧
    descendAfresh manhattan r db atItem2 r.maxLevel (topVisitor r) = .ok v ∧
    v.level = 0 ∧ v.eps = [2] := by
  have h : ((opened manhattan 0 towers).bind fun x =>
      ((topVisitor x.2).visit manhattan atItem2 x.2 x.1 ∅ (fun _ => false) 0).toOption.map
        fun visited => decide (x.2.items = {0, 1, 2} ∧ x.2.maxLevel = 2 ∧
          [0, 1, 2].map (score manhattan atItem2 x.2 x.1) =
            [⟨0x40000000⟩, F32.one, F32.zero] ∧
          visited.path = {0, 1} ∧ neighbours x.2 x.1 1 1 = [0, 2] ∧
          (x.2.descend manhattan x.1 atItem2 x.2.maxLevel (topVisitor x.2) ∅).toOption.map
            Visitor.eps = some [2])) = some true := by
    decide +kernel
  obtain ⟨⟨db, r⟩, hopened, h⟩ := Option.bind_eq_some_iff.mp h
  obtain ⟨visited, hvisit, h⟩ := Option.map_eq_some_iff.mp h
  obtain ⟨(hitems : r.items = _), (hlevel : r.maxLevel = 2), hscores, hpath, hlinks, heps⟩ :=
    of_decide_eq_true h
  simp only [List.map_cons, List.map_nil, List.cons.injEq, and_true] at hscores
  obtain ⟨h0, h1, h2⟩ := hscores
  have hagree : Agree manhattan atItem2 r db r.items := by
    intro a ha b hb
    simp only [hitems, Finset.mem_insert, Finset.mem_singleton] at ha hb
    rcases ha with rfl | rfl | rfl <;> rcases hb with rfl | rfl | rfl <;>
      simp only [h0, h1, h2] <;> decide +kernel
  obtain ⟨-, -, hv⟩ := valid_of_opened (n := 1) (by decide) (by decide) hopened
  obtain ⟨heq, hfound⟩ := shared_descent hv atItem2 hagree (by rw [hlevel]; decide)
  obtain ⟨v, x, hshared, hlevel', hx⟩ := hfound (by rw [hitems]; exact Finset.insert_ne_empty _ _)
  rw [hshared] at heps
  exact ⟨db, r, visited, v, hopened, hlevel, ok_of_toOption hvisit, hpath, hlinks, hshared,
    heq.symm.trans hshared, hlevel', Option.some.inj heps⟩

end Hannoy.Search
