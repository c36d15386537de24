import Hannoy.Search.Query

/-!
# The calls of the callback in one visit (`reader.rs:329-332`)

A visit asks `cancel_fn` before each round, and returns what it has found when the answer is true.

* `visit_compare`: a visit that is cancelled later, or not at all, finds at least as many.
* `visit_never`, `visit_before`: a visit that completes does not depend on the callback.
* `visit_at_once`, `visit_nearest`: what a visit from a single point finds at least.
-/

namespace Hannoy.Search

open Hannoy.Library Hannoy.Library.Beam Hannoy.Library.Txn Hannoy.Index

variable {D : Distance} {query : Item} {r : Reader} {db : Database} {v : Visitor}
  {cancel cancel' : CancelFn} {k : Nat}

/-- The callback is true at its `k`-th call for the first time. -/
def FirstTrueAt (cancel : CancelFn) (k : Nat) : Prop :=
  cancel k = true ∧ ∀ n < k, cancel n = false

/-! ## The loop -/

theorem Round.unique {st st₁ st₂ : State F32 ItemId} (h₁ : Round D v query r db st st₁)
    (h₂ : Round D v query r db st st₂) : st₁ = st₂ := by
  obtain ⟨c, rest, links, hq, hl, hr⟩ := h₁
  obtain ⟨c', rest', links', hq', hl', hr'⟩ := h₂
  rw [hq] at hq'
  cases hq'
  rw [hl] at hl'
  cases hl'
  rw [hr] at hr'
  cases hr'
  rfl

theorem Round.le_length {st st' : State F32 ItemId} (h : Round D v query r db st st') :
    st.res.length ≤ st'.res.length := by
  obtain ⟨c, rest, links, -, -, hr⟩ := h
  have hstart : st.res.length ≤ ({ st with queue := rest } : State F32 ItemId).res.length := le_rfl
  refine foldlM_invariant (J := fun s : State F32 ItemId => st.res.length ≤ s.res.length)
    (fun p _ s s' hs hs' => ?_) hstart hr
  rcases visitPoint_cases hs' with ⟨-, rfl⟩ | ⟨-, it, -, rfl⟩
  · exact hs
  · exact hs.trans (le_length_res_accept _ (s.see p) _)

theorem visitLoop_probes : ∀ {fuel probes : Nat} {st : State F32 ItemId} {visited : Visited},
    v.visitLoop D query r db cancel fuel probes st = .ok visited →
      probes ≤ visited.probes ∧ (st.queue ≠ [] → probes < visited.probes)
  | 0, _, _, _, h => by cases h
  | fuel + 1, probes, st, visited, h => by
    rcases visitLoop_cases h with ⟨hq, rfl⟩ | ⟨-, -, rfl⟩ | ⟨-, -, -, rfl⟩ | ⟨-, -, -, st', -, hrec⟩
    · exact ⟨le_rfl, fun hne => absurd hq hne⟩
    · exact ⟨Nat.le_succ _, fun _ => Nat.lt_succ_self _⟩
    · exact ⟨Nat.le_succ _, fun _ => Nat.lt_succ_self _⟩
    · have := (visitLoop_probes hrec).1
      exact ⟨by omega, fun _ => by omega⟩

theorem visitLoop_length : ∀ {fuel probes : Nat} {st : State F32 ItemId} {visited : Visited},
    v.visitLoop D query r db cancel fuel probes st = .ok visited →
      st.res.length ≤ visited.completion.intoInner.length
  | 0, _, _, _, h => by cases h
  | fuel + 1, probes, st, visited, h => by
    rcases visitLoop_cases h with
      ⟨-, rfl⟩ | ⟨-, -, rfl⟩ | ⟨-, -, -, rfl⟩ | ⟨-, -, -, st', hround, hrec⟩
    · exact le_rfl
    · exact le_rfl
    · exact le_rfl
    · exact hround.le_length.trans (visitLoop_length hrec)

/-- What a visit that may be cancelled at the `k`-th call is, next to one that is not cancelled
before. -/
def CutAt (k : Nat) (visited visited' : Visited) : Prop :=
  (visited = visited' ∧ visited.probes ≤ k ∧ ∃ l, visited.completion = .done l) ∨
    ∃ l, visited.completion = .cancelled l ∧ l.length ≤ visited'.completion.intoInner.length

/-- **A visit that is cancelled later finds at least as many.** -/
theorem visitLoop_compare (hfirst : FirstTrueAt cancel k) (hbelow : ∀ n < k, cancel' n = false) :
    ∀ {fuel probes : Nat} {st : State F32 ItemId} {visited visited' : Visited}, probes ≤ k →
      v.visitLoop D query r db cancel fuel probes st = .ok visited →
      v.visitLoop D query r db cancel' fuel probes st = .ok visited' → CutAt k visited visited'
  | 0, _, _, _, _, _, h, _ => by cases h
  | fuel + 1, probes, st, visited, visited', hp, h, h' => by
    -- before its `k`-th call the other search is not cancelled either
    have hnot : cancel probes = false → probes < k := fun hc => by
      refine lt_of_le_of_ne hp fun heq => ?_
      rw [heq, hfirst.1] at hc
      cases hc
    have hsame : cancel probes = false → cancel' probes ≠ true := fun hc => by
      rw [hbelow probes (hnot hc)]
      exact Bool.false_ne_true
    rcases visitLoop_cases h with
      ⟨hq, rfl⟩ | ⟨hq, hc, rfl⟩ | ⟨hq, hc, hstop, rfl⟩ | ⟨hq, hc, hopen, st', hround, hrec⟩
    · rcases visitLoop_cases h' with ⟨-, rfl⟩ | ⟨hq', -⟩ | ⟨hq', -⟩ | ⟨hq', -⟩
      · exact Or.inl ⟨rfl, hp, _, rfl⟩
      all_goals exact absurd hq hq'
    · obtain rfl : probes = k := by
        refine le_antisymm hp (Nat.le_of_not_lt fun hlt => ?_)
        rw [hfirst.2 probes hlt] at hc
        cases hc
      exact Or.inr ⟨_, rfl, visitLoop_length h'⟩
    · rcases visitLoop_cases h' with ⟨hq', -⟩ | ⟨-, hc', -⟩ | ⟨-, -, -, rfl⟩ | ⟨-, -, hopen, -⟩
      · exact absurd hq' hq
      · exact absurd hc' (hsame hc)
      · exact Or.inl ⟨rfl, hnot hc, _, rfl⟩
      · exact absurd hstop hopen
    · rcases visitLoop_cases h' with
        ⟨hq', -⟩ | ⟨-, hc', -⟩ | ⟨-, -, hstop, -⟩ | ⟨-, -, -, st'', hround', hrec'⟩
      · exact absurd hq' hq
      · exact absurd hc' (hsame hc)
      · exact absurd hstop hopen
      · obtain rfl := hround.unique hround'
        exact visitLoop_compare hfirst hbelow (hnot hc) hrec hrec'

/-- Callbacks that agree on the calls a visit makes give the same visit. -/
theorem visitLoop_congr : ∀ {fuel probes : Nat} {st : State F32 ItemId} {visited : Visited},
    v.visitLoop D query r db cancel fuel probes st = .ok visited →
      (∀ n, probes ≤ n → n < visited.probes → cancel n = cancel' n) →
      v.visitLoop D query r db cancel' fuel probes st = .ok visited
  | 0, _, _, _, h, _ => by cases h
  | fuel + 1, probes, st, visited, h, hagree => by
    have hprobes := (visitLoop_probes h).2
    unfold Visitor.visitLoop at h ⊢
    cases hq : st.queue with
    | nil => rwa [hq] at h
    | cons c rest =>
      rw [hq] at h hprobes
      simp only at h ⊢
      rw [← hagree probes le_rfl (hprobes (List.cons_ne_nil _ _))]
      by_cases hc : cancel probes = true
      · rw [if_pos hc] at h ⊢
        exact h
      rw [if_neg hc] at h ⊢
      by_cases hfar : F32.flt (st.worst v.params) c.dist = true
      · rw [if_pos hfar] at h ⊢
        exact h
      rw [if_neg hfar] at h ⊢
      obtain ⟨links, hlinks, h⟩ := ok_bind_iff.mp h
      refine ok_bind_iff.mpr ⟨links, hlinks, ?_⟩
      cases links with
      | none => cases h
      | some links =>
        obtain ⟨st', hround, h⟩ := ok_bind_iff.mp h
        exact ok_bind_iff.mpr ⟨st', hround, visitLoop_congr h fun n hn => hagree n (by omega)⟩

/-- A visit that completes was not cancelled. -/
theorem visitLoop_done {l : List ScoredLink} : ∀ {fuel probes : Nat} {st : State F32 ItemId}
    {visited : Visited}, v.visitLoop D query r db cancel fuel probes st = .ok visited →
      visited.completion = .done l → ∀ n, probes ≤ n → n < visited.probes → cancel n = false
  | 0, _, _, _, h, _ => by cases h
  | fuel + 1, probes, st, visited, h, hdone => by
    intro n hn hlt
    rcases visitLoop_cases h with
      ⟨-, rfl⟩ | ⟨-, -, rfl⟩ | ⟨-, hc, -, rfl⟩ | ⟨-, hc, -, st', -, hrec⟩
    · exact absurd hlt hn.not_gt
    · cases hdone
    · rwa [show n = probes from le_antisymm (Nat.le_of_lt_succ hlt) hn]
    · rcases hn.eq_or_lt with rfl | hn
      · exact hc
      · exact visitLoop_done hrec hdone n hn hlt

/-! ## The visit -/

theorem visit_compare (hs : Searchable r db) {v : Visitor}
    (heps : ∀ ep ∈ v.eps, HasLinks r db v.level ep) {path : RoaringBitmap} {probes : Nat}
    (hfirst : FirstTrueAt cancel k) (hbelow : ∀ n < k, cancel' n = false) (hp : probes ≤ k)
    {visited visited' : Visited} (h : v.visit D query r db path cancel probes = .ok visited)
    (h' : v.visit D query r db path cancel' probes = .ok visited') :
    CutAt k visited visited' := by
  rw [visit_eq hs heps] at h h'
  exact visitLoop_compare hfirst hbelow hp h h'

/-- A visit that completes is the same without a callback. -/
theorem visit_never (hs : Searchable r db) {v : Visitor}
    (heps : ∀ ep ∈ v.eps, HasLinks r db v.level ep) {path : RoaringBitmap} {probes : Nat}
    {visited : Visited} (h : v.visit D query r db path cancel probes = .ok visited)
    {l : List ScoredLink} (hdone : visited.completion = .done l) :
    v.visit D query r db path (fun _ => false) probes = .ok visited := by
  rw [visit_eq hs heps] at h ⊢
  exact visitLoop_congr h (visitLoop_done h hdone)

/-- A visit that ends before the `k`-th call is not cancelled by it. -/
theorem visit_before (hs : Searchable r db) {v : Visitor}
    (heps : ∀ ep ∈ v.eps, HasLinks r db v.level ep) {path : RoaringBitmap} {probes : Nat}
    {visited : Visited} (h : v.visit D query r db path (fun _ => false) probes = .ok visited)
    (hbelow : ∀ n < k, cancel n = false) (hk : visited.probes ≤ k) :
    v.visit D query r db path cancel probes = .ok visited := by
  rw [visit_eq hs heps] at h ⊢
  exact visitLoop_congr h fun n _ hn => (hbelow n (hn.trans_le hk)).symm

theorem visit_probes (hs : Searchable r db) {v : Visitor}
    (heps : ∀ ep ∈ v.eps, HasLinks r db v.level ep) {path : RoaringBitmap} {probes : Nat}
    {visited : Visited} (h : v.visit D query r db path cancel probes = .ok visited) :
    probes ≤ visited.probes := by
  rw [visit_eq hs heps] at h
  exact (visitLoop_probes h).1

/-- A visit from one point that is cancelled at once has found that point at most. -/
theorem visit_at_once (hs : Searchable r db) {v : Visitor} {id : ItemId} (hid : v.eps = [id])
    (hlinks : HasLinks r db v.level id) {path : RoaringBitmap} {probes : Nat}
    (hc : cancel probes = true) {visited : Visited}
    (h : v.visit D query r db path cancel probes = .ok visited) :
    visited.completion =
      .cancelled (if v.keep id then [scored D query r db id] else []) := by
  have heps : ∀ ep ∈ v.eps, HasLinks r db v.level ep := fun ep hep => by
    rw [hid] at hep
    rw [List.mem_singleton.mp hep]
    exact hlinks
  rw [visit_eq hs heps] at h
  have hqueue : (startState D v query r db path).queue ≠ [] := by
    rw [startState, hid, List.foldl_cons, List.foldl_nil, seedAt, queue_seed]
    exact push_ne_nil _ _
  have hres : (startState D v query r db path).res =
      if v.keep id then [scored D query r db id] else [] := by
    rw [startState, hid]
    exact res_seed _ _
  unfold Visitor.fuel at h
  rcases visitLoop_cases h with ⟨hq, -⟩ | ⟨-, -, rfl⟩ | ⟨-, hc', -⟩ | ⟨-, hc', -⟩
  · exact absurd hq hqueue
  · rw [hres]
  · rw [hc] at hc'
    cases hc'
  · rw [hc] at hc'
    cases hc'

/-- A visit from one point that passes the filter finds nothing farther first. -/
theorem visit_nearest (hs : Searchable r db) {v : Visitor} {id : ItemId} (hid : v.eps = [id])
    (hlinks : HasLinks r db v.level id) (hk : v.keep id = true) {path : RoaringBitmap}
    {probes : Nat} {visited : Visited}
    (h : v.visit D query r db path cancel probes = .ok visited) :
    ∃ t ∈ visited.completion.intoInner, t ≤ scored D query r db id := by
  have heps : ∀ ep ∈ v.eps, HasLinks r db v.level ep := fun ep hep => by
    rw [hid] at hep
    rw [List.mem_singleton.mp hep]
    exact hlinks
  obtain ⟨visited', st, hvisit, hends⟩ := visit_ok D query hs heps path cancel probes
  rw [h] at hvisit
  cases hvisit
  have hres : (startState D v query r db path).res = [scored D query r db id] := by
    rw [startState, hid]
    exact (res_seed _ _).trans (if_pos hk)
  obtain ⟨t, ht, hle⟩ := exists_head_res hends.pass ⟨scored D query r db id, by rw [hres]; rfl,
    le_rfl⟩
  rw [hends.inner]
  exact ⟨t, List.mem_of_mem_head? ht, hle⟩

end Hannoy.Search
