import Hannoy.Library.Seeds

/-!
# Beam search, offer by offer

A round of `Library.Beam` fixes its bound before its first offer, while the result heap goes on
changing. Here a search is taken apart into single offers, so that the bound can be compared with
the heap at the time of each of them.

`known` are the points that have a distance; other points are only marked as seen. What a popped
point answers with is a relation, so that it may change while the search runs.

* `Advance`: one offer, or the start of a round. `Trail`: the moments of a search, the latest first.
* `KeepsNearest`: every scored point is a result, or the heap is full of points that are no farther.
* `Advance.keepsNearest_iff`: an offer keeps this exactly when it does not refuse a point
  (`Refuses`) that is strictly nearer than some result.
* `Trail.keepsNearest_iff`: it holds all along a search exactly when no offer refuses such a point.
* `Trail.length_le_iff`: a search that starts with more results than `ef` keeps to that width
  exactly when no offer is taken in on top of them (`Overflows`).
* `Trail.crowded_iff`: without a filter and with the same neighbours all along, this is when no
  neighbour of a point queued at the start is new and nearer than the worst result.
-/

namespace Hannoy.Library.Beam

variable {F ι : Type} [LinearOrder F] [LinearOrder ι]

/-- A search inside a round: the bound of the round, the neighbours not offered yet, the state. -/
structure Moment (F ι : Type) where
  bound : F
  todo : List ι
  state : State F ι

section moments

variable (P : Params F ι) (dist : ι → F) (known : ι → Prop) (answers : ι → List ι → Prop)

/-- The next neighbour is offered, or only seen when it has no distance; or a round begins. -/
inductive Advance : Moment F ι → Moment F ι → Prop
  | offer {b : F} {p : ι} {todo : List ι} {st : State F ι} (h : p ∈ st.seen ∨ known p) :
      Advance ⟨b, p :: todo, st⟩ ⟨b, todo, st.offer P dist b p⟩
  | skip {b : F} {p : ι} {todo : List ι} {st : State F ι} (h : ¬ known p) :
      Advance ⟨b, p :: todo, st⟩ ⟨b, todo, st.see p⟩
  | round {b : F} {st : State F ι} {c : Scored F ιᵒᵈ} {rest : List (Scored F ιᵒᵈ)} {l : List ι}
      (hq : st.queue = c :: rest) (hopen : ¬ st.Stopped P) (h : answers (OrderDual.ofDual c.id) l) :
      Advance ⟨b, [], st⟩ ⟨st.worst P, l, { st with queue := rest }⟩

/-- The moments of a search, the latest first. -/
inductive Trail (start : State F ι) : List (Moment F ι) → Prop
  | start : Trail start [⟨P.top, [], start⟩]
  | step {m m' : Moment F ι} {ms : List (Moment F ι)} (h : Trail start (m :: ms))
      (hm : Advance P dist known answers m m') : Trail start (m' :: m :: ms)

/-- The points a search from `eps` has scored, `old` being what was seen before it. -/
def HasScored (eps : List ι) (old seen : Finset ι) (p : ι) : Prop :=
  p ∈ eps ∨ (p ∈ seen ∧ p ∉ old ∧ known p)

/-- Every scored point is a result, or there are `ef` results and none is farther. -/
def KeepsNearest (ef : Nat) (eps : List ι) (old seen : Finset ι) (res : List (Scored F ι)) : Prop :=
  ∀ p, HasScored known eps old seen p →
    ⟨dist p, p⟩ ∈ res ∨ (ef ≤ res.length ∧ ∀ s ∈ res, s.dist ≤ dist p)

/-- The next offer refuses a point: the heap is full and the point is not under the bound of the
round. Yet some result is strictly farther. -/
def Moment.Refuses (m : Moment F ι) : Prop :=
  ∃ p ∈ m.todo.head?, p ∉ m.state.seen ∧ known p ∧ P.ef ≤ m.state.res.length ∧
    P.flt (dist p) m.bound = false ∧ ∃ s ∈ m.state.res, dist p < s.dist

/-- The next offer comes on top of `width` results, where the heap is not as wide as that and the
point is under the bound of the round. -/
def Moment.Overflows (m : Moment F ι) (width : Nat) : Prop :=
  ∃ p ∈ m.todo.head?, p ∉ m.state.seen ∧ known p ∧ P.keep p = true ∧
    P.flt (dist p) m.bound = true ∧ P.ef < width ∧ m.state.res.length = width

end moments

variable {P : Params F ι} {dist : ι → F} {known : ι → Prop} {answers : ι → List ι → Prop}
  {eps : List ι} {old : Finset ι} {start : State F ι}

/-- The heap is in order, within its width, and holds seen points with their distances. -/
structure Tidy (P : Params F ι) (dist : ι → F) (eps : List ι) (old : Finset ι) (st : State F ι) :
    Prop where
  base : ∀ p, p ∈ eps ∨ p ∈ old → p ∈ st.seen
  sorted : st.res.Pairwise (· < ·)
  sound : ∀ s ∈ st.res, s.dist = dist s.id ∧ s.id ∈ st.seen
  width : st.res.length ≤ P.ef

/-! ## The heap -/

/-- What leaves a heap is no nearer than what stays. -/
theorem le_of_notMem_pushPopMax {a b s : Scored F ι} {h : List (Scored F ι)}
    (hs : h.Pairwise (· < ·)) (hb : b ∈ push a h) (hout : b ∉ pushPopMax a h)
    (hin : s ∈ pushPopMax a h) : s.dist ≤ b.dist := by
  have hne := push_ne_nil a h
  have hsplit := List.dropLast_append_getLast hne
  have hpair := pairwise_push (a := a) (hs.imp le_of_lt)
  rw [← hsplit, List.mem_append, List.mem_singleton] at hb
  obtain rfl := hb.resolve_left hout
  rw [← hsplit, List.pairwise_append] at hpair
  exact Scored.dist_le_of_le (hpair.2.2 s hin _ (List.mem_singleton_self _))

/-- What is no nearer than a heap is no nearer than what it becomes. -/
theorem dist_le_of_mem_pushPopMax {a s : Scored F ι} {h : List (Scored F ι)} {d : F}
    (hs : h.Pairwise (· < ·)) (ha : a ∉ h) (hd : ∀ t ∈ h, t.dist ≤ d)
    (hin : s ∈ pushPopMax a h) : s.dist ≤ d := by
  rcases mem_of_mem_pushPopMax hin with rfl | hmem
  · -- the new point stays, so an old one that is no nearer has left
    obtain ⟨t, ht, hout⟩ : ∃ t ∈ h, t ∉ pushPopMax s h := by
      by_contra hall
      push Not at hall
      have hsub : s :: h ⊆ pushPopMax s h := List.cons_subset.mpr ⟨hin, hall⟩
      have hnd : (s :: h).Nodup := List.nodup_cons.mpr ⟨ha, hs.imp ne_of_lt⟩
      have hlen := (hnd.subperm hsub).length_le
      rw [length_pushPopMax, List.length_cons] at hlen
      omega
    exact (le_of_notMem_pushPopMax hs (mem_push.mpr (Or.inr ht)) hout hin).trans (hd t ht)
  · exact hd s hmem

/-! ## One step -/

theorem Tidy.see {st : State F ι} (h : Tidy P dist eps old st) (p : ι) :
    Tidy P dist eps old (st.see p) where
  base q hq := Finset.mem_insert_of_mem (h.base q hq)
  sorted := h.sorted
  sound s hs := ⟨(h.sound s hs).1, Finset.mem_insert_of_mem (h.sound s hs).2⟩
  width := h.width

theorem Tidy.takeIn {st st' : State F ι} (h : Tidy P dist eps old st) {p : ι}
    (hfresh : (⟨dist p, p⟩ : Scored F ι) ∉ st.res) (ht : TakesIn P ⟨dist p, p⟩ st st')
    (hwidth : st'.res.length ≤ P.ef) : Tidy P dist eps old st' := by
  refine ⟨fun q hq => ?_, ht.sorted h.sorted hfresh, fun s hs => ?_, hwidth⟩
  · rw [ht.seen]
    exact Finset.mem_insert_of_mem (h.base q hq)
  · rw [ht.seen]
    rcases ht.res s hs with ⟨rfl, -⟩ | hs
    · exact ⟨rfl, Finset.mem_insert_self _ _⟩
    · exact ⟨(h.sound s hs).1, Finset.mem_insert_of_mem (h.sound s hs).2⟩

theorem Tidy.offer {st : State F ι} (h : Tidy P dist eps old st) (b : F) (p : ι) :
    Tidy P dist eps old (st.offer P dist b p) := by
  by_cases hp : p ∈ st.seen
  · rwa [State.offer, if_pos hp]
  refine h.takeIn (fun hmem => hp (h.sound _ hmem).2) (takesIn_offer b hp) ?_
  rw [State.offer, if_neg hp]
  exact length_res_accept_le (h.see p).width _

theorem Tidy.advance {m m' : Moment F ι} (h : Tidy P dist eps old m.state)
    (hm : Advance P dist known answers m m') : Tidy P dist eps old m'.state := by
  cases hm with
  | offer => exact h.offer _ _
  | skip => exact h.see _
  | round => exact ⟨h.base, h.sorted, h.sound, h.width⟩

theorem hasScored_insert {p q : ι} {seen : Finset ι} :
    HasScored known eps old (insert p seen) q →
      (q = p ∧ known p) ∨ HasScored known eps old seen q := by
  rintro (h | ⟨h, hq, hk⟩)
  · exact Or.inr (Or.inl h)
  · rcases Finset.mem_insert.mp h with rfl | h
    · exact Or.inl ⟨rfl, hk⟩
    · exact Or.inr (Or.inr ⟨h, hq, hk⟩)

section inserted

variable {ef : Nat} {p : ι} {seen : Finset ι} {res : List (Scored F ι)}

/-- While there is room everything scored so far is a result. -/
theorem KeepsNearest.push (h : KeepsNearest dist known ef eps old seen res)
    (hroom : res.length < ef) :
    KeepsNearest dist known ef eps old (insert p seen) (push ⟨dist p, p⟩ res) := by
  intro q hq
  refine Or.inl (mem_push.mpr ?_)
  rcases hasScored_insert hq with ⟨rfl, -⟩ | hq
  · exact Or.inl rfl
  · exact Or.inr ((h q hq).resolve_right fun hfull => hfull.1.not_gt hroom)

/-- A point that comes into a full heap pushes out one that is no nearer than what stays. -/
theorem KeepsNearest.pushPopMax (h : KeepsNearest dist known ef eps old seen res)
    (hsorted : res.Pairwise (· < ·)) (hfresh : (⟨dist p, p⟩ : Scored F ι) ∉ res)
    (hfull : res.length = ef) :
    KeepsNearest dist known ef eps old (insert p seen) (pushPopMax ⟨dist p, p⟩ res) := by
  intro q hq
  by_cases hin : (⟨dist q, q⟩ : Scored F ι) ∈ Library.pushPopMax ⟨dist p, p⟩ res
  · exact Or.inl hin
  refine Or.inr ⟨((length_pushPopMax _ _).trans hfull).ge, fun s hs => ?_⟩
  have hwas : (⟨dist q, q⟩ : Scored F ι) ∈ Library.push ⟨dist p, p⟩ res ∨
      ∀ t ∈ res, t.dist ≤ dist q := by
    rcases hasScored_insert hq with ⟨rfl, -⟩ | hq
    · exact Or.inl (mem_push.mpr (Or.inl rfl))
    · exact (h q hq).imp (fun hmem => mem_push.mpr (Or.inr hmem)) And.right
  rcases hwas with hmem | hall
  · exact le_of_notMem_pushPopMax hsorted hmem hin hs
  · exact dist_le_of_mem_pushPopMax hsorted hfresh hall hs

/-- A point that is left out of a full heap may not be nearer than a result. -/
theorem keepsNearest_insert_iff (h : KeepsNearest dist known ef eps old seen res)
    (hscored : HasScored known eps old (insert p seen) p)
    (hfresh : (⟨dist p, p⟩ : Scored F ι) ∉ res) (hfull : res.length = ef) :
    KeepsNearest dist known ef eps old (insert p seen) res ↔ ∀ s ∈ res, s.dist ≤ dist p := by
  constructor
  · exact fun hkept => ((hkept p hscored).resolve_left hfresh).2
  · intro hnear q hq
    rcases hasScored_insert hq with ⟨rfl, -⟩ | hq
    · exact Or.inr ⟨hfull.ge, hnear⟩
    · exact h q hq

end inserted

/-- **An offer keeps the nearest points exactly when it does not refuse a nearer one.** -/
theorem Advance.keepsNearest_iff (hkeep : ∀ p, P.keep p = true) {m m' : Moment F ι}
    (hm : Advance P dist known answers m m') (ht : Tidy P dist eps old m.state)
    (h : KeepsNearest dist known P.ef eps old m.state.seen m.state.res) :
    KeepsNearest dist known P.ef eps old m'.state.seen m'.state.res ↔
      ¬ m.Refuses P dist known := by
  cases hm with
  | skip hunknown =>
    rename_i b p todo st
    refine iff_of_true (fun q hq => ?_) ?_
    · rcases hasScored_insert hq with ⟨-, hk⟩ | hq
      · exact absurd hk hunknown
      · exact h q hq
    · rintro ⟨q, hq, -, hk, -⟩
      cases hq
      exact hunknown hk
  | round hq hopen hl =>
    refine iff_of_true h ?_
    rintro ⟨q, hq, -⟩
    cases hq
  | offer hp =>
    rename_i b p todo st
    by_cases hseen : p ∈ st.seen
    · have hsame : st.offer P dist b p = st := if_pos hseen
      simp only [hsame]
      refine iff_of_true h ?_
      rintro ⟨q, hq, hnew, -⟩
      cases hq
      exact hnew hseen
    have hknown := hp.resolve_left hseen
    have hfresh : (⟨dist p, p⟩ : Scored F ι) ∉ st.res := fun hmem => hseen (ht.sound _ hmem).2
    have hscored : HasScored known eps old (insert p st.seen) p :=
      Or.inr ⟨Finset.mem_insert_self _ _, fun ho => hseen (ht.base p (Or.inr ho)), hknown⟩
    simp only [State.offer, if_neg hseen, seen_accept, seen_see]
    by_cases hroom : st.res.length < P.ef
    · rw [accept_of_room (by simpa using hroom), if_pos (hkeep _)]
      refine iff_of_true (h.push hroom) ?_
      rintro ⟨q, -, -, -, hfull, -⟩
      exact hfull.not_gt hroom
    have hfull : st.res.length = P.ef := le_antisymm ht.width (Nat.le_of_not_lt hroom)
    by_cases hnear : P.flt (dist p) b = true
    · -- the heap is full and the point comes in
      rw [accept_of_near (by simpa using hfull) hnear (hkeep _), res_see]
      refine iff_of_true (h.pushPopMax ht.sorted hfresh hfull) ?_
      rintro ⟨q, hq, -, -, -, hfar, -⟩
      cases hq
      rw [hnear] at hfar
      cases hfar
    · -- the point is refused: it may not be nearer than a result
      rw [accept_of_far (by simpa using hroom) hnear, res_see,
        keepsNearest_insert_iff h hscored hfresh hfull]
      constructor
      · rintro hall ⟨q, hq, -, -, -, -, s, hs, hlt⟩
        cases hq
        exact (hall s hs).not_gt hlt
      · intro hno s hs
        by_contra hlt
        exact hno ⟨p, rfl, hseen, hknown, hfull.ge, Bool.eq_false_iff.mpr hnear, s, hs,
          lt_of_not_ge hlt⟩

/-! ## The entry points -/

/-- Registering entry points that are not seen yet, as far as there is room. -/
theorem Tidy.seed (hkeep : ∀ p, P.keep p = true) {st : State F ι} (h : Tidy P dist [] old st)
    {p : ι} (hp : ∀ s ∈ st.res, s.id ≠ p) (hroom : st.res.length < P.ef) :
    Tidy P dist [] old (st.seed P ⟨dist p, p⟩) := by
  refine h.takeIn (fun hmem => hp _ hmem rfl) (takesIn_seed st _) ?_
  rw [res_seed, if_pos (hkeep _), length_push]
  exact hroom

/-- What registering entry points leaves. -/
structure Seeded (P : Params F ι) (dist : ι → F) (old : Finset ι) (eps : List ι)
    (start : State F ι) : Prop where
  tidy : Tidy P dist [] old start
  res : ∀ s, s ∈ start.res ↔ ∃ p ∈ eps, s = ⟨dist p, p⟩
  seen : ∀ p, p ∈ start.seen ↔ p ∈ old ∨ p ∈ eps
  length : start.res.length = eps.length

theorem Seeded.nil (old : Finset ι) : Seeded P dist old [] ⟨[], [], old⟩ where
  tidy := ⟨fun _ hp => hp.resolve_left List.not_mem_nil, .nil,
    fun _ hs => absurd hs List.not_mem_nil, Nat.zero_le _⟩
  res := fun s => by simp
  seen := fun p => by simp
  length := rfl

theorem Seeded.snoc (hkeep : ∀ p, P.keep p = true) {st : State F ι}
    (h : Seeded P dist old eps st) {p : ι} (hp : p ∉ eps) (hroom : eps.length < P.ef) :
    Seeded P dist old (eps ++ [p]) (st.seed P ⟨dist p, p⟩) := by
  have hres : (st.seed P ⟨dist p, p⟩).res = push ⟨dist p, p⟩ st.res := by
    rw [res_seed, if_pos (hkeep _)]
  refine ⟨h.tidy.seed hkeep (fun s hs => ?_) (h.length ▸ hroom), fun s => ?_, fun q => ?_, ?_⟩
  · obtain ⟨q, hq, rfl⟩ := (h.res s).mp hs
    rintro rfl
    exact hp hq
  · rw [hres, mem_push, h.res]
    simp only [List.mem_append, List.mem_singleton, or_and_right, exists_or, exists_eq_left]
    exact or_comm
  · rw [seen_seed, Finset.mem_insert, h.seen]
    simp only [List.mem_append, List.mem_singleton]
    tauto
  · rw [hres, length_push, h.length, List.length_append, List.length_singleton]

theorem Seeded.seedAll (hkeep : ∀ p, P.keep p = true) :
    ∀ {l done : List ι} {st : State F ι}, (done ++ l).Nodup → (done ++ l).length ≤ P.ef →
      Seeded P dist old done st → Seeded P dist old (done ++ l) (st.seedAll P dist l)
  | [], done, st, _, _, hs => by rwa [List.append_nil]
  | p :: l, done, st, hnd, hlen, hs => by
    rw [List.append_cons] at hnd hlen ⊢
    have hnd' := (List.nodup_append.mp hnd).1
    have hp : p ∉ done := fun hmem => by
      have := (List.nodup_append.mp hnd').2.2 p hmem p (List.mem_singleton_self p)
      exact this rfl
    have hroom : done.length < P.ef := by
      simp only [List.length_append, List.length_singleton] at hlen
      omega
    exact Seeded.seedAll hkeep hnd hlen (hs.snoc hkeep hp hroom)

/-- **The start of a search** from distinct entry points, no more than the heap is wide. -/
theorem seeded_seedAll (hkeep : ∀ p, P.keep p = true) (hnd : eps.Nodup)
    (hlen : eps.length ≤ P.ef) : Seeded P dist old eps (State.seedAll P dist eps ⟨[], [], old⟩) :=
  Seeded.seedAll hkeep (l := eps) (by simpa using hnd) (by simpa using hlen) (.nil old)

theorem Seeded.tidy_eps (h : Seeded P dist old eps start) : Tidy P dist eps old start where
  base := fun p hp => (h.seen p).mpr hp.symm
  sorted := h.tidy.sorted
  sound := h.tidy.sound
  width := h.tidy.width

theorem Seeded.keepsNearest (h : Seeded P dist old eps start) :
    KeepsNearest dist known P.ef eps old start.seen start.res := by
  intro p hp
  refine Or.inl ((h.res _).mpr ⟨p, ?_, rfl⟩)
  rcases hp with hp | ⟨hp, hold, -⟩
  · exact hp
  · exact ((h.seen p).mp hp).resolve_left hold

/-! ## A whole search -/

/-- The offers of a round. -/
theorem Trail.offers {ε : Type} {step : State F ι → ι → Except ε (State F ι)} {b : F}
    (hstep : ∀ st p st', step st p = .ok st' → ∀ todo,
      Advance P dist known answers ⟨b, p :: todo, st⟩ ⟨b, todo, st'⟩) :
    ∀ {l : List ι} {st st' : State F ι} {ms : List (Moment F ι)}, l.foldlM step st = .ok st' →
      Trail P dist known answers start (⟨b, l, st⟩ :: ms) →
        ∃ ms', Trail P dist known answers start (⟨b, [], st'⟩ :: ms')
  | [], st, st', ms, h, htrail => by
    cases h
    exact ⟨ms, htrail⟩
  | p :: l, st, st', ms, h, htrail => by
    obtain ⟨mid, hmid, h⟩ := Txn.ok_bind_iff.mp h
    exact Trail.offers hstep h (htrail.step (hstep _ _ _ hmid l))

theorem Trail.tidy (hstart : Tidy P dist eps old start) {ms : List (Moment F ι)}
    (h : Trail P dist known answers start ms) : ∀ m ∈ ms, Tidy P dist eps old m.state := by
  induction h with
  | start =>
    intro m hm
    rw [List.mem_singleton.mp hm]
    exact hstart
  | step _ hm ih =>
    refine List.forall_mem_cons.mpr ⟨?_, ih⟩
    exact (ih _ List.mem_cons_self).advance hm

/-- **A search keeps the nearest points all along** exactly when no offer refuses a nearer one. -/
theorem Trail.keepsNearest_iff (hkeep : ∀ p, P.keep p = true)
    (hstart : Tidy P dist eps old start)
    (hkept : KeepsNearest dist known P.ef eps old start.seen start.res) {m : Moment F ι}
    {ms : List (Moment F ι)} (h : Trail P dist known answers start (m :: ms)) :
    (∀ m' ∈ m :: ms, KeepsNearest dist known P.ef eps old m'.state.seen m'.state.res) ↔
      ∀ m' ∈ ms, ¬ m'.Refuses P dist known := by
  generalize hall : m :: ms = all at h
  induction h generalizing m ms with
  | start =>
    cases hall
    refine iff_of_true (fun m hm => ?_) fun m hm => absurd hm List.not_mem_nil
    rw [List.mem_singleton.mp hm]
    exact hkept
  | step htrail hadv ih =>
    cases hall
    have ih := ih rfl
    have ht := htrail.tidy hstart _ List.mem_cons_self
    constructor
    · intro h
      obtain ⟨hnow, hbefore⟩ := List.forall_mem_cons.mp h
      exact List.forall_mem_cons.mpr
        ⟨(hadv.keepsNearest_iff hkeep ht (hbefore _ List.mem_cons_self)).mp hnow, ih.mp hbefore⟩
    · intro h
      obtain ⟨hoffer, hoffers⟩ := List.forall_mem_cons.mp h
      have hbefore := ih.mpr hoffers
      exact List.forall_mem_cons.mpr
        ⟨(hadv.keepsNearest_iff hkeep ht (hbefore _ List.mem_cons_self)).mpr hoffer, hbefore⟩

/-! ## The width -/

theorem le_length_res_offer (b : F) (st : State F ι) (p : ι) :
    st.res.length ≤ (st.offer P dist b p).res.length := by
  unfold State.offer
  split_ifs
  · exact le_rfl
  · exact le_length_res_accept b (st.see p) _

/-- A heap never gets smaller. -/
theorem Advance.le_length {m m' : Moment F ι} (hm : Advance P dist known answers m m') :
    m.state.res.length ≤ m'.state.res.length := by
  cases hm with
  | offer => exact le_length_res_offer _ _ _
  | skip => exact le_rfl
  | round => exact le_rfl

/-- A point makes a heap larger unless it is refused, filtered out or replaces another one. -/
def State.Grows (P : Params F ι) (b : F) (st : State F ι) (s : Scored F ι) : Prop :=
  (st.res.length < P.ef ∨ P.flt s.dist b = true) ∧ P.keep s.id = true ∧ st.res.length ≠ P.ef

theorem length_res_accept (b : F) (st : State F ι) (s : Scored F ι) :
    (st.Grows P b s ∧ (st.accept P b s).res.length = st.res.length + 1) ∨
      (¬ st.Grows P b s ∧ (st.accept P b s).res.length = st.res.length) := by
  unfold State.accept State.Grows
  simp only [Bool.or_eq_true, decide_eq_true_eq]
  split_ifs <;> simp_all [length_pushPopMax]

/-- **An offer keeps to a width exactly when it does not overflow.** -/
theorem Advance.length_le_iff {m m' : Moment F ι} (hm : Advance P dist known answers m m')
    {width : Nat} (hef : P.ef ≤ width) (h : m.state.res.length ≤ width) :
    m'.state.res.length ≤ width ↔ ¬ m.Overflows P dist known width := by
  cases hm with
  | skip hunknown =>
    refine iff_of_true h ?_
    rintro ⟨q, hq, -, hk, -⟩
    cases hq
    exact hunknown hk
  | round =>
    refine iff_of_true h ?_
    rintro ⟨q, hq, -⟩
    cases hq
  | offer hp =>
    rename_i b p todo st
    by_cases hseen : p ∈ st.seen
    · have hsame : st.offer P dist b p = st := if_pos hseen
      simp only [hsame]
      refine iff_of_true h ?_
      rintro ⟨q, hq, hnew, -⟩
      cases hq
      exact hnew hseen
    have hknown := hp.resolve_left hseen
    have hoverflows : Moment.Overflows P dist known ⟨b, p :: todo, st⟩ width ↔
        P.keep p = true ∧ P.flt (dist p) b = true ∧ P.ef < width ∧ st.res.length = width := by
      simp [Moment.Overflows, hseen, hknown]
    rw [hoverflows]
    simp only [State.offer, if_neg hseen] at h ⊢
    rcases length_res_accept (P := P) b (st.see p) ⟨dist p, p⟩ with ⟨hgrows, hlen⟩ | ⟨hgrows, hlen⟩
    · rw [hlen, res_see]
      obtain ⟨hnear, hkeep, hne⟩ := hgrows
      rw [res_see] at hnear hne
      -- one more result: the heap was either smaller than the width or at it
      constructor
      · rintro hle ⟨-, -, -, heq⟩
        omega
      · intro hno
        by_contra hgt
        have heq : st.res.length = width := by omega
        refine hno ⟨hkeep, hnear.resolve_left ?_, ?_, heq⟩ <;> omega
    · rw [hlen, res_see]
      refine iff_of_true h ?_
      rintro ⟨hkeep, hnear, hlt, heq⟩
      exact hgrows ⟨Or.inr hnear, hkeep, by rw [res_see]; omega⟩

/-- **A search keeps to a width** exactly when no offer overflows. -/
theorem Trail.length_le_iff {width : Nat} (hef : P.ef ≤ width) (hstart : start.res.length ≤ width)
    {m : Moment F ι} {ms : List (Moment F ι)}
    (h : Trail P dist known answers start (m :: ms)) :
    m.state.res.length ≤ width ↔ ∀ m' ∈ ms, ¬ m'.Overflows P dist known width := by
  generalize hall : m :: ms = all at h
  induction h generalizing m ms with
  | start =>
    cases hall
    exact iff_of_true hstart fun m hm => absurd hm List.not_mem_nil
  | step htrail hadv ih =>
    cases hall
    have ih := ih rfl
    constructor
    · intro h
      have hbefore := hadv.le_length.trans h
      exact List.forall_mem_cons.mpr ⟨(hadv.length_le_iff hef hbefore).mp h, ih.mp hbefore⟩
    · intro h
      obtain ⟨hoffer, hoffers⟩ := List.forall_mem_cons.mp h
      exact (hadv.length_le_iff hef (ih.mpr hoffers)).mpr hoffer

/-! ## A crowded start -/

section crowded

variable {nbrs : ι → List ι}

/-- A new point that is nearer than the worst result at the start. -/
def Nearer (P : Params F ι) (dist : ι → F) (known : ι → Prop) (start : State F ι) (p : ι) : Prop :=
  p ∉ start.seen ∧ known p ∧ P.flt (dist p) (start.worst P) = true

/-- No point has come into the heap or the queue since the start. -/
structure Unmoved (P : Params F ι) (dist : ι → F) (known : ι → Prop) (nbrs : ι → List ι)
    (start : State F ι) (m : Moment F ι) : Prop where
  res : m.state.res = start.res
  bound : m.todo ≠ [] → m.bound = start.worst P
  queue : ∀ c ∈ m.state.queue, c ∈ start.queue
  base : start.seen ⊆ m.state.seen
  seen : ∀ p ∈ m.state.seen, ¬ Nearer P dist known start p
  todo : ∀ p ∈ m.todo, ∃ c ∈ start.queue, p ∈ nbrs (OrderDual.ofDual c.id)
  closed : ∀ c ∈ start.queue, c ∈ m.state.queue ∨
    ∀ q ∈ nbrs (OrderDual.ofDual c.id), q ∈ m.state.seen ∨ q ∈ m.todo

omit [LinearOrder F] [LinearOrder ι] in
theorem Unmoved.refl : Unmoved P dist known nbrs start ⟨P.top, [], start⟩ where
  res := rfl
  bound h := absurd rfl h
  queue _ hc := hc
  base := Finset.Subset.refl _
  seen _ hp h := h.1 hp
  todo _ hp := absurd hp List.not_mem_nil
  closed _ hc := Or.inl hc

omit [LinearOrder F] [LinearOrder ι] in
theorem worst_congr {st st' : State F ι} (h : st.res = st'.res) : st.worst P = st'.worst P := by
  rw [State.worst, State.worst, h]

omit [LinearOrder F] in
/-- The next neighbour is only marked as seen. -/
theorem Unmoved.see {b : F} {p : ι} {todo : List ι} {st : State F ι}
    (h : Unmoved P dist known nbrs start ⟨b, p :: todo, st⟩)
    (hp : ¬ Nearer P dist known start p) :
    Unmoved P dist known nbrs start ⟨b, todo, st.see p⟩ where
  res := h.res
  bound _ := h.bound (List.cons_ne_nil _ _)
  queue := h.queue
  base := h.base.trans (Finset.subset_insert _ _)
  seen q hq := by
    rcases Finset.mem_insert.mp hq with rfl | hq
    · exact hp
    · exact h.seen q hq
  todo q hq := h.todo q (List.mem_cons_of_mem _ hq)
  closed c hc := (h.closed c hc).imp_right fun hall q hq => by
    rcases hall q hq with hseen | htodo
    · exact Or.inl (Finset.mem_insert_of_mem hseen)
    · exact (List.mem_cons.mp htodo).imp_left fun heq => Finset.mem_insert.mpr (Or.inl heq)

/-- **A step of a crowded search** moves nothing, unless it takes in a point nearer than the worst
result at the start. -/
theorem Unmoved.advance (hkeep : ∀ p, P.keep p = true) (hcrowded : P.ef < start.res.length)
    {m m' : Moment F ι} (hm : Advance P dist known (fun p l => l = nbrs p) m m')
    (h : Unmoved P dist known nbrs start m) :
    Unmoved P dist known nbrs start m' ∨
      start.res.length < m'.state.res.length ∧
        ∃ c ∈ start.queue, ∃ p ∈ nbrs (OrderDual.ofDual c.id), Nearer P dist known start p := by
  cases hm with
  | skip hunknown => exact Or.inl (h.see fun hp => hunknown hp.2.1)
  | round hq hopen hl =>
    rename_i b st c rest l
    subst hl
    have hc : c ∈ start.queue := h.queue c (by simp [hq])
    refine Or.inl ⟨h.res, fun _ => worst_congr h.res, fun a ha => h.queue a ?_, h.base, h.seen,
      fun p hp => ⟨c, hc, hp⟩, fun a ha => ?_⟩
    · exact hq ▸ List.mem_cons_of_mem _ ha
    · rcases h.closed a ha with hmem | hall
      · rw [hq] at hmem
        rcases List.mem_cons.mp hmem with rfl | hmem
        · exact Or.inr fun q hq => Or.inr hq
        · exact Or.inl hmem
      · exact Or.inr fun q hq => Or.inl ((hall q hq).resolve_right List.not_mem_nil)
  | offer hp =>
    rename_i b p todo st
    have hbound : b = start.worst P := h.bound (List.cons_ne_nil _ _)
    by_cases hseen : p ∈ st.seen
    · have hsee : st.see p = st := by rw [State.see, Finset.insert_eq_of_mem hseen]
      rw [State.offer, if_pos hseen]
      exact Or.inl (hsee ▸ h.see (h.seen p hseen))
    have hfull : ¬ st.res.length < P.ef := by rw [h.res]; omega
    rw [State.offer, if_neg hseen]
    by_cases hnear : P.flt (dist p) b = true
    · right
      obtain ⟨c, hc, hpc⟩ := h.todo p List.mem_cons_self
      refine ⟨?_, c, hc, p, hpc, fun hmem => hseen (h.base hmem), hp.resolve_left hseen,
        hbound ▸ hnear⟩
      rcases length_res_accept (P := P) b (st.see p) ⟨dist p, p⟩ with ⟨-, hlen⟩ | ⟨hno, -⟩
      · rw [hlen, res_see, h.res]
        exact Nat.lt_succ_self _
      · refine absurd ⟨Or.inr hnear, hkeep p, ?_⟩ hno
        rw [res_see, h.res]
        exact hcrowded.ne'
    · rw [accept_of_far (by simpa using hfull) hnear]
      exact Or.inl (h.see fun hp => hnear (hbound ▸ hp.2.2))

/-- **A search that starts crowded** and goes on until it is stopped keeps its heap exactly when no
neighbour of a queued point is new and nearer than the worst result. -/
theorem Trail.crowded_iff (hkeep : ∀ p, P.keep p = true) (hcrowded : P.ef < start.res.length)
    (hreach : ∀ c ∈ start.queue, P.flt (start.worst P) c.dist = false) {b : F} {st : State F ι}
    {ms : List (Moment F ι)}
    (h : Trail P dist known (fun p l => l = nbrs p) start (⟨b, [], st⟩ :: ms))
    (hstop : st.Stopped P) :
    st.res.length ≤ start.res.length ↔
      ∀ c ∈ start.queue, ∀ p ∈ nbrs (OrderDual.ofDual c.id), ¬ Nearer P dist known start p := by
  have hcases : ∀ {m ms}, Trail P dist known (fun p l => l = nbrs p) start (m :: ms) →
      Unmoved P dist known nbrs start m ∨ start.res.length < m.state.res.length ∧
        ∃ c ∈ start.queue, ∃ p ∈ nbrs (OrderDual.ofDual c.id), Nearer P dist known start p := by
    intro m ms h
    generalize hall : m :: ms = all at h
    induction h generalizing m ms with
    | start =>
      cases hall
      exact Or.inl .refl
    | step _ hadv ih =>
      cases hall
      rcases ih rfl with h | ⟨hlt, hex⟩
      · exact h.advance hkeep hcrowded hadv
      · exact Or.inr ⟨hlt.trans_le hadv.le_length, hex⟩
  rcases hcases h with hunmoved | ⟨hlt, c, hc, p, hp, hnear⟩
  · refine iff_of_true (hunmoved.res ▸ le_rfl) fun c hc p hp => hunmoved.seen p ?_
    -- nothing is queued any more: a point queued at the start is under the bound
    have hempty : st.queue = [] := by
      cases hq : st.queue with
      | nil => rfl
      | cons a rest =>
        have hfar := hstop a (by rw [hq]; rfl)
        rw [worst_congr hunmoved.res, hreach a (hunmoved.queue a (by simp [hq]))] at hfar
        cases hfar
    have hclosed := (hunmoved.closed c hc).resolve_left (by simp [hempty])
    exact (hclosed p hp).resolve_right List.not_mem_nil
  · exact iff_of_false hlt.not_ge fun hno => hno c hc p hp hnear

end crowded

end Hannoy.Library.Beam
