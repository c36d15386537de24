import Hannoy.Library.Offers

/-!
# Points seen before a beam search

A pass skips the points it has seen, also those seen before it began. When its heap is full from
the start and holds nothing farther than such a point, skipping the point makes no difference: it
would be refused.

* `Surveyed`: nothing that was seen is nearer than the nearest result. A pass without a filter keeps
  this.
* `recall`: the same state with more points seen.
* `Pass.recall`: a pass that begins with a full heap takes the same course after recalling points
  that are no nearer than any of its results.
-/

namespace Hannoy.Library.Beam

variable {F ι : Type} [LinearOrder F] [LinearOrder ι] {P : Params F ι} {dist : ι → F}
  {nbrs : ι → List ι} {Q : ι → Prop} {old : Finset ι}

/-! ## The order of the heap -/

/-- The heap is in order and holds seen points with their distances; it and the queue hold points
of `Q` only. -/
structure Neat (dist : ι → F) (Q : ι → Prop) (st : State F ι) : Prop where
  sorted : st.res.Pairwise (· < ·)
  sound : ∀ s ∈ st.res, s.dist = dist s.id ∧ s.id ∈ st.seen
  within : Within Q st

theorem Neat.empty (old : Finset ι) : Neat dist Q ⟨[], [], old⟩ where
  sorted := .nil
  sound _ hs := absurd hs List.not_mem_nil
  within := .empty old

theorem Neat.takeIn {st st' : State F ι} (h : Neat dist Q st) {p : ι} (hp : Q p)
    (hfresh : (⟨dist p, p⟩ : Scored F ι) ∉ st.res) (ht : TakesIn P ⟨dist p, p⟩ st st') :
    Neat dist Q st' := by
  refine ⟨ht.sorted h.sorted hfresh, fun s hs => ?_, h.within.takeIn hp ht⟩
  rw [ht.seen]
  rcases ht.res s hs with ⟨rfl, -⟩ | hs
  · exact ⟨rfl, Finset.mem_insert_self _ _⟩
  · exact ⟨(h.sound s hs).1, Finset.mem_insert_of_mem (h.sound s hs).2⟩

theorem Neat.seed {st : State F ι} (h : Neat dist Q st) {p : ι} (hp : Q p)
    (hnew : ∀ s ∈ st.res, s.id ≠ p) : Neat dist Q (st.seed P ⟨dist p, p⟩) :=
  h.takeIn hp (fun hmem => hnew _ hmem rfl) (takesIn_seed st _)

theorem Neat.offer {st : State F ι} (h : Neat dist Q st) (b : F) {p : ι} (hp : Q p) :
    Neat dist Q (st.offer P dist b p) := by
  by_cases hseen : p ∈ st.seen
  · rwa [State.offer, if_pos hseen]
  · exact h.takeIn hp (fun hmem => hseen (h.sound _ hmem).2) (takesIn_offer b hseen)

/-- The bound of a round is the distance of a result, and no result is farther. -/
theorem Neat.worst {st : State F ι} (h : Neat dist Q st) (hne : st.res ≠ []) :
    ∃ m, Q m ∧ st.worst P = dist m ∧ (⟨dist m, m⟩ : Scored F ι) ∈ st.res := by
  cases htop : st.res.getLast? with
  | none => exact absurd (List.getLast?_eq_none_iff.mp htop) hne
  | some top =>
    have hmem := List.mem_of_getLast? htop
    refine ⟨top.id, h.within.res top hmem, ?_, ?_⟩
    · rw [State.worst, htop]
      exact (h.sound top hmem).1
    · rw [← (h.sound top hmem).1]
      exact hmem

/-- **Rounds.** What the offers of a round keep, under the bound of the round, a pass keeps. -/
theorem Pass.round_invariant {J : State F ι → Prop} {K : F → State F ι → Prop}
    (hopen : ∀ {st c rest}, st.queue = c :: rest → J st →
      K (st.worst P) { st with queue := rest })
    (hoffer : ∀ {st b p}, Q p → K b st → K b (st.offer P dist b p))
    (hclose : ∀ {st b}, K b st → J st) (hwithin : ∀ {st}, J st → Within Q st)
    (hnbrs : ∀ p, Q p → ∀ q ∈ nbrs p, Q q) {st st' : State F ι} (h : Pass P dist nbrs st st')
    (hj : J st) : J st' := by
  have hfold : ∀ {l : List ι} {b : F} {st : State F ι}, (∀ p ∈ l, Q p) → K b st →
      K b (l.foldl (State.offer P dist b) st) := by
    intro l
    induction l with
    | nil => exact fun _ h => h
    | cons p l ih =>
      intro b st hl h
      obtain ⟨hp, hl⟩ := List.forall_mem_cons.mp hl
      exact ih hl (hoffer hp h)
  induction h with
  | refl => exact hj
  | head _ _ ih =>
    refine ih ?_
    unfold State.expand
    split
    · exact hj
    · next c rest hq =>
      refine hclose (hfold (hnbrs _ ?_) (hopen hq hj))
      exact (hwithin hj).queue c (by rw [hq]; exact List.mem_cons_self)

/-! ## The nearest result -/

theorem exists_head_le {a : Scored F ι} {h : List (Scored F ι)} (hs : h.Pairwise (· < ·))
    (ha : a ∈ h) : ∃ s ∈ h.head?, s ≤ a := by
  cases h with
  | nil => exact absurd ha List.not_mem_nil
  | cons s l =>
    refine ⟨s, rfl, ?_⟩
    rcases List.mem_cons.mp ha with rfl | ha
    · exact le_rfl
    · exact ((List.pairwise_cons.mp hs).1 a ha).le

/-- Some result, so the nearest one, is at most `d` away. -/
def Reaches (d : F) (st : State F ι) : Prop := ∃ s ∈ st.res.head?, s.dist ≤ d

theorem Reaches.offer {d : F} {st : State F ι} (h : Reaches d st) (b : F) (p : ι) :
    Reaches d (st.offer P dist b p) := by
  obtain ⟨s, hs, hd⟩ := h
  obtain ⟨t, ht, hts⟩ : ∃ t ∈ (st.offer P dist b p).res.head?, t ≤ s :=
    res_foldl_offer_invariant (J := fun l => ∃ t ∈ l.head?, t ≤ s)
      (fun a _ hl => exists_head_push hl a) (fun a _ hl => exists_head_pushPopMax hl a) b
      (l := [p]) ⟨s, hs, le_rfl⟩
  exact ⟨t, ht, (Scored.dist_le_of_le hts).trans hd⟩

/-- There is a result, and no seen point, all of which are in `Q`, is nearer than the nearest
one. -/
structure Surveyed (dist : ι → F) (Q : ι → Prop) (st : State F ι) : Prop where
  neat : Neat dist Q st
  nonempty : st.res ≠ []
  near : ∀ p ∈ st.seen, Q p ∧ Reaches (dist p) st

/-- Entry points that are distinct, when nothing seen before is nearer than all of them. -/
theorem surveyed_seedAll (hkeep : ∀ p, P.keep p = true) {eps : List ι} (hne : eps ≠ [])
    (hnd : eps.Nodup) (heps : ∀ p ∈ eps, Q p)
    (hold : ∀ p ∈ old, Q p ∧ ∃ ep ∈ eps, dist ep ≤ dist p) :
    Surveyed dist Q (State.seedAll P dist eps ⟨[], [], old⟩) := by
  have hneat : ∀ {l : List ι} {st : State F ι}, l.Nodup → (∀ p ∈ l, Q p) →
      (∀ p ∈ l, ∀ s ∈ st.res, s.id ≠ p) → Neat dist Q st → Neat dist Q (st.seedAll P dist l) := by
    intro l
    induction l with
    | nil => exact fun _ _ _ h => h
    | cons p l ih =>
      intro st hnd hl hnew h
      obtain ⟨hp, hnd⟩ := List.nodup_cons.mp hnd
      obtain ⟨hQ, hl⟩ := List.forall_mem_cons.mp hl
      refine ih hnd hl (fun q hq s hs => ?_) (h.seed hQ (hnew p List.mem_cons_self))
      rw [res_seed, if_pos (hkeep _), mem_push] at hs
      rcases hs with rfl | hs
      · rintro rfl
        exact hp hq
      · exact hnew q (List.mem_cons_of_mem _ hq) s hs
  have hneat := hneat hnd heps (fun _ _ _ hs => absurd hs List.not_mem_nil) (.empty old)
  have hreach : ∀ ep ∈ eps, Reaches (dist ep) (State.seedAll P dist eps ⟨[], [], old⟩) := by
    intro ep hep
    have hmem : (⟨dist ep, ep⟩ : Scored F ι) ∈ (State.seedAll P dist eps ⟨[], [], old⟩).res := by
      rw [res_seedAll_of_keep hkeep, mem_pushAll]
      exact Or.inl (List.mem_map.mpr ⟨ep, hep, rfl⟩)
    obtain ⟨s, hs, hle⟩ := exists_head_le hneat.sorted hmem
    exact ⟨s, hs, Scored.dist_le_of_le hle⟩
  refine ⟨hneat, ?_, fun p hp => ?_⟩
  · obtain ⟨ep, hep⟩ := List.exists_mem_of_ne_nil eps hne
    obtain ⟨s, hs, -⟩ := hreach ep hep
    exact List.ne_nil_of_mem (List.mem_of_mem_head? hs)
  · rw [seen_seedAll, Finset.mem_union, List.mem_toFinset] at hp
    rcases hp with hp | hp
    · obtain ⟨hQ, ep, hep, hle⟩ := hold p hp
      obtain ⟨s, hs, hd⟩ := hreach ep hep
      exact ⟨hQ, s, hs, hd.trans hle⟩
    · exact ⟨heps p hp, hreach p hp⟩

section pass

variable (hflt : ∀ p, Q p → ∀ m, Q m → P.flt (dist p) (dist m) = decide (dist p < dist m))
  (hnbrs : ∀ p, Q p → ∀ q ∈ nbrs p, Q q)

include hflt

/-- An offered point is no nearer than the nearest result afterwards. -/
theorem reaches_offer (hkeep : ∀ p, P.keep p = true) {st : State F ι} (h : Neat dist Q st)
    {m p : ι} (hm : Q m) (hreach : Reaches (dist m) st) (hp : Q p) (hnew : p ∉ st.seen) :
    Reaches (dist p) (st.offer P dist (dist m) p) := by
  have hneat := h.offer (P := P) (dist m) hp
  have hstays : (⟨dist p, p⟩ : Scored F ι) ∈ (st.offer P dist (dist m) p).res →
      Reaches (dist p) (st.offer P dist (dist m) p) := fun hmem => by
    obtain ⟨s, hs, hle⟩ := exists_head_le hneat.sorted hmem
    exact ⟨s, hs, Scored.dist_le_of_le hle⟩
  by_cases hmem : (⟨dist p, p⟩ : Scored F ι) ∈ (st.offer P dist (dist m) p).res
  · exact hstays hmem
  -- left out: refused by the bound, or dropped as the farthest
  obtain ⟨s, hs, hd⟩ : Reaches (dist m) (st.offer P dist (dist m) p) := hreach.offer (dist m) p
  refine ⟨s, hs, ?_⟩
  by_cases hnear : dist p < dist m
  · have hflt' : P.flt (dist p) (dist m) = true := by rw [hflt p hp m hm, decide_eq_true hnear]
    rw [State.offer, if_neg hnew] at hmem hs
    unfold State.accept at hmem hs
    rw [if_pos (by simp [hflt']), if_pos (hkeep _)] at hmem hs
    split_ifs at hmem hs
    · exact le_of_notMem_pushPopMax h.sorted (mem_push.mpr (Or.inl rfl)) hmem
        (List.mem_of_mem_head? hs)
    · exact absurd (mem_push.mpr (Or.inl rfl)) hmem
  · exact hd.trans (not_lt.mp hnear)

theorem Surveyed.offer (hkeep : ∀ p, P.keep p = true) {st : State F ι} (h : Surveyed dist Q st)
    {m p : ι} (hm : Q m) (hreach : Reaches (dist m) st) (hp : Q p) :
    Surveyed dist Q (st.offer P dist (dist m) p) := by
  by_cases hseen : p ∈ st.seen
  · rwa [State.offer, if_pos hseen]
  refine ⟨h.neat.offer _ hp, ?_, fun q hq => ?_⟩
  · obtain ⟨s, hs, -⟩ : Reaches (dist m) (st.offer P dist (dist m) p) := hreach.offer (dist m) p
    exact List.ne_nil_of_mem (List.mem_of_mem_head? hs)
  · rw [seen_offer] at hq
    rcases Finset.mem_insert.mp hq with rfl | hq
    · exact ⟨hp, reaches_offer hflt hkeep h.neat hm hreach hp hseen⟩
    · exact ⟨(h.near q hq).1, (h.near q hq).2.offer _ _⟩

include hnbrs

/-- **A pass without a filter keeps the nearest point it sees.** -/
theorem Surveyed.pass (hkeep : ∀ p, P.keep p = true) {st st' : State F ι} (h : Surveyed dist Q st)
    (hpass : Pass P dist nbrs st st') : Surveyed dist Q st' := by
  refine hpass.round_invariant (J := Surveyed dist Q)
    (K := fun b st => Surveyed dist Q st ∧ ∃ m, Q m ∧ b = dist m ∧ Reaches (dist m) st) (Q := Q)
    ?_ ?_ And.left (fun h => h.neat.within) hnbrs h
  · intro st c rest hq h
    obtain ⟨m, hm, hworst, hmem⟩ := h.neat.worst (P := P) h.nonempty
    obtain ⟨s, hs, hle⟩ := exists_head_le h.neat.sorted hmem
    have hwithin : Within Q { st with queue := rest } :=
      ⟨fun d hd => h.neat.within.queue d (hq ▸ List.mem_cons_of_mem _ hd), h.neat.within.res⟩
    exact ⟨⟨⟨h.neat.sorted, h.neat.sound, hwithin⟩, h.nonempty, h.near⟩, m, hm, hworst, s, hs,
      Scored.dist_le_of_le hle⟩
  · rintro st b p hp ⟨h, m, hm, rfl, hreach⟩
    exact ⟨h.offer hflt hkeep hm hreach hp, m, hm, rfl, hreach.offer _ _⟩

end pass

/-! ## More points seen -/

/-- The same heap and queue, with more points seen. -/
def State.recall (old : Finset ι) (st : State F ι) : State F ι :=
  { st with seen := st.seen ∪ old }

omit [LinearOrder F] in
@[simp] theorem res_recall (st : State F ι) : (st.recall old).res = st.res := rfl
omit [LinearOrder F] in
@[simp] theorem queue_recall (st : State F ι) : (st.recall old).queue = st.queue := rfl
omit [LinearOrder F] in
@[simp] theorem seen_recall (st : State F ι) : (st.recall old).seen = st.seen ∪ old := rfl
omit [LinearOrder F] in
theorem recall_see (p : ι) (st : State F ι) : (st.see p).recall old = (st.recall old).see p := by
  simp [State.see, State.recall, Finset.insert_union]

theorem recall_accept (b : F) (st : State F ι) (s : Scored F ι) :
    (st.accept P b s).recall old = (st.recall old).accept P b s := by
  unfold State.accept
  simp only [apply_ite (State.recall old), res_recall]
  rfl

theorem recall_seed (st : State F ι) (s : Scored F ι) :
    (st.seed P s).recall old = (st.recall old).seed P s := by
  unfold State.seed
  split_ifs <;> simp [State.recall, State.see, State.enqueue, Finset.insert_union]

/-- The heap is full, and no result is farther than a point of `old`. -/
structure Hides (P : Params F ι) (dist : ι → F) (Q : ι → Prop) (old : Finset ι)
    (st : State F ι) : Prop where
  neat : Neat dist Q st
  full : st.res.length = P.ef
  nonempty : st.res ≠ []
  far : ∀ p ∈ old, ∀ s ∈ st.res, s.dist ≤ dist p

theorem Hides.offer {st : State F ι} (h : Hides P dist Q old st) (b : F) {p : ι} (hp : Q p) :
    Hides P dist Q old (st.offer P dist b p) := by
  by_cases hseen : p ∈ st.seen
  · rwa [State.offer, if_pos hseen]
  have hlen : (st.offer P dist b p).res.length = P.ef :=
    le_antisymm (length_res_offer_le h.full.le p) (h.full.ge.trans (le_length_res_offer b st p))
  refine ⟨h.neat.offer b hp, hlen, ?_, fun q hq s hs => ?_⟩
  · rw [← List.length_pos_iff, hlen, ← h.full]
    exact List.length_pos_iff.mpr h.nonempty
  · have hfresh : (⟨dist p, p⟩ : Scored F ι) ∉ st.res := fun hmem => hseen (h.neat.sound _ hmem).2
    rw [State.offer, if_neg hseen] at hs
    unfold State.accept at hs
    split_ifs at hs with hroom hkeep hfull
    · exact dist_le_of_mem_pushPopMax h.neat.sorted hfresh (h.far q hq) hs
    · exact absurd h.full hfull
    · exact h.far q hq s hs
    · exact h.far q hq s hs

/-- **An offer takes the same course** after points have been recalled: such a point is refused. -/
theorem Hides.recall_offer {st : State F ι} (h : Hides P dist Q old st) {b : F}
    (hb : ∀ p ∈ old, P.flt (dist p) b = false) (p : ι) :
    (st.offer P dist b p).recall old = (st.recall old).offer P dist b p := by
  unfold State.offer
  by_cases hseen : p ∈ st.seen
  · rw [if_pos hseen, if_pos (by simp [hseen])]
  by_cases hold : p ∈ old
  · have hfull : ¬ st.res.length < P.ef := h.full.not_lt
    rw [if_neg hseen, if_pos (by simp [hold])]
    unfold State.accept
    rw [if_neg (by simp [hfull, hb p hold]), recall_see, State.see, seen_recall,
      Finset.insert_eq_of_mem (Finset.mem_union_right _ hold)]
    rfl
  · rw [if_neg hseen, if_neg (by simp [hseen, hold]), recall_accept, recall_see]

theorem Hides.recall_foldl_offer {b : F} (hb : ∀ p ∈ old, P.flt (dist p) b = false) :
    ∀ {l : List ι} {st : State F ι}, Hides P dist Q old st → (∀ p ∈ l, Q p) →
      (l.foldl (State.offer P dist b) st).recall old =
        l.foldl (State.offer P dist b) (st.recall old) ∧
      Hides P dist Q old (l.foldl (State.offer P dist b) st)
  | [], _, h, _ => ⟨rfl, h⟩
  | p :: l, st, h, hl => by
    obtain ⟨hp, hl⟩ := List.forall_mem_cons.mp hl
    rw [List.foldl_cons, List.foldl_cons, ← h.recall_offer hb p]
    exact Hides.recall_foldl_offer hb (h.offer b hp) hl

/-- **A pass takes the same course** after points have been recalled that are no nearer than any
of its results. -/
theorem Hides.recall_pass
    (hflt : ∀ p, Q p → ∀ m, Q m → P.flt (dist p) (dist m) = decide (dist p < dist m))
    (hnbrs : ∀ p, Q p → ∀ q ∈ nbrs p, Q q) (hold : ∀ p ∈ old, Q p) {st st' : State F ι}
    (h : Hides P dist Q old st) (hpass : Pass P dist nbrs st st') :
    Pass P dist nbrs (st.recall old) (st'.recall old) := by
  induction hpass with
  | refl => exact .refl _
  | @head st st' hopen _ ih =>
    have hstep : (st.expand P dist nbrs).recall old = (st.recall old).expand P dist nbrs ∧
        Hides P dist Q old (st.expand P dist nbrs) := by
      unfold State.expand
      rw [queue_recall]
      cases hq : st.queue with
      | nil => exact ⟨rfl, h⟩
      | cons c rest =>
        obtain ⟨m, hm, hworst, hmem⟩ := h.neat.worst (P := P) h.nonempty
        have hb : ∀ p ∈ old, P.flt (dist p) (st.worst P) = false := fun p hp => by
          rw [hworst, hflt p (hold p hp) m hm]
          exact decide_eq_false (h.far p hp _ hmem).not_gt
        have hwithin : Within Q { st with queue := rest } :=
          ⟨fun d hd => h.neat.within.queue d (hq ▸ List.mem_cons_of_mem _ hd),
            h.neat.within.res⟩
        have hc : Q (OrderDual.ofDual c.id) :=
          h.neat.within.queue c (by rw [hq]; exact List.mem_cons_self)
        exact Hides.recall_foldl_offer hb
          ⟨⟨h.neat.sorted, h.neat.sound, hwithin⟩, h.full, h.nonempty, h.far⟩ (hnbrs _ hc)
    refine .head hopen ?_
    rw [← hstep.1]
    exact ih hstep.2

end Hannoy.Library.Beam
