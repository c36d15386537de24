import Hannoy.Library.Scored
import Hannoy.Library.TopK
import Mathlib.Order.OrderDual
import Mathlib.Data.Finset.Card
import Mathlib.Logic.Relation

/-!
# Beam search

A best-first search over a graph, with a result heap of width `ef`. The frontier is a queue that
yields the nearest point first and, among equally near ones, the greatest identifier. Only points
that pass a filter enter the result heap; the queue takes them all.

`expand` is one round: it pops the nearest queued point and offers its unseen neighbours. A point
is admitted while the heap is not full, or when it is strictly nearer than the worst result was at
the start of the round. `Pass` is any number of rounds; a pass is over once it is `Stopped`.

`old` below is the set of points seen before the pass began. Results:
* `Inv.pass`: the heap holds distinct new points that pass the filter, with their distances, in
  order; and as long as it is not full it holds every new point that passes the filter, and every
  new point is queued or has all its neighbours seen.
* `length_res_le`: a heap that starts within its width stays within it.
* `Inv.closed_of_stopped`: without a filter, a pass that stops before its heap is full has seen
  everything its entry points reach.
* `Inv.reaches_iff`: a pass that stops before its heap is full has seen everything its entry points
  reach exactly if no queued point is left with an unseen neighbour.
* `measure_expand`: the queue and the unseen points together shrink in every round.
-/

namespace Hannoy.Library.Beam

variable {F ι : Type} [LinearOrder F] [LinearOrder ι]

/-- What a pass searches for: the width of the result heap, the filter, the comparison of
distances, and the bound used while the heap is empty. -/
structure Params (F ι : Type) where
  ef : Nat
  keep : ι → Bool
  flt : F → F → Bool
  top : F

structure State (F ι : Type) where
  queue : List (Scored F ιᵒᵈ)
  res : List (Scored F ι)
  seen : Finset ι

namespace State

variable (P : Params F ι)

/-- The distance of the worst result. -/
def worst (st : State F ι) : F :=
  match st.res.getLast? with
  | some m => m.dist
  | none => P.top

def enqueue (s : Scored F ι) (st : State F ι) : State F ι :=
  { st with queue := push ⟨s.dist, OrderDual.toDual s.id⟩ st.queue }

def see (p : ι) (st : State F ι) : State F ι := { st with seen := insert p st.seen }

/-- Register an entry point. -/
def seed (st : State F ι) (s : Scored F ι) : State F ι :=
  if P.keep s.id then { (st.enqueue s).see s.id with res := push s st.res }
  else (st.enqueue s).see s.id

/-- Take in a point that has just been seen, if there is room or it is near enough. -/
def accept (fmax : F) (st : State F ι) (s : Scored F ι) : State F ι :=
  if st.res.length < P.ef || P.flt s.dist fmax then
    if P.keep s.id then
      if st.res.length = P.ef then { st.enqueue s with res := pushPopMax s st.res }
      else { st.enqueue s with res := push s st.res }
    else st.enqueue s
  else st

variable (dist : ι → F) (nbrs : ι → List ι)

/-- Offer a neighbour. -/
def offer (fmax : F) (st : State F ι) (p : ι) : State F ι :=
  if p ∈ st.seen then st else (st.see p).accept P fmax ⟨dist p, p⟩

/-- Expand the nearest queued point. -/
def expand (st : State F ι) : State F ι :=
  match st.queue with
  | [] => st
  | c :: rest =>
    (nbrs (OrderDual.ofDual c.id)).foldl (offer P dist (st.worst P)) { st with queue := rest }

/-- The queue is empty, or its nearest point is farther than the worst result. -/
def Stopped (st : State F ι) : Prop :=
  ∀ c ∈ st.queue.head?, P.flt (st.worst P) c.dist = true

end State

/-- Rounds, each on a state that is not `Stopped`. -/
inductive Pass (P : Params F ι) (dist : ι → F) (nbrs : ι → List ι) :
    State F ι → State F ι → Prop
  | refl (st : State F ι) : Pass P dist nbrs st st
  | head {st st' : State F ι} (hopen : ¬ st.Stopped P)
      (h : Pass P dist nbrs (st.expand P dist nbrs) st') : Pass P dist nbrs st st'

/-! ## Single operations -/

section ops

variable {P : Params F ι} {dist : ι → F} {nbrs : ι → List ι}

@[simp] theorem seen_enqueue (s : Scored F ι) (st : State F ι) :
    (st.enqueue s).seen = st.seen := rfl
@[simp] theorem res_enqueue (s : Scored F ι) (st : State F ι) : (st.enqueue s).res = st.res := rfl
omit [LinearOrder F] in
@[simp] theorem seen_see (p : ι) (st : State F ι) : (st.see p).seen = insert p st.seen := rfl
omit [LinearOrder F] in
@[simp] theorem res_see (p : ι) (st : State F ι) : (st.see p).res = st.res := rfl
omit [LinearOrder F] in
@[simp] theorem queue_see (p : ι) (st : State F ι) : (st.see p).queue = st.queue := rfl

theorem mem_queue_enqueue {s : Scored F ι} {st : State F ι} {c : Scored F ιᵒᵈ} :
    c ∈ (st.enqueue s).queue ↔ c = ⟨s.dist, OrderDual.toDual s.id⟩ ∨ c ∈ st.queue :=
  mem_push

@[simp] theorem seen_seed (st : State F ι) (s : Scored F ι) :
    (st.seed P s).seen = insert s.id st.seen := by
  unfold State.seed
  split_ifs <;> rfl

@[simp] theorem queue_seed (st : State F ι) (s : Scored F ι) :
    (st.seed P s).queue = (st.enqueue s).queue := by
  unfold State.seed
  split_ifs <;> rfl

theorem res_seed (st : State F ι) (s : Scored F ι) :
    (st.seed P s).res = if P.keep s.id then push s st.res else st.res := by
  unfold State.seed
  split_ifs <;> rfl

@[simp] theorem seen_accept (fmax : F) (st : State F ι) (s : Scored F ι) :
    (st.accept P fmax s).seen = st.seen := by
  unfold State.accept
  split_ifs <;> rfl

theorem mem_queue_accept {fmax : F} {st : State F ι} {s : Scored F ι} {c : Scored F ιᵒᵈ}
    (h : c ∈ (st.accept P fmax s).queue) : c = ⟨s.dist, OrderDual.toDual s.id⟩ ∨ c ∈ st.queue := by
  unfold State.accept at h
  split_ifs at h
  · exact mem_queue_enqueue.mp h
  · exact mem_queue_enqueue.mp h
  · exact mem_queue_enqueue.mp h
  · exact Or.inr h

theorem mem_res_accept {fmax : F} {st : State F ι} {s a : Scored F ι}
    (h : a ∈ (st.accept P fmax s).res) : (a = s ∧ P.keep s.id = true) ∨ a ∈ st.res := by
  unfold State.accept at h
  split_ifs at h with h1 h2 h3
  · exact (mem_of_mem_pushPopMax h).imp (fun ha => ⟨ha, h2⟩) id
  · exact (mem_push.mp h).imp (fun ha => ⟨ha, h2⟩) id
  · exact Or.inr h
  · exact Or.inr h

theorem length_queue_accept_le (fmax : F) (st : State F ι) (s : Scored F ι) :
    (st.accept P fmax s).queue.length ≤ st.queue.length + 1 := by
  unfold State.accept State.enqueue
  split_ifs <;> simp

theorem length_res_accept_le {fmax : F} {st : State F ι} (h : st.res.length ≤ P.ef)
    (s : Scored F ι) : (st.accept P fmax s).res.length ≤ P.ef := by
  unfold State.accept
  split_ifs with h1 h2 h3
  · simpa [length_pushPopMax] using h
  · simp only at h3 ⊢
    rw [length_push]
    omega
  · exact h
  · exact h

theorem le_length_res_accept (fmax : F) (st : State F ι) (s : Scored F ι) :
    st.res.length ≤ (st.accept P fmax s).res.length := by
  unfold State.accept
  split_ifs <;> simp [length_pushPopMax]

/-- While there is room, a new point enters the queue, and the heap when it passes the filter. -/
theorem accept_of_room {fmax : F} {st : State F ι} (h : st.res.length < P.ef) (s : Scored F ι) :
    st.accept P fmax s =
      if P.keep s.id then { st.enqueue s with res := push s st.res } else st.enqueue s := by
  unfold State.accept
  rw [if_pos (by simp [h])]
  split_ifs with h1 h2
  · exact absurd h2 (by simpa using h.ne)
  · rfl
  · rfl

/-- A full heap gives up its farthest result for a nearer point that passes the filter. -/
theorem accept_of_near {fmax : F} {st : State F ι} {s : Scored F ι} (h : st.res.length = P.ef)
    (hnear : P.flt s.dist fmax = true) (hkeep : P.keep s.id = true) :
    st.accept P fmax s = { st.enqueue s with res := pushPopMax s st.res } := by
  unfold State.accept
  rw [if_pos (by simp [hnear]), if_pos hkeep, if_pos h]

/-- A full heap refuses a point that is not nearer. -/
theorem accept_of_far {fmax : F} {st : State F ι} {s : Scored F ι} (h : ¬ st.res.length < P.ef)
    (hfar : ¬ P.flt s.dist fmax = true) : st.accept P fmax s = st := by
  unfold State.accept
  rw [if_neg (by simp [hfar, h])]

theorem seen_offer (fmax : F) (st : State F ι) (p : ι) :
    (st.offer P dist fmax p).seen = insert p st.seen := by
  unfold State.offer
  split_ifs with h
  · rw [Finset.insert_eq_of_mem h]
  · simp

theorem seen_foldl_offer (fmax : F) : ∀ (l : List ι) (st : State F ι),
    (l.foldl (State.offer P dist fmax) st).seen = st.seen ∪ l.toFinset
  | [], st => by simp
  | p :: l, st => by
    rw [List.foldl_cons, seen_foldl_offer fmax l, seen_offer, List.toFinset_cons,
      Finset.insert_union, Finset.union_insert]

end ops

/-! ## Taking in a point -/

section takesIn

variable {P : Params F ι} {dist : ι → F}

/-- The heap and the queue take in a point that is now seen: at most this point is new in them,
and they lose nothing as long as there is room. -/
structure TakesIn (P : Params F ι) (s : Scored F ι) (st st' : State F ι) : Prop where
  seen : st'.seen = insert s.id st.seen
  queue : ∀ c ∈ st'.queue, c = ⟨s.dist, OrderDual.toDual s.id⟩ ∨ c ∈ st.queue
  res : ∀ a ∈ st'.res, (a = s ∧ P.keep s.id = true) ∨ a ∈ st.res
  sorted : st.res.Pairwise (· < ·) → s ∉ st.res → st'.res.Pairwise (· < ·)
  room : st'.res.length < P.ef → st.res.length < P.ef
  queued : st'.res.length < P.ef →
    ∀ c, c = ⟨s.dist, OrderDual.toDual s.id⟩ ∨ c ∈ st.queue → c ∈ st'.queue
  kept : st'.res.length < P.ef → ∀ a, (a = s ∧ P.keep s.id = true) ∨ a ∈ st.res → a ∈ st'.res

theorem pairwise_lt_push {a : Scored F ι} {h : List (Scored F ι)} (hs : h.Pairwise (· < ·))
    (ha : a ∉ h) : (push a h).Pairwise (· < ·) := by
  have hle := pairwise_push (a := a) (hs.imp le_of_lt)
  have hnd : (push a h).Nodup :=
    (perm_push a h).nodup_iff.mpr (List.nodup_cons.mpr ⟨ha, hs.imp ne_of_lt⟩)
  exact (hle.and hnd).imp fun h => lt_of_le_of_ne h.1 h.2

theorem takesIn_seed (st : State F ι) (s : Scored F ι) : TakesIn P s st (st.seed P s) where
  seen := seen_seed st s
  queue c hc := by
    rw [queue_seed] at hc
    exact mem_queue_enqueue.mp hc
  res a ha := by
    rw [res_seed] at ha
    split_ifs at ha with hk
    · exact (mem_push.mp ha).imp (fun h => ⟨h, hk⟩) id
    · exact Or.inr ha
  sorted hs hfresh := by
    rw [res_seed]
    split_ifs
    · exact pairwise_lt_push hs hfresh
    · exact hs
  room h := by
    rw [res_seed] at h
    split_ifs at h
    · rw [length_push] at h
      omega
    · exact h
  queued _ c hc := by
    rw [queue_seed]
    exact mem_queue_enqueue.mpr hc
  kept _ a ha := by
    rw [res_seed]
    split_ifs with hk
    · exact mem_push.mpr (ha.imp_left And.left)
    · exact ha.resolve_left fun h => hk h.2

/-- An offered point that is not seen yet: an unfull heap was unfull before the offer, so that the
point was taken in. -/
theorem takesIn_offer (fmax : F) {st : State F ι} {p : ι} (hp : p ∉ st.seen) :
    TakesIn P ⟨dist p, p⟩ st (st.offer P dist fmax p) := by
  have heq : st.offer P dist fmax p = (st.see p).accept P fmax ⟨dist p, p⟩ := by
    rw [State.offer, if_neg hp]
  rw [heq]
  have hroom : ((st.see p).accept P fmax ⟨dist p, p⟩).res.length < P.ef → st.res.length < P.ef :=
    fun h => lt_of_le_of_lt (le_length_res_accept fmax (st.see p) ⟨dist p, p⟩) h
  refine ⟨seen_accept _ _ _, fun c hc => ?_, fun a ha => ?_, fun hs hfresh => ?_, hroom,
    fun h c hc => ?_, fun h a ha => ?_⟩
  · rw [← queue_see p st]
    exact mem_queue_accept hc
  · rw [← res_see p st]
    exact mem_res_accept ha
  · have hpush := pairwise_lt_push hs hfresh
    unfold State.accept
    split_ifs
    · exact hpush.sublist (List.dropLast_sublist _)
    · exact hpush
    · exact hs
    · exact hs
  · rw [accept_of_room (by simpa using hroom h)]
    split_ifs
    · exact mem_queue_enqueue.mpr hc
    · exact mem_queue_enqueue.mpr hc
  · rw [accept_of_room (by simpa using hroom h)]
    split_ifs with hk
    · exact mem_push.mpr (ha.imp_left And.left)
    · exact ha.resolve_left fun h => hk h.2

end takesIn

/-! ## The invariant -/

section invariant

variable (P : Params F ι) (dist : ι → F) (nbrs : ι → List ι)

/-- What holds at any time of a pass, `old` being what was seen before it. `busy` is the point
whose neighbours are being offered. -/
structure Inv (old : Finset ι) (busy : ι → Prop) (st : State F ι) : Prop where
  old_seen : old ⊆ st.seen
  queue_sound : ∀ c ∈ st.queue, c.dist = dist (OrderDual.ofDual c.id) ∧
    OrderDual.ofDual c.id ∈ st.seen
  res_sorted : st.res.Pairwise (· < ·)
  res_sound : ∀ s ∈ st.res, s.dist = dist s.id ∧ P.keep s.id = true ∧ s.id ∈ st.seen ∧ s.id ∉ old
  unfull_kept : st.res.length < P.ef → ∀ p ∈ st.seen, p ∉ old → P.keep p = true →
    (⟨dist p, p⟩ : Scored F ι) ∈ st.res
  unfull_closed : st.res.length < P.ef → ∀ p ∈ st.seen, p ∉ old → busy p ∨
    (⟨dist p, OrderDual.toDual p⟩ : Scored F ιᵒᵈ) ∈ st.queue ∨ ∀ q ∈ nbrs p, q ∈ st.seen

variable {P dist nbrs} {old : Finset ι} {busy : ι → Prop}

/-- Nothing but `old` seen yet. -/
theorem Inv.empty : Inv P dist nbrs old busy ⟨[], [], old⟩ where
  old_seen := Finset.Subset.refl _
  queue_sound := fun _ hc => absurd hc List.not_mem_nil
  res_sorted := List.Pairwise.nil
  res_sound := fun _ hs => absurd hs List.not_mem_nil
  unfull_kept := fun _ _ hp hold => absurd hp hold
  unfull_closed := fun _ _ hp hold => absurd hp hold

theorem Inv.takeIn {st st' : State F ι} (hI : Inv P dist nbrs old busy st) {p : ι}
    (hp : p ∉ st.seen) (ht : TakesIn P ⟨dist p, p⟩ st st') : Inv P dist nbrs old busy st' := by
  have hold : p ∉ old := fun h => hp (hI.old_seen h)
  have hfresh : (⟨dist p, p⟩ : Scored F ι) ∉ st.res := fun h => hp (hI.res_sound _ h).2.2.1
  have hseen : ∀ {q : ι}, q ∈ st.seen → q ∈ st'.seen := fun hq => by
    rw [ht.seen]
    exact Finset.mem_insert_of_mem hq
  have hpseen : p ∈ st'.seen := by
    rw [ht.seen]
    exact Finset.mem_insert_self _ _
  refine ⟨fun q hq => hseen (hI.old_seen hq), ?_, ht.sorted hI.res_sorted hfresh, ?_, ?_, ?_⟩
  · intro c hc
    rcases ht.queue c hc with rfl | hc
    · exact ⟨rfl, hpseen⟩
    · exact ⟨(hI.queue_sound c hc).1, hseen (hI.queue_sound c hc).2⟩
  · intro s hs
    rcases ht.res s hs with ⟨rfl, hk⟩ | hs
    · exact ⟨rfl, hk, hpseen, hold⟩
    · obtain ⟨h1, h2, h3, h4⟩ := hI.res_sound s hs
      exact ⟨h1, h2, hseen h3, h4⟩
  · intro hroom q hq hqo hk
    rw [ht.seen] at hq
    refine ht.kept hroom _ ?_
    rcases Finset.mem_insert.mp hq with rfl | hq
    · exact Or.inl ⟨rfl, hk⟩
    · exact Or.inr (hI.unfull_kept (ht.room hroom) q hq hqo hk)
  · intro hroom q hq hqo
    rw [ht.seen] at hq
    rcases Finset.mem_insert.mp hq with rfl | hq
    · exact Or.inr (Or.inl (ht.queued hroom _ (Or.inl rfl)))
    · rcases hI.unfull_closed (ht.room hroom) q hq hqo with h | h | h
      · exact Or.inl h
      · exact Or.inr (Or.inl (ht.queued hroom _ (Or.inr h)))
      · exact Or.inr (Or.inr fun r hr => hseen (h r hr))

/-- Entry points. -/
theorem Inv.seed {st : State F ι} (hI : Inv P dist nbrs old busy st) {p : ι} (hp : p ∉ st.seen) :
    Inv P dist nbrs old busy (st.seed P ⟨dist p, p⟩) :=
  hI.takeIn hp (takesIn_seed st _)

/-- One offer. -/
theorem Inv.offer {st : State F ι} (hI : Inv P dist nbrs old busy st) (fmax : F) (p : ι) :
    Inv P dist nbrs old busy (st.offer P dist fmax p) := by
  by_cases hp : p ∈ st.seen
  · rwa [State.offer, if_pos hp]
  · exact hI.takeIn hp (takesIn_offer fmax hp)

theorem Inv.foldl_offer (fmax : F) : ∀ (l : List ι) {st : State F ι},
    Inv P dist nbrs old busy st → Inv P dist nbrs old busy (l.foldl (State.offer P dist fmax) st)
  | [], _, h => h
  | p :: l, _, h => Inv.foldl_offer fmax l (h.offer fmax p)

/-- One round. -/
theorem Inv.expand {st : State F ι} (hI : Inv P dist nbrs old (fun _ => False) st) :
    Inv P dist nbrs old (fun _ => False) (st.expand P dist nbrs) := by
  cases hq : st.queue with
  | nil =>
    rw [State.expand, hq]
    exact hI
  | cons c rest =>
    rw [State.expand, hq]
    simp only
    -- while its neighbours are offered, the popped point is the only one neither queued nor closed
    have hpop : Inv P dist nbrs old (fun p => p = OrderDual.ofDual c.id)
        { st with queue := rest } := by
      refine ⟨hI.old_seen, fun d hd => hI.queue_sound d ?_, hI.res_sorted, hI.res_sound,
        hI.unfull_kept, fun hroom p hp hpo => ?_⟩
      · rw [hq]
        exact List.mem_cons_of_mem _ hd
      · rcases hI.unfull_closed hroom p hp hpo with h | h | h
        · exact h.elim
        · rw [hq] at h
          rcases List.mem_cons.mp h with h | h
          · left
            rw [← h]
            rfl
          · exact Or.inr (Or.inl h)
        · exact Or.inr (Or.inr h)
    have hfold := hpop.foldl_offer (st.worst P) (nbrs (OrderDual.ofDual c.id))
    refine { hfold with unfull_closed := fun hroom p hp hpo => ?_ }
    rcases hfold.unfull_closed hroom p hp hpo with h | h | h
    · subst h
      refine Or.inr (Or.inr fun q hqn => ?_)
      rw [seen_foldl_offer]
      exact Finset.mem_union_right _ (List.mem_toFinset.mpr hqn)
    · exact Or.inr (Or.inl h)
    · exact Or.inr (Or.inr h)

/-- **The invariant of a pass.** -/
theorem Inv.pass {st st' : State F ι} (hI : Inv P dist nbrs old (fun _ => False) st)
    (h : Pass P dist nbrs st st') : Inv P dist nbrs old (fun _ => False) st' := by
  induction h with
  | refl => exact hI
  | head _ _ ih => exact ih hI.expand

end invariant

/-! ## Where the points come from -/

section within

variable {P : Params F ι} {dist : ι → F} {nbrs : ι → List ι} {Q : ι → Prop}

/-- Every queued point and every result satisfies `Q`. -/
structure Within (Q : ι → Prop) (st : State F ι) : Prop where
  queue : ∀ c ∈ st.queue, Q (OrderDual.ofDual c.id)
  res : ∀ s ∈ st.res, Q s.id

omit [LinearOrder F] [LinearOrder ι] in
theorem Within.empty (old : Finset ι) : Within (F := F) Q ⟨[], [], old⟩ :=
  ⟨fun _ h => absurd h List.not_mem_nil, fun _ h => absurd h List.not_mem_nil⟩

theorem Within.takeIn {st st' : State F ι} (h : Within Q st) {s : Scored F ι} (hs : Q s.id)
    (ht : TakesIn P s st st') : Within Q st' := by
  refine ⟨fun c hc => ?_, fun a ha => ?_⟩
  · rcases ht.queue c hc with rfl | hc
    · exact hs
    · exact h.queue c hc
  · rcases ht.res a ha with ⟨rfl, -⟩ | ha
    · exact hs
    · exact h.res a ha

theorem Within.seed {st : State F ι} (h : Within Q st) {s : Scored F ι} (hs : Q s.id) :
    Within Q (st.seed P s) :=
  h.takeIn hs (takesIn_seed st s)

theorem Within.offer {st : State F ι} (h : Within Q st) (fmax : F) {p : ι} (hp : Q p) :
    Within Q (st.offer P dist fmax p) := by
  by_cases hseen : p ∈ st.seen
  · rwa [State.offer, if_pos hseen]
  · exact h.takeIn hp (takesIn_offer fmax hseen)

theorem Within.foldl_offer (fmax : F) : ∀ {l : List ι} {st : State F ι}, Within Q st →
    (∀ p ∈ l, Q p) → Within Q (l.foldl (State.offer P dist fmax) st)
  | [], _, h, _ => h
  | p :: l, _, h, hl => Within.foldl_offer (l := l) fmax (h.offer fmax (hl p List.mem_cons_self))
      fun q hq => hl q (List.mem_cons_of_mem p hq)

/-- What is closed under neighbours is never left. -/
theorem Within.expand {st : State F ι} (h : Within Q st) (hn : ∀ p, Q p → ∀ q ∈ nbrs p, Q q) :
    Within Q (st.expand P dist nbrs) := by
  unfold State.expand
  split
  · exact h
  · next c rest hq =>
    have hc : c ∈ st.queue := by rw [hq]; exact List.mem_cons_self
    refine Within.foldl_offer _ ⟨fun d hd => h.queue d ?_, h.res⟩ (hn _ (h.queue c hc))
    rw [hq]
    exact List.mem_cons_of_mem _ hd

end within

/-! ## Width -/

section width

variable {P : Params F ι} {dist : ι → F} {nbrs : ι → List ι}

theorem length_res_offer_le {fmax : F} {st : State F ι} (h : st.res.length ≤ P.ef) (p : ι) :
    (st.offer P dist fmax p).res.length ≤ P.ef := by
  unfold State.offer
  split_ifs
  · exact h
  · exact length_res_accept_le (by simpa using h) _

theorem length_res_expand_le {st : State F ι} (h : st.res.length ≤ P.ef) :
    (st.expand P dist nbrs).res.length ≤ P.ef := by
  have hfold : ∀ (l : List ι) (fmax : F) (s : State F ι), s.res.length ≤ P.ef →
      (l.foldl (State.offer P dist fmax) s).res.length ≤ P.ef := by
    intro l fmax
    induction l with
    | nil => exact fun s hs => hs
    | cons p l ih => exact fun s hs => ih _ (length_res_offer_le hs p)
  unfold State.expand
  split
  · exact h
  · exact hfold _ _ _ h

/-- **A heap that starts within its width stays within it.** -/
theorem length_res_le {st st' : State F ι} (h : Pass P dist nbrs st st')
    (h0 : st.res.length ≤ P.ef) : st'.res.length ≤ P.ef := by
  induction h with
  | refl => exact h0
  | head _ _ ih => exact ih (length_res_expand_le h0)

section

variable {J : List (Scored F ι) → Prop} (hpush : ∀ s h, J h → J (push s h))
  (hpop : ∀ s h, J h → J (pushPopMax s h))

include hpush hpop

theorem res_accept_invariant {st : State F ι} (h : J st.res) (fmax : F) (s : Scored F ι) :
    J (st.accept P fmax s).res := by
  unfold State.accept
  split_ifs
  · exact hpop _ _ h
  · exact hpush _ _ h
  · exact h
  · exact h

theorem res_foldl_offer_invariant (fmax : F) : ∀ {l : List ι} {st : State F ι}, J st.res →
    J (l.foldl (State.offer P dist fmax) st).res
  | [], _, h => h
  | p :: l, st, h => by
    refine res_foldl_offer_invariant fmax (l := l) ?_
    unfold State.offer
    by_cases hp : p ∈ st.seen
    · rw [if_pos hp]
      exact h
    · rw [if_neg hp]
      refine res_accept_invariant hpush hpop ?_ fmax _
      rw [res_see]
      exact h

/-- What an insertion into the heap keeps, with or without dropping the farthest, a pass keeps. -/
theorem Pass.res_invariant {st st' : State F ι} (h : Pass P dist nbrs st st') (h0 : J st.res) :
    J st'.res := by
  induction h with
  | refl => exact h0
  | head _ _ ih =>
    refine ih ?_
    unfold State.expand
    split
    · exact h0
    · exact res_foldl_offer_invariant hpush hpop _ h0

end

/-- The heap never shrinks. -/
theorem le_length_res {st st' : State F ι} (h : Pass P dist nbrs st st') :
    st.res.length ≤ st'.res.length :=
  h.res_invariant (J := fun l => st.res.length ≤ l.length)
    (fun a l hl => hl.trans (by rw [length_push]; exact Nat.le_succ _))
    (fun a l hl => hl.trans (length_pushPopMax a l).ge) le_rfl

/-- The nearest result only gets nearer. -/
theorem exists_head_res {st st' : State F ι} (h : Pass P dist nbrs st st') {s : Scored F ι}
    (h0 : ∃ t ∈ st.res.head?, t ≤ s) : ∃ t ∈ st'.res.head?, t ≤ s :=
  h.res_invariant (J := fun l => ∃ t ∈ l.head?, t ≤ s) (fun a _ hl => exists_head_push hl a)
    (fun a _ hl => exists_head_pushPopMax hl a) h0

end width

/-! ## Completeness -/

section complete

variable {P : Params F ι} {dist : ι → F} {nbrs : ι → List ι} {old : Finset ι}

/-- The members of an ascending heap are no farther than its worst one. -/
theorem dist_le_worst {st : State F ι} (hs : st.res.Pairwise (· < ·)) {s : Scored F ι}
    (h : s ∈ st.res) : s.dist ≤ st.worst P := by
  unfold State.worst
  cases htop : st.res.getLast? with
  | none => exact absurd (List.getLast?_eq_none_iff.mp htop ▸ h) List.not_mem_nil
  | some m => exact Scored.dist_le_of_le (le_getLast (hs.imp le_of_lt) htop s h)

/-- **A pass without a filter stops early only when its heap is full.** If it stops with room to
spare, every new point has all its neighbours seen. -/
theorem Inv.closed_of_stopped {st : State F ι} (hI : Inv P dist nbrs old (fun _ => False) st)
    (hstop : st.Stopped P) (hroom : st.res.length < P.ef) (hkeep : ∀ p, P.keep p = true)
    (hold : ∀ c ∈ st.queue, OrderDual.ofDual c.id ∉ old)
    (hflt : ∀ a b : F, a ≤ b → (∃ s ∈ st.res, s.dist = a) → (∃ s ∈ st.res, s.dist = b) →
      P.flt b a = false) :
    ∀ p ∈ st.seen, p ∉ old → ∀ q ∈ nbrs p, q ∈ st.seen := by
  have hempty : st.queue = [] := by
    cases hq : st.queue with
    | nil => rfl
    | cons c rest =>
      exfalso
      have hc : c ∈ st.queue := by rw [hq]; exact List.mem_cons_self
      obtain ⟨hd, hs⟩ := hI.queue_sound c hc
      have hmem := hI.unfull_kept hroom _ hs (hold c hc) (hkeep _)
      have hle := dist_le_worst (P := P) hI.res_sorted hmem
      have hfar : P.flt (st.worst P) c.dist = true := hstop c (by rw [hq]; rfl)
      have hworst : ∃ s ∈ st.res, s.dist = st.worst P := by
        unfold State.worst
        cases htop : st.res.getLast? with
        | none => exact absurd (List.getLast?_eq_none_iff.mp htop ▸ hmem) List.not_mem_nil
        | some m => exact ⟨m, List.mem_of_getLast? htop, rfl⟩
      rw [hd, hflt _ _ hle ⟨_, hmem, rfl⟩ hworst] at hfar
      exact Bool.false_ne_true hfar
  intro p hp hpo q hqn
  rcases hI.unfull_closed hroom p hp hpo with h | h | h
  · exact h.elim
  · rw [hempty] at h
    exact absurd h List.not_mem_nil
  · exact h q hqn

end complete

/-! ## What a stop leaves out -/

section stop

variable {P : Params F ι} {dist : ι → F} {nbrs : ι → List ι} {old : Finset ι} {Q : ι → Prop}

/-- Reached along neighbours, without going on from what was seen before. -/
def ReachesPast (nbrs : ι → List ι) (old : Finset ι) : ι → ι → Prop :=
  Relation.ReflTransGen fun a b => a ∉ old ∧ b ∈ nbrs a

/-- The pass stops with room in its heap although a queued point has an unseen neighbour. -/
def State.BreaksOff (P : Params F ι) (nbrs : ι → List ι) (st : State F ι) : Prop :=
  st.Stopped P ∧ st.res.length < P.ef ∧
    ∃ c ∈ st.queue, ∃ q ∈ nbrs (OrderDual.ofDual c.id), q ∉ st.seen

/-- Every queued point is new and satisfies `Q`. -/
structure Fresh (Q : ι → Prop) (old : Finset ι) (st : State F ι) : Prop where
  old_seen : old ⊆ st.seen
  queue : ∀ c ∈ st.queue, OrderDual.ofDual c.id ∉ old ∧ Q (OrderDual.ofDual c.id)

omit [LinearOrder F] [LinearOrder ι] in
theorem Fresh.empty : Fresh (F := F) Q old ⟨[], [], old⟩ :=
  ⟨Finset.Subset.refl _, fun _ h => absurd h List.not_mem_nil⟩

theorem Fresh.seed {st : State F ι} (h : Fresh Q old st) {s : Scored F ι} (hnew : s.id ∉ old)
    (hs : Q s.id) : Fresh Q old (st.seed P s) := by
  refine ⟨?_, fun c hc => ?_⟩
  · rw [seen_seed]
    exact h.old_seen.trans (Finset.subset_insert _ _)
  · rw [queue_seed] at hc
    rcases mem_queue_enqueue.mp hc with rfl | hc
    · exact ⟨hnew, hs⟩
    · exact h.queue c hc

theorem Fresh.offer {st : State F ι} (h : Fresh Q old st) (fmax : F) {p : ι} (hp : Q p) :
    Fresh Q old (st.offer P dist fmax p) := by
  refine ⟨?_, fun c hc => ?_⟩
  · rw [seen_offer]
    exact h.old_seen.trans (Finset.subset_insert _ _)
  unfold State.offer at hc
  by_cases hseen : p ∈ st.seen
  · rw [if_pos hseen] at hc
    exact h.queue c hc
  · rw [if_neg hseen] at hc
    rcases mem_queue_accept hc with rfl | hc
    · exact ⟨fun hold => hseen (h.old_seen hold), hp⟩
    · exact h.queue c hc

theorem Fresh.foldl_offer (fmax : F) : ∀ {l : List ι} {st : State F ι}, Fresh Q old st →
    (∀ p ∈ l, Q p) → Fresh Q old (l.foldl (State.offer P dist fmax) st)
  | [], _, h, _ => h
  | p :: l, _, h, hl => Fresh.foldl_offer (l := l) fmax (h.offer fmax (hl p List.mem_cons_self))
      fun q hq => hl q (List.mem_cons_of_mem p hq)

/-- What is closed under going on from new points is never left. -/
theorem Fresh.pass (hn : ∀ p, p ∉ old → Q p → ∀ q ∈ nbrs p, Q q) {st st' : State F ι}
    (h : Fresh Q old st) (hpass : Pass P dist nbrs st st') : Fresh Q old st' := by
  induction hpass with
  | refl => exact h
  | @head st st' _ _ ih =>
    refine ih ?_
    unfold State.expand
    split
    · exact h
    · next c rest hq =>
      have hc : c ∈ st.queue := by rw [hq]; exact List.mem_cons_self
      obtain ⟨hnew, hQ⟩ := h.queue c hc
      refine Fresh.foldl_offer _ ⟨h.old_seen, fun d hd => h.queue d ?_⟩ (hn _ hnew hQ)
      rw [hq]
      exact List.mem_cons_of_mem _ hd

/-- A pass stops in one state. -/
theorem Pass.eq_of_stopped {st a b : State F ι} (ha : Pass P dist nbrs st a) (hsa : a.Stopped P)
    (hb : Pass P dist nbrs st b) (hsb : b.Stopped P) : a = b := by
  induction ha with
  | refl =>
    cases hb with
    | refl => rfl
    | head hopen _ => exact absurd hsa hopen
  | head hopen _ ih =>
    cases hb with
    | refl => exact absurd hsb hopen
    | head _ hb => exact ih hsa hb

/-- **When a heap has room, everything that is reached has been seen** exactly if every queued point
has all its neighbours seen. -/
theorem Inv.reaches_iff {eps : List ι} {st : State F ι}
    (hI : Inv P dist nbrs old (fun _ => False) st)
    (hf : Fresh (fun x => ∃ e ∈ eps, ReachesPast nbrs old e x) old st)
    (hroom : st.res.length < P.ef) (heps : ∀ e ∈ eps, e ∈ st.seen) :
    (∀ e ∈ eps, ∀ x, ReachesPast nbrs old e x → x ∈ st.seen) ↔
      ∀ c ∈ st.queue, ∀ q ∈ nbrs (OrderDual.ofDual c.id), q ∈ st.seen := by
  constructor
  · intro h c hc q hq
    obtain ⟨hnew, e, he, hreach⟩ := hf.queue c hc
    exact h e he q (hreach.tail ⟨hnew, hq⟩)
  · intro h e he x hx
    induction hx with
    | refl => exact heps e he
    | @tail a b _ hstep ih =>
      obtain ⟨hnew, hb⟩ := hstep
      rcases hI.unfull_closed hroom a ih hnew with hbusy | hqueue | hclosed
      · exact hbusy.elim
      · exact h _ hqueue b hb
      · exact hclosed b hb

end stop

/-! ## Termination -/

section termination

variable {P : Params F ι} {dist : ι → F} {nbrs : ι → List ι}

/-- Queued points and points of `U` not seen yet. -/
def measure (U : Finset ι) (st : State F ι) : Nat := st.queue.length + (U \ st.seen).card

theorem measure_offer {U : Finset ι} (fmax : F) (st : State F ι) {p : ι} (hp : p ∈ U) :
    measure U (st.offer P dist fmax p) ≤ measure U st := by
  unfold State.offer
  split_ifs with hs
  · exact le_rfl
  · have hq := length_queue_accept_le (P := P) fmax (st.see p) ⟨dist p, p⟩
    have hcard : (U \ insert p st.seen).card + 1 = (U \ st.seen).card := by
      rw [Finset.sdiff_insert]
      exact Finset.card_erase_add_one (Finset.mem_sdiff.mpr ⟨hp, hs⟩)
    unfold measure
    rw [seen_accept, seen_see]
    simp only [queue_see] at hq
    omega

/-- **Every round shrinks the measure.** -/
theorem measure_expand {U : Finset ι} {st : State F ι} {c : Scored F ιᵒᵈ}
    {rest : List (Scored F ιᵒᵈ)} (hq : st.queue = c :: rest)
    (hU : ∀ q ∈ nbrs (OrderDual.ofDual c.id), q ∈ U) :
    measure U (st.expand P dist nbrs) < measure U st := by
  have hfold : ∀ (l : List ι) (s : State F ι), (∀ q ∈ l, q ∈ U) →
      measure U (l.foldl (State.offer P dist (st.worst P)) s) ≤ measure U s := by
    intro l
    induction l with
    | nil => exact fun s _ => le_rfl
    | cons p l ih =>
      intro s hl
      exact (ih _ fun q hq => hl q (List.mem_cons_of_mem _ hq)).trans
        (measure_offer _ _ (hl p List.mem_cons_self))
  have h1 : st.expand P dist nbrs =
      (nbrs (OrderDual.ofDual c.id)).foldl (State.offer P dist (st.worst P))
        { st with queue := rest } := by
    rw [State.expand, hq]
  rw [h1]
  refine lt_of_le_of_lt (hfold _ _ hU) ?_
  simp only [measure, hq, List.length_cons]
  omega

end termination

end Hannoy.Library.Beam
