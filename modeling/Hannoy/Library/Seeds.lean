import Hannoy.Library.Beam
import Hannoy.Library.Txn

/-!
# The start of a beam search

`seedAll` registers entry points one after the other, however many they are. It fills the heaps with
all of them at once (`queue_seedAll`, `res_seedAll`), and keeps the invariants of `Library.Beam`.
-/

namespace Hannoy.Library.Beam

variable {F ι : Type} [LinearOrder F] [LinearOrder ι] {P : Params F ι} {dist : ι → F}

/-- Register entry points. -/
def State.seedAll (P : Params F ι) (dist : ι → F) (eps : List ι) (st : State F ι) : State F ι :=
  eps.foldl (fun st ep => st.seed P ⟨dist ep, ep⟩) st

@[simp] theorem seedAll_nil (st : State F ι) : st.seedAll P dist [] = st := rfl
@[simp] theorem seedAll_cons (p : ι) (l : List ι) (st : State F ι) :
    st.seedAll P dist (p :: l) = (st.seed P ⟨dist p, p⟩).seedAll P dist l := rfl

theorem seedAll_of_foldlM {ε : Type} {seed : State F ι → ι → Except ε (State F ι)}
    (hseed : ∀ st p st', seed st p = .ok st' → st' = st.seed P ⟨dist p, p⟩) :
    ∀ {l : List ι} {st st' : State F ι}, l.foldlM seed st = .ok st' → st' = st.seedAll P dist l
  | [], _, _, h => by
    cases h
    rfl
  | p :: l, st, _, h => by
    obtain ⟨mid, hmid, h⟩ := Txn.ok_bind_iff.mp h
    rw [hseed _ _ _ hmid] at h
    exact seedAll_of_foldlM hseed (l := l) h

/-! ## What it leaves -/

theorem seen_seedAll : ∀ (l : List ι) (st : State F ι),
    (st.seedAll P dist l).seen = st.seen ∪ l.toFinset
  | [], st => by simp
  | p :: l, st => by
    rw [seedAll_cons, seen_seedAll l, seen_seed, List.toFinset_cons, Finset.insert_union,
      Finset.union_insert]

theorem queue_seedAll : ∀ (l : List ι) (st : State F ι),
    (st.seedAll P dist l).queue = pushAll (l.map fun p => ⟨dist p, OrderDual.toDual p⟩) st.queue
  | [], _ => rfl
  | p :: l, st => by
    rw [seedAll_cons, queue_seedAll l, queue_seed]
    rfl

theorem res_seedAll : ∀ (l : List ι) (st : State F ι),
    (st.seedAll P dist l).res =
      pushAll ((l.filter (P.keep · = true)).map fun p => ⟨dist p, p⟩) st.res
  | [], _ => rfl
  | p :: l, st => by
    rw [seedAll_cons, res_seedAll l, res_seed, List.filter_cons]
    by_cases hp : P.keep p = true <;> simp [hp, pushAll]

/-- Without a filter all entry points are results. -/
theorem res_seedAll_of_keep (hkeep : ∀ p, P.keep p = true) (l : List ι) (st : State F ι) :
    (st.seedAll P dist l).res = pushAll (l.map fun p => ⟨dist p, p⟩) st.res := by
  rw [res_seedAll, List.filter_eq_self.mpr fun p _ => by simp [hkeep]]

theorem length_queue_seedAll (l : List ι) (st : State F ι) :
    (st.seedAll P dist l).queue.length = st.queue.length + l.length := by
  rw [queue_seedAll, length_pushAll, List.length_map, Nat.add_comm]

theorem mem_queue_seedAll {c : Scored F ιᵒᵈ} {l : List ι} {st : State F ι} :
    c ∈ (st.seedAll P dist l).queue ↔
      c ∈ st.queue ∨ ∃ p ∈ l, c = ⟨dist p, OrderDual.toDual p⟩ := by
  rw [queue_seedAll, mem_pushAll, List.mem_map, or_comm]
  simp only [eq_comm]

theorem length_res_seedAll_le (l : List ι) (st : State F ι) :
    (st.seedAll P dist l).res.length ≤ st.res.length + l.length := by
  have hle := List.length_filter_le (P.keep · = true) l
  rw [res_seedAll, length_pushAll, List.length_map]
  omega

theorem res_seedAll_ne_nil (hkeep : ∀ p, P.keep p = true) {l : List ι} (hl : l ≠ [])
    (st : State F ι) : (st.seedAll P dist l).res ≠ [] := by
  refine List.ne_nil_of_length_pos ?_
  rw [res_seedAll_of_keep hkeep, length_pushAll, List.length_map]
  have := List.length_pos_of_ne_nil hl
  omega

/-- The bound of the first round is the distance of the farthest entry point. -/
theorem worst_seedAll (hkeep : ∀ p, P.keep p = true) {eps : List ι} (hne : eps ≠ [])
    (old : Finset ι) : ∃ far ∈ eps, (State.seedAll P dist eps ⟨[], [], old⟩).worst P = dist far ∧
      ∀ p ∈ eps, dist p ≤ dist far := by
  have hres : (State.seedAll P dist eps ⟨[], [], old⟩).res = _ := res_seedAll_of_keep hkeep eps _
  have hmem : ∀ s, s ∈ (State.seedAll P dist eps ⟨[], [], old⟩).res ↔
      ∃ p ∈ eps, (⟨dist p, p⟩ : Scored F ι) = s := fun s => by
    rw [hres, mem_pushAll, List.mem_map, or_iff_left List.not_mem_nil]
  have hsorted : (State.seedAll P dist eps ⟨[], [], old⟩).res.Pairwise (· ≤ ·) :=
    hres ▸ pairwise_pushAll .nil
  obtain ⟨p, hp⟩ := List.exists_mem_of_ne_nil eps hne
  cases htop : (State.seedAll P dist eps ⟨[], [], old⟩).res.getLast? with
  | none =>
    have := (hmem ⟨dist p, p⟩).mpr ⟨p, hp, rfl⟩
    rw [List.getLast?_eq_none_iff.mp htop] at this
    exact absurd this List.not_mem_nil
  | some top =>
    obtain ⟨far, hfar, rfl⟩ := (hmem top).mp (List.mem_of_getLast? htop)
    refine ⟨far, hfar, by rw [State.worst, htop], fun q hq => ?_⟩
    exact Scored.dist_le_of_le (le_getLast hsorted htop _ ((hmem _).mpr ⟨q, hq, rfl⟩))

/-- Whether an entry point was seen before makes no difference. -/
theorem seedAll_sdiff (eps : List ι) (old : Finset ι) :
    State.seedAll P dist eps ⟨[], [], old \ eps.toFinset⟩ =
      State.seedAll P dist eps ⟨[], [], old⟩ := by
  have hext : ∀ st st' : State F ι, st.queue = st'.queue → st.res = st'.res → st.seen = st'.seen →
      st = st' := fun ⟨_, _, _⟩ ⟨_, _, _⟩ hq hr hs => by
    cases hq
    cases hr
    cases hs
    rfl
  refine hext _ _ ?_ ?_ ?_
  · rw [queue_seedAll, queue_seedAll]
  · rw [res_seedAll, res_seedAll]
  · rw [seen_seedAll, seen_seedAll]
    exact Finset.sdiff_union_self_eq_union

/-! ## What it keeps -/

theorem Within.seedAll {Q : ι → Prop} : ∀ {l : List ι} {st : State F ι}, Within Q st →
    (∀ p ∈ l, Q p) → Within Q (st.seedAll P dist l)
  | [], _, h, _ => h
  | p :: l, _, h, hl =>
    Within.seedAll (l := l) (h.seed (hl p List.mem_cons_self))
      fun q hq => hl q (List.mem_cons_of_mem _ hq)

theorem Fresh.seedAll {Q : ι → Prop} {old : Finset ι} : ∀ {l : List ι} {st : State F ι},
    Fresh Q old st → (∀ p ∈ l, p ∉ old ∧ Q p) → Fresh Q old (st.seedAll P dist l)
  | [], _, h, _ => h
  | p :: l, _, h, hl =>
    Fresh.seedAll (l := l)
      (h.seed (hl p List.mem_cons_self).1 (hl p List.mem_cons_self).2)
      fun q hq => hl q (List.mem_cons_of_mem _ hq)

/-- Entry points that are distinct and new. -/
theorem Inv.seedAll {nbrs : ι → List ι} {old : Finset ι} {busy : ι → Prop} :
    ∀ {l : List ι} {st : State F ι}, Inv P dist nbrs old busy st → l.Nodup →
      (∀ p ∈ l, p ∉ st.seen) → Inv P dist nbrs old busy (st.seedAll P dist l)
  | [], _, h, _, _ => h
  | p :: l, st, h, hnd, hnew => by
    obtain ⟨hp, hnd⟩ := List.nodup_cons.mp hnd
    refine Inv.seedAll (l := l) (h.seed (hnew p List.mem_cons_self)) hnd fun q hq hseen => ?_
    rw [seen_seed] at hseen
    rcases Finset.mem_insert.mp hseen with rfl | hseen
    · exact hp hq
    · exact hnew q (List.mem_cons_of_mem _ hq) hseen

end Hannoy.Library.Beam
