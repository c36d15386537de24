import Hannoy.Search.Query

/-!
# Search with a large beam

When the beam is at least as wide as the index is large, and layer 0 is connected from the points
the descent hands to it, the search of the graph visits everything: it returns what a linear scan
over all items would.

* `Ends.exhausts`: the first visit of layer 0 finds every item.
* `by_vector_exact`: the answer is the first `count` items in the order (distance, id).
-/

namespace Hannoy.Search

open Hannoy.Library Hannoy.Library.Beam Hannoy.Index

variable {D : Distance} {query : Item} {r : Reader} {db : Database} {opt : QueryBuilder}

/-- On the distances of some points to the query, `f32` comparison and `OrderedFloat` agree. -/
def Agree (D : Distance) (query : Item) (r : Reader) (db : Database) (points : RoaringBitmap) :
    Prop :=
  ∀ x ∈ points, ∀ y ∈ points, F32.flt (score D query r db x) (score D query r db y) =
    decide (score D query r db x < score D query r db y)

/-- Every item is reached through links of layer 0 from every point the descent hands to it. -/
def Connected (D : Distance) (query : Item) (r : Reader) (db : Database) : Prop :=
  ∀ v, r.descend D db query r.maxLevel (topVisitor r) ∅ = .ok v → ∀ e ∈ v.eps, ∀ x ∈ r.items,
    Relation.ReflTransGen (fun a b => b ∈ neighbours r db 0 a) e x

/-- What is closed under links holds everything that is reached. -/
theorem mem_of_reach {seen : RoaringBitmap} {nbrs : ItemId → List ItemId}
    (hclosed : ∀ p ∈ seen, ∀ q ∈ nbrs p, q ∈ seen) {e x : ItemId} (he : e ∈ seen)
    (h : Relation.ReflTransGen (fun a b => b ∈ nbrs a) e x) : x ∈ seen := by
  induction h with
  | refl => exact he
  | tail _ hstep ih => exact hclosed _ ih _ hstep

/-- A visit with a wide beam keeps every candidate it sees. -/
theorem Ends.keeps_seen (hs : Searchable r db) {v : Visitor} (hnd : v.eps.Nodup)
    (hef : r.items.card ≤ v.ef) {cancel : CancelFn} {st : State F32 ItemId} {visited : Visited}
    (h : Ends D v query r db cancel (startState D v query r db ∅) st visited) {x : ItemId}
    (hx : x ∈ r.items) (hseen : st.res.length < v.ef → x ∈ st.seen) (hk : v.keep x = true) :
    scored D query r db x ∈ st.res := by
  have hnew : ∀ ep ∈ v.eps, ep ∉ (∅ : RoaringBitmap) := fun ep _ => Finset.notMem_empty ep
  have hI := h.inv hnd hnew
  have hfound := (h.finds hs hnd hnew).found
  by_cases hroom : st.res.length < v.ef
  · exact hI.unfull_kept hroom x (hseen hroom) (Finset.notMem_empty x) hk
  · -- a full heap holds as many points as there are items
    exact hfound.mem_of_card_le (by omega) hx

/-- **A visit with a wide beam finds everything** it is connected to. -/
theorem Ends.exhausts (hs : Searchable r db) {v : Visitor} (hl : Landed r db v)
    (hef : r.items.card ≤ v.ef) (hkeep : ∀ p, v.keep p = true) (hagree : Agree D query r db r.items)
    (hreach : ∀ e ∈ v.eps, ∀ x ∈ r.items,
      Relation.ReflTransGen (fun a b => b ∈ neighbours r db 0 a) e x)
    {st : State F32 ItemId} {visited : Visited}
    (h : Ends D v query r db (fun _ => false) (startState D v query r db ∅) st visited) :
    ∀ x ∈ r.items, scored D query r db x ∈ st.res := by
  have hnew : ∀ ep ∈ v.eps, ep ∉ (∅ : RoaringBitmap) := fun ep _ => Finset.notMem_empty ep
  have hI := h.inv hl.nodup hnew
  intro x hx
  refine h.keeps_seen hs hl.nodup hef hx (fun hroom => ?_) (hkeep x)
  -- the heap is not full, so the visit only stopped because its queue was exhausted
  have hstop : st.Stopped v.params := by
    rcases h.completion with ⟨-, hstop⟩ | ⟨-, n, hn⟩
    · exact hstop
    · exact absurd hn Bool.false_ne_true
  have hscore : ∀ s ∈ st.res, s.dist = score D query r db s.id ∧ s.id ∈ r.items := fun s hs' =>
    ⟨(hI.res_sound s hs').1, (h.within.res s hs').mem_items hs⟩
  have hclosed := hI.closed_of_stopped hstop hroom hkeep (fun c _ => Finset.notMem_empty _) (by
    rintro a b hab ⟨s, hs₁, rfl⟩ ⟨t, ht, rfl⟩
    obtain ⟨h1, h1'⟩ := hscore s hs₁
    obtain ⟨h2, h2'⟩ := hscore t ht
    rw [h1, h2] at hab ⊢
    show F32.flt _ _ = false
    rw [hagree _ h2' _ h1']
    exact decide_eq_false hab.not_gt)
  obtain ⟨e, he⟩ := List.exists_mem_of_ne_nil _ hl.nonempty
  refine mem_of_reach (fun p hp q hq => ?_) ?_ (hreach e he x hx)
  · exact hclosed p hp (Finset.notMem_empty p) q (by rw [hl.level]; exact hq)
  · rw [← h.path]
    exact (h.finds hs hl.nodup hnew).entry e he

/-- The items of a set in the order (distance, id), cut at `count`. -/
def nearest (D : Distance) (query : Item) (r : Reader) (db : Database) (items : RoaringBitmap)
    (count : Nat) : List (ItemId × F32) :=
  Reader.output (smallest count ((ascending items).map (scored D query r db)))

theorem scored_injective : Function.Injective (scored D query r db) :=
  fun _ _ h => congrArg Scored.id h

/-- A heap that holds every item that passes the filter is the sorted list of them. -/
theorem Found.eq_sorted {keep : ItemId → Bool} {heap : List ScoredLink}
    (h : Found D query r db keep heap)
    (hall : ∀ x ∈ r.items, keep x = true → scored D query r db x ∈ heap) :
    heap = ((ascending (r.items.filter (keep · = true))).map
      (scored D query r db)).insertionSort (· ≤ ·) := by
  have hperm := List.perm_insertionSort (· ≤ ·)
    ((ascending (r.items.filter (keep · = true))).map (scored D query r db))
  refine eq_of_perm_of_sorted (List.Perm.trans ?_ hperm.symm) (h.sorted.imp le_of_lt)
    (List.pairwise_insertionSort _ _)
  refine (List.perm_ext_iff_of_nodup (h.sorted.imp ne_of_lt)
    ((nodup_ascending _).map scored_injective)).mpr fun s => ?_
  rw [List.mem_map]
  constructor
  · intro hs'
    obtain ⟨heq, hk, hmem⟩ := h.sound s hs'
    exact ⟨s.id, mem_ascending.mpr (Finset.mem_filter.mpr ⟨hmem, hk⟩), heq.symm⟩
  · rintro ⟨x, hx, rfl⟩
    obtain ⟨hmem, hk⟩ := Finset.mem_filter.mp (mem_ascending.mp hx)
    exact hall x hmem hk

/-- The first `count` of such a heap. -/
theorem Found.take_eq {keep : ItemId → Bool} {heap : List ScoredLink}
    (h : Found D query r db keep heap)
    (hall : ∀ x ∈ r.items, keep x = true → scored D query r db x ∈ heap) (count : Nat) :
    (Reader.output heap).take count =
      nearest D query r db (r.items.filter (keep · = true)) count := by
  rw [nearest, smallest, Reader.output, Reader.output, List.map_take, ← h.eq_sorted hall]

theorem nnsByVec_exact (hs : Searchable r db) (hnone : opt.candidates = none)
    (hef : r.items.card ≤ opt.ef) (hagree : Agree D query r db r.items)
    (hconn : Connected D query r db) :
    r.nnsByVec D db opt query (fun _ => false) =
      .ok (.done (nearest D query r db r.items opt.count)) := by
  rcases nnsByVec_cases D opt hs query fun _ => false with
    ⟨hno, heq⟩ | ⟨-, -, c, hc, -⟩ | ⟨-, -, v, hv, hl, heq⟩
  · have hempty : r.items = ∅ := by
      rw [Reader.noCandidates, hnone] at hno
      simpa using hno
    have hnil : ascending (∅ : RoaringBitmap) = [] := List.length_eq_zero_iff.mp (by simp)
    rw [heq, nearest, hempty, hnil]
    simp [smallest, Reader.output]
  · rw [hnone] at hc
    cases hc
  · obtain ⟨visited, st, out, hends, hout, hlayer⟩ :=
      searchLayer0_byVector D query opt hs hl fun _ => false
    have hall := hends.exhausts hs
      hl.vectorVisitor
      (hef.trans (le_max_left _ _))
      (fun p => by rw [Visitor.keep, vectorVisitor, hnone]) hagree (hconn v hv)
    rw [heq, hout]
    cases out with
    | cancelled heap =>
      obtain ⟨n, hn⟩ := hlayer.cancelled heap rfl
      exact absurd hn Bool.false_ne_true
    | done heap =>
      have htake := hlayer.found.take_eq (fun x hx _ => hlayer.grows heap rfl _ (hall x hx))
        opt.count
      have hitems : r.items.filter (optKeep opt · = true) = r.items :=
        Finset.filter_true_of_mem fun x _ => by rw [optKeep, hnone]
      rw [hitems] at htake
      exact congrArg (fun l => Except.ok (Completion.done l)) htake

/-- The linear scan over candidates returns the stored ones in the order (distance, id). -/
theorem bruteForceSearch_inter (hv : ValidIndex D r db) (hsym : SymmetricTo D query r db)
    (c : RoaringBitmap) (count : Nat) :
    r.bruteForceSearch D db query c count (fun _ => false) =
      .ok (.done (nearest D query r db (r.items ∩ c) count)) := by
  have hscore : ∀ x, scanScore D query r db x =
      if x ∈ r.items then some (scored D query r db x) else none := by
    intro x
    by_cases hx : x ∈ r.items
    · obtain ⟨it, hit⟩ := hv.toSearchable.exists_item hx
      rw [if_pos hx, (scanScore_eq_some hv).mpr ⟨it, hit, rfl⟩, ← hsym x it hit, scored, score,
        hit]
    · rw [if_neg hx, scanScore, Option.map_eq_none_iff, ← Option.not_isSome_iff_eq_none]
      exact fun h => hx ((hv.items x).mpr h)
  have hfilter : (ascending c).filter (· ∈ r.items) = ascending (r.items ∩ c) := by
    refine (ascending_eq ((ascending_lt c).filter _) fun x => ?_).symm
    rw [List.mem_filter, mem_ascending, decide_eq_true_iff, Finset.mem_inter, and_comm]
  have hpairs : scanPairs D query r db (fun _ => false) c =
      (ascending (r.items ∩ c)).map (scored D query r db) := by
    rw [scanPairs, (reached_never _ 0 fun _ => rfl).1, ← hfilter, ← List.filterMap_eq_map,
      List.filterMap_filter]
    refine List.filterMap_congr fun x _ => ?_
    rw [hscore]
    simp only [decide_eq_true_iff, Function.comp]
  rw [bruteForceSearch_ok hv.typed, (reached_never _ 0 fun _ => rfl).2, hpairs]
  rfl

theorem bruteForceSearch_exact (hv : ValidIndex D r db) (hsym : SymmetricTo D query r db)
    (count : Nat) :
    r.bruteForceSearch D db query r.items count (fun _ => false) =
      .ok (.done (nearest D query r db r.items count)) := by
  rw [bruteForceSearch_inter hv hsym, Finset.inter_self]

/-- **Search with a large beam is exact.** Without candidates, with a beam at least as wide as the
index is large, on a graph connected on layer 0: `by_vector` returns the first `count` items in the
order (distance, id), as the linear scan over all items does. -/
theorem by_vector_exact (hv : ValidIndex D r db) {vector : List F32}
    (hlen : vector.length = r.dimensions) (hnone : opt.candidates = none)
    (hef : r.items.card ≤ opt.ef) (hagree : Agree D (Item.ofVector D vector) r db r.items)
    (hconn : Connected D (Item.ofVector D vector) r db) :
    r.byVector D db opt vector =
        .ok ⟨nearest D (Item.ofVector D vector) r db r.items opt.count, false⟩ ∧
      (nearest D (Item.ofVector D vector) r db r.items opt.count).length =
        min opt.count r.items.card ∧
      (Symmetric D → r.bruteForceSearch D db (Item.ofVector D vector) r.items opt.count
        (fun _ => false) =
          .ok (.done (nearest D (Item.ofVector D vector) r db r.items opt.count))) := by
  refine ⟨?_, ?_, fun hsym => bruteForceSearch_exact hv hsym.to opt.count⟩
  · unfold Reader.byVector Reader.queryItem
    rw [if_neg (not_not.mpr hlen)]
    simp only [bind, Except.bind, pure, Except.pure,
      nnsByVec_exact hv.toSearchable hnone hef hagree hconn]
    rfl
  · rw [nearest, Reader.output, List.length_map, length_smallest, List.length_map,
      length_ascending]

theorem exact_twoItems : ∃ db r, opened manhattan 0 twoItems = some (db, r) ∧
    r.byVector manhattan db (nns 2) [F32.one] =
      .ok ⟨nearest manhattan (Item.ofVector manhattan [F32.one]) r db r.items 2, false⟩ := by
  have h : ((opened manhattan 0 twoItems).map fun x => (x.2.items, x.2.dimensions,
      neighbours x.2 x.1 0 0, neighbours x.2 x.1 0 1,
      score manhattan (Item.ofVector manhattan [F32.one]) x.2 x.1 0,
      score manhattan (Item.ofVector manhattan [F32.one]) x.2 x.1 1)) =
        some ({0, 1}, 1, [1], [0], F32.one, F32.zero) := by
    decide +kernel
  obtain ⟨⟨db, r⟩, hopened, h⟩ := Option.map_eq_some_iff.mp h
  simp only [Prod.mk.injEq] at h
  obtain ⟨hitems, hdim, h01, h10, hscore0, hscore1⟩ := h
  obtain ⟨-, -, hv⟩ := valid_of_opened (n := 1) (by decide) (by decide) hopened
  have hagree : Agree manhattan (Item.ofVector manhattan [F32.one]) r db r.items := by
    intro a ha b hb
    rw [hitems, Finset.mem_insert, Finset.mem_singleton] at ha hb
    rcases ha with rfl | rfl <;> rcases hb with rfl | rfl <;>
      simp only [hscore0, hscore1] <;> decide +kernel
  have hreach : ∀ e ∈ r.items, ∀ x ∈ r.items,
      Relation.ReflTransGen (fun a b => b ∈ neighbours r db 0 a) e x := by
    rw [hitems]
    intro e he x hx
    simp only [Finset.mem_insert, Finset.mem_singleton] at he hx
    rcases he with rfl | rfl <;> rcases hx with rfl | rfl
    · exact .refl
    · exact .single (by rw [h01]; exact List.mem_singleton_self _)
    · exact .single (by rw [h10]; exact List.mem_singleton_self _)
    · exact .refl
  obtain ⟨v, hv', hl⟩ := descend_top_ok manhattan (Item.ofVector manhattan [F32.one])
    hv.toSearchable (by rw [hitems]; exact Finset.insert_ne_empty _ _)
  have hlen : [F32.one].length = r.dimensions := hdim.symm
  have hcard : r.items.card ≤ (nns 2).ef := by rw [hitems]; decide
  refine ⟨db, r, hopened, (by_vector_exact hv hlen rfl hcard hagree
    fun v₁ hv₁ e he x hx => hreach e ?_ x hx).1⟩
  rw [hv'] at hv₁
  cases hv₁
  exact (hl.hasLinks e he).mem_items hv.toSearchable

end Hannoy.Search
