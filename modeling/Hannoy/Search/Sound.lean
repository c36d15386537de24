import Hannoy.Search.Query

/-!
# Soundness of the answers

Whatever the path, and whether or not the query is cancelled, the answer consists of distinct
stored candidates with their distances, nearest first, and no more of them than asked for.

* `nnsByVec_sound`, `nnsByItem_sound`: the answers of the two searches.
* `search_sound`: the answers of the four queries.
-/

namespace Hannoy.Search

open Hannoy.Library Hannoy.Index

variable {D : Distance} {query : Item} {r : Reader} {db : Database} {opt : QueryBuilder}
  {cancel : CancelFn}

/-- A sound answer. -/
structure Sound (D : Distance) (query : Item) (r : Reader) (db : Database) (opt : QueryBuilder)
    (nns : List (ItemId × F32)) : Prop where
  length : nns.length ≤ opt.count
  nodup : (nns.map Prod.fst).Nodup
  items : ∀ p ∈ nns, p.1 ∈ r.items
  candidates : ∀ c, opt.candidates = some c → ∀ p ∈ nns, p.1 ∈ c
  distance : ∀ p ∈ nns, ∃ it, db.item? r.index p.1 = some it ∧ p.2 = D.distance query it
  sorted : nns.Pairwise fun a b => a.2 ≤ b.2

theorem Sound.nil : Sound D query r db opt [] where
  length := Nat.zero_le _
  nodup := List.nodup_nil
  items _ h := absurd h List.not_mem_nil
  candidates _ _ _ h := absurd h List.not_mem_nil
  distance _ h := absurd h List.not_mem_nil
  sorted := List.Pairwise.nil

/-- What is found makes a sound answer. -/
theorem sound_of_found (hs : Searchable r db) {keep : ItemId → Bool} {heap : List ScoredLink}
    (h : Found D query r db keep heap)
    (hk : ∀ x, keep x = true → ∀ c, opt.candidates = some c → x ∈ c) :
    Sound D query r db opt ((Reader.output heap).take opt.count) := by
  have hmem : ∀ p ∈ (Reader.output heap).take opt.count, ∃ s ∈ heap, p = (s.id, s.dist) := by
    intro p hp
    obtain ⟨s, hs', rfl⟩ := List.mem_map.mp (List.mem_of_mem_take hp)
    exact ⟨s, hs', rfl⟩
  refine ⟨List.length_take_le _ _, ?_, fun p hp => ?_, fun c hc p hp => ?_, fun p hp => ?_, ?_⟩
  · have : ((Reader.output heap).map Prod.fst).Nodup := by
      rw [Reader.output, List.map_map]
      exact h.nodup_ids
    rw [List.map_take]
    exact this.sublist (List.take_sublist _ _)
  · obtain ⟨s, hs', rfl⟩ := hmem p hp
    exact (h.sound s hs').2.2
  · obtain ⟨s, hs', rfl⟩ := hmem p hp
    exact hk s.id (h.sound s hs').2.1 c hc
  · obtain ⟨s, hs', rfl⟩ := hmem p hp
    obtain ⟨hsc, -, hit⟩ := h.sound s hs'
    obtain ⟨it, hit⟩ := hs.exists_item hit
    refine ⟨it, hit, ?_⟩
    rw [hsc]
    show score D query r db s.id = _
    rw [score, hit]
  · refine List.Pairwise.sublist (List.take_sublist _ _) ?_
    rw [Reader.output]
    exact List.pairwise_map.mpr (h.sorted.imp fun hab => Scored.dist_le_of_le hab.le)

/-- The answer of a linear scan. -/
theorem sound_scan (hv : ValidIndex D r db) (hsym : SymmetricTo D query r db) {c : RoaringBitmap}
    (hc : opt.candidates = some c) : Sound D query r db opt
      (Reader.output (smallest opt.count (scanPairs D query r db cancel c))) := by
  have hlen : (Reader.output (smallest opt.count (scanPairs D query r db cancel c))).length ≤
      opt.count := by
    rw [Reader.output, List.length_map, length_smallest]
    exact min_le_left _ _
  rw [← List.take_of_length_le hlen]
  refine sound_of_found hv.toSearchable (found_scan hv hsym c) fun x hx c' hc' => ?_
  rw [hc] at hc'
  cases hc'
  exact of_decide_eq_true hx

/-- **`nns_by_vec` is sound.** -/
theorem nnsByVec_sound_to (hv : ValidIndex D r db) (hsym : SymmetricTo D query r db)
    {out : Completion (List (ItemId × F32))}
    (h : r.nnsByVec D db opt query cancel = .ok out) : Sound D query r db opt out.intoInner := by
  have hs := hv.toSearchable
  rcases nnsByVec_cases D opt hs query cancel with
    ⟨-, heq⟩ | ⟨-, -, c, hc, heq⟩ | ⟨-, -, v, -, hl, heq⟩
  · rw [heq] at h
    cases h
    exact Sound.nil
  · rw [heq, bruteForceSearch_ok hs.typed c] at h
    cases h
    rw [Completion.intoInner_ite]
    exact sound_scan hv hsym hc
  · obtain ⟨_, _, found, -, hfound, hlayer⟩ :=
      searchLayer0_byVector D query opt hs hl cancel
    rw [heq, hfound] at h
    cases h
    rw [Completion.intoInner_map]
    refine sound_of_found hs hlayer.found fun x hx c hc => ?_
    rw [optKeep, hc] at hx
    exact of_decide_eq_true hx

theorem nnsByVec_sound (hv : ValidIndex D r db) (hsym : Symmetric D)
    {out : Completion (List (ItemId × F32))}
    (h : r.nnsByVec D db opt query cancel = .ok out) : Sound D query r db opt out.intoInner :=
  nnsByVec_sound_to hv hsym.to h

/-- **`nns_by_item` is sound**, for the stored item as the query. -/
theorem nnsByItem_sound_to (hv : ValidIndex D r db) {item : ItemId}
    (hsym : ∀ it, db.item? r.index item = some it → SymmetricTo D it r db)
    {out : Completion (List (ItemId × F32))}
    (h : r.nnsByItem D db opt item cancel = .ok (some out)) :
    ∃ it, db.item? r.index item = some it ∧ Sound D it r db opt out.intoInner := by
  have hs := hv.toSearchable
  rcases nnsByItem_cases D opt hs item cancel with
    ⟨-, heq⟩ | ⟨it, hit, -, hpath⟩
  · rw [heq] at h
    cases h
  refine ⟨it, hit, ?_⟩
  replace hsym := hsym it hit
  -- the query is the stored item
  obtain ⟨vec, hlen, rfl⟩ := hv.vectors hit
  rw [← hlen, Item.ofVector_toVector] at hpath
  rcases hpath with ⟨-, c, hc, heq⟩ | ⟨-, v, hl, -, hef, hk, heq⟩
  · rw [heq, bruteForceSearch_ok hs.typed c] at h
    cases h
    rw [Completion.intoInner_ite]
    exact sound_scan hv hsym hc
  · obtain ⟨_, found, hfound, hlayer⟩ :=
      searchLayer0_byItem D (Item.ofVector D vec) hs hl hef hk cancel
    rw [heq, hfound] at h
    cases h
    rw [Completion.intoInner_map]
    refine sound_of_found hs hlayer.found fun x hx c hc => ?_
    rw [itemKeep, hc] at hx
    exact Finset.mem_of_mem_erase (of_decide_eq_true hx)

theorem nnsByItem_sound (hv : ValidIndex D r db) (hsym : Symmetric D) {item : ItemId}
    {out : Completion (List (ItemId × F32))}
    (h : r.nnsByItem D db opt item cancel = .ok (some out)) :
    ∃ it, db.item? r.index item = some it ∧ Sound D it r db opt out.intoInner :=
  nnsByItem_sound_to hv (fun _ _ => hsym.to) h

/-- **Every answer is sound**: `by_vector` for the item made of the vector, `by_item` for the stored
item, complete or cancelled. -/
theorem search_sound (hv : ValidIndex D r db) (hsym : Symmetric D) (opt : QueryBuilder)
    (vector : List F32) (item : ItemId) (cancel : CancelFn) :
    (∀ out, r.byVector D db opt vector = .ok out →
      Sound D (Item.ofVector D vector) r db opt out.nns) ∧
    (∀ out, r.byVectorWithCancellation D db opt vector cancel = .ok out →
      Sound D (Item.ofVector D vector) r db opt out.nns) ∧
    (∀ out, r.byItem D db opt item = .ok (some out) →
      ∃ it, db.item? r.index item = some it ∧ Sound D it r db opt out.nns) ∧
    (∀ out, r.byItemWithCancellation D db opt item cancel = .ok (some out) →
      ∃ it, db.item? r.index item = some it ∧ Sound D it r db opt out.nns) := by
  refine ⟨fun out h => ?_, fun out h => ?_, fun out h => ?_, fun out h => ?_⟩
  · obtain ⟨found, hfound, heq⟩ := byVector_ok h
    rw [heq]
    exact nnsByVec_sound hv hsym hfound
  · obtain ⟨found, hfound, heq⟩ := byVectorWithCancellation_ok h
    rw [heq]
    exact nnsByVec_sound hv hsym hfound
  · obtain ⟨found, hfound, heq⟩ := byItem_ok h
    rw [heq]
    exact nnsByItem_sound hv hsym hfound
  · obtain ⟨found, hfound, heq⟩ := byItemWithCancellation_ok h
    rw [heq]
    exact nnsByItem_sound hv hsym hfound

/-- The search from item 1 answers with both items, item 1 first. -/
theorem sound_twoItems : ∃ db r, opened manhattan 0 twoItems = some (db, r) ∧
    r.byVector manhattan db (nns 2) [F32.one] = .ok ⟨[(1, F32.zero), (0, F32.one)], false⟩ ∧
    Sound manhattan (Item.ofVector manhattan [F32.one]) r db (nns 2)
      [(1, F32.zero), (0, F32.one)] := by
  have h : ((opened manhattan 0 twoItems).bind fun x =>
      (x.2.byVector manhattan x.1 (nns 2) [F32.one]).toOption) =
        some ⟨[(1, F32.zero), (0, F32.one)], false⟩ := by
    decide +kernel
  obtain ⟨⟨db, r⟩, hopened, h⟩ := Option.bind_eq_some_iff.mp h
  obtain ⟨-, -, hv⟩ := valid_of_opened (n := 1) (by decide) (by decide) hopened
  have hanswer := Txn.ok_of_toOption h
  exact ⟨db, r, hopened, hanswer,
    (search_sound hv manhattan_symm (nns 2) [F32.one] 0 fun _ => false).1 _ hanswer⟩

end Hannoy.Search
