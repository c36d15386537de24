import Hannoy.Graph.Levels

/-!
# How many entry points replace the deleted ones (`hnsw.rs:234-256`)

The loop over the deleted entry points keeps its level: the first round goes down from the top and
adds one survivor on every layer that has a new one; each later round stays on layer 0 and adds
one more.

* `Fills`: up to `n` points of a pool are added, fewer only when the pool is exhausted.
* `replaceFrom_fills`: one round. `replaceDeleted_fills`: all rounds; one more point is added than
  entry points were deleted for every layer above 0 that had a new survivor.
-/

namespace Hannoy.Graph

open Hannoy.Library Hannoy.Library.Txn Hannoy.HnswBuilder

variable {lmdb : FrozenReader} {toDelete pool eps eps' eps'' : RoaringBitmap}

/-- `n` points of `pool` are added, or all that are left. -/
structure Fills (pool eps : RoaringBitmap) (n : Nat) (eps' : RoaringBitmap) : Prop where
  kept : eps ⊆ eps'
  within : eps' ⊆ pool
  card : eps'.card = min (eps.card + n) pool.card

theorem Fills.refl (h : eps ⊆ pool) : Fills pool eps 0 eps where
  kept := Finset.Subset.refl _
  within := h
  card := (min_eq_left (Finset.card_le_card h)).symm

theorem Fills.trans {n n' : Nat} (h : Fills pool eps n eps') (h' : Fills pool eps' n' eps'') :
    Fills pool eps (n + n') eps'' where
  kept := h.kept.trans h'.kept
  within := h'.within
  card := by
    have h := h.card
    have h' := h'.card
    omega

theorem Fills.insert {x : ItemId} (hsub : eps ⊆ pool) (hx : x ∈ pool) (hnew : x ∉ eps) :
    Fills pool eps 1 (insert x eps) where
  kept := Finset.subset_insert _ _
  within := Finset.insert_subset hx hsub
  card := by
    have hle := Finset.card_le_card (Finset.insert_subset hx hsub)
    rw [Finset.card_insert_of_notMem hnew] at hle ⊢
    omega

/-! ## One layer -/

/-- Every survivor on the layer is an entry point. -/
def Taken (lmdb : FrozenReader) (toDelete eps : RoaringBitmap) (l : Nat) : Prop :=
  ∀ x s, disk lmdb l x = some s → x ∉ toDelete → x ∈ eps

theorem replaceAt_disk (hwt : lmdb.db.WellTyped lmdb.index) {l : Nat}
    (h : replaceAt toDelete l.toUInt8 lmdb.linksEntries eps = .ok eps') :
    (eps' = eps ∧ Taken lmdb toDelete eps l) ∨
      ∃ x s, disk lmdb l x = some s ∧ x ∉ toDelete ∧ x ∉ eps ∧ eps' = insert x eps := by
  rcases replaceAt_ok h with ⟨rfl, hall⟩ | ⟨⟨k, v⟩, he, hl, hd, hnew, rfl⟩
  · refine Or.inl ⟨rfl, fun x s hs hd => ?_⟩
    exact hall _ ((Database.mem_prefixIter_links hwt).mpr ⟨x, _, s, rfl, rfl, hs⟩) rfl hd
  · obtain ⟨x, l', s, rfl, rfl, hs⟩ := (Database.mem_prefixIter_links hwt).mp he
    obtain rfl : l' = l.toUInt8 := hl
    exact Or.inr ⟨x, s, hs, hd, hnew, rfl⟩

section rounds

variable (hwt : lmdb.db.WellTyped lmdb.index)
  (hpool : ∀ x, x ∈ pool ↔ x ∉ toDelete ∧ ∃ s, disk lmdb 0 x = some s)
include hwt hpool

/-- Layer 0 has a new survivor until the pool is exhausted. -/
theorem replaceAt_fills (hsub : eps ⊆ pool)
    (h : replaceAt toDelete (0 : Nat).toUInt8 lmdb.linksEntries eps = .ok eps') :
    Fills pool eps 1 eps' := by
  rcases replaceAt_disk hwt h with ⟨rfl, htaken⟩ | ⟨x, s, hs, hd, hnew, rfl⟩
  · have hall : pool ⊆ eps' := fun x hx => by
      obtain ⟨hd, s, hs⟩ := (hpool x).mp hx
      exact htaken x s hs hd
    rw [Finset.Subset.antisymm hsub hall]
    exact ⟨Finset.Subset.refl _, Finset.Subset.refl _, by omega⟩
  · exact Fills.insert hsub ((hpool x).mpr ⟨hd, s, hs⟩) hnew

/-- **One round** adds a survivor on layer 0, and one on every layer above that has a new one. -/
theorem replaceFrom_fills (hdown : ∀ {l x s}, l < 256 → disk lmdb l x = some s →
    ∃ s', disk lmdb 0 x = some s') : ∀ {l : Nat} {eps eps' : RoaringBitmap}, l < 256 →
      eps ⊆ pool → replaceFrom lmdb toDelete l eps = .ok eps' →
        ∃ u, Fills pool eps (u + 1) eps' ∧
          (u = 0 ↔ ∀ k, 0 < k → k ≤ l → Taken lmdb toDelete eps k)
  | 0, eps, eps', _, hsub, h => by
    refine ⟨0, replaceAt_fills hwt hpool hsub h, iff_of_true rfl fun k hk hle => ?_⟩
    omega
  | l + 1, eps, eps', hl, hsub, h => by
    obtain ⟨mid, hat, hrest⟩ := ok_bind_iff.mp h
    rcases replaceAt_disk hwt hat with ⟨rfl, htaken⟩ | ⟨x, s, hs, hd, hnew, rfl⟩
    · obtain ⟨u, hfills, hu⟩ := replaceFrom_fills (l := l) hdown (by omega) hsub hrest
      refine ⟨u, hfills, hu.trans ⟨fun hall k hk hle => ?_, fun hall k hk hle => ?_⟩⟩
      · rcases Nat.le_succ_iff.mp hle with hle | rfl
        · exact hall k hk hle
        · exact htaken
      · exact hall k hk (by omega)
    · have hins := Fills.insert hsub ((hpool x).mpr ⟨hd, hdown hl hs⟩) hnew
      obtain ⟨u, hfills, -⟩ := replaceFrom_fills (l := l) hdown (by omega) hins.within hrest
      refine ⟨1 + u, hins.trans hfills, iff_of_false (by omega) fun hall => ?_⟩
      exact hnew (hall (l + 1) (by omega) le_rfl x s hs hd)

/-- **All rounds**: `n` entry points were deleted. -/
theorem replaceDeleted_fills (hdown : ∀ {l x s}, l < 256 → disk lmdb l x = some s →
    ∃ s', disk lmdb 0 x = some s') : ∀ {n l : Nat} {eps eps' : RoaringBitmap}, l < 256 →
      eps ⊆ pool → replaceDeleted lmdb toDelete l n eps = .ok eps' →
        ∃ u, Fills pool eps (u + n) eps' ∧
          (u = 0 ↔ n = 0 ∨ ∀ k, 0 < k → k ≤ l → Taken lmdb toDelete eps k)
  | 0, l, eps, eps', _, hsub, h => by
    cases h
    exact ⟨0, Fills.refl hsub, iff_of_true rfl (Or.inl rfl)⟩
  | n + 1, l, eps, eps', hl, hsub, h => by
    obtain ⟨mid, hfrom, h⟩ := ok_bind_iff.mp h
    obtain ⟨u, hfills, hu⟩ := replaceFrom_fills hwt hpool hdown hl hsub hfrom
    obtain ⟨u', hfills', hu'⟩ := replaceDeleted_fills hdown (by omega) hfills.within h
    -- the later rounds stay on layer 0
    obtain rfl : u' = 0 := hu'.mpr (Or.inr fun k hk hle => by omega)
    refine ⟨u, ?_, hu.trans ⟨Or.inr, fun h => h.resolve_left (by omega)⟩⟩
    have hall := hfills.trans hfills'
    rwa [show u + 1 + (0 + n) = u + (n + 1) by omega] at hall

end rounds

end Hannoy.Graph
