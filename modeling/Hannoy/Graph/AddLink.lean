import Hannoy.Graph.Layers
import Hannoy.Model.Insert

/-!
# A new link of a full list (`hnsw.rs:520-597`)

`add_link` prunes a full list as it is: the new link takes no part, where `fill_gaps_from_deleted`
pushes a link before it prunes.

* `robustPruneLoop_of_notMem`: a candidate that is not selected does not change what is.
* `addLink_ok`: the entry `add_link` leaves.
* `competes_iff`: a new link competes for its place exactly when there is room, or when it is not
  the nearest and pruning would not select it.
* `nearer_link_left_out`: a full list keeps its links when a nearer one comes.
-/

namespace Hannoy.Graph

open Hannoy.Library Hannoy.Library.Server Hannoy.Library.Txn Hannoy.HnswBuilder

variable {D : Distance} {M M0 : Nat} {alpha : F32} {lmdb : FrozenReader}

/-! ## Pruning with one more candidate -/

/-- What is selected stays. -/
theorem mem_robustPruneLoop_of_selected {cap : Nat} : ∀ {candidates selected out : List ScoredLink},
    robustPruneLoop D alpha lmdb cap candidates selected = .ok out → ∀ s ∈ selected, s ∈ out
  | [], _, _, h, s, hs => by
    cases h
    exact hs
  | c :: candidates, selected, out, h, s, hs => by
    rw [robustPruneLoop] at h
    split_ifs at h
    · cases h
      exact hs
    · obtain ⟨ok, -, h⟩ := ok_bind_iff.mp h
      cases ok with
      | true => exact mem_robustPruneLoop_of_selected h s (List.mem_append_left _ hs)
      | false => exact mem_robustPruneLoop_of_selected h s hs

/-- **A candidate that is not selected does not change the selection.** -/
theorem robustPruneLoop_of_notMem {cap : Nat} {q : ScoredLink} :
    ∀ {candidates selected out : List ScoredLink},
      robustPruneLoop D alpha lmdb cap (push q candidates) selected = .ok out → q ∉ out →
        robustPruneLoop D alpha lmdb cap candidates selected = .ok out
  | candidates, selected, out, h, hq => by
    have hskip : robustPruneLoop D alpha lmdb cap (q :: candidates) selected = .ok out →
        robustPruneLoop D alpha lmdb cap candidates selected = .ok out := by
      intro h
      rw [robustPruneLoop] at h
      split_ifs at h with hcap
      · cases h
        cases candidates with
        | nil => rfl
        | cons c candidates => rw [robustPruneLoop, if_pos hcap]; rfl
      · obtain ⟨ok, -, h⟩ := ok_bind_iff.mp h
        cases ok with
        | true =>
          exact absurd (mem_robustPruneLoop_of_selected h q
            (List.mem_append_right _ (List.mem_singleton_self q))) hq
        | false => exact h
    cases candidates with
    | nil => exact hskip h
    | cons c candidates =>
      rw [push, List.orderedInsert] at h
      split_ifs at h with hle
      · exact hskip h
      · rw [robustPruneLoop] at h ⊢
        split_ifs at h ⊢ with hcap
        · exact h
        · obtain ⟨ok, hok, h⟩ := ok_bind_iff.mp h
          refine ok_bind_iff.mpr ⟨ok, hok, ?_⟩
          cases ok with
          | true => exact robustPruneLoop_of_notMem h hq
          | false => exact robustPruneLoop_of_notMem h hq

theorem robustPrune_of_notMem {links out : List ScoredLink} {q : ScoredLink} {level : Nat}
    (h : robustPrune D M M0 alpha lmdb (links ++ [q]) level = .ok out) (hq : q ∉ out) :
    robustPrune D M M0 alpha lmdb links level = .ok out := by
  have hsort : (links ++ [q]).insertionSort (· ≤ ·) = push q (links.insertionSort (· ≤ ·)) :=
    insertionSort_eq_of_perm (List.perm_append_singleton q links)
  rw [robustPrune, hsort] at h
  exact robustPruneLoop_of_notMem h hq

/-! ## `add_link` -/

variable (D M alpha lmdb) in
/-- `update_or_insert_with` writes what the closure that applies returns. -/
theorem exec_update {level : Nat} {layers : Layers M0} (hlevel : level < layers.length)
    (p : ItemId) (q : ScoredLink) : ∃ entry : Except Failure (NodeState M0),
      ((∃ old, layers.get? level p = some old ∧
          entry = addLinkUpdate D M alpha lmdb level q old) ∨
        (layers.get? level p = none ∧ entry = addLinkInsert q)) ∧
      ((∃ node, entry = .ok node ∧ exec D M alpha lmdb (.updateOrInsertWith level p q) layers =
          (.done, layers.insert level p node)) ∨
        ∃ e, entry = .error e ∧ exec D M alpha lmdb (.updateOrInsertWith level p q) layers =
          (.failed e, layers)) := by
  have hmap : layers[level]? = some layers[level] := List.getElem?_eq_getElem hlevel
  have hget : layers.get? level p = layers[level][p]? := by
    unfold Layers.get?
    rw [hmap]
  rw [hget]
  unfold exec
  simp only [Request.level, hmap]
  cases hold : layers[level][p]? with
  | some old =>
    refine ⟨addLinkUpdate D M alpha lmdb level q old, Or.inl ⟨old, rfl, rfl⟩, ?_⟩
    dsimp only
    cases addLinkUpdate D M alpha lmdb level q old with
    | ok node => exact Or.inl ⟨node, rfl, rfl⟩
    | error e => exact Or.inr ⟨e, rfl, rfl⟩
  | none =>
    refine ⟨addLinkInsert q, Or.inr ⟨rfl, rfl⟩, ?_⟩
    dsimp only
    cases (addLinkInsert q : Except Failure (NodeState M0)) with
    | ok node => exact Or.inl ⟨node, rfl, rfl⟩
    | error e => exact Or.inr ⟨e, rfl, rfl⟩

/-- **The entry `add_link` leaves.** -/
theorem addLink_ok {p : ItemId} {q : ScoredLink} {level : Nat} {layers layers' : Layers M0}
    (hp : p ≠ q.id) (hlevel : level < layers.length)
    (h : (addLink M0 p q level).run (exec D M alpha lmdb) layers = .ok ((), layers')) :
    ∃ node, layers'.get? level p = some node ∧
      ((∃ old, layers.get? level p = some old ∧
        addLinkUpdate D M alpha lmdb level q old = .ok node) ∨
      (layers.get? level p = none ∧ addLinkInsert q = .ok node)) := by
  rw [addLink, if_neg hp, Prog.run] at h
  obtain ⟨entry, hentry, ⟨node, hok, hexec⟩ | ⟨e, -, hexec⟩⟩ :=
    exec_update D M alpha lmdb hlevel p q
  · rw [hexec] at h
    cases h
    refine ⟨node, by rw [Layers.get?_insert hlevel, if_pos ⟨rfl, rfl⟩], ?_⟩
    rcases hentry with ⟨old, hget, rfl⟩ | ⟨hget, rfl⟩
    · exact Or.inl ⟨old, hget, hok⟩
    · exact Or.inr ⟨hget, hok⟩
  · rw [hexec] at h
    cases h

/-! ## Competing for a place -/

/-- What is expected of a list after `add_link`: the old links and the new one where there is room,
and otherwise what pruning selects of them; a link nearer than all others is always there. -/
def Competes (D : Distance) (M M0 : Nat) (alpha : F32) (lmdb : FrozenReader) (level : Nat)
    (links : List ScoredLink) (q : ScoredLink) (after : List ScoredLink) : Prop :=
  (links.length < linkCap M M0 level → after = links ++ [q]) ∧
  (linkCap M M0 level ≤ links.length → ∀ out,
    robustPrune D M M0 alpha lmdb (links ++ [q]) level = .ok out → after = out) ∧
  ((∀ s ∈ links, q.dist < s.dist) → q ∈ after)

/-- There is room; or the new link is not the nearest, and pruning would not select it. -/
def Harmless (D : Distance) (M M0 : Nat) (alpha : F32) (lmdb : FrozenReader) (level : Nat)
    (links : List ScoredLink) (q : ScoredLink) : Prop :=
  links.length < linkCap M M0 level ∨
    (¬ ∀ s ∈ links, q.dist < s.dist) ∧
      ∀ out, robustPrune D M M0 alpha lmdb (links ++ [q]) level = .ok out → q ∉ out

/-- A full list, whatever it becomes without the new link. -/
theorem competes_full_iff {level : Nat} {links after : List ScoredLink} {q : ScoredLink}
    (hfull : linkCap M M0 level ≤ links.length) (hq : q ∉ after)
    (hafter : robustPrune D M M0 alpha lmdb links level = .ok after ∨
      ∃ e, robustPrune D M M0 alpha lmdb links level = .error e) :
    Competes D M M0 alpha lmdb level links q after ↔ Harmless D M M0 alpha lmdb level links q := by
  constructor
  · rintro ⟨-, hprune, hnearest⟩
    refine Or.inr ⟨fun hall => hq (hnearest hall), fun out hout => ?_⟩
    rw [← hprune hfull out hout]
    exact hq
  · rintro (hroom | ⟨hnearest, hout⟩)
    · exact absurd hroom hfull.not_gt
    · refine ⟨fun hroom => absurd hroom hfull.not_gt, fun _ out h => ?_,
        fun hall => absurd hall hnearest⟩
      have hwithout := robustPrune_of_notMem h (hout out h)
      rcases hafter with hafter | ⟨e, hafter⟩
      · rw [hafter] at hwithout
        exact Except.ok.inj hwithout
      · rw [hafter] at hwithout
        cases hwithout

/-- **A new link competes for a place** exactly when there is room, or when it is not the nearest
and pruning would not select it. -/
theorem competes_iff {p : ItemId} {q : ScoredLink} {level : Nat} {layers layers' : Layers M0}
    (hp : p ≠ q.id) (hlevel : level < layers.length)
    (hnew : q.id ∉ (layers.linksAt level p).map Scored.id)
    (h : (addLink M0 p q level).run (exec D M alpha lmdb) layers = .ok ((), layers')) :
    Competes D M M0 alpha lmdb level (layers.linksAt level p) q (layers'.linksAt level p) ↔
      Harmless D M M0 alpha lmdb level (layers.linksAt level p) q := by
  obtain ⟨node, hnode, ⟨old, hold, hup⟩ | ⟨hnone, hins⟩⟩ := addLink_ok hp hlevel h
  · rw [Layers.linksAt_of_get? hold] at hnew ⊢
    rw [Layers.linksAt_of_get? hnode]
    have hout : q ∉ old.links.toList := fun hmem => hnew (List.mem_map_of_mem hmem)
    rcases addLinkUpdate_ok hup with ⟨hroom, happ⟩ | ⟨hfull, hprune | ⟨⟨e, hfail⟩, rfl⟩⟩
    · rw [happ]
      refine iff_of_true ⟨fun _ => rfl, fun hfull => absurd hroom hfull.not_gt, fun _ => ?_⟩
        (Or.inl hroom)
      exact List.mem_append_right _ (List.mem_singleton_self q)
    · exact competes_full_iff hfull (fun hmem => hout (mem_of_robustPrune hprune q hmem))
        (Or.inl hprune)
    · exact competes_full_iff hfull hout (Or.inr ⟨_, hfail⟩)
  · have hafter : layers'.linksAt level p = [q] :=
      (Layers.linksAt_of_get? hnode).trans (addLinkInsert_ok hins)
    rw [Layers.linksAt_of_none hnone, hafter]
    by_cases hcap : 0 < linkCap M M0 level
    · refine iff_of_true ⟨fun _ => rfl, fun hfull => absurd hfull hcap.not_ge, fun _ => ?_⟩
        (Or.inl hcap)
      exact List.mem_singleton_self q
    · -- without any room nothing is selected, but the entry is made with the link
      have hzero : linkCap M M0 level = 0 := by omega
      have hnone : robustPrune D M M0 alpha lmdb ([] ++ [q]) level = .ok [] := by
        rw [robustPrune, hzero]
        rfl
      refine iff_of_false (fun hc => ?_) ?_
      · exact absurd (hc.2.1 hzero.le [] hnone) (List.cons_ne_nil _ _)
      · rintro (hroom | ⟨hnearest, -⟩)
        · exact hcap hroom
        · exact hnearest fun s hs => absurd hs List.not_mem_nil

/-! ## A full list -/

/-- Item 0 lies at 0, with item 1 at 2 and item 2 at -2 on its sides; item 3 lies at 1 and item 4
at 3. -/
def fivePoints : FrozenReader where
  db := [(0, F32.zero), (1, ⟨0x40000000⟩), (2, ⟨0xc0000000⟩), (3, F32.one),
    (4, ⟨0x40400000⟩)].foldl (fun db x =>
      db.put (Key.item 0 x.1) (.node (.item (Item.ofVector manhattan [x.2])))) ∅
  index := 0

/-- Add a link to item 0 on layer 0, where two links fit. -/
def linkZero (q : ScoredLink) (layers : Layers 2) : Except Failure (Unit × Layers 2) :=
  (addLink 2 0 q 0).run (exec manhattan 2 F32.one fivePoints) layers

/-- Item 0 linked to the items 1 and 2. -/
def bothSides : Except Failure (Unit × Layers 2) :=
  (linkZero ⟨⟨0x40000000⟩, 1⟩ [∅]).bind fun x => linkZero ⟨⟨0x40000000⟩, 2⟩ x.2

theorem bothSides_full (q : ScoredLink) (h : (bothSides.toOption.bind fun x =>
      (linkZero q x.2).toOption.map fun y => (x.2.length, Layers.linksAt x.2 0 0,
        Layers.linksAt y.2 0 0)) =
      some (1, [⟨⟨0x40000000⟩, 1⟩, ⟨⟨0x40000000⟩, 2⟩], [⟨⟨0x40000000⟩, 1⟩, ⟨⟨0x40000000⟩, 2⟩])) :
    ∃ layers layers', bothSides = .ok ((), layers) ∧ linkZero q layers = .ok ((), layers') ∧
      layers.length = 1 ∧ layers.linksAt 0 0 = [⟨⟨0x40000000⟩, 1⟩, ⟨⟨0x40000000⟩, 2⟩] ∧
      layers'.linksAt 0 0 = [⟨⟨0x40000000⟩, 1⟩, ⟨⟨0x40000000⟩, 2⟩] := by
  obtain ⟨⟨_, layers⟩, hfirst, h⟩ := Option.bind_eq_some_iff.mp h
  obtain ⟨⟨_, layers'⟩, hsecond, h⟩ := Option.map_eq_some_iff.mp h
  simp only [Prod.mk.injEq] at h
  exact ⟨layers, layers', ok_of_toOption hfirst, ok_of_toOption hsecond, h⟩

/-- Item 4 is farther from item 0 than item 1 and is behind it: pruning does not select it. -/
theorem competes_behind : ∃ layers layers', bothSides = .ok ((), layers) ∧
    linkZero ⟨⟨0x40400000⟩, 4⟩ layers = .ok ((), layers') ∧
    Competes manhattan 2 2 F32.one fivePoints 0 (layers.linksAt 0 0) ⟨⟨0x40400000⟩, 4⟩
      (layers'.linksAt 0 0) := by
  obtain ⟨layers, layers', hlayers, hrun, hlength, hlinks, -⟩ :=
    bothSides_full ⟨⟨0x40400000⟩, 4⟩ (by decide +kernel)
  refine ⟨layers, layers', hlayers, hrun, (competes_iff (by decide) (by omega)
    (by rw [hlinks]; decide) hrun).mpr (Or.inr ⟨?_, fun out hout => ?_⟩)⟩
  · rw [hlinks]
    decide
  · rw [hlinks] at hout
    have hsel : robustPrune manhattan 2 2 F32.one fivePoints
        ([⟨⟨0x40000000⟩, 1⟩, ⟨⟨0x40000000⟩, 2⟩] ++ [⟨⟨0x40400000⟩, 4⟩]) 0 =
          .ok [⟨⟨0x40000000⟩, 1⟩, ⟨⟨0x40000000⟩, 2⟩] :=
      ok_of_toOption (by decide +kernel)
    rw [hsel] at hout
    cases hout
    decide

/-- Item 3 is nearer to item 0 than both of its links, and does not come into the full list. -/
theorem nearer_link_left_out : ∃ layers layers', bothSides = .ok ((), layers) ∧
    layers.linksAt 0 0 = [⟨⟨0x40000000⟩, 1⟩, ⟨⟨0x40000000⟩, 2⟩] ∧
    linkZero ⟨F32.one, 3⟩ layers = .ok ((), layers') ∧
    ¬ Competes manhattan 2 2 F32.one fivePoints 0 (layers.linksAt 0 0) ⟨F32.one, 3⟩
      (layers'.linksAt 0 0) := by
  obtain ⟨layers, layers', hlayers, hrun, -, hlinks, hafter⟩ :=
    bothSides_full ⟨F32.one, 3⟩ (by decide +kernel)
  refine ⟨layers, layers', hlayers, hlinks, hrun, fun hc => ?_⟩
  have hmem := hc.2.2
  rw [hlinks, hafter] at hmem
  revert hmem
  decide

end Hannoy.Graph
