import Hannoy.Graph.Build

/-!
# How many layers a build has (`hnsw.rs:122-289, 334-360`)

The layers of a build reach up to the highest level drawn, to the height of the stored graph and to
the highest stored link. When all of these are below a bound, so are the layers.

* `height_buildLayers`: the bound of the layers a build writes and of the height it stores.
-/

namespace Hannoy.Graph

open Hannoy.Library Hannoy.Library.Server Hannoy.Library.Txn Hannoy.HnswBuilder

variable {D : Distance} {M M0 : Nat} {lmdb : FrozenReader} {options : BuildOption}
  {env : Environment} {toInsert toDelete : RoaringBitmap} {b b' : HnswBuilder M0}

/-- Clients of the layers add none. -/
theorem length_runClient {α : Type} {p : Client M0 α} {layers layers' : Layers M0} {a : α}
    (h : p.run (exec D M options.alpha lmdb) layers = .ok (a, layers')) :
    layers'.length = layers.length :=
  Prog.run_invariant (J := fun s : Layers M0 => s.length = layers.length)
    (fun r s _ hs => (length_exec r s).trans hs) p.issues_true h rfl

theorem length_insertGroups {groups : List (List (ItemId × Nat))} {n g : Nat}
    {layers layers' : Layers M0}
    (h : insertGroups D M options env lmdb b n g groups layers = .ok layers') :
    layers'.length = layers.length :=
  insertGroups_invariant (J := fun s => s.length = layers.length)
    (fun r s _ hs => (length_exec r s).trans hs) (fun _ _ _ => Prog.issues_true _) rfl h

theorem length_patchAll {entries : List (Key × Value)} {n : Nat} {layers layers' : Layers M0}
    (h : patchAll D M options env lmdb toDelete n entries layers = .ok layers') :
    layers'.length = layers.length := by
  refine patchAll_invariant (J := fun s => s.length = layers.length) (fun hs hpatch => ?_) rfl h
  obtain ⟨node, rfl, -⟩ := patchLinks_repaired hpatch
  exact (Layers.length_insert _ _ _ _).trans hs

/-- Room is made up to the highest stored link. -/
theorem length_resizeLayers_le {n : Nat} : ∀ {entries : List (Key × Value)} {layers : Layers M0},
    (∀ e ∈ entries, e.1.node.layer.toNat < n) → layers.length ≤ n →
      (resizeLayers entries layers).length ≤ n
  | [], _, _, h => h
  | (k, v) :: entries, layers, hstored, h => by
    obtain ⟨hk, hrest⟩ := List.forall_mem_cons.mp hstored
    rw [resizeLayers, List.foldl_cons, ← resizeLayers]
    refine length_resizeLayers_le hrest ?_
    cases decodeLinks v with
    | ok links =>
      have hk' : k.node.layer.toNat + 1 ≤ n := hk
      simp only [List.length_append, List.length_replicate]
      omega
    | error e => exact h

theorem foldl_max_lt {n : Nat} {l : List Nat} (hn : 0 < n) (hl : ∀ x ∈ l, x < n) :
    l.foldl max 0 < n := by
  rcases foldl_max_mem l 0 with h | h
  · rwa [h]
  · exact hl _ h

/-- **The layers of a build** are bounded by what they come from. -/
theorem height_buildLayers {n : Nat} (hdrawn : ∀ x, env.schedule.level x < n)
    (hheight : b.maxLevel < n) (hempty : b.layers = [])
    (hstored : ∀ e ∈ lmdb.linksEntries, e.1.node.layer.toNat < n)
    (h : buildLayers D M options env lmdb b toInsert toDelete = .ok b') :
    b'.maxLevel < n ∧ b'.layers.length ≤ n := by
  obtain ⟨levels, b₁, layers, hprep, hins, hfill, hmax, -⟩ := buildLayers_ok h
  obtain ⟨newEps, -, -, hraise⟩ := prepare_ok hprep
  obtain ⟨hmax₁, -, hrun⟩ := raise_ok hraise
  have hreset := resetMaxLevel_le b toDelete newEps
  have hcur : ((drawnLevels env toInsert).map Prod.snd).foldl max 0 < n := by
    refine foldl_max_lt (Nat.zero_lt_of_lt hheight) fun l hl => ?_
    obtain ⟨p, hp, rfl⟩ := List.mem_map.mp hl
    rw [(mem_drawnLevels.mp hp).2]
    exact hdrawn p.1
  have hb₁ : b₁.maxLevel < n := by omega
  have hlength : layers.length ≤ n := by
    rw [length_insertGroups hins, length_runClient hrun, hempty, List.nil_append,
      List.length_replicate]
    exact hb₁
  refine ⟨hmax ▸ hb₁, ?_⟩
  rw [length_patchAll (fillGaps_ok hfill)]
  exact length_resizeLayers_le hstored hlength

end Hannoy.Graph
