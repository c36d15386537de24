import Hannoy.Graph.Degree
import Hannoy.Index.Reopen

/-!
# How many links a build leaves (`hnsw.rs:191-215`)

Every list of the index is written by each build: the nodes with links on disk that are not deleted
are repaired, the others are deleted. So the caps of the last build hold of all of them, whatever
the caps of the builds before.

* `degree_le_of_layers`: a build from a ready index leaves lists under its caps.
* `degree_le_after_build`: so does every build of a run.
-/

namespace Hannoy.Index

open Hannoy.Library Hannoy.Library.Txn Hannoy.Writer Hannoy.Graph

variable {D : Distance} {w : Writer} {M M0 : Nat} {env : Environment} {options : BuildOption}
  {i : UInt16} {db db' db₀ : Database} {T : Type} {dist : T → Distance}

/-- No stored list is longer than the cap of its layer. -/
def DegreeAtMost (M M0 : Nat) (i : UInt16) (db : Database) : Prop :=
  ∀ x l links, db.links? i x l = some links →
    (l = 0 → links.card ≤ M0) ∧ (0 < l → links.card ≤ M)

theorem degree_le_of_layers (hready : Ready options w.index db) {u : Unit}
    (h : w.build D M M0 env options db = .ok u db') : DegreeAtMost M M0 w.index db' := by
  obtain ⟨b, hlayers, hdone⟩ := hready.build_layers h
  have hbounded := bounded_buildLayers hready.buildInput.layers hlayers
  intro x l links hlinks
  obtain ⟨node, hnode, rfl⟩ := (links?_done hready hdone).mp hlinks
  have hcard : node.targets.toFinset.card ≤ linkCap M M0 l.toNat := by
    refine (List.toFinset_card_le _).trans ?_
    rw [NodeState.targets, List.length_map]
    exact hbounded _ _ _ hnode
  rw [linkCap] at hcard
  constructor
  · rintro rfl
    exact hcard
  · intro hl
    rwa [if_neg] at hcard
    have := UInt8.lt_iff_toNat_lt.mp hl
    simp at this
    omega

/-- The caps of a build. -/
def Op.caps : Op → Option (Nat × Nat)
  | .build M M0 _ _ => some (M, M0)
  | .forceRebuild M M0 _ _ => some (M, M0)
  | _ => none

variable [DecidableEq T]

/-- **The degree bound holds after every build of a run**, for the caps of that build. -/
theorem degree_le_after_build (h₀ : NoEntries i db₀) {states : List (State T)} {S : T} {op : Op}
    (hrun : Course dist i db₀ (⟨S, db⟩ :: states)) (hw : w.index = i)
    (h : Step (dist S) w op db db') (hcaps : op.caps = some (M, M0)) :
    DegreeAtMost M M0 i db' := by
  subst hw
  have hc : Consistent w.index db := hrun.consistent h₀ _ List.mem_cons_self
  cases h with
  | addItem h => cases hcaps
  | delItem h => cases hcaps
  | clear h => cases hcaps
  | build hr h =>
    cases hcaps
    exact degree_le_of_layers (ready_of_consistent hc hr) h
  | forceRebuild hs h =>
    cases hcaps
    obtain ⟨m, hm, hb⟩ := forceRebuild_ok h
    exact degree_le_of_layers (ready_dropLinks _ hc (stone?_of_prefixIter_nil hs) rfl hm) hb

/-! ## A build under smaller caps -/

variable (dist) in
/-- A run that keeps the distance. -/
theorem Course.of_run (S : T) {tr : List (Writer × Op)} (h : Run (dist S) i db₀ tr db) :
    ∃ states, Course dist i db₀ (⟨S, db⟩ :: states) := by
  induction h with
  | start => exact ⟨[], .start S⟩
  | step hw _ hstep ih =>
    obtain ⟨states, hrun⟩ := ih
    exact ⟨_, hrun.move (.operate hw hstep)⟩

/-- Four equal items are built with three links at most, and again with two. -/
def shrinking : List (Writer × Op) :=
  [.addItem 3 [F32.one], .addItem 2 [F32.one], .addItem 1 [F32.one], .addItem 0 [F32.one]].map
    (⟨0, 1⟩, ·)

theorem degree_le_shrinking : ∃ db db',
    play manhattan ∅ ((⟨0, 1⟩, .build 2 3 .oneLevel BuildOption.default) :: shrinking) =
        some db ∧
      (db.links? 0 3 0).map Finset.card = some 3 ∧
      Writer.build manhattan ⟨0, 1⟩ 2 2 .oneLevel BuildOption.default db = .ok () db' ∧
      DegreeAtMost 2 2 0 db' := by
  have h : ((play manhattan ∅
      ((⟨0, 1⟩, .build 2 3 .oneLevel BuildOption.default) :: shrinking)).map fun db =>
        ((db.links? 0 3 0).map Finset.card,
          (committed
            (Writer.build manhattan ⟨0, 1⟩ 2 2 .oneLevel BuildOption.default db)).isSome)) =
      some (some 3, true) := by decide +kernel
  obtain ⟨db, hdb, h⟩ := Option.map_eq_some_iff.mp h
  simp only [Prod.mk.injEq] at h
  obtain ⟨hcard, hsome⟩ := h
  obtain ⟨db', hdb'⟩ := Option.isSome_iff_exists.mp hsome
  obtain ⟨_, hbuild⟩ := committed_eq_some hdb'
  have hplayed : Run manhattan 0 ∅ _ db := Run.of_play (by decide) hdb
  obtain ⟨states, hrun⟩ := Course.of_run manhattans false hplayed
  exact ⟨db, db', hdb, hcard, hbuild,
    degree_le_after_build noEntries_empty hrun rfl (.build rfl hbuild) rfl⟩

end Hannoy.Index
