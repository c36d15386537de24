import Hannoy.Graph.Select

/-!
# What an insert has asked for (`hnsw.rs:291-328, 523-560`)

An insert that is still running, or that was stopped by an error, has asked for a prefix of the
links it would add.

* `insert_asks`: the links asked for are those of distinct selected points, at each layer.
* `LinksSoFar.pairs`: so no pair is asked for twice, and the inserted item is in each.
-/

namespace Hannoy.Graph

open Hannoy.Library Hannoy.Library.Server Hannoy.HnswBuilder

variable {D : Distance} {M M0 : Nat} {alpha : F32} {lmdb : FrozenReader} {options : BuildOption}
  {env : Environment} {query : ItemId} {q : Item} {ef top level : Nat} {eps : List ItemId}
  {rs : List (Request M0)}

theorem addLink_asks {p : ItemId} {s : ScoredLink} (h : (addLink M0 p s level).Asks rs) (k : Nat) :
    linksAsked k rs <+: if p ≠ s.id ∧ level = k then [(p, s)] else [] := by
  unfold addLink at h
  by_cases hp : p = s.id
  · rw [if_pos hp] at h
    obtain rfl := Prog.eq_nil_of_asks_ret h
    exact List.nil_prefix
  · rw [if_neg hp] at h
    cases h with
    | start => exact List.nil_prefix
    | call reply h =>
      rename_i rs
      obtain rfl : rs = [] := by cases reply <;> cases h <;> rfl
      simp [linksAsked_update, hp]

theorem linkBoth_asks {s : ScoredLink} (h : (linkBoth M0 query level eps s).Asks rs) (k : Nat) :
    linksAsked k rs <+: if level = k then linksOf query [s] else [] := by
  have hboth : (if level = k then linksOf query [s] else []) =
      (if query ≠ s.id ∧ level = k then [(query, s)] else []) ++
        if s.id ≠ query ∧ level = k then [(s.id, ⟨s.dist, query⟩)] else [] := by
    rcases eq_or_ne s.id query with hs | hs
    · simp [linksOf, hs]
    · by_cases hk : level = k <;> simp [linksOf, hs, hs.symm, hk]
  rw [hboth]
  rcases Prog.asks_bind h with hto | ⟨_, rs₁, rs₂, rfl, hto, h⟩
  · exact (addLink_asks hto k).trans (List.prefix_append _ _)
  rw [linksAsked_append, addLink_ends hto k, List.prefix_append_right_inj]
  rcases Prog.asks_bind h with hback | ⟨_, rs₃, rs₄, rfl, hback, h⟩
  · exact addLink_asks hback k
  · obtain rfl := Prog.eq_nil_of_asks_ret h
    rw [List.append_nil, addLink_ends hback k]

theorem linking_asks : ∀ {selected : List ScoredLink} {eps : List ItemId} {rs : List (Request M0)},
    (selected.foldlM (linkBoth M0 query level) eps).Asks rs →
      ∀ k, linksAsked k rs <+: if level = k then linksOf query selected else []
  | [], eps, rs, h, k => by
    obtain rfl := Prog.eq_nil_of_asks_ret h
    exact List.nil_prefix
  | s :: selected, eps, rs, h, k => by
    rw [List.foldlM_cons] at h
    have hcons : (if level = k then linksOf query (s :: selected) else []) =
        (if level = k then linksOf query [s] else []) ++
          if level = k then linksOf query selected else [] := by
      rw [linksOf_cons query s selected]
      split_ifs <;> rfl
    rw [hcons]
    rcases Prog.asks_bind h with hhead | ⟨_, rs₁, rs₂, rfl, hhead, h⟩
    · exact (linkBoth_asks hhead k).trans (List.prefix_append _ _)
    · rw [linksAsked_append, (linkBoth_ends hhead).2 k, List.prefix_append_right_inj]
      exact linking_asks h k

/-- So far the requests link the query with some distinct points, at each layer. -/
def LinksSoFar (query : ItemId) (rs : List (Request M0)) : Prop :=
  ∀ level, ∃ selected : List ScoredLink, (selected.map Scored.id).Nodup ∧
    linksAsked level rs <+: linksOf query selected

theorem linksSoFar_of_nil (h : ∀ level, linksAsked level rs = []) : LinksSoFar query rs :=
  fun level => ⟨[], List.nodup_nil, by rw [h level]; exact List.nil_prefix⟩

theorem linksAsked_eq_nil_of_asks {α : Type} {p : Client M0 α} (hp : p.Issues AddsNoLink)
    (h : p.Asks rs) (level : Nat) : linksAsked level rs = [] := by
  refine List.filterMap_eq_nil_iff.mpr fun r hr => ?_
  have hnone := hp.asks h r hr
  cases r with
  | updateOrInsertWith => exact hnone.elim
  | _ => rfl

theorem beamLayer_asks (hnd : eps.Nodup)
    (h : (beamLayer D M M0 alpha lmdb ef query q top eps level).Asks rs) :
    ∃ selected : List ScoredLink, (selected.map Scored.id).Nodup ∧
      ∀ k, linksAsked k rs <+: if level = k then linksOf query selected else [] := by
  have hwalks : ∀ {rs : List (Request M0)}, (∀ k, linksAsked k rs = []) →
      ∃ selected : List ScoredLink, (selected.map Scored.id).Nodup ∧
        ∀ k, linksAsked k rs <+: if level = k then linksOf query selected else [] := fun hnil =>
    ⟨[], List.nodup_nil, fun k => by rw [hnil k]; exact List.nil_prefix⟩
  rcases Prog.asks_bind h with hwalk | ⟨neighbours, rs₁, rs₂, rfl, hwalk, h⟩
  · exact hwalks (linksAsked_eq_nil_of_asks (walks_walkLayer.mono Walks.addsNoLink) hwalk)
  have hnone := linksAsked_eq_nil (walks_walkLayer.mono Walks.addsNoLink) hwalk
  rcases Prog.asks_bind h with hsel | ⟨selected, rs₃, rs₄, rfl, hsel, hlinking⟩
  · obtain rfl := Prog.eq_nil_of_asks_ofExcept hsel
    exact hwalks fun k => by rw [List.append_nil, hnone k]
  obtain ⟨hprune, rfl⟩ := Prog.ends_ofExcept_iff.mp hsel
  refine ⟨selected, nodup_selected hnd hwalk.returns hprune, fun k => ?_⟩
  rw [linksAsked_append, hnone k, List.nil_append, List.nil_append]
  exact linking_asks hlinking k

theorem beam_asks : ∀ {n : Nat} {eps : List ItemId} {rs : List (Request M0)}, eps.Nodup →
    ((List.range (n + 1)).reverse.foldlM (beamLayer D M M0 alpha lmdb ef query q top) eps).Asks
      rs → LinksSoFar query rs ∧ ∀ level, n < level → linksAsked level rs = []
  | n, eps, rs, hnd, h => by
    rw [List.range_succ, List.reverse_append, List.reverse_singleton, List.singleton_append,
      List.foldlM_cons] at h
    rcases Prog.asks_bind h with hlayer | ⟨mid, rs₁, rs₂, rfl, hlayer, h⟩
    · obtain ⟨selected, hsel, hpre⟩ := beamLayer_asks hnd hlayer
      refine ⟨fun level => ⟨selected, hsel, (hpre level).trans ?_⟩, fun level hlt => ?_⟩
      · split_ifs
        · exact List.prefix_rfl
        · exact List.nil_prefix
      · have := hpre level
        rwa [if_neg hlt.ne, List.prefix_nil] at this
    · obtain ⟨neighbours, selected, hlinked, rfl, hother⟩ := beamLayer_ends hlayer
      have hsel := nodup_selected hnd hlinked.beam hlinked.pruned
      have hrest : LinksSoFar query rs₂ ∧ ∀ level, n ≤ level → linksAsked level rs₂ = [] := by
        cases n with
        | zero =>
          obtain rfl := Prog.eq_nil_of_asks_ret h
          exact ⟨linksSoFar_of_nil fun _ => rfl, fun _ _ => rfl⟩
        | succ n => exact beam_asks hsel h
      refine ⟨fun level => ?_, fun level hlt => ?_⟩
      · rcases eq_or_ne n level with rfl | hne
        · refine ⟨selected, hsel, ?_⟩
          rw [linksAsked_append, hrest.2 n le_rfl, List.append_nil, hlinked.links]
        · rw [linksAsked_append, hother level hne, List.nil_append]
          exact hrest.1 level
      · rw [linksAsked_append, hother level hlt.ne, hrest.2 level hlt.le, List.append_nil]

/-- **An insert links no pair twice**, however far it has come. -/
theorem insert_asks {maxLevel : Nat} {entryPoints : List ItemId} (hnd : entryPoints.Nodup)
    (h : (HnswBuilder.insert D M M0 alpha lmdb ef maxLevel entryPoints query top).Asks rs) :
    LinksSoFar query rs := by
  rcases Prog.asks_bind h with hread | ⟨q, rs₁, rs₂, rfl, hread, hrest⟩
  · obtain rfl := Prog.eq_nil_of_asks_ofExcept hread
    exact linksSoFar_of_nil fun _ => rfl
  obtain ⟨-, rfl⟩ := Prog.ends_ofExcept_iff.mp hread
  have hgreedy : ((List.range' (top + 1) (maxLevel - top)).reverse.foldlM
      (greedyLayer D M0 lmdb q) entryPoints).Issues AddsNoLink :=
    issues_foldlM (fun _ _ _ => walks_greedyLayer.mono Walks.addsNoLink) _
  rw [List.nil_append]
  rcases Prog.asks_bind hrest with hasks | ⟨eps, rs₃, rs₄, rfl, hends, hbelow⟩
  · exact linksSoFar_of_nil (linksAsked_eq_nil_of_asks hgreedy hasks)
  have heps : eps.Nodup := Prog.returns_foldlM (J := List.Nodup) (fun _ _ _ _ hret => by
    obtain ⟨x, rfl⟩ := greedyLayer_singleton hret
    exact List.nodup_singleton x) hnd hends.returns
  have hnone := linksAsked_eq_nil hgreedy hends
  rcases Prog.asks_bind hbelow with hadd | ⟨_, rs₅, rs₆, rfl, hadd, hlast⟩
  · refine linksSoFar_of_nil fun level => ?_
    rw [linksAsked_append, hnone level,
      linksAsked_eq_nil_of_asks (addsNoLink_addInLayers _) hadd level, List.nil_append]
  have hnone' := linksAsked_eq_nil (addsNoLink_addInLayers _) hadd
  intro level
  rw [linksAsked_append, hnone level, linksAsked_append, hnone' level, List.nil_append,
    List.nil_append]
  rcases Prog.asks_bind hlast with hbeam | ⟨_, rs₇, rs₈, rfl, hbeam, hend⟩
  · exact (beam_asks heps hbeam).1 level
  · obtain rfl := Prog.eq_nil_of_asks_ret hend
    rw [List.append_nil]
    exact (beam_asks heps hbeam.asks).1 level

/-- The pairs of nodes that requests link at a layer. -/
def pairsAsked (level : Nat) (rs : List (Request M0)) : List (ItemId × ItemId) :=
  (linksAsked level rs).map fun e => (e.1, e.2.id)

theorem mem_pairsAsked {l : Nat} {p : ItemId} {s : ScoredLink}
    (h : .updateOrInsertWith l p s ∈ rs) : (p, s.id) ∈ pairsAsked l rs :=
  List.mem_map.mpr ⟨(p, s), List.mem_filterMap.mpr ⟨_, h, by simp [linkOf]⟩, rfl⟩

theorem pairs_linksOf (query : ItemId) : ∀ {selected : List ScoredLink},
    (selected.map Scored.id).Nodup →
      ((linksOf query selected).map fun e => (e.1, e.2.id)).Nodup ∧
        ∀ e ∈ linksOf query selected, ∃ s ∈ selected,
          s.id ≠ query ∧ ((e.1 = query ∧ e.2.id = s.id) ∨ (e.1 = s.id ∧ e.2.id = query))
  | [], _ => ⟨List.nodup_nil, fun _ he => absurd he List.not_mem_nil⟩
  | s :: selected, hnd => by
    obtain ⟨hnew, hnd⟩ := List.nodup_cons.mp hnd
    obtain ⟨hpairs, hown⟩ := pairs_linksOf query hnd
    have hown' : ∀ e ∈ linksOf query selected, ∃ t ∈ s :: selected,
        t.id ≠ query ∧ ((e.1 = query ∧ e.2.id = t.id) ∨ (e.1 = t.id ∧ e.2.id = query)) :=
      fun e he => have ⟨t, ht, h⟩ := hown e he; ⟨t, List.mem_cons_of_mem _ ht, h⟩
    rw [linksOf_cons]
    rcases eq_or_ne s.id query with hs | hs
    · rw [show linksOf query [s] = [] by simp [linksOf, hs], List.nil_append]
      exact ⟨hpairs, hown'⟩
    have hhead : linksOf query [s] = [(query, s), (s.id, ⟨s.dist, query⟩)] := by
      simp [linksOf, hs]
    rw [hhead, List.map_append]
    have hother : ∀ e ∈ linksOf query selected, e.1 ≠ s.id ∧ e.2.id ≠ s.id := by
      intro e he
      obtain ⟨t, ht, -, ⟨h₁, h₂⟩ | ⟨h₁, h₂⟩⟩ := hown e he
      · exact ⟨h₁ ▸ hs.symm, fun heq => hnew (List.mem_map.mpr ⟨t, ht, h₂.symm.trans heq⟩)⟩
      · exact ⟨fun heq => hnew (List.mem_map.mpr ⟨t, ht, h₁.symm.trans heq⟩), h₂ ▸ hs.symm⟩
    refine ⟨List.nodup_append.mpr ⟨by simp [hs.symm], hpairs, ?_⟩, fun e he => ?_⟩
    · rintro a ha b hb rfl
      obtain ⟨e, he, rfl⟩ := List.mem_map.mp hb
      simp only [List.map_cons, List.map_nil, List.mem_cons, Prod.mk.injEq, List.not_mem_nil,
        or_false] at ha
      rcases ha with ⟨-, ha⟩ | ⟨ha, -⟩
      · exact (hother e he).2 ha
      · exact (hother e he).1 ha
    · rcases List.mem_append.mp he with he | he
      · refine ⟨s, List.mem_cons_self, hs, ?_⟩
        simp only [List.mem_cons, List.not_mem_nil, or_false] at he
        rcases he with rfl | rfl
        · exact Or.inl ⟨rfl, rfl⟩
        · exact Or.inr ⟨rfl, rfl⟩
      · exact hown' e he

/-- No pair is asked for twice, and the query is in each. -/
theorem LinksSoFar.pairs (h : LinksSoFar query rs) (level : Nat) :
    (pairsAsked level rs).Nodup ∧ ∀ e ∈ pairsAsked level rs, e.1 = query ∨ e.2 = query := by
  obtain ⟨selected, hnd, hpre⟩ := h level
  obtain ⟨hpairs, hown⟩ := pairs_linksOf query hnd
  refine ⟨hpairs.sublist (hpre.sublist.map _), fun e he => ?_⟩
  obtain ⟨f, hf, rfl⟩ := List.mem_map.mp he
  obtain ⟨s, -, -, ⟨h, -⟩ | ⟨-, h⟩⟩ := hown f (hpre.subset hf)
  · exact Or.inl h
  · exact Or.inr h

end Hannoy.Graph
