import Hannoy.Graph.Degree
import Hannoy.Graph.Prune
import Hannoy.Index.Run

/-!
# Whom an insert links (`hnsw.rs:291-328, 460-560`)

At each of its layers an insert walks from the points found above, prunes what it found and links
the query with every selected point but itself. Whatever the other inserts do meanwhile, this is
all it asks the maps to link.

* `walk_distinct`, `walk_live`: the result of a walk.
* `insert_ends`: the links an insert asks for at each layer.
* `insert_cap_iff`: `robust_prune` is given the top level of the item for every layer, so layer 0
  gets the cap of the upper layers.
* `insert_self_iff`: an item that is in the graph already is found by its own insert, and competes
  with the others.
-/

namespace Hannoy.Graph

open Hannoy.Library Hannoy.Library.Server Hannoy.HnswBuilder

variable {D : Distance} {M M0 : Nat} {alpha : F32} {lmdb : FrozenReader} {query : ItemId} {q : Item}
  {ef top level : Nat} {eps : List ItemId}

/-! ## The result of a walk -/

/-- The results are seen points with the distances of their stored items; they are in order when
the entry points are distinct. -/
structure WalkSound (D : Distance) (q : Item) (lmdb : FrozenReader) (eps : List ItemId)
    (st : Walk) : Prop where
  sound : ∀ s ∈ st.res, s.id ∈ st.seen ∧ ∃ it, lmdb.item s.id = .ok it ∧ s.dist = D.distance q it
  sorted : eps.Nodup → st.res.Pairwise (· < ·)

theorem WalkSound.takeIn {P : Beam.Params F32 ItemId} {st st' : Walk}
    (h : WalkSound D q lmdb eps st) {p : ItemId} {it : Item} (hp : eps.Nodup → p ∉ st.seen)
    (hit : lmdb.item p = .ok it) (ht : Beam.TakesIn P ⟨D.distance q it, p⟩ st st') :
    WalkSound D q lmdb eps st' := by
  refine ⟨fun s hs => ?_, fun hnd => ht.sorted (h.sorted hnd) fun hmem => ?_⟩
  · rw [ht.seen]
    rcases ht.res s hs with ⟨rfl, -⟩ | hs
    · exact ⟨Finset.mem_insert_self _ _, it, hit, rfl⟩
    · exact ⟨Finset.mem_insert_of_mem (h.sound s hs).1, (h.sound s hs).2⟩
  · exact hp hnd (h.sound _ hmem).1

theorem WalkSound.point {fmax : F32} {st st' : Walk} {p : ItemId} (h : WalkSound D q lmdb eps st)
    (hw : walkPoint D lmdb q ef fmax st p = .ok st') : WalkSound D q lmdb eps st' := by
  rcases walkPoint_cases hw with ⟨-, rfl⟩ | ⟨hseen, it, hit, rfl⟩ | ⟨-, rfl⟩
  · exact h
  · let d : ItemId → F32 := fun _ => D.distance q it
    have ht : Beam.TakesIn (walkParams ef) ⟨d p, p⟩ st (st.offer (walkParams ef) d fmax p) :=
      Beam.takesIn_offer fmax hseen
    rw [Beam.State.offer, if_neg hseen] at ht
    exact h.takeIn (fun _ => hseen) hit ht
  · exact ⟨fun s hs => ⟨Finset.mem_insert_of_mem (h.sound s hs).1, (h.sound s hs).2⟩, h.sorted⟩

theorem WalkSound.seeds : ∀ {l : List ItemId} {st st' : Walk},
    (eps.Nodup → l.Nodup ∧ ∀ p ∈ l, p ∉ st.seen) → WalkSound D q lmdb eps st →
      l.foldlM (walkSeed D lmdb q ef) st = .ok st' → WalkSound D q lmdb eps st'
  | [], _, _, _, h, hf => by
    cases hf
    exact h
  | p :: l, st, st', hnew, h, hf => by
    obtain ⟨mid, hmid, hf⟩ := Txn.ok_bind_iff.mp hf
    obtain ⟨it, hit, rfl⟩ := walkSeed_seeds hmid
    refine WalkSound.seeds (fun hnd => ?_) (h.takeIn (fun hnd => (hnew hnd).2 p List.mem_cons_self)
      hit (Beam.takesIn_seed st _)) hf
    obtain ⟨hpl, hl⟩ := List.nodup_cons.mp (hnew hnd).1
    refine ⟨hl, fun x hx hseen => ?_⟩
    rw [Beam.seen_seed] at hseen
    rcases Finset.mem_insert.mp hseen with rfl | hseen
    · exact hpl hx
    · exact (hnew hnd).2 x (List.mem_cons_of_mem _ hx) hseen

theorem WalkSound.loop {neighbours : List ScoredLink} : ∀ {fuel : Nat} {st : Walk},
    WalkSound D q lmdb eps st → (walkLoop D M0 lmdb q level ef fuel st).Returns neighbours →
      ∃ st', st'.res = neighbours ∧ WalkSound D q lmdb eps st'
  | 0, _, _, h => by cases h
  | fuel + 1, st, hs, h => by
    unfold walkLoop at h
    cases hq : st.queue with
    | nil =>
      rw [hq] at h
      cases h
      exact ⟨st, rfl, hs⟩
    | cons c rest =>
      rw [hq] at h
      simp only at h
      cases htop : st.res.getLast? with
      | none =>
        rw [htop] at h
        cases h
      | some worst =>
        rw [htop] at h
        simp only at h
        split_ifs at h
        · cases h
          exact ⟨st, rfl, hs⟩
        · obtain ⟨proximity, -, h⟩ := Prog.returns_bind_iff.mp h
          obtain ⟨st', hround, h⟩ := Prog.returns_bind_iff.mp h
          have hrest : WalkSound D q lmdb eps { st with queue := rest } := ⟨hs.sound, hs.sorted⟩
          exact WalkSound.loop (Txn.foldlM_invariant (fun _ _ _ _ hb hb' => hb.point hb') hrest
            (Prog.returns_ofExcept_iff.mp hround)) h

theorem walk_sound {neighbours : List ScoredLink}
    (h : (walkLayer D M0 lmdb q eps level ef).Returns neighbours) :
    ∃ st : Walk, st.res = neighbours ∧ WalkSound D q lmdb eps st := by
  obtain ⟨st, hst, h⟩ := Prog.returns_bind_iff.mp h
  have hempty : WalkSound D q lmdb eps ⟨[], [], ∅⟩ :=
    ⟨fun s hs => absurd hs List.not_mem_nil, fun _ => .nil⟩
  exact (hempty.seeds (fun hnd => ⟨hnd, fun p _ => Finset.notMem_empty p⟩)
    (Prog.returns_ofExcept_iff.mp hst)).loop h

/-- What a walk finds is stored. -/
theorem walk_live {neighbours : List ScoredLink}
    (h : (walkLayer D M0 lmdb q eps level ef).Returns neighbours) :
    ∀ s ∈ neighbours, Live lmdb s.id := by
  obtain ⟨st, rfl, hst⟩ := walk_sound h
  intro s hs
  obtain ⟨-, it, hit, -⟩ := hst.sound s hs
  exact live_of_item hit

/-- **No point is found twice.** -/
theorem walk_distinct (hnd : eps.Nodup) {neighbours : List ScoredLink}
    (h : (walkLayer D M0 lmdb q eps level ef).Returns neighbours) :
    (neighbours.map Scored.id).Nodup := by
  obtain ⟨st, rfl, hst⟩ := walk_sound h
  refine List.Nodup.map_on (fun a ha b hb hab => ?_) ((hst.sorted hnd).imp ne_of_lt)
  obtain ⟨-, x, hx, hda⟩ := hst.sound a ha
  obtain ⟨-, y, hy, hdb⟩ := hst.sound b hb
  rw [hab, hy] at hx
  cases hx
  cases a
  cases b
  simp_all

/-! ## The links asked for -/

/-- The link a request adds at a layer: the node, and what it is linked to. -/
def linkOf (level : Nat) : Request M0 → Option (ItemId × ScoredLink)
  | .updateOrInsertWith l x s => if l = level then some (x, s) else none
  | _ => none

/-- The links that requests add at a layer, in order. -/
def linksAsked (level : Nat) (rs : List (Request M0)) : List (ItemId × ScoredLink) :=
  rs.filterMap (linkOf level)

/-- Links in both directions between the query and every selected point but itself. -/
def linksOf (query : ItemId) (selected : List ScoredLink) : List (ItemId × ScoredLink) :=
  (selected.filter fun s => s.id ≠ query).flatMap fun s => [(query, s), (s.id, ⟨s.dist, query⟩)]

theorem linksAsked_append (level : Nat) (rs rs' : List (Request M0)) :
    linksAsked level (rs ++ rs') = linksAsked level rs ++ linksAsked level rs' :=
  List.filterMap_append

/-- A request that adds no link. -/
def AddsNoLink : Request M0 → Prop
  | .updateOrInsertWith _ _ _ => False
  | _ => True

theorem Walks.addsNoLink : ∀ r : Request M0, Walks r → AddsNoLink r
  | .get _ _, _ => trivial
  | .insert _ _ _, _ => trivial

theorem Enters.addsNoLink {item : ItemId} : ∀ r : Request M0, Enters item r → AddsNoLink r
  | .getOrInsert _ _ _, _ => trivial

theorem addsNoLink_addInLayers {item : ItemId} (levels : List Nat) :
    (addInLayers M0 item levels).Issues AddsNoLink :=
  (enters_addInLayers levels).mono Enters.addsNoLink

theorem linksAsked_eq_nil {α : Type} {p : Client M0 α} (hp : p.Issues AddsNoLink)
    {rs : List (Request M0)} {a : α} (h : p.Ends rs a) (level : Nat) :
    linksAsked level rs = [] := by
  refine List.filterMap_eq_nil_iff.mpr fun r hr => ?_
  have hnone := hp.ends h r hr
  cases r with
  | updateOrInsertWith => exact hnone.elim
  | _ => rfl

theorem linksAsked_update (level l : Nat) (x : ItemId) (s : ScoredLink) :
    linksAsked level [(.updateOrInsertWith l x s : Request M0)] =
      if l = level then [(x, s)] else [] := by
  unfold linksAsked linkOf
  by_cases hl : l = level <;> simp [hl]

theorem addLink_ends {p : ItemId} {s : ScoredLink} {u : Unit} {rs : List (Request M0)}
    (h : (addLink M0 p s level).Ends rs u) (k : Nat) :
    linksAsked k rs = if p ≠ s.id ∧ level = k then [(p, s)] else [] := by
  unfold addLink at h
  by_cases hp : p = s.id
  · rw [if_pos hp] at h
    obtain ⟨rfl, -⟩ := Prog.ends_ret_iff.mp h
    simp [hp, linksAsked]
  · rw [if_neg hp] at h
    cases h with
    | call reply h =>
      rename_i rs
      obtain rfl : rs = [] := by cases reply <;> cases h <;> rfl
      simp [linksAsked_update, hp]

theorem linksOf_cons (query : ItemId) (s : ScoredLink) (selected : List ScoredLink) :
    linksOf query (s :: selected) = linksOf query [s] ++ linksOf query selected := by
  simp only [linksOf, List.filter_cons, List.filter_nil]
  split_ifs <;> simp

theorem linkBoth_ends {s : ScoredLink} {out : List ItemId} {rs : List (Request M0)}
    (h : (linkBoth M0 query level eps s).Ends rs out) :
    out = eps ++ [s.id] ∧ ∀ k, linksAsked k rs = if level = k then linksOf query [s] else [] := by
  obtain ⟨_, rs₁, rs₂, rfl, hto, h⟩ := Prog.ends_bind_iff.mp h
  obtain ⟨_, rs₃, rs₄, rfl, hback, h⟩ := Prog.ends_bind_iff.mp h
  obtain ⟨rfl, rfl⟩ := Prog.ends_ret_iff.mp h
  refine ⟨rfl, fun k => ?_⟩
  rw [linksAsked_append, linksAsked_append, addLink_ends hto k, addLink_ends hback k]
  rcases eq_or_ne s.id query with hs | hs
  · simp [linksOf, linksAsked, hs]
  · by_cases hk : level = k <;> simp [linksOf, linksAsked, hs, hs.symm, hk]

/-- **The links with the selected points.** -/
theorem linking_ends : ∀ {selected : List ScoredLink} {eps out : List ItemId}
    {rs : List (Request M0)}, (selected.foldlM (linkBoth M0 query level) eps).Ends rs out →
      out = eps ++ selected.map Scored.id ∧
        ∀ k, linksAsked k rs = if level = k then linksOf query selected else []
  | [], eps, out, rs, h => by
    obtain ⟨rfl, rfl⟩ := Prog.ends_ret_iff.mp h
    simp [linksAsked, linksOf]
  | s :: selected, eps, out, rs, h => by
    rw [List.foldlM_cons] at h
    obtain ⟨mid, rs₁, rs₂, rfl, hboth, h⟩ := Prog.ends_bind_iff.mp h
    obtain ⟨rfl, hhead⟩ := linkBoth_ends hboth
    obtain ⟨rfl, hrest⟩ := linking_ends h
    refine ⟨by simp, fun k => ?_⟩
    rw [linksAsked_append, hhead k, hrest k, linksOf_cons query s selected]
    split_ifs <;> rfl

/-! ## One insert -/

/-- A beam search of `level` finds `neighbours`; `selected` are selected of them, and linked. -/
structure LinksLayer (D : Distance) (M M0 : Nat) (alpha : F32) (lmdb : FrozenReader) (ef : Nat)
    (q : Item) (eps : List ItemId) (query : ItemId) (top level : Nat)
    (neighbours selected : List ScoredLink) (rs : List (Request M0)) : Prop where
  beam : (walkLayer D M0 lmdb q eps level ef).Returns neighbours
  pruned : robustPrune D M M0 alpha lmdb neighbours top = .ok selected
  links : linksAsked level rs = linksOf query selected

theorem nodup_selected {neighbours selected : List ScoredLink} (hnd : eps.Nodup)
    (hbeam : (walkLayer D M0 lmdb q eps level ef).Returns neighbours)
    (hprune : robustPrune D M M0 alpha lmdb neighbours top = .ok selected) :
    (selected.map Scored.id).Nodup := by
  have hsub : selected.Sublist (neighbours.insertionSort (· ≤ ·)) :=
    robustPrune_eq hprune ▸ pick_sublist _ _
  refine List.Nodup.sublist (hsub.map Scored.id) ?_
  exact ((List.perm_insertionSort _ neighbours).map Scored.id).nodup_iff.mpr
    (walk_distinct hnd hbeam)

theorem beamLayer_ends {out : List ItemId} {rs : List (Request M0)}
    (h : (beamLayer D M M0 alpha lmdb ef query q top eps level).Ends rs out) :
    ∃ neighbours selected,
      LinksLayer D M M0 alpha lmdb ef q eps query top level neighbours selected rs ∧
      out = selected.map Scored.id ∧ ∀ k, level ≠ k → linksAsked k rs = [] := by
  obtain ⟨neighbours, rs₁, rs₂, rfl, hwalk, hafter⟩ := Prog.ends_bind_iff.mp h
  obtain ⟨selected, rs₃, rs₄, rfl, hsel, hloop⟩ := Prog.ends_bind_iff.mp hafter
  obtain ⟨hprune, rfl⟩ := Prog.ends_ofExcept_iff.mp hsel
  obtain ⟨rfl, hlinks⟩ := linking_ends hloop
  have hnone := linksAsked_eq_nil (walks_walkLayer.mono Walks.addsNoLink) hwalk
  refine ⟨neighbours, selected, ⟨hwalk.returns, hprune, ?_⟩, by simp, fun k hk => ?_⟩
  · simp [linksAsked_append, hnone, hlinks]
  · simp [linksAsked_append, hnone, hlinks, hk]

/-- The layers from `n` down. -/
theorem beam_ends : ∀ {n : Nat} {eps out : List ItemId} {rs : List (Request M0)},
    ((List.range (n + 1)).reverse.foldlM (beamLayer D M M0 alpha lmdb ef query q top) eps).Ends
      rs out →
    (∀ level ≤ n, ∃ eps' neighbours selected, (eps.Nodup → eps'.Nodup) ∧
      LinksLayer D M M0 alpha lmdb ef q eps' query top level neighbours selected rs) ∧
    ∀ level, n < level → linksAsked level rs = []
  | 0, eps, out, rs, h => by
    rw [show (List.range (0 + 1)).reverse = [0] from rfl, List.foldlM_cons] at h
    obtain ⟨mid, rs₁, rs₂, rfl, hlayer, hend⟩ := Prog.ends_bind_iff.mp h
    obtain ⟨rfl, -⟩ := Prog.ends_ret_iff.mp hend
    obtain ⟨neighbours, selected, hlinked, -, hother⟩ := beamLayer_ends hlayer
    rw [List.append_nil]
    refine ⟨fun level hle => ?_, fun level hlt => hother level hlt.ne⟩
    obtain rfl := Nat.le_zero.mp hle
    exact ⟨eps, neighbours, selected, id, hlinked⟩
  | n + 1, eps, out, rs, h => by
    rw [List.range_succ, List.reverse_append, List.reverse_singleton, List.singleton_append,
      List.foldlM_cons] at h
    obtain ⟨mid, rs₁, rs₂, rfl, hlayer, hrest⟩ := Prog.ends_bind_iff.mp h
    obtain ⟨neighbours, selected, hlinked, rfl, hother⟩ := beamLayer_ends hlayer
    obtain ⟨hbelow, habove⟩ := beam_ends hrest
    refine ⟨fun level hle => ?_, fun level hlt => ?_⟩
    · rcases hle.eq_or_lt with rfl | hlt
      · refine ⟨eps, neighbours, selected, id, hlinked.beam, hlinked.pruned, ?_⟩
        rw [linksAsked_append, habove _ (Nat.lt_succ_self n), List.append_nil, hlinked.links]
      · obtain ⟨eps', neighbours', selected', hnd, hbeam, hprune, hlinks⟩ :=
          hbelow level (Nat.le_of_lt_succ hlt)
        refine ⟨eps', neighbours', selected',
          fun h => hnd (nodup_selected h hlinked.beam hlinked.pruned), hbeam, hprune, ?_⟩
        rw [linksAsked_append, hother level hlt.ne', List.nil_append, hlinks]
    · rw [linksAsked_append, hother level hlt.ne, habove level (by omega), List.append_nil]

theorem greedyLayer_singleton {out : List ItemId}
    (h : (greedyLayer D M0 lmdb q eps level).Returns out) : ∃ x, out = [x] := by
  obtain ⟨neighbours, -, h⟩ := Prog.returns_bind_iff.mp h
  cases hhead : neighbours.head? with
  | none =>
    rw [hhead] at h
    cases h
  | some closest =>
    rw [hhead] at h
    cases h
    exact ⟨closest.id, rfl⟩

/-- **The links an insert asks for**, whatever it is replied: at each of its layers those with what
is selected of a beam result, and none above. -/
theorem insert_ends {maxLevel : Nat} {entryPoints : List ItemId} {rs : List (Request M0)} {u : Unit}
    (h : (HnswBuilder.insert D M M0 alpha lmdb ef maxLevel entryPoints query top).Ends rs u) :
    ∃ q, lmdb.item query = .ok q ∧
      (∀ level ≤ top, ∃ eps neighbours selected, (entryPoints.Nodup → eps.Nodup) ∧
        LinksLayer D M M0 alpha lmdb ef q eps query top level neighbours selected rs) ∧
      ∀ level, top < level → linksAsked level rs = [] := by
  obtain ⟨q, rs₁, rs₂, rfl, hread, h₁⟩ := Prog.ends_bind_iff.mp h
  obtain ⟨hq, rfl⟩ := Prog.ends_ofExcept_iff.mp hread
  obtain ⟨eps, rs₃, rs₄, rfl, hgreedy, h₂⟩ := Prog.ends_bind_iff.mp h₁
  obtain ⟨_, rs₅, rs₆, rfl, hadd, h₃⟩ := Prog.ends_bind_iff.mp h₂
  obtain ⟨_, rs₇, rs₈, rfl, hbeam, h₄⟩ := Prog.ends_bind_iff.mp h₃
  obtain ⟨rfl, -⟩ := Prog.ends_ret_iff.mp h₄
  have hnd : entryPoints.Nodup → eps.Nodup := fun h => Prog.returns_foldlM
    (J := List.Nodup) (fun _ _ _ _ hret => by
      obtain ⟨x, rfl⟩ := greedyLayer_singleton hret
      exact List.nodup_singleton x) h hgreedy.returns
  have hgreedy := linksAsked_eq_nil (issues_foldlM (fun _ _ _ =>
    walks_greedyLayer.mono Walks.addsNoLink) _) hgreedy
  have hadd := linksAsked_eq_nil (addsNoLink_addInLayers _) hadd
  have hall : ∀ level, linksAsked level ([] ++ (rs₃ ++ (rs₅ ++ (rs₇ ++ [])))) =
      linksAsked level rs₇ := fun level => by
    simp [linksAsked_append, hgreedy, hadd]
  obtain ⟨hlayers, habove⟩ := beam_ends hbeam
  refine ⟨q, hq, fun level hle => ?_, fun level hlt => (hall level).trans (habove level hlt)⟩
  obtain ⟨eps', neighbours, selected, hnd', hwalk, hprune, hlinks⟩ := hlayers level hle
  exact ⟨eps', neighbours, selected, hnd' ∘ hnd, hwalk, hprune, (hall level).trans hlinks⟩

/-! ## The cap of the layer -/

theorem robustPrune_ok {neighbours : List ScoredLink} (hlive : ∀ s ∈ neighbours, Live lmdb s.id)
    (level : Nat) : robustPrune D M M0 alpha lmdb neighbours level =
      .ok (pick (shades D alpha lmdb) (linkCap M M0 level) []
        (neighbours.insertionSort (· ≤ ·))) := by
  obtain ⟨out, hout⟩ := robustPrune_returns hlive level
  rw [hout, robustPrune_eq hout]

/-- The neighbours that a selection without a cap takes. -/
def diverse (D : Distance) (alpha : F32) (lmdb : FrozenReader) (neighbours : List ScoredLink) :
    List ScoredLink :=
  pickAll (shades D alpha lmdb) (neighbours.insertionSort (· ≤ ·))

/-- **The selection is that of the cap of the layer** exactly on an upper layer, for an item of
layer 0, where the caps are equal, or when there are no more diverse neighbours than the smaller
cap. -/
theorem insert_cap_iff {maxLevel : Nat} {entryPoints : List ItemId} {rs : List (Request M0)}
    {u : Unit}
    (h : (HnswBuilder.insert D M M0 alpha lmdb ef maxLevel entryPoints query top).Ends rs u) :
    ∃ q, lmdb.item query = .ok q ∧ ∀ level ≤ top,
      (∃ eps neighbours selected,
        LinksLayer D M M0 alpha lmdb ef q eps query top level neighbours selected rs) ∧
      ∀ eps neighbours selected,
        LinksLayer D M M0 alpha lmdb ef q eps query top level neighbours selected rs →
        (robustPrune D M M0 alpha lmdb neighbours level = .ok selected ↔
          0 < level ∨ top = 0 ∨ M = M0 ∨ (diverse D alpha lmdb neighbours).length ≤ min M M0) := by
  obtain ⟨q, hq, hlayers, -⟩ := insert_ends h
  refine ⟨q, hq, fun level hle => ?_⟩
  obtain ⟨eps, neighbours, selected, -, hlinks⟩ := hlayers level hle
  refine ⟨⟨eps, neighbours, selected, hlinks⟩, fun eps neighbours selected hlinks => ?_⟩
  rw [robustPrune_ok (walk_live hlinks.beam), robustPrune_eq hlinks.pruned, Except.ok.injEq,
    pick_cap_eq_iff, ← diverse]
  unfold linkCap
  by_cases hlevel : level = 0
  · by_cases htop : top = 0
    · simp [hlevel, htop]
    · simp [hlevel, htop, eq_comm, min_comm]
  · have htop : top ≠ 0 := by omega
    simp [hlevel, htop, Nat.pos_of_ne_zero hlevel]

/-- Where the inserts of the next build start, after a history: the snapshot and the builder. -/
def insertStart (M M0 : Nat) (env : Environment) (tr : List (Writer × Index.Op)) :
    Except Failure (FrozenReader × HnswBuilder M0) := do
  let some db := Index.play manhattan ∅ tr | throw (.err .heed)
  let sets := Index.buildSets .default 0 db
  let lmdb := Index.snapshot .default 0 db
  let levels := drawnLevels env sets.toInsert
  let (_, b) ← prepareLevelsAndEntryPoints manhattan M .default env lmdb
    (Index.builderOf M0 0 lmdb.db) levels ((levels.map Prod.snd).foldl max 0) sets.toDelete
  pure (lmdb, b)

/-- Item 0 is on level 2, item 3 on level 1, the others are on level 0. -/
def threeHeights : Environment :=
  .sequential (fun x => if x = 0 then 2 else if x = 3 then 1 else 0) fun x => by
    split_ifs <;> decide

/-- Items 0, 1 and 2 are built at three points around the origin; item 3 is added at the origin. -/
def hubHistory : List (Writer × Index.Op) :=
  [.addItem 3 [F32.zero, F32.zero], .build 2 3 threeHeights .default,
    .addItem 2 [F32.zero, F32.one], .addItem 1 [⟨0xbf800000⟩, F32.zero],
    .addItem 0 [F32.one, F32.zero]].map (⟨0, 2⟩, ·)

/-- Item 3 is on level 1 and is linked on layer 0 with items 0 and 1 only, although the layer has
room for item 2 too, which is no nearer to either of them than to item 3. -/
theorem hub_is_thin : ∃ lmdb b layers neighbours layers',
    insertStart 2 3 threeHeights hubHistory = .ok (lmdb, b) ∧
    (HnswBuilder.insert manhattan 2 3 F32.one lmdb 100 b.maxLevel b.entryPoints 3 1).run
      (exec manhattan 2 F32.one lmdb) b.layers = .ok ((), layers) ∧
    Layers.linksAt layers 0 3 = [⟨F32.one, 0⟩, ⟨F32.one, 1⟩] ∧
    (walkLayer manhattan 3 lmdb (Item.ofVector manhattan [F32.zero, F32.zero]) [0] 0 100).run
      (exec manhattan 2 F32.one lmdb) b.layers = .ok (neighbours, layers') ∧
    robustPrune manhattan 2 3 F32.one lmdb neighbours 1 = .ok [⟨F32.one, 0⟩, ⟨F32.one, 1⟩] ∧
    robustPrune manhattan 2 3 F32.one lmdb neighbours 0 =
      .ok [⟨F32.one, 0⟩, ⟨F32.one, 1⟩, ⟨F32.one, 2⟩] := by
  have h : ((insertStart 2 3 threeHeights hubHistory).toOption.bind fun x =>
      ((HnswBuilder.insert manhattan 2 3 F32.one x.1 100 x.2.maxLevel x.2.entryPoints 3 1).run
        (exec manhattan 2 F32.one x.1) x.2.layers).toOption.bind fun y =>
      ((walkLayer manhattan 3 x.1 (Item.ofVector manhattan [F32.zero, F32.zero]) [0] 0 100).run
        (exec manhattan 2 F32.one x.1) x.2.layers).toOption.map fun z =>
      (Layers.linksAt y.2 0 3, (robustPrune manhattan 2 3 F32.one x.1 z.1 1).toOption,
        (robustPrune manhattan 2 3 F32.one x.1 z.1 0).toOption)) =
      some ([⟨F32.one, 0⟩, ⟨F32.one, 1⟩], some [⟨F32.one, 0⟩, ⟨F32.one, 1⟩],
        some [⟨F32.one, 0⟩, ⟨F32.one, 1⟩, ⟨F32.one, 2⟩]) := by
    decide +kernel
  obtain ⟨⟨lmdb, b⟩, hstart, h⟩ := Option.bind_eq_some_iff.mp h
  obtain ⟨⟨_, layers⟩, hinsert, h⟩ := Option.bind_eq_some_iff.mp h
  obtain ⟨⟨neighbours, layers'⟩, hwalk, h⟩ := Option.map_eq_some_iff.mp h
  simp only [Prod.mk.injEq] at h
  obtain ⟨hlinks, htop, hzero⟩ := h
  exact ⟨lmdb, b, layers, neighbours, layers', Txn.ok_of_toOption hstart,
    Txn.ok_of_toOption hinsert, hlinks, Txn.ok_of_toOption hwalk, Txn.ok_of_toOption htop,
    Txn.ok_of_toOption hzero⟩

/-- The selection of this insert at each of its layers. -/
theorem hub_selection : ∃ lmdb b rs, insertStart 2 3 threeHeights hubHistory = .ok (lmdb, b) ∧
    ∃ q, lmdb.item 3 = .ok q ∧ ∀ level ≤ 1,
      (∃ eps neighbours selected,
        LinksLayer manhattan 2 3 F32.one lmdb 100 q eps 3 1 level neighbours selected rs) ∧
      ∀ eps neighbours selected,
        LinksLayer manhattan 2 3 F32.one lmdb 100 q eps 3 1 level neighbours selected rs →
        (robustPrune manhattan 2 3 F32.one lmdb neighbours level = .ok selected ↔
          0 < level ∨ 1 = 0 ∨ 2 = 3 ∨
            (diverse manhattan F32.one lmdb neighbours).length ≤ min 2 3) := by
  have h : ((insertStart 2 3 threeHeights hubHistory).toOption.bind fun x =>
      ((HnswBuilder.insert manhattan 2 3 F32.one x.1 100 x.2.maxLevel x.2.entryPoints 3 1).run
        (exec manhattan 2 F32.one x.1) x.2.layers).toOption.map fun _ => ()) = some () := by
    decide +kernel
  obtain ⟨⟨lmdb, b⟩, hstart, h⟩ := Option.bind_eq_some_iff.mp h
  obtain ⟨⟨_, layers⟩, hinsert, -⟩ := Option.map_eq_some_iff.mp h
  obtain ⟨rs, hends⟩ := Prog.exists_ends (Txn.ok_of_toOption hinsert)
  exact ⟨lmdb, b, rs, Txn.ok_of_toOption hstart, insert_cap_iff hends⟩

/-! ## The query itself -/

/-- The query takes nothing away from the others: whenever it is found, the cap is reached before
it, a nearer selected point dominates it, or it dominates none of those selected after it and
leaves room for them. -/
def Unhampered (D : Distance) (M M0 : Nat) (alpha : F32) (lmdb : FrozenReader) (query : ItemId)
    (top : Nat) (neighbours : List ScoredLink) : Prop :=
  ∀ pre s post, neighbours.insertionSort (· ≤ ·) = pre ++ s :: post → s.id = query →
    (pick (shades D alpha lmdb) (linkCap M M0 top) [] pre).length = linkCap M M0 top ∨
    (∃ i ∈ pick (shades D alpha lmdb) (linkCap M M0 top) [] pre, Dominates D alpha lmdb i s) ∨
    ((∀ c ∈ pick (shades D alpha lmdb) (linkCap M M0 top)
        (pick (shades D alpha lmdb) (linkCap M M0 top) [] pre) post,
        ¬ Dominates D alpha lmdb s c) ∧
      (pick (shades D alpha lmdb) (linkCap M M0 top) [] (pre ++ post)).length < linkCap M M0 top)

theorem insertionSort_filter (l : List ScoredLink) (p : ScoredLink → Bool) :
    (l.filter p).insertionSort (· ≤ ·) = (l.insertionSort (· ≤ ·)).filter p := by
  refine eq_of_perm_of_sorted ?_ (List.pairwise_insertionSort _ _)
    ((List.pairwise_insertionSort _ _).filter p)
  exact (List.perm_insertionSort _ _).trans ((List.perm_insertionSort _ l).symm.filter p)

/-- The others of a list of distinct points. -/
theorem filter_others {pre post : List ScoredLink} {s : ScoredLink}
    (hnd : ((pre ++ s :: post).map Scored.id).Nodup) (hs : s.id = query) :
    (∀ c ∈ pre, decide (c.id ≠ query) = true) ∧ (∀ c ∈ post, decide (c.id ≠ query) = true) := by
  simp only [List.map_append, List.map_cons, List.nodup_append, List.nodup_cons, List.mem_cons,
    List.mem_map, hs] at hnd
  obtain ⟨-, ⟨hpost, -⟩, hpre⟩ := hnd
  exact ⟨fun c hc => decide_eq_true fun he => hpre _ ⟨c, hc, rfl⟩ _ (Or.inl rfl) he,
    fun c hc => decide_eq_true fun he => hpost ⟨c, hc, he⟩⟩

/-- **Among distinct stored neighbours the query does not matter** exactly if it takes nothing
away. -/
theorem others_eq_iff {neighbours : List ScoredLink} (hnd : (neighbours.map Scored.id).Nodup) :
    (pick (shades D alpha lmdb) (linkCap M M0 top) [] (neighbours.insertionSort (· ≤ ·))).filter
        (fun s => s.id ≠ query) =
      pick (shades D alpha lmdb) (linkCap M M0 top) []
        ((neighbours.filter fun s => s.id ≠ query).insertionSort (· ≤ ·)) ↔
    Unhampered D M M0 alpha lmdb query top neighbours := by
  have hnd' : ((neighbours.insertionSort (· ≤ ·)).map Scored.id).Nodup :=
    ((List.perm_insertionSort _ neighbours).map Scored.id).nodup_iff.mpr hnd
  rw [insertionSort_filter]
  unfold Unhampered
  simp only [← shades_iff, Bool.not_eq_true]
  generalize neighbours.insertionSort (· ≤ ·) = sorted at hnd'
  by_cases hmem : ∃ s ∈ sorted, s.id = query
  · obtain ⟨s, hs, hsq⟩ := hmem
    obtain ⟨pre, post, rfl⟩ := List.append_of_mem hs
    obtain ⟨hpre, hpost⟩ := filter_others hnd' hsq
    have hfilter : (pre ++ s :: post).filter (fun s => s.id ≠ query) = pre ++ post := by
      rw [List.filter_append, List.filter_cons_of_neg (by simp [hsq]),
        List.filter_eq_self.mpr hpre, List.filter_eq_self.mpr hpost]
    rw [hfilter, pick_without_iff (by simp [hsq]) hpre hpost]
    constructor
    · intro h pre' s' post' heq hs'
      have hnew : ∀ {l : List ScoredLink}, (∀ c ∈ l, decide (c.id ≠ query) = true) → s' ∉ l :=
        fun hl hmem => of_decide_eq_true (hl s' hmem) hs'
      obtain ⟨rfl, rfl, rfl⟩ := (List.append_cons_inj_of_notMem (hnew hpre) (hnew hpost)).mp heq
      exact h
    · exact fun h => h pre s post rfl hsq
  · have hall : ∀ s ∈ sorted, decide (s.id ≠ query) = true := fun s hs =>
      decide_eq_true fun he => hmem ⟨s, hs, he⟩
    rw [List.filter_eq_self.mpr hall,
      List.filter_eq_self.mpr fun s hs => hall s ((pick_sublist _ _).subset hs)]
    refine iff_of_true rfl fun pre s post heq hs => absurd ⟨s, ?_, hs⟩ hmem
    rw [heq]
    exact List.mem_append_right _ List.mem_cons_self

/-- **Re-inserting an item is not hampered by its own presence** exactly when the item takes
nothing away from the others in the selection. -/
theorem insert_self_iff {maxLevel : Nat} {entryPoints : List ItemId} (hnd : entryPoints.Nodup)
    {rs : List (Request M0)} {u : Unit}
    (h : (HnswBuilder.insert D M M0 alpha lmdb ef maxLevel entryPoints query top).Ends rs u) :
    ∃ q, lmdb.item query = .ok q ∧ ∀ level ≤ top,
      (∃ eps neighbours selected, eps.Nodup ∧
        LinksLayer D M M0 alpha lmdb ef q eps query top level neighbours selected rs) ∧
      ∀ eps neighbours selected, eps.Nodup →
        LinksLayer D M M0 alpha lmdb ef q eps query top level neighbours selected rs →
        ∃ others, robustPrune D M M0 alpha lmdb (neighbours.filter fun s => s.id ≠ query) top =
            .ok others ∧
          (selected.filter (fun s => s.id ≠ query) = others ↔
            Unhampered D M M0 alpha lmdb query top neighbours) := by
  obtain ⟨q, hq, hlayers, -⟩ := insert_ends h
  refine ⟨q, hq, fun level hle => ?_⟩
  obtain ⟨eps, neighbours, selected, heps, hlinks⟩ := hlayers level hle
  refine ⟨⟨eps, neighbours, selected, heps hnd, hlinks⟩,
    fun eps neighbours selected heps hlinks => ?_⟩
  have hlive := walk_live hlinks.beam
  refine ⟨_, robustPrune_ok (fun s hs => hlive s (List.mem_of_mem_filter hs)) top, ?_⟩
  rw [robustPrune_eq hlinks.pruned]
  exact others_eq_iff (walk_distinct heps hlinks.beam)

/-- Items 0, 1 and 2 are built at 0, 1 and -1; item 3 is added at 3, so that the entry point, item
0, is inserted again. -/
def againHistory : List (Writer × Index.Op) :=
  [.addItem 3 [⟨0x40400000⟩], .build 2 2 .oneLevel .default, .addItem 2 [⟨0xbf800000⟩],
    .addItem 1 [F32.one], .addItem 0 [F32.zero]].map (⟨0, 1⟩, ·)

/-- Item 0 finds itself and takes one of its own two places, so that of items 1 and 2 it is linked
with one only. -/
theorem own_place_taken : ∃ lmdb b layers neighbours layers',
    insertStart 2 2 .oneLevel againHistory = .ok (lmdb, b) ∧
    (HnswBuilder.insert manhattan 2 2 F32.one lmdb 100 b.maxLevel b.entryPoints 0 0).run
      (exec manhattan 2 F32.one lmdb) b.layers = .ok ((), layers) ∧
    Layers.linksAt layers 0 0 = [⟨F32.one, 1⟩] ∧
    (walkLayer manhattan 2 lmdb (Item.ofVector manhattan [F32.zero]) b.entryPoints 0 100).run
      (exec manhattan 2 F32.one lmdb) b.layers = .ok (neighbours, layers') ∧
    robustPrune manhattan 2 2 F32.one lmdb neighbours 0 = .ok [⟨F32.zero, 0⟩, ⟨F32.one, 1⟩] ∧
    robustPrune manhattan 2 2 F32.one lmdb (neighbours.filter fun s => s.id ≠ 0) 0 =
      .ok [⟨F32.one, 1⟩, ⟨F32.one, 2⟩] := by
  have h : ((insertStart 2 2 .oneLevel againHistory).toOption.bind fun x =>
      ((HnswBuilder.insert manhattan 2 2 F32.one x.1 100 x.2.maxLevel x.2.entryPoints 0 0).run
        (exec manhattan 2 F32.one x.1) x.2.layers).toOption.bind fun y =>
      ((walkLayer manhattan 2 x.1 (Item.ofVector manhattan [F32.zero]) x.2.entryPoints 0 100).run
        (exec manhattan 2 F32.one x.1) x.2.layers).toOption.map fun z =>
      (Layers.linksAt y.2 0 0, (robustPrune manhattan 2 2 F32.one x.1 z.1 0).toOption,
        (robustPrune manhattan 2 2 F32.one x.1 (z.1.filter fun s => s.id ≠ 0) 0).toOption)) =
      some ([⟨F32.one, 1⟩], some [⟨F32.zero, 0⟩, ⟨F32.one, 1⟩],
        some [⟨F32.one, 1⟩, ⟨F32.one, 2⟩]) := by
    decide +kernel
  obtain ⟨⟨lmdb, b⟩, hstart, h⟩ := Option.bind_eq_some_iff.mp h
  obtain ⟨⟨_, layers⟩, hinsert, h⟩ := Option.bind_eq_some_iff.mp h
  obtain ⟨⟨neighbours, layers'⟩, hwalk, h⟩ := Option.map_eq_some_iff.mp h
  simp only [Prod.mk.injEq] at h
  obtain ⟨hlinks, hwith, hwithout⟩ := h
  exact ⟨lmdb, b, layers, neighbours, layers', Txn.ok_of_toOption hstart,
    Txn.ok_of_toOption hinsert, hlinks, Txn.ok_of_toOption hwalk, Txn.ok_of_toOption hwith,
    Txn.ok_of_toOption hwithout⟩

/-- The selection of this insert on its only layer. -/
theorem again_selection : ∃ lmdb b rs, insertStart 2 2 .oneLevel againHistory = .ok (lmdb, b) ∧
    ∃ q, lmdb.item 0 = .ok q ∧ ∀ level ≤ 0,
      (∃ eps neighbours selected, eps.Nodup ∧
        LinksLayer manhattan 2 2 F32.one lmdb 100 q eps 0 0 level neighbours selected rs) ∧
      ∀ eps neighbours selected, eps.Nodup →
        LinksLayer manhattan 2 2 F32.one lmdb 100 q eps 0 0 level neighbours selected rs →
        ∃ others, robustPrune manhattan 2 2 F32.one lmdb (neighbours.filter fun s => s.id ≠ 0) 0 =
            .ok others ∧
          (selected.filter (fun s => s.id ≠ 0) = others ↔
            Unhampered manhattan 2 2 F32.one lmdb 0 0 neighbours) := by
  have h : ((insertStart 2 2 .oneLevel againHistory).toOption.bind fun x =>
      ((HnswBuilder.insert manhattan 2 2 F32.one x.1 100 x.2.maxLevel x.2.entryPoints 0 0).run
        (exec manhattan 2 F32.one x.1) x.2.layers).toOption.map fun _ =>
      decide x.2.entryPoints.Nodup) = some true := by
    decide +kernel
  obtain ⟨⟨lmdb, b⟩, hstart, h⟩ := Option.bind_eq_some_iff.mp h
  obtain ⟨⟨_, layers⟩, hinsert, hnd⟩ := Option.map_eq_some_iff.mp h
  obtain ⟨rs, hends⟩ := Prog.exists_ends (Txn.ok_of_toOption hinsert)
  exact ⟨lmdb, b, rs, Txn.ok_of_toOption hstart, insert_self_iff (of_decide_eq_true hnd) hends⟩

end Hannoy.Graph
