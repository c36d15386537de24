import Hannoy.Graph.Build
import Hannoy.Graph.Capacity
import Hannoy.Graph.Select
import Hannoy.Library.Failures

/-!
# What can stop a build of the graph (`hnsw.rs:122-415`)

With `M` at most `M0`, a build of the graph fails only when an item cannot be read, when its cancel
callback says so, or when a call of the database does: no walk starts without a result to compare
with or runs out of candidates to hand down, and no link array overflows. This holds for any
interleaving of the inserts of a level group.

* `insert_fails`, `patchLinks_fails`: an insert and a repair fail as the reads of their items do.
* `buildLayers_fails`: on a stored graph in order every item that is read is there, so that the
  build is only ever `Interrupted`.
* `buildLayers_errs`: on any entries of the right kinds it may return an error, but does not panic.
-/

namespace Hannoy.Graph

open Hannoy.Library Hannoy.Library.Server Hannoy.Library.Txn Hannoy.HnswBuilder

variable {D : Distance} {M M0 : Nat} {alpha : F32} {options : BuildOption} {env : Environment}
  {lmdb : FrozenReader} {E : Failure → Prop}

/-- The build was stopped from outside: by its cancel callback, or by a call of the database. -/
inductive Interrupted (options : BuildOption) (env : Environment) : Failure → Prop
  | cancelled {probe : Probe} (h : options.cancel probe = true) :
      Interrupted options env (.err .buildCancelled)
  | fault {site : Site} (h : env.fault site = true) : Interrupted options env (.err .heed)

theorem Interrupted.of_cancelled {n : Nat} {probe : Nat → Probe}
    (h : options.cancelled n probe = true) : Interrupted options env (.err .buildCancelled) := by
  simp only [BuildOption.cancelled, Bool.and_eq_true] at h
  exact .cancelled h.2

/-- An error, and not a panic. -/
def Errs (f : Failure) : Prop := ∃ e, f = .err e

theorem Interrupted.errs {f : Failure} (h : Interrupted options env f) : Errs f := by
  cases h with
  | cancelled => exact ⟨_, rfl⟩
  | fault => exact ⟨_, rfl⟩

/-! ## Reading -/

/-- The read of an item fails because there is none, or with an error in `E`. -/
def Reads (E : Failure → Prop) (lmdb : FrozenReader) : Prop :=
  ∀ x e, lmdb.item x = .error e → E e ∨ e = .err (.missingKey lmdb.index "Item" x 0)

theorem item_fails {x : ItemId} (h : Live lmdb x) : Fails E (lmdb.item x) := by
  obtain ⟨it, hit⟩ := Option.isSome_iff_exists.mp h
  exact Fails.of_ok (item_ok_iff.mpr hit)

theorem item_errs {x : ItemId} : Fails Errs (lmdb.item x) := fun f hf => by
  cases f with
  | err e => exact ⟨e, rfl⟩
  | panic p => exact absurd hf item_ne_panic

theorem reads_errs : Reads Errs lmdb := fun _ e h => Or.inl (item_errs e h)

theorem reads_of_wellTyped (hwt : lmdb.db.WellTyped lmdb.index) : Reads E lmdb := by
  intro x e h
  refine Or.inr ?_
  unfold FrozenReader.item Database.getNode at h
  cases hk : lmdb.db[Key.item lmdb.index x]? with
  | none =>
    rw [hk] at h
    cases h
    rfl
  | some v =>
    cases hwt _ v hk rfl
    rw [hk] at h
    cases h

theorem decodeLinks_fails (hwt : lmdb.db.WellTyped lmdb.index) {k : Key} {v : Value}
    (h : (k, v) ∈ lmdb.linksEntries) : Fails E (decodeLinks v) := by
  obtain ⟨x, l, s, -, rfl, -⟩ := (Database.mem_prefixIter_links hwt).mp h
  exact Fails.ok s

/-! ## Pruning -/

theorem okToAdd_fails {dist : F32} {c : ItemId} (hc : Fails E (lmdb.item c)) :
    ∀ {selected : List ScoredLink}, (∀ s ∈ selected, Fails E (lmdb.item s.id)) →
      Fails E (okToAdd D alpha lmdb dist c selected)
  | [], _ => Fails.ok true
  | i :: selected, h => by
    rw [okToAdd]
    refine hc.bind fun x _ => (h i List.mem_cons_self).bind fun y _ => ?_
    dsimp only
    split_ifs
    · exact Fails.ok false
    · exact okToAdd_fails hc fun s hs => h s (List.mem_cons_of_mem i hs)

theorem robustPruneLoop_fails {cap : Nat} : ∀ {candidates selected : List ScoredLink},
    (∀ c ∈ candidates, Fails E (lmdb.item c.id)) → (∀ s ∈ selected, Fails E (lmdb.item s.id)) →
      Fails E (robustPruneLoop D alpha lmdb cap candidates selected)
  | [], selected, _, _ => Fails.ok selected
  | c :: candidates, selected, hcand, hsel => by
    have hc := hcand c List.mem_cons_self
    have hrest := fun d hd => hcand d (List.mem_cons_of_mem c hd)
    rw [robustPruneLoop]
    split_ifs
    · exact Fails.ok selected
    · refine (okToAdd_fails hc hsel).bind fun ok _ => ?_
      cases ok with
      | false => exact robustPruneLoop_fails hrest hsel
      | true =>
        refine robustPruneLoop_fails hrest fun s hs => ?_
        rcases List.mem_append.mp hs with hs | hs
        · exact hsel s hs
        · rwa [List.mem_singleton.mp hs]

theorem robustPrune_fails {candidates : List ScoredLink}
    (h : ∀ c ∈ candidates, Fails E (lmdb.item c.id)) (level : Nat) :
    Fails E (robustPrune D M M0 alpha lmdb candidates level) :=
  robustPruneLoop_fails (fun c hc => h c ((List.mem_insertionSort _).mp hc))
    fun _ hs => absurd hs List.not_mem_nil

/-! ## Walking a layer -/

theorem walkPoint_fails (hr : Reads E lmdb) {query : Item} {ef : Nat} {fmax : F32} {st : Walk}
    {point : ItemId} : Fails E (walkPoint D lmdb query ef fmax st point) := by
  unfold walkPoint
  split_ifs
  · exact Fails.ok st
  · cases hit : lmdb.item point with
    | ok item => exact Fails.ok _
    | error e =>
      rcases hr point e hit with he | rfl
      · split
        · exact Fails.ok _
        · exact Fails.ok _
        · exact Fails.error (by simp_all)
      · exact Fails.ok _

/-- The result heap does not become empty again. -/
theorem res_walkPoint {query : Item} {ef : Nat} {fmax : F32} {st st' : Walk} {point : ItemId}
    (h : st.res ≠ []) (hw : walkPoint D lmdb query ef fmax st point = .ok st') : st'.res ≠ [] := by
  rcases walkPoint_cases hw with ⟨-, rfl⟩ | ⟨-, item, -, rfl⟩ | ⟨-, rfl⟩
  · exact h
  · have hlen := Beam.le_length_res_accept (P := walkParams ef) fmax (st.see point)
      ⟨D.distance query item, point⟩
    have hpos := List.length_pos_iff.mpr h
    exact List.length_pos_iff.mp (hpos.trans_le hlen)
  · exact h

/-- Every entry point is a result. -/
theorem res_walkSeed {query : Item} {ef : Nat} : ∀ {eps : List ItemId} {st st' : Walk},
    st.res ≠ [] ∨ eps ≠ [] → eps.foldlM (walkSeed D lmdb query ef) st = .ok st' → st'.res ≠ []
  | [], _, _, h, heq => by
    cases heq
    exact h.resolve_right fun hne => hne rfl
  | ep :: eps, st, st', _, heq => by
    rw [List.foldlM_cons, ok_bind_iff] at heq
    obtain ⟨mid, hseed, heq⟩ := heq
    obtain ⟨ve, -, rfl⟩ := walkSeed_seeds hseed
    refine res_walkSeed (Or.inl ?_) heq
    rw [Beam.res_seed, if_pos (show (walkParams ef).keep ep = true from rfl)]
    exact List.ne_nil_of_mem (mem_push.mpr (Or.inl rfl))

/-- What a round of the loop keeps: a result to compare with, and the measure. -/
theorem walkRound_keeps {query : Item} {ef : Nat} {fmax : F32} {proximity : List ItemId}
    {st st' : Walk} (hres : st.res ≠ [])
    (h : proximity.foldlM (walkPoint D lmdb query ef fmax) st = .ok st') : st'.res ≠ [] ∧
      Beam.measure (storedIds lmdb) st' ≤ Beam.measure (storedIds lmdb) st :=
  foldlM_invariant
    (J := fun b : Walk => b.res ≠ [] ∧ Beam.measure (storedIds lmdb) b ≤
      Beam.measure (storedIds lmdb) st)
    (fun _ _ _ _ hb hb' => ⟨res_walkPoint hb.1 hb', (measure_walkPoint hb').trans hb.2⟩)
    ⟨hres, le_rfl⟩ h

/-- **A walk fails only as its reads do**, whatever the other inserts do meanwhile. -/
theorem walkLoop_fails (hr : Reads E lmdb) {query : Item} {level ef : Nat} : ∀ {fuel : Nat}
    {st : Walk}, (st.queue ≠ [] → st.res ≠ []) → Beam.measure (storedIds lmdb) st < fuel →
      (walkLoop D M0 lmdb query level ef fuel st).FailsOnly (exec D M alpha lmdb) E
  | 0, _, _, h => absurd h (Nat.not_lt_zero _)
  | fuel + 1, st, hback, hfuel => by
    unfold walkLoop
    cases hq : st.queue with
    | nil => trivial
    | cons c rest =>
      have hres : st.res ≠ [] := hback (by rw [hq]; exact List.cons_ne_nil _ _)
      have hmeasure : Beam.measure (storedIds lmdb) { st with queue := rest } <
          Beam.measure (storedIds lmdb) st := by
        simp only [Beam.measure, hq, List.length_cons]
        omega
      simp only
      cases htop : st.res.getLast? with
      | none => exact absurd (List.getLast?_eq_none_iff.mp htop) hres
      | some top =>
        simp only
        split_ifs
        · trivial
        · refine (Prog.FailsOnly.of_avoids fun _ => getNeighbours_avoids).bind fun proximity _ => ?_
          refine (Prog.FailsOnly.ofExcept (Fails.foldlM (J := fun _ => True)
            (fun _ _ _ _ => ⟨walkPoint_fails hr, fun _ _ => trivial⟩) trivial)).bind
            fun st' hst' => ?_
          obtain ⟨hres', hle⟩ := walkRound_keeps
            (show ({ st with queue := rest } : Walk).res ≠ [] from hres)
            (Prog.returns_ofExcept_iff.mp hst')
          exact walkLoop_fails hr (fun _ => hres') (by omega)

theorem walkLayer_fails (hr : Reads E lmdb) {query : Item} {level ef : Nat} {eps : List ItemId}
    (heps : ∀ x ∈ eps, Fails E (lmdb.item x)) :
    (walkLayer D M0 lmdb query eps level ef).FailsOnly (exec D M alpha lmdb) E := by
  refine (Prog.FailsOnly.ofExcept (Fails.foldlM (J := fun _ => True) (fun ep hep _ _ =>
    ⟨(heps ep hep).bind fun _ _ => Fails.ok _, fun _ _ => trivial⟩) trivial)).bind fun st hst => ?_
  have hst := Prog.returns_ofExcept_iff.mp hst
  have hlen := length_queue_walkSeed hst
  simp only [List.length_nil, Nat.zero_add] at hlen
  refine walkLoop_fails hr (fun hq => res_walkSeed (Or.inr ?_) hst) ?_
  · rintro rfl
    exact hq (List.length_eq_zero_iff.mp hlen)
  · have hcard := Finset.card_le_card (Finset.sdiff_subset (s := storedIds lmdb) (t := st.seen))
    have hle := card_storedIds_le lmdb
    rw [Beam.measure, hlen]
    omega

theorem walkLoop_finds {query : Item} {level ef : Nat} {out : List ScoredLink} :
    ∀ {fuel : Nat} {st : Walk}, st.res ≠ [] →
      (walkLoop D M0 lmdb query level ef fuel st).Returns out → out ≠ []
  | 0, _, _, h => by cases h
  | fuel + 1, st, hres, h => by
    unfold walkLoop at h
    cases hq : st.queue with
    | nil =>
      rw [hq] at h
      cases h
      exact hres
    | cons c rest =>
      rw [hq] at h
      cases htop : st.res.getLast? with
      | none => exact absurd (List.getLast?_eq_none_iff.mp htop) hres
      | some top =>
        simp only [htop] at h
        split_ifs at h
        · cases h
          exact hres
        · obtain ⟨proximity, -, h⟩ := Prog.returns_bind_iff.mp h
          obtain ⟨st', hst', h⟩ := Prog.returns_bind_iff.mp h
          exact walkLoop_finds (walkRound_keeps
            (show ({ st with queue := rest } : Walk).res ≠ [] from hres)
            (Prog.returns_ofExcept_iff.mp hst')).1 h

/-- **A walk from some entry point finds a result.** -/
theorem walkLayer_finds {query : Item} {level ef : Nat} {eps : List ItemId} {out : List ScoredLink}
    (hne : eps ≠ []) (h : (walkLayer D M0 lmdb query eps level ef).Returns out) : out ≠ [] := by
  obtain ⟨st, hst, h⟩ := Prog.returns_bind_iff.mp h
  exact walkLoop_finds (res_walkSeed (Or.inr hne) (Prog.returns_ofExcept_iff.mp hst)) h

/-! ## Adding entries and links -/

theorem addInLayers_avoids {item : ItemId} {e : Failure} : ∀ {levels : List Nat},
    (addInLayers M0 item levels).Avoids e
  | [] => trivial
  | level :: levels => fun reply => by
    cases reply with
    | noLayer => trivial
    | _ => exact addInLayers_avoids

/-- With room for the caps in the array, the update of a link does not fail. -/
theorem addLinkUpdate_fails (hM : M ≤ M0) {level : Nat} {q : ScoredLink} {node : NodeState M0} :
    Fails E (addLinkUpdate D M alpha lmdb level q node) := by
  have hcap := linkCap_le hM level
  have hlen := node.links.length_le
  have harray : ∀ {l : List ScoredLink}, l.length ≤ M0 →
      Fails E (do pure ⟨← ArrayVec.fromIter M0 l⟩ : Except Failure (NodeState M0)) := fun hl =>
    Fails.bind (Fails.of_ok (dif_pos hl)) fun _ _ => Fails.ok _
  unfold addLinkUpdate
  split_ifs with hroom
  · refine harray ?_
    rw [List.length_append, List.length_singleton]
    omega
  · cases hprune : robustPrune D M M0 alpha lmdb node.links.toList level with
    | ok links => exact harray ((length_robustPrune_le_length hprune).trans hlen)
    | error e =>
      cases e with
      | err e => exact Fails.ok node
      | panic p => exact absurd hprune robustPruneLoop_ne_panic

theorem addLinkInsert_fails (hM0 : 1 ≤ M0) {q : ScoredLink} :
    Fails E (addLinkInsert q : Except Failure (NodeState M0)) :=
  Fails.bind (Fails.of_ok (dif_pos hM0)) fun _ _ => Fails.ok _

theorem addLink_fails (hM : M ≤ M0) (hM0 : 1 ≤ M0) {p : ItemId} {q : ScoredLink} {level : Nat} :
    (addLink M0 p q level).FailsOnly (exec D M alpha lmdb) E := by
  unfold addLink
  split_ifs
  · trivial
  · intro s
    have hserved : ∀ e, (exec D M alpha lmdb (.updateOrInsertWith level p q) s).1 ≠ .failed e := by
      intro e h
      by_cases hlevel : level < s.length
      · obtain ⟨entry, hentry, hexec⟩ := exec_update D M alpha lmdb hlevel p q
        have hnofail : Fails (fun _ => False) entry := by
          rcases hentry with ⟨old, -, rfl⟩ | ⟨-, rfl⟩
          · exact addLinkUpdate_fails hM
          · exact addLinkInsert_fails hM0
        rcases hexec with ⟨node, -, hexec⟩ | ⟨e', herr, -⟩
        · rw [hexec] at h
          cases h
        · exact hnofail e' herr
      · have hnone : s[level]? = none := List.getElem?_eq_none (Nat.le_of_not_lt hlevel)
        unfold exec at h
        simp only [Request.level, hnone] at h
        cases h
    generalize (exec D M alpha lmdb (.updateOrInsertWith level p q) s).1 = reply at hserved
    cases reply with
    | failed e => exact absurd rfl (hserved e)
    | _ => trivial

theorem linkBoth_fails (hM : M ≤ M0) (hM0 : 1 ≤ M0) {query : ItemId} {level : Nat}
    {eps : List ItemId} {s : ScoredLink} :
    (linkBoth M0 query level eps s).FailsOnly (exec D M alpha lmdb) E :=
  (addLink_fails hM hM0).bind fun _ _ => (addLink_fails hM hM0).bind fun _ _ => trivial

/-! ## The insert of an item -/

/-- The greedy search hands down one entry point, which it has read. -/
theorem greedyLayer_hands {q : Item} {eps out : List ItemId} {level : Nat}
    (h : (greedyLayer D M0 lmdb q eps level).Returns out) : ∃ x, out = [x] ∧ Live lmdb x := by
  obtain ⟨neighbours, hwalk, h⟩ := Prog.returns_bind_iff.mp h
  cases hhead : neighbours.head? with
  | none =>
    rw [hhead] at h
    cases h
  | some closest =>
    rw [hhead] at h
    cases h
    exact ⟨closest.id, rfl, walk_live hwalk closest (List.mem_of_head? hhead)⟩

theorem greedyLayer_fails (hr : Reads E lmdb) {q : Item} {eps : List ItemId} {level : Nat}
    (heps : ∀ x ∈ eps, Fails E (lmdb.item x)) (hne : eps ≠ []) :
    (greedyLayer D M0 lmdb q eps level).FailsOnly (exec D M alpha lmdb) E := by
  refine (walkLayer_fails hr heps).bind fun out hout => ?_
  cases hhead : out.head? with
  | none => exact absurd (List.head?_eq_none_iff.mp hhead) (walkLayer_finds hne hout)
  | some closest => trivial

theorem linkAll_hands {query : ItemId} {level : Nat} : ∀ {selected : List ScoredLink}
    {eps out : List ItemId}, (selected.foldlM (linkBoth M0 query level) eps).Returns out →
      out = eps ++ selected.map Scored.id
  | [], _, _, h => by
    cases h
    simp
  | s :: selected, eps, out, h => by
    rw [List.foldlM_cons] at h
    obtain ⟨mid, hlink, h⟩ := Prog.returns_bind_iff.mp h
    obtain ⟨_, -, hlink⟩ := Prog.returns_bind_iff.mp hlink
    obtain ⟨_, -, hlink⟩ := Prog.returns_bind_iff.mp hlink
    cases hlink
    rw [linkAll_hands h]
    simp

/-- One layer of the beam search hands down what it has found and linked. -/
theorem beamLayer_hands {efConstruction : Nat} {query : ItemId} {q : Item} {top level : Nat}
    {eps out : List ItemId}
    (h : (beamLayer D M M0 alpha lmdb efConstruction query q top eps level).Returns out) :
    ∀ x ∈ out, Live lmdb x := by
  obtain ⟨neighbours, hwalk, h⟩ := Prog.returns_bind_iff.mp h
  obtain ⟨selected, hsel, h⟩ := Prog.returns_bind_iff.mp h
  rw [linkAll_hands h, List.nil_append]
  intro x hx
  obtain ⟨s, hs, rfl⟩ := List.mem_map.mp hx
  exact walk_live hwalk s (mem_of_robustPrune (Prog.returns_ofExcept_iff.mp hsel) s hs)

theorem beamLayer_fails (hr : Reads E lmdb) (hM : M ≤ M0) {efConstruction : Nat} {query : ItemId}
    {q : Item} {top level : Nat} {eps : List ItemId} (heps : ∀ x ∈ eps, Fails E (lmdb.item x)) :
    (beamLayer D M M0 alpha lmdb efConstruction query q top eps level).FailsOnly
      (exec D M alpha lmdb) E := by
  refine (walkLayer_fails hr heps).bind fun neighbours hwalk => ?_
  refine (Prog.FailsOnly.ofExcept (robustPrune_fails (fun c hc =>
    item_fails (walk_live hwalk c hc)) top)).bind fun selected hsel => ?_
  -- only with room in the array is anything selected
  have hroom : ∀ s ∈ selected, 1 ≤ M0 := fun s hs =>
    (List.length_pos_iff.mpr (List.ne_nil_of_mem hs)).trans_le
      ((length_robustPrune_le (Prog.returns_ofExcept_iff.mp hsel)).trans (linkCap_le hM top))
  exact Prog.FailsOnly.foldlM (J := fun _ => True)
    (fun s hs _ _ => ⟨linkBoth_fails hM (hroom s hs), fun _ _ => trivial⟩) trivial

/-- **An insert fails only as its reads do**, from any entry points. -/
theorem insert_fails (hr : Reads E lmdb) (hM : M ≤ M0) {efConstruction maxLevel : Nat}
    {entryPoints : List ItemId} {query : ItemId} {level : Nat} (hquery : Fails E (lmdb.item query))
    (heps : ∀ x ∈ entryPoints, Fails E (lmdb.item x)) (hne : entryPoints ≠ []) :
    (insert D M M0 alpha lmdb efConstruction maxLevel entryPoints query level).FailsOnly
      (exec D M alpha lmdb) E := by
  refine (Prog.FailsOnly.ofExcept hquery).bind fun q _ => ?_
  have hgreedy : ∀ {level : Nat} {eps out : List ItemId},
      (greedyLayer D M0 lmdb q eps level).Returns out →
        (∀ x ∈ out, Fails E (lmdb.item x)) ∧ out ≠ [] := by
    intro level eps out hout
    obtain ⟨x, rfl, hlive⟩ := greedyLayer_hands hout
    exact ⟨fun y hy => List.mem_singleton.mp hy ▸ item_fails hlive, List.cons_ne_nil x []⟩
  refine (Prog.FailsOnly.foldlM (J := fun eps : List ItemId =>
    (∀ x ∈ eps, Fails E (lmdb.item x)) ∧ eps ≠ []) (fun level _ eps h =>
      ⟨greedyLayer_fails hr h.1 h.2, fun _ => hgreedy⟩) ⟨heps, hne⟩).bind fun eps hout => ?_
  have heps' := (Prog.returns_foldlM (J := fun eps : List ItemId =>
    (∀ x ∈ eps, Fails E (lmdb.item x)) ∧ eps ≠ []) (fun _ _ _ _ => hgreedy) ⟨heps, hne⟩ hout).1
  refine (Prog.FailsOnly.of_avoids fun _ => addInLayers_avoids).bind fun _ _ => ?_
  exact (Prog.FailsOnly.foldlM (J := fun eps : List ItemId => ∀ x ∈ eps, Fails E (lmdb.item x))
    (fun level _ eps h => ⟨beamLayer_fails hr hM h, fun out hout x hx =>
      item_fails (beamLayer_hands hout x hx)⟩) heps').bind fun _ _ => trivial

/-! ## The insert phase -/

section phases

variable {b : HnswBuilder M0} (hE : ∀ f, Interrupted options env f → E f)

include hE

theorem insertTask_fails (hr : Reads E lmdb) (hM : M ≤ M0)
    (heps : ∀ x ∈ b.entryPoints, Fails E (lmdb.item x)) (hne : b.entryPoints ≠ []) {n : Nat}
    {item : ItemId} {level : Nat} (hitem : Fails E (lmdb.item item)) :
    (insertTask D M options env lmdb b n item level).FailsOnly (exec D M options.alpha lmdb) E := by
  unfold insertTask
  split_ifs with hcancel hfault
  · exact hE _ (Interrupted.of_cancelled hcancel)
  · exact hE _ (Interrupted.fault hfault)
  · exact insert_fails hr hM hitem heps hne

/-- **One level group, for any interleaving of its inserts.** -/
theorem insertGroup_fails (hr : Reads E lmdb) (hM : M ≤ M0)
    (heps : ∀ x ∈ b.entryPoints, Fails E (lmdb.item x)) {n g : Nat} {grp : List (ItemId × Nat)}
    {layers : Layers M0} (hgrp : ∀ p ∈ grp, Fails E (lmdb.item p.1) ∧ b.entryPoints ≠ []) :
    Fails E (insertGroup D M options env lmdb b n g grp layers) := by
  refine interleave_fails fun task htask => ?_
  obtain ⟨⟨p, k⟩, hp, rfl⟩ := List.mem_map.mp htask
  obtain ⟨hitem, hne⟩ := hgrp p (List.fst_mem_of_mem_zipIdx hp)
  exact insertTask_fails hE hr hM heps hne hitem

theorem insertGroups_fails (hr : Reads E lmdb) (hM : M ≤ M0)
    (heps : ∀ x ∈ b.entryPoints, Fails E (lmdb.item x)) :
    ∀ {groups : List (List (ItemId × Nat))} {n g : Nat} {layers : Layers M0},
      (∀ grp ∈ groups, ∀ p ∈ grp, Fails E (lmdb.item p.1) ∧ b.entryPoints ≠ []) →
      Fails E (insertGroups D M options env lmdb b n g groups layers)
  | [], _, _, layers, _ => Fails.ok layers
  | grp :: _, _, _, _, h =>
    (insertGroup_fails hE hr hM heps (h grp List.mem_cons_self)).bind fun _ _ =>
      insertGroups_fails hr hM heps fun grp' hg => h grp' (List.mem_cons_of_mem grp hg)

/-! ## Levels and entry points -/

omit hE in
theorem replaceAt_fails {toDelete : RoaringBitmap} {level : LayerId} :
    ∀ {entries : List (Key × Value)} {eps : RoaringBitmap},
      (∀ e ∈ entries, Fails E (decodeLinks e.2)) → Fails E (replaceAt toDelete level entries eps)
  | [], eps, _ => Fails.ok eps
  | (k, v) :: entries, eps, h => by
    have hrest : Fails E (replaceAt toDelete level entries eps) :=
      replaceAt_fails fun e he => h e (List.mem_cons_of_mem _ he)
    unfold replaceAt
    split_ifs
    · exact hrest
    · exact (h _ List.mem_cons_self).bind fun _ _ => Fails.ok _
    · exact (h _ List.mem_cons_self).bind fun _ _ => hrest

variable (hdec : ∀ e ∈ lmdb.linksEntries, Fails E (decodeLinks e.2))

include hdec

omit hE in
theorem replaceFrom_fails {toDelete : RoaringBitmap} : ∀ {l : Nat} {eps : RoaringBitmap},
    Fails E (replaceFrom lmdb toDelete l eps)
  | 0, _ => replaceAt_fails hdec
  | _ + 1, _ => (replaceAt_fails hdec).bind fun _ _ => replaceFrom_fails

omit hE in
theorem replaceDeleted_fails {toDelete : RoaringBitmap} : ∀ {n l : Nat} {eps : RoaringBitmap},
    Fails E (replaceDeleted lmdb toDelete l n eps)
  | 0, _, eps => Fails.ok eps
  | _ + 1, _, _ => (replaceFrom_fails hdec).bind fun _ _ => replaceDeleted_fails

theorem prepare_fails {levels : List (ItemId × Nat)} {curMaxLevel : Nat}
    {toDelete : RoaringBitmap} :
    Fails E (prepareLevelsAndEntryPoints D M options env lmdb b levels curMaxLevel toDelete) := by
  unfold prepareLevelsAndEntryPoints
  dsimp only
  split_ifs with hfault
  · exact Fails.error (hE _ (Interrupted.fault hfault.2))
  refine (replaceDeleted_fails hdec).bind fun newEps _ => Fails.bind ?_ fun _ _ => Fails.ok _
  refine Fails.bind (Prog.FailsOnly.run (Prog.FailsOnly.foldlM (J := fun _ => True)
    (fun _ _ _ _ => ⟨?_, fun _ _ => trivial⟩) trivial)) fun _ _ => Fails.ok _
  exact Prog.FailsOnly.of_avoids fun _ => addInLayers_avoids

/-! ## The repair -/

omit hE hdec in
/-- **A repair fails only as its reads do.** -/
theorem patchLinks_fails (hM : M ≤ M0) {toDelete links : RoaringBitmap} {id : ItemId} {level : Nat}
    {layers : Layers M0} (hid : Fails E (lmdb.item id))
    (hmerged : ∀ y ∈ mergedLinks lmdb toDelete links level, Fails E (lmdb.item y))
    (hlinked : ∀ s ∈ layers.linksAt level id, Fails E (lmdb.item s.id)) :
    Fails E (patchLinks D M options lmdb toDelete id level links layers) := by
  have hcap := linkCap_le hM level
  unfold patchLinks
  dsimp only
  split_ifs with hfits
  · refine Fails.bind (Fails.of_ok (dif_pos ?_)) fun _ _ => Fails.ok _
    rw [List.length_append, List.length_map, length_ascending]
    omega
  · refine hid.bind fun curr hcurr => ?_
    refine (Fails.mapM fun other hother => ?_).bind fun scored hscored => ?_
    · exact (hmerged other (mem_ascending.mp hother)).bind fun _ _ => Fails.ok _
    rw [scored_eq hcurr hscored]
    refine (robustPrune_fails (fun c hc => ?_) level).bind fun pruned hpruned => ?_
    · rcases List.mem_append.mp hc with hc | hc
      · exact hlinked c hc
      · obtain ⟨other, hother, rfl⟩ := List.mem_map.mp hc
        rw [linkScore_id]
        exact hmerged other (mem_ascending.mp hother)
    · have hlen := length_robustPrune_le hpruned
      exact Fails.bind (Fails.of_ok (dif_pos (hlen.trans hcap))) fun _ _ => Fails.ok _

omit hdec in
/-- The loop, with what the repairs keep. -/
theorem patchAll_fails {toDelete : RoaringBitmap} {J : Layers M0 → Prop} :
    ∀ {entries : List (Key × Value)} {n : Nat} {layers : Layers M0},
      (∀ e ∈ entries, Fails E (decodeLinks e.2) ∧ ∀ links, decodeLinks e.2 = .ok links →
        e.1.node.item ∉ toDelete → ∀ layers, J layers →
          Fails E (patchLinks D M options lmdb toDelete e.1.node.item e.1.node.layer.toNat links
            layers) ∧
          ∀ layers', patchLinks D M options lmdb toDelete e.1.node.item e.1.node.layer.toNat links
            layers = .ok layers' → J layers') →
      J layers → Fails E (patchAll D M options env lmdb toDelete n entries layers)
  | [], _, layers, _, _ => Fails.ok layers
  | (k, v) :: entries, n, layers, h, hJ => by
    obtain ⟨hdec, hpatch⟩ := h (k, v) List.mem_cons_self
    have hrest := fun e he => h e (List.mem_cons_of_mem (k, v) he)
    unfold patchAll
    split_ifs with hcancel hfault hdel
    · exact Fails.error (hE _ (Interrupted.of_cancelled hcancel))
    · exact Fails.error (hE _ (Interrupted.fault hfault))
    · exact hdec.bind fun _ _ => patchAll_fails hrest hJ
    · refine hdec.bind fun links hlinks => ?_
      obtain ⟨hfail, hkeep⟩ := hpatch links hlinks hdel layers hJ
      exact hfail.bind fun mid hmid => patchAll_fails hrest (hkeep mid hmid)

omit hE hdec in
/-- The merged links of a surviving node are stored. -/
theorem live_mergedLinks (hdisk : DiskOk lmdb) {toDelete links : RoaringBitmap}
    (hown : OwnersLive lmdb toDelete) {id : ItemId} {level : Nat}
    (hlinks : disk lmdb level id = some links) {y : ItemId}
    (hy : y ∈ mergedLinks lmdb toDelete links level) : Live lmdb y := by
  obtain ⟨hkept, hsource⟩ := mem_mergedLinks.mp hy
  have hstored : ∃ s, disk lmdb level y = some s := by
    rcases hsource with hy | ⟨d, hd, -, s, hs, hy⟩
    · exact hdisk.closed hlinks hy
    · exact hdisk.closed hs hy
  obtain ⟨s, hs⟩ := hstored
  exact hown hs hkept

omit hdec in
/-- On a graph in order the repair reads stored items only. -/
theorem fillGaps_fails (hwt : lmdb.db.WellTyped lmdb.index) (hdisk : DiskOk lmdb) (hM : M ≤ M0)
    {toDelete : RoaringBitmap} (hown : OwnersLive lmdb toDelete) {layers : Layers M0}
    (hok : Linked lmdb layers) :
    Fails E (fillGapsFromDeleted D M options env lmdb toDelete layers) := by
  obtain ⟨-, -, hroom⟩ := resizeLayers_spec lmdb.linksEntries layers hok.length_le
  unfold fillGapsFromDeleted
  split_ifs with hfault
  · exact Fails.error (hE _ (Interrupted.fault hfault))
  refine patchAll_fails hE (J := fun l => Linked lmdb l ∧
    l.length = (resizeLayers lmdb.linksEntries layers).length) (fun ⟨k, v⟩ he =>
      ⟨decodeLinks_fails hwt he, fun links hlinks hdel l hl => ?_⟩) ⟨linked_resize hok, rfl⟩
  obtain ⟨x, level, s, rfl, rfl, hs⟩ := (mem_linksEntries hwt).mp he
  cases hlinks
  refine ⟨patchLinks_fails hM (item_fails (hown hs hdel))
    (fun y hy => item_fails (live_mergedLinks hdisk hown hs hy)) fun c hc => ?_,
    fun l' hl' => ?_⟩
  · obtain ⟨old, hold, hc⟩ := mem_linksAt hc
    exact item_fails (hl.1.target hold hc).1
  · obtain ⟨hok', hgrow, -⟩ := linked_patchLinks hdisk hown hl.1
      ((hroom _ links he).trans_eq hl.2.symm) hs hdel hl'
    exact ⟨hok', hgrow.1.trans hl.2⟩

end phases

/-! ## The layers of a build -/

section layers

variable {toInsert toDelete : RoaringBitmap} {b b' : HnswBuilder M0} {levels : List (ItemId × Nat)}

/-- There are entry points as soon as an item is scheduled. -/
theorem entryPoints_of_scheduled (hzero : b.entryPoints = [] → b.maxLevel = 0)
    (hprep : prepareLevelsAndEntryPoints D M options env lmdb b (drawnLevels env toInsert)
      (((drawnLevels env toInsert).map Prod.snd).foldl max 0) toDelete = .ok (levels, b'))
    {p : ItemId × Nat} (hp : p ∈ levels) : b'.entryPoints ≠ [] := by
  intro hnil
  obtain ⟨hdrawn, -, -⟩ := prepare_empty (fun _ => level_le_drawn) highest_drawn hzero hprep hnil
  obtain ⟨newEps, -, rfl, hraise⟩ := prepare_ok hprep
  obtain ⟨-, heps, -⟩ := raise_ok hraise
  rw [hdrawn] at hp heps
  -- nothing is drawn, so the surviving entry points are kept
  rw [List.map_nil, List.foldl_nil, if_neg (Nat.not_lt_zero _), hnil] at heps
  have hkept := (mem_scheduleLevels.mp hp).resolve_left List.not_mem_nil
  exact absurd (heps ▸ mem_ascending.mpr (Finset.mem_union_left _ hkept.1)) List.not_mem_nil

/-- The two places where a build of the layers reads items: the inserts, and the repair. -/
theorem buildLayers_fails_of (hE : ∀ f, Interrupted options env f → E f) (hr : Reads E lmdb)
    (hdec : ∀ e ∈ lmdb.linksEntries, Fails E (decodeLinks e.2)) (hM : M ≤ M0)
    (hzero : b.entryPoints = [] → b.maxLevel = 0)
    (hread : ∀ levels b₁, prepareLevelsAndEntryPoints D M options env lmdb b
        (drawnLevels env toInsert) (((drawnLevels env toInsert).map Prod.snd).foldl max 0)
        toDelete = .ok (levels, b₁) →
      (∀ p ∈ levels, Fails E (lmdb.item p.1)) ∧ (∀ x ∈ b₁.entryPoints, Fails E (lmdb.item x)) ∧
      ∀ layers, insertGroups D M options env lmdb b₁ 0 0 (levelGroups levels) b₁.layers =
        .ok layers → Fails E (fillGapsFromDeleted D M options env lmdb toDelete layers)) :
    Fails E (buildLayers D M options env lmdb b toInsert toDelete) := by
  unfold buildLayers
  refine (prepare_fails hE hdec).bind fun ⟨levels, b₁⟩ hprep => ?_
  obtain ⟨hlevels, heps, hfill⟩ := hread levels b₁ hprep
  refine (insertGroups_fails hE hr hM heps fun grp hgrp p hp => ?_).bind fun layers hins =>
    (hfill layers hins).bind fun _ _ => Fails.ok _
  have hflat : p ∈ levels := by
    have hflat := List.mem_flatten.mpr ⟨grp, hgrp, hp⟩
    rwa [levelGroups, List.flatten_splitBy] at hflat
  exact ⟨hlevels p hflat, entryPoints_of_scheduled hzero hprep hflat⟩

/-- **On a graph in order, a build of the layers fails only when it is interrupted.** -/
theorem buildLayers_fails (hM : M ≤ M0) (hin : BuildInput lmdb toInsert toDelete b)
    (hzero : b.entryPoints = [] → b.maxLevel = 0) :
    Fails (Interrupted options env) (buildLayers D M options env lmdb b toInsert toDelete) := by
  have hwt := hin.wellTyped
  have hpin := prepareInput_of_buildInput env hin
  refine buildLayers_fails_of (fun _ => id) (reads_of_wellTyped hwt)
    (fun ⟨_, _⟩ he => decodeLinks_fails hwt he) hM hzero fun levels b₁ hprep =>
      ⟨fun p hp => item_fails ?_, fun x hx => item_fails ?_, fun layers hins => ?_⟩
  · obtain ⟨newEps, hrep, rfl, -⟩ := prepare_ok hprep
    rcases mem_scheduleLevels.mp hp with hp | ⟨hx, -⟩
    · exact (hpin.drawn p hp).1
    · exact live_of_replaces hpin (replaceDeleted_spec _ _ hrep).1 p.1 hx
  · exact ((prepare_spec hin.disk hpin hprep).entryPoints x hx).1
  · exact fillGaps_fails (fun _ => id) hwt hin.disk hM hin.owners
      (layersOk_inserted hin hprep hins).1.toLinked

/-- **On any entries of the right kinds it may fail, but does not panic.** -/
theorem buildLayers_errs (hM : M ≤ M0) (hwt : lmdb.db.WellTyped lmdb.index)
    (hzero : b.entryPoints = [] → b.maxLevel = 0) :
    Fails Errs (buildLayers D M options env lmdb b toInsert toDelete) := by
  refine buildLayers_fails_of (fun _ => Interrupted.errs) reads_errs
    (fun ⟨_, _⟩ he => decodeLinks_fails hwt he) hM hzero fun levels b₁ _ =>
      ⟨fun _ _ => item_errs, fun _ _ => item_errs, fun layers _ => ?_⟩
  unfold fillGapsFromDeleted
  split_ifs with hfault
  · exact Fails.error ⟨_, rfl⟩
  refine patchAll_fails (fun _ => Interrupted.errs) (J := fun _ => True) (fun ⟨_, _⟩ he =>
    ⟨decodeLinks_fails hwt he, fun _ _ _ _ _ => ⟨?_, fun _ _ => trivial⟩⟩) trivial
  exact patchLinks_fails hM item_errs (fun _ _ => item_errs) fun _ _ => item_errs

end layers

end Hannoy.Graph
