import Hannoy.Graph.Layers
import Hannoy.Library.Txn

/-!
# Inserts follow the protocol

Every function of `insert` is a safe client: it asks for entries of present nodes only, lists
present nodes as neighbours, and leaves the inserted item with an entry at each of its layers.
The proofs follow the functions of the client one by one and `safe_insert` puts them together.

* `walkLayer_ends`: a walk ends, whatever the other inserts do meanwhile.
* `insertGroups_spec`: the insert phase of a build, for any interleaving of each level group.
-/

namespace Hannoy.Graph

open Hannoy.Library Hannoy.Library.Server Hannoy.HnswBuilder

variable {D : Distance} {M M0 : Nat} {alpha : F32} {lmdb : FrozenReader}

/-- Every point is present at the layer. -/
def AllPresent (lmdb : FrozenReader) (level : Nat) (xs : List ItemId) (layers : Layers M0) : Prop :=
  ∀ x ∈ xs, Present lmdb layers level x

theorem AllPresent.grows {level : Nat} {xs : List ItemId} {layers layers' : Layers M0}
    (h : AllPresent lmdb level xs layers) (hg : Grows layers layers') :
    AllPresent lmdb level xs layers' :=
  fun x hx => hg.present (h x hx)

theorem AllPresent.down {level k : Nat} {xs : List ItemId} {layers : Layers M0}
    (h : AllPresent lmdb level xs layers) (hok : LayersOk lmdb layers) (hl : level < 256)
    (hk : k ≤ level) : AllPresent lmdb k xs layers :=
  fun x hx => hok.down hl (h x hx) hk

/-! ## Walking a layer -/

theorem mem_storedNeighbours {item : ItemId} {level : Nat} {y : ItemId} :
    y ∈ storedNeighbours lmdb item level ↔
      ∃ links, disk lmdb level item = some links ∧ y ∈ links := by
  unfold storedNeighbours
  cases hlinks : lmdb.links item level with
  | error e =>
    refine iff_of_false List.not_mem_nil ?_
    rintro ⟨links, hdisk, -⟩
    rw [links_ok_iff.mpr hdisk] at hlinks
    cases hlinks
  | ok links => simp [links_ok_iff.mp hlinks]

/-- The neighbours of a present node that are stored are present. -/
theorem safe_getNeighbours (hdisk : DiskOk lmdb) {item : ItemId} {level : Nat}
    {layers : Layers M0} (hitem : Present lmdb layers level item) :
    Safe (protocol D M M0 alpha lmdb)
      (fun ys s => ∀ y ∈ ys, Live lmdb y → Present lmdb s level y)
      (getNeighbours M0 lmdb item level) layers := by
  have hstored : ∀ y ∈ storedNeighbours lmdb item level, ∃ s', disk lmdb level y = some s' := by
    intro y hy
    obtain ⟨links, hlinks, hy⟩ := mem_storedNeighbours.mp hy
    exact hdisk.closed hlinks hy
  intro s hs hinv
  refine ⟨trivial, ?_⟩
  rw [exec_get]
  have hitem' := hs.present hitem
  split_ifs with hlt
  · cases hget : s.get? level item with
    | some node =>
      intro t ht _ y hy hlive
      rcases List.mem_append.mp hy with hy | hy
      · exact ⟨hlive, Or.inr (hstored y hy)⟩
      · exact ht.present (hinv.target hget hy)
    | none =>
      intro t ht htinv
      refine ⟨⟨Grows.present ht hitem', rfl⟩, fun u _ _ y hy hlive => ?_⟩
      exact ⟨hlive, Or.inr (hstored y hy)⟩
  · exact fun t _ _ y hy hlive => ⟨hlive, Or.inr (hstored y hy)⟩

/-- Everything in the heaps of a walk is present at its layer. -/
structure WalkOk (lmdb : FrozenReader) (level : Nat) (layers : Layers M0) (st : Walk) : Prop where
  queue : ∀ c ∈ st.queue, Present lmdb layers level (OrderDual.ofDual c.id)
  res : ∀ a ∈ st.res, Present lmdb layers level a.id

theorem WalkOk.grows {level : Nat} {layers layers' : Layers M0} {st : Walk}
    (h : WalkOk lmdb level layers st) (hg : Grows layers layers') :
    WalkOk lmdb level layers' st :=
  ⟨fun c hc => hg.present (h.queue c hc), fun a ha => hg.present (h.res a ha)⟩

/-- An entry point is read and registered. -/
theorem walkSeed_seeds {query : Item} {ef : Nat} {st st' : Walk} {ep : ItemId}
    (h : walkSeed D lmdb query ef st ep = .ok st') : ∃ ve, lmdb.item ep = .ok ve ∧
      st' = st.seed (walkParams ef) ⟨D.distance query ve, ep⟩ := by
  obtain ⟨ve, hit, h⟩ := Txn.ok_bind_iff.mp h
  cases h
  exact ⟨ve, hit, rfl⟩

/-- A neighbour was seen before, is accepted, or is gone. -/
theorem walkPoint_cases {query : Item} {ef : Nat} {fmax : F32} {st st' : Walk} {point : ItemId}
    (h : walkPoint D lmdb query ef fmax st point = .ok st') :
    (point ∈ st.seen ∧ st' = st) ∨
    (point ∉ st.seen ∧ ∃ item, lmdb.item point = .ok item ∧
      st' = (st.see point).accept (walkParams ef) fmax ⟨D.distance query item, point⟩) ∨
    (¬ Live lmdb point ∧ st' = st.see point) := by
  unfold walkPoint at h
  split_ifs at h with hseen
  · cases h
    exact Or.inl ⟨hseen, rfl⟩
  · cases hit : lmdb.item point with
    | ok item =>
      rw [hit] at h
      cases h
      exact Or.inr (Or.inl ⟨hseen, item, rfl, rfl⟩)
    | error e =>
      have hdead : ¬ Live lmdb point := fun hlive => by
        obtain ⟨item, hstored⟩ := Option.isSome_iff_exists.mp hlive
        rw [item_ok_iff.mpr hstored] at hit
        cases hit
      rw [hit] at h
      cases e with
      | panic _ => cases h
      | err e =>
        cases e with
        | missingKey => cases h; exact Or.inr (Or.inr ⟨hdead, rfl⟩)
        | _ => cases h

theorem walkSeed_ok {query : Item} {ef level : Nat} {layers : Layers M0} {st st' : Walk}
    {ep : ItemId} (hep : Present lmdb layers level ep) (h : WalkOk lmdb level layers st)
    (hseed : walkSeed D lmdb query ef st ep = .ok st') : WalkOk lmdb level layers st' := by
  obtain ⟨ve, -, rfl⟩ := walkSeed_seeds hseed
  refine ⟨fun c hc => ?_, fun a ha => ?_⟩
  · rw [Beam.queue_seed] at hc
    rcases Beam.mem_queue_enqueue.mp hc with rfl | hc
    · exact hep
    · exact h.queue c hc
  · rw [Beam.res_seed] at ha
    split_ifs at ha
    · rcases mem_push.mp ha with rfl | ha
      · exact hep
      · exact h.res a ha
    · exact h.res a ha

theorem walkPoint_ok {query : Item} {ef level : Nat} {fmax : F32} {layers : Layers M0}
    {st st' : Walk} {point : ItemId} (hpoint : Live lmdb point → Present lmdb layers level point)
    (h : WalkOk lmdb level layers st)
    (hw : walkPoint D lmdb query ef fmax st point = .ok st') : WalkOk lmdb level layers st' := by
  rcases walkPoint_cases hw with ⟨-, rfl⟩ | ⟨-, item, hit, rfl⟩ | ⟨-, rfl⟩
  · exact h
  · have hp := hpoint (live_of_item hit)
    refine ⟨fun c hc => ?_, fun a ha => ?_⟩
    · rcases Beam.mem_queue_accept hc with rfl | hc
      · exact hp
      · exact h.queue c hc
    · rcases Beam.mem_res_accept ha with ⟨rfl, -⟩ | ha
      · exact hp
      · exact h.res a ha
  · exact ⟨h.queue, h.res⟩

theorem safe_walkLoop (hdisk : DiskOk lmdb) {query : Item} {level ef : Nat} :
    ∀ (fuel : Nat) {st : Walk} {layers : Layers M0}, LayersOk lmdb layers →
      WalkOk lmdb level layers st →
      Safe (protocol D M M0 alpha lmdb)
        (fun out s => AllPresent lmdb level (out.map Scored.id) s)
        (walkLoop D M0 lmdb query level ef fuel st) layers
  | 0, _, _, _, _ => trivial
  | fuel + 1, st, layers, hinv, h => by
    have hdone : ∀ s, Grows layers s → AllPresent lmdb level (st.res.map Scored.id) s := by
      intro s hs x hx
      obtain ⟨a, ha, rfl⟩ := List.mem_map.mp hx
      exact hs.present (h.res a ha)
    unfold walkLoop
    cases hq : st.queue with
    | nil => exact fun s hs _ => hdone s hs
    | cons c rest =>
      simp only
      cases htop : st.res.getLast? with
      | none => trivial
      | some top =>
        simp only
        split_ifs with hfar
        · exact fun s hs _ => hdone s hs
        · have hc : Present lmdb layers level (OrderDual.ofDual c.id) :=
            h.queue c (by rw [hq]; exact List.mem_cons_self)
          have hrest : WalkOk lmdb level layers { st with queue := rest } :=
            ⟨fun d hd => h.queue d (by rw [hq]; exact List.mem_cons_of_mem _ hd), h.res⟩
          -- the neighbours are read first; the heaps are updated in the state reached then
          refine Safe.bind hinv ((safe_getNeighbours hdisk hc).moved.mono
            fun proximity s hsinv hs => ?_)
          obtain ⟨hs, hprox⟩ := hs
          refine Safe.bind hsinv (safe_ofExcept fun st' hst' t ht htinv => ?_)
          refine safe_walkLoop hdisk fuel htinv ?_
          exact (Txn.foldlM_invariant
            (fun y hy b b' hb hb' => walkPoint_ok (hprox y hy) hb hb') (hrest.grows hs) hst').grows
            ht

theorem safe_walkLayer (hdisk : DiskOk lmdb) {query : Item} {level ef : Nat} {eps : List ItemId}
    {layers : Layers M0} (hinv : LayersOk lmdb layers) (heps : AllPresent lmdb level eps layers) :
    Safe (protocol D M M0 alpha lmdb)
      (fun out s => AllPresent lmdb level (out.map Scored.id) s)
      (walkLayer D M0 lmdb query eps level ef) layers := by
  refine Safe.bind hinv (safe_ofExcept fun st hst s hs hsinv => ?_)
  refine safe_walkLoop hdisk _ hsinv ?_
  refine Txn.foldlM_invariant (J := WalkOk lmdb level s)
    (fun ep hep b b' hb hb' => walkSeed_ok (heps.grows hs ep hep) hb hb') ⟨?_, ?_⟩ hst
  · exact fun c hc => absurd hc List.not_mem_nil
  · exact fun a ha => absurd ha List.not_mem_nil

/-! ## The walk ends -/

/-- The stored ids. -/
def storedIds (lmdb : FrozenReader) : Finset ItemId :=
  ((lmdb.db.prefixIter (Prefix.item lmdb.index)).map fun e => e.1.node.item).toFinset

variable (lmdb) in
theorem card_storedIds_le : (storedIds lmdb).card ≤ lmdb.numItems :=
  (List.toFinset_card_le _).trans (by rw [List.length_map, FrozenReader.numItems])

theorem mem_storedIds_of_key {x : ItemId} {v : Value}
    (h : lmdb.db[Key.item lmdb.index x]? = some v) : x ∈ storedIds lmdb := by
  refine List.mem_toFinset.mpr (List.mem_map.mpr ⟨_, Database.mem_prefixIter.mpr ⟨h, rfl, ?_⟩, rfl⟩)
  intro m hm
  cases hm
  rfl

theorem mem_storedIds {x : ItemId} (h : Live lmdb x) : x ∈ storedIds lmdb := by
  obtain ⟨it, hit⟩ := Option.isSome_iff_exists.mp h
  unfold Database.item? at hit
  split at hit
  · rename_i hk
    exact mem_storedIds_of_key hk
  · cases hit

/-- Looking at a point does not lengthen a walk. -/
theorem measure_walkPoint {query : Item} {ef : Nat} {fmax : F32} {st st' : Walk} {point : ItemId}
    (h : walkPoint D lmdb query ef fmax st point = .ok st') :
    Beam.measure (storedIds lmdb) st' ≤ Beam.measure (storedIds lmdb) st := by
  have hsee : Beam.measure (storedIds lmdb) (st.see point) ≤ Beam.measure (storedIds lmdb) st :=
    Nat.add_le_add_left (Finset.card_le_card
      (Finset.sdiff_subset_sdiff subset_rfl (Finset.subset_insert _ _))) _
  rcases walkPoint_cases h with ⟨-, rfl⟩ | ⟨hseen, item, hit, rfl⟩ | ⟨-, rfl⟩
  · exact le_rfl
  · have hoffer : Beam.measure (storedIds lmdb) (st.offer (walkParams ef)
        (fun _ => D.distance query item) fmax point) ≤ Beam.measure (storedIds lmdb) st :=
      Beam.measure_offer fmax st (mem_storedIds (live_of_item hit))
    rwa [Beam.State.offer, if_neg hseen] at hoffer
  · exact hsee

/-- Reading an item does not panic. -/
theorem item_ne_panic {x : ItemId} {p : Panic} : lmdb.item x ≠ .error (.panic p) := by
  unfold FrozenReader.item Database.getNode
  cases lmdb.db[Key.item lmdb.index x]? with
  | none => simp [bind, Except.bind, throw, throwThe, MonadExceptOf.throw]
  | some v =>
    cases v with
    | node n => cases n <;> simp [bind, Except.bind, pure, Except.pure, throw, throwThe,
        MonadExceptOf.throw]
    | _ => simp [bind, Except.bind]

theorem walkPoint_ne_panic {query : Item} {ef : Nat} {fmax : F32} {st : Walk} {point : ItemId}
    {p : Panic} : walkPoint D lmdb query ef fmax st point ≠ .error (.panic p) := by
  unfold walkPoint
  split_ifs
  · exact fun h => by cases h
  · cases hit : lmdb.item point with
    | ok item => exact fun h => by cases h
    | error e =>
      cases e with
      | panic p' => exact absurd hit item_ne_panic
      | err e => cases e <;> exact fun h => by cases h

theorem getNeighbours_avoids {item : ItemId} {level : Nat} {e : Failure} :
    (getNeighbours M0 lmdb item level).Avoids e := by
  intro reply
  cases reply with
  | entry state =>
    cases state with
    | some node => trivial
    | none => exact fun _ => trivial
  | _ => trivial

/-- **A walk ends within its fuel**, whatever the other inserts do meanwhile. -/
theorem walkLoop_ends {query : Item} {level ef : Nat} : ∀ {fuel : Nat} {st : Walk},
    Beam.measure (storedIds lmdb) st < fuel →
      (walkLoop D M0 lmdb query level ef fuel st).Avoids (.panic .outOfFuel)
  | 0, _, h => absurd h (Nat.not_lt_zero _)
  | fuel + 1, st, h => by
    unfold walkLoop
    cases hq : st.queue with
    | nil => trivial
    | cons c rest =>
      simp only
      cases st.res.getLast? with
      | none => exact fun h => by cases h
      | some top =>
        simp only
        split_ifs
        · trivial
        · refine getNeighbours_avoids.bind fun proximity => ?_
          refine avoids_ofExcept_bind (Txn.foldlM_ne_error fun b y => walkPoint_ne_panic)
            fun st' hst' => walkLoop_ends ?_
          have hrest : Beam.measure (storedIds lmdb) { st with queue := rest } <
              Beam.measure (storedIds lmdb) st := by
            simp only [Beam.measure, hq, List.length_cons]
            omega
          have hst' := Txn.foldlM_invariant (J := fun s : Walk =>
            Beam.measure (storedIds lmdb) s ≤ Beam.measure (storedIds lmdb)
              { st with queue := rest })
            (fun y _ b b' hb hb' => (measure_walkPoint hb').trans hb) le_rfl hst'
          omega

theorem length_queue_walkSeed {query : Item} {ef : Nat} : ∀ {eps : List ItemId} {st st' : Walk},
    eps.foldlM (walkSeed D lmdb query ef) st = .ok st' →
      st'.queue.length = st.queue.length + eps.length
  | [], _, _, h => by cases h; rfl
  | ep :: eps, st, st', h => by
    rw [List.foldlM_cons, Txn.ok_bind_iff] at h
    obtain ⟨mid, hseed, h⟩ := h
    obtain ⟨ve, -, rfl⟩ := walkSeed_seeds hseed
    rw [length_queue_walkSeed h, Beam.queue_seed, Beam.State.enqueue, length_push,
      List.length_cons]
    omega

theorem walkLayer_ends {query : Item} {eps : List ItemId} {level ef : Nat} :
    (walkLayer D M0 lmdb query eps level ef).Avoids (.panic .outOfFuel) := by
  refine avoids_ofExcept_bind (Txn.foldlM_ne_error fun b ep => ?_) fun st hst => walkLoop_ends ?_
  · exact Txn.bind_ne_error item_ne_panic fun ve _ h => by cases h
  · have hlen := length_queue_walkSeed hst
    have hcard := Finset.card_le_card (Finset.sdiff_subset (s := storedIds lmdb) (t := st.seen))
    have hle := card_storedIds_le lmdb
    simp only [List.length_nil, Nat.zero_add] at hlen
    rw [Beam.measure, hlen]
    omega

/-! ## Adding entries and links -/

variable (D M alpha lmdb) in
/-- `get_or_insert` leaves an entry behind. -/
theorem inMemory_getOrInsert {layers : Layers M0} {level : Nat} (hl : level < layers.length)
    (x : ItemId) (st : NodeState M0) :
    (exec D M alpha lmdb (.getOrInsert level x st) layers).1 = .done ∧
      InMemory (exec D M alpha lmdb (.getOrInsert level x st) layers).2 level x := by
  have hmap : layers[level]? = some layers[level] := List.getElem?_eq_getElem hl
  unfold exec
  simp only [Request.level, hmap]
  cases hx : layers[level][x]? with
  | some node =>
    refine ⟨rfl, node, ?_⟩
    simp only [Layers.get?, hmap, hx]
  | none => exact ⟨rfl, (inMemory_insert hl x st).mpr (Or.inl ⟨rfl, rfl⟩)⟩

/-- The layers of a list `a, a + 1, …` get an entry each, the ones below `a` having one. -/
theorem safe_addInLayers {item : ItemId} (hlive : Live lmdb item) :
    ∀ (n a : Nat) (layers : Layers M0), a + n ≤ layers.length →
      (∀ k < a, InMemory layers k item) →
      Safe (protocol D M M0 alpha lmdb) (fun _ s => ∀ k < a + n, InMemory s k item)
        (addInLayers M0 item (List.range' a n)) layers
  | 0, a, layers, _, h => fun s hs _ k hk => hs.2 k item (h k hk)
  | n + 1, a, layers, hlen, h => by
    intro s hs hinv
    have hslen : a < s.length := by rw [hs.1]; omega
    obtain ⟨hreply, hmem⟩ := inMemory_getOrInsert D M alpha lmdb hslen item NodeState.empty
    have hguar : Allowed lmdb (.getOrInsert a item NodeState.empty) s :=
      ⟨hlive, fun k hk => ⟨hlive, Or.inl (hs.2 k item (h k hk))⟩, rfl⟩
    obtain ⟨-, hgrow⟩ := layersOk_exec D M alpha hinv hguar
    refine ⟨hguar, ?_⟩
    rw [hreply]
    have hrec := safe_addInLayers hlive n (a + 1)
      (exec D M alpha lmdb (.getOrInsert a item NodeState.empty) s).2
      (by rw [length_exec, hs.1]; omega) fun k hk => by
        rcases Nat.lt_succ_iff_lt_or_eq.mp hk with hk | rfl
        · exact hgrow.2 k item (hs.2 k item (h k hk))
        · exact hmem
    exact hrec.mono fun _ t _ ht k hk => ht k (by omega)

theorem safe_addInLayersBelow {item : ItemId} (hlive : Live lmdb item) {level : Nat}
    {layers : Layers M0} (hl : level < layers.length) :
    Safe (protocol D M M0 alpha lmdb) (fun _ s => ∀ k ≤ level, InMemory s k item)
      (addInLayersBelow M0 item level) layers := by
  unfold addInLayersBelow
  rw [List.range_eq_range']
  refine (safe_addInLayers hlive (level + 1) 0 layers (by omega) fun k hk => ?_).mono
    fun _ s _ hs k hk => hs k (by omega)
  exact absurd hk (Nat.not_lt_zero k)

theorem safe_addLink {p : ItemId} {q : ScoredLink} {level : Nat} {layers : Layers M0}
    (hp : Present lmdb layers level p) (hq : Present lmdb layers level q.id) :
    Safe (protocol D M M0 alpha lmdb) (fun _ _ => True) (addLink M0 p q level) layers := by
  unfold addLink
  split_ifs with heq
  · exact fun _ _ _ => trivial
  · intro s hs hinv
    refine ⟨⟨hs.present hp, hs.present hq, fun h => heq h.symm⟩, ?_⟩
    cases (exec D M alpha lmdb (.updateOrInsertWith level p q) s).1 with
    | failed e => trivial
    | _ => exact fun _ _ _ => trivial

theorem safe_linkBoth {query : ItemId} {level : Nat} {eps : List ItemId} {s : ScoredLink}
    {layers : Layers M0} (hinv : LayersOk lmdb layers)
    (hquery : Present lmdb layers level query) (hs : Present lmdb layers level s.id)
    (heps : AllPresent lmdb level eps layers) :
    Safe (protocol D M M0 alpha lmdb) (fun out t => AllPresent lmdb level out t)
      (linkBoth M0 query level eps s) layers := by
  refine Safe.bind hinv ((safe_addLink hquery hs).moved.mono fun _ t htinv ht => ?_)
  refine Safe.bind htinv ((safe_addLink (q := ⟨s.dist, query⟩) (ht.1.present hs)
    (ht.1.present hquery)).moved.mono fun _ u _ hu => ?_)
  intro v hv _ x hx
  rcases List.mem_append.mp hx with hx | hx
  · exact hv.present (hu.1.present (ht.1.present (heps x hx)))
  · rw [List.mem_singleton.mp hx]
    exact hv.present (hu.1.present (ht.1.present hs))

/-! ## The two searches -/

theorem safe_greedyLayer (hdisk : DiskOk lmdb) {q : Item} {eps : List ItemId} {level : Nat}
    {layers : Layers M0} (hinv : LayersOk lmdb layers) (heps : AllPresent lmdb level eps layers) :
    Safe (protocol D M M0 alpha lmdb) (fun out s => AllPresent lmdb level out s)
      (greedyLayer D M0 lmdb q eps level) layers := by
  refine Safe.bind hinv ((safe_walkLayer hdisk hinv heps).mono fun out s _ hout => ?_)
  cases hhead : out.head? with
  | none => trivial
  | some closest =>
    intro t ht _ x hx
    rw [List.mem_singleton.mp hx]
    exact ht.present (hout _ (List.mem_map_of_mem (List.mem_of_head? hhead)))

/-- The greedy descent from layer `a + n` to layer `a + 1` hands points of layer `a + 1` down. -/
theorem safe_greedy (hdisk : DiskOk lmdb) {q : Item} {a : Nat} :
    ∀ (n : Nat) {eps : List ItemId} {layers : Layers M0}, a + n < 256 → LayersOk lmdb layers →
      AllPresent lmdb (a + n) eps layers →
      Safe (protocol D M M0 alpha lmdb) (fun out s => AllPresent lmdb a out s)
        ((List.range' (a + 1) n).reverse.foldlM (greedyLayer D M0 lmdb q) eps) layers
  | 0, _, _, _, _, heps => fun _ hs _ => heps.grows hs
  | n + 1, eps, layers, hlt, hinv, heps => by
    rw [List.range'_concat, List.reverse_append, List.reverse_singleton, List.singleton_append,
      List.foldlM_cons]
    have htop : a + 1 + 1 * n = a + (n + 1) := by omega
    rw [htop]
    refine Safe.bind hinv ((safe_greedyLayer hdisk hinv heps).mono fun out s hsinv hout => ?_)
    exact safe_greedy hdisk n (by omega) hsinv (hout.down hsinv hlt (by omega))

theorem safe_beamLayer (hdisk : DiskOk lmdb) {efConstruction : Nat} {query : ItemId} {q : Item}
    {top level : Nat} {eps : List ItemId} {layers : Layers M0} (hinv : LayersOk lmdb layers)
    (hquery : Present lmdb layers level query) (heps : AllPresent lmdb level eps layers) :
    Safe (protocol D M M0 alpha lmdb) (fun out s => AllPresent lmdb level out s)
      (beamLayer D M M0 alpha lmdb efConstruction query q top eps level) layers := by
  refine Safe.bind hinv ((safe_walkLayer hdisk hinv heps).moved.mono
    fun neighbours s hsinv hs => ?_)
  refine Safe.bind hsinv (safe_ofExcept fun selected hsel t ht htinv => ?_)
  have hselected : ∀ a ∈ selected, Present lmdb t level a.id := fun a ha =>
    ht.present (hs.2 _ (List.mem_map_of_mem (mem_of_robustPrune hsel a ha)))
  have hquery' : Present lmdb t level query := Grows.present ht (Grows.present hs.1 hquery)
  -- the loop keeps the query and the selected points present, which `Grows` gives anyway
  refine (safe_foldlM (J := fun out u => Grows t u ∧ AllPresent lmdb level out u)
    (fun _ u v hu hv _ => ⟨(protocol D M M0 alpha lmdb).trans hu.1 hv, hu.2.grows hv⟩)
    (fun a ha out u huinv hu => ?_) htinv ⟨(protocol D M M0 alpha lmdb).refl t, ?_⟩).mono
    fun _ _ _ h => h.2
  · exact (safe_linkBoth huinv (hu.1.present hquery') (hu.1.present (hselected a ha))
      hu.2).moved.mono fun _ v _ hv => ⟨(protocol D M M0 alpha lmdb).trans hu.1 hv.1, hv.2⟩
  · exact fun x hx => absurd hx List.not_mem_nil

/-- The beam search from layer `n` down to layer 0. -/
theorem safe_beam (hdisk : DiskOk lmdb) {efConstruction : Nat} {query : ItemId} {q : Item}
    {top : Nat} :
    ∀ (n : Nat) {eps : List ItemId} {layers : Layers M0}, n < 256 → LayersOk lmdb layers →
      (∀ k ≤ n, Present lmdb layers k query) → AllPresent lmdb n eps layers →
      Safe (protocol D M M0 alpha lmdb) (fun _ _ => True)
        ((List.range (n + 1)).reverse.foldlM
          (beamLayer D M M0 alpha lmdb efConstruction query q top) eps) layers
  | 0, eps, layers, _, hinv, hquery, heps => by
    rw [show (List.range (0 + 1)).reverse = [0] from rfl, List.foldlM_cons]
    refine Safe.bind hinv ((safe_beamLayer hdisk hinv (hquery 0 le_rfl) heps).mono
      fun out s _ _ => ?_)
    exact fun _ _ _ => trivial
  | n + 1, eps, layers, hlt, hinv, hquery, heps => by
    rw [List.range_succ, List.reverse_append, List.reverse_singleton, List.singleton_append,
      List.foldlM_cons]
    refine Safe.bind hinv ((safe_beamLayer hdisk hinv (hquery (n + 1) le_rfl) heps).moved.mono
      fun out s hsinv hs => ?_)
    exact safe_beam hdisk n (by omega) hsinv
      (fun k hk => Grows.present hs.1 (hquery k (by omega)))
      (hs.2.down hsinv hlt (by omega))

/-! ## The insert of an item -/

/-- **An insert is a safe client.** From entry points present on the top layer, it leaves the item
with an entry at each of its layers. -/
theorem safe_insert (hdisk : DiskOk lmdb) {efConstruction maxLevel : Nat}
    {entryPoints : List ItemId} {query : ItemId} {level : Nat} {layers : Layers M0}
    (hinv : LayersOk lmdb layers) (hlen : layers.length = maxLevel + 1)
    (hlevel : level ≤ maxLevel) (heps : AllPresent lmdb maxLevel entryPoints layers) :
    Safe (protocol D M M0 alpha lmdb) (fun _ s => ∀ k ≤ level, InMemory s k query)
      (insert D M M0 alpha lmdb efConstruction maxLevel entryPoints query level) layers := by
  have hmax : maxLevel < 256 := by have := hinv.length_le; omega
  refine Safe.bind hinv (safe_ofExcept fun q hq s hs hsinv => ?_)
  have hlive := live_of_item hq
  have htop : level + (maxLevel - level) = maxLevel := by omega
  refine Safe.bind hsinv ((safe_greedy hdisk (a := level) (maxLevel - level) (by omega) hsinv
    (by rw [htop]; exact heps.grows hs)).moved.mono fun eps t htinv ht => ?_)
  have htlen : level < t.length := by rw [ht.1.1, hs.1, hlen]; omega
  refine Safe.bind htinv ((safe_addInLayersBelow hlive htlen).moved.mono fun _ u huinv hu => ?_)
  have hquery : ∀ k ≤ level, Present lmdb u k query := fun k hk => ⟨hlive, Or.inl (hu.2 k hk)⟩
  refine Safe.bind huinv ((safe_beam hdisk level (by omega) huinv hquery
    (ht.2.grows hu.1)).moved.mono fun _ v _ hv => ?_)
  exact fun w hw _ k hk => hw.2 k query (hv.1.2 k query (hu.2 k hk))

/-! ## The insert phase of a build -/

variable {options : BuildOption} {env : Environment}

theorem safe_insertTask (hdisk : DiskOk lmdb) {b : HnswBuilder M0} {n : Nat} {item : ItemId}
    {level : Nat} {layers : Layers M0} (hinv : LayersOk lmdb layers)
    (hlen : layers.length = b.maxLevel + 1) (hlevel : level ≤ b.maxLevel)
    (heps : AllPresent lmdb b.maxLevel b.entryPoints layers) :
    Safe (protocol D M M0 options.alpha lmdb) (fun _ s => ∀ k ≤ level, InMemory s k item)
      (insertTask D M options env lmdb b n item level) layers := by
  unfold insertTask
  split_ifs
  · trivial
  · trivial
  · exact safe_insert hdisk hinv hlen hlevel heps

/-- **One level group, for any interleaving of its inserts.** -/
theorem insertGroup_spec (hdisk : DiskOk lmdb) {b : HnswBuilder M0} {n g : Nat}
    {grp : List (ItemId × Nat)} {layers layers' : Layers M0} (hinv : LayersOk lmdb layers)
    (hlen : layers.length = b.maxLevel + 1)
    (heps : AllPresent lmdb b.maxLevel b.entryPoints layers)
    (hlevel : ∀ p ∈ grp, p.2 ≤ b.maxLevel)
    (h : insertGroup D M options env lmdb b n g grp layers = .ok layers') :
    LayersOk lmdb layers' ∧ Grows layers layers' ∧
      ∀ p ∈ grp, ∀ k ≤ p.2, InMemory layers' k p.1 := by
  obtain ⟨hinv', hgrow, hpost⟩ := interleave_safe (T := protocol D M M0 options.alpha lmdb)
    (Q := fun i _ s => ∀ p ∈ grp[i]?, ∀ k ≤ p.2, InMemory s k p.1) h hinv (by
      intro i p hi
      rw [List.getElem?_map, List.getElem?_zipIdx] at hi
      cases hgi : grp[i]? with
      | none => rw [hgi] at hi; cases hi
      | some x =>
        rw [hgi] at hi
        cases hi
        refine (safe_insertTask hdisk hinv hlen (hlevel x (List.mem_of_getElem? hgi)) heps).mono
          fun _ s _ hs p hp k hk => ?_
        rw [hgi] at hp
        cases hp
        exact hs k hk)
  refine ⟨hinv', hgrow, fun p hp k hk => ?_⟩
  obtain ⟨i, hi, rfl⟩ := List.mem_iff_getElem.mp hp
  obtain ⟨-, hpost⟩ := hpost i (by simpa using hi)
  exact hpost _ (by rw [List.getElem?_eq_getElem hi]; rfl) k hk

/-- What the requests of every insert keep, the insert phase keeps. -/
theorem insertGroups_invariant {P : Request M0 → Prop} {J : Layers M0 → Prop} {b : HnswBuilder M0}
    (hJ : ∀ r s, P r → J s → J (exec D M options.alpha lmdb r s).2)
    (hP : ∀ n item level, (insertTask D M options env lmdb b n item level).Issues P) :
    ∀ {groups : List (List (ItemId × Nat))} {n g : Nat} {layers layers' : Layers M0}, J layers →
      insertGroups D M options env lmdb b n g groups layers = .ok layers' → J layers'
  | [], _, _, _, _, hlayers, h => by
    cases h
    exact hlayers
  | grp :: groups, n, g, layers, layers', hlayers, h => by
    obtain ⟨mid, hgroup, h⟩ := Txn.ok_bind_iff.mp h
    obtain ⟨tr, values, hrun⟩ := interleave_run hgroup
    refine insertGroups_invariant hJ hP (hrun.invariant hJ (fun p hp => ?_) hlayers) h
    obtain ⟨e, -, rfl⟩ := List.mem_map.mp hp
    exact hP _ _ _

/-- **The insert phase of a build.** -/
theorem insertGroups_spec (hdisk : DiskOk lmdb) {b : HnswBuilder M0} :
    ∀ {groups : List (List (ItemId × Nat))} {n g : Nat} {layers layers' : Layers M0},
      LayersOk lmdb layers → layers.length = b.maxLevel + 1 →
      AllPresent lmdb b.maxLevel b.entryPoints layers →
      (∀ grp ∈ groups, ∀ p ∈ grp, p.2 ≤ b.maxLevel) →
      insertGroups D M options env lmdb b n g groups layers = .ok layers' →
      LayersOk lmdb layers' ∧ Grows layers layers' ∧
        ∀ grp ∈ groups, ∀ p ∈ grp, ∀ k ≤ p.2, InMemory layers' k p.1
  | [], _, _, _, _, hinv, _, _, _, h => by
    cases h
    exact ⟨hinv, ⟨rfl, fun _ _ hx => hx⟩, fun _ hgrp => absurd hgrp List.not_mem_nil⟩
  | grp :: groups, n, g, layers, layers', hinv, hlen, heps, hlevel, h => by
    obtain ⟨mid, hgrp, h⟩ := Txn.ok_bind_iff.mp h
    obtain ⟨hmid, hgrow, hpost⟩ := insertGroup_spec hdisk hinv hlen heps
      (hlevel grp List.mem_cons_self) hgrp
    obtain ⟨hinv', hgrow', hpost'⟩ := insertGroups_spec hdisk hmid (hgrow.1.trans hlen)
      (heps.grows hgrow) (fun grp' hg' => hlevel grp' (List.mem_cons_of_mem _ hg')) h
    refine ⟨hinv', (protocol D M M0 options.alpha lmdb).trans hgrow hgrow', fun grp' hg' => ?_⟩
    rcases List.mem_cons.mp hg' with rfl | hg'
    · exact fun p hp k hk => hgrow'.2 k p.1 (hpost p hp k hk)
    · exact hpost' grp' hg'

end Hannoy.Graph
