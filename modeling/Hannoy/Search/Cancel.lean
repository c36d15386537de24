import Hannoy.Search.Count
import Hannoy.Search.Probes

/-!
# Cancelling a search later (`reader.rs:749-800`, `reader.rs:844-894`)

`return_if_cancelled` returns what the cancelled visit found itself. For the first visit that is
all there is, but a restart leaves out what the passes before it have found.

* `restarts`, `layerRestarts`: the restarts of a search that is not cancelled.
* `restartLoop_later`, `restartLoop_covers`: when no restart breaks off, cancelling later finds at
  least as many, and what was found before is kept.
* `restartLoop_reaches`, `Reaches.at_once`: a search cancelled when a restart begins returns the
  point the restart starts from at most.
* `cancel_law_iff`: cancelling later never returns less exactly when no restart begins with
  results, but for a search for a single one that the restart finds at once.
* `cancelled_restart_forgets`: a search that is cancelled in its first restart.
-/

namespace Hannoy.Search

open Hannoy.Library Hannoy.Library.Beam Hannoy.Library.Txn Hannoy.Index

variable {D : Distance} {query : Item} {r : Reader} {db : Database} {v : Visitor}
  {opt : QueryBuilder} {cancel cancel' : CancelFn} {k : Nat}

/-! ## The restarts of a search that is not cancelled -/

/-- A restart: where it starts, what the passes before it found, and the calls made so far. -/
structure Restart where
  start : ScoredLink
  neighbours : List ScoredLink
  probes : Nat
  deriving DecidableEq

variable (D query r db v) in
/-- The restarts `restartLoop` makes when it is not cancelled. -/
def restarts (width : Nat → Except Failure Nat) (limit : Nat) :
    List ItemId → RoaringBitmap → Nat → List ScoredLink → List Restart
  | [], _, _, _ => []
  | id :: ids, path, probes, neighbours =>
    if id ∈ path then restarts width limit ids path probes neighbours
    else
      ⟨scored D query r db id, neighbours, probes⟩ ::
        match width neighbours.length with
        | .error _ => []
        | .ok ef =>
          match { v with eps := [id], ef }.visit D query r db path (fun _ => false) probes with
          | .error _ => []
          | .ok visited =>
            let neighbours := pushAll visited.completion.intoInner neighbours
            if limit ≤ neighbours.length then []
            else restarts width limit ids visited.path visited.probes neighbours

/-- No restart begins with results in hand, but where a single result is asked for and the restart
starts nearer than all of them. -/
def Unbroken (count : Nat) (keep : ItemId → Bool) (restarts : List Restart) : Prop :=
  ∀ x ∈ restarts, x.neighbours = [] ∨
    (count = 1 ∧ keep x.start.id = true ∧ ∀ s ∈ x.neighbours, x.start < s)

instance {count : Nat} {keep : ItemId → Bool} {restarts : List Restart} :
    Decidable (Unbroken count keep restarts) := inferInstanceAs (Decidable (∀ _ ∈ _, _))

variable {width : Nat → Except Failure Nat} {limit count : Nat} {path : RoaringBitmap}
  {probes : Nat} {neighbours : List ScoredLink} {id : ItemId} {ids : List ItemId}
  {out out' : Completion (List ScoredLink)}

theorem restartLoop_cons_ok (hid : id ∉ path)
    (h : r.restartLoop D db query v width limit cancel (id :: ids) path probes neighbours =
      .ok out) :
    ∃ ef visited, width neighbours.length = .ok ef ∧
      { v with eps := [id], ef }.visit D query r db path cancel probes = .ok visited ∧
      (∀ found, visited.completion = .cancelled found → out = .cancelled found) ∧
      ∀ more, visited.completion = .done more →
        (limit ≤ (pushAll more neighbours).length ∧ out = .done (pushAll more neighbours)) ∨
        (¬ limit ≤ (pushAll more neighbours).length ∧
          r.restartLoop D db query v width limit cancel ids visited.path visited.probes
            (pushAll more neighbours) = .ok out) := by
  unfold Reader.restartLoop at h
  rw [if_neg hid] at h
  obtain ⟨ef, hef, h⟩ := ok_bind_iff.mp h
  obtain ⟨visited, hvisit, h⟩ := ok_bind_iff.mp h
  refine ⟨ef, visited, hef, hvisit, fun found hc => ?_, fun more hc => ?_⟩
  · rw [hc] at h
    cases h
    rfl
  · rw [hc] at h
    simp only at h
    by_cases hlim : limit ≤ (pushAll more neighbours).length
    · rw [if_pos hlim] at h
      cases h
      exact Or.inl ⟨hlim, rfl⟩
    · rw [if_neg hlim] at h
      exact Or.inr ⟨hlim, h⟩

theorem restarts_cons (hid : id ∉ path) {ef : Nat} (hef : width neighbours.length = .ok ef)
    {visited : Visited} {more : List ScoredLink}
    (hvisit : { v with eps := [id], ef }.visit D query r db path (fun _ => false) probes =
      .ok visited) (hmore : visited.completion = .done more) :
    restarts D query r db v width limit (id :: ids) path probes neighbours =
      ⟨scored D query r db id, neighbours, probes⟩ ::
        if limit ≤ (pushAll more neighbours).length then []
        else restarts D query r db v width limit ids visited.path visited.probes
          (pushAll more neighbours) := by
  rw [restarts, if_neg hid, hef]
  simp only [hvisit, hmore, Completion.intoInner]

/-! ## What a run of the restarts covers -/

/-- What the passes before found is still there, or a single nearer result is. -/
def Covers (count : Nat) (neighbours heap : List ScoredLink) : Prop :=
  neighbours.Subperm heap ∨ (count = 1 ∧ ∃ t ∈ heap, ∀ s ∈ neighbours, t < s)

theorem Covers.min_length {heap : List ScoredLink} (h : Covers count neighbours heap) :
    min count neighbours.length ≤ min count heap.length := by
  rcases h with h | ⟨rfl, t, ht, -⟩
  · exact min_le_min le_rfl h.length_le
  · have := List.length_pos_of_mem ht
    omega

/-- **A run of the restarts covers what it begins with** when no restart breaks off. -/
theorem restartLoop_covers (hs : Searchable r db) (hlevel : v.level = 0) :
    ∀ {ids : List ItemId} {path : RoaringBitmap} {probes : Nat} {neighbours : List ScoredLink}
      {out : Completion (List ScoredLink)}, (∀ x ∈ ids, x ∈ r.items) →
      r.restartLoop D db query v width limit cancel ids path probes neighbours = .ok out →
      Unbroken count v.keep (restarts D query r db v width limit ids path probes neighbours) →
      Covers count neighbours out.intoInner
  | [], _, _, _, _, _, h, _ => by
    cases h
    exact Or.inl (List.Subperm.refl _)
  | id :: ids, path, probes, neighbours, out, hids, h, hu => by
    have hids' := fun x hx => hids x (List.mem_cons_of_mem _ hx)
    by_cases hid : id ∈ path
    · rw [restarts, if_pos hid] at hu
      rw [Reader.restartLoop, if_pos hid] at h
      exact restartLoop_covers hs hlevel hids' h hu
    obtain ⟨ef, visited, hef, hvisit, hcut, hdone⟩ := restartLoop_cons_ok hid h
    have heps := hasLinks_singleton hs hlevel (hids id List.mem_cons_self)
    cases hc : visited.completion with
    | cancelled found =>
      obtain rfl := hcut found hc
      -- a cancelled restart returns what it found itself
      have hhead : (⟨scored D query r db id, neighbours, probes⟩ : Restart) ∈
          restarts D query r db v width limit (id :: ids) path probes neighbours := by
        rw [restarts, if_neg hid]
        exact List.mem_cons_self
      rcases hu _ hhead with hnil | ⟨hone, hk, hnear⟩
      · rw [show neighbours = [] from hnil]
        exact Or.inl (List.nil_subperm)
      · obtain ⟨t, ht, hle⟩ := visit_nearest (v := { v with eps := [id], ef }) hs rfl
          (heps id List.mem_cons_self) hk hvisit
        rw [hc] at ht
        exact Or.inr ⟨hone, t, ht, fun s hs' => hle.trans_lt (hnear s hs')⟩
    | done more =>
      have hsub : neighbours.Subperm (pushAll more neighbours) :=
        ((List.sublist_append_right more neighbours).subperm).trans
          (perm_pushAll more neighbours).symm.subperm
      rcases hdone more hc with ⟨-, rfl⟩ | ⟨hlim, hrec⟩
      · exact Or.inl hsub
      · rw [restarts_cons hid hef (visit_never hs heps hvisit hc) hc, if_neg hlim] at hu
        rcases restartLoop_covers hs hlevel hids' hrec fun x hx =>
            hu x (List.mem_cons_of_mem _ hx) with h' | ⟨hone, t, ht, hnear⟩
        · exact Or.inl (hsub.trans h')
        · exact Or.inr ⟨hone, t, ht, fun s hs' => hnear s (mem_pushAll.mpr (Or.inr hs'))⟩

/-- **Restarts that are cancelled later find at least as many.** -/
theorem restartLoop_later (hs : Searchable r db) (hlevel : v.level = 0)
    (hfirst : FirstTrueAt cancel k) (hbelow : ∀ n < k, cancel' n = false) :
    ∀ {ids : List ItemId} {path : RoaringBitmap} {probes : Nat} {neighbours : List ScoredLink}
      {out out' : Completion (List ScoredLink)}, probes ≤ k → (∀ x ∈ ids, x ∈ r.items) →
      r.restartLoop D db query v width limit cancel ids path probes neighbours = .ok out →
      r.restartLoop D db query v width limit cancel' ids path probes neighbours = .ok out' →
      Unbroken count v.keep (restarts D query r db v width limit ids path probes neighbours) →
      min count out.intoInner.length ≤ min count out'.intoInner.length
  | [], _, _, _, _, _, _, _, h, h', _ => by
    cases h
    cases h'
    exact le_rfl
  | id :: ids, path, probes, neighbours, out, out', hp, hids, h, h', hu => by
    have hids' := fun x hx => hids x (List.mem_cons_of_mem _ hx)
    by_cases hid : id ∈ path
    · rw [restarts, if_pos hid] at hu
      rw [Reader.restartLoop, if_pos hid] at h h'
      exact restartLoop_later hs hlevel hfirst hbelow hp hids' h h' hu
    obtain ⟨ef, visited, hef, hvisit, hcut, hdone⟩ := restartLoop_cons_ok hid h
    obtain ⟨ef', visited', hef', hvisit', hcut', hdone'⟩ := restartLoop_cons_ok hid h'
    rw [hef] at hef'
    cases hef'
    have heps := hasLinks_singleton hs hlevel (hids id List.mem_cons_self)
    rcases visit_compare (v := { v with eps := [id], ef }) hs heps hfirst hbelow hp hvisit hvisit'
      with ⟨rfl, hprobes, l, hl⟩ | ⟨l, hl, hle⟩
    · -- neither is cancelled in this visit
      rw [restarts_cons hid hef (visit_never hs heps hvisit hl) hl] at hu
      rcases hdone l hl with ⟨hlim, rfl⟩ | ⟨hlim, hrec⟩
      · rcases hdone' l hl with ⟨-, rfl⟩ | ⟨hlim', -⟩
        · exact le_rfl
        · exact absurd hlim hlim'
      · rcases hdone' l hl with ⟨hlim', -⟩ | ⟨-, hrec'⟩
        · exact absurd hlim' hlim
        · rw [if_neg hlim] at hu
          exact restartLoop_later hs hlevel hfirst hbelow hprobes hids' hrec hrec' fun x hx =>
            hu x (List.mem_cons_of_mem _ hx)
    · -- the first is, and what it found the second finds in this visit
      obtain rfl := hcut l hl
      refine (min_le_min le_rfl hle).trans ?_
      cases hc' : visited'.completion with
      | cancelled found =>
        rw [hcut' found hc']
      | done more =>
        have hmore : more.length ≤ (pushAll more neighbours).length := by
          rw [length_pushAll]
          exact Nat.le_add_right _ _
        refine (min_le_min le_rfl hmore).trans ?_
        rcases hdone' more hc' with ⟨-, rfl⟩ | ⟨hlim, hrec⟩
        · exact le_rfl
        · rw [restarts_cons hid hef (visit_never hs heps hvisit' hc') hc', if_neg hlim] at hu
          exact (restartLoop_covers hs hlevel hids' hrec fun x hx =>
            hu x (List.mem_cons_of_mem _ hx)).min_length

/-! ## How a run reaches a restart -/

/-- What follows a restart, next to what follows the one before. -/
theorem mem_restarts_cons (hs : Searchable r db) (heps : ∀ ep ∈ [id], HasLinks r db v.level ep)
    (hid : id ∉ path) {x : Restart}
    (hx : x ∈ restarts D query r db v width limit (id :: ids) path probes neighbours) :
    x = ⟨scored D query r db id, neighbours, probes⟩ ∨
      ∃ ef visited more, width neighbours.length = .ok ef ∧
        { v with eps := [id], ef }.visit D query r db path (fun _ => false) probes = .ok visited ∧
        visited.completion = .done more ∧ ¬ limit ≤ (pushAll more neighbours).length ∧
        (∀ s ∈ more, s.id ∈ visited.path) ∧ path ⊆ visited.path ∧ probes ≤ visited.probes ∧
        x ∈ restarts D query r db v width limit ids visited.path visited.probes
          (pushAll more neighbours) := by
  cases hef : width neighbours.length with
  | error e =>
    rw [restarts, if_neg hid, hef] at hx
    exact Or.inl (List.mem_singleton.mp hx)
  | ok ef =>
    obtain ⟨visited, st, hvisit, hends⟩ := visit_ok D query (v := { v with eps := [id], ef }) hs
      heps path (fun _ => false) probes
    have hfinds := hends.finds hs (List.nodup_singleton _) fun ep hep => by
      rwa [List.mem_singleton.mp hep]
    rcases hends.completion with ⟨hc, -⟩ | ⟨-, n, hn⟩
    · rw [restarts_cons hid hef hvisit hc] at hx
      rcases List.mem_cons.mp hx with hx | hx
      · exact Or.inl hx
      · by_cases hlim : limit ≤ (pushAll st.res neighbours).length
        · rw [if_pos hlim] at hx
          exact absurd hx List.not_mem_nil
        · rw [if_neg hlim] at hx
          exact Or.inr ⟨ef, visited, st.res, rfl, hvisit, hc, hlim,
            fun s hs' => (hfinds.new s hs').2, hfinds.grows, visit_probes hs heps hvisit, hx⟩
    · exact absurd hn Bool.false_ne_true

theorem restarts_probes (hs : Searchable r db) (hlevel : v.level = 0) {x : Restart} :
    ∀ {ids : List ItemId} {path : RoaringBitmap} {probes : Nat} {neighbours : List ScoredLink},
      (∀ y ∈ ids, y ∈ r.items) →
      x ∈ restarts D query r db v width limit ids path probes neighbours → probes ≤ x.probes
  | [], _, _, _, _, h => absurd h List.not_mem_nil
  | id :: ids, path, probes, neighbours, hids, h => by
    have hids' := fun x hx => hids x (List.mem_cons_of_mem _ hx)
    by_cases hid : id ∈ path
    · rw [restarts, if_pos hid] at h
      exact restarts_probes hs hlevel hids' h
    have heps := hasLinks_singleton hs hlevel (hids id List.mem_cons_self)
    rcases mem_restarts_cons hs heps hid h with
      rfl | ⟨_, _, _, -, -, -, -, -, -, hle, h⟩
    · exact le_rfl
    · exact hle.trans (restarts_probes hs hlevel hids' h)

/-- A run of the restarts gets to a restart: it goes on from there as one that begins there. -/
structure Reaches (D : Distance) (query : Item) (r : Reader) (db : Database) (v : Visitor)
    (width : Nat → Except Failure Nat) (limit : Nat) (cancel : CancelFn) (x : Restart)
    (all : List Restart) (run : Except Failure (Completion (List ScoredLink)))
    (ids : List ItemId) (path : RoaringBitmap) : Prop where
  start : x.start = scored D query r db x.start.id
  stored : ∀ y ∈ x.start.id :: ids, y ∈ r.items
  new : x.start.id ∉ path
  old : ∀ s ∈ x.neighbours, s.id ∈ path
  rest : ∀ y ∈ restarts D query r db v width limit (x.start.id :: ids) path x.probes x.neighbours,
    y ∈ all
  run : run = r.restartLoop D db query v width limit cancel (x.start.id :: ids) path x.probes
    x.neighbours

theorem restartLoop_reaches (hs : Searchable r db) (hlevel : v.level = 0)
    (hbelow : ∀ n < k, cancel n = false) {x : Restart} (hk : x.probes ≤ k) :
    ∀ {ids : List ItemId} {path : RoaringBitmap} {probes : Nat} {neighbours : List ScoredLink},
      (∀ y ∈ ids, y ∈ r.items) → (∀ s ∈ neighbours, s.id ∈ path) →
      x ∈ restarts D query r db v width limit ids path probes neighbours →
      ∃ ids' path', Reaches D query r db v width limit cancel x
        (restarts D query r db v width limit ids path probes neighbours)
        (r.restartLoop D db query v width limit cancel ids path probes neighbours) ids' path'
  | [], _, _, _, _, _, h => absurd h List.not_mem_nil
  | id :: ids, path, probes, neighbours, hids, hold, h => by
    have hids' := fun x hx => hids x (List.mem_cons_of_mem _ hx)
    by_cases hid : id ∈ path
    · rw [restarts, if_pos hid] at h ⊢
      rw [Reader.restartLoop, if_pos hid]
      exact restartLoop_reaches hs hlevel hbelow hk hids' hold h
    have heps := hasLinks_singleton hs hlevel (hids id List.mem_cons_self)
    rcases mem_restarts_cons hs heps hid h with
      rfl | ⟨ef, visited, more, hef, hvisit, hmore, hlim, hnew, hgrows, -, h⟩
    · exact ⟨ids, path, rfl, hids, hid, hold, fun y hy => hy, rfl⟩
    · -- the visit between is over before the call that cancels
      have hsame := visit_before (v := { v with eps := [id], ef }) hs heps hvisit
        hbelow ((restarts_probes hs hlevel hids' h).trans hk)
      have hold' : ∀ s ∈ pushAll more neighbours, s.id ∈ visited.path := fun s hs' =>
        (mem_pushAll.mp hs').elim (hnew s) fun h => hgrows (hold s h)
      obtain ⟨ids', path', hr⟩ := restartLoop_reaches hs hlevel hbelow hk hids' hold' h
      refine ⟨ids', path', hr.start, hr.stored, hr.new, hr.old, fun y hy => ?_, ?_⟩
      · rw [restarts_cons hid hef hvisit hmore, if_neg hlim]
        exact List.mem_cons_of_mem _ (hr.rest y hy)
      · rw [Reader.restartLoop, if_neg hid, hef]
        simp only [bind, Except.bind, hsame, hmore]
        rw [if_neg hlim]
        exact hr.run

/-- **A search that is cancelled when a restart begins** returns the point the restart starts from
at most, whatever was found before. -/
theorem Reaches.at_once (hs : Searchable r db) (hlevel : v.level = 0) {x : Restart}
    {all : List Restart} {run : Except Failure (Completion (List ScoredLink))}
    (h : Reaches D query r db v width limit cancel x all run ids path) (hc : cancel x.probes = true)
    (hrun : run = .ok out) :
    out = .cancelled (if v.keep x.start.id then [x.start] else []) := by
  rw [h.run] at hrun
  obtain ⟨ef, visited, -, hvisit, hfound, -⟩ := restartLoop_cons_ok h.new hrun
  have heps := hasLinks_singleton hs hlevel (h.stored _ List.mem_cons_self)
  have hcut := visit_at_once (v := { v with eps := [x.start.id], ef }) hs rfl
    (heps _ List.mem_cons_self) hc hvisit
  rw [← h.start] at hcut
  exact hfound _ hcut

/-! ## The law -/

/-- A result found before is returned, or as many nearer ones as were asked for are. -/
def Kept (count : Nat) (nns : List (ItemId × F32)) (s : ScoredLink) : Prop :=
  (s.id, s.dist) ∈ nns ∨ (nns.length = count ∧ ∀ y ∈ nns, (⟨y.2, y.1⟩ : ScoredLink) < s)

/-- Cancelling later never returns less, not cancelling at all neither, and what the passes before
a restart have found is kept from then on. -/
structure CancelLaw (count : Nat) (restarts : List Restart)
    (answer : CancelFn → List (ItemId × F32) → Prop) (full : List (ItemId × F32) → Prop) :
    Prop where
  later : ∀ {i j : Nat} {c c' : CancelFn} {nns nns' : List (ItemId × F32)}, i ≤ j →
    FirstTrueAt c i → FirstTrueAt c' j → answer c nns → answer c' nns' → nns.length ≤ nns'.length
  full : ∀ {i : Nat} {c : CancelFn} {nns nns' : List (ItemId × F32)}, FirstTrueAt c i →
    answer c nns → full nns' → nns.length ≤ nns'.length
  kept : ∀ x ∈ restarts, ∀ {k : Nat} {c : CancelFn} {nns : List (ItemId × F32)}, x.probes ≤ k →
    FirstTrueAt c k → answer c nns → ∀ s ∈ x.neighbours, Kept count nns s

theorem mem_output {heap : List ScoredLink} {s : ScoredLink} :
    (s.id, s.dist) ∈ Reader.output heap ↔ s ∈ heap :=
  List.mem_map_of_injective pair_injective

theorem Covers.kept {heap : List ScoredLink} (h : Covers count neighbours heap)
    (hsorted : heap.Pairwise (· < ·)) {s : ScoredLink} (hs : s ∈ neighbours) :
    Kept count ((Reader.output heap).take count) s := by
  have hmem : ∀ y ∈ (Reader.output heap).take count, (⟨y.2, y.1⟩ : ScoredLink) ∈
      heap.take count := by
    intro y hy
    rw [Reader.output, ← List.map_take] at hy
    obtain ⟨t, ht, rfl⟩ := List.mem_map.mp hy
    exact ht
  rcases h with h | ⟨rfl, t, ht, hnear⟩
  · by_cases htake : s ∈ heap.take count
    · refine Or.inl ?_
      rw [Reader.output, ← List.map_take]
      exact mem_output.mpr htake
    · have hin := h.subset hs
      rw [← List.take_append_drop count heap] at hin hsorted
      have hdrop := (List.mem_append.mp hin).resolve_left htake
      refine Or.inr ⟨?_, fun y hy => (List.pairwise_append.mp hsorted).2.2 _ (hmem y hy) s hdrop⟩
      have := List.length_pos_of_mem hdrop
      rw [List.length_drop] at this
      rw [List.length_take, Reader.output, List.length_map]
      omega
  · cases heap with
    | nil => exact absurd ht List.not_mem_nil
    | cons a heap =>
      refine Or.inr ⟨by simp [Reader.output], fun y hy => ?_⟩
      have hya := hmem y hy
      rw [List.take_succ_cons, List.take_zero, List.mem_singleton] at hya
      rw [hya]
      rcases List.mem_cons.mp ht with rfl | ht
      · exact hnear s hs
      · exact ((List.pairwise_cons.mp hsorted).1 t ht).trans (hnear s hs)

/-! ## The search of layer 0 -/

variable (D query r db v) in
/-- The restarts `searchLayer0` makes when it is not cancelled. -/
def layerRestarts (count : Nat) (width : Nat → Except Failure Nat) (limit : Nat) : List Restart :=
  match v.visit D query r db ∅ (fun _ => false) 0 with
  | .error _ => []
  | .ok visited =>
    let neighbours := visited.completion.intoInner
    if neighbours.length < count then
      restarts D query r db v width limit
        ((db.prefixIter (Prefix.item r.index)).map fun e => e.1.node.item)
        visited.path visited.probes neighbours
    else []

variable (count width limit) in
theorem layerRestarts_eq (hs : Searchable r db) {visited : Visited} {first : List ScoredLink}
    (hvisit : v.visit D query r db ∅ (fun _ => false) 0 = .ok visited)
    (hfirst : visited.completion = .done first) :
    layerRestarts D query r db v count width limit =
      if first.length < count then restarts D query r db v width limit (ascending r.items)
        visited.path visited.probes first
      else [] := by
  rw [layerRestarts, hvisit]
  simp only [hfirst, Completion.intoInner, hs.storedIds]

/-- What the search of layer 0 returns. -/
def LayerAnswer (D : Distance) (query : Item) (r : Reader) (db : Database) (v : Visitor)
    (count : Nat) (width : Nat → Except Failure Nat) (limit : Nat) (cancel : CancelFn)
    (nns : List (ItemId × F32)) : Prop :=
  ∃ found, r.searchLayer0 D db query v count width limit cancel = .ok found ∧
    nns = found.intoInner

theorem length_output_take (heap : List ScoredLink) :
    ((Reader.output heap).take count).length = min count heap.length := by
  rw [List.length_take, Reader.output, List.length_map]

section Layer

variable (hs : Searchable r db) (hl : Landed r db v) (hef : count ≤ v.ef)
  (hwidth : ∀ n < max count limit, width n = .ok (limit - n))

include hs hl hef hwidth

theorem LayerAnswer.later (hfirst : FirstTrueAt cancel k) (hbelow : ∀ n < k, cancel' n = false)
    (hu : Unbroken count v.keep (layerRestarts D query r db v count width limit))
    {nns nns' : List (ItemId × F32)}
    (h : LayerAnswer D query r db v count width limit cancel nns)
    (h' : LayerAnswer D query r db v count width limit cancel' nns') :
    nns.length ≤ nns'.length := by
  have heps : ∀ ep ∈ v.eps, HasLinks r db v.level ep := by
    rw [hl.level]
    exact hl.hasLinks
  have hids : ∀ x ∈ ascending r.items, x ∈ r.items := fun x => mem_ascending.mp
  obtain ⟨visited, st, out, hends, hout, -, hvisit, hfollows⟩ :=
    searchLayer0_follows D query hs hl count width limit hef hwidth cancel
  obtain ⟨visited', st', out', hends', hout', -, hvisit', hfollows'⟩ :=
    searchLayer0_follows D query hs hl count width limit hef hwidth cancel'
  obtain ⟨found, hfound, rfl⟩ := h
  obtain ⟨found', hfound', rfl⟩ := h'
  rw [hout] at hfound
  cases hfound
  rw [hout'] at hfound'
  cases hfound'
  rw [Completion.intoInner_map, Completion.intoInner_map, length_output_take, length_output_take]
  rcases visit_compare hs heps hfirst hbelow (Nat.zero_le k) hvisit hvisit'
    with ⟨rfl, hprobes, l, hdone⟩ | ⟨l, hcut, hle⟩
  · -- neither is cancelled in the first visit
    have hnever := layerRestarts_eq width limit count hs
      (visit_never hs heps hvisit hdone) hdone
    rcases hfollows.of_done hdone with ⟨hlen, rfl⟩ | ⟨hlen, hrec, -⟩
    · rcases hfollows'.of_done hdone with ⟨-, rfl⟩ | ⟨hlen', -⟩
      · exact le_rfl
      · exact absurd hlen' hlen.not_gt
    · rcases hfollows'.of_done hdone with ⟨hlen', -⟩ | ⟨-, hrec', -⟩
      · exact absurd hlen hlen'.not_gt
      · rw [hnever, if_pos hlen] at hu
        exact restartLoop_later hs hl.level hfirst hbelow hprobes hids hrec hrec' hu
  · -- the first is, and what it found the second finds in its first visit
    obtain rfl := hfollows.of_cancelled hcut
    refine (min_le_min le_rfl hle).trans ?_
    cases hc' : visited'.completion with
    | cancelled l' =>
      rw [hfollows'.of_cancelled hc']
    | done l' =>
      rcases hfollows'.of_done hc' with ⟨-, rfl⟩ | ⟨hlen, hrec, -⟩
      · exact le_rfl
      · rw [layerRestarts_eq width limit count hs (visit_never hs heps hvisit' hc') hc',
          if_pos hlen] at hu
        exact (restartLoop_covers hs hl.level hids hrec hu).min_length

/-- A search of layer 0 that is not cancelled before gets to each of its restarts. -/
theorem searchLayer0_reaches (hbelow : ∀ n < k, cancel n = false) {x : Restart}
    (hx : x ∈ layerRestarts D query r db v count width limit) (hk : x.probes ≤ k) :
    ∃ out run ids path,
      r.searchLayer0 D db query v count width limit cancel =
        .ok (out.map fun heap => (Reader.output heap).take count) ∧
      out.intoInner.Pairwise (· < ·) ∧ 0 < count ∧ run = .ok out ∧
      Reaches D query r db v width limit cancel x (layerRestarts D query r db v count width limit)
        run ids path := by
  have heps : ∀ ep ∈ v.eps, HasLinks r db v.level ep := by
    rw [hl.level]
    exact hl.hasLinks
  have hids : ∀ x ∈ ascending r.items, x ∈ r.items := fun x => mem_ascending.mp
  obtain ⟨visited, st, hnever, hends⟩ := visit_ok D query hs heps ∅ (fun _ => false) 0
  have hfinds := hends.finds hs hl.nodup fun ep _ => Finset.notMem_empty ep
  rcases hends.completion with ⟨hdone, -⟩ | ⟨-, n, hn⟩
  · have heq := layerRestarts_eq width limit count hs hnever hdone
    rw [heq] at hx
    by_cases hlt : st.res.length < count
    · rw [if_pos hlt] at hx heq
      have hvisit := visit_before hs heps hnever hbelow
        ((restarts_probes hs hl.level hids hx).trans hk)
      obtain ⟨visited', st', out, -, hout, hlayer, hvisit', hfollows⟩ :=
        searchLayer0_follows D query hs hl count width limit hef hwidth cancel
      rw [hvisit] at hvisit'
      cases hvisit'
      rcases hfollows.of_done hdone with ⟨hlen, -⟩ | ⟨-, hrec, -⟩
      · exact absurd hlt hlen.not_gt
      · obtain ⟨ids, path, hreaches⟩ := restartLoop_reaches (v := v) hs hl.level hbelow hk hids
          (fun s hs' => (hfinds.new s hs').2) hx
        rw [heq]
        exact ⟨out, _, ids, path, hout, hlayer.found.sorted, (Nat.zero_le _).trans_lt hlt, hrec,
          hreaches⟩
    · rw [if_neg hlt] at hx
      exact absurd hx List.not_mem_nil
  · exact absurd hn Bool.false_ne_true

omit hs hl hef hwidth in
/-- A point that was found before and is not returned leaves no way but a single nearer one. -/
theorem Restart.unbroken_of_kept {x : Restart} {keep : ItemId → Bool} (hcount : 0 < count)
    (hnew : x.start ∉ x.neighbours)
    (hkept : ∀ s ∈ x.neighbours, Kept count
      ((Reader.output (if keep x.start.id then [x.start] else [])).take count) s) :
    x.neighbours = [] ∨
      (count = 1 ∧ keep x.start.id = true ∧ ∀ s ∈ x.neighbours, x.start < s) := by
  have hfull : ∀ s ∈ x.neighbours, count = 1 ∧ keep x.start.id = true ∧ x.start < s := by
    intro s hs
    by_cases hk : keep x.start.id = true
    · rw [if_pos hk] at hkept
      rcases hkept s hs with h | ⟨hlen, hnear⟩
      · have := mem_output.mp (List.mem_of_mem_take h)
        rw [List.mem_singleton.mp this] at hs
        exact absurd hs hnew
      · rw [length_output_take, List.length_singleton] at hlen
        have hone : count = 1 := by omega
        subst hone
        exact ⟨rfl, hk, hnear (x.start.id, x.start.dist) List.mem_cons_self⟩
    · rw [if_neg hk] at hkept
      rcases hkept s hs with h | ⟨hlen, -⟩
      · exact absurd (mem_output.mp (List.mem_of_mem_take h)) List.not_mem_nil
      · rw [length_output_take, List.length_nil] at hlen
        omega
  by_cases hnil : x.neighbours = []
  · exact Or.inl hnil
  · obtain ⟨s, hs⟩ := List.exists_mem_of_ne_nil _ hnil
    exact Or.inr ⟨(hfull s hs).1, (hfull s hs).2.1, fun t ht => (hfull t ht).2.2⟩

/-- **The law for the search of layer 0.** -/
theorem cancelLaw_layer :
    CancelLaw count (layerRestarts D query r db v count width limit)
      (LayerAnswer D query r db v count width limit)
      (LayerAnswer D query r db v count width limit fun _ => false) ↔
      Unbroken count v.keep (layerRestarts D query r db v count width limit) := by
  constructor
  · intro law x hx
    -- cancel at the first call of the restart
    have hfirst : FirstTrueAt (fun n => decide (n = x.probes)) x.probes :=
      ⟨decide_eq_true rfl, fun n hn => decide_eq_false hn.ne⟩
    obtain ⟨out, run, ids, path, hout, -, hcount, hrun, hreaches⟩ :=
      searchLayer0_reaches hs hl hef hwidth hfirst.2 hx le_rfl
    have hcut := hreaches.at_once hs hl.level hfirst.1 hrun
    have hkept := law.kept x hx le_rfl hfirst ⟨_, hout, rfl⟩
    rw [Completion.intoInner_map, hcut, Completion.intoInner] at hkept
    exact Restart.unbroken_of_kept hcount (fun h => hreaches.new (hreaches.old _ h)) hkept
  · intro hu
    refine ⟨fun {i j c c' nns nns'} hij hi hj h h' => ?_, fun {i c nns nns'} hi h h' => ?_,
      fun x hx k c nns hk hfirst h s hs' => ?_⟩
    · exact LayerAnswer.later hs hl hef hwidth hi (fun n hn => hj.2 n (hn.trans_le hij)) hu h h'
    · exact LayerAnswer.later hs hl hef hwidth hi (fun _ _ => rfl) hu h h'
    · obtain ⟨out, run, ids, path, hout, hsorted, -, hrun, hreaches⟩ :=
        searchLayer0_reaches hs hl hef hwidth hfirst.2 hx hk
      obtain ⟨found, hfound, rfl⟩ := h
      rw [hout] at hfound
      cases hfound
      rw [Completion.intoInner_map]
      rw [hreaches.run] at hrun
      exact (restartLoop_covers hs hl.level hreaches.stored hrun fun y hy =>
        hu y (hreaches.rest y hy)).kept hsorted hs'

end Layer

/-! ## The other paths -/

/-- A search without restarts satisfies the law when each answer is at least as long as those
cancelled before. -/
theorem CancelLaw.of_later (answer : CancelFn → List (ItemId × F32) → Prop)
    (h : ∀ {k : Nat} {c c' : CancelFn} {nns nns' : List (ItemId × F32)}, FirstTrueAt c k →
      (∀ n < k, c' n = false) → answer c nns → answer c' nns' → nns.length ≤ nns'.length) :
    CancelLaw count [] answer (answer fun _ => false) where
  later hij hi hj ha ha' := h hi (fun n hn => hj.2 n (hn.trans_le hij)) ha ha'
  full hi ha ha' := h hi (fun _ _ => rfl) ha ha'
  kept _ hx := absurd hx List.not_mem_nil

theorem unbroken_nil {keep : ItemId → Bool} : Unbroken count keep [] :=
  fun _ h => absurd h List.not_mem_nil

/-- A scan that is cancelled later reaches the same candidates and more. -/
theorem reached_later (hfirst : FirstTrueAt cancel k) (hbelow : ∀ n < k, cancel' n = false) :
    ∀ {probes : Nat} (ids : List ItemId), probes ≤ k →
      (reached cancel probes ids).Sublist (reached cancel' probes ids)
  | _, [], _ => List.Sublist.slnil
  | probes, id :: ids, hp => by
    unfold reached
    by_cases hc : cancel probes = true
    · rw [if_pos hc]
      exact List.nil_sublist _
    · have hlt : probes < k := lt_of_le_of_ne hp fun heq => hc (heq ▸ hfirst.1)
      rw [if_neg hc, hbelow probes hlt, if_neg Bool.false_ne_true]
      exact (reached_later hfirst hbelow ids hlt).cons_cons id

theorem cancelLaw_scan (hs : Searchable r db) (c : RoaringBitmap) :
    CancelLaw count [] (fun cancel nns => ∃ found,
      r.bruteForceSearch D db query c count cancel = .ok found ∧ nns = found.intoInner)
      fun nns => ∃ found, r.bruteForceSearch D db query c count (fun _ => false) = .ok found ∧
        nns = found.intoInner := by
  refine CancelLaw.of_later (fun cancel nns => ∃ found,
    r.bruteForceSearch D db query c count cancel = .ok found ∧ nns = found.intoInner)
    fun {k c₁ c₂ nns nns'} hfirst hbelow h h' => ?_
  have hlen : ∀ {cancel : CancelFn} {nns : List (ItemId × F32)},
      (∃ found, r.bruteForceSearch D db query c count cancel = .ok found ∧
        nns = found.intoInner) →
      nns.length = min count (scanPairs D query r db cancel c).length := by
    rintro cancel nns ⟨found, hfound, rfl⟩
    rw [bruteForceSearch_ok hs.typed] at hfound
    cases hfound
    rw [Completion.intoInner_ite, Reader.output, List.length_map, length_smallest]
  rw [hlen h, hlen h']
  exact min_le_min le_rfl
    ((reached_later hfirst hbelow (ascending c) (Nat.zero_le k)).filterMap _).length_le

/-! ## The queries -/

theorem map_some_eq_ok_iff {α : Type} {x : Except Failure α} {a : α} :
    x.map some = .ok (some a) ↔ x = .ok a := by
  cases x with
  | ok b =>
    constructor
    · intro h
      cases h
      rfl
    · intro h
      cases h
      rfl
  | error e =>
    constructor <;> (intro h; cases h)

/-- What `by_vector_with_cancellation` returns. -/
def VectorAnswer (D : Distance) (r : Reader) (db : Database) (opt : QueryBuilder)
    (vector : List F32) (cancel : CancelFn) (nns : List (ItemId × F32)) : Prop :=
  ∃ out, r.byVectorWithCancellation D db opt vector cancel = .ok out ∧ out.nns = nns

/-- What `by_item_with_cancellation` returns. -/
def ItemAnswer (D : Distance) (r : Reader) (db : Database) (opt : QueryBuilder) (item : ItemId)
    (cancel : CancelFn) (nns : List (ItemId × F32)) : Prop :=
  ∃ out, r.byItemWithCancellation D db opt item cancel = .ok (some out) ∧ out.nns = nns

/-- The restarts of a query by vector that is not cancelled. -/
def vectorRestarts (D : Distance) (r : Reader) (db : Database) (opt : QueryBuilder)
    (query : Item) : List Restart :=
  if r.noCandidates opt || r.shouldLinearScan opt then []
  else
    match r.descend D db query r.maxLevel (topVisitor r) ∅ with
    | .error _ => []
    | .ok v => layerRestarts D query r db (vectorVisitor v opt) opt.count
        (Reader.widthByVector opt) opt.ef

/-- The restarts of a query by item that is not cancelled. -/
def itemRestarts (D : Distance) (r : Reader) (db : Database) (opt : QueryBuilder)
    (item : ItemId) : List Restart :=
  match db.item? r.index item with
  | none => []
  | some it =>
    if r.noCandidates opt || r.shouldLinearScan opt then []
    else layerRestarts D (Item.ofVector D (it.toVector D r.dimensions)) r db
      (itemVisitor r opt item) opt.count (Reader.widthByItem opt) opt.count

theorem vectorAnswer_iff {vector : List F32} (hlen : vector.length = r.dimensions)
    {nns : List (ItemId × F32)} : VectorAnswer D r db opt vector cancel nns ↔
      ∃ found, r.nnsByVec D db opt (Item.ofVector D vector) cancel = .ok found ∧
        nns = found.intoInner := by
  constructor
  · rintro ⟨out, hout, rfl⟩
    exact byVectorWithCancellation_ok hout
  · rintro ⟨found, hfound, rfl⟩
    unfold VectorAnswer Reader.byVectorWithCancellation Reader.queryItem
    rw [if_neg (not_not.mpr hlen)]
    simp only [bind, Except.bind, pure, Except.pure, hfound]
    cases found <;> exact ⟨_, rfl, rfl⟩

theorem itemAnswer_iff {item : ItemId} {nns : List (ItemId × F32)} :
    ItemAnswer D r db opt item cancel nns ↔
      ∃ found, r.nnsByItem D db opt item cancel = .ok (some found) ∧ nns = found.intoInner := by
  constructor
  · rintro ⟨out, hout, rfl⟩
    exact byItemWithCancellation_ok hout
  · rintro ⟨found, hfound, rfl⟩
    unfold ItemAnswer Reader.byItemWithCancellation
    simp only [bind, Except.bind, pure, Except.pure, hfound]
    cases found <;> exact ⟨_, rfl, rfl⟩

/-- `by_vector` is `by_vector_with_cancellation` with a callback that never cancels. -/
theorem byVector_answer {vector : List F32} (hlen : vector.length = r.dimensions) :
    (fun nns => ∃ out, r.byVector D db opt vector = .ok out ∧ out.nns = nns) =
      VectorAnswer D r db opt vector fun _ => false := by
  funext nns
  refine propext ⟨?_, fun h => ?_⟩
  · rintro ⟨out, hout, rfl⟩
    exact (vectorAnswer_iff hlen).mpr (byVector_ok hout)
  · obtain ⟨found, hfound, rfl⟩ := (vectorAnswer_iff hlen).mp h
    exact ⟨_, byVector_eq hlen hfound, rfl⟩

/-! ## The law on each path of a query -/

/-- Nothing is restarted where the graph is not searched. -/
theorem vectorRestarts_eq_nil {query : Item}
    (h : r.noCandidates opt = true ∨ r.shouldLinearScan opt = true) :
    vectorRestarts D r db opt query = [] := by
  rw [vectorRestarts, if_pos (Bool.or_eq_true_iff.mpr h)]

theorem itemRestarts_eq_nil {item : ItemId} (h : r.noCandidates opt = true ∨
      r.shouldLinearScan opt = true ∨ db.item? r.index item = none) :
    itemRestarts D r db opt item = [] := by
  unfold itemRestarts
  cases hit : db.item? r.index item with
  | none => rfl
  | some it =>
    rw [hit] at h
    have h' := h.imp_right (Or.resolve_right · (Option.some_ne_none it))
    exact if_pos (Bool.or_eq_true_iff.mpr h')

theorem vectorRestarts_graph (hno : r.noCandidates opt = false)
    (hscan : r.shouldLinearScan opt = false) {query : Item}
    (hv : r.descend D db query r.maxLevel (topVisitor r) ∅ = .ok v) :
    vectorRestarts D r db opt query = layerRestarts D query r db (vectorVisitor v opt) opt.count
      (Reader.widthByVector opt) opt.ef := by
  rw [vectorRestarts, hno, hscan, Bool.false_or, if_neg Bool.false_ne_true, hv]

theorem itemRestarts_graph (hno : r.noCandidates opt = false)
    (hscan : r.shouldLinearScan opt = false) {item : ItemId} {it : Item}
    (hit : db.item? r.index item = some it) :
    itemRestarts D r db opt item =
      layerRestarts D (Item.ofVector D (it.toVector D r.dimensions)) r db
        (itemVisitor r opt item) opt.count (Reader.widthByItem opt) opt.count := by
  rw [itemRestarts, hit]
  simp only [hno, hscan, Bool.or_false, Bool.false_eq_true, if_false]

/-- A query by vector that scans is the scan of the candidates. -/
theorem nnsByVec_scan (hs : Searchable r db) {c : RoaringBitmap} (hno : r.noCandidates opt = false)
    (hscan : r.shouldLinearScan opt = true) (hc : opt.candidates = some c) (query : Item)
    (cancel : CancelFn) :
    r.nnsByVec D db opt query cancel = r.bruteForceSearch D db query c opt.count cancel := by
  rcases nnsByVec_cases D opt hs query cancel with
    ⟨hno', -⟩ | ⟨-, -, c', hc', heq⟩ | ⟨-, hscan', -⟩
  · rw [hno] at hno'
    cases hno'
  · rw [hc] at hc'
    cases hc'
    exact heq
  · rw [hscan] at hscan'
    cases hscan'

/-- Else it is the search of layer 0 where the descent lands. -/
theorem nnsByVec_graph (hs : Searchable r db) (hno : r.noCandidates opt = false)
    (hscan : r.shouldLinearScan opt = false) {query : Item}
    (hv : r.descend D db query r.maxLevel (topVisitor r) ∅ = .ok v) (cancel : CancelFn) :
    r.nnsByVec D db opt query cancel = r.searchLayer0 D db query (vectorVisitor v opt) opt.count
      (Reader.widthByVector opt) opt.ef cancel := by
  rcases nnsByVec_cases D opt hs query cancel with
    ⟨hno', -⟩ | ⟨-, hscan', -⟩ | ⟨-, -, v', hv', -, heq⟩
  · rw [hno] at hno'
    cases hno'
  · rw [hscan] at hscan'
    cases hscan'
  · rw [hv] at hv'
    cases hv'
    exact heq

theorem cancelLaw_byVector (hs : Searchable r db) {vector : List F32}
    (hlen : vector.length = r.dimensions) :
    CancelLaw opt.count (vectorRestarts D r db opt (Item.ofVector D vector))
        (VectorAnswer D r db opt vector) (VectorAnswer D r db opt vector fun _ => false) ↔
      Unbroken opt.count (optKeep opt)
        (vectorRestarts D r db opt (Item.ofVector D vector)) := by
  have hanswer : VectorAnswer D r db opt vector = fun cancel nns => ∃ found,
      r.nnsByVec D db opt (Item.ofVector D vector) cancel = .ok found ∧
        nns = found.intoInner := by
    funext cancel nns
    exact propext (vectorAnswer_iff hlen)
  rw [hanswer]
  rcases nnsByVec_cases D opt hs (Item.ofVector D vector) fun _ => false with
    ⟨hno, -⟩ | ⟨hno, hscan, c, hc, -⟩ | ⟨hno, hscan, v, hv, hl, -⟩
  · rw [vectorRestarts_eq_nil (Or.inl hno)]
    refine iff_of_true ?_ unbroken_nil
    refine CancelLaw.of_later (fun cancel nns => ∃ found,
      r.nnsByVec D db opt (Item.ofVector D vector) cancel = .ok found ∧ nns = found.intoInner) ?_
    rintro k c c' _ _ - - ⟨found, hfound, rfl⟩ -
    rw [Reader.nnsByVec, if_pos hno] at hfound
    cases hfound
    exact Nat.zero_le _
  · rw [vectorRestarts_eq_nil (Or.inr hscan)]
    simp only [nnsByVec_scan hs hno hscan hc]
    exact iff_of_true (cancelLaw_scan hs c) unbroken_nil
  · rw [vectorRestarts_graph hno hscan hv]
    simp only [nnsByVec_graph hs hno hscan hv]
    exact cancelLaw_layer hs hl.vectorVisitor (le_max_right _ _) fun _ _ => rfl

/-- A query by item that scans is the scan of the candidates for the vector of the item. -/
theorem nnsByItem_scan (hs : Searchable r db) {item : ItemId} {it : Item} {c : RoaringBitmap}
    (hit : db.item? r.index item = some it) (hno : r.noCandidates opt = false)
    (hscan : r.shouldLinearScan opt = true) (hc : opt.candidates = some c) (cancel : CancelFn)
    (found : Completion (List (ItemId × F32))) :
    r.nnsByItem D db opt item cancel = .ok (some found) ↔
      r.bruteForceSearch D db (Item.ofVector D (it.toVector D r.dimensions)) c opt.count cancel =
        .ok found := by
  rcases nnsByItem_cases D opt hs item cancel with
    ⟨hno', -⟩ | ⟨it', hit', -, ⟨-, c', hc', heq⟩ | ⟨hscan', -⟩⟩
  · rw [hno, hit] at hno'
    rcases hno' with h | h <;> cases h
  · rw [hit] at hit'
    rw [hc] at hc'
    cases hit'
    cases hc'
    rw [heq]
    exact map_some_eq_ok_iff
  · rw [hscan] at hscan'
    cases hscan'

/-- Else it is the search of layer 0 that begins at the item. -/
theorem nnsByItem_graph (hs : Searchable r db) {item : ItemId} {it : Item}
    (hit : db.item? r.index item = some it) (hno : r.noCandidates opt = false)
    (hscan : r.shouldLinearScan opt = false) (cancel : CancelFn)
    (found : Completion (List (ItemId × F32))) :
    r.nnsByItem D db opt item cancel = .ok (some found) ↔
      r.searchLayer0 D db (Item.ofVector D (it.toVector D r.dimensions)) (itemVisitor r opt item)
        opt.count (Reader.widthByItem opt) opt.count cancel = .ok found := by
  rcases nnsByItem_cases D opt hs item cancel with
    ⟨hno', -⟩ | ⟨it', hit', -, ⟨hscan', -⟩ | ⟨-, v', -, rfl, -, -, heq⟩⟩
  · rw [hno, hit] at hno'
    rcases hno' with h | h <;> cases h
  · rw [hscan] at hscan'
    cases hscan'
  · rw [hit] at hit'
    cases hit'
    rw [heq]
    exact map_some_eq_ok_iff

theorem cancelLaw_byItem (hs : Searchable r db) (item : ItemId) :
    CancelLaw opt.count (itemRestarts D r db opt item) (ItemAnswer D r db opt item)
        (ItemAnswer D r db opt item fun _ => false) ↔
      Unbroken opt.count (itemKeep r opt item) (itemRestarts D r db opt item) := by
  have hanswer : ItemAnswer D r db opt item = fun cancel nns => ∃ found,
      r.nnsByItem D db opt item cancel = .ok (some found) ∧ nns = found.intoInner := by
    funext cancel nns
    exact propext itemAnswer_iff
  rw [hanswer]
  rcases nnsByItem_cases D opt hs item fun _ => false with
    ⟨hno, -⟩ | ⟨it, hit, hno, ⟨hscan, c, hc, -⟩ | ⟨hscan, v, hl, hv, -⟩⟩
  · rw [itemRestarts_eq_nil (hno.imp_right Or.inr)]
    refine iff_of_true ?_ unbroken_nil
    refine CancelLaw.of_later (fun cancel nns => ∃ found,
      r.nnsByItem D db opt item cancel = .ok (some found) ∧ nns = found.intoInner) ?_
    rintro k c c' _ _ - - ⟨found, hfound, rfl⟩ -
    rcases nnsByItem_cases D opt hs item c with ⟨-, heq⟩ | ⟨it, hit, hno', -⟩
    · rw [heq] at hfound
      cases hfound
    · rcases hno with hno | hno
      · rw [hno] at hno'
        cases hno'
      · rw [hno] at hit
        cases hit
  · rw [itemRestarts_eq_nil (Or.inr (Or.inl hscan))]
    simp only [nnsByItem_scan hs hit hno hscan hc]
    exact iff_of_true (cancelLaw_scan hs c) unbroken_nil
  · subst hv
    rw [itemRestarts_graph hno hscan hit]
    simp only [nnsByItem_graph hs hit hno hscan]
    exact cancelLaw_layer hs hl (le_max_right _ _) fun n hn => by
      rw [max_self] at hn
      rw [Reader.widthByItem, if_pos hn.le]
      rfl

/-- **When cancelling later never returns less**: exactly when no restart of the search breaks
off what was found before. -/
theorem cancel_law_iff (hv : ValidIndex D r db) (opt : QueryBuilder) {vector : List F32}
    (hlen : vector.length = r.dimensions) (item : ItemId) :
    (CancelLaw opt.count (vectorRestarts D r db opt (Item.ofVector D vector))
        (VectorAnswer D r db opt vector)
        (fun nns => ∃ out, r.byVector D db opt vector = .ok out ∧ out.nns = nns) ↔
      Unbroken opt.count (optKeep opt) (vectorRestarts D r db opt (Item.ofVector D vector))) ∧
    (CancelLaw opt.count (itemRestarts D r db opt item) (ItemAnswer D r db opt item)
        (fun nns => ∃ out, r.byItem D db opt item = .ok (some out) ∧ out.nns = nns) ↔
      Unbroken opt.count (itemKeep r opt item) (itemRestarts D r db opt item)) := by
  have hs := hv.toSearchable
  refine ⟨?_, ?_⟩
  · rw [byVector_answer hlen]
    exact cancelLaw_byVector hs hlen
  · simp only [byItem_eq hs]
    exact cancelLaw_byItem hs item

/-! ## A restart that forgets -/

/-- Items 0, 1, 2, 3 at 0, 1, 2, 3, each linked to the items next to it; item 4 between 1 and 2,
whose lists are full when it comes. No link leads to it. -/
def noWayIn : List (Writer × Op) :=
  [.build 2 2 .twoLevels BuildOption.default, .addItem 4 [⟨0x3fc00000⟩], .addItem 3 [⟨0x40400000⟩],
    .addItem 2 [⟨0x40000000⟩], .addItem 1 [F32.one], .addItem 0 [F32.zero]].map (⟨0, 1⟩, ·)

/-- Item 4 alone is searched for, in the graph. -/
def onlyItem4 : QueryBuilder := ((nns 1).withCandidates {4}).withLinearBelow 0

/-- The first pass finds nothing, so the restart at item 4 breaks nothing off. -/
theorem cancel_noWayIn : ∃ db r, opened manhattan 0 noWayIn = some (db, r) ∧
    vectorRestarts manhattan r db onlyItem4 (Item.ofVector manhattan [F32.zero]) =
      [⟨⟨⟨0x3fc00000⟩, 4⟩, [], 4⟩] ∧
    CancelLaw 1 (vectorRestarts manhattan r db onlyItem4 (Item.ofVector manhattan [F32.zero]))
      (VectorAnswer manhattan r db onlyItem4 [F32.zero])
      (fun nns => ∃ out, r.byVector manhattan db onlyItem4 [F32.zero] = .ok out ∧
        out.nns = nns) := by
  have h : ((opened manhattan 0 noWayIn).map fun x => (x.2.dimensions,
      vectorRestarts manhattan x.2 x.1 onlyItem4 (Item.ofVector manhattan [F32.zero]))) =
        some (1, [⟨⟨⟨0x3fc00000⟩, 4⟩, [], 4⟩]) := by
    decide +kernel
  obtain ⟨⟨db, r⟩, hopened, h⟩ := Option.map_eq_some_iff.mp h
  simp only [Prod.mk.injEq] at h
  obtain ⟨hdim, hrestart⟩ := h
  obtain ⟨-, -, hv⟩ := valid_of_opened (n := 1) (by decide) (by decide) hopened
  have hlen : [F32.zero].length = r.dimensions := hdim.symm
  refine ⟨db, r, hopened, hrestart, (cancel_law_iff hv onlyItem4 hlen 0).1.mpr ?_⟩
  rw [hrestart]
  intro x hx
  rw [List.mem_singleton.mp hx]
  exact Or.inl rfl

/-- The search from item 0 finds the items 0 to 3. Cancelled in its next pass, which starts at item
4, it returns this item alone. -/
theorem cancelled_restart_forgets : ∃ db r, opened manhattan 0 noWayIn = some (db, r) ∧
    ValidIndex manhattan r db ∧
    FirstTrueAt (fun n => decide (n = 3)) 3 ∧ FirstTrueAt (fun n => decide (n = 4)) 4 ∧
    VectorAnswer manhattan r db (nns 5) [F32.zero] (fun n => decide (n = 3))
      [(0, F32.zero), (1, F32.one), (2, ⟨0x40000000⟩), (3, ⟨0x40400000⟩)] ∧
    VectorAnswer manhattan r db (nns 5) [F32.zero] (fun n => decide (n = 4))
      [(4, ⟨0x3fc00000⟩)] := by
  have h : ((opened manhattan 0 noWayIn).bind fun x =>
      (x.2.byVectorWithCancellation manhattan x.1 (nns 5) [F32.zero]
        fun n => decide (n = 3)).toOption.bind fun a =>
      (x.2.byVectorWithCancellation manhattan x.1 (nns 5) [F32.zero]
        fun n => decide (n = 4)).toOption.map fun b => (a.nns, b.nns)) =
      some ([(0, F32.zero), (1, F32.one), (2, ⟨0x40000000⟩), (3, ⟨0x40400000⟩)],
        [(4, ⟨0x3fc00000⟩)]) := by
    decide +kernel
  obtain ⟨⟨db, r⟩, hopened, h⟩ := Option.bind_eq_some_iff.mp h
  obtain ⟨a, ha, h⟩ := Option.bind_eq_some_iff.mp h
  obtain ⟨b, hb, h⟩ := Option.map_eq_some_iff.mp h
  obtain ⟨hna, hnb⟩ := Prod.mk.inj h
  obtain ⟨-, -, hv⟩ := valid_of_opened (n := 1) (by decide) (by decide) hopened
  exact ⟨db, r, hopened, hv,
    ⟨rfl, fun n hn => decide_eq_false hn.ne⟩, ⟨rfl, fun n hn => decide_eq_false hn.ne⟩,
    ⟨a, ok_of_toOption ha, hna⟩, ⟨b, ok_of_toOption hb, hnb⟩⟩

end Hannoy.Search
