import Hannoy.Graph.AddLink
import Hannoy.Graph.Build
import Hannoy.Library.Greedy

/-!
# What a repair keeps (`hnsw.rs:330-415`, `hnsw.rs:565-597`)

`fill_gaps_from_deleted` merges the stored links of a node, those of its deleted neighbours and
those of the current build. It adds up the sizes to see whether they fit, so a link that is both
stored and in memory counts twice; when the sum is too large, `robust_prune` selects.

* `robustPrune_keeps_iff`: pruning keeps every id exactly if no candidate stands in the shade of a
  nearer one, and copies leave room.
* `Repaired.subset`, `Repaired.eq_iff`: the links of a repaired node.
* `fillGaps_repaired`: every surviving node is repaired once, from its links in memory.
-/

namespace Hannoy.Graph

open Hannoy.Library Hannoy.Library.Txn Hannoy.HnswBuilder

variable {D : Distance} {M M0 : Nat} {alpha : F32} {lmdb : FrozenReader} {options : BuildOption}
  {env : Environment} {toDelete : RoaringBitmap}

/-! ## What pruning keeps -/

section prune

variable (D alpha lmdb)

/-- `i` is nearer to `c` than `c` is to the node. -/
def shades (i c : ScoredLink) : Bool :=
  match lmdb.item c.id, lmdb.item i.id with
  | .ok x, .ok y => F32.mul (D.distance x y) alpha < c.dist
  | _, _ => false

/-- The candidates that none before them shades. -/
def standing (before : List ScoredLink) : List ScoredLink → List ScoredLink
  | [] => []
  | c :: candidates =>
    if unshadedBy (shades D alpha lmdb) before c then c :: standing (before ++ [c]) candidates
    else standing (before ++ [c]) candidates

/-- The first candidate of every new id is unshaded, and `n` and the standing ones before it leave
room. -/
def KeepsFrom (cap n : Nat) (before candidates : List ScoredLink) : Prop :=
  ∀ pre c post, candidates = pre ++ c :: post → c.id ∉ (before ++ pre).map Scored.id →
    unshadedBy (shades D alpha lmdb) (before ++ pre) c = true ∧
      n + (standing D alpha lmdb before pre).length < cap

/-- The first candidate of every id is unshaded, and the standing ones before it leave room. -/
def KeepsAll (cap : Nat) (candidates : List ScoredLink) : Prop :=
  KeepsFrom D alpha lmdb cap 0 [] candidates

variable {D alpha lmdb}

/-- Only the ids of the others matter. -/
theorem unshaded_congr {before before' : List ScoredLink} {c : ScoredLink}
    (h : ∀ x, x ∈ before.map Scored.id ↔ x ∈ before'.map Scored.id) :
    unshadedBy (shades D alpha lmdb) before c = unshadedBy (shades D alpha lmdb) before' c := by
  have hshades : ∀ {i j : ScoredLink}, i.id = j.id →
      shades D alpha lmdb i c = shades D alpha lmdb j c := fun {i j} hij => by
    rw [shades, shades, hij]
  rw [Bool.eq_iff_iff, unshadedBy_iff, unshadedBy_iff]
  constructor
  · intro hall i hi
    obtain ⟨j, hj, hij⟩ := List.mem_map.mp ((h i.id).mpr (List.mem_map_of_mem hi))
    rw [← hshades hij]
    exact hall j hj
  · intro hall i hi
    obtain ⟨j, hj, hij⟩ := List.mem_map.mp ((h i.id).mp (List.mem_map_of_mem hi))
    rw [← hshades hij]
    exact hall j hj

theorem okToAdd_ok {c : ScoredLink} : ∀ {selected : List ScoredLink} {b : Bool},
    okToAdd D alpha lmdb c.dist c.id selected = .ok b →
      b = unshadedBy (shades D alpha lmdb) selected c
  | [], b, h => by
    cases h
    rfl
  | i :: selected, b, h => by
    rw [okToAdd] at h
    simp only [ok_bind_iff] at h
    obtain ⟨x, hx, y, hy, h⟩ := h
    have hshades : shades D alpha lmdb i c =
        decide (F32.mul (D.distance x y) alpha < c.dist) := by
      simp only [shades, hx, hy]
    by_cases hnear : F32.mul (D.distance x y) alpha < c.dist
    · rw [if_pos hnear] at h
      cases h
      rw [unshadedBy, List.all_cons, hshades, decide_eq_true hnear]
      rfl
    · rw [if_neg hnear] at h
      rw [unshadedBy, List.all_cons, hshades, decide_eq_false hnear]
      exact okToAdd_ok h

/-- An id all of whose candidates are shaded is not selected. -/
theorem robustPruneLoop_shaded {cap : Nat} {x : ItemId} :
    ∀ {candidates selected out : List ScoredLink},
      robustPruneLoop D alpha lmdb cap candidates selected = .ok out →
      x ∉ selected.map Scored.id →
      (∀ c ∈ candidates, c.id = x → ∃ i ∈ selected, shades D alpha lmdb i c = true) →
      x ∉ out.map Scored.id
  | [], _, _, h, hx, _ => by
    cases h
    exact hx
  | c :: candidates, selected, out, h, hx, hall => by
    rw [robustPruneLoop] at h
    split_ifs at h with hcap
    · cases h
      exact hx
    · obtain ⟨b, hb, h⟩ := ok_bind_iff.mp h
      have hall' := fun d hd => hall d (List.mem_cons_of_mem _ hd)
      cases b with
      | false => exact robustPruneLoop_shaded h hx hall'
      | true =>
        have hclear := unshadedBy_iff.mp (okToAdd_ok hb).symm
        refine robustPruneLoop_shaded h (fun hmem => ?_) fun d hd hdx => ?_
        · rw [List.map_append, List.mem_append] at hmem
          rcases hmem with hmem | hmem
          · exact hx hmem
          · obtain ⟨i, hi, hshade⟩ := hall c List.mem_cons_self
              (List.mem_singleton.mp hmem).symm
            rw [hclear i hi] at hshade
            cases hshade
        · obtain ⟨i, hi, hshade⟩ := hall' d hd hdx
          exact ⟨i, List.mem_append_left _ hi, hshade⟩

theorem keepsFrom_cons {cap n : Nat} {before candidates : List ScoredLink} {c : ScoredLink} :
    KeepsFrom D alpha lmdb cap n before (c :: candidates) ↔
      (c.id ∉ before.map Scored.id → unshadedBy (shades D alpha lmdb) before c = true ∧ n < cap) ∧
        KeepsFrom D alpha lmdb cap (n + if unshadedBy (shades D alpha lmdb) before c then 1 else 0)
          (before ++ [c]) candidates := by
  have hlen : ∀ pre, (standing D alpha lmdb before (c :: pre)).length =
      (if unshadedBy (shades D alpha lmdb) before c then 1 else 0) +
        (standing D alpha lmdb (before ++ [c]) pre).length := by
    intro pre
    rw [standing]
    by_cases hc : unshadedBy (shades D alpha lmdb) before c = true
    · rw [if_pos hc, if_pos hc, List.length_cons, Nat.add_comm]
    · rw [if_neg hc, if_neg hc, Nat.zero_add]
  constructor
  · intro h
    refine ⟨fun hnew => ?_, fun pre d post heq hnew => ?_⟩
    · have := h [] c candidates rfl (by rwa [List.append_nil])
      rwa [List.append_nil] at this
    · have := h (c :: pre) d post (by rw [heq]; rfl) (by rwa [List.append_cons])
      rwa [List.append_cons, hlen, ← Nat.add_assoc] at this
  · rintro ⟨hhead, htail⟩ pre d post heq hnew
    cases pre with
    | nil =>
      cases heq
      rw [List.append_nil] at hnew ⊢
      exact hhead hnew
    | cons e pre =>
      rw [List.cons_append, List.cons.injEq] at heq
      obtain ⟨rfl, heq⟩ := heq
      have := htail pre d post heq (by rwa [← List.append_cons])
      rwa [← List.append_cons, Nat.add_assoc, ← hlen] at this

/-- The first candidate with an id. -/
theorem exists_first {x : ItemId} : ∀ {candidates : List ScoredLink},
    x ∈ candidates.map Scored.id → ∃ pre c post, candidates = pre ++ c :: post ∧ c.id = x ∧
      x ∉ pre.map Scored.id
  | [], h => absurd h List.not_mem_nil
  | c :: candidates, h => by
    by_cases hc : c.id = x
    · exact ⟨[], c, candidates, rfl, hc, List.not_mem_nil⟩
    · rcases List.mem_cons.mp h with h | h
      · exact absurd h.symm hc
      · obtain ⟨pre, d, post, heq, hd, hpre⟩ := exists_first h
        refine ⟨c :: pre, d, post, by rw [heq]; rfl, hd, fun hmem => ?_⟩
        rcases List.mem_cons.mp hmem with hmem | hmem
        · exact hc hmem.symm
        · exact hpre hmem

/-- Without room every id must be there already. -/
theorem keepsFrom_full_iff {cap : Nat} {before candidates : List ScoredLink} :
    KeepsFrom D alpha lmdb cap cap before candidates ↔
      ∀ c ∈ candidates, c.id ∈ before.map Scored.id := by
  constructor
  · intro hkeeps c hc
    by_contra hnew
    obtain ⟨pre, e, post, heq, he, hpre⟩ := exists_first (List.mem_map_of_mem hc)
    have hroom := (hkeeps pre e post heq (fun hmem => by
      rw [he, List.map_append, List.mem_append] at hmem
      exact hmem.elim hnew hpre)).2
    omega
  · intro hall pre c post heq hnew
    have hc : c ∈ candidates := by
      rw [heq]
      exact List.mem_append_right _ List.mem_cons_self
    refine absurd ?_ hnew
    rw [List.map_append]
    exact List.mem_append_left _ (hall c hc)

/-- A shaded candidate is not selected, nor are its copies, which are not nearer. -/
theorem robustPruneLoop_drops {cap : Nat} {c : ScoredLink}
    {candidates selected out : List ScoredLink}
    (hhead : ∀ d ∈ candidates, c ≤ d) (hshaded : unshadedBy (shades D alpha lmdb) selected c ≠ true)
    (hnew : c.id ∉ selected.map Scored.id)
    (h : robustPruneLoop D alpha lmdb cap candidates selected = .ok out) :
    c.id ∉ out.map Scored.id := by
  rw [ne_eq, unshadedBy_iff] at hshaded
  push Not at hshaded
  obtain ⟨i, hi, hshade⟩ := hshaded
  refine robustPruneLoop_shaded h hnew fun d hd hdc => ⟨i, hi, ?_⟩
  rw [ne_eq, Bool.not_eq_false] at hshade
  unfold shades at hshade ⊢
  rw [hdc]
  split at hshade
  · exact decide_eq_true ((of_decide_eq_true hshade).trans_le
      (Scored.dist_le_of_le (hhead d hd)))
  · cases hshade

/-- **The loop keeps every id** exactly if the first candidate of each stands and finds room;
`before` are the candidates looked at, all of whose ids are selected. -/
theorem robustPruneLoop_keeps_iff {cap : Nat} :
    ∀ {candidates before selected out : List ScoredLink}, candidates.Pairwise (· ≤ ·) →
      (∀ x, x ∈ selected.map Scored.id ↔ x ∈ before.map Scored.id) → selected.length ≤ cap →
      robustPruneLoop D alpha lmdb cap candidates selected = .ok out →
      ((∀ c ∈ candidates, c.id ∈ out.map Scored.id) ↔
        KeepsFrom D alpha lmdb cap selected.length before candidates)
  | [], before, selected, out, _, _, _, _ => by
    refine iff_of_true (fun c hc => absurd hc List.not_mem_nil) fun pre c post heq => ?_
    exact absurd heq.symm (List.append_ne_nil_of_right_ne_nil pre (List.cons_ne_nil c post))
  | c :: candidates, before, selected, out, hsorted, hids, hle, h => by
    obtain ⟨hhead, hsorted⟩ := List.pairwise_cons.mp hsorted
    rw [robustPruneLoop] at h
    by_cases hcap : selected.length = cap
    · rw [if_pos hcap] at h
      cases h
      rw [hcap, keepsFrom_full_iff]
      simp only [hids]
    · rw [if_neg hcap] at h
      obtain ⟨b, hb, h⟩ := ok_bind_iff.mp h
      have hstands : b = unshadedBy (shades D alpha lmdb) before c := by
        rw [okToAdd_ok hb, unshaded_congr hids]
      rw [keepsFrom_cons]
      cases b with
      | true =>
        have hmem : c.id ∈ out.map Scored.id := List.mem_map_of_mem
          (mem_robustPruneLoop_of_selected h c (List.mem_append_right _ List.mem_cons_self))
        have hids' : ∀ x, x ∈ (selected ++ [c]).map Scored.id ↔
            x ∈ (before ++ [c]).map Scored.id := fun x => by
          rw [List.map_append, List.map_append, List.mem_append, List.mem_append, hids]
        have hrec := robustPruneLoop_keeps_iff hsorted hids' (by
          rw [List.length_append, List.length_singleton]
          omega) h
        rw [List.length_append, List.length_singleton] at hrec
        rw [← hstands, if_pos rfl, ← hrec, List.forall_mem_cons]
        refine and_congr_left fun _ => iff_of_true hmem fun _ => ⟨rfl, ?_⟩
        omega
      | false =>
        rw [← hstands, if_neg Bool.false_ne_true, Nat.add_zero, List.forall_mem_cons]
        by_cases hold : c.id ∈ before.map Scored.id
        · -- a copy of an id that is selected
          have hids' : ∀ x, x ∈ selected.map Scored.id ↔
              x ∈ (before ++ [c]).map Scored.id := fun x => by
            rw [hids, List.map_append, List.mem_append]
            refine ⟨Or.inl, fun hx => hx.elim id fun hx => ?_⟩
            rw [List.mem_singleton.mp hx]
            exact hold
          rw [← robustPruneLoop_keeps_iff hsorted hids' hle h]
          obtain ⟨s, hs, hsc⟩ := List.mem_map.mp ((hids _).mpr hold)
          have hmem : c.id ∈ out.map Scored.id :=
            hsc ▸ List.mem_map_of_mem (mem_robustPruneLoop_of_selected h s hs)
          exact and_congr_left fun _ => iff_of_true hmem fun hnew => absurd hold hnew
        · -- a new id that is shaded
          have hshaded : unshadedBy (shades D alpha lmdb) selected c ≠ true := by
            rw [unshaded_congr hids, ← hstands]
            exact Bool.false_ne_true
          have hdrop := robustPruneLoop_drops hhead hshaded (fun hmem => hold ((hids _).mp hmem)) h
          exact iff_of_false (fun hall => hdrop hall.1)
            fun hkeeps => absurd (hkeeps.1 hold).1 Bool.false_ne_true

/-- **Pruning keeps every id** exactly if the first candidate of each stands and finds room. -/
theorem robustPrune_keeps_iff {level : Nat} {candidates out : List ScoredLink}
    (h : robustPrune D M M0 alpha lmdb candidates level = .ok out) :
    (∀ c ∈ candidates, c.id ∈ out.map Scored.id) ↔
      KeepsAll D alpha lmdb (linkCap M M0 level) (candidates.insertionSort (· ≤ ·)) := by
  have hiff := robustPruneLoop_keeps_iff (List.pairwise_insertionSort (· ≤ ·) _)
    (fun x => Iff.rfl) (Nat.zero_le _) h
  rw [KeepsAll, ← List.length_nil, ← hiff]
  simp only [List.mem_insertionSort]

end prune

/-! ## One node -/

section node

variable (D lmdb toDelete)

/-- The links of the deleted neighbours of a node whose stored links are `links`. -/
def extension (links : RoaringBitmap) (level : Nat) : RoaringBitmap :=
  (links ∩ toDelete).biUnion fun d => (disk lmdb level d).getD ∅

/-- What survives of the stored links of a node, of those of its deleted neighbours, and of those
`built` in memory. -/
def survivors (links : RoaringBitmap) (level : Nat) (built : List ItemId) : RoaringBitmap :=
  (links ∪ extension lmdb toDelete links level ∪ built.toFinset) \ toDelete

/-- The candidates of a repair that prunes, nearest first. -/
def repairCandidates (id : ItemId) (merged : RoaringBitmap) (old : List ScoredLink) :
    List ScoredLink :=
  (old ++ (ascending merged).map (linkScore D lmdb id)).insertionSort (· ≤ ·)

/-- The merged links and the list in memory fit by their sizes, or pruning keeps all of them. -/
def KeepsMerged (M M0 : Nat) (alpha : F32) (id : ItemId) (level : Nat) (merged : RoaringBitmap)
    (old : List ScoredLink) : Prop :=
  merged.card + old.length ≤ linkCap M M0 level ∨
    KeepsAll D alpha lmdb (linkCap M M0 level) (repairCandidates D lmdb id merged old)

variable {D lmdb toDelete}

theorem mergedLinks_eq (links : RoaringBitmap) (level : Nat) :
    mergedLinks lmdb toDelete links level =
      (links ∪ extension lmdb toDelete links level) \ toDelete := by
  rw [mergedLinks, extension, Finset.union_comm]
  congr 3
  funext d
  cases hl : lmdb.links d level with
  | ok s => rw [links_ok_iff.mp hl, Option.getD_some]
  | error e =>
    cases hd : disk lmdb level d with
    | none => rw [Option.getD_none]
    | some s =>
      rw [links_ok_iff.mpr hd] at hl
      cases hl

/-- The links in memory lead to surviving items. -/
theorem survivors_eq {links : RoaringBitmap} {level : Nat} {built : List ItemId}
    (hlive : ∀ y ∈ built, y ∉ toDelete) :
    survivors lmdb toDelete links level built =
      mergedLinks lmdb toDelete links level ∪ built.toFinset := by
  have hbuilt : built.toFinset \ toDelete = built.toFinset :=
    Finset.sdiff_eq_self_of_disjoint (Finset.disjoint_left.mpr fun y hy =>
      hlive y (List.mem_toFinset.mp hy))
  rw [survivors, mergedLinks_eq, Finset.union_sdiff_distrib, hbuilt]

variable {id : ItemId} {level : Nat} {merged : RoaringBitmap} {old new : List ScoredLink}

variable (D lmdb id) in
theorem mem_repairCandidates {y : ItemId} :
    y ∈ (repairCandidates D lmdb id merged old).map Scored.id ↔
      y ∈ merged ∪ (old.map Scored.id).toFinset := by
  rw [repairCandidates, ((List.perm_insertionSort (· ≤ ·) _).map Scored.id).mem_iff,
    List.map_append, List.mem_append, List.map_map, Finset.mem_union, List.mem_toFinset, or_comm]
  refine or_congr_left ?_
  rw [List.mem_map]
  simp only [Function.comp_apply, linkScore_id, exists_eq_right, mem_ascending]

/-- What pruning selects from. -/
theorem Repaired.pruned_from (h : Repaired D M M0 options lmdb id level merged old new)
    (hfull : ¬ merged.card + old.length ≤ linkCap M M0 level) :
    robustPrune D M M0 options.alpha lmdb
      (old ++ (ascending merged).map (linkScore D lmdb id)) level = .ok new := by
  cases h with
  | joined hfits _ => exact absurd hfits hfull
  | pruned _ hcurr hscored h =>
    rw [← scored_eq hcurr hscored]
    exact h

/-- What fits by the sizes is kept. -/
theorem Repaired.eq_of_fits (h : Repaired D M M0 options lmdb id level merged old new)
    (hfits : merged.card + old.length ≤ linkCap M M0 level) :
    (new.map Scored.id).toFinset = merged ∪ (old.map Scored.id).toFinset := by
  cases h with
  | pruned hfull _ _ _ => exact absurd hfits hfull
  | joined _ hnew =>
    rw [hnew, List.map_append, List.toFinset_append, List.map_map]
    have hid : (Scored.id ∘ fun y => (⟨F32.zero, y⟩ : ScoredLink)) = fun y => y := rfl
    rw [hid, List.map_id', toFinset_ascending]

theorem Repaired.subset (h : Repaired D M M0 options lmdb id level merged old new) :
    (new.map Scored.id).toFinset ⊆ merged ∪ (old.map Scored.id).toFinset := by
  by_cases hfits : merged.card + old.length ≤ linkCap M M0 level
  · exact (h.eq_of_fits hfits).subset
  · intro y hy
    obtain ⟨s, hs, rfl⟩ := List.mem_map.mp (List.mem_toFinset.mp hy)
    have hcand := mem_of_robustPrune (h.pruned_from hfits) s hs
    rw [← mem_repairCandidates D lmdb id]
    exact List.mem_map_of_mem ((List.mem_insertionSort (· ≤ ·)).mpr hcand)

/-- **When a repair keeps every link**: the sizes add up to no more than the cap, or pruning keeps
all candidates. -/
theorem Repaired.eq_iff (h : Repaired D M M0 options lmdb id level merged old new) :
    (new.map Scored.id).toFinset = merged ∪ (old.map Scored.id).toFinset ↔
      KeepsMerged D lmdb M M0 options.alpha id level merged old := by
  unfold KeepsMerged
  by_cases hfits : merged.card + old.length ≤ linkCap M M0 level
  · exact iff_of_true (h.eq_of_fits hfits) (Or.inl hfits)
  · have hprune := h.pruned_from hfits
    rw [or_iff_right hfits, repairCandidates, ← robustPrune_keeps_iff hprune]
    constructor
    · intro heq c hc
      rw [← List.mem_toFinset, heq, ← mem_repairCandidates D lmdb id]
      exact List.mem_map_of_mem ((List.mem_insertionSort (· ≤ ·)).mpr hc)
    · intro hall
      refine Finset.Subset.antisymm h.subset fun y hy => ?_
      rw [← mem_repairCandidates D lmdb id] at hy
      obtain ⟨c, hc, rfl⟩ := List.mem_map.mp hy
      exact List.mem_toFinset.mpr (hall c ((List.mem_insertionSort (· ≤ ·)).mp hc))

end node

/-! ## All nodes -/

/-- Where no surviving node is stored, the repair changes nothing. -/
theorem patchAll_untouched {l : LayerId} {x : ItemId} :
    ∀ {entries : List (Key × Value)} {n : Nat} {layers layers' : Layers M0},
      (∀ e ∈ entries, ∃ y k s, e = (Key.links lmdb.index y k, .node (.links s)) ∧
        k.toNat < layers.length) →
      (∀ e ∈ entries, e.1 = Key.links lmdb.index x l → x ∈ toDelete) →
      patchAll D M options env lmdb toDelete n entries layers = .ok layers' →
      layers'.get? l.toNat x = layers.get? l.toNat x
  | [], _, _, _, _, _, h => by
    cases h
    rfl
  | e :: entries, n, layers, layers', hent, hne, h => by
    obtain ⟨y, k, s, rfl, hk⟩ := hent e List.mem_cons_self
    have hent' := fun e he => hent e (List.mem_cons_of_mem _ he)
    have hne' := fun e he => hne e (List.mem_cons_of_mem _ he)
    rcases patchAll_cons h with ⟨hdel, h⟩ | ⟨hdel, mid, hpatch, h⟩
    · exact patchAll_untouched hent' hne' h
    · obtain ⟨node, rfl, -⟩ := patchLinks_repaired hpatch
      rw [patchAll_untouched (by simpa only [Layers.length_insert] using hent') hne' h,
        Layers.get?_insert hk, if_neg]
      rintro ⟨hl, rfl⟩
      exact hdel (hne _ List.mem_cons_self (by rw [UInt8.toNat_inj.mp hl]))

/-- **Every surviving node is repaired once**, from its links in memory before. -/
theorem patchAll_repaired :
    ∀ {entries : List (Key × Value)} {n : Nat} {layers layers' : Layers M0},
      (∀ e ∈ entries, ∃ y k s, e = (Key.links lmdb.index y k, .node (.links s)) ∧
        k.toNat < layers.length) →
      entries.Pairwise (fun a b => a.1 < b.1) →
      patchAll D M options env lmdb toDelete n entries layers = .ok layers' →
      ∀ x l s, (Key.links lmdb.index x l, .node (.links s)) ∈ entries → x ∉ toDelete →
        ∃ node, layers'.get? l.toNat x = some node ∧
          Repaired D M M0 options lmdb x l.toNat
            (mergedLinks lmdb toDelete s l.toNat) (layers.linksAt l.toNat x) node.links.toList
  | [], _, _, _, _, _, _ => fun _ _ _ he => absurd he List.not_mem_nil
  | e :: entries, n, layers, layers', hent, hsorted, h => by
    obtain ⟨y, k, t, rfl, hk⟩ := hent e List.mem_cons_self
    obtain ⟨hhead, hsorted⟩ := List.pairwise_cons.mp hsorted
    have hent' := fun e he => hent e (List.mem_cons_of_mem _ he)
    intro x l s he hx
    rcases patchAll_cons h with ⟨hdel, h⟩ | ⟨hdel, mid, hpatch, h⟩
    · rcases List.mem_cons.mp he with he | he
      · cases he
        exact absurd hdel hx
      · exact patchAll_repaired hent' hsorted h x l s he hx
    · obtain ⟨node, rfl, hrep⟩ := patchLinks_repaired hpatch
      have hent'' : ∀ e ∈ entries, ∃ y' k' s', e = (Key.links lmdb.index y' k',
          .node (.links s')) ∧ k'.toNat < (layers.insert k.toNat y node).length := by
        simpa only [Layers.length_insert] using hent'
      rcases List.mem_cons.mp he with he | hmem
      · -- the node itself: no later entry has its key
        cases he
        have hlater := patchAll_untouched (x := y) (l := k) hent''
          (fun e he heq => absurd heq (hhead e he).ne') h
        exact ⟨node, by rw [hlater, Layers.get?_insert hk, if_pos ⟨rfl, rfl⟩], hrep⟩
      · -- a later node: this repair does not touch it
        have hsame : (layers.insert k.toNat y node).linksAt l.toNat x =
            layers.linksAt l.toNat x := by
          refine Layers.linksAt_congr ?_
          rw [Layers.get?_insert hk, if_neg]
          rintro ⟨hl, rfl⟩
          rw [UInt8.toNat_inj.mp hl] at hmem
          have hlt : Key.links lmdb.index x k < Key.links lmdb.index x k := hhead _ hmem
          exact lt_irrefl _ hlt
        rw [← hsame]
        exact patchAll_repaired hent'' hsorted h x l s hmem hx

/-- **The repair**: every surviving node with stored links is repaired from the links it has in
memory. -/
theorem fillGaps_repaired (hwt : lmdb.db.WellTyped lmdb.index) {layers layers' : Layers M0}
    (hlen : layers.length ≤ 256)
    (h : fillGapsFromDeleted D M options env lmdb toDelete layers = .ok layers') {x : ItemId}
    {l : LayerId} {links : RoaringBitmap} (hlinks : disk lmdb l.toNat x = some links)
    (hx : x ∉ toDelete) :
    ∃ node, layers'.get? l.toNat x = some node ∧
      Repaired D M M0 options lmdb x l.toNat
        (mergedLinks lmdb toDelete links l.toNat) (layers.linksAt l.toNat x)
        node.links.toList := by
  obtain ⟨-, -, hroom⟩ := resizeLayers_spec lmdb.linksEntries layers hlen
  have hsame : (resizeLayers lmdb.linksEntries layers).linksAt l.toNat x =
      layers.linksAt l.toNat x := Layers.linksAt_congr (get?_resizeLayers _ _ _ _)
  rw [← hsame]
  refine patchAll_repaired (fun e he => ?_) (Database.pairwise_prefixIter _)
    (fillGaps_ok h) x l links ((mem_linksEntries hwt).mpr ⟨x, l, links, rfl, rfl, hlinks⟩) hx
  obtain ⟨k, v⟩ := e
  obtain ⟨y, m, s, rfl, rfl, -⟩ := (mem_linksEntries hwt).mp he
  exact ⟨y, m, s, rfl, hroom _ s he⟩

/-- Elsewhere it changes nothing. -/
theorem fillGaps_untouched (hwt : lmdb.db.WellTyped lmdb.index) {layers layers' : Layers M0}
    (hlen : layers.length ≤ 256)
    (h : fillGapsFromDeleted D M options env lmdb toDelete layers = .ok layers') {x : ItemId}
    {l : LayerId} (hx : ∀ links, disk lmdb l.toNat x = some links → x ∈ toDelete) :
    layers'.get? l.toNat x = layers.get? l.toNat x := by
  obtain ⟨-, -, hroom⟩ := resizeLayers_spec lmdb.linksEntries layers hlen
  rw [patchAll_untouched (fun e he => ?_) (fun e he heq => ?_) (fillGaps_ok h), get?_resizeLayers]
  · obtain ⟨k, v⟩ := e
    obtain ⟨y, m, s, rfl, rfl, -⟩ := (mem_linksEntries hwt).mp he
    exact ⟨y, m, s, rfl, hroom _ s he⟩
  · obtain ⟨k, v⟩ := e
    obtain ⟨y, m, s, rfl, rfl, hs⟩ := (mem_linksEntries hwt).mp he
    cases heq
    exact hx s hs

/-! ## In a build -/

/-- The layers a build hands to the repair. -/
def layersToRepair (D : Distance) (M : Nat) (options : BuildOption) (env : Environment)
    (lmdb : FrozenReader) (b : HnswBuilder M0) (toInsert toDelete : RoaringBitmap) :
    Except Failure (Layers M0) := do
  let (levels, b) ← prepareLevelsAndEntryPoints D M options env lmdb b (drawnLevels env toInsert)
    (((drawnLevels env toInsert).map Prod.snd).foldl max 0) toDelete
  insertGroups D M options env lmdb b 0 0 (levelGroups levels) b.layers

variable {toInsert : RoaringBitmap} {b b' : HnswBuilder M0}

theorem layersToRepair_ok (hin : BuildInput lmdb toInsert toDelete b) {layers : Layers M0}
    (h : layersToRepair D M options env lmdb b toInsert toDelete = .ok layers) :
    LayersOk lmdb layers := by
  obtain ⟨⟨levels, b₁⟩, hprep, hins⟩ := ok_bind_iff.mp h
  exact (layersOk_inserted hin hprep hins).1

end Hannoy.Graph
