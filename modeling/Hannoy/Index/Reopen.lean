import Hannoy.Index.Convert
import Hannoy.Index.Pending
import Hannoy.Search.Valid

/-!
# `need_build` and `Reader::open` (`writer.rs:423-436`, `reader.rs:387-431`)

A run of writers on one index that may also change the distance. `need_build` looks at the stones
and for metadata; `open` also compares the distance the metadata names. Moving to the quantized
version of a distance keeps the metadata under its old name, and only the stones of the items it
re-encodes tell.

* `Move.consistent`: every move keeps the index consistent.
* `Named`: an index without stones names the current distance; `agrees_iff_named` says that this is
  what makes the two functions agree, and `Move.named_iff` which moves keep it.
* `agrees_iff_informed`: the two functions agree all along a run exactly when every move to the
  quantized version of the distance leaves a stone or finds no metadata.
* `quantized_without_items`: an empty index is built and moved to the quantized distance.
-/

namespace Hannoy.Index

open Hannoy.Library Hannoy.Library.Txn Hannoy.Writer Hannoy.Search

/-! ## Runs that change the distance -/

/-- An index with the distance of its current writer. -/
structure State (T : Type) where
  distance : T
  db : Database

variable {T : Type} {dist : T → Distance} {i : UInt16}
  {s s' : State T} {db db' db₀ : Database}

/-- One operation that returns. -/
inductive Move [DecidableEq T] (dist : T → Distance) (i : UInt16) : State T → State T → Prop
  | operate {w : Writer} {op : Op} {D : T} {db db' : Database} (hw : w.index = i)
      (h : Step (dist D) w op db db') : Move dist i ⟨D, db⟩ ⟨D, db'⟩
  | changeDistance {w w' : Writer} {env : Environment} {D ND : T} {db db' : Database}
      (hw : w.index = i) (h : w.prepareChangingDistance env dist D ND db = .ok w' db') :
      Move dist i ⟨D, db⟩ ⟨ND, db'⟩

/-- The states of a run that starts with an index without entries, the latest first. -/
inductive Course [DecidableEq T] (dist : T → Distance) (i : UInt16) (db₀ : Database) :
    List (State T) → Prop
  | start (D : T) : Course dist i db₀ [⟨D, db₀⟩]
  | move {s s' : State T} {states : List (State T)} (hrun : Course dist i db₀ (s :: states))
      (h : Move dist i s s') : Course dist i db₀ (s' :: s :: states)

/-- A writer needs no build exactly when a reader opens. -/
def Agrees (dist : T → Distance) (i : UInt16) (s : State T) : Prop :=
  ∀ w : Writer, w.index = i →
    (w.needBuild s.db = false ↔ ∃ r, Reader.open (dist s.distance) s.db i = .ok r)

/-- A move to the quantized version of the distance leaves a stone, since an item or a stone is
there, or finds no metadata. -/
def Informed (dist : T → Distance) (i : UInt16) (s' s : State T) : Prop :=
  s'.distance ≠ s.distance → keepsLinks (dist s.distance) (dist s'.distance) = true →
    s.db.metadata? i = none ∨ (∃ x, (s.db.item? i x).isSome) ∨ ∃ x, (s.db.stone? i x).isSome

/-! ## What a conversion leaves -/

namespace Converted

variable {D ND : Distance}

/-- The entries a conversion does not write. -/
theorem getElem?_of_mode (h : Converted D ND i db db') {k : Key} (hitem : k.node.mode ≠ .item)
    (hstone : k.node.mode ≠ .updated) : db'[k]? = (keptGraph D ND i db)[k]? :=
  h.rest (fun hs => hitem (selects_item.mp hs).2) fun k' _ _ heq => hstone (by rw [heq]; rfl)

theorem metadata? (h : Converted D ND i db db') :
    db'.metadata? i = if keepsLinks D ND then db.metadata? i else none := by
  rw [Database.metadata?, h.getElem?_of_mode (by simp [Key.metadata]) (by simp [Key.metadata]),
    keptGraph]
  split_ifs
  · rfl
  · rw [Database.getElem?_delete, if_pos rfl]

theorem indexed (h : Converted D ND i db db') :
    Index.indexed i db' = if keepsLinks D ND then Index.indexed i db else ∅ := by
  rw [Index.indexed, h.metadata?]
  split_ifs
  · rfl
  · rfl

theorem links? (h : Converted D ND i db db') (x : ItemId) (l : LayerId) :
    db'.links? i x l = if keepsLinks D ND then db.links? i x l else none := by
  rw [Database.links?, h.getElem?_of_mode (by simp [Key.links]) (by simp [Key.links]), keptGraph]
  split_ifs
  · rfl
  · have hgone : ((db.deleteAll ((db.prefixIter (Prefix.links i)).map Prod.fst)).delete
        (Key.metadata i))[Key.links i x l]? = none := by
      rw [Database.getElem?_delete, if_neg (by simp [Key.links, Key.metadata]),
        Database.getElem?_deleteAll]
      cases hk : db[Key.links i x l]? with
      | none => rw [ite_self]
      | some v =>
        refine if_pos (List.mem_map.mpr ⟨(Key.links i x l, v), ?_, rfl⟩)
        exact Database.mem_prefixIter.mpr ⟨hk, rfl, fun m hm => by cases hm; rfl⟩
    rw [hgone]

theorem item? (h : Converted D ND i db db') (x : ItemId) : db'.item? i x =
    (db.item? i x).map fun it => Item.ofVector ND (D.codec.toVec it.vector) := by
  have hsel : (Prefix.item i).Selects (Key.item i x) := selects_item.mpr ⟨rfl, rfl⟩
  rw [Database.item?, Database.item?, h.item hsel]
  cases hk : db[Key.item i x]? with
  | none => rfl
  | some v =>
    obtain ⟨it, rfl⟩ := h.stored hk hsel
    rfl

theorem stone? (h : Converted D ND i db db') (hwt : db.WellTyped i) (x : ItemId) :
    db'.stone? i x = if (db.item? i x).isSome then some .updated else db.stone? i x := by
  have hsel : (Prefix.item i).Selects (Key.item i x) := selects_item.mpr ⟨rfl, rfl⟩
  cases hit : db.item? i x with
  | some it =>
    have hk := h.stone hsel (by rw [getElem?_of_item? hit]; rfl)
    rw [Database.stone?, show Key.updated i x = Key.updated i (Key.item i x).node.item from rfl, hk]
    rfl
  | none =>
    rw [Database.stone?, h.rest (fun hs => by simp [selects_item, Key.updated] at hs),
      getElem?_keptGraph (Or.inr (Or.inr rfl))]
    · rfl
    · intro k hk hsome heq
      obtain ⟨v, hv⟩ := Option.isSome_iff_exists.mp hsome
      obtain ⟨it, rfl⟩ := h.stored hv hk
      cases hwt k _ hv hk.1 with
      | item y it' =>
        obtain rfl : x = y := congrArg (fun k => k.node.item) heq
        rw [Database.item?, hv] at hit
        cases hit

theorem wellTyped (h : Converted D ND i db db') (hwt : db.WellTyped i) : db'.WellTyped i := by
  intro k v hk hi
  by_cases hsel : (Prefix.item i).Selects k
  · rw [h.item hsel] at hk
    obtain ⟨v₀, hk₀, rfl⟩ := Option.map_eq_some_iff.mp hk
    cases hwt k v₀ hk₀ hi with
    | item y it => exact .item y _
    | metadata m => cases (selects_item.mp hsel).2
    | version v => cases (selects_item.mp hsel).2
    | updated y s => cases (selects_item.mp hsel).2
    | links y l s => cases (selects_item.mp hsel).2
  · by_cases hstone : ∃ k', (Prefix.item i).Selects k' ∧ db[k']?.isSome ∧
        k = Key.updated i k'.node.item
    · obtain ⟨k', hsel', hsome, rfl⟩ := hstone
      rw [h.stone hsel' hsome] at hk
      cases hk
      exact .updated _ _
    · rw [h.rest hsel fun k' hsel' hsome heq => hstone ⟨k', hsel', hsome, heq⟩, keptGraph] at hk
      split_ifs at hk
      · exact hwt k v hk hi
      · exact ((Database.WellTyped.deleteAll _ hwt).delete _) k v hk hi

/-- **A conversion keeps the index consistent**, whether it keeps the graph or clears it. -/
theorem consistent (h : Converted D ND i db db') (hc : Consistent i db) : Consistent i db' := by
  by_cases hkeeps : keepsLinks D ND = true
  · refine hc.same_graph (h.wellTyped hc.typed) (fun x l => ?_) ?_ fun x => ?_
    · rw [h.links?, if_pos hkeeps]
    · rw [h.metadata?, if_pos hkeeps]
    · rw [h.item? x, h.stone? hc.typed x, Option.isSome_map]
      cases hit : db.item? i x with
      | some it => simp
      | none => simpa [hit] using hc.stored x
  · refine consistent_of_no_graph (h.wellTyped hc.typed) (fun x l => ?_) ?_ fun x => ?_
    · rw [h.links?, if_neg hkeeps]
    · rw [h.metadata?, if_neg hkeeps]
    · rw [h.item? x, h.stone? hc.typed x, Option.isSome_map]
      cases hit : db.item? i x with
      | some it => simp
      | none =>
        have hno := hc.stored x
        simp only [hit, Option.isSome_none, Bool.false_eq_true, if_false, false_iff, not_or]
          at hno ⊢
        exact hno.1

end Converted

/-! ## When the two functions agree -/

/-- An index without stones names the distance of its writer. -/
def Named (dist : T → Distance) (i : UInt16) (s : State T) : Prop :=
  ∀ m, s.db.metadata? i = some m → (∀ x, s.db.stone? i x = none) →
    m.distance = (dist s.distance).name

theorem needBuild_eq_false_iff (hwt : db.WellTyped i) {w : Writer} (hw : w.index = i) :
    w.needBuild db = false ↔ db.prefixIter (Prefix.updated i) = [] ∧
      ∃ m, db.metadata? i = some m := by
  subst hw
  have hmeta : db[Key.metadata w.index]?.isNone = (db.metadata? w.index).isNone := by
    unfold Database.metadata?
    cases hk : db[Key.metadata w.index]? with
    | none => rfl
    | some v =>
      cases hwt _ v hk rfl
      rfl
  rw [needBuild, hmeta, Bool.or_eq_false_iff, Bool.not_eq_false', List.isEmpty_iff,
    Option.isNone_eq_false_iff, Option.isSome_iff_exists]

theorem agrees_iff_named (hc : Consistent i s.db) : Agrees dist i s ↔ Named dist i s := by
  have hnil : s.db.prefixIter (Prefix.updated i) = [] ↔ ∀ x, s.db.stone? i x = none :=
    ⟨stone?_of_prefixIter_nil, prefixIter_nil_of_stone? hc.typed⟩
  obtain ⟨version, hv⟩ := getVersion_ok hc.typed
  constructor
  · intro h m hm hs
    have hneed := (needBuild_eq_false_iff hc.typed (w := ⟨i, 0⟩) rfl).mpr ⟨hnil.mpr hs, m, hm⟩
    obtain ⟨r, hr⟩ := (h ⟨i, 0⟩ rfl).mp hneed
    obtain ⟨m', _, hm', -, hname, -⟩ := (open_ok_iff hc.typed).mp hr
    rw [hm] at hm'
    cases hm'
    exact hname.symm
  · intro h w hw
    rw [needBuild_eq_false_iff hc.typed hw]
    constructor
    · rintro ⟨hs, m, hm⟩
      exact ⟨_, (open_ok_iff hc.typed).mpr
        ⟨m, version, hm, hv, (h m hm (hnil.mp hs)).symm, hs, rfl⟩⟩
    · rintro ⟨r, hr⟩
      obtain ⟨m, _, hm, -, -, hs, -⟩ := (open_ok_iff hc.typed).mp hr
      exact ⟨hs, m, hm⟩

theorem rawName_ne {name raw : String} (h : rawName name = some raw) : raw ≠ name := by
  unfold rawName at h
  simp only at h
  split_ifs at h with hstart
  rintro rfl
  have hlen := (List.isPrefixOf_iff_prefix.mp hstart).length_le
  have hdrop := congrArg (fun s => s.toList.length) (Option.some.inj h)
  simp only [String.toList_ofList, List.length_drop] at hdrop
  have hsize : "binary quantized ".toList.length = 17 := by decide
  have hsize' : "binary quantized ".length = 17 := by decide
  omega

/-- The quantized version has another name. -/
theorem name_ne_of_keepsLinks {D ND : Distance} (h : keepsLinks D ND = true) :
    D.name ≠ ND.name := by
  unfold keepsLinks at h
  split at h
  · rename_i raw hraw
    rw [← of_decide_eq_true h]
    exact rawName_ne hraw
  · cases h

theorem named_of_stone {x : ItemId} (h : (s.db.stone? i x).isSome) : Named dist i s := by
  intro m _ hs
  rw [hs x] at h
  cases h

/-- The operations of a writer keep the name in the metadata up to date. -/
theorem Step.named {w : Writer} {op : Op} {D : T} (h : Step (dist D) w op db db')
    (hc : Consistent w.index db) (hn : Named dist w.index ⟨D, db⟩) :
    Named dist w.index ⟨D, db'⟩ := by
  have hbuilds : op.Builds → Named dist w.index ⟨D, db'⟩ := by
    intro hop m hm _
    obtain ⟨m', hm', hname, -⟩ := h.metadata_of_builds hc hop
    rw [show db'.metadata? w.index = some m from hm] at hm'
    cases hm'
    exact hname
  cases h with
  | addItem h =>
    obtain ⟨-, hmark⟩ := addItem_marks h
    exact named_of_stone (by rw [hmark.stone, if_pos rfl]; rfl)
  | delItem h =>
    obtain ⟨-, hmark⟩ := delItem_marks hc.typed h
    split_ifs at hmark with hb
    · exact named_of_stone (by rw [hmark.stone, if_pos rfl]; rfl)
    · rw [hmark]
      exact hn
  | clear h =>
    intro m hm _
    have hgone : db'.metadata? w.index = none := by
      rw [Database.metadata?, clear_noEntries h _ rfl]
    exact absurd (hgone.symm.trans hm) (by simp)
  | build hr h => exact hbuilds trivial
  | forceRebuild hs h => exact hbuilds trivial

/-! ## Moves -/

variable [DecidableEq T]

/-- **A move keeps the index consistent.** -/
theorem Move.consistent (h : Move dist i s s') (hc : Consistent i s.db) :
    Consistent i s'.db := by
  cases h with
  | operate hw h =>
    subst hw
    exact (h.consistent hc).1
  | changeDistance hw h =>
    subst hw
    rename_i w w' env D ND db db'
    by_cases hne : ND = D
    · subst hne
      rw [(prepareChangingDistance_same h).2]
      exact hc
    · exact (prepareChangingDistance_converted hne h).2.consistent hc

/-- **A move keeps the two functions in agreement** exactly when it is informed. -/
theorem Move.named_iff (h : Move dist i s s') (hc : Consistent i s.db) (hn : Named dist i s) :
    Named dist i s' ↔ Informed dist i s' s := by
  cases h with
  | operate hw h =>
    subst hw
    exact iff_of_true (h.named hc hn) fun hne => absurd rfl hne
  | changeDistance hw h =>
    subst hw
    rename_i w w' env D ND db db'
    by_cases hne : ND = D
    · subst hne
      rw [(prepareChangingDistance_same h).2]
      exact iff_of_true hn fun hne => absurd rfl hne
    obtain ⟨-, hconv⟩ := prepareChangingDistance_converted hne h
    by_cases hkeeps : keepsLinks (dist D) (dist ND) = true
    · have hmeta : db'.metadata? w.index = db.metadata? w.index := by
        rw [hconv.metadata?, if_pos hkeeps]
      constructor
      · intro hn' _ _
        by_contra hnot
        simp only [not_or, not_exists, Bool.not_eq_true, Option.isSome_eq_false_iff,
          Option.isNone_iff_eq_none] at hnot
        obtain ⟨hm, hitems, hstones⟩ := hnot
        obtain ⟨m, hm⟩ := Option.ne_none_iff_exists'.mp hm
        have hstones' : ∀ x, db'.stone? w.index x = none := fun x => by
          rw [hconv.stone? hc.typed, hitems x]
          exact hstones x
        have hold := hn m hm hstones
        have hnew := hn' m (hmeta.trans hm) hstones'
        exact name_ne_of_keepsLinks hkeeps (hold.symm.trans hnew)
      · intro hinf
        rcases hinf hne hkeeps with hm | ⟨x, hx⟩ | ⟨x, hx⟩
        · intro m hm'
          rw [hmeta.trans hm] at hm'
          cases hm'
        · exact named_of_stone (by rw [hconv.stone? hc.typed, if_pos hx]; rfl)
        · refine named_of_stone (x := x) ?_
          rw [hconv.stone? hc.typed]
          split_ifs
          · rfl
          · exact hx
    · refine iff_of_true ?_ fun _ hk => absurd hk hkeeps
      intro m hm
      rw [hconv.metadata?, if_neg hkeeps] at hm
      cases hm

theorem Course.consistent (h₀ : NoEntries i db₀) : ∀ {states : List (State T)},
    Course dist i db₀ states → ∀ s ∈ states, Consistent i s.db
  | _, .start D, s, hs => by
    rw [List.mem_singleton.mp hs]
    exact consistent_of_noEntries h₀
  | _, .move hrun h, s, hs => by
    have ih := hrun.consistent h₀
    rcases List.mem_cons.mp hs with rfl | hs
    · exact h.consistent (ih _ List.mem_cons_self)
    · exact ih s hs

/-- **`need_build` and `Reader::open` agree** in every state of a run exactly when every move to
the quantized version of the distance is made with an item, a stone or no metadata. -/
theorem agrees_iff_informed (h₀ : NoEntries i db₀) {states : List (State T)}
    (hrun : Course dist i db₀ states) :
    (∀ s ∈ states, Agrees dist i s) ↔ states.IsChain (Informed dist i) := by
  have hc := hrun.consistent h₀
  have hnamed : (∀ s ∈ states, Agrees dist i s) ↔ ∀ s ∈ states, Named dist i s :=
    forall₂_congr fun s hs => agrees_iff_named (hc s hs)
  rw [hnamed]
  clear hnamed
  induction hrun with
  | start D =>
    refine iff_of_true (fun s hs => ?_) (.singleton _)
    rw [List.mem_singleton.mp hs]
    intro m hm
    rw [Database.metadata?, h₀ _ rfl] at hm
    cases hm
  | move hrun h ih =>
    rename_i s s' states
    have hc' := hc s (List.mem_cons_of_mem _ List.mem_cons_self)
    have hearlier := ih fun s hs => hc s (List.mem_cons_of_mem _ hs)
    rw [List.isChain_cons_cons, List.forall_mem_cons]
    constructor
    · rintro ⟨hn', hall⟩
      exact ⟨(h.named_iff hc' (hall s List.mem_cons_self)).mp hn', hearlier.mp hall⟩
    · rintro ⟨hinf, hchain⟩
      have hall := hearlier.mpr hchain
      exact ⟨(h.named_iff hc' (hall s List.mem_cons_self)).mpr hinf, hall⟩

/-! ## Moving to the quantized distance -/

/-- Build an index and move it to the quantized distance. -/
def quantize (db : Database) : Option (Database × Database) := do
  let db₁ ← committed (Writer.build manhattan ⟨0, 1⟩ 2 2 .oneLevel BuildOption.default db)
  let db₂ ← committed
    ((⟨0, 1⟩ : Writer).prepareChangingDistance .oneLevel manhattans false true db₁)
  pure (db₁, db₂)

theorem course_quantize {states : List (State Bool)} {db₁ db₂ : Database}
    (hrun : Course manhattans 0 db₀ (⟨false, db⟩ :: states))
    (h : quantize db = some (db₁, db₂)) :
    Course manhattans 0 db₀ (⟨true, db₂⟩ :: ⟨false, db₁⟩ :: ⟨false, db⟩ :: states) := by
  obtain ⟨_, h₁, h⟩ := Option.bind_eq_some_iff.mp h
  obtain ⟨_, h₂, h⟩ := Option.bind_eq_some_iff.mp h
  cases h
  obtain ⟨_, hbuild⟩ := committed_eq_some h₁
  obtain ⟨_, hchange⟩ := committed_eq_some h₂
  exact (hrun.move (.operate rfl (.build rfl hbuild))).move (.changeDistance rfl hchange)

/-- With an item to re-encode the two functions agree. -/
theorem agrees_quantized_item : ∃ db₁ db₂, quantize onePending = some (db₁, db₂) ∧
    Agrees manhattans 0 ⟨true, db₂⟩ := by
  have h : (quantize onePending).map (fun p => (p.1.item? 0 0).isSome) = some true := by
    decide +kernel
  obtain ⟨⟨db₁, db₂⟩, hq, hitem⟩ := Option.map_eq_some_iff.mp h
  have hadd : Writer.addItem manhattan ⟨0, 1⟩ 0 [F32.zero] ∅ = .ok () onePending := rfl
  have hrun := course_quantize (.move (.start false) (.operate rfl (.addItem hadd))) hq
  refine ⟨db₁, db₂, hq, (agrees_iff_informed noEntries_empty hrun).mpr ?_ _ List.mem_cons_self⟩
  simp only [List.isChain_cons_cons, List.isChain_singleton, and_true]
  exact ⟨fun _ _ => Or.inr (Or.inl ⟨0, hitem⟩), fun hne => absurd rfl hne,
    fun hne => absurd rfl hne⟩

/-- An index is built without items and moved to the quantized distance: no build is needed, and no
reader opens. -/
theorem quantized_without_items : ∃ db₁ db₂, quantize ∅ = some (db₁, db₂) ∧
    Course manhattans 0 ∅ [⟨true, db₂⟩, ⟨false, db₁⟩, ⟨false, ∅⟩] ∧
    ¬ Agrees manhattans 0 ⟨true, db₂⟩ := by
  have h : (quantize ∅).map (fun p => ((⟨0, 1⟩ : Writer).needBuild p.2,
      (Reader.open (manhattans true) p.2 0).toOption.isSome)) = some (false, false) := by
    decide +kernel
  obtain ⟨⟨db₁, db₂⟩, hq, h⟩ := Option.map_eq_some_iff.mp h
  simp only [Prod.mk.injEq] at h
  obtain ⟨hneed, hopen⟩ := h
  refine ⟨db₁, db₂, hq, course_quantize (.start false) hq, fun hagrees => ?_⟩
  obtain ⟨r, hr⟩ := (hagrees ⟨0, 1⟩ rfl).mp hneed
  rw [show Reader.open (manhattans true) db₂ 0 = .ok r from hr] at hopen
  cases hopen

end Hannoy.Index
