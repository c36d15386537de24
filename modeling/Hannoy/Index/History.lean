import Hannoy.Search.Valid

/-!
# What a run stores

The items of an index are a function of the operations of the run alone: the vector of an item is
the one of the last `add_item` since the last clear, unless a `del_item` came after it
(`lastAdded`); the stones tell which of them were touched since the previous build (`touched`).

* `Run.tracks`: items and stones in terms of the operations.
* `last_write_wins`: what a reader and the next build see after a build.
* `validIndex_of_run`: writers of the same dimensions leave a valid index.
-/

namespace Hannoy.Index

open Hannoy.Library Hannoy.Library.Txn Hannoy.Writer Hannoy.Graph Hannoy.Search

variable {D : Distance} {i : UInt16} {db db' db₀ : Database}

/-! ## Operations and what they leave -/

/-- The vector last added for `x`, when the last operation on `x` since the last clear added it. -/
def lastAdded (x : ItemId) : List (Writer × Op) → Option (List F32)
  | [] => none
  | (_, .addItem y v) :: tr => if x = y then some v else lastAdded x tr
  | (_, .delItem y) :: tr => if x = y then none else lastAdded x tr
  | (_, .clear) :: _ => none
  | (_, .build _ _ _ _) :: tr => lastAdded x tr
  | (_, .forceRebuild _ _ _ _) :: tr => lastAdded x tr

/-- Some operation since the previous build was on `x`. -/
def touched (x : ItemId) : List (Writer × Op) → Bool
  | [] => false
  | (_, .addItem y _) :: tr => x = y || touched x tr
  | (_, .delItem y) :: tr => x = y || touched x tr
  | (_, .clear) :: tr => touched x tr
  | (_, .build _ _ _ _) :: _ => false
  | (_, .forceRebuild _ _ _ _) :: _ => false

/-- Items and stones are those of the operations. -/
structure Tracks (D : Distance) (i : UInt16) (tr : List (Writer × Op)) (db : Database) : Prop where
  item : ∀ x, db.item? i x = (lastAdded x tr).map (Item.ofVector D)
  stone : ∀ x, db.stone? i x = some .updated ↔ (lastAdded x tr).isSome ∧ touched x tr

theorem item?_dropLinks (m : Metadata) (x : ItemId) :
    (dropLinks i db m).item? i x = db.item? i x := by
  rw [Database.item?, getElem?_dropLinks (by simp [Key.item])]
  rfl

/-- Items are not changed by building. -/
theorem Step.item?_of_builds {w : Writer} {op : Op} (h : Step D w op db db')
    (hc : Consistent w.index db) (hop : op.Builds) (x : ItemId) :
    db'.item? w.index x = db.item? w.index x := by
  cases h with
  | addItem h => exact hop.elim
  | delItem h => exact hop.elim
  | clear h => exact hop.elim
  | build hr h =>
    obtain ⟨b, hdone⟩ := (ready_of_consistent hc hr).build_done h
    exact hdone.built.item x
  | forceRebuild hs h =>
    obtain ⟨m, hm, hb⟩ := forceRebuild_ok h
    obtain ⟨b, hdone⟩ :=
      (ready_dropLinks _ hc (stone?_of_prefixIter_nil hs) rfl hm).build_done hb
    exact (hdone.built.item x).trans (item?_dropLinks m x)

/-- A deletion forgets the item, and its stone no longer says that it was updated. -/
theorem Tracks.delItem {w : Writer} {tr : List (Writer × Op)} {y : ItemId} {b : Bool}
    (hc : Consistent w.index db) (ht : Tracks D w.index tr db) (h : w.delItem y db = .ok b db') :
    Tracks D w.index ((w, .delItem y) :: tr) db' := by
  obtain ⟨hb, hmark⟩ := delItem_marks hc.typed h
  have hgone : db'.item? w.index y = none ∧ db'.stone? w.index y ≠ some .updated := by
    cases b with
    | true =>
      rw [if_pos rfl] at hmark
      rw [hmark.item, hmark.stone, if_pos rfl, if_pos rfl]
      simp
    | false =>
      rw [if_neg Bool.false_ne_true] at hmark
      have hnone : db.item? w.index y = none := by simpa using hb.symm
      rw [hmark]
      refine ⟨hnone, fun hs => ?_⟩
      have := (hc.stored y).mpr (Or.inl hs)
      rw [hnone] at this
      cases this
  have hother : ∀ x, x ≠ y → db'.item? w.index x = db.item? w.index x ∧
      db'.stone? w.index x = db.stone? w.index x := by
    intro x hx
    split_ifs at hmark with hb'
    · exact ⟨by rw [hmark.item, if_neg hx], by rw [hmark.stone, if_neg hx]⟩
    · rw [hmark]
      exact ⟨rfl, rfl⟩
  refine ⟨fun x => ?_, fun x => ?_⟩
  · rw [lastAdded]
    by_cases hx : x = y
    · rw [if_pos hx, hx, hgone.1]; rfl
    · rw [if_neg hx, (hother x hx).1, ht.item]
  · rw [lastAdded, touched]
    by_cases hx : x = y
    · subst hx
      simpa using hgone.2
    · rw [(hother x hx).2]
      simpa [hx] using ht.stone x

theorem Step.tracks {w : Writer} {op : Op} {tr : List (Writer × Op)} (h : Step D w op db db')
    (hc : Consistent w.index db) (ht : Tracks D w.index tr db) :
    Tracks D w.index ((w, op) :: tr) db' := by
  have hbuilds : ∀ (_ : op.Builds), (∀ x, lastAdded x ((w, op) :: tr) = lastAdded x tr) →
      (∀ x, touched x ((w, op) :: tr) = false) → Tracks D w.index ((w, op) :: tr) db' := by
    intro hop hlast htouch
    refine ⟨fun x => ?_, fun x => ?_⟩
    · rw [h.item?_of_builds hc hop, ht.item, hlast]
    · rw [(h.consistent hc).2 hop, htouch]
      simp
  cases h with
  | addItem h =>
    rename_i y v u
    obtain ⟨-, hmark⟩ := addItem_marks h
    refine ⟨fun x => ?_, fun x => ?_⟩
    · rw [hmark.item, lastAdded]
      by_cases hx : x = y
      · rw [if_pos hx, if_pos hx]; rfl
      · rw [if_neg hx, if_neg hx]; exact ht.item x
    · rw [hmark.stone, lastAdded, touched]
      by_cases hx : x = y
      · simp [hx]
      · simpa [hx] using ht.stone x
  | delItem h => exact ht.delItem hc h
  | clear h =>
    have hnone := clear_noEntries h
    refine ⟨fun x => ?_, fun x => ?_⟩
    · rw [Database.item?, hnone _ rfl]; rfl
    · rw [Database.stone?, hnone _ rfl]
      simp [lastAdded]
  | build hr h => exact hbuilds trivial (fun _ => rfl) fun _ => rfl
  | forceRebuild hs h => exact hbuilds trivial (fun _ => rfl) fun _ => rfl

/-- **Items and stones of a run are those of its operations.** -/
theorem Run.tracks (h₀ : NoEntries i db₀) {tr : List (Writer × Op)} (h : Run D i db₀ tr db) :
    Tracks D i tr db := by
  induction h with
  | start =>
    refine ⟨fun x => ?_, fun x => ?_⟩
    · rw [Database.item?, h₀ _ rfl]; rfl
    · rw [Database.stone?, h₀ _ rfl]
      simp [lastAdded]
  | step hw hrun hstep ih =>
    subst hw
    exact hstep.tracks (hrun.consistent h₀) ih

/-! ## Writers of the same dimensions -/

/-- The metadata announces `n` dimensions and every stored item encodes a vector of that length. -/
structure Encodes (D : Distance) (i : UInt16) (n : Nat) (db : Database) : Prop where
  dimensions : ∀ {m}, db.metadata? i = some m → m.dimensions.toNat = n
  vectors : ∀ {x it}, db.item? i x = some it → ∃ v : List F32, v.length = n ∧ it = Item.ofVector D v

theorem Step.encodes {w : Writer} {op : Op} (h : Step D w op db db') (hc : Consistent w.index db)
    (he : Encodes D w.index w.dimensions db) : Encodes D w.index w.dimensions db' := by
  have hbuilds : op.Builds → Encodes D w.index w.dimensions db' := by
    intro hop
    refine ⟨fun hm => ?_, fun hit => ?_⟩
    · obtain ⟨m, hm', -, hlt, hdim⟩ := h.metadata_of_builds hc hop
      rw [hm'] at hm
      cases hm
      rw [hdim]
      exact UInt32.toNat_ofNat_of_lt' hlt
    · rw [h.item?_of_builds hc hop] at hit
      exact he.vectors hit
  cases h with
  | addItem h =>
    obtain ⟨hlen, hmark⟩ := addItem_marks h
    refine ⟨fun hm => he.dimensions (hmark.metadata ▸ hm), fun hit => ?_⟩
    rw [hmark.item] at hit
    split_ifs at hit
    · cases hit
      exact ⟨_, hlen, rfl⟩
    · exact he.vectors hit
  | delItem h =>
    obtain ⟨-, hmark⟩ := delItem_marks hc.typed h
    split_ifs at hmark with hb
    · refine ⟨fun hm => he.dimensions (hmark.metadata ▸ hm), fun hit => ?_⟩
      rw [hmark.item] at hit
      split_ifs at hit
      exact he.vectors hit
    · rw [hmark]
      exact he
  | clear h =>
    have hnone := clear_noEntries h
    refine ⟨fun hm => ?_, fun hit => ?_⟩
    · rw [Database.metadata?, hnone _ rfl] at hm
      cases hm
    · rw [Database.item?, hnone _ rfl] at hit
      cases hit
  | build hr h => exact hbuilds trivial
  | forceRebuild hs h => exact hbuilds trivial

theorem Run.encodes (h₀ : NoEntries i db₀) {n : Nat} {tr : List (Writer × Op)}
    (h : Run D i db₀ tr db) (hdim : ∀ e ∈ tr, e.1.dimensions = n) : Encodes D i n db := by
  induction h with
  | start =>
    refine ⟨fun hm => ?_, fun hit => ?_⟩
    · rw [Database.metadata?, h₀ _ rfl] at hm
      cases hm
    · rw [Database.item?, h₀ _ rfl] at hit
      cases hit
  | step hw hrun hstep ih =>
    subst hw
    have hn := hdim _ List.mem_cons_self
    simp only at hn
    subst hn
    exact hstep.encodes (hrun.consistent h₀) (ih fun e he => hdim e (List.mem_cons_of_mem _ he))

/-- **A reader that opens on a state of a run of writers of the same dimensions finds a valid
index.** -/
theorem validIndex_of_run (h₀ : NoEntries i db₀) {n : Nat} {tr : List (Writer × Op)}
    {r : Reader} (hrun : Run D i db₀ tr db) (hdim : ∀ e ∈ tr, e.1.dimensions = n)
    (hopen : Reader.open D db i = .ok r) : ValidIndex D r db := by
  have hsearch := searchable_of_run h₀ hrun hopen
  have henc := hrun.encodes h₀ hdim
  obtain ⟨m, version, hm, -, -, -, rfl⟩ := (open_ok_iff (hrun.consistent h₀).typed).mp hopen
  refine ⟨hsearch, fun hit => ?_⟩
  obtain ⟨v, hlen, rfl⟩ := henc.vectors hit
  exact ⟨v, hlen.trans (henc.dimensions hm).symm, rfl⟩

/-- The database that the operations leave, from the empty one, and the reader of an index of
it. -/
def opened (D : Distance) (i : UInt16) (tr : List (Writer × Op)) : Option (Database × Reader) :=
  (play D ∅ tr).bind fun db => (Reader.open D db i).toOption.map fun r => (db, r)

theorem valid_of_opened {n : Nat} {tr : List (Writer × Op)} {r : Reader}
    (hindex : ∀ e ∈ tr, e.1.index = i) (hdim : ∀ e ∈ tr, e.1.dimensions = n)
    (h : opened D i tr = some (db, r)) :
    Run D i ∅ tr db ∧ Reader.open D db i = .ok r ∧ ValidIndex D r db := by
  obtain ⟨db', hdb, h⟩ := Option.bind_eq_some_iff.mp h
  obtain ⟨r', hr, h⟩ := Option.map_eq_some_iff.mp h
  cases h
  have hrun := Run.of_play hindex hdb
  have hopen := ok_of_toOption hr
  exact ⟨hrun, hopen, validIndex_of_run noEntries_empty hrun hdim hopen⟩

/-! ## Last write wins -/

/-- What reading an item added as `v` returns. -/
def codecImage (D : Distance) (dimensions : Nat) (v : List F32) : List F32 :=
  (D.codec.toVec (D.codec.fromSlice v)).take dimensions

/-- The iterator yields the vectors of the entries it walks over. -/
theorem mapM_decodeItemVector {n : Nat} : ∀ {entries : List (Key × Value)},
    (∀ e ∈ entries, ∃ x it, e = (Key.item i x, Value.node (.item it)) ∧ db.item? i x = some it) →
    entries.mapM (Database.decodeItemVector D n) =
      .ok ((entries.map fun e => e.1.node.item).filterMap
        fun x => (db.item? i x).map fun it => (x, it.toVector D n))
  | [], _ => rfl
  | e :: entries, h => by
    obtain ⟨x, it, rfl, hit⟩ := h e List.mem_cons_self
    rw [List.mapM_cons, mapM_decodeItemVector fun e he => h e (List.mem_cons_of_mem _ he)]
    show _ = Except.ok (List.filterMap _ (x :: _))
    rw [List.filterMap_cons_some (b := (x, it.toVector D n)) (by rw [hit]; rfl)]
    rfl

theorem iter_ok {r : Reader} (h : Searchable r db) :
    r.iter D db = .ok ((ascending r.items).filterMap fun x =>
      (db.item? r.index x).map fun it => (x, it.toVector D r.dimensions)) := by
  rw [← h.storedIds, Reader.iter, Database.itemIter]
  refine mapM_decodeItemVector ?_
  rintro ⟨k, v⟩ he
  obtain ⟨x, it, rfl, rfl, hit⟩ := (Database.mem_prefixIter_item h.typed).mp he
  exact ⟨x, it, rfl, hit⟩

/-- **Last write wins.** After a build the reader opens; its items are those whose last operation
since the last clear added them, with the codec image of the vector added last; no stone is left.
The build indexed the surviving items touched since the previous build. -/
theorem last_write_wins (h₀ : NoEntries i db₀) {w : Writer} (hw : w.index = i)
    {tr : List (Writer × Op)} (hrun : Run D i db₀ tr db) {M M0 : Nat} {env : Environment}
    {options : BuildOption} (hr : options.relinkAllItems = false)
    (h : w.build D M M0 env options db = .ok () db') :
    (∃ r, Reader.open D db' i = .ok r ∧ (∀ x, x ∈ r.items ↔ (lastAdded x tr).isSome) ∧
      (∀ x, r.itemVector D db' x = .ok ((lastAdded x tr).map (codecImage D w.dimensions))) ∧
      r.iter D db' = .ok ((ascending r.items).filterMap fun x =>
        (lastAdded x tr).map fun v => (x, codecImage D w.dimensions v))) ∧
    (∀ x, w.itemVector D db' x = .ok ((lastAdded x tr).map (codecImage D w.dimensions))) ∧
    db'.prefixIter (Prefix.updated i) = [] ∧
    ∃ sets db₁, w.retrieveSets env options db = .ok sets db₁ ∧
      Disjoint sets.toInsert sets.toDelete ∧
      ∀ x, x ∈ sets.toInsert ↔ (lastAdded x tr).isSome ∧ touched x tr := by
  subst hw
  have hc := hrun.consistent h₀
  have ht := hrun.tracks h₀
  have hready := ready_of_consistent hc hr
  obtain ⟨b, hdone⟩ := hready.build_done h
  have hc' := consistent_done hready hdone
  have hstone := stone?_done hready hdone
  have hitem : ∀ x, db'.item? w.index x = (lastAdded x tr).map (Item.ofVector D) := fun x =>
    (hdone.built.item x).trans (ht.item x)
  have hvector : ∀ x, (db'.item? w.index x).map (Item.toVector D w.dimensions) =
      (lastAdded x tr).map (codecImage D w.dimensions) := fun x => by
    rw [hitem, Option.map_map]
    rfl
  have hdim : (newMetadata D w (buildSets options w.index db).itemIndices b).dimensions.toNat =
      w.dimensions := UInt32.toNat_ofNat_of_lt' hdone.dimensions
  have hnil := prefixIter_nil_of_stone? hc'.typed hstone
  obtain ⟨version, hv⟩ := getVersion_ok hc'.typed
  refine ⟨⟨readerOf w.index (newMetadata D w (buildSets options w.index db).itemIndices b)
    (version.getD ⟨0, 0, 0⟩), ?_, fun x => ?_, fun x => ?_, ?_⟩, fun x => ?_, hnil, ?_⟩
  · exact (open_ok_iff hc'.typed).mpr ⟨_, version, hdone.built.metadata, hv, rfl, hnil, rfl⟩
  · refine (hready.items x).trans ?_
    rw [ht.item]
    simp
  · rw [Reader.itemVector, readerOf, getItem_ok hc'.typed]
    show Except.ok ((db'.item? w.index x).map (Item.toVector D _)) = _
    rw [hdim, hvector]
  · have hvalid := searchable_of_validGraph hc'.typed
      (validGraph_of_consistent hc' hstone hdone.built.metadata) (version.getD ⟨0, 0, 0⟩)
    rw [iter_ok hvalid]
    congr 1
    refine List.filterMap_congr fun x _ => ?_
    show (db'.item? w.index x).map _ = _
    rw [hitem, Option.map_map]
    simp only [Function.comp_def, readerOf, hdim, codecImage, Item.toVector, Item.ofVector]
  · rw [Writer.itemVector, getItem_ok hc'.typed]
    show Except.ok ((db'.item? w.index x).map (Item.toVector D _)) = _
    rw [hvector]
  · unfold Writer.build at h
    rw [bind_ok_iff] at h
    obtain ⟨sets, db₁, hsets, -⟩ := h
    obtain ⟨rfl, -⟩ := retrieveSets_ok hsets
    refine ⟨_, db₁, hsets, Finset.disjoint_left.mpr fun x hins hdel => ?_, fun x => ?_⟩
    · rw [mem_toInsert hc.typed hr] at hins
      rw [mem_toDelete hc.typed hr, hins] at hdel
      cases hdel
    · rw [mem_toInsert hc.typed hr]
      exact ht.stone x

/-- Of two items added, the first one is deleted before the build. -/
theorem last_write_wins_deleted : ∃ db db', play manhattan ∅
      ([.delItem 0, .addItem 1 [F32.one], .addItem 0 [F32.zero]].map (⟨0, 1⟩, ·)) = some db ∧
    Writer.build manhattan ⟨0, 1⟩ 2 2 .oneLevel BuildOption.default db = .ok () db' ∧
    ∃ r, Reader.open manhattan db' 0 = .ok r ∧ (∀ x, x ∈ r.items ↔ x = 1) ∧
      r.itemVector manhattan db' 1 = .ok (some (codecImage manhattan 1 [F32.one])) := by
  have h : ((play manhattan ∅ ([.delItem 0, .addItem 1 [F32.one], .addItem 0 [F32.zero]].map
      (⟨0, 1⟩, ·))).map fun db => (committed (Writer.build manhattan ⟨0, 1⟩ 2 2
        .oneLevel BuildOption.default db)).isSome) =
      some true := by decide +kernel
  obtain ⟨db, hdb, h⟩ := Option.map_eq_some_iff.mp h
  obtain ⟨db', hdb'⟩ := Option.isSome_iff_exists.mp h
  obtain ⟨_, hbuild⟩ := committed_eq_some hdb'
  obtain ⟨⟨r, hopen, hitems, hvector, -⟩, -⟩ := last_write_wins noEntries_empty rfl
    (Run.of_play (by decide) hdb) rfl hbuild
  refine ⟨db, db', hdb, hbuild, r, hopen, fun x => (hitems x).trans ?_, hvector 1⟩
  simp only [List.map_cons, List.map_nil, lastAdded]
  by_cases h0 : x = 0
  · simp [h0]
  · by_cases h1 : x = 1 <;> simp [h0, h1]

end Hannoy.Index
