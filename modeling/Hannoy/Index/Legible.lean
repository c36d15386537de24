import Hannoy.Codec.Lmdb
import Hannoy.Index.History
import Hannoy.Index.Life

/-!
# What an index writes it reads back

An entry is read with the codec that its key calls for and the sizes of the distance of the moment.
Every operation of a writer leaves entries that this codec reads back, and so does a change of the
distance, which rewrites the items, and a conversion, which keeps the items it could decode.

* `Step.legible`, `Converted.legible`, `FromArroy.legible`: what each leaves is legible.
* `read_back`: in every state of an index the bytes in LMDB are read as the entries they stand for.
-/

namespace Hannoy.Index

open Hannoy.Library Hannoy.Library.Txn Hannoy.Writer Hannoy.Codec

variable {t : Target} {D ND : Distance} {F G : NodeFormat} {R : Roaring} {i : UInt16}
  {db db' : Database}

/-- No distance of the crate has a NUL in its name. -/
theorem noNul_of_formats (h : (D, F) ∈ formats t) : 0 ∉ MetadataCodec.asBytes D.name := by
  simp only [formats, List.mem_cons, List.not_mem_nil, or_false, Prod.mk.injEq] at h
  obtain ⟨rfl, -⟩ | ⟨rfl, -⟩ | ⟨rfl, -⟩ | ⟨rfl, -⟩ | ⟨rfl, -⟩ | ⟨rfl, -⟩ | ⟨rfl, -⟩ := h <;>
    cases t <;> decide +kernel

theorem legible_of_noEntries (h : NoEntries i db) : Legible F i db where
  typed := (consistent_of_noEntries h).typed
  item hit := by
    rw [Database.item?, h _ rfl] at hit
    cases hit
  name hm := by
    rw [Database.metadata?, h _ rfl] at hm
    cases hm

/-- **An operation of a writer** leaves what it found or what it encoded itself. -/
theorem Step.legible {w : Writer} {op : Op} (hD : (D, F) ∈ formats t) (h : Step D w op db db')
    (hc : Consistent w.index db) (hl : Legible F w.index db) : Legible F w.index db' := by
  have hwt := (h.consistent hc).1.typed
  have hbuilds : op.Builds → Legible F w.index db' := by
    intro hop
    refine ⟨hwt, fun hit => ?_, fun hm => ?_⟩
    · rw [h.item?_of_builds hc hop] at hit
      exact hl.item hit
    · obtain ⟨m, hm', hname, -⟩ := h.metadata_of_builds hc hop
      rw [hm'] at hm
      cases hm
      rw [hname]
      exact noNul_of_formats hD
  cases h with
  | addItem h =>
    obtain ⟨-, hmark⟩ := addItem_marks h
    refine ⟨hwt, fun hit => ?_, fun hm => hl.name (hmark.metadata ▸ hm)⟩
    rw [hmark.item] at hit
    split_ifs at hit
    · cases hit
      exact fits_ofVector hD _
    · exact hl.item hit
  | delItem h =>
    obtain ⟨-, hmark⟩ := delItem_marks hc.typed h
    split_ifs at hmark with hb
    · refine ⟨hwt, fun hit => ?_, fun hm => hl.name (hmark.metadata ▸ hm)⟩
      rw [hmark.item] at hit
      split_ifs at hit
      exact hl.item hit
    · rw [hmark]
      exact hl
  | clear h => exact legible_of_noEntries (clear_noEntries h)
  | build hr h => exact hbuilds trivial
  | forceRebuild hs h => exact hbuilds trivial

/-- **A change of the distance** writes every item in the format of the new one. -/
theorem Converted.legible (hND : (ND, G) ∈ formats t) (h : Converted D ND i db db')
    (hl : Legible F i db) : Legible G i db' where
  typed := h.wellTyped hl.typed
  item hit := by
    rw [h.item?] at hit
    obtain ⟨it, -, rfl⟩ := Option.map_eq_some_iff.mp hit
    exact fits_ofVector hND _
  name hm := by
    rw [h.metadata?] at hm
    split_ifs at hm
    exact hl.name hm

/-- What can be decoded has the sizes it was decoded with. -/
theorem fits_of_decodeAsNode {v : Value} {n : Node} (h : decodeAsNode R F v = .node n) :
    Fits F n := by
  unfold decodeAsNode at h
  generalize v.bytesEncode R = bytes at h
  split at h
  · next n' hn =>
    cases h
    cases bytes with
    | nil => cases hn
    | cons tag rest =>
      rw [NodeCodec.bytesDecode] at hn
      split_ifs at hn
      · unfold splitAt at hn
        split_ifs at hn with hlen
        · rw [ok_bind] at hn
          simp only [VectorCodec.fromBytes] at hn
          split_ifs at hn with hrem
          · cases hn
            exact ⟨List.length_take_of_le hlen, Nat.dvd_of_mod_eq_zero hrem⟩
          · cases hn
        · cases hn
      · split at hn
        · cases hn
          trivial
        · cases hn
  · cases h
  · cases h

/-- **A conversion** keeps the items it could decode. -/
theorem FromArroy.legible (h : FromArroy (decodeAsNode R F) i db db')
    (hdec : Decodes (decodeAsNode R F) i db) : Legible F i db' where
  typed := (h.consistent hdec).typed
  item {x it} hit := by
    have hk := getElem?_of_item? hit
    obtain ⟨-, hkept⟩ := (h.rest _ rfl (fun y _ heq => by cases heq) _).mp hk
    obtain ⟨-, it', hdecode⟩ := keptEntry_iff.mp hkept
    obtain ⟨hk₀, -⟩ := (h.rest _ rfl (fun y _ heq => by cases heq) _).mp hk
    obtain ⟨-, heq⟩ := hdec _ _ it' hk₀ rfl rfl hdecode
    cases heq
    exact fits_of_decodeAsNode hdecode
  name {m} hm := by
    unfold Database.metadata? at hm
    split at hm
    · next m' hk =>
      rcases h.entry hdec hk rfl with ⟨y, -, hkey, -⟩ | ⟨y, -, it, hkey, -⟩
      · cases hkey
      · cases hkey
    · cases hm

/-! ## Runs -/

section moves

variable {T : Type} {dist : T → Distance} {form : T → NodeFormat} {s₀ s s' : State T}

variable (R i dist form) in
/-- How an index begins: without entries, or as a conversion of an arroy index leaves it. -/
inductive Founded : State T → Prop
  | empty {D : T} {db : Database} (h : NoEntries i db) : Founded ⟨D, db⟩
  | arroy {w : Writer} {env : Environment} {D : T} {u : Unit} {db db' : Database}
      (hw : w.index = i) (hdec : Decodes (decodeAsNode R (form D)) i db)
      (h : w.prepareArroyConversion env (dist D) (decodeAsNode R (form D)) db = .ok u db') :
      Founded ⟨D, db'⟩

theorem Founded.consistent (h : Founded R i dist form s) : Consistent i s.db := by
  cases h with
  | empty h => exact consistent_of_noEntries h
  | arroy hw hdec h =>
    subst hw
    exact (prepareArroyConversion_fromArroy h).consistent hdec

theorem Founded.legible (h : Founded R i dist form s) : Legible (form s.distance) i s.db := by
  cases h with
  | empty h => exact legible_of_noEntries h
  | arroy hw hdec h =>
    subst hw
    exact (prepareArroyConversion_fromArroy h).legible hdec

variable [DecidableEq T] (hform : ∀ D, (dist D, form D) ∈ formats t)
include hform

theorem Move.legible (h : Move dist i s s') (hc : Consistent i s.db)
    (hl : Legible (form s.distance) i s.db) : Legible (form s'.distance) i s'.db := by
  cases h with
  | operate hw h =>
    subst hw
    exact h.legible (hform _) hc hl
  | changeDistance hw h =>
    subst hw
    rename_i w w' env D ND db db'
    by_cases hne : ND = D
    · subst hne
      rw [(prepareChangingDistance_same h).2]
      exact hl
    · exact (prepareChangingDistance_converted hne h).2.legible (hform ND) hl

/-- **What an index writes it reads back.** In every state it reaches, through any operations of its
writers and changes of its distance, the bytes of its entries are read as those entries, by their
keys and on walks; and writes of entries are writes of their bytes. -/
theorem read_back (h₀ : Founded R i dist form s₀) (h : Relation.ReflTransGen (Move dist i) s₀ s)
    (hR : ∀ (k : Key) (v : Value), s.db[k]? = some v → k.index = i →
      ∀ b ∈ valueBitmaps v, R.Faithful b) {l : Lmdb} (hl : s.db.HeldBy R l) :
    Reads R (form s.distance) i s.db l ∧
      (∀ k v, (s.db.put k v).HeldBy R (l.insert k.bytesEncode (v.bytesEncode R))) ∧
        ∀ k, (s.db.delete k).HeldBy R (l.erase k.bytesEncode) := by
  have hinv : Consistent i s.db ∧ Legible (form s.distance) i s.db := by
    clear hR hl
    induction h with
    | refl => exact ⟨h₀.consistent, h₀.legible⟩
    | tail _ hm ih =>
      obtain ⟨hc, hlegible⟩ := ih
      exact ⟨hm.consistent hc, hm.legible hform hc hlegible⟩
  exact ⟨hinv.2.reads hR hl, heldBy_put hl, heldBy_delete hl⟩

end moves

/-- An item is added and built: two records, its links and its vector are read back. -/
theorem read_back_oneItem : ∃ (db : Database) (l : Lmdb), db.HeldBy oneContainer l ∧
    (db.item? 0 7).isSome ∧ Reads oneContainer ⟨4, .f32⟩ 0 db l := by
  have h : ((committed (Writer.addItem plainManhattan ⟨0, 1⟩ 7 [F32.one] ∅)).bind fun db₁ =>
      (committed (Writer.build plainManhattan ⟨0, 1⟩ 2 2 .oneLevel
        BuildOption.default db₁)).map fun db₂ => db₂.toList) =
      some [(Key.metadata 0, .metadata ⟨1, {7}, "manhattan", [7], 0⟩),
        (Key.version 0, .version Version.current), (Key.links 0 7 0, .node (.links ∅)),
        (Key.item 0 7, .node (.item (Item.ofVector plainManhattan [F32.one])))] := by
    decide +kernel
  obtain ⟨db₁, h₁, h⟩ := Option.bind_eq_some_iff.mp h
  obtain ⟨db₂, h₂, h⟩ := Option.map_eq_some_iff.mp h
  obtain ⟨_, hadd⟩ := committed_eq_some h₁
  obtain ⟨_, hbuild⟩ := committed_eq_some h₂
  have hentry : ∀ {k : Key} {v : Value}, db₂[k]? = some v ↔ (k, v) ∈ db₂.toList :=
    Std.ExtTreeMap.mem_toList_iff_getElem?_eq_some.symm
  have hmoves : Relation.ReflTransGen (Move (fun _ : Unit => plainManhattan) 0)
      ⟨(), ∅⟩ ⟨(), db₂⟩ :=
    (Relation.ReflTransGen.single (.operate rfl (.addItem hadd))).tail
      (.operate rfl (.build rfl hbuild))
  have hempty : oneContainer.Faithful ∅ :=
    ⟨by decide +kernel, by decide +kernel, by decide +kernel⟩
  have hseven : oneContainer.Faithful {7} :=
    ⟨by decide +kernel, by decide +kernel, by decide +kernel⟩
  have hform : ∀ _ : Unit, (plainManhattan, (⟨4, .f32⟩ : NodeFormat)) ∈ formats .plain :=
    fun _ => by simp [formats, plainManhattan]
  obtain ⟨l, hl⟩ : ∃ l, db₂.HeldBy oneContainer l := exists_keeps compare_bytes db₂
  refine ⟨db₂, l, hl, ?_, (read_back hform (.empty noEntries_empty) hmoves
    (fun k v hk _ b hb => ?_) hl).1⟩
  · have hitem : db₂[Key.item 0 7]? =
        some (.node (.item (Item.ofVector plainManhattan [F32.one]))) := by
      rw [hentry, h]
      simp
    rw [Database.item?, hitem]
    rfl
  · rw [hentry, h] at hk
    simp only [List.mem_cons, List.not_mem_nil, or_false, Prod.mk.injEq] at hk
    obtain ⟨-, rfl⟩ | ⟨-, rfl⟩ | ⟨-, rfl⟩ | ⟨-, rfl⟩ := hk
    · exact Set.mem_singleton_iff.mp hb ▸ hseven
    · exact hb.elim
    · exact Set.mem_singleton_iff.mp hb ▸ hempty
    · exact hb.elim

end Hannoy.Index
