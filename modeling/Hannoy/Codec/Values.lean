import Hannoy.Codec.Distances
import Hannoy.Model.Bytes

/-!
# What is stored is read back (`node.rs`, `metadata.rs`)

The fields of a record lie one after the other; each decoder takes its field off the front of the
bytes. The last field but one of the metadata has no length: it ends where the last byte begins.

* `node_roundTrip`, `metadata_roundTrip`: every value is read back.
* `metadata_legacy`: a record without its last two fields.
* `noPanic_iff`: when `NodeCodec` does not panic.
-/

namespace Hannoy.Codec

open Hannoy.Library Hannoy.Library.Txn Writer

variable {R : Roaring} {F : NodeFormat}

/-! ## Fields -/

theorem ok_bind {α β : Type} (a : α) (f : α → Except DecodeFailure β) :
    (Except.ok a >>= f) = f a := rfl

theorem readBeU32_append (x : UInt32) (rest : List UInt8) :
    readBeU32 (u32ToBeBytes x ++ rest) = .ok x := by
  have hx := x.toNat_lt
  show Except.ok (UInt32.ofNat _) = Except.ok x
  rw [Except.ok.injEq, ← UInt32.toNat_inj]
  simp only [UInt32.toNat_ofNat', UInt32.toNat_toUInt8, UInt32.toNat_shiftRight,
    show (8 : UInt32).toNat % 32 = 8 from rfl, show (16 : UInt32).toNat % 32 = 16 from rfl,
    show (24 : UInt32).toNat % 32 = 24 from rfl, Nat.shiftRight_eq_div_pow]
  omega

theorem sliceFrom_append {front : List UInt8} {n : Nat} (h : front.length = n)
    (rest : List UInt8) : sliceFrom (front ++ rest) n = .ok rest := by
  rw [sliceFrom, if_pos (by rw [List.length_append]; omega), List.drop_left' h]

theorem sliceTo_append {front : List UInt8} {n : Nat} (h : front.length = n)
    (rest : List UInt8) : sliceTo (front ++ rest) n = .ok front := by
  rw [sliceTo, if_pos (by rw [List.length_append]; omega), List.take_left' h]

theorem splitAt_append {front : List UInt8} {n : Nat} (h : front.length = n)
    (rest : List UInt8) : splitAt (front ++ rest) n = .ok (front, rest) := by
  rw [splitAt, if_pos (by rw [List.length_append]; omega), List.take_left' h, List.drop_left' h]

theorem readNeU32s_flatMap : ∀ ids : List UInt32, readNeU32s (ids.flatMap u32ToNeBytes) = ids
  | [] => rfl
  | x :: ids => by
    have hx := x.toNat_lt
    rw [List.flatMap_cons]
    show UInt32.ofNat _ :: readNeU32s (ids.flatMap u32ToNeBytes) = x :: ids
    rw [readNeU32s_flatMap ids, List.cons.injEq, ← UInt32.toNat_inj]
    refine ⟨?_, rfl⟩
    simp only [UInt32.toNat_ofNat', UInt32.toNat_toUInt8, UInt32.toNat_shiftRight,
      show (8 : UInt32).toNat % 32 = 8 from rfl, show (16 : UInt32).toNat % 32 = 16 from rfl,
      show (24 : UInt32).toNat % 32 = 24 from rfl, Nat.shiftRight_eq_div_pow]
    omega

/-- A name is read back from its bytes. -/
theorem toStr_asBytes (s : String) : MetadataCodec.toStr (MetadataCodec.asBytes s) = .ok s := by
  have h : String.fromUTF8? ⟨(MetadataCodec.asBytes s).toArray⟩ = some s := dif_pos s.isValidUTF8
  rw [MetadataCodec.toStr, h]

/-- A name without a NUL ends at the first one. -/
theorem fromBytesUntilNul_append {name : List UInt8} (h : 0 ∉ name) (rest : List UInt8) :
    MetadataCodec.fromBytesUntilNul (name ++ ([0] ++ rest)) = .ok name := by
  have hne : ∀ b ∈ name, decide (b ≠ 0) = true := by
    intro b hb
    exact decide_eq_true (ne_of_mem_of_not_mem hb h)
  rw [MetadataCodec.fromBytesUntilNul, if_pos (by simp), List.takeWhile_append_of_pos hne]
  simp

/-! ## A format of small bitmaps -/

/-- The bytes of a bitmap that is empty or fits one container of ids: a cookie, the number of
containers, the high half of the ids and their number less one, where the container lies, and the
low halves. -/
def oneContainer : Roaring where
  serialize s :=
    if s = ∅ then [0x3a, 0x30, 0, 0, 0, 0, 0, 0]
    else
      let count := (s.card - 1).toUInt16
      [0x3a, 0x30, 0, 0, 1, 0, 0, 0, 0, 0, count.toUInt8, (count >>> 8).toUInt8, 16, 0, 0, 0] ++
        (ascending s).flatMap fun x : ItemId => [x.toUInt8, (x >>> 8).toUInt8]
  deserialize
    | 0x3a :: 0x30 :: 0 :: 0 :: 0 :: 0 :: 0 :: 0 :: _ => some ∅
    | 0x3a :: 0x30 :: 0 :: 0 :: 1 :: 0 :: 0 :: 0 :: 0 :: 0 :: lo :: hi :: 16 :: 0 :: 0 :: 0 ::
        ids =>
      let count := lo.toNat + 2 ^ 8 * hi.toNat + 1
      if ids.length < 2 * count then none
      else some ((List.range count).map fun i =>
        (ids.getD (2 * i) 0).toUInt32 + (ids.getD (2 * i + 1) 0).toUInt32 <<< 8).toFinset
    | _ => none
  serializedSize s := if s = ∅ then 8 else 16 + 2 * s.card

/-- Two ids in a bitmap. -/
theorem faithful_oneContainer : oneContainer.Faithful {1, 42} where
  deserialize := by decide +kernel
  length := by decide +kernel
  size := by decide +kernel

/-! ## Nodes -/

/-- A node has the sizes of its distance: the header is a value of its type, and the vector was
made of whole words. -/
def Fits (F : NodeFormat) : Node → Prop
  | .item item => item.header.length = F.headerSize ∧ F.codec.word.1 ∣ item.vector.length
  | .links _ => True

/-- The bitmaps of a node. -/
def bitmaps : Node → Set RoaringBitmap
  | .item _ => ∅
  | .links links => {links}

/-- **A node is read back.** -/
theorem node_roundTrip {n : Node} (hn : Fits F n) (hR : ∀ s ∈ bitmaps n, R.Faithful s) :
    NodeCodec.bytesDecode R F (NodeCodec.bytesEncode R n) = .ok n := by
  cases n with
  | item item =>
    obtain ⟨hheader, hvector⟩ := hn
    have hrem : item.vector.length % F.codec.word.1 = 0 := Nat.mod_eq_zero_of_dvd hvector
    rw [NodeCodec.bytesEncode, NodeCodec.bytesDecode, if_pos rfl, splitAt_append hheader]
    show (do
      let vector ← F.codec.fromBytes item.vector
      pure (Node.item ⟨item.header, vector⟩) : Except DecodeFailure Node) = _
    rw [VectorCodec.fromBytes, if_pos hrem]
    rfl
  | links links =>
    rw [NodeCodec.bytesEncode, NodeCodec.bytesDecode, if_neg (by decide), if_pos rfl,
      (hR links rfl).deserialize]

/-- What `NodeCodec` takes from each distance of the crate. -/
def formats (t : Target) : List (Distance × NodeFormat) :=
  [(binaryQuantizedCosine t, ⟨4, .binaryQuantized⟩),
    (binaryQuantizedEuclidean t, ⟨4, .binaryQuantized⟩),
    (binaryQuantizedManhattanWith (codecOn t .binaryQuantized), ⟨4, .binaryQuantized⟩),
    (cosine t, ⟨4, .f32⟩), (euclidean t, ⟨4, .f32⟩), (hamming t, ⟨8, .binary⟩),
    (manhattanWith (codecOn t .f32), ⟨4, .f32⟩)]

example (t : Target) : (formats t).map Prod.fst = distances t := rfl

/-- An encoding is made of whole words. -/
theorem dvd_length_fromSlice (t : Target) (c : VectorCodec) (v : List F32) :
    c.word.1 ∣ ((codecOn t c).fromSlice v).length := by
  by_cases hc : c = .f32
  · subst hc
    have hfrom : (codecOn t .f32).fromSlice v = v.flatMap F32.toNeBytes := by cases t <;> rfl
    rw [hfrom]
    exact ⟨v.length, by simp [List.length_flatMap, F32.toNeBytes, VectorCodec.word, Nat.mul_comm]⟩
  · obtain ⟨bits, -, hbytes⟩ := exists_bits t v hc
    have hword : c.word.1 = 8 := by cases c <;> first | rfl | exact absurd rfl hc
    show c.word.1 ∣ ((c.fromSliceOn t v).getD []).length
    rw [hbytes, Option.getD_some, hword]
    exact dvd_length_pack bits

/-- **What `add_item` stores fits**, for every distance of the crate. -/
theorem fits_ofVector {t : Target} {D : Distance} (h : (D, F) ∈ formats t) (v : List F32) :
    Fits F (.item (Item.ofVector D v)) := by
  simp only [formats, List.mem_cons, List.not_mem_nil, or_false, Prod.mk.injEq] at h
  obtain ⟨rfl, rfl⟩ | ⟨rfl, rfl⟩ | ⟨rfl, rfl⟩ | ⟨rfl, rfl⟩ | ⟨rfl, rfl⟩ | ⟨rfl, rfl⟩ |
    ⟨rfl, rfl⟩ := h <;> exact ⟨rfl, dvd_length_fromSlice t _ v⟩

/-! ## Metadata -/

/-- **The fields in front of a tail**: whatever follows the bitmap, its last byte is the level, and
the bytes before it are ids. -/
theorem metadata_fields {m : Metadata} (hname : 0 ∉ MetadataCodec.asBytes m.distance)
    (hR : R.Faithful m.items) (tail : List UInt8) :
    MetadataCodec.bytesDecode R (MetadataCodec.asBytes m.distance ++ ([0] ++
        (u32ToBeBytes m.dimensions ++ (u32ToBeBytes (R.serializedSize m.items).toUInt32 ++
          (R.serialize m.items ++ tail))))) =
      .ok { m with
        entryPoints := readNeU32s (tail.take (tail.length - 1))
        maxLevel := tail.getLast?.getD 0 } := by
  have hsize : (R.serializedSize m.items).toUInt32.toNat = R.serializedSize m.items :=
    Nat.mod_eq_of_lt hR.size
  have hfront : ∀ rest, sliceFrom (MetadataCodec.asBytes m.distance ++ ([0] ++ rest))
      ((MetadataCodec.asBytes m.distance).length + 1) = .ok rest := by
    intro rest
    rw [← List.append_assoc]
    exact sliceFrom_append (by rw [List.length_append]; rfl) rest
  have hfour : ∀ (x : UInt32) (rest : List UInt8),
      sliceFrom (u32ToBeBytes x ++ rest) 4 = .ok rest := fun x rest => sliceFrom_append rfl rest
  simp only [MetadataCodec.bytesDecode, fromBytesUntilNul_append hname, toStr_asBytes, hfront,
    readBeU32_append, hfour, hsize, sliceTo_append hR.length, sliceFrom_append hR.length,
    hR.deserialize, ok_bind, pure_bind]
  cases h : tail.getLast? with
  | none =>
    obtain rfl := List.getLast?_eq_none_iff.mp h
    rfl
  | some maxLevel => rfl

/-- **The metadata is read back**, all five fields. -/
theorem metadata_roundTrip {m : Metadata} (hname : 0 ∉ MetadataCodec.asBytes m.distance)
    (hR : R.Faithful m.items) :
    MetadataCodec.bytesDecode R (MetadataCodec.bytesEncode R m) = .ok m := by
  have hfields := metadata_fields hname hR (m.entryPoints.flatMap u32ToNeBytes ++ [m.maxLevel])
  rw [List.length_append, List.length_singleton, Nat.add_sub_cancel, List.take_left,
    readNeU32s_flatMap, List.getLast?_append_cons] at hfields
  simp only [MetadataCodec.bytesEncode, List.append_assoc]
  exact hfields

/-- **A record without its last two fields** is read as one without entry points, on level 0. -/
theorem metadata_legacy {m : Metadata} (hname : 0 ∉ MetadataCodec.asBytes m.distance)
    (hR : R.Faithful m.items) :
    MetadataCodec.bytesDecode R ((MetadataCodec.bytesEncode R m).take
        ((MetadataCodec.bytesEncode R m).length - (4 * m.entryPoints.length + 1))) =
      .ok { m with entryPoints := [], maxLevel := 0 } := by
  have hids : (m.entryPoints.flatMap u32ToNeBytes).length = 4 * m.entryPoints.length := by
    simp [List.length_flatMap, u32ToNeBytes, Nat.mul_comm]
  have htail : (m.entryPoints.flatMap u32ToNeBytes ++ [m.maxLevel]).length =
      4 * m.entryPoints.length + 1 := by
    rw [List.length_append, hids, List.length_singleton]
  rw [MetadataCodec.bytesEncode, List.append_assoc _ _ [m.maxLevel], List.length_append, htail,
    Nat.add_sub_cancel, List.take_left]
  have hfields := metadata_fields hname hR []
  rw [List.append_nil] at hfields
  simp only [List.append_assoc]
  exact hfields

/-- **Values are read back.** For every header size and vector codec: every node of these sizes is
read back from its bytes, tag, header and vector or set of links; and all the metadata whose
distance has no NUL in its name is, all five fields. -/
theorem values_roundTrip (R : Roaring) :
    (∀ (F : NodeFormat) (n : Node), Fits F n → (∀ s ∈ bitmaps n, R.Faithful s) →
      NodeCodec.bytesDecode R F (NodeCodec.bytesEncode R n) = .ok n) ∧
    ∀ m : Metadata, 0 ∉ MetadataCodec.asBytes m.distance → R.Faithful m.items →
      MetadataCodec.bytesDecode R (MetadataCodec.bytesEncode R m) = .ok m :=
  ⟨fun _ _ => node_roundTrip, fun _ => metadata_roundTrip⟩

/-- The metadata of an index of two items, the links of one of them, and the other one: a header of
4 bytes and a vector of two words. -/
theorem values_roundTrip_two :
    let m : Metadata := ⟨2, {1, 42}, "cosine", [42], 3⟩
    let item : Item := ⟨F32.one.toNeBytes, [F32.zero, F32.minusOne].flatMap F32.toNeBytes⟩
    MetadataCodec.bytesDecode oneContainer (MetadataCodec.bytesEncode oneContainer m) = .ok m ∧
      NodeCodec.bytesDecode oneContainer ⟨4, .f32⟩
        (NodeCodec.bytesEncode oneContainer (.links {1, 42})) = .ok (.links {1, 42}) ∧
      (NodeCodec.bytesEncode oneContainer (.item item)).length = 13 ∧
      NodeCodec.bytesDecode oneContainer ⟨4, .f32⟩
        (NodeCodec.bytesEncode oneContainer (.item item)) = .ok (.item item) := by
  obtain ⟨hnode, hmetadata⟩ := values_roundTrip oneContainer
  refine ⟨hmetadata _ (by decide +kernel) faithful_oneContainer, hnode _ _ trivial ?_,
    by decide +kernel, hnode _ _ ⟨rfl, by decide⟩ ?_⟩
  · rintro s rfl
    exact faithful_oneContainer
  · rintro s ⟨⟩

/-! ## Panics -/

/-- What `NodeCodec` takes for granted: there is a header after the tag of an item, and a bitmap
after the tag of links. -/
def NodeComplete (R : Roaring) (F : NodeFormat) (bytes : List UInt8) : Prop :=
  (∀ rest, bytes = NODE_TAG :: rest → F.headerSize ≤ rest.length) ∧
    ∀ rest, bytes = LINKS_TAG :: rest → (R.deserialize rest).isSome

/-- An item without its header. -/
theorem bytesDecode_short {rest : List UInt8} (h : rest.length < F.headerSize) :
    NodeCodec.bytesDecode R F (NODE_TAG :: rest) = .error (.panic .splitAt) := by
  rw [NodeCodec.bytesDecode, if_pos rfl, splitAt, if_neg (by omega)]
  rfl

/-- Links without a bitmap. -/
theorem bytesDecode_notBitmap {rest : List UInt8} (h : R.deserialize rest = none) :
    NodeCodec.bytesDecode R F (LINKS_TAG :: rest) = .error (.panic .unwrapBitmap) := by
  rw [NodeCodec.bytesDecode, if_neg (by decide), if_pos rfl, h]

/-- **`NodeCodec` does not panic** exactly on complete nodes and on other records. -/
theorem bytesDecode_noPanic_iff (R : Roaring) (F : NodeFormat) (bytes : List UInt8) :
    (∀ p, NodeCodec.bytesDecode R F bytes ≠ .error (.panic p)) ↔ NodeComplete R F bytes := by
  constructor
  · intro h
    refine ⟨?_, ?_⟩
    · rintro rest rfl
      by_contra hshort
      exact h _ (bytesDecode_short (not_le.mp hshort))
    · rintro rest rfl
      by_contra hnone
      exact h _ (bytesDecode_notBitmap (Option.not_isSome_iff_eq_none.mp hnone))
  · rintro ⟨hnode, hlinks⟩ p hp
    cases bytes with
    | nil => cases hp
    | cons tag rest =>
      rw [NodeCodec.bytesDecode] at hp
      split_ifs at hp with hitem hlink
      · subst hitem
        rw [splitAt, if_pos (hnode rest rfl), ok_bind] at hp
        unfold VectorCodec.fromBytes at hp
        dsimp only at hp
        split_ifs at hp <;> cases hp
      · subst hlink
        obtain ⟨links, hlinks⟩ := Option.isSome_iff_exists.mp (hlinks rest rfl)
        rw [hlinks] at hp
        cases hp
      · cases hp

theorem decodeAsNode_eq_panic_iff {v : Value} :
    decodeAsNode R F v = .panic ↔ ¬ NodeComplete R F (v.bytesEncode R) := by
  rw [← bytesDecode_noPanic_iff, decodeAsNode]
  simp only [ne_eq, not_forall, not_not]
  cases h : NodeCodec.bytesDecode R F (v.bytesEncode R) with
  | ok n => simp
  | error e => cases e <;> simp

/-! ## Conversions -/

section conversion

variable {w : Writer} {env : Environment} {D : Distance} {decode : Value → Decoded}

theorem avoids_check (site : Site) : Avoids (.panic .nodeDecode) (RwTxn.check env site) := by
  unfold RwTxn.check
  split_ifs
  · exact .throw (by simp)
  · exact .pure _

theorem avoids_putStones {index : UInt16} : ∀ {l : List ItemId} {n : Nat},
    Avoids (.panic .nodeDecode) (putStones env index n l)
  | [], _ => .pure _
  | _ :: _, _ => .bind (avoids_check _) fun _ => .bind (.modify _) fun _ => avoids_putStones

/-- The loop panics in the decoder on no other entries. -/
theorem avoids_arroyLoop {onDiskDim : Nat} : ∀ {entries : List (Key × Value)} {n : Nat}
    {newItems : RoaringBitmap}, (∀ e ∈ entries, decode e.2 ≠ .panic) →
      Avoids (.panic .nodeDecode) (arroyLoop env D decode onDiskDim n entries newItems)
  | [], _, _, _ => .bind (avoids_check _) fun _ => .pure _
  | (k, v) :: entries, n, newItems, h => by
    have hrest : ∀ newItems, Avoids (.panic .nodeDecode)
        (arroyLoop env D decode onDiskDim (n + 1) entries newItems) := fun newItems =>
      avoids_arroyLoop fun e he => h e (List.mem_cons_of_mem _ he)
    unfold arroyLoop
    refine .bind (avoids_check _) fun _ => ?_
    split
    · rename_i hpanic
      exact absurd hpanic (h _ List.mem_cons_self)
    · split_ifs
      · exact .bind (.throw (by simp)) fun _ => hrest _
      · exact hrest _
    · exact .bind (avoids_check _) fun _ => .bind (.modify _) fun _ => hrest _

/-- **The loop panics on the first entry the decoder panics on**, if no call of the database fails
and no item before it has another dimension. -/
theorem arroyLoop_panics {onDiskDim : Nat} (henv : ∀ site, env.fault site = false) :
    ∀ {entries : List (Key × Value)} {n : Nat} {newItems : RoaringBitmap},
      (∃ e ∈ entries, decode e.2 = .panic) →
      (∀ e ∈ entries, ∀ item, decode e.2 = .node (.item item) →
        D.codec.len item.vector = onDiskDim) →
        ∀ db, ∃ db', arroyLoop env D decode onDiskDim n entries newItems db =
          .error (.panic .nodeDecode) db'
  | [], _, _, h, _, _ => by
    obtain ⟨e, he, -⟩ := h
    cases he
  | (k, v) :: entries, n, newItems, h, hdim, db => by
    have hcheck : ∀ {α : Type} (site : Site) (f : Unit → RwTxn α) (db : Database),
        (RwTxn.check env site >>= f) db = f () db := by
      intro α site f db
      rw [bind_eq, RwTxn.check_of_no_fault (henv site)]
    have hrest : decode v ≠ .panic → ∀ newItems db, ∃ db',
        arroyLoop env D decode onDiskDim (n + 1) entries newItems db =
          .error (.panic .nodeDecode) db' := by
      intro hv newItems db
      obtain ⟨e, he, hpanic⟩ := h
      obtain rfl | he := List.mem_cons.mp he
      · exact absurd hpanic hv
      · exact arroyLoop_panics henv ⟨e, he, hpanic⟩
          (fun e he => hdim e (List.mem_cons_of_mem _ he)) db
    -- every other entry is deleted
    have hother : decode v ≠ .panic → ∃ db', (do
        RwTxn.check env (.delEntry n)
        modify fun db => db.delete k
        arroyLoop env D decode onDiskDim (n + 1) entries newItems : RwTxn RoaringBitmap) db =
          .error (.panic .nodeDecode) db' := by
      intro hv
      rw [hcheck]
      exact hrest hv _ _
    unfold arroyLoop
    rw [hcheck]
    cases hv : decode v with
    | panic => exact ⟨db, by cases k.node.mode <;> rfl⟩
    | error =>
      have hother := hother (by rw [hv]; simp)
      cases k.node.mode <;> exact hother
    | node node =>
      have hne : decode v ≠ .panic := by
        rw [hv]
        simp
      have hother := hother hne
      cases node with
      | links _ => cases k.node.mode <;> exact hother
      | item item =>
        have hlen := hdim _ List.mem_cons_self item hv
        cases k.node.mode with
        | item =>
          dsimp only
          rw [if_neg (not_not.mpr hlen)]
          exact hrest hne _ db
        | metadata | updated | links => exact hother

/-- **When decoding does not panic.** For every header size, vector codec and byte string,
`NodeCodec` returns a node or an error exactly when a header follows the tag of an item, and a
bitmap the tag of links. A conversion of an index with such records only does not panic in the
decoder, whatever the databases and the calls that fail. -/
theorem noPanic_iff (R : Roaring) (F : NodeFormat) :
    (∀ bytes : List UInt8, (∀ p, NodeCodec.bytesDecode R F bytes ≠ .error (.panic p)) ↔
      (∀ rest, bytes = NODE_TAG :: rest → F.headerSize ≤ rest.length) ∧
        ∀ rest, bytes = LINKS_TAG :: rest → (R.deserialize rest).isSome) ∧
    ∀ (w : Writer) (env : Environment) (D : Distance) (db : Database),
      (∀ e ∈ db.prefixIter (Prefix.all w.index), NodeComplete R F (e.2.bytesEncode R)) →
        ∀ db', w.prepareArroyConversion env D (decodeAsNode R F) db ≠
          .error (.panic .nodeDecode) db' := by
  refine ⟨bytesDecode_noPanic_iff R F, fun w env D db h db' => ?_⟩
  have hentries : ∀ e ∈ db.prefixIter (Prefix.all w.index), decodeAsNode R F e.2 ≠ .panic :=
    fun e he hpanic => decodeAsNode_eq_panic_iff.mp hpanic (h e he)
  exact Avoids.bind (avoids_arroyLoop hentries) (fun _ => avoids_putStones) db db'

/-- An item of one coordinate, and a record of a version: its first byte is the tag of an item, and
what follows a header is no vector. -/
theorem noPanic_version :
    (∀ p, NodeCodec.bytesDecode oneContainer ⟨4, .f32⟩ (VersionCodec.bytesEncode ⟨0, 1, 3⟩) ≠
        .error (.panic p)) ∧
      ∀ db', (⟨0, 1⟩ : Writer).prepareArroyConversion .oneLevel manhattan
          (decodeAsNode oneContainer ⟨4, .f32⟩)
          ((∅ : Database).put (Key.item 0 7) (.node (.item (Item.ofVector manhattan [F32.one])))) ≠
        .error (.panic .nodeDecode) db' := by
  obtain ⟨hbytes, hconversion⟩ := noPanic_iff oneContainer ⟨4, .f32⟩
  refine ⟨(hbytes _).mpr ⟨?_, ?_⟩, hconversion _ _ _ _ ?_⟩
  · intro rest hrest
    cases hrest
    decide
  · intro rest hrest
    cases hrest
  · intro e he
    have hall : ∀ e ∈ ((∅ : Database).put (Key.item 0 7)
        (.node (.item (Item.ofVector manhattan [F32.one])))).prefixIter (Prefix.all 0),
        e.2 = .node (.item (Item.ofVector manhattan [F32.one])) := by decide +kernel
    rw [hall e he]
    refine ⟨fun rest hrest => ?_, fun rest hrest => ?_⟩
    · cases hrest
      decide
    · cases hrest

/-- **Stones are no nodes**: the bytes of both make `NodeCodec` panic, the one of an item that is
updated because there is no header, the one of an item that is removed because there is no bitmap.
So does a conversion of an index with a stone. -/
theorem stones_panic :
    NodeCodec.bytesDecode oneContainer ⟨4, .f32⟩ (UpdateStatusCodec.bytesEncode .updated) =
        .error (.panic .splitAt) ∧
      NodeCodec.bytesDecode oneContainer ⟨4, .f32⟩ (UpdateStatusCodec.bytesEncode .removed) =
        .error (.panic .unwrapBitmap) ∧
      ∃ db', (⟨0, 1⟩ : Writer).prepareArroyConversion .oneLevel manhattan
          (decodeAsNode oneContainer ⟨4, .f32⟩)
          ((∅ : Database).put (Key.updated 0 7) (.status .updated)) =
        .error (.panic .nodeDecode) db' :=
  ⟨rfl, rfl, ⟨_, rfl⟩⟩

/-- **A conversion panics on an incomplete record**, if no call of the database fails and the items
have the dimension of the writer. -/
theorem conversion_panics (henv : ∀ site, env.fault site = false) {db : Database}
    (hpanic : ∃ e ∈ db.prefixIter (Prefix.all w.index), ¬ NodeComplete R F (e.2.bytesEncode R))
    (hdim : ∀ e ∈ db.prefixIter (Prefix.all w.index), ∀ item,
      decodeAsNode R F e.2 = .node (.item item) → D.codec.len item.vector =
        (w.dimensions + D.codec.wordSize - 1) / D.codec.wordSize * D.codec.wordSize) :
    ∃ db', w.prepareArroyConversion env D (decodeAsNode R F) db =
      .error (.panic .nodeDecode) db' := by
  obtain ⟨e, he, hincomplete⟩ := hpanic
  obtain ⟨db', hloop⟩ := @arroyLoop_panics _ _ _ _ henv _ 0 ∅
    ⟨e, he, decodeAsNode_eq_panic_iff.mpr hincomplete⟩ hdim db
  refine ⟨db', ?_⟩
  show (arroyLoop env D (decodeAsNode R F) _ 0 (db.prefixIter (Prefix.all w.index)) ∅ >>= _) db = _
  rw [bind_eq, hloop]

end conversion

end Hannoy.Codec
