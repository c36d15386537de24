import Hannoy.Model.Basic
import Mathlib.Data.Prod.Lex

/-!
# Keys and prefixes (`key.rs`, `node_id.rs`)

A key is `(index, NodeId)`, a `NodeId` is `(mode, item, layer)`. The order of keys is the
lexicographic one, `NodeId`'s derived order with the index in front. `KeyCodec` and
`PrefixCodec` are the byte encodings LMDB sees; LMDB iterates over the keys whose bytes start with
the bytes of a prefix, and `isPrefixOf_bytesEncode` says which keys these are: the ones with the
prefix's index and, when it has one, its mode.
-/

namespace Hannoy

/-- `NodeMode` (`node_id.rs:11-21`). -/
inductive NodeMode where
  | metadata
  | updated
  | links
  | item
  deriving DecidableEq, Repr

/-- `mode as u8`. -/
def NodeMode.toU8 : NodeMode → UInt8
  | .metadata => 0
  | .updated => 1
  | .links => 2
  | .item => 3

theorem NodeMode.toU8_injective : Function.Injective NodeMode.toU8 := by
  intro a b h
  cases a <;> cases b <;> first | rfl | exact absurd h (by decide)

/-- `NodeId` (`node_id.rs:37-46`). -/
structure NodeId where
  mode : NodeMode
  item : ItemId
  layer : LayerId
  deriving DecidableEq, Repr

/-- `Key` (`key.rs:18-23`). -/
structure Key where
  /-- The prefix specified by the user. -/
  index : UInt16
  node : NodeId
  deriving DecidableEq, Repr

namespace Key

/-- The fields of a key in the order they are compared in. -/
def toTuple (k : Key) : UInt16 ×ₗ UInt8 ×ₗ ItemId ×ₗ LayerId :=
  toLex (k.index, toLex (k.node.mode.toU8, toLex (k.node.item, k.node.layer)))

theorem toTuple_injective : Function.Injective toTuple := by
  rintro ⟨i, m, x, l⟩ ⟨i', m', x', l'⟩ h
  simp only [toTuple, EmbeddingLike.apply_eq_iff_eq, Prod.mk.injEq] at h
  obtain ⟨rfl, hm, rfl, rfl⟩ := h
  rw [NodeMode.toU8_injective hm]

instance : LinearOrder Key := LinearOrder.lift' toTuple toTuple_injective

instance transOrd : Std.TransOrd Key := inferInstance

instance : Std.LawfulEqOrd Key := ⟨fun h => compare_eq_iff_eq.mp h⟩

def metadata (index : UInt16) : Key := ⟨index, ⟨.metadata, 0, 0⟩⟩
def version (index : UInt16) : Key := ⟨index, ⟨.metadata, 1, 0⟩⟩
def updated (index : UInt16) (item : ItemId) : Key := ⟨index, ⟨.updated, item, 0⟩⟩
def item (index : UInt16) (item : ItemId) : Key := ⟨index, ⟨.item, item, 0⟩⟩
def links (index : UInt16) (item : ItemId) (layer : LayerId) : Key := ⟨index, ⟨.links, item, layer⟩⟩

end Key

/-- `Prefix` (`key.rs:84-91`): part of a key, to query with. -/
structure Prefix where
  index : UInt16
  mode : Option NodeMode
  deriving DecidableEq, Repr

namespace Prefix

def all (index : UInt16) : Prefix := ⟨index, none⟩
def item (index : UInt16) : Prefix := ⟨index, some .item⟩
def links (index : UInt16) : Prefix := ⟨index, some .links⟩
def updated (index : UInt16) : Prefix := ⟨index, some .updated⟩

end Prefix

/-! ## Encodings -/

/-- `u16::to_be_bytes`. -/
def u16ToBeBytes (x : UInt16) : List UInt8 := [(x >>> 8).toUInt8, x.toUInt8]

/-- `u32::to_be_bytes`. -/
def u32ToBeBytes (x : UInt32) : List UInt8 :=
  [(x >>> 24).toUInt8, (x >>> 16).toUInt8, (x >>> 8).toUInt8, x.toUInt8]

/-- `KeyCodec::bytes_encode` (`key.rs:57-65`). -/
def Key.bytesEncode (k : Key) : List UInt8 :=
  u16ToBeBytes k.index ++ [k.node.mode.toU8] ++ u32ToBeBytes k.node.item ++ [k.node.layer]

/-- `PrefixCodec::bytes_encode` (`key.rs:116-126`). -/
def Prefix.bytesEncode (p : Prefix) : List UInt8 :=
  u16ToBeBytes p.index ++
    (match p.mode with
     | some mode => [mode.toU8]
     | none => [])

theorem u16ToBeBytes_injective : Function.Injective u16ToBeBytes := by
  intro a b h
  simp only [u16ToBeBytes, List.cons.injEq, and_true] at h
  obtain ⟨hhi, hlo⟩ := h
  have hhi' := congrArg UInt8.toNat hhi
  have hlo' := congrArg UInt8.toNat hlo
  simp only [UInt16.toNat_toUInt8, UInt16.toNat_shiftRight] at hhi' hlo'
  have ha := a.toNat_lt
  have hb := b.toNat_lt
  rw [← UInt16.toNat_inj]
  simp only [show (8 : UInt16).toNat % 16 = 8 from rfl, Nat.shiftRight_eq_div_pow] at hhi'
  omega

/-- The keys a prefix selects. -/
def Prefix.Selects (p : Prefix) (k : Key) : Prop :=
  k.index = p.index ∧ ∀ m ∈ p.mode, k.node.mode = m

/-- **The bytes of a prefix start the bytes of exactly the keys it selects.** -/
theorem isPrefixOf_bytesEncode (p : Prefix) (k : Key) :
    p.bytesEncode.isPrefixOf k.bytesEncode = true ↔ p.Selects k := by
  obtain ⟨i, m⟩ := p
  obtain ⟨j, ⟨mode, x, l⟩⟩ := k
  have hindex : u16ToBeBytes i = u16ToBeBytes j ↔ j = i :=
    ⟨fun h => (u16ToBeBytes_injective h).symm, fun h => by rw [h]⟩
  simp only [u16ToBeBytes, List.cons.injEq, and_true] at hindex
  cases m with
  | none =>
    simp only [Prefix.bytesEncode, Key.bytesEncode, u16ToBeBytes, Prefix.Selects, List.append_nil,
      List.cons_append, List.isPrefixOf, Bool.and_eq_true, beq_iff_eq, Option.mem_def,
      reduceCtorEq, false_implies, implies_true, and_true]
    exact hindex
  | some m =>
    have hmode : m.toU8 = mode.toU8 ↔ mode = m :=
      ⟨fun h => (NodeMode.toU8_injective h).symm, fun h => by rw [h]⟩
    simp only [Prefix.bytesEncode, Key.bytesEncode, u16ToBeBytes, Prefix.Selects, List.cons_append,
      List.nil_append, List.isPrefixOf, Bool.and_eq_true, beq_iff_eq, Option.mem_def,
      Option.some.injEq, forall_eq', and_true]
    rw [← and_assoc, hindex, hmode]

end Hannoy
