import Hannoy.Library.Compare
import Hannoy.Model.Codec
import Hannoy.Model.Convert

/-!
# Bytes of keys and values (`key.rs`, `node.rs`, `metadata.rs`, `update_status.rs`, `version.rs`)

The codecs between the values of the database and the bytes LMDB stores, on a little-endian target,
and the decoder of keys. A decoder returns a value or an error, or it panics.

* `Roaring` is what the codecs use of the crate `roaring`.
* `NodeFormat` is what `NodeCodec<D>` takes from `D`: the size of its header and its vector codec.
* `Value.bytesEncode`: every value is stored with its own codec.
* `decodeAsNode`: what `NodeCodec` makes of whatever is stored.
* `KeyCodec.bytesDecode` reads a key; `Database.stored` is what LMDB holds and walks over.
-/

namespace Hannoy

/-- What the codecs use of the crate `roaring`. -/
structure Roaring where
  /-- `serialize_into`. -/
  serialize : RoaringBitmap → List UInt8
  /-- `deserialize_from`. -/
  deserialize : List UInt8 → Option RoaringBitmap
  /-- `serialized_size`. -/
  serializedSize : RoaringBitmap → Nat

/-- What is promised for a bitmap: it is read back, its size is known, and the size is a `u32`,
since there are at most `2 ^ 16` containers of at most `2 ^ 13` bytes each. -/
structure Roaring.Faithful (R : Roaring) (s : RoaringBitmap) : Prop where
  deserialize : R.deserialize (R.serialize s) = some s
  length : (R.serialize s).length = R.serializedSize s
  size : R.serializedSize s < 2 ^ 32

/-- The errors of the decoders. -/
inductive DecodeError where
  /-- `InvalidNodeDecoding`. -/
  | invalidNode (unknownTag : Option UInt8)
  /-- `SizeMismatch`. -/
  | sizeMismatch (vectorCodec : String) (rem : Nat)
  /-- `InvalidUpdateStatusDecoding`. -/
  | invalidUpdateStatus (unknownTag : List UInt8)
  /-- `FromBytesUntilNulError`. -/
  | noNul
  /-- `Utf8Error`. -/
  | notUtf8
  /-- The error of `deserialize_from`. -/
  | bitmap
  deriving DecidableEq, Repr

/-- The panics of the decoders. -/
inductive DecodePanic where
  /-- `split_at` beyond the end. -/
  | splitAt
  /-- `unwrap` of a bitmap. -/
  | unwrapBitmap
  /-- A slice or a read beyond the end. -/
  | outOfBounds
  deriving DecidableEq, Repr

/-- How a decoder can fail. -/
inductive DecodeFailure where
  | err (e : DecodeError)
  | panic (p : DecodePanic)
  deriving DecidableEq, Repr

/-! ## Slices -/

/-- `bytes.split_at(mid)`. -/
def splitAt (bytes : List UInt8) (mid : Nat) : Except DecodeFailure (List UInt8 × List UInt8) :=
  if mid ≤ bytes.length then .ok (bytes.take mid, bytes.drop mid) else .error (.panic .splitAt)

/-- `&bytes[start..]`. -/
def sliceFrom (bytes : List UInt8) (start : Nat) : Except DecodeFailure (List UInt8) :=
  if start ≤ bytes.length then .ok (bytes.drop start) else .error (.panic .outOfBounds)

/-- `&bytes[..stop]`. -/
def sliceTo (bytes : List UInt8) (stop : Nat) : Except DecodeFailure (List UInt8) :=
  if stop ≤ bytes.length then .ok (bytes.take stop) else .error (.panic .outOfBounds)

/-- `BigEndian::read_u32`. -/
def readBeU32 : List UInt8 → Except DecodeFailure UInt32
  | b0 :: b1 :: b2 :: b3 :: _ => .ok (UInt32.ofNat
      (2 ^ 24 * b0.toNat + 2 ^ 16 * b1.toNat + 2 ^ 8 * b2.toNat + b3.toNat))
  | _ => .error (.panic .outOfBounds)

/-- `to_ne_bytes` of an id. -/
def u32ToNeBytes (x : UInt32) : List UInt8 :=
  [x.toUInt8, (x >>> 8).toUInt8, (x >>> 16).toUInt8, (x >>> 24).toUInt8]

/-- `chunks_exact(4).map(NativeEndian::read_u32)`. -/
def readNeU32s : List UInt8 → List UInt32
  | b0 :: b1 :: b2 :: b3 :: rest =>
    UInt32.ofNat (b0.toNat + 2 ^ 8 * b1.toNat + 2 ^ 16 * b2.toNat + 2 ^ 24 * b3.toNat) ::
      readNeU32s rest
  | _ => []

/-! ## Nodes -/

/-- What `NodeCodec<D>` takes from `D`. -/
structure NodeFormat where
  /-- `size_of::<D::Header>()`. -/
  headerSize : Nat
  codec : VectorCodec
  deriving DecidableEq, Repr

/-- The bytes of a word of the codec, and the name its errors give it. -/
def VectorCodec.word : VectorCodec → Nat × String
  | .f32 => (4, "f32")
  | .binaryQuantized => (8, "binary quantized")
  | .binary => (8, "binary")

/-- `from_bytes` of a codec. -/
def VectorCodec.fromBytes (c : VectorCodec) (bytes : List UInt8) :
    Except DecodeFailure (List UInt8) :=
  let rem := bytes.length % c.word.1
  if rem = 0 then .ok bytes else .error (.err (.sizeMismatch c.word.2 rem))

def NODE_TAG : UInt8 := 0
def LINKS_TAG : UInt8 := 1

namespace NodeCodec

/-- `bytes_encode` (`node.rs:130-145`). -/
def bytesEncode (R : Roaring) : Node → List UInt8
  | .item item => NODE_TAG :: (item.header ++ item.vector)
  | .links links => LINKS_TAG :: R.serialize links

/-- `bytes_decode` (`node.rs:150-173`). -/
def bytesDecode (R : Roaring) (F : NodeFormat) : List UInt8 → Except DecodeFailure Node
  | [] => .error (.err (.invalidNode none))
  | tag :: bytes =>
    if tag = NODE_TAG then do
      let (headerBytes, remaining) ← splitAt bytes F.headerSize
      let vector ← F.codec.fromBytes remaining
      pure (.item ⟨headerBytes, vector⟩)
    else if tag = LINKS_TAG then
      match R.deserialize bytes with
      | some links => .ok (.links links)
      | none => .error (.panic .unwrapBitmap)
    else .error (.err (.invalidNode (some tag)))

end NodeCodec

/-! ## Metadata -/

namespace MetadataCodec

/-- `distance.as_bytes()`. -/
def asBytes (distance : String) : List UInt8 := distance.toByteArray.data.toList

/-- `to_str`. -/
def toStr (bytes : List UInt8) : Except DecodeFailure String :=
  match String.fromUTF8? ⟨bytes.toArray⟩ with
  | some s => .ok s
  | none => .error (.err .notUtf8)

/-- `CStr::from_bytes_until_nul`, without the NUL. -/
def fromBytesUntilNul (bytes : List UInt8) : Except DecodeFailure (List UInt8) :=
  if (0 : UInt8) ∈ bytes then .ok (bytes.takeWhile (· ≠ 0)) else .error (.err .noNul)

/-- `bytes_encode` (`metadata.rs:25-45`). -/
def bytesEncode (R : Roaring) (m : Metadata) : List UInt8 :=
  asBytes m.distance ++ [0] ++ u32ToBeBytes m.dimensions ++
    u32ToBeBytes (R.serializedSize m.items).toUInt32 ++ R.serialize m.items ++
    m.entryPoints.flatMap u32ToNeBytes ++ [m.maxLevel]

/-- `bytes_decode` (`metadata.rs:51-72`). -/
def bytesDecode (R : Roaring) (bytes : List UInt8) : Except DecodeFailure Metadata := do
  let distance ← toStr (← fromBytesUntilNul bytes)
  let bytes ← sliceFrom bytes ((asBytes distance).length + 1)
  let dimensions ← readBeU32 bytes
  let bytes ← sliceFrom bytes 4
  let itemsSize := (← readBeU32 bytes).toNat
  let bytes ← sliceFrom bytes 4
  let items ← match R.deserialize (← sliceTo bytes itemsSize) with
    | some items => pure items
    | none => throw (.err .bitmap)
  let bytes ← sliceFrom bytes itemsSize
  match bytes.getLast? with
  | none => pure ⟨dimensions, items, distance, [], 0⟩
  | some maxLevel =>
    pure ⟨dimensions, items, distance, readNeU32s (bytes.take (bytes.length - 1)), maxLevel⟩

end MetadataCodec

/-! ## Stones and versions -/

namespace UpdateStatusCodec

/-- `bytes_encode` (`update_status.rs:18-20`). -/
def bytesEncode : UpdateStatus → List UInt8
  | .updated => [0]
  | .removed => [1]

/-- `bytes_decode` (`update_status.rs:26-32`). -/
def bytesDecode : List UInt8 → Except DecodeFailure UpdateStatus
  | [0] => .ok .updated
  | [1] => .ok .removed
  | unknownTag => .error (.err (.invalidUpdateStatus unknownTag))

end UpdateStatusCodec

namespace VersionCodec

/-- `bytes_encode` (`version.rs:37-46`). -/
def bytesEncode (v : Version) : List UInt8 :=
  u32ToBeBytes v.major ++ u32ToBeBytes v.minor ++ u32ToBeBytes v.patch

/-- `bytes_decode` (`version.rs:52-60`). -/
def bytesDecode (bytes : List UInt8) : Except DecodeFailure Version := do
  let major ← readBeU32 bytes
  let bytes ← sliceFrom bytes 4
  let minor ← readBeU32 bytes
  let bytes ← sliceFrom bytes 4
  let patch ← readBeU32 bytes
  pure ⟨major, minor, patch⟩

end VersionCodec

/-! ## Values -/

/-- Every value is stored with its own codec. -/
def Value.bytesEncode (R : Roaring) : Value → List UInt8
  | .node n => NodeCodec.bytesEncode R n
  | .status s => UpdateStatusCodec.bytesEncode s
  | .metadata m => MetadataCodec.bytesEncode R m
  | .version v => VersionCodec.bytesEncode v
  | .foreign bytes => bytes

/-- What `NodeCodec` makes of the bytes of a value. -/
def decodeAsNode (R : Roaring) (F : NodeFormat) (v : Value) : Writer.Decoded :=
  match NodeCodec.bytesDecode R F (v.bytesEncode R) with
  | .ok n => .node n
  | .error (.err _) => .error
  | .error (.panic _) => .panic

/-! ## Keys -/

/-- How the decoder of keys can fail. -/
inductive KeyFailure where
  /-- The error of `NodeMode::try_from`. -/
  | mode (message : String)
  | read (e : DecodeFailure)
  deriving DecidableEq, Repr

instance : MonadLift (Except DecodeFailure) (Except KeyFailure) := ⟨Except.mapError .read⟩

/-- `NodeMode::try_from` (`node_id.rs:26-34`). -/
def NodeMode.tryFrom (v : UInt8) : Except KeyFailure NodeMode :=
  if v = NodeMode.item.toU8 then .ok .item
  else if v = NodeMode.links.toU8 then .ok .links
  else if v = NodeMode.updated.toU8 then .ok .updated
  else if v = NodeMode.metadata.toU8 then .ok .metadata
  else .error (.mode s!"Could not convert {v} as a `NodeMode`.")

/-- `BigEndian::read_u16`. -/
def readBeU16 : List UInt8 → Except DecodeFailure UInt16
  | b0 :: b1 :: _ => .ok (UInt16.ofNat (2 ^ 8 * b0.toNat + b1.toNat))
  | _ => .error (.panic .outOfBounds)

/-- `bytes[0]`. -/
def firstByte : List UInt8 → Except DecodeFailure UInt8
  | b :: _ => .ok b
  | [] => .error (.panic .outOfBounds)

/-- `KeyCodec::bytes_decode` (`key.rs:71-81`). -/
def KeyCodec.bytesDecode (bytes : List UInt8) : Except KeyFailure Key := do
  let index ← readBeU16 bytes
  let bytes ← sliceFrom bytes 2
  let mode ← NodeMode.tryFrom (← firstByte bytes)
  let bytes ← sliceFrom bytes 1
  let item ← readBeU32 bytes
  let bytes ← sliceFrom bytes 4
  let layer ← firstByte bytes
  pure ⟨index, ⟨mode, item, layer⟩⟩

/-- A mode compares as its discriminant. -/
instance : Ord NodeMode := ⟨fun a b => compare a.toU8 b.toU8⟩

/-- The derived order of `NodeId`: field by field. -/
instance : Ord NodeId :=
  ⟨fun a b => (compare a.mode b.mode).then ((compare a.item b.item).then (compare a.layer b.layer))⟩

/-- The entries as LMDB holds them, under the bytes of their keys. -/
def Database.stored (db : Database) : List (List UInt8 × Value) :=
  db.toList.map fun e => (e.1.bytesEncode, e.2)

end Hannoy
