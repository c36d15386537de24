import Hannoy.Library.Encoded
import Hannoy.Model.Bytes

/-!
# The bytes of the database (`lib.rs`, `key.rs`, `node.rs`, `metadata.rs`)

What LMDB keeps, and how the code reads it: it asks for the bytes under the bytes of a key, or walks
over those under a prefix, and each place decodes with the codecs it names.

* `Lmdb`: byte strings under byte strings. `Holds` says that they are the entries of a `Database`.
* `get` and `iter`: the reads with a codec; a value a codec refuses is an error, or a panic.
-/

namespace Hannoy

open Hannoy.Library

/-- What LMDB keeps, in the order of the bytes of the keys. -/
abbrev Lmdb := Std.ExtTreeMap (List UInt8) (List UInt8)

namespace Lmdb

variable {α : Type}

/-- A value that cannot be decoded is an error of the database. -/
def decoded : Except DecodeFailure α → Except Failure α
  | .ok a => .ok a
  | .error (.err _) => .error (.err .heed)
  | .error (.panic _) => .error (.panic .nodeDecode)

/-- So is a key. -/
def decodedKey : Except KeyFailure α → Except Failure α
  | .ok a => .ok a
  | .error (.mode _) => .error (.err .heed)
  | .error (.read e) => decoded (.error e)

variable (db : Lmdb) (decode : List UInt8 → Except DecodeFailure α)

/-- `Database::get` with `KeyCodec` and the codec of the value. -/
def get (k : Key) : Except Failure (Option α) :=
  match db[k.bytesEncode]? with
  | none => .ok none
  | some bytes => (decoded (decode bytes)).map some

/-- `Database::prefix_iter` with `PrefixCodec`, the keys read with `KeyCodec`. -/
def iter (p : Prefix) : Except Failure (List (Key × α)) :=
  (seek Prod.fst p.bytesEncode db.toList).mapM fun e => do
    let k ← decodedKey (KeyCodec.bytesDecode e.1)
    let a ← decoded (decode e.2)
    pure (k, a)

/-- `DecodeIgnore`. -/
def decodeIgnore (_ : List UInt8) : Except DecodeFailure Unit := .ok ()

end Lmdb

/-- The bytes are those of the entries of `db`. -/
abbrev Database.HeldBy (R : Roaring) (db : Database) (l : Lmdb) : Prop :=
  Keeps Key.bytesEncode (Value.bytesEncode R) l db

end Hannoy
