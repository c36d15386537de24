import Hannoy.Model.Writer

/-!
# The builder (`writer.rs:26-259, 513-519`)

A builder keeps the options of a writer's builds from one call to the next. `force_rebuild` turns
`relink_all_items` on before it calls the writer, and off once the writer has returned.
-/

namespace Hannoy

open Hannoy.Library

/-- The options available when configuring the hannoy database. -/
structure HannoyBuilder where
  writer : Writer
  inner : BuildOption

/-- `Writer::builder` (`writer.rs:513-519`). -/
def Writer.builder (w : Writer) : HannoyBuilder := ⟨w, BuildOption.default⟩

namespace HannoyBuilder

variable (D : Distance) (M M0 : Nat) (env : Environment) (b : HannoyBuilder)

/-- `cancel` (`writer.rs:97-100`). -/
def cancel (cancel : Probe → Bool) : HannoyBuilder :=
  { b with inner := { b.inner with cancel } }

/-- `ef_construction` (`writer.rs:163-166`). -/
def efConstruction (efConstruction : Nat) : HannoyBuilder :=
  { b with inner := { b.inner with efConstruction } }

/-- `alpha` (`writer.rs:186-189`). -/
def alpha (alpha : F32) : HannoyBuilder :=
  { b with inner := { b.inner with alpha } }

/-- `build` (`writer.rs:215-220`), which leaves the builder as it is. -/
def build : RwTxn Unit := b.writer.build D M M0 env b.inner

/-- `force_rebuild` (`writer.rs:246-259`): what becomes of the builder, and of the database. -/
def forceRebuild (db : Database) : HannoyBuilder × EStateM.Result Failure Database Unit :=
  -- use this option to mark all nodes as updated
  let b := { b with inner := { b.inner with relinkAllItems := true } }
  match b.writer.forceRebuild D M M0 env b.inner db with
  | .ok u db => ({ b with inner := { b.inner with relinkAllItems := false } }, .ok u db)
  | .error e db => (b, .error e db)

end HannoyBuilder

end Hannoy
