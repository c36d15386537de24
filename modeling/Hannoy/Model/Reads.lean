import Hannoy.Model.Reader

/-!
# Reads around a search (`reader.rs`, `writer.rs`)

What a writer tells of the stored items, and the check of a reader on the graph it was opened on.

* `Reader.assertValidity`: the assertions of `assert_validity`, as one answer.
-/

namespace Hannoy

variable (D : Distance) (db : Database)

namespace Writer

variable (w : Writer)

/-- `iter` (`writer.rs:457-459`). -/
def iter : Except Failure (List (ItemId × List F32)) := db.itemIter D w.index w.dimensions

/-- `is_empty` (`writer.rs:418-420`). -/
def isEmpty : Bool := db.itemIterIsNone w.index

end Writer

namespace Reader

variable (r : Reader)

/-- The link sets under the prefix of `assert_validity`: an entry that is no links node is
unreachable. -/
def linksOfEntry (e : Key × Value) : Except Failure (ItemId × RoaringBitmap) :=
  match e.2 with
  | .node (.links links) => .ok (e.1.node.item, links)
  | .node (.item _) => .error (.panic .unreachable)
  | _ => .error (.err .heed)

/-- `assert_validity` (`reader.rs:905-948`): whether its assertions hold. -/
def assertValidity : Except Failure Bool := do
  -- 1. Compare items in db with bitmap from metadata
  let itemIds : RoaringBitmap :=
    ((db.prefixIter (Prefix.item r.index)).map fun e => e.1.node.item).toFinset
  -- 2. Check links are valid
  let links ← (db.prefixIter (Prefix.links r.index)).mapM linksOfEntry
  let linkIds : RoaringBitmap := (links.map Prod.fst).toFinset
  pure (itemIds = r.items && links.all (fun e => e.2 ⊆ itemIds) &&
    -- each item should have one or more links
    itemIds = linkIds &&
    -- 3. Check entry points
    r.entryPoints.all fun ep => ep ∈ itemIds)

end Reader

end Hannoy
