import Hannoy.Library.Ascending
import Hannoy.Library.Budget
import Hannoy.Model.Database

/-!
# Prefetching the graph (`reader.rs:447-546`)

When a reader is opened, `prefetch_graph` advises the kernel of the pages it will need: the entries
on the upper layers first, then vectors that layer 0 leads to, until the memory budget is used up.

* The traversal of the database is a program that asks for a `Visit` wherever the code looks at its
  budget or calls `madvise_page`. It runs on fuel, one unit for each node it starts with and each
  stored item.
* `Visit.exec` keeps the account: what is left, the largest range so far, and the ranges advised.
* `Host` is what the code does not decide: the size of a page, the environment variable, where LMDB
  has mapped a value, and whether `madvise` succeeds.

Addresses are those of mapped memory, so their sums do not wrap.
-/

namespace Hannoy

open Hannoy.Library Hannoy.Library.Server

/-- What a call of `prefetch_graph` runs on. -/
structure Host where
  /-- `page_size::get()`. -/
  pageSize : Nat
  /-- The number that the environment variable is, if it is one. -/
  readerAvailableMemory : Option Nat
  /-- The address of the bytes stored under a key. -/
  address : Key → Nat
  /-- Whether `madvise` fails after so many successful calls. -/
  refuses : Nat → Bool
  /-- Whether `-=` panics on underflow, as in a debug build, or wraps. -/
  overflowChecks : Bool

/-- The pages `madvise_page` works out for a value. -/
structure PageRange where
  startPage : Nat
  endPage : Nat
  deriving DecidableEq, Repr

def PageRange.advisedSize (r : PageRange) : Nat := r.endPage - r.startPage

/-- A range that was advised, and the memory available then. -/
structure Advice where
  range : PageRange
  availableMemory : Nat
  deriving DecidableEq, Repr

/-- The variables `available_memory` and `largest_alloc`, and the ranges advised, in order. -/
structure Account where
  availableMemory : Nat
  largestAlloc : Nat
  advised : List Advice
  deriving DecidableEq, Repr

/-- Why a call ends early. -/
inductive Exit where
  /-- `return Ok(())`. -/
  | returned
  /-- `available_memory -= usage` underflows. -/
  | underflow
  | failed (e : Failure)
  deriving DecidableEq, Repr

/-- Where the traversal turns to the account. -/
inductive Visit where
  /-- `available_memory < largest_alloc` is tested. -/
  | check
  /-- `madvise_page` is called on the bytes at an address. -/
  | advise (startPtr : Nat)
  deriving DecidableEq, Repr

abbrev Traversal (α : Type) := Prog Visit Unit Exit α

section account

variable (host : Host) (itemLength : Nat)

/-- The range of `madvise_page` (`reader.rs:479-483`). -/
def pageRange (pageSize startPtr : Nat) : PageRange :=
  let endPtr := startPtr + itemLength
  ⟨startPtr - startPtr % pageSize, endPtr + (endPtr + pageSize - 1) % pageSize⟩

/-- `madvise_page` (`reader.rs:478-491`); no size when `madvise` fails. -/
def madvisePage (startPtr : Nat) : EStateM Exit Account (Option Nat) := do
  let account ← get
  let range := pageRange itemLength host.pageSize startPtr
  if host.refuses account.advised.length then pure none
  else do
    set { account with
      largestAlloc := max account.largestAlloc range.advisedSize
      advised := account.advised ++ [(⟨range, account.availableMemory⟩ : Advice)] }
    pure (some range.advisedSize)

/-- `available_memory -= usage`. -/
def subtractUsage (usage : Nat) : EStateM Exit Account Unit := do
  let account ← get
  if usage ≤ account.availableMemory then
    set { account with availableMemory := account.availableMemory - usage }
  else if host.overflowChecks then throw .underflow
  else set { account with availableMemory := (account.availableMemory + 2 ^ 64 - usage) % 2 ^ 64 }

def Visit.exec : Visit → EStateM Exit Account Unit
  | .check => do
    let account ← get
    if account.availableMemory < account.largestAlloc then throw .returned
  | .advise startPtr => do
    match ← madvisePage host itemLength startPtr with
    | some usage => subtractUsage host usage
    -- a warning is logged
    | none => throw .returned

end account

namespace Reader

variable (address : Key → Nat) (db : Database) (index : UInt16)

def check : Traversal Unit := .call .check .ret

def advise (k : Key) : Traversal Unit := .call (.advise (address k)) .ret

/-- One entry of the database, whatever its index and its kind (`reader.rs:497-511`). -/
def prefetchEntry (lvl : Nat) (added : RoaringBitmap) (e : Key × Value) :
    Traversal RoaringBitmap := do
  check
  if e.1.node.layer.toNat ≠ lvl then pure added
  else do
    advise address e.1
    pure (insert e.1.node.item added)

/-- Load links and vectors for layers > 0 (`reader.rs:493-513`). -/
def prefetchUpper (maxLevel : Nat) : Traversal RoaringBitmap :=
  ((List.range' 1 maxLevel).reverse).foldlM
    (fun added lvl => db.toList.foldlM (prefetchEntry address lvl) added) ∅

/-- One link of a popped node: `added` and the queue (`reader.rs:523-540`). -/
def prefetchLink (st : RoaringBitmap × List ItemId) (l : ItemId) :
    Traversal (RoaringBitmap × List ItemId) :=
  if l ∈ st.1 then pure st
  else if (db[Key.item index l]?).isSome then do
    advise address (Key.item index l)
    pure (insert l st.1, st.2 ++ [l])
  else pure (insert l st.1, st.2)

/-- What is stored for a popped node (`reader.rs:521-542`). -/
def prefetchLinks (st : RoaringBitmap × List ItemId) :
    Option Node → Traversal (RoaringBitmap × List ItemId)
  | some (.links links) => (ascending links).foldlM (prefetchLink address db index) st
  | _ => pure st

/-- A popped node (`reader.rs:517-542`). -/
def prefetchNode (item : ItemId) (st : RoaringBitmap × List ItemId) :
    Traversal (RoaringBitmap × List ItemId) := do
  check
  let node ← Prog.ofExcept ((db.getNode (Key.links index item 0)).mapError .failed)
  prefetchLinks address db index st node

/-- The loop over the queue (`reader.rs:516-543`). -/
def prefetchLoop : Nat → RoaringBitmap → List ItemId → Traversal Unit
  | 0, _, _ => .fail (.failed (.panic .outOfFuel))
  | _ + 1, _, [] => .ret ()
  | fuel + 1, added, item :: queue => do
    let (added, queue) ← prefetchNode address db index item (added, queue)
    prefetchLoop fuel added queue

/-- What `prefetch_graph` goes through. -/
def prefetchTraversal (maxLevel : Nat) : Traversal Unit := do
  let added ← prefetchUpper address db maxLevel
  let stored := (db.prefixIter (Prefix.item index)).length
  prefetchLoop address db index (added.card + stored + 1) added (ascending added)

/-- The length in memory of a vector (`reader.rs:475-476`). -/
def itemLength (D : Distance) (metadata : Metadata) : Nat :=
  (metadata.dimensions.toNat + D.codec.wordSize - 1) / D.codec.wordSize

/-- `prefetch_graph` (`reader.rs:447-546`): how it ends and the account it leaves. -/
def prefetchGraph (D : Distance) (host : Host) (db : Database) (index : UInt16)
    (metadata : Metadata) : EStateM.Result Exit Account Unit :=
  let availableMemory := host.readerAvailableMemory.getD 0
  if availableMemory < host.pageSize then .ok () ⟨availableMemory, 0, []⟩
  else (prefetchTraversal host.address db index metadata.maxLevel.toNat).into
    (Visit.exec host (itemLength D metadata)) ⟨availableMemory, 0, []⟩

end Reader

end Hannoy
