import Hannoy.Graph.Insert
import Hannoy.Index.Run
import Hannoy.Model.Prefetch

/-!
# The memory budget of a reader (`reader.rs:447-546`)

`prefetch_graph` tests its budget against the largest range advised so far, before it knows the next
one; and it rounds the end of a range up by `(end + page - 1) % page`, where the way to the next
boundary is `(page - end % page) % page`.

* `endPage_dvd_iff`: where the end of a range is a boundary. For an even page size it never is.
* `serve_visits`: what a sequence of visits advises.
* `value_prefetchTraversal`: the traversal ends within its fuel.
* `budget_respected_iff`: when the budget is respected.
-/

namespace Hannoy.Reader

open Hannoy.Library Hannoy.Library.Server Hannoy.Library.Txn Hannoy.Library.Budget

variable {D : Distance} {host : Host} {db : Database} {index : UInt16} {metadata : Metadata}
  {address : Key → Nat} {L : Nat}

/-! ## Ranges -/

/-- The size of the range for a value. -/
def rangeSize (host : Host) (L startPtr : Nat) : Nat :=
  (pageRange L host.pageSize startPtr).advisedSize

/-- The end of a value has a residue that the rounding takes to a boundary. -/
def EndRounds (host : Host) (L startPtr : Nat) : Prop :=
  host.pageSize ∣ 2 * (startPtr + L) + (host.pageSize - 1)

theorem startPage_dvd (startPtr : Nat) :
    host.pageSize ∣ (pageRange L host.pageSize startPtr).startPage :=
  Nat.dvd_sub_mod startPtr

/-- **Where a range ends on a boundary.** -/
theorem endPage_dvd_iff (hP : 0 < host.pageSize) (startPtr : Nat) :
    host.pageSize ∣ (pageRange L host.pageSize startPtr).endPage ↔ EndRounds host L startPtr := by
  have hsum : 2 * (startPtr + L) + (host.pageSize - 1) =
      startPtr + L + (startPtr + L + host.pageSize - 1) := by omega
  rw [EndRounds, hsum, pageRange, Nat.dvd_iff_mod_eq_zero, Nat.dvd_iff_mod_eq_zero, Nat.add_mod_mod]

/-- Pages of an even size are never hit. -/
theorem not_endRounds (heven : 2 ∣ host.pageSize) (hP : 0 < host.pageSize) (startPtr : Nat) :
    ¬ EndRounds host L startPtr := by
  intro h
  have := heven.trans h
  omega

/-! ## The account -/

/-- An advised range lies on boundaries and is at most what was available. -/
def Proper (host : Host) (a : Advice) : Prop :=
  a.range.advisedSize ≤ a.availableMemory ∧ host.pageSize ∣ a.range.startPage ∧
    host.pageSize ∣ a.range.endPage

/-- **The budget is respected**: nothing is subtracted beyond what is left, the advised sizes sum to
at most the budget, and ranges start and end on boundaries. -/
structure Respected (host : Host) (r : EStateM.Result Exit Account Unit) : Prop where
  affordable : ∀ a ∈ (final r).advised, a.range.advisedSize ≤ a.availableMemory
  noUnderflow : ∀ account, r ≠ .error .underflow account
  total : spent (fun a => a.range.advisedSize) (final r).advised ≤
    host.readerAvailableMemory.getD 0
  starts : ∀ a ∈ (final r).advised, host.pageSize ∣ a.range.startPage
  ends : ∀ a ∈ (final r).advised, host.pageSize ∣ a.range.endPage

/-- The address a visit advises, if it is not a check. -/
def expense : Visit → Option Nat
  | .check => none
  | .advise startPtr => some startPtr

variable (host L) in
theorem exec_check (account : Account) : Visit.exec host L .check account =
    if account.availableMemory < account.largestAlloc then .error .returned account
    else .ok () account := by
  rw [Visit.exec, get_bind_eq]
  split_ifs <;> rfl

variable (host L) in
/-- The advice for a value. -/
def advice (startPtr : Nat) (account : Account) : Advice :=
  ⟨pageRange L host.pageSize startPtr, account.availableMemory⟩

variable (host L) in
theorem exec_advise (startPtr : Nat) (account : Account) :
    Visit.exec host L (.advise startPtr) account =
      if host.refuses account.advised.length then .error .returned account
      else subtractUsage host (rangeSize host L startPtr)
        ⟨account.availableMemory, max account.largestAlloc (rangeSize host L startPtr),
          account.advised ++ [advice host L startPtr account]⟩ := by
  rw [Visit.exec, bind_eq, madvisePage, get_bind_eq]
  split_ifs <;> rfl

theorem exec_advise_fits {startPtr : Nat} {account : Account}
    (hrefused : host.refuses account.advised.length = false)
    (hle : rangeSize host L startPtr ≤ account.availableMemory) :
    Visit.exec host L (.advise startPtr) account = .ok ()
      ⟨account.availableMemory - rangeSize host L startPtr,
        max account.largestAlloc (rangeSize host L startPtr),
        account.advised ++ [advice host L startPtr account]⟩ := by
  rw [exec_advise, hrefused, if_neg Bool.false_ne_true, subtractUsage, get_bind_eq, if_pos hle]
  rfl

/-- An underflow stops the call or leaves more memory than there is. -/
theorem exec_advise_exceeds {startPtr : Nat} {account : Account}
    (hrefused : host.refuses account.advised.length = false)
    (hlt : account.availableMemory < rangeSize host L startPtr) :
    ∃ account', account'.advised = account.advised ++ [advice host L startPtr account] ∧
      (Visit.exec host L (.advise startPtr) account = .error .underflow account' ∨
        Visit.exec host L (.advise startPtr) account = .ok () account') := by
  rw [exec_advise, hrefused, if_neg Bool.false_ne_true, subtractUsage, get_bind_eq,
    if_neg (Nat.not_le.mpr hlt)]
  split_ifs
  · exact ⟨_, rfl, Or.inl rfl⟩
  · exact ⟨_, rfl, Or.inr rfl⟩

variable (host L) in
/-- What handling `visits` from an account comes to, where `new` are the ranges it adds. -/
structure Serves (visits : List Visit) (account : Account) (new : List Advice) : Prop where
  advised : (final (forM visits (Visit.exec host L) account)).advised = account.advised ++ new
  proper_iff : (∀ a ∈ new, Proper host a) ↔
    Prudent (rangeSize host L) (EndRounds host L) account.availableMemory account.largestAlloc
      (untilRefused host.refuses account.advised.length (visits.map expense))
  total : (∀ a ∈ new, a.range.advisedSize ≤ a.availableMemory) →
    spent (fun a => a.range.advisedSize) new ≤ account.availableMemory
  noUnderflow : (∀ a ∈ new, a.range.advisedSize ≤ a.availableMemory) →
    ∀ account', forM visits (Visit.exec host L) account ≠ .error .underflow account'

theorem proper_advice_iff (hP : 0 < host.pageSize) {startPtr : Nat} {account : Account} :
    Proper host (advice host L startPtr account) ↔
      rangeSize host L startPtr ≤ account.availableMemory ∧ EndRounds host L startPtr := by
  rw [Proper, advice, endPage_dvd_iff hP, and_iff_right (startPage_dvd startPtr), rangeSize]

/-- Visits that advise nothing more. -/
theorem serves_nil {visits : List Visit} {account : Account} {e : Exit}
    (h : forM visits (Visit.exec host L) account = .ok () account ∨
      e ≠ .underflow ∧ forM visits (Visit.exec host L) account = .error e account)
    (hprudent : Prudent (rangeSize host L) (EndRounds host L) account.availableMemory
      account.largestAlloc (untilRefused host.refuses account.advised.length
        (visits.map expense))) : Serves host L visits account [] where
  advised := by
    rcases h with h | ⟨-, h⟩ <;> rw [h] <;> exact (List.append_nil _).symm
  proper_iff := iff_of_true (List.forall_mem_nil _) hprudent
  total _ := Nat.zero_le _
  noUnderflow _ account' := by
    rcases h with h | ⟨hne, h⟩
    · rw [h]
      exact fun heq => by cases heq
    · rw [h]
      exact fun heq => by cases heq; exact hne rfl

theorem Serves.check {visits : List Visit} {account : Account} {new : List Advice}
    (h : Serves host L visits account new) (hle : account.largestAlloc ≤ account.availableMemory) :
    Serves host L (.check :: visits) account new := by
  have hexec := exec_check host L account
  rw [if_neg (Nat.not_lt.mpr hle)] at hexec
  have hforM := forM_cons_of_ok (l := visits) hexec
  refine ⟨by rw [hforM]; exact h.advised, ?_, h.total, by rw [hforM]; exact h.noUnderflow⟩
  rw [h.proper_iff]
  exact ⟨fun h _ => h, fun h => h hle⟩

/-- What is visited when an advice is not refused. -/
theorem untilRefused_advise {startPtr : Nat} {visits : List Visit} {account : Account}
    (hrefused : host.refuses account.advised.length = false) :
    untilRefused host.refuses account.advised.length
      ((Visit.advise startPtr :: visits).map expense) = some startPtr ::
        untilRefused host.refuses (account.advised.length + 1) (visits.map expense) := by
  rw [List.map_cons, expense, untilRefused, hrefused, if_neg Bool.false_ne_true]

theorem Serves.fits {startPtr : Nat} {visits : List Visit} {account : Account} {new : List Advice}
    (hP : 0 < host.pageSize) (hrefused : host.refuses account.advised.length = false)
    (hle : rangeSize host L startPtr ≤ account.availableMemory)
    (h : Serves host L visits ⟨account.availableMemory - rangeSize host L startPtr,
      max account.largestAlloc (rangeSize host L startPtr),
      account.advised ++ [advice host L startPtr account]⟩ new) :
    Serves host L (.advise startPtr :: visits) account
      (advice host L startPtr account :: new) := by
  have hforM := forM_cons_of_ok (l := visits) (exec_advise_fits hrefused hle)
  refine ⟨?_, ?_, fun hall => ?_, fun hall => ?_⟩
  · rw [hforM, h.advised, List.append_assoc]
    rfl
  · have hiff := h.proper_iff
    rw [List.length_append, List.length_singleton] at hiff
    rw [untilRefused_advise hrefused, Prudent, List.forall_mem_cons, hiff, proper_advice_iff hP,
      and_assoc]
  · have htotal := h.total fun a ha => hall a (List.mem_cons_of_mem _ ha)
    have hsize : (advice host L startPtr account).range.advisedSize =
      rangeSize host L startPtr := rfl
    rw [spent_cons, hsize]
    dsimp only at htotal
    omega
  · rw [hforM]
    exact h.noUnderflow fun a ha => hall a (List.mem_cons_of_mem _ ha)

/-- Once a range exceeds what is left, the rest does not matter. -/
theorem serves_exceeds {startPtr : Nat} {visits : List Visit} {account : Account}
    {rest : List Advice} (hrefused : host.refuses account.advised.length = false)
    (hlt : account.availableMemory < rangeSize host L startPtr)
    (hrest : (final (forM (Visit.advise startPtr :: visits) (Visit.exec host L) account)).advised =
      account.advised ++ advice host L startPtr account :: rest) :
    Serves host L (.advise startPtr :: visits) account
      (advice host L startPtr account :: rest) := by
  have hexceeds : ¬ ∀ a ∈ advice host L startPtr account :: rest,
      a.range.advisedSize ≤ a.availableMemory :=
    fun h => absurd (h _ List.mem_cons_self) (Nat.not_le.mpr hlt)
  refine ⟨hrest, iff_of_false (fun h => hexceeds fun a ha => (h a ha).1) ?_,
    fun h => absurd h hexceeds, fun h => absurd h hexceeds⟩
  rw [untilRefused_advise hrefused]
  exact fun h => absurd h.1 (Nat.not_le.mpr hlt)

/-- **What a sequence of visits advises.** All of it is proper exactly if the visits are prudent. -/
theorem serve_visits (hP : 0 < host.pageSize) : ∀ (visits : List Visit) (account : Account),
    ∃ new, Serves host L visits account new
  | [], account => ⟨[], serves_nil (e := .returned) (Or.inl rfl) trivial⟩
  | .check :: visits, account => by
    rcases Nat.lt_or_ge account.availableMemory account.largestAlloc with hlt | hle
    · have hexec := exec_check host L account
      rw [if_pos hlt] at hexec
      refine ⟨[], serves_nil (Or.inr ⟨?_, forM_cons_of_error hexec⟩) fun hle => ?_⟩
      · exact fun h => by cases h
      · exact absurd hle (Nat.not_le.mpr hlt)
    · obtain ⟨new, hnew⟩ := serve_visits hP visits account
      exact ⟨new, hnew.check hle⟩
  | .advise startPtr :: visits, account => by
    cases hrefused : host.refuses account.advised.length with
    | true =>
      have hexec := exec_advise host L startPtr account
      rw [hrefused, if_pos rfl] at hexec
      refine ⟨[], serves_nil (Or.inr ⟨?_, forM_cons_of_error hexec⟩) ?_⟩
      · exact fun h => by cases h
      · rw [List.map_cons, expense, untilRefused, if_pos hrefused]
        trivial
    | false =>
      rcases Nat.lt_or_ge account.availableMemory (rangeSize host L startPtr) with hlt | hle
      · obtain ⟨account', hadvised, hexec | hexec⟩ := exec_advise_exceeds hrefused hlt
        · refine ⟨[advice host L startPtr account], serves_exceeds hrefused hlt ?_⟩
          rw [forM_cons_of_error hexec]
          exact hadvised
        · obtain ⟨rest, hrest⟩ := serve_visits hP visits account'
          refine ⟨advice host L startPtr account :: rest, serves_exceeds hrefused hlt ?_⟩
          rw [forM_cons_of_ok hexec, hrest.advised, hadvised, List.append_assoc]
          rfl
      · obtain ⟨new, hnew⟩ := serve_visits hP visits _
        exact ⟨_, hnew.fits hP hrefused hle⟩

/-! ## The traversal -/

/-- What is asked for an entry of the database. -/
def entryVisits (address : Key → Nat) (lvl : Nat) (e : Key × Value) : List Visit :=
  if e.1.node.layer.toNat ≠ lvl then [.check] else [.check, .advise (address e.1)]

theorem requests_prefetchEntry (lvl : Nat) (added : RoaringBitmap) (e : Key × Value) :
    (prefetchEntry address lvl added e).requests = entryVisits address lvl e := by
  unfold prefetchEntry entryVisits
  split_ifs <;> rfl

/-- What an entry adds. -/
def addEntry (lvl : Nat) (added : RoaringBitmap) (e : Key × Value) : RoaringBitmap :=
  if e.1.node.layer.toNat ≠ lvl then added else insert e.1.node.item added

theorem value_prefetchEntry (lvl : Nat) (added : RoaringBitmap) (e : Key × Value) :
    (prefetchEntry address lvl added e).value = .ok (addEntry lvl added e) := by
  unfold prefetchEntry addEntry
  split_ifs <;> rfl

theorem value_entries (lvl : Nat) (added : RoaringBitmap) :
    (db.toList.foldlM (prefetchEntry address lvl) added).value =
      .ok (db.toList.foldl (addEntry lvl) added) := by
  rw [Prog.value_foldlM]
  exact foldlM_eq_ok (fun e _ b => value_prefetchEntry lvl b e) added

/-- What the upper layers add. -/
def upperItems (db : Database) (maxLevel : Nat) : RoaringBitmap :=
  ((List.range' 1 maxLevel).reverse).foldl
    (fun added lvl => db.toList.foldl (addEntry lvl) added) ∅

theorem value_prefetchUpper (maxLevel : Nat) :
    (prefetchUpper address db maxLevel).value = .ok (upperItems db maxLevel) := by
  rw [prefetchUpper, Prog.value_foldlM]
  exact foldlM_eq_ok (fun lvl _ b => value_entries lvl b) ∅

theorem requests_prefetchUpper (maxLevel : Nat) :
    (prefetchUpper address db maxLevel).requests =
      ((List.range' 1 maxLevel).reverse).flatMap fun lvl =>
        db.toList.flatMap (entryVisits address lvl) :=
  Prog.requests_foldlM (fun b lvl => ⟨_, value_entries lvl b⟩) (fun b lvl =>
    Prog.requests_foldlM (fun b e => ⟨_, value_prefetchEntry lvl b e⟩)
      (fun b e => requests_prefetchEntry lvl b e) db.toList b) _ _

/-- The nodes to be looked at: those in the queue, and the stored ones not yet added. -/
def pending (db : Database) (index : UInt16) (st : RoaringBitmap × List ItemId) : Nat :=
  st.2.length + (Graph.storedIds ⟨db, index⟩ \ st.1).card

theorem value_prefetchLink (st : RoaringBitmap × List ItemId) (l : ItemId) :
    ∃ st', (prefetchLink address db index st l).value = .ok st' ∧
      pending db index st' ≤ pending db index st := by
  unfold prefetchLink
  split_ifs with hadded hstored
  · exact ⟨st, rfl, le_rfl⟩
  · refine ⟨_, rfl, ?_⟩
    obtain ⟨v, hv⟩ := Option.isSome_iff_exists.mp hstored
    have hmem : l ∈ Graph.storedIds ⟨db, index⟩ \ st.1 :=
      Finset.mem_sdiff.mpr ⟨Graph.mem_storedIds_of_key hv, hadded⟩
    have hcard := Finset.card_pos.mpr ⟨l, hmem⟩
    rw [pending, pending, Finset.sdiff_insert, Finset.card_erase_of_mem hmem, List.length_append,
      List.length_singleton]
    omega
  · exact ⟨_, rfl, Nat.add_le_add_left (Finset.card_le_card
      (Finset.sdiff_subset_sdiff subset_rfl (Finset.subset_insert _ _))) _⟩

theorem getNode_error {k : Key} {e : Failure} (h : db.getNode k = .error e) : e = .err .heed := by
  unfold Database.getNode at h
  split at h
  · cases h
  · cases h
  · cases h
    rfl

theorem value_prefetchLinks (st : RoaringBitmap × List ItemId) (node : Option Node) :
    ∃ st', (prefetchLinks address db index st node).value = .ok st' ∧
      pending db index st' ≤ pending db index st := by
  unfold prefetchLinks
  split
  · rw [Prog.value_foldlM]
    exact foldlM_total (fun st₁ l h => (value_prefetchLink st₁ l).imp fun st₂ h₂ =>
      ⟨h₂.1, h₂.2.trans h⟩) le_rfl
  · exact ⟨st, rfl, le_rfl⟩

variable (db index address) in
theorem value_prefetchNode (item : ItemId) (st : RoaringBitmap × List ItemId) :
    (∃ st', (prefetchNode address db index item st).value = .ok st' ∧
      pending db index st' ≤ pending db index st) ∨
    (prefetchNode address db index item st).value = .error (.failed (.err .heed)) := by
  rw [prefetchNode, Prog.value_bind, Prog.value_bind, Prog.value_ofExcept]
  cases hnode : db.getNode (Key.links index item 0) with
  | error e =>
    rw [getNode_error hnode]
    exact Or.inr rfl
  | ok node => exact Or.inl (value_prefetchLinks st node)

/-- The loop ends within its fuel, or at a value that is no node. -/
theorem value_prefetchLoop : ∀ {fuel : Nat} {added : RoaringBitmap} {queue : List ItemId},
    pending db index (added, queue) < fuel →
      (prefetchLoop address db index fuel added queue).value = .ok () ∨
        (prefetchLoop address db index fuel added queue).value = .error (.failed (.err .heed))
  | 0, _, _, h => absurd h (Nat.not_lt_zero _)
  | fuel + 1, added, [], _ => Or.inl rfl
  | fuel + 1, added, item :: queue, h => by
    have hrest : pending db index (added, queue) < fuel := by
      simp only [pending, List.length_cons] at h ⊢
      omega
    rw [prefetchLoop, Prog.value_bind]
    rcases value_prefetchNode db index address item (added, queue) with ⟨st', hst', hle⟩ | herr
    · rw [hst']
      exact value_prefetchLoop (hle.trans_lt hrest)
    · rw [herr]
      exact Or.inr rfl

variable (db index address) in
/-- **The traversal ends within its fuel**, or at a value that is no node. -/
theorem value_prefetchTraversal (maxLevel : Nat) :
    (prefetchTraversal address db index maxLevel).value = .ok () ∨
      (prefetchTraversal address db index maxLevel).value = .error (.failed (.err .heed)) := by
  rw [prefetchTraversal, Prog.value_bind, value_prefetchUpper]
  refine value_prefetchLoop ?_
  have hcard := Finset.card_le_card (Finset.sdiff_subset (s := Graph.storedIds ⟨db, index⟩)
    (t := upperItems db maxLevel))
  have hle : (Graph.storedIds ⟨db, index⟩).card ≤ (db.prefixIter (Prefix.item index)).length :=
    Graph.card_storedIds_le ⟨db, index⟩
  rw [pending, length_ascending]
  dsimp only
  omega

theorem value_eq_error {maxLevel : Nat} {e : Exit}
    (h : (prefetchTraversal address db index maxLevel).value = .error e) :
    e = .failed (.err .heed) := by
  rcases value_prefetchTraversal db index address maxLevel with
    hvalue | hvalue <;> rw [hvalue] at h <;> cases h
  rfl

/-! ## What it asks for -/

theorem firstBatch_entryVisits (lvl : Nat) (e : Key × Value) :
    firstBatch ((entryVisits address lvl e).map expense) = [] := by
  unfold entryVisits
  split_ifs <;> rfl

theorem firstBatch_prefetchLoop : ∀ (fuel : Nat) (added : RoaringBitmap) (queue : List ItemId),
    firstBatch ((prefetchLoop address db index fuel added queue).requests.map expense) = []
  | 0, _, _ => rfl
  | _ + 1, _, [] => rfl
  | _ + 1, _, _ :: _ => rfl

/-- The traversal checks before it advises. -/
theorem firstBatch_prefetchTraversal (maxLevel : Nat) :
    firstBatch ((prefetchTraversal address db index maxLevel).requests.map expense) = [] := by
  rw [prefetchTraversal, Prog.requests_bind_of_ok (value_prefetchUpper maxLevel),
    List.map_append, requests_prefetchUpper, List.map_flatMap]
  refine firstBatch_append (firstBatch_flatMap (fun lvl => ?_) _) (firstBatch_prefetchLoop _ _ _)
  rw [List.map_flatMap]
  exact firstBatch_flatMap (fun e => firstBatch_entryVisits lvl e) _

/-- An entry above layer 0. -/
def InUpperLayers (maxLevel : Nat) (k : Key) : Prop :=
  1 ≤ k.node.layer.toNat ∧ k.node.layer.toNat ≤ maxLevel

theorem inUpperLayers_iff {maxLevel : Nat} {k : Key} :
    InUpperLayers maxLevel k ↔ k.node.layer.toNat ∈ (List.range' 1 maxLevel).reverse := by
  rw [InUpperLayers, List.mem_reverse, List.mem_range'_1]
  omega

theorem mem_of_mem_toList {e : Key × Value} (h : e ∈ db.toList) : e.1 ∈ db := by
  rw [Std.ExtTreeMap.mem_iff_isSome_getElem?, Std.ExtTreeMap.mem_toList_iff_getElem?_eq_some.mp h]
  rfl

/-- Without such an entry no node is added. -/
theorem upperItems_eq_empty {maxLevel : Nat} (h : ∀ k ∈ db, ¬ InUpperLayers maxLevel k) :
    upperItems db maxLevel = ∅ := by
  refine List.foldlRecOn (motive := (· = ∅)) _ _ rfl fun added hadded lvl hlvl => ?_
  refine List.foldlRecOn (motive := (· = ∅)) _ _ hadded fun added hadded e he => ?_
  rw [addEntry, if_pos, hadded]
  rintro rfl
  exact h e.1 (mem_of_mem_toList he) (inUpperLayers_iff.mpr hlvl)

/-- **Something is asked for exactly if there is an entry above layer 0**, of whatever index. -/
theorem advises_iff (maxLevel : Nat) :
    (∃ a, some a ∈ (prefetchTraversal address db index maxLevel).requests.map expense) ↔
      ∃ k ∈ db, InUpperLayers maxLevel k := by
  have hupper : ∀ a, some a ∈ ((prefetchUpper address db maxLevel).requests.map expense) ↔
      ∃ e ∈ db.toList, InUpperLayers maxLevel e.1 ∧ a = address e.1 := by
    intro a
    rw [requests_prefetchUpper, List.map_flatMap, List.mem_flatMap]
    constructor
    · rintro ⟨lvl, hlvl, ha⟩
      rw [List.map_flatMap, List.mem_flatMap] at ha
      obtain ⟨e, he, ha⟩ := ha
      rw [entryVisits] at ha
      split_ifs at ha with hlayer
      · simp [expense] at ha
      · refine ⟨e, he, ?_, by simpa [expense] using ha⟩
        rw [inUpperLayers_iff, not_not.mp hlayer]
        exact hlvl
    · rintro ⟨e, he, hlayer, rfl⟩
      refine ⟨_, inUpperLayers_iff.mp hlayer, ?_⟩
      rw [List.map_flatMap, List.mem_flatMap]
      refine ⟨e, he, ?_⟩
      rw [entryVisits, if_neg (not_not.mpr rfl)]
      simp [expense]
  rw [prefetchTraversal, Prog.requests_bind_of_ok (value_prefetchUpper maxLevel), List.map_append]
  constructor
  · rintro ⟨a, ha⟩
    by_contra hnone
    push Not at hnone
    rcases List.mem_append.mp ha with ha | ha
    · obtain ⟨e, he, hlayer, -⟩ := (hupper a).mp ha
      exact hnone e.1 (mem_of_mem_toList he) hlayer
    · -- with nothing added the queue is empty
      rw [upperItems_eq_empty hnone] at ha
      exact absurd ha List.not_mem_nil
  · rintro ⟨k, hk, hlayer⟩
    obtain ⟨v, hv⟩ := Option.isSome_iff_exists.mp (Std.ExtTreeMap.mem_iff_isSome_getElem?.mp hk)
    have he : (k, v) ∈ db.toList := Std.ExtTreeMap.mem_toList_iff_getElem?_eq_some.mpr hv
    exact ⟨address k, List.mem_append_left _ ((hupper _).mpr ⟨(k, v), he, hlayer, rfl⟩)⟩

/-! ## The whole call -/

/-- The addresses `prefetch_graph` comes to, up to the first range that `madvise` refuses; a `none`
is a test of the budget. -/
def addressesVisited (host : Host) (db : Database) (index : UInt16) (maxLevel : Nat) :
    List (Option Nat) :=
  untilRefused host.refuses 0
    ((prefetchTraversal host.address db index maxLevel).requests.map expense)

/-- Handling a visit does not fail on the database. -/
theorem avoids_exec (e : Failure) (visit : Visit) :
    Avoids (.failed e) (Visit.exec host L visit) := by
  intro account account' h
  cases visit with
  | check =>
    rw [exec_check] at h
    split_ifs at h
    cases h
  | advise startPtr =>
    rw [exec_advise] at h
    split_ifs at h
    · cases h
    · rw [subtractUsage, get_bind_eq] at h
      split_ifs at h <;> cases h

/-- The budget is respected exactly if it is less than a page or the visits are prudent. -/
theorem respected_iff_prudent (hP : 0 < host.pageSize) :
    Respected host (prefetchGraph D host db index metadata) ↔
      host.readerAvailableMemory.getD 0 < host.pageSize ∨
        Prudent (rangeSize host (itemLength D metadata)) (EndRounds host (itemLength D metadata))
          (host.readerAvailableMemory.getD 0) 0
          (addressesVisited host db index metadata.maxLevel.toNat) := by
  unfold prefetchGraph
  dsimp only
  split_ifs with hpage
  · refine iff_of_true ⟨?_, ?_, ?_, ?_, ?_⟩ (Or.inl hpage)
    · exact List.forall_mem_nil _
    · exact fun account h => by cases h
    · exact Nat.zero_le _
    · exact List.forall_mem_nil _
    · exact List.forall_mem_nil _
  · rw [or_iff_right hpage]
    obtain ⟨new, hnew⟩ := serve_visits (L := itemLength D metadata) hP
      (prefetchTraversal host.address db index metadata.maxLevel.toNat).requests
      ⟨host.readerAvailableMemory.getD 0, 0, []⟩
    have hadvised : (final ((prefetchTraversal host.address db index metadata.maxLevel.toNat).into
        (Visit.exec host (itemLength D metadata))
          ⟨host.readerAvailableMemory.getD 0, 0, []⟩)).advised = new := by
      rw [Prog.final_into]
      exact hnew.advised
    refine Iff.trans ⟨fun h => ?_, fun h => ?_⟩ hnew.proper_iff
    · intro a ha
      rw [← hadvised] at ha
      exact ⟨h.affordable a ha, h.starts a ha, h.ends a ha⟩
    · have hle : ∀ a ∈ new, a.range.advisedSize ≤ a.availableMemory := fun a ha => (h a ha).1
      refine ⟨?_, fun account => ?_, ?_, ?_, ?_⟩
      · rw [hadvised]
        exact hle
      · intro h
        rcases Prog.into_eq_error h with h | h
        · exact hnew.noUnderflow hle account h
        · cases value_eq_error h
      · rw [hadvised]
        exact hnew.total hle
      · rw [hadvised]
        exact fun a ha => (h a ha).2.1
      · rw [hadvised]
        exact fun a ha => (h a ha).2.2

/-- **A call always ends**: its loop does not run out of fuel. -/
theorem prefetchGraph_ends (account : Account) :
    prefetchGraph D host db index metadata ≠ .error (.failed (.panic .outOfFuel)) account := by
  unfold prefetchGraph
  dsimp only
  split_ifs
  · exact fun h => by cases h
  · intro h
    rcases Prog.into_eq_error h with h | h
    · exact Avoids.forM (avoids_exec (.panic .outOfFuel)) _ _ _ h
    · cases value_eq_error h

/-- **When the budget is respected.** The budget is below a page, or it covers, for every test that
lets it pass, all that comes up to the next test, on ranges that end on boundaries. For an even page
size: the budget is below a page, the first `madvise` is refused, or nothing is stored above layer
0. -/
theorem budget_respected_iff (hP : 0 < host.pageSize) :
    (Respected host (prefetchGraph D host db index metadata) ↔
      host.readerAvailableMemory.getD 0 < host.pageSize ∨
        Covers (rangeSize host (itemLength D metadata)) (EndRounds host (itemLength D metadata))
          (host.readerAvailableMemory.getD 0)
          (batches (addressesVisited host db index metadata.maxLevel.toNat))) ∧
    (2 ∣ host.pageSize → (Respected host (prefetchGraph D host db index metadata) ↔
      host.readerAvailableMemory.getD 0 < host.pageSize ∨ host.refuses 0 = true ∨
        ∀ k ∈ db, ¬ InUpperLayers metadata.maxLevel.toNat k)) := by
  rw [respected_iff_prudent hP]
  constructor
  · rw [addressesVisited,
      prudent_iff (firstBatch_untilRefused (firstBatch_prefetchTraversal _))]
  · intro heven
    rw [prudent_iff_of_never (not_endRounds heven hP)]
    refine or_congr_right ?_
    have hvisits : (∃ a, some a ∈ addressesVisited host db index metadata.maxLevel.toNat) ↔
        host.refuses 0 = false ∧ ∃ k ∈ db, InUpperLayers metadata.maxLevel.toNat k := by
      rw [addressesVisited, exists_mem_untilRefused_iff, advises_iff]
    rw [← not_iff_not]
    push Not
    rw [hvisits, ne_eq, Bool.not_eq_true]

/-- Pages of 4096 bytes and a budget of one page. The entries of an index of two items of dimension
2, item 0 on layer 1, are on one page, where LMDB puts them when it is built: from the end of the
page down, the two items, their links on layer 0, those of item 0 on layer 1, the metadata and the
version. An entry has 16 bytes before its value and an even length. -/
def onePage : Host where
  pageSize := 4096
  readerAvailableMemory := some 4096
  address k := 0x7f0000002000 +
    match k.node.mode with
    | .item => 4082 - 30 * k.node.item.toNat
    | .links => if k.node.layer = 0 then 4016 - 36 * k.node.item.toNat else 3954
    | .metadata => if k.node.item = 0 then 3894 else 3866
    | .updated => 0
  refuses _ := false
  overflowChecks := true

/-- Two items are added to an empty index and built. -/
def buildTwo (env : Environment) : RwTxn Unit := do
  Writer.addItem manhattan ⟨0, 2⟩ 0 [F32.zero, F32.zero]
  Writer.addItem manhattan ⟨0, 2⟩ 1 [F32.one, F32.one]
  Writer.build manhattan ⟨0, 2⟩ 2 4 env BuildOption.default

/-- With both items on layer 0 alone, nothing is advised. -/
theorem budget_respected_one_layer : ∃ db metadata, buildTwo .oneLevel ∅ = .ok () db ∧
    db.metadata? 0 = some metadata ∧
    Respected onePage (prefetchGraph manhattan onePage db 0 metadata) := by
  have h : (Index.committed (buildTwo .oneLevel ∅)).bind
      (fun db => (db.metadata? 0).map Metadata.maxLevel) = some 0 := by decide +kernel
  obtain ⟨db, hdb, h⟩ := Option.bind_eq_some_iff.mp h
  obtain ⟨metadata, hmetadata, hlevel⟩ := Option.map_eq_some_iff.mp h
  obtain ⟨_, hbuild⟩ := Index.committed_eq_some hdb
  refine ⟨db, metadata, hbuild, hmetadata, ?_⟩
  refine ((budget_respected_iff (by decide)).2 (by decide)).mpr (Or.inr (Or.inr fun k _ h => ?_))
  rw [hlevel] at h
  exact absurd (h.1.trans h.2) (by decide)

/-- With item 0 on layer 1, its value there ends 3956 bytes into the page, and the range is rounded
up to 7911 bytes, which is no boundary. It is longer than the budget. -/
theorem prefetch_underflows : ∃ db metadata, buildTwo .twoLevels ∅ = .ok () db ∧
    db.metadata? 0 = some metadata ∧
    prefetchGraph manhattan onePage db 0 metadata =
      .error .underflow ⟨4096, 7911, [⟨⟨0x7f0000002000, 0x7f0000003ee7⟩, 4096⟩]⟩ ∧
    ¬ Respected onePage (prefetchGraph manhattan onePage db 0 metadata) := by
  have h : (Index.committed (buildTwo .twoLevels ∅)).bind (fun db => (db.metadata? 0).bind
      fun metadata => errorOf (prefetchGraph manhattan onePage db 0 metadata)) =
        some (.underflow, ⟨4096, 7911, [⟨⟨0x7f0000002000, 0x7f0000003ee7⟩, 4096⟩]⟩) := by
    decide +kernel
  obtain ⟨db, hdb, h⟩ := Option.bind_eq_some_iff.mp h
  obtain ⟨metadata, hmetadata, h⟩ := Option.bind_eq_some_iff.mp h
  obtain ⟨_, hbuild⟩ := Index.committed_eq_some hdb
  have hresult := errorOf_eq_some h
  exact ⟨db, metadata, hbuild, hmetadata, hresult, fun hr => hr.noUnderflow _ hresult⟩

end Hannoy.Reader
