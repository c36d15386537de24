import Mathlib.Data.List.Basic
import Std.Data.ExtTreeMap

/-!
# An ordered map kept under encoded keys

A map can be kept in another one, with its keys and values encoded. When the encoding of the keys
keeps their order, the other map is as good as the map: it is read, written and walked over alike.

* `Keeps.insert`, `Keeps.erase`: writes.
* `Keeps.toList`: the entries in the order of the keys.
* `exists_keeps`: every map can be kept.
-/

namespace Hannoy.Library

open Std

variable {α β V W : Type} [Ord α] [TransOrd α] [LawfulEqOrd α] [Ord β] [TransOrd β]
  [LawfulEqOrd β] {key : α → β} {value : V → W}

/-- `m` is `db` with its keys and values encoded. -/
structure Keeps (key : α → β) (value : V → W) (m : ExtTreeMap β W) (db : ExtTreeMap α V) :
    Prop where
  get : ∀ k, m[key k]? = (db[k]?).map value
  encoded : ∀ {b w}, m[b]? = some w → ∃ k, b = key k

namespace Keeps

variable {m : ExtTreeMap β W} {db : ExtTreeMap α V}

omit [LawfulEqOrd α] [LawfulEqOrd β] in
theorem empty : Keeps key value (∅ : ExtTreeMap β W) (∅ : ExtTreeMap α V) :=
  ⟨fun k => by simp, fun h => by simp at h⟩

variable (hkey : ∀ a b, compare (key a) (key b) = compare a b)
include hkey

omit [LawfulEqOrd α] in
theorem insert (h : Keeps key value m db) (k : α) (v : V) :
    Keeps key value (m.insert (key k) (value v)) (db.insert k v) where
  get k' := by
    rw [ExtTreeMap.getElem?_insert, ExtTreeMap.getElem?_insert, hkey, h.get]
    split <;> rfl
  encoded {b w} hb := by
    rw [ExtTreeMap.getElem?_insert] at hb
    split_ifs at hb with heq
    · exact ⟨k, (LawfulEqOrd.eq_of_compare heq).symm⟩
    · exact h.encoded hb

omit [LawfulEqOrd α] [LawfulEqOrd β] in
theorem erase (h : Keeps key value m db) (k : α) :
    Keeps key value (m.erase (key k)) (db.erase k) where
  get k' := by
    rw [ExtTreeMap.getElem?_erase, ExtTreeMap.getElem?_erase, hkey, h.get]
    split <;> rfl
  encoded {b w} hb := by
    rw [ExtTreeMap.getElem?_erase] at hb
    split_ifs at hb
    exact h.encoded hb

omit [LawfulEqOrd α] [TransOrd β] [LawfulEqOrd β] in
/-- The entries of a map are in the order of their keys. -/
theorem pairwise_image (db : ExtTreeMap α V) :
    (db.toList.map fun e => (key e.1, value e.2)).Pairwise fun a b => compare a.1 b.1 = .lt :=
  List.pairwise_map.mpr (db.ordered_keys_toList.imp fun hab => (hkey _ _).trans hab)

/-- **A walk over the entries** meets them in the order of the keys. -/
theorem toList (h : Keeps key value m db) :
    m.toList = db.toList.map fun e => (key e.1, value e.2) := by
  have hnodup : ∀ {l : List (β × W)}, l.Pairwise (fun a b => compare a.1 b.1 = .lt) → l.Nodup := by
    intro l hl
    refine hl.imp fun {a b} hab => ?_
    rintro rfl
    rw [compare_self] at hab
    cases hab
  have hm := m.ordered_keys_toList
  have hdb : (db.toList.map fun e => (key e.1, value e.2)).Pairwise
      (fun a b => compare a.1 b.1 = .lt) := pairwise_image hkey db
  refine List.Perm.eq_of_pairwise (fun a b _ _ hab hba => ?_) hm hdb
    ((List.perm_ext_iff_of_nodup (hnodup hm) (hnodup hdb)).mpr fun ⟨b, w⟩ => ?_)
  · have := TransCmp.lt_trans hab hba
    rw [compare_self] at this
    cases this
  · rw [ExtTreeMap.mem_toList_iff_getElem?_eq_some, List.mem_map]
    constructor
    · intro hb
      obtain ⟨k, rfl⟩ := h.encoded hb
      rw [h.get] at hb
      obtain ⟨v, hv, rfl⟩ := Option.map_eq_some_iff.mp hb
      exact ⟨(k, v), ExtTreeMap.mem_toList_iff_getElem?_eq_some.mpr hv, rfl⟩
    · rintro ⟨⟨k, v⟩, he, heq⟩
      cases heq
      rw [h.get, ExtTreeMap.mem_toList_iff_getElem?_eq_some.mp he]
      rfl

end Keeps

/-- Entries with distinct keys, put one after the other. -/
theorem exists_keeps_list (hkey : ∀ a b, compare (key a) (key b) = compare a b) :
    ∀ {l : List (α × V)}, l.Pairwise (fun a b => compare a.1 b.1 = .lt) →
      ∃ (m : ExtTreeMap β W) (db : ExtTreeMap α V), Keeps key value m db ∧
        ∀ k v, db[k]? = some v ↔ (k, v) ∈ l
  | [], _ => ⟨∅, ∅, .empty, fun k v => by simp⟩
  | (k, v) :: l, h => by
    obtain ⟨hhead, htail⟩ := List.pairwise_cons.mp h
    obtain ⟨m, db, hkeeps, hdb⟩ := exists_keeps_list hkey htail
    refine ⟨_, _, hkeeps.insert hkey k v, fun k' v' => ?_⟩
    rw [ExtTreeMap.getElem?_insert, List.mem_cons, ← hdb]
    by_cases hk : compare k k' = .eq
    · obtain rfl := LawfulEqOrd.eq_of_compare hk
      have hnew : ¬ db[k]? = some v' := fun hv' => by simpa using hhead _ ((hdb k v').mp hv')
      simp [hnew, eq_comm]
    · have hne : k' ≠ k := fun heq => hk (heq ▸ compare_self)
      simp [hk, hne]

/-- **Every map can be kept.** -/
theorem exists_keeps (hkey : ∀ a b, compare (key a) (key b) = compare a b) (db : ExtTreeMap α V) :
    ∃ m : ExtTreeMap β W, Keeps key value m db := by
  have hlist : ∃ (m : ExtTreeMap β W) (db' : ExtTreeMap α V), Keeps key value m db' ∧
      ∀ k v, db'[k]? = some v ↔ (k, v) ∈ db.toList :=
    exists_keeps_list hkey db.ordered_keys_toList
  obtain ⟨m, db', hkeeps, hdb⟩ := hlist
  have hsame : ∀ k, db'[k]? = db[k]? := fun k => Option.ext fun v => by
    rw [hdb, ExtTreeMap.mem_toList_iff_getElem?_eq_some]
  exact ⟨m, fun k => by rw [hkeeps.get, hsame], hkeeps.encoded⟩

end Hannoy.Library
