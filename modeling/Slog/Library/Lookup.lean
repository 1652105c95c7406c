/-
Lookups by key in a list with distinct keys, which do not depend on the order of the list.
-/

import Mathlib.Data.List.Perm.Basic
import Mathlib.Data.List.Nodup

namespace Lookup

variable {α κ : Type} [DecidableEq κ] (key : α → κ) {entries entries' : List α}

/-- With distinct keys, at most one entry has a given key. -/
theorem length_filter_key_le (distinct : (entries.map key).Nodup) (k : κ) :
    (entries.filter fun entry => key entry = k).length ≤ 1 := by
  have sub : ((entries.filter fun entry => key entry = k).map key).Nodup :=
    distinct.sublist (List.filter_sublist.map key)
  have same : (entries.filter fun entry => key entry = k).map key =
      List.replicate (entries.filter fun entry => key entry = k).length k := by
    rw [List.eq_replicate_iff, List.length_map]
    refine ⟨rfl, fun other member => ?_⟩
    obtain ⟨entry, kept, rfl⟩ := List.mem_map.mp member
    simpa using (List.mem_filter.mp kept).2
  rw [same, List.nodup_replicate] at sub
  exact sub

/-- With distinct keys, the entry of a key is the same in any order of the entries. -/
theorem find?_perm (perm : entries.Perm entries') (distinct : (entries.map key).Nodup) (k : κ) :
    entries.find? (fun entry => key entry = k) = entries'.find? (fun entry => key entry = k) := by
  rw [← List.head?_filter, ← List.head?_filter]
  have filtered := perm.filter fun entry => key entry = k
  have atMostOne := length_filter_key_le key distinct k
  match found : entries.filter (fun entry => key entry = k), atMostOne with
  | [], _ =>
      rw [found] at filtered
      rw [List.Perm.nil_eq filtered]
  | [entry], _ =>
      rw [found] at filtered
      rw [List.perm_singleton.mp filtered.symm]

/-- The entry of a key is the one at the index of its first entry. -/
theorem findIdx?_getElem? {k : κ} {i : Nat} (found : entries.findIdx? (fun entry => key entry = k) = some i) :
    entries[i]? = entries.find? fun entry => key entry = k := by
  rw [List.find?_eq_bind_findIdx?_getElem?, found]
  rfl

omit [DecidableEq κ] in
/-- With distinct keys, two entries are at one index exactly when they have one key. -/
theorem index_eq_iff (distinct : (entries.map key).Nodup) {i j : Nat} {a b : α} (atI : entries[i]? = some a)
    (atJ : entries[j]? = some b) : i = j ↔ key a = key b := by
  obtain ⟨withinI, rfl⟩ := List.getElem?_eq_some_iff.mp atI
  obtain ⟨withinJ, rfl⟩ := List.getElem?_eq_some_iff.mp atJ
  have mappedI : i < (entries.map key).length := by simpa using withinI
  have mappedJ : j < (entries.map key).length := by simpa using withinJ
  have injective : (entries.map key)[i] = (entries.map key)[j] ↔ i = j := distinct.getElem_inj_iff
  rw [List.getElem_map, List.getElem_map] at injective
  exact injective.symm

end Lookup
