/-
A table of buckets kept as a list of chains, and what setting or pushing to chains does to its
items.
-/

import Mathlib

namespace Buckets

variable {α : Type} {buckets : List (List α)}

/-- Each item in turn pushed to the head of the chain that `index` picks. -/
def distribute (index : α → Nat) (items : List α) (buckets : List (List α)) : List (List α) :=
  items.foldl (fun buckets item => buckets.set (index item) (item :: buckets.getD (index item) [])) buckets

theorem getD_set (i j : Nat) (chain : List α) :
    (buckets.set i chain).getD j [] = if i = j ∧ i < buckets.length then chain else buckets.getD j [] := by
  simp only [List.getD_eq_getElem?_getD, List.getElem?_set]
  by_cases same : i = j
  · subst same
    by_cases within : i < buckets.length <;> simp [within]
  · simp [same]

@[simp] theorem getD_replicate_nil (count i : Nat) : (List.replicate count ([] : List α)).getD i [] = [] := by
  rw [List.getD_eq_getElem?_getD, List.getElem?_replicate]
  split <;> rfl

/-- Setting one chain of the table changes its items as it changes that chain. -/
theorem flatten_set_perm {i : Nat} (within : i < buckets.length) (chain : List α) :
    ∃ others, buckets.flatten.Perm (buckets.getD i [] ++ others) ∧ (buckets.set i chain).flatten.Perm (chain ++ others) := by
  refine ⟨(buckets.take i).flatten ++ (buckets.drop (i + 1)).flatten, ?_, ?_⟩
  · have split : buckets = buckets.take i ++ buckets[i] :: buckets.drop (i + 1) := by
      rw [List.getElem_cons_drop, List.take_append_drop]
    conv_lhs => rw [split]
    rw [List.getD_eq_getElem _ _ within]
    simp only [List.flatten_append, List.flatten_cons]
    exact List.perm_append_comm_assoc _ _ _
  · rw [List.set_eq_take_append_cons_drop, if_pos within]
    simp only [List.flatten_append, List.flatten_cons]
    exact List.perm_append_comm_assoc _ _ _

theorem length_distribute (index : α → Nat) (items : List α) (buckets : List (List α)) :
    (distribute index items buckets).length = buckets.length := by
  induction items generalizing buckets with
  | nil => rfl
  | cons item items ih =>
      rw [distribute, List.foldl_cons, ← distribute, ih, List.length_set]

/-- Items pushed to chains of the table join its items. -/
theorem flatten_distribute_perm {index : α → Nat} {items : List α} (fits : ∀ item ∈ items, index item < buckets.length) :
    (distribute index items buckets).flatten.Perm (items ++ buckets.flatten) := by
  induction items generalizing buckets with
  | nil => exact List.Perm.refl _
  | cons item items ih =>
      rw [distribute, List.foldl_cons, ← distribute]
      have within := fits item List.mem_cons_self
      obtain ⟨others, before, after⟩ := flatten_set_perm within (item :: buckets.getD (index item) [])
      have pushed : (buckets.set (index item) (item :: buckets.getD (index item) [])).flatten.Perm
          (item :: buckets.flatten) :=
        after.trans (List.Perm.cons item before.symm)
      have rest := @ih (buckets.set (index item) (item :: buckets.getD (index item) [])) fun other member => by
        rw [List.length_set]
        exact fits other (List.mem_cons_of_mem item member)
      exact (rest.trans (List.Perm.append_left items pushed)).trans List.perm_middle

/-- An item in a chain after the pushes was there before, or was pushed to that chain. -/
theorem mem_distribute {index : α → Nat} {items : List α} {j : Nat} {item : α}
    (member : item ∈ (distribute index items buckets).getD j []) :
    item ∈ buckets.getD j [] ∨ (item ∈ items ∧ index item = j) := by
  induction items generalizing buckets with
  | nil => exact Or.inl member
  | cons pushed items ih =>
      rw [distribute, List.foldl_cons, ← distribute] at member
      rcases ih member with before | ⟨later, picked⟩
      · rw [getD_set] at before
        split_ifs at before with here
        · rcases List.mem_cons.mp before with rfl | old
          · exact Or.inr ⟨List.mem_cons_self, here.1⟩
          · exact Or.inl (here.1 ▸ old)
        · exact Or.inl before
      · exact Or.inr ⟨List.mem_cons_of_mem pushed later, picked⟩

end Buckets
