/-
Invariants of left folds, plain and in `Except` or `Option`, and loops of checks in `Except`.
-/

import Mathlib.Data.List.Basic

namespace Folds

variable {α β γ ε : Type}

/-- A property that every step on an item of the list keeps holds after a left fold over it. -/
theorem foldl_invariant (P : β → Prop) {step : β → α → β} {items : List α}
    (keeps : ∀ state, ∀ item ∈ items, P state → P (step state item)) (state : β) (holds : P state) :
    P (items.foldl step state) := by
  induction items generalizing state with
  | nil => exact holds
  | cons item items ih =>
      exact ih (fun state' item' member => keeps state' item' (List.mem_cons_of_mem _ member))
        (step state item) (keeps state item List.mem_cons_self holds)

/-- A property that every successful step on an item of the list keeps holds after a successful
left fold over it in `Except`. -/
theorem foldlM_invariant (P : β → Prop) {step : β → α → Except ε β} {items : List α}
    (keeps : ∀ state, ∀ item ∈ items, ∀ state', P state → step state item = .ok state' → P state')
    (state final : β) (holds : P state) (folded : items.foldlM step state = .ok final) : P final := by
  induction items generalizing state with
  | nil =>
      simp only [List.foldlM_nil] at folded
      cases folded
      exact holds
  | cons item items ih =>
      simp only [List.foldlM_cons] at folded
      cases stepped : step state item with
      | error message =>
          rw [stepped] at folded
          cases folded
      | ok state' =>
          rw [stepped] at folded
          exact ih (fun state'' item' member => keeps state'' item' (List.mem_cons_of_mem _ member)) state'
            (keeps state item List.mem_cons_self state' holds stepped) folded

/-- A property that every step keeps holds after a left fold over it in `Option` that ran to
its end. -/
theorem foldlM_option_invariant (P : β → Prop) {step : β → α → Option β} {items : List α}
    (keeps : ∀ state, ∀ item ∈ items, ∀ state', P state → step state item = some state' → P state')
    (state final : β) (holds : P state) (folded : items.foldlM step state = some final) : P final := by
  induction items generalizing state with
  | nil =>
      simp only [List.foldlM_nil] at folded
      cases folded
      exact holds
  | cons item items ih =>
      simp only [List.foldlM_cons] at folded
      cases stepped : step state item with
      | none =>
          rw [stepped] at folded
          cases folded
      | some state' =>
          rw [stepped] at folded
          exact ih (fun state'' item' member => keeps state'' item' (List.mem_cons_of_mem _ member)) state'
            (keeps state item List.mem_cons_self state' holds stepped) folded

/-- A mapped computation that succeeded succeeded before the map. -/
theorem exists_of_map_eq_ok {f : β → γ} {computation : Except ε β} {result : γ}
    (mapped : computation.map f = .ok result) : ∃ value, computation = .ok value ∧ f value = result := by
  cases computation with
  | error message => cases mapped
  | ok value => exact ⟨value, rfl, by simpa [Except.map] using mapped⟩

/-- A loop of checks in `Except` passes exactly when every check passes. -/
theorem forM_eq_ok_iff {check : α → Except ε Unit} {items : List α} :
    items.forM check = .ok () ↔ ∀ item ∈ items, check item = .ok () := by
  induction items with
  | nil => simp [pure, Except.pure]
  | cons item items ih =>
      rw [List.forM, List.forall_mem_cons]
      cases checked : check item with
      | error message => simp [bind, Except.bind]
      | ok u =>
          simp only [bind, Except.bind, true_and]
          exact ih

/-- A map in `Except` over the positions from a start on gives the values, when each position
gives the value at its place. -/
theorem mapM_range'_eq_ok {f : Nat → Except ε β} (values : List β) (start : Nat)
    (each : ∀ j (within : j < values.length), f (start + j) = .ok values[j]) :
    (List.range' start values.length).mapM f = .ok values := by
  induction values generalizing start with
  | nil => rfl
  | cons value values ih =>
      have first : f start = .ok value := each 0 (by simp)
      have rest := ih (start + 1) fun j within => by
        have step := each (j + 1) (by simpa using within)
        rw [List.getElem_cons_succ] at step
        rwa [Nat.add_assoc, Nat.add_comm 1 j]
      rw [List.length_cons, List.range'_succ, List.mapM_cons, first, rest]
      rfl

/-- A map in `Except` of a function that succeeds on every item with the value another function
picks gives the picked values. -/
theorem mapM_eq_ok_filterMap {f : α → Except ε β} {pick : α → Option β} {items : List α}
    (each : ∀ item ∈ items, ∃ value, pick item = some value ∧ f item = .ok value) :
    items.mapM f = .ok (items.filterMap pick) := by
  induction items with
  | nil => rfl
  | cons item items ih =>
      obtain ⟨value, picked, ran⟩ := each item List.mem_cons_self
      rw [List.mapM_cons, ran, ih fun other member => each other (List.mem_cons_of_mem _ member),
        List.filterMap_cons, picked]
      rfl

/-- A fold in `Except` whose steps all succeed is the plain fold of what they give. -/
theorem foldlM_eq_ok_foldl {f : β → α → Except ε β} {next : β → α → β} {items : List α}
    (each : ∀ item ∈ items, ∀ state, f state item = .ok (next state item)) (state : β) :
    items.foldlM f state = .ok (items.foldl next state) := by
  induction items generalizing state with
  | nil => rfl
  | cons item items ih =>
      rw [List.foldlM_cons, each item List.mem_cons_self state, List.foldl_cons]
      exact ih (fun other member => each other (List.mem_cons_of_mem _ member)) (next state item)

/-- A fold that raises a flag for some items and appends an output for each. -/
theorem foldl_or_append (found : α → Bool) (out : α → List β) (items : List α) (state : Bool × List β) :
    items.foldl (fun state item => (state.1 || found item, state.2 ++ out item)) state =
      (state.1 || items.any found, state.2 ++ items.flatMap out) := by
  induction items generalizing state with
  | nil => simp
  | cons item items ih =>
      rw [List.foldl_cons, ih]
      simp [Bool.or_assoc, List.append_assoc]

/-- A fold in `Except` over the positions from a start on, each of which raises the flag and
appends the value at its place. -/
theorem foldlM_range'_append {f : Bool × List β → Nat → Except ε (Bool × List β)} (values : List β)
    (start : Nat) (each : ∀ j (within : j < values.length) state, f state (start + j) = .ok (true, state.2 ++ [values[j]]))
    (state : Bool × List β) :
    (List.range' start values.length).foldlM f state = .ok (state.1 || !values.isEmpty, state.2 ++ values) := by
  induction values generalizing start state with
  | nil => simp [pure, Except.pure]
  | cons value values ih =>
      have first : f state start = .ok (true, state.2 ++ [value]) := each 0 (by simp) state
      have rest := ih (start + 1) (fun j within state => by
        have step := each (j + 1) (by simpa using within) state
        rw [List.getElem_cons_succ] at step
        rwa [Nat.add_assoc, Nat.add_comm 1 j]) (true, state.2 ++ [value])
      rw [List.length_cons, List.range'_succ, List.foldlM_cons, first]
      simp only [bind, Except.bind, rest, Bool.true_or, List.append_assoc, List.singleton_append, List.isEmpty_cons,
        Bool.not_false, Bool.or_true]

end Folds
