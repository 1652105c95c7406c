/-
Counting down a table of entries once per occurrence of a key, reporting a key when its entry is
ready: the loop of a release that hands locks on.
-/

import Mathlib.Logic.Function.Iterate

namespace Countdown

variable {ι β ρ : Type} [DecidableEq ι]

/-- One key of the loop: a skipped key or a key without entry changes nothing; otherwise its
entry is lowered, and the key is reported if the lowered entry is ready. -/
def step (skip : ι → Bool) (lower : β → β) (ready : β → Bool) (report : ι → β → ρ)
    (acc : List ρ × (ι → Option β)) (key : ι) : List ρ × (ι → Option β) :=
  if skip key then acc else
  match acc.2 key with
  | none => acc
  | some entry =>
      (if ready (lower entry) then acc.1 ++ [report key (lower entry)] else acc.1,
        Function.update acc.2 key (some (lower entry)))

section Fold

variable {skip : ι → Bool} {lower : β → β} {ready : β → Bool} {report : ι → β → ρ}

/-- A step on one key leaves the entries of the other keys as they are. -/
theorem step_table_of_ne {acc : List ρ × (ι → Option β)} {first key : ι} (different : first ≠ key) :
    (step skip lower ready report acc first).2 key = acc.2 key := by
  unfold step
  split
  · rfl
  · split
    · rfl
    · exact Function.update_of_ne (Ne.symm different) _ _

/-- Each entry is lowered once per occurrence of its key. -/
theorem foldl_step_table :
    ∀ (keys : List ι) (acc : List ρ × (ι → Option β)) (key : ι),
    (keys.foldl (step skip lower ready report) acc).2 key =
      if skip key then acc.2 key else (acc.2 key).map (lower^[keys.count key])
  | [], acc, key => by
      split <;> simp
  | first :: rest, acc, key => by
      rw [List.foldl_cons, foldl_step_table rest]
      by_cases same : first = key
      · subst same
        cases skipped : skip first with
        | true => simp [step, skipped]
        | false =>
            cases found : acc.2 first with
            | none => simp [step, skipped, found]
            | some entry =>
                simp [step, skipped, found, List.count_cons_self]
      · rw [step_table_of_ne same, List.count_cons_of_ne same]

/-- A key is reported exactly when it was reported before, or it is not skipped and one of its
occurrences lowers its entry to a ready one. -/
theorem mem_foldl_step (keyOf : ρ → ι) (reports : ∀ key entry, keyOf (report key entry) = key) :
    ∀ (keys : List ι) (acc : List ρ × (ι → Option β)) (key : ι),
    key ∈ (keys.foldl (step skip lower ready report) acc).1.map keyOf ↔
      key ∈ acc.1.map keyOf ∨ (skip key = false ∧ ∃ entry, acc.2 key = some entry ∧
        ∃ times, 0 < times ∧ times ≤ keys.count key ∧ ready (lower^[times] entry) = true)
  | [], acc, key => by
      simp only [List.foldl_nil, List.count_nil]
      constructor
      · exact .inl
      · rintro (old | ⟨_, _, _, times, positive, bounded, _⟩)
        · exact old
        · omega
  | first :: rest, acc, key => by
      rw [List.foldl_cons, mem_foldl_step keyOf reports rest]
      by_cases same : first = key
      · subst same
        cases skipped : skip first with
        | true => simp [step, skipped]
        | false =>
            cases found : acc.2 first with
            | none => simp [step, skipped, found]
            | some entry =>
                simp only [step, skipped, found, Function.update_self, Bool.false_eq_true, if_false,
                  true_and, Option.some.injEq, exists_eq_left', List.count_cons_self]
                constructor
                · rintro (reported | ⟨times, positive, bounded, readyAfter⟩)
                  · by_cases readyNow : ready (lower entry) = true
                    · simp only [readyNow, if_true, List.map_append, List.mem_append, List.map_cons,
                        List.map_nil, List.mem_singleton, reports] at reported
                      rcases reported with old | -
                      · exact .inl old
                      · exact .inr ⟨1, by omega, by omega, by simpa using readyNow⟩
                    · simp only [readyNow] at reported
                      exact .inl reported
                  · refine .inr ⟨times + 1, by omega, by omega, ?_⟩
                    rwa [Function.iterate_succ_apply]
                · rintro (old | ⟨times, positive, bounded, readyAfter⟩)
                  · left
                    split
                    · simp [old]
                    · exact old
                  · cases times with
                    | zero => omega
                    | succ times =>
                        cases times with
                        | zero =>
                            left
                            have readyNow : ready (lower entry) = true := by simpa using readyAfter
                            simp [readyNow, reports]
                        | succ times =>
                            right
                            refine ⟨times + 1, by omega, by omega, ?_⟩
                            rwa [Function.iterate_succ_apply] at readyAfter
      · -- another key is lowered or skipped; this key's entry and reports stay as they are
        have reports_other : key ∈ (step skip lower ready report acc first).1.map keyOf ↔
            key ∈ acc.1.map keyOf := by
          unfold step
          split
          · rfl
          · split
            · rfl
            · split <;> simp [reports, Ne.symm same]
        rw [step_table_of_ne same, reports_other, List.count_cons_of_ne same]

end Fold

end Countdown
