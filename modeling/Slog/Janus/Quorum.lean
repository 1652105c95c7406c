/-
The quorums of the Janus coordinator (`module/janus/coordinator.h`) and when two of them must share
a region.
-/

import Mathlib
import Slog.Library.Folds
import Slog.Common.Types

namespace Slog.Janus

/-- `TxnIdAndPartitionsBitmap`: a txn and the bitmap of its partitions. -/
abbrev Dependency := TxnId × Nat

/-- `Dependencies`, a `std::set` of dependencies. -/
abbrev Dependencies := Finset Dependency

structure Quorum where
  numReplicas : Nat
  count : Nat
  deriving DecidableEq, Repr

namespace Quorum

def new (numReplicas : Nat) : Quorum := ⟨numReplicas, 0⟩

def inc (quorum : Quorum) : Quorum := { quorum with count := quorum.count + 1 }

def isDone (quorum : Quorum) : Bool := (quorum.numReplicas + 1) / 2 ≤ quorum.count

@[simp]
theorem iterate_inc_new (numReplicas answers : Nat) : inc^[answers] (new numReplicas) = ⟨numReplicas, answers⟩ := by
  induction answers with
  | zero => rfl
  | succ answers ih => rw [Function.iterate_succ_apply', ih]; rfl

end Quorum

structure QuorumDeps where
  numReplicas : Nat
  isFastQuorum : Bool
  count : Nat
  deps : Dependencies
  deriving DecidableEq

namespace QuorumDeps

def new (numReplicas : Nat) : QuorumDeps := ⟨numReplicas, true, 0, ∅⟩

def isDone (quorum : QuorumDeps) : Bool :=
  if quorum.isFastQuorum then quorum.count == quorum.numReplicas
  else (quorum.numReplicas + 1) / 2 ≤ quorum.count

/-- `Add`: once done a quorum takes no more answers. The first answer gives the dependencies; a
later one that differs, or any once the quorum is slow, makes it slow and is merged in. -/
def add (quorum : QuorumDeps) (deps : Dependencies) : QuorumDeps :=
  if quorum.isDone then quorum
  else
    let merged :=
      if quorum.count = 0 then { quorum with deps := deps }
      else if !quorum.isFastQuorum || deps ≠ quorum.deps then
        { quorum with isFastQuorum := false, deps := quorum.deps ∪ deps }
      else quorum
    { merged with count := merged.count + 1 }

/-- What every quorum reached by answers keeps: its number of regions, and at least two
answers once it is slow, since only a second answer can make it slow. -/
structure Reached (numReplicas : Nat) (quorum : QuorumDeps) : Prop where
  replicas : quorum.numReplicas = numReplicas
  slow : quorum.isFastQuorum = false → 2 ≤ quorum.count

variable {numReplicas : Nat} {quorum : QuorumDeps}

theorem reached_new : Reached numReplicas (new numReplicas) := ⟨rfl, fun fast => by cases fast⟩

theorem Reached.add (reached : Reached numReplicas quorum) (deps : Dependencies) :
    Reached numReplicas (quorum.add deps) := by
  unfold QuorumDeps.add
  split_ifs with done first differs
  · exact reached
  · have fast : quorum.isFastQuorum = true := by
      cases slow : quorum.isFastQuorum
      · have := reached.slow slow
        omega
      · rfl
    exact ⟨reached.replicas, fun slow => by simp [fast] at slow⟩
  · exact ⟨reached.replicas, fun _ => by simp only; omega⟩
  · exact ⟨reached.replicas, fun slow => by have := reached.slow slow; simp only; omega⟩

theorem reached_foldl (answers : List Dependencies) :
    Reached numReplicas (answers.foldl add (new numReplicas)) :=
  Folds.foldl_invariant (Reached numReplicas) (fun _ _ _ reached => reached.add _) _ reached_new

/-- A done quorum has at least `(num_replicas + 1) / 2` answers, and at least two when it is
slow. -/
theorem Reached.count_of_isDone (reached : Reached numReplicas quorum) (done : quorum.isDone = true) :
    (numReplicas + 1) / 2 ≤ quorum.count ∧ (quorum.isFastQuorum = true ∧ quorum.count = numReplicas ∨
      quorum.isFastQuorum = false ∧ 2 ≤ quorum.count) := by
  rw [← reached.replicas]
  unfold isDone at done
  cases fast : quorum.isFastQuorum
  · simp only [fast, Bool.false_eq_true, ↓reduceIte, decide_eq_true_eq] at done
    exact ⟨done, Or.inr ⟨rfl, reached.slow fast⟩⟩
  · simp only [fast, ↓reduceIte, beq_iff_eq] at done
    exact ⟨by omega, Or.inl ⟨rfl, done⟩⟩

/-- While a slow quorum is not done, an answer is merged in and counted. -/
theorem add_of_slow (reached : Reached numReplicas quorum) (slow : quorum.isFastQuorum = false)
    (short : quorum.count < (numReplicas + 1) / 2) (deps : Dependencies) :
    quorum.add deps = { quorum with deps := quorum.deps ∪ deps, count := quorum.count + 1 } := by
  have notDone : quorum.isDone = false := by simp [isDone, slow, reached.replicas, short]
  have counted : quorum.count ≠ 0 := by
    have := reached.slow slow
    omega
  simp [add, notDone, counted, slow]

theorem foldl_add_of_slow (answers : List Dependencies) (reached : Reached numReplicas quorum)
    (slow : quorum.isFastQuorum = false) (short : quorum.count + answers.length ≤ (numReplicas + 1) / 2) :
    Reached numReplicas (answers.foldl add quorum) ∧ (answers.foldl add quorum).isFastQuorum = false ∧
      (answers.foldl add quorum).count = quorum.count + answers.length := by
  induction answers generalizing quorum with
  | nil => exact ⟨reached, slow, rfl⟩
  | cons deps rest ih =>
      simp only [List.length_cons] at short
      rw [List.foldl_cons, add_of_slow reached slow (by omega)]
      have next := reached.add deps
      rw [add_of_slow reached slow (by omega)] at next
      obtain ⟨reachedFinal, stillSlow, count⟩ := @ih _ next slow (by simp only; omega)
      exact ⟨reachedFinal, stillSlow, by rw [count]; simp only [List.length_cons]; omega⟩

/-- While a fast quorum waits for regions, an answer that agrees with those before is counted. -/
theorem add_of_agreeing {deps : Dependencies} (fast : quorum.isFastQuorum = true)
    (short : quorum.count < quorum.numReplicas) (agrees : quorum.count = 0 ∨ quorum.deps = deps) :
    quorum.add deps = { quorum with deps := deps, count := quorum.count + 1 } := by
  have notDone : quorum.isDone = false := by simp [isDone, fast]; omega
  by_cases first : quorum.count = 0
  · simp [add, notDone, first]
  · have same := agrees.resolve_left first
    subst same
    simp [add, notDone, first, fast]

/-- With an even number of regions from four on, a first answer and then `num_replicas / 2 - 1`
others that differ from it make a slow quorum, done with `num_replicas / 2` answers. -/
theorem slow_quorum_of_half {numReplicas : Nat} (four : 4 ≤ numReplicas) (even : numReplicas % 2 = 0) :
    ((∅ :: List.replicate (numReplicas / 2 - 1) {(0, 0)}).foldl add (new numReplicas)).isDone = true ∧
      ((∅ :: List.replicate (numReplicas / 2 - 1) {(0, 0)}).foldl add (new numReplicas)).count = numReplicas / 2 := by
  have two : ((new numReplicas).add ∅).add {(0, 0)} = ⟨numReplicas, false, 2, {(0, 0)}⟩ := by
    have notOne : (1 == numReplicas) = false := by simp; omega
    have notZero : (0 == numReplicas) = false := by simp; omega
    simp [add, isDone, new, notOne, notZero]
  have reachedTwo : Reached numReplicas ⟨numReplicas, false, 2, {(0, 0)}⟩ := two ▸ (reached_new.add ∅).add {(0, 0)}
  have split : numReplicas / 2 - 1 = (numReplicas / 2 - 2) + 1 := by omega
  rw [split, List.replicate_succ, List.foldl_cons, List.foldl_cons, two]
  obtain ⟨reached, slow, count⟩ :=
    foldl_add_of_slow (List.replicate (numReplicas / 2 - 2) {(0, 0)}) reachedTwo rfl (by simp only [List.length_replicate]; omega)
  simp only [List.length_replicate] at count
  refine ⟨?_, by omega⟩
  simp only [isDone, slow, Bool.false_eq_true, ↓reduceIte, reached.replicas, count, decide_eq_true_eq]
  omega

end QuorumDeps

section Intersection

/-- Two sets of regions, each of at least a threshold that is more than half the regions,
share a region. -/
theorem inter_nonempty_of_threshold {numReplicas threshold : Nat} {first second : Finset Nat}
    (firstWithin : first ⊆ Finset.range numReplicas) (secondWithin : second ⊆ Finset.range numReplicas)
    (majority : numReplicas < 2 * threshold) (firstLarge : threshold ≤ first.card) (secondLarge : threshold ≤ second.card) :
    (first ∩ second).Nonempty := by
  refine Finset.inter_nonempty_of_card_lt_card_add_card firstWithin secondWithin ?_
  rw [Finset.card_range]
  omega

/-- With an even number of regions, the lower and the upper half do not meet. -/
theorem halves_disjoint (numReplicas : Nat) :
    Finset.range (numReplicas / 2) ⊆ Finset.range numReplicas ∧ Finset.Ico (numReplicas / 2) numReplicas ⊆ Finset.range numReplicas ∧
      Finset.range (numReplicas / 2) ∩ Finset.Ico (numReplicas / 2) numReplicas = ∅ := by
  refine ⟨Finset.range_subset_range.mpr (Nat.div_le_self _ _), fun region listed => ?_, ?_⟩
  · simp only [Finset.mem_Ico] at listed
    exact Finset.mem_range.mpr listed.2
  · ext region
    simp only [Finset.mem_inter, Finset.mem_range, Finset.mem_Ico, Finset.notMem_empty, iff_false]
    omega

/-- Every two accept quorums of a partition share a region exactly when the number of regions is
odd. -/
theorem accept_quorums_intersect_iff (numReplicas : Nat) :
    (∀ first second : Finset Nat, first ⊆ Finset.range numReplicas → second ⊆ Finset.range numReplicas →
      (Quorum.inc^[first.card] (.new numReplicas)).isDone → (Quorum.inc^[second.card] (.new numReplicas)).isDone →
      (first ∩ second).Nonempty) ↔ numReplicas % 2 = 1 := by
  simp only [Quorum.iterate_inc_new, Quorum.isDone, decide_eq_true_eq]
  constructor
  · intro intersect
    by_contra even
    obtain ⟨lowerWithin, upperWithin, apart⟩ := halves_disjoint numReplicas
    have meet := intersect _ _ lowerWithin upperWithin (by simp; omega) (by simp; omega)
    rw [apart] at meet
    exact Finset.not_nonempty_empty meet
  · intro odd first second firstWithin secondWithin firstDone secondDone
    exact inter_nonempty_of_threshold firstWithin secondWithin (by omega) firstDone secondDone

/-- Every two pre-accept quorums of a partition, each done on the answers of distinct regions,
share a region exactly when the number of regions is odd or two. -/
theorem preAccept_quorums_intersect_iff (numReplicas : Nat) :
    (∀ (first second : List Dependencies) (firstRegions secondRegions : Finset Nat),
      firstRegions ⊆ Finset.range numReplicas → secondRegions ⊆ Finset.range numReplicas →
      (first.foldl QuorumDeps.add (.new numReplicas)).isDone →
      firstRegions.card = (first.foldl QuorumDeps.add (.new numReplicas)).count →
      (second.foldl QuorumDeps.add (.new numReplicas)).isDone →
      secondRegions.card = (second.foldl QuorumDeps.add (.new numReplicas)).count →
      (firstRegions ∩ secondRegions).Nonempty) ↔ numReplicas % 2 = 1 ∨ numReplicas = 2 := by
  constructor
  · intro intersect
    by_contra neither
    rcases Nat.eq_zero_or_pos numReplicas with none | some
    · subst none
      have meet := intersect [] [] ∅ ∅ (Finset.empty_subset _) (Finset.empty_subset _) rfl rfl rfl rfl
      simp at meet
    · obtain ⟨lowerWithin, upperWithin, apart⟩ := halves_disjoint numReplicas
      obtain ⟨done, count⟩ := QuorumDeps.slow_quorum_of_half (show 4 ≤ numReplicas by omega) (by omega)
      have meet := intersect _ _ _ _ lowerWithin upperWithin done (by rw [count, Finset.card_range]) done
        (by rw [count, Nat.card_Ico]; omega)
      rw [apart] at meet
      exact Finset.not_nonempty_empty meet
  · intro oddOrTwo first second firstRegions secondRegions firstWithin secondWithin firstDone firstCount
      secondDone secondCount
    have firstLarge := (QuorumDeps.reached_foldl first).count_of_isDone firstDone
    have secondLarge := (QuorumDeps.reached_foldl second).count_of_isDone secondDone
    exact @inter_nonempty_of_threshold numReplicas ((numReplicas + 2) / 2) _ _ firstWithin secondWithin (by omega)
      (by omega) (by omega)

end Intersection

end Slog.Janus
