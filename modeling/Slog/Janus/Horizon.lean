/-
The execution horizon of the Janus scheduler (`module/janus/horizon.h`): per machine, a bound below
which every counter is executed, and the executed counters above it.
-/

import Mathlib
import Slog.Common.Types

namespace Slog.Janus

/-- `TXN_ID(machine_id, counter)`. -/
def txnIdOf (machineId counter : Nat) : TxnId := counter <<< kMachineIdBits ||| machineId

def txnMachineId (txnId : TxnId) : Nat := txnId &&& ((1 <<< kMachineIdBits) - 1)

def txnCounter (txnId : TxnId) : Nat := txnId >>> kMachineIdBits

/-- `TxnHorizon::Horizon`: every counter up to `horizon`, and those in `buffered`. -/
structure Horizon where
  horizon : Nat
  buffered : List Nat
  deriving DecidableEq, Repr

namespace Horizon

def empty : Horizon := ⟨0, []⟩

/-- The loop of `Add` that moves the bound over buffered counters; each pass erases one, so
their number bounds the passes. -/
def advance : Nat → Horizon → Horizon
  | 0, h => h
  | fuel + 1, h =>
      if h.horizon + 1 ∈ h.buffered then advance fuel ⟨h.horizon + 1, h.buffered.erase (h.horizon + 1)⟩
      else h

def add (h : Horizon) (counter : Nat) : Horizon :=
  if counter = h.horizon + 1 then advance h.buffered.length ⟨h.horizon + 1, h.buffered⟩
  else ⟨h.horizon, if counter ∈ h.buffered then h.buffered else counter :: h.buffered⟩

def contains (h : Horizon) (counter : Nat) : Bool := decide (counter ≤ h.horizon) || decide (counter ∈ h.buffered)

/-- The counters a horizon holds. -/
def Holds (h : Horizon) (counter : Nat) : Prop := counter ≤ h.horizon ∨ counter ∈ h.buffered

theorem contains_iff (h : Horizon) (counter : Nat) : h.contains counter = true ↔ h.Holds counter := by
  simp [contains, Holds]

/-- Moving the bound keeps the counters held. -/
theorem holds_advance (fuel : Nat) (h : Horizon) (counter : Nat) :
    (advance fuel h).Holds counter ↔ h.Holds counter := by
  induction fuel generalizing h with
  | zero => rfl
  | succ fuel ih =>
      rw [advance]
      split_ifs with next
      · rw [ih]
        simp only [Holds]
        constructor
        · rintro (below | kept)
          · by_cases top : counter = h.horizon + 1
            · exact Or.inr (top ▸ next)
            · exact Or.inl (by omega)
          · exact Or.inr (List.mem_of_mem_erase kept)
        · rintro (below | kept)
          · exact Or.inl (by omega)
          · by_cases top : counter = h.horizon + 1
            · exact Or.inl (by omega)
            · exact Or.inr ((List.mem_erase_of_ne top).mpr kept)
      · rfl

/-- A horizon holds, after an add, what it held and the counter added. -/
theorem holds_add (h : Horizon) (added counter : Nat) :
    (h.add added).Holds counter ↔ h.Holds counter ∨ counter = added := by
  unfold add
  split_ifs with next known
  · rw [holds_advance]
    simp only [Holds]
    subst next
    constructor
    · rintro (below | kept)
      · by_cases top : counter = h.horizon + 1
        · exact Or.inr top
        · exact Or.inl (Or.inl (by omega))
      · exact Or.inl (Or.inr kept)
    · rintro ((below | kept) | rfl)
      · exact Or.inl (by omega)
      · exact Or.inr kept
      · exact Or.inl (Nat.le_refl _)
  · simp only [Holds]
    constructor
    · rintro (below | kept)
      · exact Or.inl (Or.inl below)
      · exact Or.inl (Or.inr kept)
    · rintro (held | rfl)
      · exact held
      · exact Or.inr known
  · simp only [Holds, List.mem_cons]
    tauto

section Represents

variable {h : Horizon} {added : List Nat}

/-- What the loop of `Add` keeps, for the counters `added` so far: the counters up to the bound
and those buffered were added, every added counter above the bound is buffered, and a buffered
counter at or below the bound was added twice. -/
structure Covers (h : Horizon) (added : List Nat) : Prop where
  below : ∀ counter, 1 ≤ counter → counter ≤ h.horizon → counter ∈ added
  buffered : ∀ counter ∈ h.buffered, counter ∈ added
  above : ∀ counter ∈ added, h.horizon < counter → counter ∈ h.buffered
  repeated : ∀ counter ∈ h.buffered, 1 ≤ counter → counter ≤ h.horizon → 2 ≤ added.count counter
  nodup : h.buffered.Nodup

/-- The representation invariant: what the loop keeps, and the loop has passed every buffered
counter that follows the bound. -/
structure Represents (h : Horizon) (added : List Nat) : Prop extends Covers h added where
  next : h.horizon + 1 ∉ h.buffered

theorem represents_empty : Represents empty [] where
  below counter positive bounded := absurd bounded (by simp [empty]; omega)
  buffered _ member := by cases member
  above _ member := by cases member
  repeated _ member := by cases member
  nodup := List.nodup_nil
  next member := by cases member

/-- One pass of the loop moves the bound over the buffered counter that follows it. -/
theorem Covers.pass (covers : Covers h added) (next : h.horizon + 1 ∈ h.buffered) :
    Covers ⟨h.horizon + 1, h.buffered.erase (h.horizon + 1)⟩ added where
  below counter positive bounded := by
    by_cases top : counter = h.horizon + 1
    · exact covers.buffered counter (top ▸ next)
    · exact covers.below counter positive (by simp only at bounded; omega)
  buffered counter member := covers.buffered counter (List.mem_of_mem_erase member)
  above counter member past := by
    have apart : counter ≠ h.horizon + 1 := by simp only at past; omega
    exact (covers.nodup.mem_erase_iff).mpr ⟨apart, covers.above counter member (by simp only at past; omega)⟩
  repeated counter member positive bounded := by
    obtain ⟨apart, kept⟩ := (covers.nodup.mem_erase_iff).mp member
    exact covers.repeated counter kept positive (by simp only at bounded; omega)
  nodup := covers.nodup.erase _

/-- The loop, given a pass for each buffered counter, ends past every one that follows the
bound. -/
theorem Covers.advance (covers : Covers h added) (fuel : Nat) (enough : h.buffered.length ≤ fuel) :
    Represents (advance fuel h) added := by
  induction fuel generalizing h with
  | zero =>
      have empty : h.buffered = [] := List.eq_nil_of_length_eq_zero (Nat.le_zero.mp enough)
      refine ⟨covers, ?_⟩
      show h.horizon + 1 ∉ h.buffered
      rw [empty]
      exact List.not_mem_nil
  | succ fuel ih =>
      rw [Horizon.advance]
      split_ifs with next
      · apply ih (covers.pass next)
        have shorter := List.length_erase_of_mem next
        simp only
        omega
      · exact ⟨covers, next⟩

/-- `Add` keeps the representation invariant, for any counter. -/
theorem Represents.add (represents : Represents h added) (counter : Nat) :
    Represents (h.add counter) (added ++ [counter]) := by
  have more : ∀ other, added.count other ≤ (added ++ [counter]).count other := fun other => by
    rw [List.count_append]
    omega
  unfold Horizon.add
  split_ifs with next known
  · subst next
    have covers : Covers ⟨h.horizon + 1, h.buffered⟩ (added ++ [h.horizon + 1]) := by
      refine ⟨fun other positive bounded => ?_, fun other member => ?_, fun other member past => ?_,
        fun other member positive bounded => ?_, represents.nodup⟩
      · rcases Nat.lt_or_ge other (h.horizon + 1) with low | high
        · exact List.mem_append_left _ (represents.below other positive (by omega))
        · exact List.mem_append_right _ (List.mem_singleton.mpr (by simp only at bounded; omega))
      · exact List.mem_append_left _ (represents.buffered other member)
      · rcases List.mem_append.mp member with old | fresh
        · exact represents.above other old (by simp only at past; omega)
        · simp only [List.mem_singleton] at fresh
          simp only at past
          omega
      · have apart : other ≠ h.horizon + 1 := fun same => represents.next (same ▸ member)
        exact (represents.repeated other member positive (by simp only at bounded; omega)).trans (more other)
    exact covers.advance h.buffered.length (Nat.le_refl _)
  · refine ⟨⟨fun other positive bounded => List.mem_append_left _ (represents.below other positive bounded),
      fun other member => List.mem_append_left _ (represents.buffered other member), fun other member past => ?_,
      fun other member positive bounded => (represents.repeated other member positive bounded).trans (more other),
      represents.nodup⟩, represents.next⟩
    rcases List.mem_append.mp member with old | fresh
    · exact represents.above other old past
    · rw [List.mem_singleton.mp fresh]
      exact known
  · refine ⟨⟨fun other positive bounded => List.mem_append_left _ (represents.below other positive bounded),
      fun other member => ?_, fun other member past => ?_, fun other member positive bounded => ?_,
      List.nodup_cons.mpr ⟨known, represents.nodup⟩⟩, ?_⟩
    · rcases List.mem_cons.mp member with rfl | old
      · exact List.mem_append_right _ (List.mem_singleton_self _)
      · exact List.mem_append_left _ (represents.buffered other old)
    · rcases List.mem_append.mp member with old | fresh
      · exact List.mem_cons_of_mem _ (represents.above other old past)
      · rw [List.mem_singleton.mp fresh]
        exact List.mem_cons_self
    · rcases List.mem_cons.mp member with rfl | old
      · have before := represents.below other positive bounded
        rw [List.count_append, List.count_singleton_self]
        have := List.count_pos_iff.mpr before
        omega
      · exact (represents.repeated other old positive bounded).trans (more other)
    · intro member
      rcases List.mem_cons.mp member with same | old
      · exact next same.symm
      · exact represents.next old

/-- A run of adds keeps the representation invariant for the counters added. -/
theorem represents_foldl (counters : List Nat) : Represents (counters.foldl add empty) counters := by
  induction counters using List.reverseRecOn with
  | nil => exact represents_empty
  | append_singleton counters last ih =>
      rw [List.foldl_append, List.foldl_cons, List.foldl_nil]
      exact ih.add last

/-- The bound is the largest one with every counter from one up to it added. -/
theorem Represents.isGreatest (represents : Represents h added) :
    IsGreatest {bound | ∀ counter, 1 ≤ counter → counter ≤ bound → counter ∈ added} h.horizon := by
  refine ⟨represents.below, fun bound covered => ?_⟩
  by_contra past
  have follows := covered (h.horizon + 1) (by omega) (by omega)
  exact represents.next (represents.above _ follows (by omega))

end Represents

end Horizon

/-- `TxnHorizon`: a horizon for each machine. -/
structure TxnHorizon where
  horizons : Nat → Horizon

namespace TxnHorizon

def empty : TxnHorizon := ⟨fun _ => .empty⟩

def add (horizon : TxnHorizon) (txnId : TxnId) : TxnHorizon :=
  ⟨Function.update horizon.horizons (txnMachineId txnId) ((horizon.horizons (txnMachineId txnId)).add (txnCounter txnId))⟩

def contains (horizon : TxnHorizon) (txnId : TxnId) : Bool :=
  (horizon.horizons (txnMachineId txnId)).contains (txnCounter txnId)

/-- The txns of a machine and counter that the horizon holds are the same. -/
theorem txnId_ext {first second : TxnId} (machine : txnMachineId first = txnMachineId second)
    (counter : txnCounter first = txnCounter second) : first = second := by
  apply Nat.eq_of_testBit_eq
  intro bit
  by_cases low : bit < kMachineIdBits
  · have := congrArg (Nat.testBit · bit) machine
    simpa [txnMachineId, Nat.one_shiftLeft, Nat.and_two_pow_sub_one_eq_mod, Nat.testBit_mod_two_pow, low] using this
  · have := congrArg (Nat.testBit · (bit - kMachineIdBits)) counter
    simp only [txnCounter, Nat.testBit_shiftRight] at this
    rwa [Nat.add_sub_cancel' (Nat.le_of_not_lt low)] at this

/-- The horizon holds, after an add, what it held and the txn added. -/
theorem contains_add (horizon : TxnHorizon) (added txnId : TxnId) :
    (horizon.add added).contains txnId = true ↔ horizon.contains txnId = true ∨ txnId = added := by
  simp only [contains, add, Horizon.contains_iff]
  by_cases machine : txnMachineId txnId = txnMachineId added
  · rw [machine, Function.update_self, Horizon.holds_add]
    constructor
    · rintro (held | counter)
      · exact Or.inl held
      · exact Or.inr (txnId_ext machine counter)
    · rintro (held | rfl)
      · exact Or.inl held
      · exact Or.inr rfl
  · rw [Function.update_of_ne machine]
    constructor
    · exact Or.inl
    · rintro (held | rfl)
      · exact held
      · exact absurd rfl machine

/-- The empty horizon holds exactly the txns of counter zero. -/
theorem contains_empty (txnId : TxnId) : empty.contains txnId = true ↔ txnCounter txnId = 0 := by
  simp [contains, empty, Horizon.contains, Horizon.empty]

/-- The horizon after a run of adds holds the txns added and those of counter zero. -/
theorem contains_foldl_add (added : List TxnId) (txnId : TxnId) :
    (added.foldl add empty).contains txnId = true ↔ txnId ∈ added ∨ txnCounter txnId = 0 := by
  induction added using List.reverseRecOn with
  | nil => simp [contains_empty]
  | append_singleton added last ih =>
      rw [List.foldl_append, List.foldl_cons, List.foldl_nil, contains_add, ih, List.mem_append, List.mem_singleton]
      tauto

/-- The counters of the txns of one machine among those added, in the order they were added. -/
def countersOf (added : List TxnId) (machine : Nat) : List Nat :=
  (added.filter (txnMachineId · = machine)).map txnCounter

theorem countersOf_append (added : List TxnId) (last : TxnId) (machine : Nat) :
    countersOf (added ++ [last]) machine =
      if txnMachineId last = machine then countersOf added machine ++ [txnCounter last] else countersOf added machine := by
  unfold countersOf
  by_cases here : txnMachineId last = machine <;> simp [List.filter_append, here]

/-- After a run of adds, the horizon of each machine represents the counters of that machine's
txns among those added. -/
theorem represents_foldl (added : List TxnId) (machine : Nat) :
    ((added.foldl add empty).horizons machine).Represents (countersOf added machine) := by
  induction added using List.reverseRecOn with
  | nil => exact Horizon.represents_empty
  | append_singleton added last ih =>
      rw [List.foldl_append, List.foldl_cons, List.foldl_nil, countersOf_append]
      by_cases here : txnMachineId last = machine
      · subst here
        simp only [add, Function.update_self]
        exact ih.add _
      · simp only [add, Function.update_of_ne (Ne.symm here), if_neg here]
        exact ih

/-- `TxnHorizon` is the set of txns added. Over txn ids of counter at least one, as a server
hands them out, it holds exactly the txns added. The horizon of each machine is the largest
bound with every counter from one up to it added, and it buffers only counters added, each
beyond the counter that follows the bound, or, at or below the bound, added a second time. -/
theorem txnHorizon_holds_added (added : List TxnId) (issued : ∀ txnId ∈ added, 1 ≤ txnCounter txnId) :
    (∀ txnId, 1 ≤ txnCounter txnId → ((added.foldl add empty).contains txnId = true ↔ txnId ∈ added)) ∧
      ∀ machine,
        IsGreatest {bound | ∀ counter, 1 ≤ counter → counter ≤ bound → counter ∈ countersOf added machine}
          ((added.foldl add empty).horizons machine).horizon ∧
        ∀ counter ∈ ((added.foldl add empty).horizons machine).buffered, counter ∈ countersOf added machine ∧
          (((added.foldl add empty).horizons machine).horizon + 1 < counter ∨
            counter ≤ ((added.foldl add empty).horizons machine).horizon ∧
              2 ≤ (countersOf added machine).count counter) := by
  refine ⟨fun txnId positive => ?_, fun machine => ?_⟩
  · rw [contains_foldl_add]
    constructor
    · rintro (member | zero)
      · exact member
      · omega
    · exact Or.inl
  · have represents := represents_foldl added machine
    refine ⟨represents.isGreatest, fun counter member => ⟨represents.buffered counter member, ?_⟩⟩
    have positive : 1 ≤ counter := by
      obtain ⟨txnId, found, rfl⟩ := List.mem_map.mp (represents.buffered counter member)
      exact issued txnId (List.mem_of_mem_filter found)
    by_cases low : counter ≤ ((added.foldl add empty).horizons machine).horizon
    · exact Or.inr ⟨low, represents.repeated counter member positive low⟩
    · have apart : counter ≠ ((added.foldl add empty).horizons machine).horizon + 1 := fun same =>
        represents.next (same ▸ member)
      exact Or.inl (by omega)

theorem txnHorizon_holds_two_added :
    (∀ txnId, 1 ≤ txnCounter txnId →
        (([txnIdOf 0 2, txnIdOf 0 1].foldl add empty).contains txnId = true ↔ txnId ∈ [txnIdOf 0 2, txnIdOf 0 1])) ∧
      ∀ machine,
        IsGreatest {bound | ∀ counter, 1 ≤ counter → counter ≤ bound →
            counter ∈ countersOf [txnIdOf 0 2, txnIdOf 0 1] machine}
          (([txnIdOf 0 2, txnIdOf 0 1].foldl add empty).horizons machine).horizon ∧
        ∀ counter ∈ (([txnIdOf 0 2, txnIdOf 0 1].foldl add empty).horizons machine).buffered,
          counter ∈ countersOf [txnIdOf 0 2, txnIdOf 0 1] machine ∧
          ((([txnIdOf 0 2, txnIdOf 0 1].foldl add empty).horizons machine).horizon + 1 < counter ∨
            counter ≤ (([txnIdOf 0 2, txnIdOf 0 1].foldl add empty).horizons machine).horizon ∧
              2 ≤ (countersOf [txnIdOf 0 2, txnIdOf 0 1] machine).count counter) :=
  txnHorizon_holds_added [txnIdOf 0 2, txnIdOf 0 1] (by decide)

end TxnHorizon

end Slog.Janus
