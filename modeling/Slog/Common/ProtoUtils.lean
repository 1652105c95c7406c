/-
The functions of `common/proto_utils.cpp` that shape a txn for the schedulers: the forwarder's
setup and the batcher's lock-only and partitioned txns, in the default build.
-/

import Mathlib
import Slog.Common.Types

namespace Slog

/-- The master of a txn's first key (`txn.keys().begin()->value_entry().metadata().master()`). -/
def firstMaster (txn : Transaction) : Nat := (txn.keys.head?.map fun kv => kv.valueEntry.master).getD 0

/-- `SetTransactionType`: a txn whose keys all carry master metadata is single-home when they
share one master, and multi-home (home -1) otherwise; a remaster txn is always multi-home. -/
def setTransactionType (txn : Transaction) : Transaction :=
  let complete := !txn.keys.isEmpty && txn.keys.all fun kv => kv.valueEntry.metadata.isSome
  if !complete then { txn with internal := { txn.internal with type := .unknown } } else
  let home := firstMaster txn
  let isSingleHome := txn.keys.all (fun kv => kv.valueEntry.master = home) && !txn.isRemaster
  if isSingleHome then { txn with internal := { txn.internal with type := .singleHome, home := home } }
  else { txn with internal := { txn.internal with type := .multiHomeOrLockOnly, home := -1 } }

/-- `PopulateInvolvedRegions`: the masters of the keys, and the new master of a remaster txn,
sorted and without repeats. -/
def populateInvolvedRegions (txn : Transaction) : Transaction :=
  match txn.internal.type with
  | .unknown => txn
  | .singleHome =>
      { txn with internal := { txn.internal with
          involvedRegions := (txn.keys.head?.map fun kv => kv.valueEntry.master).toList } }
  | .multiHomeOrLockOnly =>
      let masters := txn.keys.map fun kv => kv.valueEntry.master
      let involved := masters ++ (txn.remaster.map RemasterProcedure.newMaster).toList
      { txn with internal := { txn.internal with
          involvedRegions := txn.internal.involvedRegions ++ sortUnique involved } }

/-- `PopulateInvolvedPartitions`: the partitions of the keys, in increasing order. -/
def populateInvolvedPartitions (numPartitions : Nat) (partitionOf : Key → Nat) (txn : Transaction) :
    Transaction :=
  { txn with internal := { txn.internal with
      involvedPartitions := txn.internal.involvedPartitions ++
        (List.range numPartitions).filter fun p => txn.keys.any fun kv => partitionOf kv.key = p } }

/-- `GenerateLockOnlyTxn`: the lock-only txn a region makes of a multi-home txn has that region
as its home; at the new master, a remaster txn is marked as its lock-only txn there. -/
def generateLockOnlyTxn (txn : Transaction) (loMaster : Nat) : Transaction :=
  let lockOnlyTxn := { txn with internal := { txn.internal with home := loMaster } }
  match lockOnlyTxn.remaster with
  | some remaster =>
      if remaster.newMaster = loMaster then
        { lockOnlyTxn with remaster := some { remaster with isNewMasterLockOnly := true } }
      else lockOnlyTxn
  | none => lockOnlyTxn

/-- The regions marked in `GeneratePartitionedTxn`'s vector of involved regions, which starts
with eight entries and grows to hold every master. -/
def involvedRegionsOf (keys : List KeyValueEntry) : List Nat :=
  (List.range (keys.foldl (fun size kv => max size (kv.valueEntry.master + 1)) 8)).filter
    fun region => keys.any fun kv => kv.valueEntry.master = region

/-- `GeneratePartitionedTxn`: the part of a txn on one partition. It is dropped when it has no
key there, or, unless it remasters, no key there mastered at its home; the involved regions of
a multi-home txn become the masters of the keys left. -/
def generatePartitionedTxn (partitionOf : Key → Nat) (txn : Transaction) (partition : Nat) :
    Option Transaction :=
  let keys := txn.keys.filter fun kv => partitionOf kv.key = partition
  let isRedundant := !txn.isRemaster && keys.all fun kv => (kv.valueEntry.master : Int) ≠ txn.internal.home
  if keys.isEmpty || isRedundant then none else
  let partitioned := { txn with keys := keys }
  if partitioned.internal.type = .multiHomeOrLockOnly then
    some { partitioned with internal := { partitioned.internal with involvedRegions := involvedRegionsOf keys } }
  else some partitioned

section Fields

variable {txn : Transaction}

@[simp] theorem setTransactionType_keys : (setTransactionType txn).keys = txn.keys := by
  simp only [setTransactionType]
  split_ifs <;> rfl

@[simp] theorem setTransactionType_remaster : (setTransactionType txn).remaster = txn.remaster := by
  simp only [setTransactionType]
  split_ifs <;> rfl

@[simp] theorem setTransactionType_id : (setTransactionType txn).internal.id = txn.internal.id := by
  simp only [setTransactionType]
  split_ifs <;> rfl

@[simp] theorem setTransactionType_involvedPartitions :
    (setTransactionType txn).internal.involvedPartitions = txn.internal.involvedPartitions := by
  simp only [setTransactionType]
  split_ifs <;> rfl

@[simp] theorem setTransactionType_involvedRegions :
    (setTransactionType txn).internal.involvedRegions = txn.internal.involvedRegions := by
  simp only [setTransactionType]
  split_ifs <;> rfl

@[simp] theorem populateInvolvedRegions_keys : (populateInvolvedRegions txn).keys = txn.keys := by
  unfold populateInvolvedRegions
  split <;> rfl

@[simp] theorem populateInvolvedRegions_remaster : (populateInvolvedRegions txn).remaster = txn.remaster := by
  unfold populateInvolvedRegions
  split <;> rfl

@[simp] theorem populateInvolvedRegions_id : (populateInvolvedRegions txn).internal.id = txn.internal.id := by
  unfold populateInvolvedRegions
  split <;> rfl

@[simp] theorem populateInvolvedRegions_type : (populateInvolvedRegions txn).internal.type = txn.internal.type := by
  unfold populateInvolvedRegions
  split <;> rfl

@[simp] theorem populateInvolvedRegions_home : (populateInvolvedRegions txn).internal.home = txn.internal.home := by
  unfold populateInvolvedRegions
  split <;> rfl

@[simp] theorem populateInvolvedRegions_involvedPartitions :
    (populateInvolvedRegions txn).internal.involvedPartitions = txn.internal.involvedPartitions := by
  unfold populateInvolvedRegions
  split <;> rfl

@[simp] theorem generateLockOnlyTxn_keys (loMaster : Nat) : (generateLockOnlyTxn txn loMaster).keys = txn.keys := by
  obtain ⟨internal, _ | remaster, keys⟩ := txn
  · rfl
  · simp only [generateLockOnlyTxn]
    split_ifs <;> rfl

@[simp] theorem generateLockOnlyTxn_internal (loMaster : Nat) :
    (generateLockOnlyTxn txn loMaster).internal = { txn.internal with home := loMaster } := by
  obtain ⟨internal, _ | remaster, keys⟩ := txn
  · rfl
  · simp only [generateLockOnlyTxn]
    split_ifs <;> rfl

@[simp] theorem generateLockOnlyTxn_isRemaster (loMaster : Nat) :
    (generateLockOnlyTxn txn loMaster).isRemaster = txn.isRemaster := by
  obtain ⟨internal, _ | remaster, keys⟩ := txn
  · rfl
  · simp only [generateLockOnlyTxn]
    split_ifs <;> rfl

end Fields

section TransactionType

variable {txn : Transaction}

/-- A txn whose keys all carry master metadata, share one master and do not remaster is made
single-home at that master. -/
theorem setTransactionType_of_singleHome
    (complete : (!txn.keys.isEmpty && txn.keys.all fun kv => kv.valueEntry.metadata.isSome) = true)
    (single : (txn.keys.all fun kv => kv.valueEntry.master = firstMaster txn) = true)
    (notRemaster : txn.isRemaster = false) :
    setTransactionType txn =
      { txn with internal := { txn.internal with type := .singleHome, home := firstMaster txn } } := by
  simp only [setTransactionType]
  rw [if_neg (by simp [complete]), if_pos (by simp [single, notRemaster])]

/-- Any other txn whose keys all carry master metadata is made multi-home, with home -1. -/
theorem setTransactionType_of_multiHome
    (complete : (!txn.keys.isEmpty && txn.keys.all fun kv => kv.valueEntry.metadata.isSome) = true)
    (multi : ¬((txn.keys.all fun kv => kv.valueEntry.master = firstMaster txn) = true ∧ txn.isRemaster = false)) :
    setTransactionType txn =
      { txn with internal := { txn.internal with type := .multiHomeOrLockOnly, home := -1 } } := by
  simp only [setTransactionType]
  rw [if_neg (by simp [complete]), if_neg (by simpa using multi)]

end TransactionType

section InvolvedRegions

theorem foldl_max_le (keys : List KeyValueEntry) :
    ∀ size, size ≤ keys.foldl (fun size kv => max size (kv.valueEntry.master + 1)) size ∧
      ∀ kv ∈ keys, kv.valueEntry.master < keys.foldl (fun size kv => max size (kv.valueEntry.master + 1)) size := by
  induction keys with
  | nil => simp
  | cons first rest ih =>
      intro size
      obtain ⟨grows, bounds⟩ := ih (max size (first.valueEntry.master + 1))
      refine ⟨by simp only [List.foldl_cons]; omega, fun kv member => ?_⟩
      rcases List.mem_cons.mp member with rfl | later
      · simp only [List.foldl_cons]
        omega
      · exact bounds kv later

/-- The regions of `GeneratePartitionedTxn` are the masters of the keys kept. -/
@[simp] theorem mem_involvedRegionsOf {keys : List KeyValueEntry} {region : Nat} :
    region ∈ involvedRegionsOf keys ↔ ∃ kv ∈ keys, kv.valueEntry.master = region := by
  simp only [involvedRegionsOf, List.mem_filter, List.mem_range, List.any_eq_true, decide_eq_true_eq]
  constructor
  · exact fun ⟨_, found⟩ => found
  · rintro ⟨kv, member, rfl⟩
    exact ⟨(foldl_max_le keys 8).2 kv member, kv, member, rfl⟩

theorem nodup_involvedRegionsOf (keys : List KeyValueEntry) : (involvedRegionsOf keys).Nodup :=
  (List.nodup_range).filter _

end InvolvedRegions

/-- Keys counted home by home, over distinct homes, are counted once each. -/
theorem sum_length_filter_homes (keys : List KeyValueEntry) :
    ∀ homes : List Int, homes.Nodup →
    (homes.map fun home => (keys.filter fun kv => (kv.valueEntry.master : Int) = home).length).sum =
      (keys.filter fun kv => (kv.valueEntry.master : Int) ∈ homes).length
  | [], _ => by simp
  | home :: homes, distinct => by
      have fresh := (List.nodup_cons.mp distinct).1
      have split : (keys.filter fun kv => (kv.valueEntry.master : Int) ∈ home :: homes).length =
          ((keys.filter fun kv => (kv.valueEntry.master : Int) ∈ home :: homes).filter
            fun kv => (kv.valueEntry.master : Int) = home).length +
          ((keys.filter fun kv => (kv.valueEntry.master : Int) ∈ home :: homes).filter
            fun kv => !decide ((kv.valueEntry.master : Int) = home)).length :=
        List.length_eq_length_filter_add _
      rw [List.map_cons, List.sum_cons, sum_length_filter_homes keys homes (List.nodup_cons.mp distinct).2,
        split, List.filter_filter, List.filter_filter]
      congr 2
      · apply List.filter_congr
        intro kv _
        by_cases here : (kv.valueEntry.master : Int) = home <;> simp [here]
      · apply List.filter_congr
        intro kv _
        by_cases here : (kv.valueEntry.master : Int) = home
        · simp [here, fresh]
        · simp [here]

end Slog
