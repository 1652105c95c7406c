/-
The parts of a transaction that the scheduler components read (`common/types.h`,
`proto/transaction.proto`).
-/

import Mathlib.Data.List.Sort
import Mathlib.Data.List.Destutter

namespace Slog

abbrev TxnId := Nat
abbrev Key := String

/-- The id that marks an empty slot of a waited-by list (`kSentinelTxnId`). -/
def kSentinelTxnId : TxnId := 0

/-- `kMachineIdBits`: a machine id packs a region, a replica and a partition id. -/
def kMachineIdBits : Nat := 32

/-- `1 << p` on an `int`, widened to a `uint64_t` bitmap: bit `p` below 31; at 31 the int is
negative and its sign fills bits 31 to 63; from 32 on the shift is undefined, a fault here. -/
def intBit (p : Nat) : Except String Nat :=
  if p < 31 then .ok (1 <<< p) else if p = 31 then .ok ((1 <<< 64) - (1 <<< 31)) else .error "1 << p overflows an int"

/-- A lock is taken on a key in one region; `MakeKeyRegion` joins the two with a colon,
and since a region is printed in digits only, the pair is recovered from the string. -/
abbrev KeyRegion := Key × Int

def makeKeyRegion (key : Key) (master : Int) : KeyRegion := (key, master)

inductive KeyType where
  | read
  | write
  deriving DecidableEq, Repr

def KeyType.isWrite : KeyType → Bool
  | .read => false
  | .write => true

structure MasterMetadata where
  master : Nat
  counter : Nat
  deriving DecidableEq, Repr

/-- An unset `metadata` field reads as the default message, with master and counter zero. -/
structure ValueEntry where
  type : KeyType
  metadata : Option MasterMetadata
  deriving DecidableEq, Repr

def ValueEntry.master (entry : ValueEntry) : Nat :=
  (entry.metadata.map MasterMetadata.master).getD 0

def ValueEntry.counter (entry : ValueEntry) : Nat :=
  (entry.metadata.map MasterMetadata.counter).getD 0

structure KeyValueEntry where
  key : Key
  valueEntry : ValueEntry
  deriving DecidableEq, Repr

inductive TransactionType where
  | unknown
  | singleHome
  | multiHomeOrLockOnly
  deriving DecidableEq, Repr

structure RemasterProcedure where
  newMaster : Nat
  isNewMasterLockOnly : Bool
  deriving DecidableEq, Repr

structure TransactionInternal where
  id : TxnId
  type : TransactionType
  home : Int
  involvedPartitions : List Nat
  involvedRegions : List Nat
  deriving DecidableEq, Repr

/-- The `program` oneof is either a code procedure list or a remaster procedure;
only the remaster case is read by the modelled functions. -/
structure Transaction where
  internal : TransactionInternal
  remaster : Option RemasterProcedure
  keys : List KeyValueEntry
  deriving DecidableEq, Repr

/-- This is `program_case() == Transaction::kRemaster`. -/
def Transaction.isRemaster (txn : Transaction) : Bool := txn.remaster.isSome

/-- A key counts for the lock of a lock-only txn when its master is the txn's home,
or for every key of a remaster txn. -/
def Transaction.isRelevant (txn : Transaction) (kv : KeyValueEntry) : Bool :=
  txn.isRemaster || decide ((kv.valueEntry.master : Int) = txn.internal.home)

/-- The locks a txn needs in all: two for a remaster txn (old and new region). -/
def Transaction.numRequiredLocks (txn : Transaction) : Int :=
  if txn.isRemaster then 2 else txn.keys.length

/-- A batch of txns (`internal::Batch`): its id and the txns the batcher put in it. -/
structure Batch where
  id : Nat
  transactions : List Transaction
  deriving DecidableEq, Repr

inductive AcquireLocksResult where
  | acquired
  | waiting
  | abort
  deriving DecidableEq, Repr

/-- `std::sort` followed by `std::unique`. -/
def sortUnique (ids : List TxnId) : List TxnId :=
  (ids.mergeSort (· ≤ ·)).destutter (· ≠ ·)

theorem sortUnique_eq_dedup (ids : List TxnId) :
    sortUnique ids = (ids.mergeSort (· ≤ ·)).dedup := by
  have transitive : ∀ a b c : Nat, decide (a ≤ b) = true → decide (b ≤ c) = true →
      decide (a ≤ c) = true := by
    intro a b c first second
    simp only [decide_eq_true_eq] at *
    omega
  have total : ∀ a b : Nat, (decide (a ≤ b) || decide (b ≤ a)) = true := by
    intro a b
    simp only [Bool.or_eq_true, decide_eq_true_eq]
    omega
  have sorted : (ids.mergeSort (· ≤ ·)).Pairwise (· ≤ ·) := by
    simpa using List.pairwise_mergeSort transitive total ids
  exact sorted.destutter_eq_dedup

/-- The sort as insertion sort, which the kernel can evaluate. -/
theorem sortUnique_eq_insertionSort (ids : List TxnId) :
    sortUnique ids = (ids.insertionSort (· ≤ ·)).destutter (· ≠ ·) := by
  rw [sortUnique, List.mergeSort_eq_insertionSort (fun a b : Nat => a ≤ b)]

@[simp] theorem mem_sortUnique {ids : List TxnId} {id : TxnId} :
    id ∈ sortUnique ids ↔ id ∈ ids := by
  rw [sortUnique_eq_dedup, List.mem_dedup, List.mem_mergeSort]

theorem nodup_sortUnique (ids : List TxnId) : (sortUnique ids).Nodup := by
  rw [sortUnique_eq_dedup]
  exact List.nodup_dedup _

end Slog
