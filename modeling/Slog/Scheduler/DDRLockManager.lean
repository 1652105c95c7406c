import Slog.Common.Types

namespace Slog.DDR

/-- The tail of a lock queue. It is never updated on release, so it may name txns that
have already left the lock manager. -/
structure LockQueueTail where
  writeLockRequester : Option TxnId
  readLockRequesters : List TxnId
  deriving DecidableEq, Repr

def LockQueueTail.empty : LockQueueTail := ⟨none, []⟩

def LockQueueTail.acquireReadLock (tail : LockQueueTail) (txnId : TxnId) :
    Option TxnId × LockQueueTail :=
  (tail.writeLockRequester, { tail with readLockRequesters := tail.readLockRequesters ++ [txnId] })

def LockQueueTail.acquireWriteLock (tail : LockQueueTail) (txnId : TxnId) :
    List TxnId × LockQueueTail :=
  let deps := if tail.readLockRequesters.isEmpty then tail.writeLockRequester.toList
    else tail.readLockRequesters
  (deps, ⟨some txnId, []⟩)

/-- The `TxnInfo` of a txn; its waited-by list starts with one empty slot for the resolver. -/
structure TxnInfo where
  id : TxnId
  waitedBy : List TxnId
  numWaitingFor : Int
  unarrivedLockRequests : Int
  deadlocked : Bool
  deriving DecidableEq, Repr

def TxnInfo.init (txnId : TxnId) (unarrived : Int) : TxnInfo :=
  ⟨txnId, [kSentinelTxnId], 0, unarrived, false⟩

def TxnInfo.isReady (info : TxnInfo) : Bool :=
  info.numWaitingFor == 0 && info.unarrivedLockRequests == 0

structure LogEntry where
  txnId : TxnId
  numPartitions : Int
  isComplete : Bool
  incomingEdges : List TxnId
  deriving DecidableEq, Repr

/-- The lock manager's state. The maps are functions; `lock_table_[k]` creates an empty
tail on first use, which is the default of `lockTable`. -/
structure DDRLockManager where
  lockTable : KeyRegion → LockQueueTail
  txnInfo : TxnId → Option TxnInfo
  log : Fin 2 → List LogEntry
  logIndex : Fin 2
  readyTxns : List TxnId
  /-- `dl_resolver_` is set: the resolver was initialized and log entries are kept. -/
  hasResolver : Bool
  numDeadlocksResolved : Nat

def DDRLockManager.init (hasResolver : Bool) : DDRLockManager :=
  ⟨fun _ => LockQueueTail.empty, fun _ => none, fun _ => [], 0, [], hasResolver, 0⟩

/-- The loop of `AcquireLocks` over the keys: the count of keys homed here, the blocking
txns found so far and the lock table. -/
structure KeyScan where
  numRelevantLocks : Int
  blockingTxns : List TxnId
  lockTable : KeyRegion → LockQueueTail

/-- One key of `AcquireLocks`: a key homed elsewhere is skipped, except in a remaster txn. -/
def scanKey (txn : Transaction) (scan : KeyScan) (kv : KeyValueEntry) : KeyScan :=
  if txn.isRelevant kv then
    let keyRegion := makeKeyRegion kv.key txn.internal.home
    let tail := scan.lockTable keyRegion
    match kv.valueEntry.type with
    | .read =>
        let (blocker, tail') := tail.acquireReadLock txn.internal.id
        ⟨scan.numRelevantLocks + 1, scan.blockingTxns ++ blocker.toList,
          Function.update scan.lockTable keyRegion tail'⟩
    | .write =>
        let (blockers, tail') := tail.acquireWriteLock txn.internal.id
        ⟨scan.numRelevantLocks + 1, scan.blockingTxns ++ blockers,
          Function.update scan.lockTable keyRegion tail'⟩
  else scan

/-- One blocking txn: it gets the new txn in its waited-by list and the new txn counts it,
unless it is the txn itself or has already left the lock manager. -/
def addWaitedBy (txnId : TxnId) (table : TxnId → Option TxnInfo) (blocker : TxnId) :
    TxnId → Option TxnInfo :=
  if blocker = txnId then table else
  match table blocker, table txnId with
  | some blockerInfo, some info =>
      Function.update
        (Function.update table txnId (some { info with numWaitingFor := info.numWaitingFor + 1 }))
        blocker (some { blockerInfo with waitedBy := blockerInfo.waitedBy ++ [txnId] })
  | _, _ => table

/-- The txn info table after `try_emplace` and the count of newly arrived lock requests. -/
def arrive (table : TxnId → Option TxnInfo) (txnId : TxnId) (required relevant : Int) :
    TxnId → Option TxnInfo :=
  let info := (table txnId).getD (TxnInfo.init txnId required)
  Function.update table txnId (some { info with unarrivedLockRequests := info.unarrivedLockRequests - relevant })

@[simp] theorem arrive_self (table : TxnId → Option TxnInfo) (txnId : TxnId) (required relevant : Int) :
    arrive table txnId required relevant txnId =
      some { (table txnId).getD (TxnInfo.init txnId required) with
        unarrivedLockRequests :=
          ((table txnId).getD (TxnInfo.init txnId required)).unarrivedLockRequests - relevant } := by
  simp [arrive]

theorem arrive_of_ne {table : TxnId → Option TxnInfo} {txnId other : TxnId} (required relevant : Int)
    (different : other ≠ txnId) : arrive table txnId required relevant other = table other := by
  simp [arrive, different]

def DDRLockManager.acquireLocks (lm : DDRLockManager) (txn : Transaction) :
    AcquireLocksResult × DDRLockManager :=
  let txnId := txn.internal.id
  let scan := txn.keys.foldl (scanKey txn) ⟨0, [], lm.lockTable⟩
  let blockingTxns := sortUnique scan.blockingTxns
  let arrived := arrive lm.txnInfo txnId txn.numRequiredLocks scan.numRelevantLocks
  let isComplete := ((arrived txnId).map (·.unarrivedLockRequests)) == some 0
  let table := blockingTxns.foldl (addWaitedBy txnId) arrived
  let result := if ((table txnId).map TxnInfo.isReady) == some true then AcquireLocksResult.acquired
    else AcquireLocksResult.waiting
  let log := if lm.hasResolver then
      Function.update lm.log lm.logIndex
        (lm.log lm.logIndex ++ [⟨txnId, txn.internal.involvedPartitions.length, isComplete, blockingTxns⟩])
    else lm.log
  (result, { lm with lockTable := scan.lockTable, txnInfo := table, log := log })

/-- One entry of the released txn's waited-by list: the blocked txn counts one blocker less,
and it is reported with its deadlocked flag once the count reaches zero. An id that is no
longer in the table is only logged by the source ('Blocked txn does not exist'). -/
def releaseWaiter (acc : List (TxnId × Bool) × (TxnId → Option TxnInfo)) (blocked : TxnId) :
    List (TxnId × Bool) × (TxnId → Option TxnInfo) :=
  if blocked = kSentinelTxnId then acc else
  match acc.2 blocked with
  | none => acc
  | some info =>
      let info' := { info with numWaitingFor := info.numWaitingFor - 1 }
      (if info'.isReady then acc.1 ++ [(blocked, info'.deadlocked)] else acc.1,
        Function.update acc.2 blocked (some info'))

/-- `ReleaseLocks`; the `CHECK` on an unready txn ends the program, here an error. -/
def DDRLockManager.releaseLocks (lm : DDRLockManager) (txnId : TxnId) :
    Except String (List (TxnId × Bool) × DDRLockManager) :=
  match lm.txnInfo txnId with
  | none => .ok ([], lm)
  | some info =>
      if !info.isReady then .error "Releasing unready txn" else
      let (result, table) := info.waitedBy.foldl releaseWaiter ([], lm.txnInfo)
      .ok (result, { lm with txnInfo := Function.update table txnId none })

def DDRLockManager.getReadyTxns (lm : DDRLockManager) : List TxnId × DDRLockManager :=
  (lm.readyTxns, { lm with readyTxns := [] })

end Slog.DDR
