import Slog.Common.Types

namespace Slog.RMA

inductive LockMode where
  | unlocked
  | read
  | write
  deriving DecidableEq, Repr

/-- The lock on one key-region: its holders and the queue of waiting requests. -/
structure LockState where
  mode : LockMode
  holders : List TxnId
  waiterQueue : List (TxnId × LockMode)
  deriving DecidableEq, Repr

def LockState.empty : LockState := ⟨.unlocked, [], []⟩

def LockState.acquireReadLock (state : LockState) (txnId : TxnId) : Bool × LockState :=
  match state.mode with
  | .unlocked => (true, { state with holders := state.holders ++ [txnId], mode := .read })
  | .read =>
      if state.waiterQueue.isEmpty then (true, { state with holders := state.holders ++ [txnId] })
      else (false, { state with waiterQueue := state.waiterQueue ++ [(txnId, .read)] })
  | .write => (false, { state with waiterQueue := state.waiterQueue ++ [(txnId, .read)] })

def LockState.acquireWriteLock (state : LockState) (txnId : TxnId) : Bool × LockState :=
  match state.mode with
  | .unlocked => (true, { state with holders := state.holders ++ [txnId], mode := .write })
  | .read | .write => (false, { state with waiterQueue := state.waiterQueue ++ [(txnId, .write)] })

/-- `Release` removes a waiter from anywhere in the queue, or a holder; when the last holder
leaves, the lock passes to the reads at the front of the queue or to its front write. The
returned list is `holders_` after the hand-off. -/
def LockState.release (state : LockState) (txnId : TxnId) : List TxnId × LockState :=
  if txnId ∉ state.holders then
    ([], { state with waiterQueue := state.waiterQueue.filter (fun waiter => waiter.1 != txnId) })
  else
    let holders := state.holders.erase txnId
    if !holders.isEmpty then ([], { state with holders := holders }) else
    match state.waiterQueue with
    | [] => ([], { state with holders := holders, mode := .unlocked })
    | front :: rest =>
        if front.2 = .read then
          let granted := (state.waiterQueue.takeWhile (fun waiter => waiter.2 = .read)).map Prod.fst
          (holders ++ granted, ⟨.read, holders ++ granted,
            state.waiterQueue.dropWhile (fun waiter => waiter.2 = .read)⟩)
        else if front.2 = .write then
          (holders ++ [front.1], ⟨.write, holders ++ [front.1], rest⟩)
        else (holders, { state with holders := holders })

structure TxnInfo where
  numWaitingFor : Int
  keys : List KeyRegion
  deriving DecidableEq, Repr

def TxnInfo.isReady (info : TxnInfo) : Bool := info.numWaitingFor == 0

structure RMALockManager where
  txnInfo : TxnId → Option TxnInfo
  lockTable : KeyRegion → LockState

def RMALockManager.init : RMALockManager := ⟨fun _ => none, fun _ => LockState.empty⟩

/-- One key of `AcquireLocks`: the key-region joins the txn's keys, and a granted lock
counts one lock less to wait for. -/
def acquireKey (txn : Transaction) (acc : TxnInfo × (KeyRegion → LockState)) (kv : KeyValueEntry) :
    TxnInfo × (KeyRegion → LockState) :=
  if txn.isRelevant kv then
    let keyRegion := makeKeyRegion kv.key txn.internal.home
    let (granted, lockState) := match kv.valueEntry.type with
      | .read => (acc.2 keyRegion).acquireReadLock txn.internal.id
      | .write => (acc.2 keyRegion).acquireWriteLock txn.internal.id
    ({ numWaitingFor := if granted then acc.1.numWaitingFor - 1 else acc.1.numWaitingFor,
       keys := acc.1.keys ++ [keyRegion] },
      Function.update acc.2 keyRegion lockState)
  else acc

def RMALockManager.acquireLocks (lm : RMALockManager) (txn : Transaction) :
    AcquireLocksResult × RMALockManager :=
  let txnId := txn.internal.id
  let info := (lm.txnInfo txnId).getD ⟨txn.numRequiredLocks, []⟩
  let (info, lockTable) := txn.keys.foldl (acquireKey txn) (info, lm.lockTable)
  (if info.isReady then .acquired else .waiting,
    ⟨Function.update lm.txnInfo txnId (some info), lockTable⟩)

/-- A new lock holder counts one lock less; it is reported once it holds all of them. -/
def grantTo (acc : List TxnId × (TxnId → Option TxnInfo)) (newTxn : TxnId) :
    List TxnId × (TxnId → Option TxnInfo) :=
  match acc.2 newTxn with
  | none => acc
  | some info =>
      let info' := { info with numWaitingFor := info.numWaitingFor - 1 }
      (if info'.isReady then acc.1 ++ [newTxn] else acc.1, Function.update acc.2 newTxn (some info'))

/-- One key-region of `ReleaseLocks`. -/
def releaseKey (txnId : TxnId)
    (acc : List TxnId × (TxnId → Option TxnInfo) × (KeyRegion → LockState)) (keyRegion : KeyRegion) :
    List TxnId × (TxnId → Option TxnInfo) × (KeyRegion → LockState) :=
  let (newGrantees, lockState) := (acc.2.2 keyRegion).release txnId
  let (result, table) := newGrantees.foldl grantTo (acc.1, acc.2.1)
  (result, table, Function.update acc.2.2 keyRegion lockState)

def RMALockManager.releaseLocks (lm : RMALockManager) (txnId : TxnId) :
    List TxnId × RMALockManager :=
  match lm.txnInfo txnId with
  | none => ([], lm)
  | some info =>
      let (result, table, lockTable) := info.keys.foldl (releaseKey txnId) ([], lm.txnInfo, lm.lockTable)
      (sortUnique result, ⟨Function.update table txnId none, lockTable⟩)

end Slog.RMA
