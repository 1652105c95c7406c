/-
`Worker` (`module/scheduler_components/worker.cpp`): local reads, remote reads through the broker's
redirection, execution and finish of a dispatched txn.
-/

import Slog.Execution.KeyOrder

namespace Slog

open Execution

/-- `RunId`: a txn id, and whether the txn runs again after a deadlock was resolved. -/
abbrev RunId := TxnId × Bool

/-- `MakeTag`: the channel of the broker that the remote reads of a run go to. -/
def makeTag (runId : RunId) : Nat := runId.1 * 10 + if runId.2 then 1 else 0

/-- `UnpackMachineId`: the region, replica and partition of a machine id. -/
def unpackMachineId (id : Nat) : Nat × Nat × Nat :=
  ((id >>> 24) % 2 ^ 8, (id >>> 16) % 2 ^ 8, id % 2 ^ 16)

/-- The lock manager of the build: `LOCK_MANAGER_DDR`, or the remaster-aware one. -/
inductive LockManager where
  | ddr
  | rma
  deriving DecidableEq, Repr

/-- The `program` of a txn: code procedures, a remaster to a new master, or neither. -/
inductive Program where
  | code
  | remaster (newMaster : Nat)
  | notSet
  deriving DecidableEq, Repr

/-- `program_case() == Transaction::kRemaster`. -/
def Program.isRemaster : Program → Bool
  | .remaster _ => true
  | _ => false

/-- The parts of a `Transaction` that the worker reads and writes; those `Execute` reads are in
`txn`. -/
structure WorkerTxn where
  id : TxnId
  txn : Txn
  program : Program
  involvedPartitions : List Nat
  activePartitions : List Nat
  coordinatingServer : Nat
  deriving DecidableEq, Repr

inductive TransactionState.Phase where
  | readLocalStorage
  | waitRemoteRead
  | execute
  | finish
  deriving DecidableEq, Repr

/-- `TransactionState`: the txn its holder holds, the number of remote reads still to come, a
`uint32_t`, and the phase. -/
structure TransactionState where
  txn : WorkerTxn
  remoteReadsWaitingOn : UInt32
  phase : TransactionState.Phase
  deriving DecidableEq, Repr

/-- A `RemoteReadResult` message. -/
structure RemoteReadResult where
  txnId : TxnId
  deadlocked : Bool
  partition : Nat
  willAbort : Bool
  abortReason : String
  reads : List KeyEntry
  deriving DecidableEq, Repr

/-- What a worker sends. -/
inductive Output where
  /-- The reads of a run, on the channel of a tag, to the workers of partitions of the local
  region and replica. -/
  | remoteReadResult (destinations : List Nat) (tag : Nat) (result : RemoteReadResult)
  /-- A `BrokerRedirect` of a tag to this worker, or the stop of one. -/
  | brokerRedirect (tag : Nat) (stop : Bool)
  /-- A `FinishedSubtxn` of a partition to the coordinating server. -/
  | finishedSubtxn (server : Nat) (partition : Nat) (txn : WorkerTxn)
  /-- The id of a finished txn, to the scheduler. -/
  | done (txnId : TxnId)
  deriving DecidableEq, Repr

/-- The settings of the configuration that a worker reads, its sharder and its build. -/
structure WorkerConfig where
  localRegion : Nat
  localReplica : Nat
  localPartition : Nat
  partitionOf : Key → Nat
  lockManager : LockManager

/-- The partitions that wait for remote reads: every involved one under DDR, and otherwise the
active ones, which have a WRITE key. -/
def WorkerConfig.waitingPartitions (config : WorkerConfig) (txn : WorkerTxn) : List Nat :=
  match config.lockManager with
  | .ddr => txn.involvedPartitions
  | .rma => txn.activePartitions

/-- A worker: its storage, as the finite map a `MemOnlyStorage` stands for, and `txn_states_`. -/
structure Worker where
  storage : Key → Option Record
  txnStates : RunId → Option TransactionState

/-- The loop of `ReadLocalStorage` over the keys. A key with a record reads its value, unless the
master the txn has for the key is not the record's; a remaster of a key without a record aborts.
An abort breaks the loop, and gives its reason. -/
def readKeys (storage : Key → Option Record) (remaster : Bool) : List KeyEntry → List KeyEntry × Option String
  | [] => ([], none)
  | kv :: rest =>
      match storage kv.key with
      | some record =>
          if (kv.metadata.map (·.master)).getD 0 ≠ record.metadata.master then (kv :: rest, some "outdated master")
          else
            let read := readKeys storage remaster rest
            ({ kv with value := record.value } :: read.1, read.2)
      | none =>
          if remaster then (kv :: rest, some ("remaster non-existent key " ++ kv.key))
          else
            let read := readKeys storage remaster rest
            (kv :: read.1, read.2)

/-- The txn after the loop of `ReadLocalStorage`. -/
def readLocalKeys (storage : Key → Option Record) (txn : WorkerTxn) : WorkerTxn :=
  let read := readKeys storage txn.program.isRemaster txn.txn.keys
  match read.2 with
  | some reason => { txn with txn := { txn.txn with keys := read.1, status := .aborted, abortReason := reason } }
  | none => { txn with txn := { txn.txn with keys := read.1 } }

/-- The message of `BroadcastReads`: an aborted txn sends its abort, any other its keys. -/
def readResult (config : WorkerConfig) (runId : RunId) (txn : WorkerTxn) : RemoteReadResult :=
  let aborted := decide (txn.txn.status = .aborted)
  ⟨runId.1, runId.2, config.localPartition, aborted, txn.txn.abortReason, if aborted then [] else txn.txn.keys⟩

/-- `BroadcastReads`: the message to every waiting partition but the local one, if there is one. -/
def broadcastReads (config : WorkerConfig) (runId : RunId) (txn : WorkerTxn) : List Output :=
  let destinations := (config.waitingPartitions txn).filter (· ≠ config.localPartition)
  if destinations.isEmpty then []
  else [.remoteReadResult destinations (makeTag runId) (readResult config runId txn)]

/-- The txn after the loop of `ReadLocalStorage`, which runs only for a txn that has not aborted. -/
def readTxn (storage : Key → Option Record) (txn : WorkerTxn) : WorkerTxn :=
  if txn.txn.status ≠ .aborted then readLocalKeys storage txn else txn

/-- The remote reads a txn waits on: those of every other involved partition at a waiting one. -/
def waitingOn (config : WorkerConfig) (txn : WorkerTxn) : UInt32 :=
  if config.localPartition ∈ config.waitingPartitions txn then txn.involvedPartitions.length.toUInt32 - 1 else 0

/-- A `RemoteReadResult` applied to a txn: its abort, or its reads. -/
def applyRemoteRead (txn : WorkerTxn) (result : RemoteReadResult) : WorkerTxn :=
  if result.willAbort then { txn with txn := { txn.txn with status := .aborted, abortReason := result.abortReason } }
  else { txn with txn := { txn.txn with keys := txn.txn.keys ++ result.reads } }

/-- A `RemoteReadResult` received for a txn, which an aborted txn ignores. -/
def receiveRead (txn : WorkerTxn) (result : RemoteReadResult) : WorkerTxn :=
  if txn.txn.status ≠ .aborted then applyRemoteRead txn result else txn

/-- What `Execute` does to a txn and the storage. A code txn that has not aborted runs its
procedures, whose writes go to the storage; a remaster txn commits and gives its first key the
new master and the next counter. -/
def executeTxn (config : WorkerConfig) (storage : Key → Option Record) (txn : WorkerTxn) :
    Except String (WorkerTxn × (Key → Option Record)) :=
  match txn.program with
  | .code =>
      if txn.txn.status ≠ .aborted then do
        let (executed, writes) ← Execution.execute (fun key => config.partitionOf key = config.localPartition) txn.txn
        pure ({ txn with txn := executed }, (ConcurrentHashMap.FiniteMap.run storage writes).2)
      else pure (txn, storage)
  | .remaster newMaster =>
      match txn.txn.keys with
      | [] => .error "txn.keys().begin() of no keys"
      | kv :: _ =>
          -- a key without a record keeps the default one, which `Read` leaves as it is
          let record := (storage kv.key).getD ⟨"", ⟨0, 0⟩⟩
          let newCounter := ((kv.metadata.map (·.counter)).getD 0 + 1) % 2 ^ 32
          pure ({ txn with txn := { txn.txn with status := .committed } },
            Function.update storage kv.key (some { record with metadata := ⟨newMaster, newCounter⟩ }))
  | .notSet => .error "Procedure is not set"

/-- What `Finish` sends: the txn to its coordinating server when that is in the local region and
replica, and the txn's id to the scheduler. -/
def finishOutputs (config : WorkerConfig) (runId : RunId) (txn : WorkerTxn) : List Output :=
  let (region, replica, _) := unpackMachineId txn.coordinatingServer
  (if region = config.localRegion ∧ replica = config.localReplica then
      [.finishedSubtxn txn.coordinatingServer config.localPartition txn]
    else []) ++ [.done runId.1]

section Fields

/-! The reads of `ReadLocalStorage` and a `RemoteReadResult` change the keys, the status and the
abort reason of a txn, and nothing else of it. -/

variable {storage : Key → Option Record} {txn : WorkerTxn} {result : RemoteReadResult}

/-- The reads change only the txn's part that `Execute` reads. -/
theorem readTxn_eq : readTxn storage txn = { txn with txn := (readTxn storage txn).txn } := by
  unfold readTxn readLocalKeys
  split
  · dsimp only
    split <;> rfl
  · rfl

theorem receiveRead_eq : receiveRead txn result = { txn with txn := (receiveRead txn result).txn } := by
  unfold receiveRead applyRemoteRead
  split
  · split <;> rfl
  · rfl

@[simp] theorem readTxn_involvedPartitions : (readTxn storage txn).involvedPartitions = txn.involvedPartitions := by
  rw [readTxn_eq]

@[simp] theorem readTxn_activePartitions : (readTxn storage txn).activePartitions = txn.activePartitions := by
  rw [readTxn_eq]

@[simp] theorem readTxn_program : (readTxn storage txn).program = txn.program := by
  rw [readTxn_eq]

@[simp] theorem readTxn_id : (readTxn storage txn).id = txn.id := by
  rw [readTxn_eq]

@[simp] theorem receiveRead_involvedPartitions :
    (receiveRead txn result).involvedPartitions = txn.involvedPartitions := by
  rw [receiveRead_eq]

@[simp] theorem receiveRead_activePartitions : (receiveRead txn result).activePartitions = txn.activePartitions := by
  rw [receiveRead_eq]

@[simp] theorem receiveRead_program : (receiveRead txn result).program = txn.program := by
  rw [receiveRead_eq]

@[simp] theorem waitingPartitions_readTxn (config : WorkerConfig) :
    config.waitingPartitions (readTxn storage txn) = config.waitingPartitions txn := by
  cases lockManager : config.lockManager <;> simp [WorkerConfig.waitingPartitions, lockManager]

@[simp] theorem readResult_txnId (config : WorkerConfig) (runId : RunId) : (readResult config runId txn).txnId = runId.1 := rfl

@[simp] theorem readResult_deadlocked (config : WorkerConfig) (runId : RunId) :
    (readResult config runId txn).deadlocked = runId.2 := rfl

@[simp] theorem readResult_partition (config : WorkerConfig) (runId : RunId) :
    (readResult config runId txn).partition = config.localPartition := rfl

end Fields

namespace Worker

variable (config : WorkerConfig)

/-- `TxnState`: the state of a run, which must exist. -/
def txnState (worker : Worker) (runId : RunId) : Except String TransactionState :=
  match worker.txnStates runId with
  | some state => .ok state
  | none => .error "no state for the run"

def setState (worker : Worker) (runId : RunId) (state : TransactionState) : Worker :=
  { worker with txnStates := Function.update worker.txnStates runId (some state) }

/-- `ReadLocalStorage`, with the `BroadcastReads` it makes: a waiting partition waits for the
reads of every other involved partition, through a redirection of the run's tag. -/
def readLocalStorage (worker : Worker) (runId : RunId) : Except String (Worker × List Output) := do
  let state ← worker.txnState runId
  let txn := readTxn worker.storage state.txn
  let sent := broadcastReads config runId txn
  let remoteReadsWaitingOn := waitingOn config txn
  if remoteReadsWaitingOn = 0 then
    pure (worker.setState runId ⟨txn, remoteReadsWaitingOn, .execute⟩, sent)
  else
    pure (worker.setState runId ⟨txn, remoteReadsWaitingOn, .waitRemoteRead⟩,
      sent ++ [.brokerRedirect (makeTag runId) false])

/-- `Execute`, on the state of a run. -/
def execute (worker : Worker) (runId : RunId) : Except String Worker := do
  let state ← worker.txnState runId
  let (txn, storage) ← executeTxn config worker.storage state.txn
  pure ({ worker with storage }.setState runId { state with txn, phase := .finish })

/-- `Finish`: the state of the run is erased once the txn is sent. -/
def finish (worker : Worker) (runId : RunId) : Except String (Worker × List Output) := do
  let state ← worker.txnState runId
  pure ({ worker with txnStates := Function.update worker.txnStates runId none }, finishOutputs config runId state.txn)

/-- `AdvanceTransaction`: the cases of the phases fall through, each checking the phase again. -/
def advanceTransaction (worker : Worker) (runId : RunId) : Except String (Worker × List Output) := do
  let state ← worker.txnState runId
  let (worker, read) ← if state.phase = .readLocalStorage then worker.readLocalStorage config runId else pure (worker, [])
  let state ← worker.txnState runId
  -- the only way out of the wait is through remote reads
  if state.phase = .waitRemoteRead then return (worker, read)
  let worker ← if state.phase = .execute then worker.execute config runId else pure worker
  let (worker, finished) ← worker.finish config runId
  return (worker, read ++ finished)

/-- `OnInternalRequestReceived` of a `RemoteReadResult`. The last one a run waits for moves it to
execution and stops the redirection of its tag. -/
def onInternalRequestReceived (worker : Worker) (result : RemoteReadResult) : Except String (Worker × List Output) :=
  let runId := (result.txnId, result.deadlocked)
  match worker.txnStates runId with
  -- the result for a run without a state is dropped
  | none => pure (worker, [])
  | some state =>
      let txn := receiveRead state.txn result
      let remoteReadsWaitingOn := state.remoteReadsWaitingOn - 1
      if remoteReadsWaitingOn = 0 then
        if state.phase = .waitRemoteRead then do
          let (worker, sent) ← (worker.setState runId ⟨txn, remoteReadsWaitingOn, .execute⟩).advanceTransaction config runId
          pure (worker, .brokerRedirect (makeTag runId) true :: sent)
        else .error "Invalid phase"
      else (worker.setState runId ⟨txn, remoteReadsWaitingOn, state.phase⟩).advanceTransaction config runId

/-- `OnCustomSocket`: a txn the scheduler dispatches. A run after a deadlock drops the state of
the txn's first run; the state of the new run starts at reading the local storage. -/
def onCustomSocket (worker : Worker) (txn : WorkerTxn) (deadlocked : Bool) : Except String (Worker × List Output) := do
  let runId := (txn.id, deadlocked)
  let (worker, stopped) : Worker × List Output :=
    if deadlocked ∧ (worker.txnStates (txn.id, false)).isSome then
      ({ worker with txnStates := Function.update worker.txnStates (txn.id, false) none },
        [.brokerRedirect (makeTag (txn.id, false)) true])
    else (worker, [])
  if (worker.txnStates runId).isSome then throw "already dispatched to this worker"
  let (worker, sent) ← (worker.setState runId ⟨txn, 0, .readLocalStorage⟩).advanceTransaction config runId
  pure (worker, stopped ++ sent)

section Specs

variable {config} {worker : Worker} {runId : RunId} {state : TransactionState}

@[simp] theorem setState_storage : (worker.setState runId state).storage = worker.storage := rfl

@[simp] theorem setState_txnStates_self : (worker.setState runId state).txnStates runId = some state := by
  simp [setState]

@[simp] theorem setState_setState (state' : TransactionState) :
    (worker.setState runId state).setState runId state' = worker.setState runId state' := by
  simp [setState]

/-- A run that waits for remote reads stays as it is. -/
theorem advanceTransaction_of_wait {txn : WorkerTxn} {count : UInt32}
    (found : worker.txnStates runId = some ⟨txn, count, .waitRemoteRead⟩) :
    worker.advanceTransaction config runId = .ok (worker, []) := by
  simp [advanceTransaction, txnState, found, bind, Except.bind, pure, Except.pure]

/-- A run that executes is executed, and finishes: its state is erased. -/
theorem advanceTransaction_of_execute {txn : WorkerTxn} {count : UInt32}
    (found : worker.txnStates runId = some ⟨txn, count, .execute⟩) :
    worker.advanceTransaction config runId = (executeTxn config worker.storage txn).map fun done =>
      ({ worker with storage := done.2, txnStates := Function.update worker.txnStates runId none },
        finishOutputs config runId done.1) := by
  cases executed : executeTxn config worker.storage txn with
  | error message =>
      simp [advanceTransaction, execute, txnState, found, executed, bind, Except.bind, pure, Except.pure, Except.map]
  | ok done =>
      simp [advanceTransaction, execute, finish, txnState, found, executed, bind, Except.bind, pure, Except.pure,
        Except.map, setState]

/-- A run that reads the local storage sends its reads, and then waits for remote reads or is
executed and finishes. -/
theorem advanceTransaction_of_read {txn : WorkerTxn} {count : UInt32}
    (found : worker.txnStates runId = some ⟨txn, count, .readLocalStorage⟩) :
    worker.advanceTransaction config runId =
      let read := readTxn worker.storage txn
      if waitingOn config read = 0 then
        (executeTxn config worker.storage read).map fun done =>
          ({ worker with storage := done.2, txnStates := Function.update worker.txnStates runId none },
            broadcastReads config runId read ++ finishOutputs config runId done.1)
      else .ok (worker.setState runId ⟨read, waitingOn config read, .waitRemoteRead⟩,
        broadcastReads config runId read ++ [.brokerRedirect (makeTag runId) false]) := by
  dsimp only
  by_cases zero : waitingOn config (readTxn worker.storage txn) = 0
  · -- the run moves on to execution without waiting
    have readPhase : worker.readLocalStorage config runId =
        .ok (worker.setState runId ⟨readTxn worker.storage txn, waitingOn config (readTxn worker.storage txn), .execute⟩,
          broadcastReads config runId (readTxn worker.storage txn)) := by
      simp [readLocalStorage, txnState, found, zero, bind, Except.bind, pure, Except.pure]
    cases executed : executeTxn config worker.storage (readTxn worker.storage txn) with
    | error message =>
        simp [advanceTransaction, execute, txnState, found, readPhase, executed, zero, bind, Except.bind, Except.map]
    | ok done =>
        simp [advanceTransaction, execute, finish, txnState, found, readPhase, executed, zero, bind, Except.bind,
          pure, Except.pure, Except.map, setState]
  · have readPhase : worker.readLocalStorage config runId =
        .ok (worker.setState runId ⟨readTxn worker.storage txn, waitingOn config (readTxn worker.storage txn), .waitRemoteRead⟩,
          broadcastReads config runId (readTxn worker.storage txn) ++ [.brokerRedirect (makeTag runId) false]) := by
      simp [readLocalStorage, txnState, found, zero, bind, Except.bind, pure, Except.pure]
    simp [advanceTransaction, txnState, found, readPhase, zero, bind, Except.bind, pure, Except.pure]

/-- A run that waits receives the result; the last one it waits for moves it to execution, and
it finishes. -/
theorem onInternalRequestReceived_of_wait {result : RemoteReadResult} {txn : WorkerTxn} {count : UInt32}
    (found : worker.txnStates (result.txnId, result.deadlocked) = some ⟨txn, count, .waitRemoteRead⟩) :
    worker.onInternalRequestReceived config result =
      if count - 1 = 0 then
        (executeTxn config worker.storage (receiveRead txn result)).map fun done =>
          ({ worker with storage := done.2, txnStates := Function.update worker.txnStates (result.txnId, result.deadlocked) none },
            .brokerRedirect (makeTag (result.txnId, result.deadlocked)) true ::
              finishOutputs config (result.txnId, result.deadlocked) done.1)
      else .ok (worker.setState (result.txnId, result.deadlocked) ⟨receiveRead txn result, count - 1, .waitRemoteRead⟩, []) := by
  by_cases last : count - 1 = 0
  · simp only [onInternalRequestReceived, found, last, if_true]
    rw [advanceTransaction_of_execute setState_txnStates_self, setState_storage]
    cases executeTxn config worker.storage (receiveRead txn result) with
    | error message => rfl
    | ok done => simp [bind, Except.bind, pure, Except.pure, Except.map, setState]
  · simp only [onInternalRequestReceived, found, last, if_false]
    exact advanceTransaction_of_wait setState_txnStates_self

/-- A txn dispatched to a worker with no state for it reads the local storage at once. -/
theorem onCustomSocket_of_fresh {txn : WorkerTxn} {deadlocked : Bool} (fresh : ∀ again, worker.txnStates (txn.id, again) = none) :
    worker.onCustomSocket config txn deadlocked =
      let read := readTxn worker.storage txn
      if waitingOn config read = 0 then
        (executeTxn config worker.storage read).map fun done =>
          ({ worker with storage := done.2, txnStates := Function.update worker.txnStates (txn.id, deadlocked) none },
            broadcastReads config (txn.id, deadlocked) read ++ finishOutputs config (txn.id, deadlocked) done.1)
      else .ok (worker.setState (txn.id, deadlocked) ⟨read, waitingOn config read, .waitRemoteRead⟩,
        broadcastReads config (txn.id, deadlocked) read ++ [.brokerRedirect (makeTag (txn.id, deadlocked)) false]) := by
  simp only [onCustomSocket, fresh, Option.isSome_none, Bool.false_eq_true, and_false, if_false]
  rw [advanceTransaction_of_read setState_txnStates_self, setState_storage]
  dsimp only
  split
  · cases executeTxn config worker.storage (readTxn worker.storage txn) with
    | error message => rfl
    | ok done => simp [bind, Except.bind, pure, Except.pure, Except.map, setState]
  · simp [bind, Except.bind, pure, Except.pure]

end Specs

end Worker

end Slog
