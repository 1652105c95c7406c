/-
The workers of one txn's involved partitions as the network of their remote reads, delivered in
any order once the destination's broker redirects the run's tag.
-/

import Slog.Scheduler.Worker

namespace Slog.RemoteReads

open Execution
open scoped List

/-- A run of one txn: the configuration its workers share but for their partition, the txn, whether
it runs after a deadlock, and the storage of each partition when it starts. -/
structure Run where
  config : WorkerConfig
  txn : WorkerTxn
  deadlocked : Bool
  storage : Nat → Key → Option Record

/-- A `RemoteReadResult` on its way to the worker of a partition, on the channel of a tag. -/
structure Message where
  destination : Nat
  tag : Nat
  result : RemoteReadResult
  deriving DecidableEq, Repr

/-- The workers of the partitions, the tags each one's broker redirects to it, the messages not
delivered yet, the partitions the txn was dispatched to, and what the workers sent out of the
network, each with its partition. -/
structure Network where
  workers : Nat → Worker
  redirects : Nat → List Nat
  inFlight : List Message
  dispatched : List Nat
  outputs : List (Nat × Output)

inductive Action where
  | dispatch (partition : Nat)
  | deliver (index : Nat)
  deriving DecidableEq, Repr

namespace Run

variable (run : Run)

def runId : RunId := (run.txn.id, run.deadlocked)

/-- The configuration of the worker of a partition. -/
def configOf (partition : Nat) : WorkerConfig := { run.config with localPartition := partition }

/-- `GeneratePartitionedTxn`: the txn with its keys on a partition. -/
def subTxn (partition : Nat) : WorkerTxn :=
  { run.txn with txn := { run.txn.txn with keys := run.txn.txn.keys.filter fun kv => run.config.partitionOf kv.key = partition } }

def init : Network where
  workers partition := ⟨run.storage partition, fun _ => none⟩
  redirects _ := []
  inFlight := []
  dispatched := []
  outputs := []

end Run

namespace Network

/-- What a worker sends: its remote reads go on their way to each destination, a redirection
changes the table of its broker, and the rest leaves the network. -/
def emit (partition : Nat) (network : Network) : Output → Network
  | .remoteReadResult destinations tag result =>
      { network with inFlight := network.inFlight ++ destinations.map fun destination => ⟨destination, tag, result⟩ }
  | .brokerRedirect tag stop =>
      { network with
        redirects := Function.update network.redirects partition
          (if stop then (network.redirects partition).erase tag else tag :: network.redirects partition) }
  | output => { network with outputs := network.outputs ++ [(partition, output)] }

/-- The network after the worker of a partition handled something, and sent what it sent. -/
def handled (network : Network) (partition : Nat) (worker : Worker) (sent : List Output) : Network :=
  sent.foldl (emit partition) { network with workers := Function.update network.workers partition worker }

end Network

/-- A step of the network: the dispatch of the txn to an involved partition it was not dispatched
to, or the delivery of a message whose tag the broker of its destination redirects. A worker that
fails a check stops the run. -/
def Run.step (run : Run) (network : Network) : Action → Option Network
  | .dispatch partition =>
      if partition ∈ run.txn.involvedPartitions ∧ partition ∉ network.dispatched then
        match (network.workers partition).onCustomSocket (run.configOf partition) (run.subTxn partition) run.deadlocked with
        | .ok (worker, sent) => some ({ network with dispatched := partition :: network.dispatched }.handled partition worker sent)
        | .error _ => none
      else none
  | .deliver index =>
      match network.inFlight[index]? with
      | some message =>
          if message.tag ∈ network.redirects message.destination then
            match (network.workers message.destination).onInternalRequestReceived (run.configOf message.destination)
                message.result with
            | .ok (worker, sent) =>
                some ({ network with inFlight := network.inFlight.eraseIdx index }.handled message.destination worker sent)
            | .error _ => none
          else none
      | none => none

namespace Run

variable (run : Run)

/-- The txn on a partition once its worker read the local storage. -/
def localRead (partition : Nat) : WorkerTxn := readTxn (run.storage partition) (run.subTxn partition)

/-- The message the worker of a partition broadcasts. -/
def resultOf (partition : Nat) : RemoteReadResult :=
  readResult (run.configOf partition) run.runId (run.localRead partition)

/-- The txn on a partition once the results of some partitions reached it, in that order. -/
def received (partition : Nat) (senders : List Nat) : WorkerTxn :=
  senders.foldl (fun txn sender => receiveRead txn (run.resultOf sender)) (run.localRead partition)

/-- The partitions that wait for remote reads. -/
def waiting : List Nat := run.config.waitingPartitions run.txn

/-- The involved partitions whose reads a partition waits for. -/
def others (partition : Nat) : List Nat := run.txn.involvedPartitions.filter (· ≠ partition)

end Run

namespace Network

/-- The senders of the messages on their way to a partition. -/
def sendersTo (network : Network) (partition : Nat) : List Nat :=
  (network.inFlight.filter (·.destination = partition)).map (·.result.partition)

/-- What the worker of a partition sent out of the network. -/
def outputsOf (network : Network) (partition : Nat) : List Output :=
  (network.outputs.filter (·.1 = partition)).map (·.2)

end Network

namespace Network

section Emit

variable {network : Network} {partition : Nat}

/-- The reads a worker broadcasts go on their way to each destination. -/
theorem foldl_emit_broadcastReads (config : WorkerConfig) (runId : RunId) (txn : WorkerTxn) :
    (broadcastReads config runId txn).foldl (emit partition) network =
      { network with
        inFlight := network.inFlight ++ ((config.waitingPartitions txn).filter (· ≠ config.localPartition)).map
          fun destination => ⟨destination, makeTag runId, readResult config runId txn⟩ } := by
  unfold broadcastReads
  dsimp only
  split
  · rename_i empty
    rw [List.isEmpty_iff] at empty
    rw [empty, List.map_nil, List.append_nil]
    rfl
  · rfl

/-- What `Finish` sends leaves the network. -/
theorem foldl_emit_finishOutputs (config : WorkerConfig) (runId : RunId) (txn : WorkerTxn) :
    (finishOutputs config runId txn).foldl (emit partition) network =
      { network with outputs := network.outputs ++ (finishOutputs config runId txn).map (partition, ·) } := by
  simp only [finishOutputs]
  split <;> simp [emit]

theorem outputsOf_of_outputs {network' : Network} {outputs : List Output} {other : Nat}
    (appended : network'.outputs = network.outputs ++ outputs.map (other, ·)) :
    network'.outputsOf partition = network.outputsOf partition ++ if partition = other then outputs else [] := by
  by_cases same : partition = other
  · subst same
    simp [outputsOf, appended, List.filter_map, Function.comp_def]
  · simp [outputsOf, appended, List.filter_map, Function.comp_def, Ne.symm same, same]

theorem sendersTo_of_inFlight {network' : Network} {messages : List Message}
    (appended : network'.inFlight = network.inFlight ++ messages) :
    network'.sendersTo partition =
      network.sendersTo partition ++ (messages.filter (·.destination = partition)).map (·.result.partition) := by
  simp [sendersTo, appended]

/-- A message to each destination reaches a partition once if it is one of them, and not at all
otherwise. -/
theorem sendersTo_broadcast {destinations : List Nat} (distinct : destinations.Nodup) (tag : Nat)
    (result : RemoteReadResult) :
    ((destinations.map fun destination => (⟨destination, tag, result⟩ : Message)).filter (·.destination = partition)).map
        (·.result.partition) =
      if partition ∈ destinations then [result.partition] else [] := by
  induction destinations with
  | nil => simp
  | cons destination destinations ih =>
      obtain ⟨fresh, distinct⟩ := List.nodup_cons.mp distinct
      by_cases same : destination = partition
      · subst same
        simp [ih distinct, fresh]
      · simp [same, ih distinct, Ne.symm same]

/-- A worker that finishes at once has sent its reads and its finished txn. -/
theorem handled_finish {worker : Worker} (config : WorkerConfig) (runId : RunId) (txn txn' : WorkerTxn) :
    network.handled partition worker (broadcastReads config runId txn ++ finishOutputs config runId txn') =
      { network with
        workers := Function.update network.workers partition worker
        inFlight := network.inFlight ++ ((config.waitingPartitions txn).filter (· ≠ config.localPartition)).map
          fun destination => ⟨destination, makeTag runId, readResult config runId txn⟩
        outputs := network.outputs ++ (finishOutputs config runId txn').map (partition, ·) } := by
  rw [handled, List.foldl_append, foldl_emit_broadcastReads, foldl_emit_finishOutputs]

/-- A worker that waits has sent its reads, and set up the redirection of a tag. -/
theorem handled_wait {worker : Worker} (config : WorkerConfig) (runId : RunId) (txn : WorkerTxn) (tag : Nat) :
    network.handled partition worker (broadcastReads config runId txn ++ [.brokerRedirect tag false]) =
      { network with
        workers := Function.update network.workers partition worker
        inFlight := network.inFlight ++ ((config.waitingPartitions txn).filter (· ≠ config.localPartition)).map
          fun destination => ⟨destination, makeTag runId, readResult config runId txn⟩
        redirects := Function.update network.redirects partition (tag :: network.redirects partition) } := by
  rw [handled, List.foldl_append, foldl_emit_broadcastReads]
  simp [emit]

/-- A worker that received its last remote read has stopped the redirection of a tag, and sent
its finished txn. -/
theorem handled_stop {worker : Worker} (config : WorkerConfig) (runId : RunId) (txn : WorkerTxn) (tag : Nat) :
    network.handled partition worker (.brokerRedirect tag true :: finishOutputs config runId txn) =
      { network with
        workers := Function.update network.workers partition worker
        redirects := Function.update network.redirects partition ((network.redirects partition).erase tag)
        outputs := network.outputs ++ (finishOutputs config runId txn).map (partition, ·) } := by
  rw [handled, List.foldl_cons, foldl_emit_finishOutputs]
  simp [emit]

end Emit

end Network

/-- The reads of a message removed from the ones on their way no longer reach its destination. -/
theorem Network.sendersTo_eraseIdx {network network' : Network} {index : Nat} {message : Message}
    (found : network.inFlight[index]? = some message) (erased : network'.inFlight = network.inFlight.eraseIdx index)
    (partition : Nat) :
    (network.sendersTo partition).Perm
      ((if message.destination = partition then [message.result.partition] else []) ++ network'.sendersTo partition) := by
  obtain ⟨within, rfl⟩ := List.getElem?_eq_some_iff.mp found
  have perm : network.inFlight.Perm (network.inFlight[index] :: network.inFlight.eraseIdx index) :=
    (List.perm_cons_erase (List.getElem_mem within)).trans ((List.erase_getElem within).cons _)
  have filtered := (perm.filter fun message => message.destination = partition).map (·.result.partition)
  unfold Network.sendersTo
  rw [erased]
  by_cases same : network.inFlight[index].destination = partition <;> simpa [same] using filtered

/-- Of distinct partitions, those dispatched once one more partition is are those dispatched
before and that one. -/
theorem filter_mem_cons_perm {partitions dispatched : List Nat} {partition : Nat} (distinct : partitions.Nodup)
    (member : partition ∈ partitions) (fresh : partition ∉ dispatched) :
    (partitions.filter (· ∈ partition :: dispatched)).Perm (partitions.filter (· ∈ dispatched) ++ [partition]) := by
  apply (List.perm_ext_iff_of_nodup (distinct.filter _) _).mpr
  · intro other
    by_cases same : other = partition
    · subst same
      simp [member, fresh]
    · simp [same]
  · rw [List.nodup_append]
    refine ⟨distinct.filter _, List.nodup_singleton _, ?_⟩
    simp only [List.mem_filter, decide_eq_true_eq, List.mem_singleton]
    rintro other ⟨-, dispatchedOther⟩ _ rfl rfl
    exact fresh dispatchedOther

/-- Where the run stands at a partition: not dispatched yet, waiting for remote reads, or
finished. -/
inductive Run.Stage (run : Run) (network : Network) (partition : Nat) : Prop where
  | idle (fresh : partition ∉ network.dispatched)
      (worker : network.workers partition = ⟨run.storage partition, fun _ => none⟩)
      (redirects : network.redirects partition = [])
      (pending : (network.sendersTo partition).Perm
        (if partition ∈ run.waiting then (run.others partition).filter (· ∈ network.dispatched) else []))
      (outputs : network.outputsOf partition = [])
  | waiting (received : List Nat) (count : UInt32) (dispatched : partition ∈ network.dispatched)
      (waits : partition ∈ run.waiting)
      (worker : network.workers partition = ⟨run.storage partition,
        Function.update (fun _ => none) run.runId (some ⟨run.received partition received, count, .waitRemoteRead⟩)⟩)
      (counted : count.toNat = (run.others partition).length - received.length)
      (remaining : received.length < (run.others partition).length)
      (redirects : network.redirects partition = [makeTag run.runId])
      (pending : (network.sendersTo partition ++ received).Perm
        ((run.others partition).filter (· ∈ network.dispatched)))
      (outputs : network.outputsOf partition = [])
  | finished (received : List Nat) (final : WorkerTxn × (Key → Option Record))
      (dispatched : partition ∈ network.dispatched)
      (all : received.Perm (if partition ∈ run.waiting then run.others partition else []))
      (complete : partition ∈ run.waiting → ∀ other ∈ run.others partition, other ∈ network.dispatched)
      (executed : executeTxn (run.configOf partition) (run.storage partition) (run.received partition received) = .ok final)
      (worker : network.workers partition = ⟨final.2, fun _ => none⟩)
      (redirects : network.redirects partition = [])
      (pending : network.sendersTo partition = [])
      (outputs : network.outputsOf partition = finishOutputs (run.configOf partition) run.runId final.1)

/-- What holds in every network a run reaches. -/
structure Run.Invariant (run : Run) (network : Network) : Prop where
  nodup : network.dispatched.Nodup
  involved : ∀ partition ∈ network.dispatched, partition ∈ run.txn.involvedPartitions
  messages : ∀ message ∈ network.inFlight,
    message.tag = makeTag run.runId ∧ message.result = run.resultOf message.result.partition
  stage : ∀ partition, run.Stage network partition

/-- What the run needs of the txn: its involved partitions are distinct `PartitionId`s, of 16
bits, and the partitions that wait are distinct. -/
structure Run.WellFormed (run : Run) : Prop where
  partitions : ∀ partition ∈ run.txn.involvedPartitions, partition < 2 ^ 16
  involvedNodup : run.txn.involvedPartitions.Nodup
  waitingNodup : run.waiting.Nodup

/-- The networks a run reaches. -/
inductive Run.Reachable (run : Run) : Network → Prop where
  | init : run.Reachable run.init
  | step {network network' : Network} {action : Action} :
      run.Reachable network → run.step network action = some network' → run.Reachable network'

section Facts

variable {run : Run}

theorem Run.waitingPartitions_localRead (partition : Nat) :
    (run.configOf partition).waitingPartitions (run.localRead partition) = run.waiting := by
  rw [Run.localRead, waitingPartitions_readTxn]
  rfl

theorem Run.waitingOn_localRead (partition : Nat) :
    waitingOn (run.configOf partition) (run.localRead partition) =
      if partition ∈ run.waiting then run.txn.involvedPartitions.length.toUInt32 - 1 else 0 := by
  rw [waitingOn, Run.waitingPartitions_localRead, Run.localRead, readTxn_involvedPartitions]
  rfl

theorem Run.received_append_singleton (partition : Nat) (senders : List Nat) (sender : Nat) :
    run.received partition (senders ++ [sender]) = receiveRead (run.received partition senders) (run.resultOf sender) := by
  rw [Run.received, List.foldl_append]
  rfl

@[simp] theorem Run.resultOf_partition (partition : Nat) : (run.resultOf partition).partition = partition := rfl

variable (wf : run.WellFormed)
include wf

theorem Run.WellFormed.length_others {partition : Nat} (member : partition ∈ run.txn.involvedPartitions) :
    (run.others partition).length = run.txn.involvedPartitions.length - 1 := by
  have erased : run.txn.involvedPartitions.erase partition = run.others partition := by
    rw [wf.involvedNodup.erase_eq_filter, Run.others]
    exact List.filter_congr fun other _ => by by_cases same : other = partition <;> simp [same]
  rw [← erased, List.length_erase_of_mem member]

/-- Distinct partition ids of 16 bits are fewer than the `uint32_t` counter overflows at. -/
theorem Run.WellFormed.length_involved : run.txn.involvedPartitions.length < 2 ^ 32 := by
  have within : run.txn.involvedPartitions.toFinset ⊆ Finset.range (2 ^ 16) := by
    intro partition member
    simpa using wf.partitions partition (List.mem_toFinset.mp member)
  have bounded := Finset.card_le_card within
  rw [List.toFinset_card_of_nodup wf.involvedNodup, Finset.card_range] at bounded
  omega

/-- A waiting partition counts every other involved partition, and only those. -/
theorem Run.WellFormed.toNat_waitingOn {partition : Nat} (member : partition ∈ run.txn.involvedPartitions) :
    (waitingOn (run.configOf partition) (run.localRead partition)).toNat =
      if partition ∈ run.waiting then (run.others partition).length else 0 := by
  have few := wf.length_involved
  have some : 0 < run.txn.involvedPartitions.length := List.length_pos_of_mem member
  rw [Run.waitingOn_localRead, wf.length_others member]
  split
  · rw [UInt32.toNat_sub_of_le]
    · simp only [UInt32.toNat_one, Nat.toUInt32_eq, UInt32.toNat_ofNat']
      omega
    · simp only [UInt32.le_iff_toNat_le, UInt32.toNat_one, Nat.toUInt32_eq, UInt32.toNat_ofNat', Nat.mod_eq_of_lt few]
      omega
  · rfl

theorem Run.WellFormed.waitingOn_eq_zero {partition : Nat} (member : partition ∈ run.txn.involvedPartitions) :
    waitingOn (run.configOf partition) (run.localRead partition) = 0 ↔
      partition ∉ run.waiting ∨ run.others partition = [] := by
  rw [← UInt32.toNat_inj, wf.toNat_waitingOn member, UInt32.toNat_zero]
  split <;> simp [*]

end Facts

section Steps

variable {run : Run} {network network' : Network}

theorem Run.localRead_eq (partition : Nat) :
    readTxn (run.storage partition) (run.subTxn partition) = run.localRead partition := rfl

theorem Run.runId_subTxn (partition : Nat) : ((run.subTxn partition).id, run.deadlocked) = run.runId := rfl

/-- A dispatch reaches an involved partition the txn was not dispatched to; its worker reads the
local storage and sends its reads, and then executes and finishes, or waits. -/
theorem Run.Invariant.step_dispatch (inv : run.Invariant network) {partition : Nat}
    (stepped : run.step network (.dispatch partition) = some network') :
    partition ∈ run.txn.involvedPartitions ∧ partition ∉ network.dispatched ∧
      ((waitingOn (run.configOf partition) (run.localRead partition) = 0 ∧
        ∃ final, executeTxn (run.configOf partition) (run.storage partition) (run.localRead partition) = .ok final ∧
          network' = { network with dispatched := partition :: network.dispatched }.handled partition
            ⟨final.2, fun _ => none⟩
            (broadcastReads (run.configOf partition) run.runId (run.localRead partition) ++
              finishOutputs (run.configOf partition) run.runId final.1)) ∨
       (waitingOn (run.configOf partition) (run.localRead partition) ≠ 0 ∧
          network' = { network with dispatched := partition :: network.dispatched }.handled partition
            ⟨run.storage partition, Function.update (fun _ => none) run.runId
              (some ⟨run.localRead partition, waitingOn (run.configOf partition) (run.localRead partition), .waitRemoteRead⟩)⟩
            (broadcastReads (run.configOf partition) run.runId (run.localRead partition) ++
              [Output.brokerRedirect (makeTag run.runId) false]))) := by
  simp only [Run.step] at stepped
  split at stepped
  · rename_i guard
    obtain ⟨member, fresh⟩ := guard
    have idle : network.workers partition = ⟨run.storage partition, fun _ => none⟩ := by
      cases inv.stage partition with
      | idle _ worker => exact worker
      | waiting _ _ dispatched => exact absurd dispatched fresh
      | finished _ _ dispatched => exact absurd dispatched fresh
    rw [idle, Worker.onCustomSocket_of_fresh (fun _ => rfl)] at stepped
    dsimp only at stepped
    rw [Run.localRead_eq, Run.runId_subTxn] at stepped
    refine ⟨member, fresh, ?_⟩
    by_cases zero : waitingOn (run.configOf partition) (run.localRead partition) = 0
    · rw [if_pos zero] at stepped
      cases executed : executeTxn (run.configOf partition) (run.storage partition) (run.localRead partition) with
      | error message => simp [executed, Except.map] at stepped
      | ok final =>
          simp only [executed, Except.map, Option.some.injEq] at stepped
          refine .inl ⟨zero, final, rfl, ?_⟩
          rw [← stepped, Function.update_eq_self_iff.mpr rfl]
    · rw [if_neg zero] at stepped
      simp only [Option.some.injEq] at stepped
      exact .inr ⟨zero, stepped.symm⟩
  · cases stepped

/-- A delivery is of a message on its way whose tag the broker of its destination redirects. -/
theorem Run.step_deliver_guard {index : Nat} (stepped : run.step network (.deliver index) = some network') :
    ∃ message, network.inFlight[index]? = some message ∧ message.tag ∈ network.redirects message.destination := by
  simp only [Run.step] at stepped
  split at stepped
  · rename_i message found
    split at stepped
    · exact ⟨message, found, by assumption⟩
    · cases stepped
  · cases stepped

/-- A message for a run that waits is received; the last one it waits for has it executed and
finish, and stops the redirection of its tag. -/
theorem Run.step_deliver_of_waiting {index : Nat} {message : Message} {received : List Nat} {count : UInt32}
    (found : network.inFlight[index]? = some message) (messages : message.result = run.resultOf message.result.partition)
    (worker : network.workers message.destination = ⟨run.storage message.destination,
      Function.update (fun _ => none) run.runId
        (some ⟨run.received message.destination received, count, .waitRemoteRead⟩)⟩)
    (stepped : run.step network (.deliver index) = some network') :
    (count - 1 = 0 ∧
      ∃ final, executeTxn (run.configOf message.destination) (run.storage message.destination)
          (run.received message.destination (received ++ [message.result.partition])) = .ok final ∧
        network' = { network with inFlight := network.inFlight.eraseIdx index }.handled message.destination
          ⟨final.2, fun _ => none⟩
          (Output.brokerRedirect (makeTag run.runId) true ::
            finishOutputs (run.configOf message.destination) run.runId final.1)) ∨
    (count - 1 ≠ 0 ∧
      network' = { network with inFlight := network.inFlight.eraseIdx index }.handled message.destination
        ⟨run.storage message.destination, Function.update (fun _ => none) run.runId
          (some ⟨run.received message.destination (received ++ [message.result.partition]), count - 1, .waitRemoteRead⟩)⟩
        []) := by
  have runId : (message.result.txnId, message.result.deadlocked) = run.runId := by
    rw [messages]
    rfl
  have state : (network.workers message.destination).txnStates (message.result.txnId, message.result.deadlocked) =
      some ⟨run.received message.destination received, count, .waitRemoteRead⟩ := by
    rw [worker, runId]
    simp
  simp only [Run.step, found] at stepped
  split at stepped
  · rw [Worker.onInternalRequestReceived_of_wait state, runId, worker] at stepped
    conv at stepped => rw [messages, ← Run.received_append_singleton]
    dsimp only at stepped
    by_cases last : count - 1 = 0
    · rw [if_pos last] at stepped
      cases executed : executeTxn (run.configOf message.destination) (run.storage message.destination)
          (run.received message.destination (received ++ [message.result.partition])) with
      | error problem => simp [executed, Except.map] at stepped
      | ok final =>
          simp only [executed, Except.map, Option.some.injEq] at stepped
          refine .inl ⟨last, final, rfl, ?_⟩
          rw [← stepped]
          congr
          simp
    · rw [if_neg last] at stepped
      simp only [Option.some.injEq] at stepped
      refine .inr ⟨last, ?_⟩
      rw [← stepped]
      congr 2
      simp [Worker.setState]
  · cases stepped

end Steps

section Frames

variable {run : Run} {network network' : Network} {partition : Nat}

@[simp] theorem Run.mem_others {other : Nat} :
    other ∈ run.others partition ↔ other ∈ run.txn.involvedPartitions ∧ other ≠ partition := by
  simp [Run.others]

theorem Run.WellFormed.nodup_others (wf : run.WellFormed) (partition : Nat) : (run.others partition).Nodup :=
  wf.involvedNodup.filter _

/-- The reads a dispatched partition broadcasts reach every other waiting partition once. -/
theorem Run.WellFormed.arriving (wf : run.WellFormed) (dispatchedTo partition : Nat) :
    (((((run.configOf dispatchedTo).waitingPartitions (run.localRead dispatchedTo)).filter
        (· ≠ (run.configOf dispatchedTo).localPartition)).map
        (fun destination => (⟨destination, makeTag run.runId,
          readResult (run.configOf dispatchedTo) run.runId (run.localRead dispatchedTo)⟩ : Message))).filter
        (·.destination = partition)).map (·.result.partition) =
      if partition ∈ run.waiting ∧ partition ≠ dispatchedTo then [dispatchedTo] else [] := by
  rw [Run.waitingPartitions_localRead, Network.sendersTo_broadcast (wf.waitingNodup.filter _)]
  by_cases same : partition = dispatchedTo <;> simp [Run.configOf, List.mem_filter, same]

/-- A dispatch to another partition leaves a partition where it stands; the dispatched partition's
reads come on their way to it if it waits. -/
theorem Run.Stage.dispatch_other (wf : run.WellFormed) (stage : run.Stage network partition) {dispatchedTo : Nat}
    {messages : List Message} (outputs : List Output)
    (other : partition ≠ dispatchedTo) (member : dispatchedTo ∈ run.txn.involvedPartitions)
    (fresh : dispatchedTo ∉ network.dispatched)
    (workers : network'.workers partition = network.workers partition)
    (redirects : network'.redirects partition = network.redirects partition)
    (sent : network'.inFlight = network.inFlight ++ messages)
    (arriving : (messages.filter (·.destination = partition)).map (·.result.partition) =
      if partition ∈ run.waiting ∧ partition ≠ dispatchedTo then [dispatchedTo] else [])
    (left : network'.outputs = network.outputs ++ outputs.map (dispatchedTo, ·))
    (dispatched : network'.dispatched = dispatchedTo :: network.dispatched) :
    run.Stage network' partition := by
  have otherOf : dispatchedTo ∈ run.others partition := Run.mem_others.mpr ⟨member, Ne.symm other⟩
  have grown := filter_mem_cons_perm (wf.nodup_others partition) otherOf fresh
  have senders : network'.sendersTo partition =
      network.sendersTo partition ++ if partition ∈ run.waiting then [dispatchedTo] else [] := by
    rw [Network.sendersTo_of_inFlight sent, arriving]
    simp [other]
  have outputted : network'.outputsOf partition = network.outputsOf partition := by
    rw [Network.outputsOf_of_outputs left, if_neg other, List.append_nil]
  cases stage with
  | idle idle worker redirected pending outputsOf =>
      refine .idle ?_ (workers.trans worker) (redirects.trans redirected) ?_ (outputted.trans outputsOf)
      · simp [dispatched, idle, other]
      · rw [senders, dispatched]
        split
        · exact (pending.append_right _).trans (by rw [if_pos ‹_›]; exact grown.symm)
        · simpa [‹partition ∉ run.waiting›] using pending
  | waiting received count dispatchedHere waits worker counted remaining redirected pending outputsOf =>
      refine .waiting received count (by simp [dispatched, dispatchedHere]) waits (workers.trans worker) counted
        remaining (redirects.trans redirected) ?_ (outputted.trans outputsOf)
      rw [senders, if_pos waits, dispatched]
      calc network.sendersTo partition ++ [dispatchedTo] ++ received
          _ ~ network.sendersTo partition ++ received ++ [dispatchedTo] := by
            simpa only [List.append_assoc] using List.perm_append_comm.append_left (network.sendersTo partition)
          _ ~ (run.others partition).filter (· ∈ network.dispatched) ++ [dispatchedTo] := pending.append_right _
          _ ~ (run.others partition).filter (· ∈ dispatchedTo :: network.dispatched) := grown.symm
  | finished received final dispatchedHere all complete executed worker redirected pending outputsOf =>
      have notWaiting : partition ∉ run.waiting := fun waits => fresh (complete waits dispatchedTo otherOf)
      refine .finished received final (by simp [dispatched, dispatchedHere]) all (fun waits => absurd waits notWaiting)
        executed (workers.trans worker) (redirects.trans redirected) ?_ (outputted.trans outputsOf)
      rw [senders, pending, if_neg notWaiting]
      rfl

/-- A delivery to another partition leaves a partition where it stands. -/
theorem Run.Stage.deliver_other (stage : run.Stage network partition) {index : Nat} {message : Message}
    (found : network.inFlight[index]? = some message) (elsewhere : message.destination ≠ partition)
    (workers : network'.workers partition = network.workers partition)
    (redirects : network'.redirects partition = network.redirects partition)
    (erased : network'.inFlight = network.inFlight.eraseIdx index) (outputs : List Output)
    (left : network'.outputs = network.outputs ++ outputs.map (message.destination, ·))
    (dispatched : network'.dispatched = network.dispatched) :
    run.Stage network' partition := by
  have senders : (network'.sendersTo partition).Perm (network.sendersTo partition) := by
    simpa [elsewhere] using (Network.sendersTo_eraseIdx found erased partition).symm
  have outputted : network'.outputsOf partition = network.outputsOf partition := by
    rw [Network.outputsOf_of_outputs left, if_neg (Ne.symm elsewhere), List.append_nil]
  cases stage with
  | idle idle worker redirected pending outputsOf =>
      exact .idle (dispatched ▸ idle) (workers.trans worker) (redirects.trans redirected)
        (dispatched ▸ senders.trans pending) (outputted.trans outputsOf)
  | waiting received count dispatchedHere waits worker counted remaining redirected pending outputsOf =>
      exact .waiting received count (dispatched ▸ dispatchedHere) waits (workers.trans worker) counted remaining
        (redirects.trans redirected) (dispatched ▸ (senders.append_right _).trans pending) (outputted.trans outputsOf)
  | finished received final dispatchedHere all complete executed worker redirected pending outputsOf =>
      exact .finished received final (dispatched ▸ dispatchedHere) all (dispatched ▸ complete) executed
        (workers.trans worker) (redirects.trans redirected) (List.Perm.eq_nil (pending ▸ senders))
        (outputted.trans outputsOf)

/-- The partitions the txn was not dispatched to are as they started. -/
theorem Run.Stage.of_not_dispatched (stage : run.Stage network partition) (fresh : partition ∉ network.dispatched) :
    network.workers partition = ⟨run.storage partition, fun _ => none⟩ ∧ network.redirects partition = [] ∧
      (network.sendersTo partition).Perm
        (if partition ∈ run.waiting then (run.others partition).filter (· ∈ network.dispatched) else []) ∧
      network.outputsOf partition = [] := by
  cases stage with
  | idle _ worker redirected pending outputsOf => exact ⟨worker, redirected, pending, outputsOf⟩
  | waiting _ _ dispatched => exact absurd dispatched fresh
  | finished _ _ dispatched => exact absurd dispatched fresh

/-- A partition that waits for no one finishes as soon as the txn is dispatched to it. -/
theorem Run.Stage.dispatch_finished (wf : run.WellFormed) (stage : run.Stage network partition)
    (member : partition ∈ run.txn.involvedPartitions) (fresh : partition ∉ network.dispatched)
    {messages : List Message} {final : WorkerTxn × (Key → Option Record)}
    (zero : waitingOn (run.configOf partition) (run.localRead partition) = 0)
    (executed : executeTxn (run.configOf partition) (run.storage partition) (run.localRead partition) = .ok final)
    (workers : network'.workers partition = ⟨final.2, fun _ => none⟩)
    (redirects : network'.redirects partition = network.redirects partition)
    (sent : network'.inFlight = network.inFlight ++ messages)
    (arriving : (messages.filter (·.destination = partition)).map (·.result.partition) = [])
    (left : network'.outputs = network.outputs ++ (finishOutputs (run.configOf partition) run.runId final.1).map (partition, ·))
    (dispatched : network'.dispatched = partition :: network.dispatched) :
    run.Stage network' partition := by
  obtain ⟨-, redirected, pending, outputted⟩ := stage.of_not_dispatched fresh
  have nothingToWait := (wf.waitingOn_eq_zero member).mp zero
  refine .finished [] final (by simp [dispatched]) ?_ ?_ executed workers (redirects.trans redirected) ?_ ?_
  · rcases nothingToWait with notWaiting | none
    · simp [notWaiting]
    · simp [none]
  · intro waits other otherOf
    simp [nothingToWait.resolve_left (not_not.mpr waits)] at otherOf
  · rw [Network.sendersTo_of_inFlight sent, arriving, List.append_nil]
    rcases nothingToWait with notWaiting | none
    · simpa [notWaiting] using pending
    · simpa [none] using pending
  · rw [Network.outputsOf_of_outputs left, outputted, if_pos rfl, List.nil_append]

/-- A waiting partition waits for every other involved partition once the txn is dispatched to it. -/
theorem Run.Stage.dispatch_waiting (wf : run.WellFormed) (stage : run.Stage network partition)
    (member : partition ∈ run.txn.involvedPartitions) (fresh : partition ∉ network.dispatched)
    {messages : List Message}
    (waits : waitingOn (run.configOf partition) (run.localRead partition) ≠ 0)
    (workers : network'.workers partition = ⟨run.storage partition, Function.update (fun _ => none) run.runId
      (some ⟨run.localRead partition, waitingOn (run.configOf partition) (run.localRead partition), .waitRemoteRead⟩)⟩)
    (redirects : network'.redirects partition = makeTag run.runId :: network.redirects partition)
    (sent : network'.inFlight = network.inFlight ++ messages)
    (arriving : (messages.filter (·.destination = partition)).map (·.result.partition) = [])
    (left : network'.outputs = network.outputs)
    (dispatched : network'.dispatched = partition :: network.dispatched) :
    run.Stage network' partition := by
  obtain ⟨-, redirected, pending, outputted⟩ := stage.of_not_dispatched fresh
  have waiting : partition ∈ run.waiting ∧ run.others partition ≠ [] := by
    simpa [wf.waitingOn_eq_zero member, not_or] using waits
  have counted := wf.toNat_waitingOn member
  rw [if_pos waiting.1] at counted pending
  refine .waiting [] _ (by simp [dispatched]) waiting.1 workers (by simpa using counted)
    (by simpa using List.length_pos_iff.mpr waiting.2) (by rw [redirects, redirected]) ?_
    (by simpa [Network.outputsOf, left] using outputted)
  rw [List.append_nil, Network.sendersTo_of_inFlight sent, arriving, List.append_nil, dispatched]
  refine pending.trans (List.Perm.of_eq (List.filter_congr fun other otherOf => ?_))
  simp [(Run.mem_others.mp otherOf).2]

theorem toNat_sub_one_of_pos {count : UInt32} (positive : 0 < count.toNat) : (count - 1).toNat = count.toNat - 1 := by
  rw [UInt32.toNat_sub_of_le]
  · rfl
  · rw [UInt32.le_iff_toNat_le, UInt32.toNat_one]
    omega

/-- The last remote read a waiting partition waits for has it finish. -/
theorem Run.Stage.deliver_last {received : List Nat} {count : UInt32} {index : Nat} {message : Message}
    {final : WorkerTxn × (Key → Option Record)}
    (dispatchedHere : message.destination ∈ network.dispatched) (waits : message.destination ∈ run.waiting)
    (counted : count.toNat = (run.others message.destination).length - received.length)
    (remaining : received.length < (run.others message.destination).length)
    (pending : (network.sendersTo message.destination ++ received).Perm
      ((run.others message.destination).filter (· ∈ network.dispatched)))
    (found : network.inFlight[index]? = some message) (last : count - 1 = 0)
    (executed : executeTxn (run.configOf message.destination) (run.storage message.destination)
      (run.received message.destination (received ++ [message.result.partition])) = .ok final)
    (workers : network'.workers message.destination = ⟨final.2, fun _ => none⟩)
    (redirects : network'.redirects message.destination = [])
    (erased : network'.inFlight = network.inFlight.eraseIdx index)
    (left : network'.outputs = network.outputs ++
      (finishOutputs (run.configOf message.destination) run.runId final.1).map (message.destination, ·))
    (outputsOf : network.outputsOf message.destination = [])
    (dispatched : network'.dispatched = network.dispatched) :
    run.Stage network' message.destination := by
  have outputted : network'.outputsOf message.destination =
      finishOutputs (run.configOf message.destination) run.runId final.1 := by
    rw [Network.outputsOf_of_outputs left, outputsOf, if_pos rfl, List.nil_append]
  have senders := Network.sendersTo_eraseIdx found erased message.destination
  rw [if_pos rfl] at senders
  have one : (run.others message.destination).length = received.length + 1 := by
    have decreased := congrArg UInt32.toNat last
    rw [toNat_sub_one_of_pos (by omega), UInt32.toNat_zero] at decreased
    omega
  have lengths := (senders.append_right received).symm.trans pending |>.length_eq
  have bounded := List.length_filter_le (· ∈ network.dispatched) (run.others message.destination)
  simp only [List.length_append, List.length_singleton] at lengths
  have none : network'.sendersTo message.destination = [] := List.eq_nil_of_length_eq_zero (by omega)
  have full : ((run.others message.destination).filter (· ∈ network.dispatched)).length =
      (run.others message.destination).length := by omega
  have complete : ∀ other ∈ run.others message.destination, other ∈ network.dispatched := by
    simpa using List.length_filter_eq_length_iff.mp full
  rw [none, List.append_nil] at senders
  refine .finished (received ++ [message.result.partition]) final (dispatched ▸ dispatchedHere) ?_
    (fun _ => dispatched ▸ complete) executed workers redirects none outputted
  rw [if_pos waits]
  calc received ++ [message.result.partition]
      _ ~ network.sendersTo message.destination ++ received := List.perm_append_comm.trans (senders.symm.append_right _)
      _ ~ (run.others message.destination).filter (· ∈ network.dispatched) := pending
      _ = run.others message.destination := List.filter_eq_self.mpr (by simpa using complete)

/-- A remote read that is not the last one a waiting partition waits for is received. -/
theorem Run.Stage.deliver_more {received : List Nat} {count : UInt32} {index : Nat} {message : Message}
    (dispatchedHere : message.destination ∈ network.dispatched) (waits : message.destination ∈ run.waiting)
    (counted : count.toNat = (run.others message.destination).length - received.length)
    (remaining : received.length < (run.others message.destination).length)
    (pending : (network.sendersTo message.destination ++ received).Perm
      ((run.others message.destination).filter (· ∈ network.dispatched)))
    (found : network.inFlight[index]? = some message) (more : count - 1 ≠ 0)
    (workers : network'.workers message.destination = ⟨run.storage message.destination,
      Function.update (fun _ => none) run.runId
        (some ⟨run.received message.destination (received ++ [message.result.partition]), count - 1, .waitRemoteRead⟩)⟩)
    (redirects : network'.redirects message.destination = network.redirects message.destination)
    (redirected : network.redirects message.destination = [makeTag run.runId])
    (erased : network'.inFlight = network.inFlight.eraseIdx index)
    (left : network'.outputs = network.outputs) (outputsOf : network.outputsOf message.destination = [])
    (dispatched : network'.dispatched = network.dispatched) :
    run.Stage network' message.destination := by
  have senders := Network.sendersTo_eraseIdx found erased message.destination
  rw [if_pos rfl] at senders
  have decreased : (count - 1).toNat = count.toNat - 1 := toNat_sub_one_of_pos (by omega)
  have stillWaiting : (count - 1).toNat ≠ 0 := fun zero => more (UInt32.toNat_inj.mp (by simpa using zero))
  refine .waiting (received ++ [message.result.partition]) (count - 1) (dispatched ▸ dispatchedHere) waits workers
    (by simp only [List.length_append, List.length_singleton]; omega)
    (by simp only [List.length_append, List.length_singleton]; omega) (redirects.trans redirected) ?_
    (by rw [← outputsOf, Network.outputsOf, Network.outputsOf, left])
  rw [dispatched]
  calc network'.sendersTo message.destination ++ (received ++ [message.result.partition])
      _ ~ [message.result.partition] ++ network'.sendersTo message.destination ++ received := by
        refine (List.perm_append_comm.append_left _).trans ?_
        rw [← List.append_assoc]
        exact List.perm_append_comm.append_right _
      _ ~ network.sendersTo message.destination ++ received := senders.symm.append_right _
      _ ~ (run.others message.destination).filter (· ∈ network.dispatched) := pending

end Frames

section Preservation

variable {run : Run} {network network' : Network} (wf : run.WellFormed)
include wf

/-- Dispatching the txn to a partition keeps the invariant. -/
theorem Run.Invariant.dispatch (inv : run.Invariant network) {dispatchedTo : Nat}
    (stepped : run.step network (.dispatch dispatchedTo) = some network') : run.Invariant network' := by
  obtain ⟨member, fresh, steps⟩ := inv.step_dispatch stepped
  have nodup : (dispatchedTo :: network.dispatched).Nodup := List.nodup_cons.mpr ⟨fresh, inv.nodup⟩
  have involved : ∀ partition ∈ dispatchedTo :: network.dispatched, partition ∈ run.txn.involvedPartitions := by
    simpa [member] using inv.involved
  have messages : ∀ message ∈ network.inFlight ++
      (((run.configOf dispatchedTo).waitingPartitions (run.localRead dispatchedTo)).filter
        (· ≠ (run.configOf dispatchedTo).localPartition)).map
        (fun destination => (⟨destination, makeTag run.runId,
          readResult (run.configOf dispatchedTo) run.runId (run.localRead dispatchedTo)⟩ : Message)),
      message.tag = makeTag run.runId ∧ message.result = run.resultOf message.result.partition := by
    intro message sent
    rcases List.mem_append.mp sent with old | new
    · exact inv.messages message old
    · obtain ⟨destination, -, rfl⟩ := List.mem_map.mp new
      exact ⟨rfl, rfl⟩
  rcases steps with ⟨zero, final, executed, rfl⟩ | ⟨waits, rfl⟩
  · -- the partition finishes at once
    rw [Network.handled_finish]
    refine ⟨nodup, involved, messages, fun partition => ?_⟩
    by_cases same : partition = dispatchedTo
    · subst same
      exact (inv.stage partition).dispatch_finished wf member fresh zero executed (by simp) rfl rfl
        (by rw [wf.arriving]; simp) rfl rfl
    · exact (inv.stage partition).dispatch_other wf _ same member fresh (by simp [same]) rfl rfl
        (wf.arriving _ _) rfl rfl
  · -- the partition waits for the reads of every other involved partition
    rw [Network.handled_wait]
    refine ⟨nodup, involved, messages, fun partition => ?_⟩
    by_cases same : partition = dispatchedTo
    · subst same
      exact (inv.stage partition).dispatch_waiting wf member fresh waits (by simp) (by simp) rfl
        (by rw [wf.arriving]; simp) rfl rfl
    · exact (inv.stage partition).dispatch_other wf [] same member fresh (by simp [same]) (by simp [same]) rfl
        (wf.arriving _ _) (by simp) rfl

omit wf in
/-- Delivering a message keeps the invariant. -/
theorem Run.Invariant.deliver (inv : run.Invariant network) {index : Nat}
    (stepped : run.step network (.deliver index) = some network') : run.Invariant network' := by
  obtain ⟨message, found, redirected⟩ := run.step_deliver_guard stepped
  obtain ⟨-, result⟩ := inv.messages message (List.mem_of_getElem? found)
  have messages : ∀ kept ∈ network.inFlight.eraseIdx index,
      kept.tag = makeTag run.runId ∧ kept.result = run.resultOf kept.result.partition :=
    fun kept stays => inv.messages kept (List.mem_of_mem_eraseIdx stays)
  cases inv.stage message.destination with
  | idle _ _ redirects => simp [redirects] at redirected
  | finished _ _ _ _ _ _ _ redirects => simp [redirects] at redirected
  | waiting received count dispatchedHere waits worker counted remaining redirectsTag pending outputsOf =>
      rcases run.step_deliver_of_waiting found result worker stepped with ⟨last, final, executed, rfl⟩ | ⟨more, rfl⟩
      · rw [Network.handled_stop]
        refine ⟨inv.nodup, inv.involved, messages, fun partition => ?_⟩
        by_cases same : partition = message.destination
        · subst same
          exact Run.Stage.deliver_last dispatchedHere waits counted remaining pending found last executed (by simp)
            (by simp [redirectsTag]) rfl rfl outputsOf rfl
        · exact (inv.stage partition).deliver_other found (Ne.symm same) (by simp [same]) (by simp [same]) rfl _ rfl rfl
      · simp only [Network.handled, List.foldl_nil]
        refine ⟨inv.nodup, inv.involved, messages, fun partition => ?_⟩
        by_cases same : partition = message.destination
        · subst same
          exact Run.Stage.deliver_more dispatchedHere waits counted remaining pending found more (by simp) rfl
            redirectsTag rfl rfl outputsOf rfl
        · exact (inv.stage partition).deliver_other found (Ne.symm same) (by simp [same]) rfl rfl [] (by simp) rfl

/-- A step keeps the invariant. -/
theorem Run.Invariant.step (inv : run.Invariant network) {action : Action}
    (stepped : run.step network action = some network') : run.Invariant network' := by
  cases action with
  | dispatch partition => exact inv.dispatch wf stepped
  | deliver index => exact inv.deliver stepped

end Preservation

theorem Run.invariant_init (run : Run) : run.Invariant run.init where
  nodup := List.nodup_nil
  involved := by simp [Run.init]
  messages := by simp [Run.init]
  stage partition := .idle (by simp [Run.init]) rfl rfl (by split <;> simp [Network.sendersTo, Run.init])
    (by simp [Network.outputsOf, Run.init])

/-- The invariant holds in every network a run reaches. -/
theorem Run.Reachable.invariant {run : Run} (wf : run.WellFormed) {network : Network} (reachable : run.Reachable network) :
    run.Invariant network := by
  induction reachable with
  | init => exact run.invariant_init
  | step _ stepped invariant => exact invariant.step wf stepped

/-- At a partition that waits for remote reads, in every network a run reaches: while its worker
holds the run, it waits, and its count of the reads still to come is neither zero, so that the
decrement of a delivery never wraps, nor more than the other involved partitions; once it sent
anything out, it executed the txn on the reads of every other involved partition, each once, and
sent what `Finish` sends. -/
theorem Run.Reachable.reads_each_once {run : Run} (wf : run.WellFormed) {network : Network}
    (reachable : run.Reachable network) {partition : Nat} (waits : partition ∈ run.waiting) :
    (∀ state, (network.workers partition).txnStates run.runId = some state →
      state.phase = .waitRemoteRead ∧ 0 < state.remoteReadsWaitingOn.toNat ∧
        state.remoteReadsWaitingOn.toNat ≤ (run.others partition).length) ∧
    (network.outputsOf partition ≠ [] → ∃ received final, received.Perm (run.others partition) ∧
      executeTxn (run.configOf partition) (run.storage partition) (run.received partition received) = .ok final ∧
      network.outputsOf partition = finishOutputs (run.configOf partition) run.runId final.1) := by
  cases (reachable.invariant wf).stage partition with
  | idle _ worker _ _ outputs =>
      refine ⟨fun state found => ?_, fun sent => absurd outputs sent⟩
      simp [worker] at found
  | waiting received count _ _ worker counted remaining _ _ outputs =>
      refine ⟨fun state found => ?_, fun sent => absurd outputs sent⟩
      simp only [worker, Function.update_self, Option.some.injEq] at found
      subst found
      dsimp only
      exact ⟨rfl, by omega, by omega⟩
  | finished received final _ all _ executed worker _ _ outputs =>
      refine ⟨fun state found => ?_, fun _ => ⟨received, final, ?_, executed, outputs⟩⟩
      · simp [worker] at found
      · simpa [waits] using all

/-- A txn on partitions 0 and 1 under DDR, where each waits for the reads of the other. -/
def twoPartitionRun : Run where
  config := ⟨0, 0, 0, fun key => if key = "a" then 0 else 1, .ddr⟩
  txn := ⟨7, ⟨[], [], [], .notStarted, ""⟩, .code, [0, 1], [0, 1], 0⟩
  deadlocked := false
  storage _ _ := none

theorem twoPartitionRun_wellFormed : twoPartitionRun.WellFormed := ⟨by decide, by decide, by decide⟩

theorem twoPartitionRun_reads : twoPartitionRun.WellFormed ∧ 0 ∈ twoPartitionRun.waiting ∧
    (∃ network, twoPartitionRun.Reachable network ∧ (network.workers 0).txnStates twoPartitionRun.runId ≠ none ∧
      (∀ state, (network.workers 0).txnStates twoPartitionRun.runId = some state →
        state.phase = .waitRemoteRead ∧ 0 < state.remoteReadsWaitingOn.toNat ∧
          state.remoteReadsWaitingOn.toNat ≤ (twoPartitionRun.others 0).length) ∧
      (network.outputsOf 0 ≠ [] → ∃ received final, received.Perm (twoPartitionRun.others 0) ∧
        executeTxn (twoPartitionRun.configOf 0) (twoPartitionRun.storage 0) (twoPartitionRun.received 0 received) =
          .ok final ∧
        network.outputsOf 0 = finishOutputs (twoPartitionRun.configOf 0) twoPartitionRun.runId final.1)) ∧
    (∃ network, twoPartitionRun.Reachable network ∧ network.outputsOf 0 ≠ [] ∧
      (∀ state, (network.workers 0).txnStates twoPartitionRun.runId = some state →
        state.phase = .waitRemoteRead ∧ 0 < state.remoteReadsWaitingOn.toNat ∧
          state.remoteReadsWaitingOn.toNat ≤ (twoPartitionRun.others 0).length) ∧
      (network.outputsOf 0 ≠ [] → ∃ received final, received.Perm (twoPartitionRun.others 0) ∧
        executeTxn (twoPartitionRun.configOf 0) (twoPartitionRun.storage 0) (twoPartitionRun.received 0 received) =
          .ok final ∧
        network.outputsOf 0 = finishOutputs (twoPartitionRun.configOf 0) twoPartitionRun.runId final.1)) := by
  have wf := twoPartitionRun_wellFormed
  have waiting : twoPartitionRun.Reachable _ := @Run.Reachable.step _ _ _ (.dispatch 0) .init rfl
  have dispatched := @Run.Reachable.step _ _ _ (.dispatch 1) waiting rfl
  have delivered := @Run.Reachable.step _ _ _ (.deliver 0) (@Run.Reachable.step _ _ _ (.deliver 0) dispatched rfl) rfl
  refine ⟨wf, by decide, ⟨_, waiting, by decide, Run.Reachable.reads_each_once wf waiting (by decide)⟩,
    ⟨_, delivered, by decide, Run.Reachable.reads_each_once wf delivered (by decide)⟩⟩

/-- No partition is left waiting: once the txn was dispatched to every involved partition and
every message was delivered, the worker of each involved partition has finished the run, holds no
state for it, and sent what `Finish` sends. -/
theorem Run.Reachable.finished_of_delivered {run : Run} (wf : run.WellFormed) {network : Network}
    (reachable : run.Reachable network)
    (dispatchedAll : ∀ partition ∈ run.txn.involvedPartitions, partition ∈ network.dispatched)
    (delivered : network.inFlight = []) {partition : Nat} (member : partition ∈ run.txn.involvedPartitions) :
    (network.workers partition).txnStates run.runId = none ∧
      ∃ txn, network.outputsOf partition = finishOutputs (run.configOf partition) run.runId txn := by
  cases (reachable.invariant wf).stage partition with
  | idle fresh => exact absurd (dispatchedAll partition member) fresh
  | waiting received _ _ _ _ _ remaining _ pending =>
      have sent : (run.others partition).filter (· ∈ network.dispatched) = run.others partition :=
        List.filter_eq_self.mpr fun other mem => by
          simpa using dispatchedAll other (List.mem_of_mem_filter mem)
      have arrived : network.sendersTo partition = [] := by simp [Network.sendersTo, delivered]
      rw [sent, arrived, List.nil_append] at pending
      exact absurd pending.length_eq (by omega)
  | finished _ final _ _ _ _ worker _ _ outputs => exact ⟨by simp [worker], final.1, outputs⟩

theorem twoPartitionRun_finished : ∃ network, twoPartitionRun.Reachable network ∧
    (∀ partition ∈ twoPartitionRun.txn.involvedPartitions, partition ∈ network.dispatched) ∧ network.inFlight = [] ∧
    (network.workers 0).txnStates twoPartitionRun.runId = none ∧
      ∃ txn, network.outputsOf 0 = finishOutputs (twoPartitionRun.configOf 0) twoPartitionRun.runId txn := by
  have wf := twoPartitionRun_wellFormed
  have waiting : twoPartitionRun.Reachable _ := @Run.Reachable.step _ _ _ (.dispatch 0) .init rfl
  have dispatched := @Run.Reachable.step _ _ _ (.dispatch 1) waiting rfl
  have delivered := @Run.Reachable.step _ _ _ (.deliver 0) (@Run.Reachable.step _ _ _ (.deliver 0) dispatched rfl) rfl
  refine ⟨_, delivered, ?_, ?_, Run.Reachable.finished_of_delivered wf delivered ?_ ?_ (by decide)⟩
  all_goals decide

end Slog.RemoteReads
