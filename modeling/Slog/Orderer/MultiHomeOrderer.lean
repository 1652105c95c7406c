/-
The multi-home orderer of a machine (`module/multi_home_orderer.cpp`): its batches, its timer, and
the batch log through which it forwards txns to its sequencer.
-/

import Mathlib.Data.List.Basic
import Slog.Common.BatchLog
import Slog.Sequencer.Batching
import Slog.Library.Folds

namespace Slog

/-- `MakeMachineId`; a region and a replica id are a `uint8_t`, a partition id a `uint16_t`. -/
def makeMachineId (region replica partition : Nat) : Nat :=
  (region % 2 ^ 8) <<< 24 ||| (replica % 2 ^ 8) <<< 16 ||| partition % 2 ^ 16

/-- `Configuration::leader_partition_for_multi_home_ordering`. -/
def leaderPartitionForMultiHomeOrdering : Nat := 0

/-- The settings of the configuration that a multi-home orderer reads. -/
structure OrdererConfig where
  numRegions : Nat
  localMachineId : Nat

/-- The state of a multi-home orderer: the batch of each region being built (`batch_per_reg_`),
the counter of batch ids, the number of txns in the batch, the log of the batches of its region,
and whether the timer that sends the batch is set (a callback the module's poller keeps). -/
structure MultiHomeOrderer where
  batchPerReg : List Batch
  batchIdCounter : Nat
  batchSize : Nat
  multiHomeBatchLog : BatchLog
  timerSet : Bool

namespace MultiHomeOrderer

/-- The requests of `OnInternalRequestReceived`. -/
inductive Request where
  | forwardTxn (txn : Transaction)
  | forwardBatchData (batch : Batch)
  | forwardBatchOrder (slot : Nat) (batchId : Nat)
  deriving DecidableEq, Repr

/-- What an orderer sends: a batch id to the global Paxos, the part of a batch for a region to
the orderer of a machine, or a txn to the local sequencer. -/
inductive Message where
  | paxosPropose (value : Nat)
  | forwardBatchData (machine : Nat) (batch : Batch)
  | forwardTxn (txn : Transaction)
  deriving DecidableEq, Repr

variable (config : OrdererConfig)

/-- `batch_id()`: the counter above the machine id, in a `uint64_t`. -/
def batchId (orderer : MultiHomeOrderer) : Nat :=
  ((orderer.batchIdCounter <<< kMachineIdBits) ||| config.localMachineId) % 2 ^ 64

def newBatch (orderer : MultiHomeOrderer) : MultiHomeOrderer :=
  let orderer := { orderer with batchIdCounter := orderer.batchIdCounter + 1, batchSize := 0 }
  { orderer with batchPerReg := orderer.batchPerReg.map fun _ => ⟨orderer.batchId config, []⟩ }

/-- The constructor: a batch for each region (`resize`), then `NewBatch`. -/
def new : MultiHomeOrderer :=
  newBatch config ⟨List.replicate config.numRegions ⟨0, []⟩, 0, 0, BatchLog.init, false⟩

/-- Appends the txn to the batch of a region; a region without a batch is out of range. -/
def addToRegion (txn : Transaction) (batches : List Batch) (region : Nat) : Except String (List Batch) :=
  if region < batches.length then
    .ok (batches.modify region fun batch => { batch with transactions := batch.transactions ++ [txn] })
  else .error "AddToBatch() got a region without a batch"

def addToBatch (orderer : MultiHomeOrderer) (txn : Transaction) : Except String MultiHomeOrderer := do
  let regions := txn.internal.involvedRegions
  -- the last region is read as `regions[regions.size() - 1]`, out of range when there is none
  if regions = [] then throw "AddToBatch() got a txn without involved regions"
  let batchPerReg ← regions.foldlM (addToRegion txn) orderer.batchPerReg
  let orderer := { orderer with batchPerReg := batchPerReg, batchSize := orderer.batchSize + 1 }
  -- the first txn of a batch sets the timer that sends it
  pure (if orderer.batchSize = 1 then { orderer with timerSet := true } else orderer)

/-- `SendBatch`: the batch id goes to the global Paxos and each region's batch to partition
`leader_partition_for_multi_home_ordering` of replica 0 of the region. -/
def sendBatch (orderer : MultiHomeOrderer) : List Message :=
  .paxosPropose (orderer.batchId config) ::
    (List.range config.numRegions).filterMap fun reg =>
      orderer.batchPerReg[reg]?.map (.forwardBatchData (makeMachineId reg 0 leaderPartitionForMultiHomeOrdering))

/-- The timer's callback: `SendBatch()`, then `NewBatch()`. -/
def onTimer (orderer : MultiHomeOrderer) : MultiHomeOrderer × List Message :=
  if orderer.timerSet then (newBatch config { orderer with timerSet := false }, sendBatch config orderer)
  else (orderer, [])

/-- `AdvanceLog`: while `HasNextBatch`, takes the next batch and forwards its txns (`Unbatch`) to the
sequencer. Each `NextBatch` takes one ready batch, so their count bounds the loop. -/
def advanceLog (orderer : MultiHomeOrderer) : Except String (MultiHomeOrderer × List Message) := do
  let (emitted, log) ← BatchLog.drain orderer.multiHomeBatchLog.readyBatches.length orderer.multiHomeBatchLog
  pure ({ orderer with multiHomeBatchLog := log }, emitted.flatMap fun entry => entry.2.transactions.map .forwardTxn)

def processForwardBatchData (orderer : MultiHomeOrderer) (batch : Batch) :
    Except String (MultiHomeOrderer × List Message) :=
  advanceLog { orderer with multiHomeBatchLog := orderer.multiHomeBatchLog.addBatch batch }

/-- `AddSlot`'s replication factor is left at its default, zero. -/
def processForwardBatchOrder (orderer : MultiHomeOrderer) (slot batchId : Nat) :
    Except String (MultiHomeOrderer × List Message) := do
  let log ← orderer.multiHomeBatchLog.addSlot slot batchId 0
  advanceLog { orderer with multiHomeBatchLog := log }

def onInternalRequestReceived (orderer : MultiHomeOrderer) : Request → Except String (MultiHomeOrderer × List Message)
  | .forwardTxn txn => do
      let orderer ← orderer.addToBatch txn
      pure (orderer, [])
  | .forwardBatchData batch => orderer.processForwardBatchData batch
  | .forwardBatchOrder slot batchId => orderer.processForwardBatchOrder slot batchId

/-- The event of its batch log that a request brings to the orderer of a region. -/
def Request.event : Request → Option BatchLog.Event
  | .forwardTxn _ => none
  | .forwardBatchData batch => some (.addBatch batch)
  | .forwardBatchOrder slot batchId => some (.addSlot slot batchId 0)

/-- The batch being built holds, for each region, the txns added since `NewBatch` that involve
the region, in the order they came, under the current batch id. -/
def Building (orderer : MultiHomeOrderer) (txns : List Transaction) : Prop :=
  orderer.batchPerReg = (List.range config.numRegions).map fun region =>
    ⟨orderer.batchId config, txns.filter fun txn => region ∈ txn.internal.involvedRegions⟩

variable {config} {orderer : MultiHomeOrderer}

@[simp] theorem newBatch_batchIdCounter : (newBatch config orderer).batchIdCounter = orderer.batchIdCounter + 1 := rfl

@[simp] theorem newBatch_multiHomeBatchLog : (newBatch config orderer).multiHomeBatchLog = orderer.multiHomeBatchLog := rfl

@[simp] theorem newBatch_timerSet : (newBatch config orderer).timerSet = orderer.timerSet := rfl

@[simp] theorem newBatch_batchId : (newBatch config orderer).batchId config =
    ((orderer.batchIdCounter + 1) <<< kMachineIdBits ||| config.localMachineId) % 2 ^ 64 := rfl

@[simp] theorem newBatch_batchPerReg : (newBatch config orderer).batchPerReg =
    orderer.batchPerReg.map fun _ => ⟨((orderer.batchIdCounter + 1) <<< kMachineIdBits ||| config.localMachineId) % 2 ^ 64, []⟩ :=
  rfl

/-- Below `2 ^ 32` batches the id is the counter above the machine id, with no bit lost. -/
theorem batchId_eq (machineFits : config.localMachineId < 2 ^ kMachineIdBits)
    (counterFits : orderer.batchIdCounter < 2 ^ 32) :
    orderer.batchId config = orderer.batchIdCounter * 2 ^ kMachineIdBits + config.localMachineId := by
  rw [batchId, ← Nat.shiftLeft_add_eq_or_of_lt machineFits, Nat.shiftLeft_eq]
  simp only [kMachineIdBits] at machineFits ⊢
  omega

/-- Ids of batches below `2 ^ 32` tell the machine and the counter apart. -/
theorem counter_eq_of_batchId_eq {counter counter' machine machine' : Nat} (machineFits : machine < 2 ^ kMachineIdBits)
    (machineFits' : machine' < 2 ^ kMachineIdBits)
    (same : counter * 2 ^ kMachineIdBits + machine = counter' * 2 ^ kMachineIdBits + machine') :
    counter = counter' ∧ machine = machine' := by
  simp only [kMachineIdBits] at machineFits machineFits' same
  omega

/-- A new batch has an empty part for each region, under the next id. -/
theorem Building.newBatch {txns : List Transaction} (building : orderer.Building config txns) :
    (newBatch config orderer).Building config [] := by
  simp only [Building, newBatch_batchPerReg, newBatch_batchId, List.filter_nil]
  rw [building, List.map_map]
  rfl

theorem building_new : (new config).Building config [] := by
  simp only [Building, new, newBatch_batchPerReg, newBatch_batchId, List.filter_nil, List.map_const',
    List.length_replicate, List.length_range]

/-- Appending to the batch of one region, of a list of batches laid out by region. -/
theorem modify_range_map (numRegions region : Nat) (part : Nat → Batch) (f : Batch → Batch) :
    ((List.range numRegions).map part).modify region f =
      (List.range numRegions).map fun region' => if region = region' then f (part region') else part region' := by
  apply List.ext_getElem?
  intro i
  rw [List.getElem?_modify, List.getElem?_map, List.getElem?_map]
  by_cases below : i < numRegions
  · simp [List.getElem?_range below]
  · simp [List.getElem?_eq_none (show (List.range numRegions).length ≤ i by simpa using below)]

/-- `AddToBatch`'s loop over distinct regions of the batches appends the txn to the part of each. -/
theorem foldlM_addToRegion (txn : Transaction) (id : Nat) {regions : List Nat} (distinct : regions.Nodup)
    (within : ∀ region ∈ regions, region < config.numRegions) (part : Nat → List Transaction) :
    regions.foldlM (addToRegion txn) ((List.range config.numRegions).map fun region => ⟨id, part region⟩) =
      .ok ((List.range config.numRegions).map fun region =>
        ⟨id, if region ∈ regions then part region ++ [txn] else part region⟩) := by
  induction regions generalizing part with
  | nil => simp [pure, Except.pure]
  | cons region rest ih =>
      rw [List.nodup_cons] at distinct
      have fits : region < config.numRegions := within region List.mem_cons_self
      have appended : ((List.range config.numRegions).map fun region' => (⟨id, part region'⟩ : Batch)).modify region
          (fun batch => { batch with transactions := batch.transactions ++ [txn] }) =
          (List.range config.numRegions).map fun region' =>
            ⟨id, if region = region' then part region' ++ [txn] else part region'⟩ := by
        rw [modify_range_map]
        apply List.map_congr_left
        intro region' _
        split <;> rfl
      rw [List.foldlM_cons, addToRegion, if_pos (by simpa using fits), appended]
      simp only [bind, Except.bind]
      rw [ih distinct.2 (fun other member => within other (List.mem_cons_of_mem _ member))]
      congr 1
      apply List.map_congr_left
      intro region' _
      by_cases same : region = region'
      · subst same
        simp [distinct.1]
      · simp [same, Ne.symm same]

/-- `AddToBatch` of a txn whose involved regions are distinct regions of the configuration, at
least one: each involved region's part gets the txn, and nothing but the batch and its size and
timer changes. -/
theorem Building.addToBatch {txns : List Transaction} (building : orderer.Building config txns) {txn : Transaction}
    (nonempty : txn.internal.involvedRegions ≠ []) (distinct : txn.internal.involvedRegions.Nodup)
    (within : ∀ region ∈ txn.internal.involvedRegions, region < config.numRegions) :
    ∃ orderer', orderer.addToBatch txn = .ok orderer' ∧ orderer'.Building config (txns ++ [txn]) ∧
      orderer'.batchIdCounter = orderer.batchIdCounter ∧ orderer'.multiHomeBatchLog = orderer.multiHomeBatchLog := by
  have added := foldlM_addToRegion txn (orderer.batchId config) distinct within
    fun region => txns.filter fun txn => region ∈ txn.internal.involvedRegions
  have grown : ((List.range config.numRegions).map fun region => (⟨orderer.batchId config,
      if region ∈ txn.internal.involvedRegions then
        (txns.filter fun txn => region ∈ txn.internal.involvedRegions) ++ [txn]
      else txns.filter fun txn => region ∈ txn.internal.involvedRegions⟩ : Batch)) =
      (List.range config.numRegions).map fun region =>
        ⟨orderer.batchId config, (txns ++ [txn]).filter fun txn => region ∈ txn.internal.involvedRegions⟩ := by
    apply List.map_congr_left
    intro region _
    by_cases involved : region ∈ txn.internal.involvedRegions <;> simp [involved]
  rw [← building, grown] at added
  let counted : MultiHomeOrderer := { orderer with
    batchPerReg := (List.range config.numRegions).map fun region =>
      ⟨orderer.batchId config, (txns ++ [txn]).filter fun txn => region ∈ txn.internal.involvedRegions⟩
    batchSize := orderer.batchSize + 1 }
  refine ⟨if counted.batchSize = 1 then { counted with timerSet := true } else counted, ?_, ?_, ?_, ?_⟩
  · simp only [MultiHomeOrderer.addToBatch, nonempty, if_false, added, bind, Except.bind, pure, Except.pure]
    rfl
  all_goals split <;> rfl

/-- Under a batch being built, `SendBatch` proposes its id and sends each region its part. -/
theorem Building.sendBatch {txns : List Transaction} (building : orderer.Building config txns) :
    sendBatch config orderer = .paxosPropose (orderer.batchId config) ::
      (List.range config.numRegions).map fun region =>
        .forwardBatchData (makeMachineId region 0 leaderPartitionForMultiHomeOrdering)
          ⟨orderer.batchId config, txns.filter fun txn => region ∈ txn.internal.involvedRegions⟩ := by
  rw [MultiHomeOrderer.sendBatch, List.filterMap_eq_map_iff_forall_eq_some.mpr]
  intro region member
  rw [building, List.getElem?_map, List.getElem?_range (List.mem_range.mp member)]
  rfl

/-- `AddToBatch` changes neither the counter nor the log. -/
theorem addToBatch_frame {txn : Transaction} {orderer' : MultiHomeOrderer} (added : orderer.addToBatch txn = .ok orderer') :
    orderer'.batchIdCounter = orderer.batchIdCounter ∧ orderer'.multiHomeBatchLog = orderer.multiHomeBatchLog := by
  unfold MultiHomeOrderer.addToBatch at added
  by_cases none : txn.internal.involvedRegions = []
  · simp [none, throw, throwThe, MonadExceptOf.throw, bind, Except.bind] at added
  · cases grown : txn.internal.involvedRegions.foldlM (addToRegion txn) orderer.batchPerReg with
    | error message => simp [none, grown, bind, Except.bind] at added
    | ok batches =>
        simp only [none, grown, if_false, bind, Except.bind, pure, Except.pure, Except.ok.injEq] at added
        subst added
        split <;> exact ⟨rfl, rfl⟩

/-- A request for the orderer's batch log is a run of the log on the request's event, and the
orderer forwards the txns of the batches the run lets out. -/
theorem onInternalRequestReceived_of_event {request : Request} {event : BatchLog.Event}
    (carries : request.event = some event) :
    orderer.onInternalRequestReceived request = (orderer.multiHomeBatchLog.run [event]).map fun result =>
      ({ orderer with multiHomeBatchLog := result.2 },
        result.1.flatMap fun entry => entry.2.transactions.map Message.forwardTxn) := by
  cases request with
  | forwardTxn txn => simp [Request.event] at carries
  | forwardBatchData batch =>
      simp only [Request.event, Option.some.injEq] at carries
      subst carries
      simp only [onInternalRequestReceived, processForwardBatchData, advanceLog, BatchLog.run, BatchLog.apply]
      cases drained : BatchLog.drain (orderer.multiHomeBatchLog.addBatch batch).readyBatches.length
        (orderer.multiHomeBatchLog.addBatch batch) <;> simp [drained, bind, Except.bind, Except.map, pure, Except.pure]
  | forwardBatchOrder slot batchId =>
      simp only [Request.event, Option.some.injEq] at carries
      subst carries
      simp only [onInternalRequestReceived, processForwardBatchOrder, advanceLog, BatchLog.run, BatchLog.apply]
      cases added : orderer.multiHomeBatchLog.addSlot slot batchId 0 with
      | error message => simp [bind, Except.bind, Except.map]
      | ok log =>
          cases drained : BatchLog.drain log.readyBatches.length log <;>
            simp [drained, bind, Except.bind, Except.map, pure, Except.pure]

/-- A request leaves the counter of batch ids as it is. -/
theorem onInternalRequestReceived_batchIdCounter {request : Request} {orderer' : MultiHomeOrderer}
    {messages : List Message} (handled : orderer.onInternalRequestReceived request = .ok (orderer', messages)) :
    orderer'.batchIdCounter = orderer.batchIdCounter := by
  cases carries : request.event with
  | none =>
      cases request with
      | forwardTxn txn =>
          simp only [onInternalRequestReceived] at handled
          cases added : orderer.addToBatch txn with
          | error message => simp [added, bind, Except.bind] at handled
          | ok grown =>
              simp only [added, bind, Except.bind, pure, Except.pure, Except.ok.injEq, Prod.mk.injEq] at handled
              rw [← handled.1]
              exact (addToBatch_frame added).1
      | forwardBatchData batch => simp [Request.event] at carries
      | forwardBatchOrder slot batchId => simp [Request.event] at carries
  | some event =>
      rw [onInternalRequestReceived_of_event carries] at handled
      obtain ⟨result, -, same⟩ := Folds.exists_of_map_eq_ok handled
      rw [← (Prod.mk.inj same).1]

end MultiHomeOrderer

end Slog
