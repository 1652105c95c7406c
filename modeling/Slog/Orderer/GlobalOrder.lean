/-
The global order of multi-home txns (`module/multi_home_orderer.cpp`, `module/consensus.cpp`): the
orderers, the global Paxos slot assignment and `OnCommit`, with deliveries in any order.
-/

import Mathlib.Data.List.Perm.Basic
import Mathlib.Data.List.Infix
import Slog.Orderer.MultiHomeOrderer
import Slog.Library.Folds

namespace Slog

open MultiHomeOrderer

/-- The orderer that gets the batches of a region and their slots: partition
`leader_partition_for_multi_home_ordering` of replica 0 of the region. -/
def regionOrderer (region : Nat) : Nat := makeMachineId region 0 leaderPartitionForMultiHomeOrdering

/-- What the forwarder sends the orderer (`Forward`, after `PopulateInvolvedRegions`): a txn whose
involved regions are distinct regions of the configuration, at least one. -/
structure MultiHome (numRegions : Nat) (txn : Transaction) : Prop where
  nonempty : txn.internal.involvedRegions ≠ []
  distinct : txn.internal.involvedRegions.Nodup
  within : ∀ region ∈ txn.internal.involvedRegions, region < numRegions

/-- The proposal a message makes to the global Paxos. -/
def MultiHomeOrderer.Message.proposal : Message → Option Nat
  | .paxosPropose value => some value
  | _ => none

/-- The request a message puts in flight, with the machine it goes to. -/
def MultiHomeOrderer.Message.request : Message → Option (Nat × Request)
  | .forwardBatchData machine batch => some (machine, .forwardBatchData batch)
  | _ => none

/-- The txn a message forwards to the sequencer. -/
def MultiHomeOrderer.Message.txn : Message → Option Transaction
  | .forwardTxn txn => some txn
  | _ => none

namespace MultiHomeOrdering

/-- The orderers of the machines, the requests in flight to them with the machine each goes to,
the batch ids proposed to the global Paxos and not yet given a slot, the batch ids it gave slots,
in slot order, and the txns each machine's orderer forwarded to its sequencer, in order. -/
structure Network where
  orderers : Nat → MultiHomeOrderer
  inFlight : List (Nat × Request)
  proposals : List Nat
  slots : List Nat
  forwarded : Nat → List Transaction

inductive Action where
  /-- The forwarder of a machine sends its orderer a multi-home txn. -/
  | forwardTxn (machine : Nat) (txn : Transaction)
  /-- The timer of a machine's orderer goes off. -/
  | timer (machine : Nat)
  /-- The global Paxos gives the next slot to the proposal at this index of those pending. -/
  | order (index : Nat)
  /-- The request at this index of those in flight arrives. -/
  | deliver (index : Nat)
  deriving DecidableEq, Repr

variable (numRegions : Nat)

/-- The configuration of a machine's orderer. -/
def configOf (machine : Nat) : OrdererConfig := ⟨numRegions, machine⟩

def init : Network := ⟨fun machine => MultiHomeOrderer.new (configOf numRegions machine), [], [], [], fun _ => []⟩

/-- `GlobalPaxos::OnCommit` at the leader: the slot and its batch id go to the orderer of every
region. -/
def onCommit (slot value : Nat) : List (Nat × Request) :=
  (List.range numRegions).map fun region => (regionOrderer region, .forwardBatchOrder slot value)

namespace Network

/-- A machine's orderer takes its new state and its messages go out: proposals to the global
Paxos, batches to the orderers they are for, txns to the machine's sequencer. -/
def route (network : Network) (machine : Nat) (orderer : MultiHomeOrderer) (messages : List Message) : Network where
  orderers := Function.update network.orderers machine orderer
  inFlight := network.inFlight ++ messages.filterMap Message.request
  proposals := network.proposals ++ messages.filterMap Message.proposal
  slots := network.slots
  forwarded := Function.update network.forwarded machine (network.forwarded machine ++ messages.filterMap Message.txn)

/-- A machine's orderer handles a request; one it fails on ends the run. -/
def handle (network : Network) (machine : Nat) (request : Request) : Option Network :=
  match (network.orderers machine).onInternalRequestReceived request with
  | .ok result => some (network.route machine result.1 result.2)
  | .error _ => none

def step (network : Network) : Action → Option Network
  | .forwardTxn machine txn => network.handle machine (.forwardTxn txn)
  | .timer machine =>
      let fired := (network.orderers machine).onTimer (configOf numRegions machine)
      some (network.route machine fired.1 fired.2)
  | .order index =>
      match network.proposals[index]? with
      | none => none
      | some value => some { network with
          proposals := network.proposals.eraseIdx index
          slots := network.slots ++ [value]
          inFlight := network.inFlight ++ onCommit numRegions network.slots.length value }
  | .deliver index =>
      match network.inFlight[index]? with
      | none => none
      | some entry => { network with inFlight := network.inFlight.eraseIdx index }.handle entry.1 entry.2

def run (network : Network) (actions : List Action) : Option Network :=
  actions.foldlM (step numRegions) network

end Network

/-- The batch log events among requests in flight that go to the orderer of a region. -/
def eventsFor (region : Nat) (entries : List (Nat × Request)) : List BatchLog.Event :=
  entries.filterMap fun entry => if entry.1 = regionOrderer region then entry.2.event else none

/-- The parts for a region of the sent batches, as the events they bring its log. -/
def partsFor (sent : List (Nat × List Transaction)) (region : Nat) : List BatchLog.Event :=
  sent.map fun batch => .addBatch ⟨batch.1, batch.2.filter fun txn => region ∈ txn.internal.involvedRegions⟩

/-- The slots of the global order, as the events they bring the log of every region. -/
def ordersOf (slots : List Nat) : List BatchLog.Event :=
  slots.zipIdx.map fun entry => .addSlot entry.2 entry.1 0

/-- The txns of the sent batch of an id. -/
def contentsOf (sent : List (Nat × List Transaction)) (id : Nat) : List Transaction :=
  ((sent.find? fun batch => batch.1 = id).map Prod.snd).getD []

/-- How a network of orderers stands, given the batches sent so far with all the txns of each,
and the events each region's orderer has received. Each sent batch has its own id, made of an
earlier counter of a machine; each orderer is building a batch; the sent ids are pending at the
global Paxos or have slots; the requests in flight go to the orderers of regions; the log of each
region's orderer is the run of the events it received, and it forwarded the txns the run let
out; and what it received and what is in flight to it are, in some order, the parts of the sent
batches for it and the slots. -/
structure Ordered (network : Network) (sent : List (Nat × List Transaction))
    (received : Nat → List BatchLog.Event) : Prop where
  distinct : (sent.map Prod.fst).Nodup
  numbered : ∀ batch ∈ sent, ∃ machine counter, machine < 2 ^ kMachineIdBits ∧
    counter < (network.orderers machine).batchIdCounter ∧ batch.1 = counter * 2 ^ kMachineIdBits + machine
  building : ∀ machine, ∃ txns, (network.orderers machine).Building (configOf numRegions machine) txns
  timed : ∀ machine, (network.orderers machine).timerSet = true → machine < 2 ^ kMachineIdBits
  proposed : (network.proposals ++ network.slots).Perm (sent.map Prod.fst)
  addressed : ∀ entry ∈ network.inFlight, (∃ region < numRegions, entry.1 = regionOrderer region) ∧
    entry.2.event.isSome
  logged : ∀ region < numRegions, ∃ emitted,
    BatchLog.init.run (received region) = .ok (emitted, (network.orderers (regionOrderer region)).multiHomeBatchLog) ∧
      network.forwarded (regionOrderer region) = emitted.flatMap fun entry => entry.2.transactions
  scheduled : ∀ region < numRegions,
    (received region ++ eventsFor region network.inFlight).Perm (partsFor sent region ++ ordersOf network.slots)

/-- Some batches and receipts account for the network. -/
def Consistent (network : Network) : Prop :=
  ∃ sent received, Ordered numRegions network sent received

variable {numRegions}

section Regions

variable {region region' : Nat}

theorem regionOrderer_eq (fits : region < 2 ^ 8) : regionOrderer region = region * 2 ^ 24 := by
  have small : region < 256 := fits
  simp [regionOrderer, makeMachineId, leaderPartitionForMultiHomeOrdering, Nat.shiftLeft_eq, Nat.mod_eq_of_lt small]

/-- Regions below `2 ^ 8` have distinct orderers. -/
theorem regionOrderer_inj (fits : region < 2 ^ 8) (fits' : region' < 2 ^ 8)
    (same : regionOrderer region = regionOrderer region') : region = region' := by
  rw [regionOrderer_eq fits, regionOrderer_eq fits'] at same
  omega

/-- Of a list over the regions, only the entry of the region itself is kept. -/
theorem filterMap_range_ite {β : Type} (f : Nat → Option β) {n : Nat} (within : region < n) :
    (List.range n).filterMap (fun other => if other = region then f other else none) = (f region).toList := by
  induction n with
  | zero => omega
  | succ n ih =>
      rw [List.range_succ, List.filterMap_append]
      by_cases last : region = n
      · subst last
        have before : (List.range region).filterMap (fun other => if other = region then f other else none) = [] := by
          rw [List.filterMap_eq_nil_iff]
          intro other member
          simp [Nat.ne_of_lt (List.mem_range.mp member)]
        simp only [before, List.nil_append, List.filterMap_cons, List.filterMap_nil, if_true]
        cases f region <;> rfl
      · rw [ih (by omega)]
        simp [Ne.symm last]

/-- A region's orderer gets the one request its region is sent out of a list over the regions. -/
theorem eventsFor_range (fits : numRegions ≤ 2 ^ 8) (within : region < numRegions) (request : Nat → Request) :
    eventsFor region ((List.range numRegions).map fun other => (regionOrderer other, request other)) =
      (request region).event.toList := by
  rw [eventsFor, List.filterMap_map, ← filterMap_range_ite (fun other => (request other).event) within]
  apply List.filterMap_congr
  intro other member
  have below := List.mem_range.mp member
  by_cases same : other = region
  · simp [same]
  · simp only [Function.comp_apply, same, if_false]
    rw [if_neg fun equal => same (regionOrderer_inj (by omega) (by omega) equal)]

end Regions

@[simp] theorem eventsFor_append (region : Nat) (entries more : List (Nat × Request)) :
    eventsFor region (entries ++ more) = eventsFor region entries ++ eventsFor region more :=
  List.filterMap_append

theorem partsFor_append (sent : List (Nat × List Transaction)) (batch : Nat × List Transaction) (region : Nat) :
    partsFor (sent ++ [batch]) region = partsFor sent region ++
      [.addBatch ⟨batch.1, batch.2.filter fun txn => region ∈ txn.internal.involvedRegions⟩] :=
  List.map_append

theorem ordersOf_append (slots : List Nat) (value : Nat) :
    ordersOf (slots ++ [value]) = ordersOf slots ++ [.addSlot slots.length value 0] := by
  simp [ordersOf, List.zipIdx_append]

theorem mem_ordersOf {slots : List Nat} {slot batchId : Nat} {factor : Int} :
    BatchLog.Event.addSlot slot batchId factor ∈ ordersOf slots ↔ slots[slot]? = some batchId ∧ factor = 0 := by
  simp only [ordersOf, List.mem_map, BatchLog.Event.addSlot.injEq]
  constructor
  · rintro ⟨entry, member, rfl, rfl, rfl⟩
    exact ⟨List.mem_zipIdx_iff_getElem?.mp member, rfl⟩
  · rintro ⟨atSlot, rfl⟩
    exact ⟨(batchId, slot), List.mem_zipIdx_iff_getElem?.mpr atSlot, rfl, rfl, rfl⟩

theorem addBatch_not_mem_ordersOf {slots : List Nat} {batch : Batch} : BatchLog.Event.addBatch batch ∉ ordersOf slots := by
  simp [ordersOf]

theorem mem_partsFor {sent : List (Nat × List Transaction)} {region : Nat} {batch : Batch} :
    BatchLog.Event.addBatch batch ∈ partsFor sent region ↔
      ∃ entry ∈ sent, batch = ⟨entry.1, entry.2.filter fun txn => region ∈ txn.internal.involvedRegions⟩ := by
  simp only [partsFor, List.mem_map, BatchLog.Event.addBatch.injEq]
  constructor
  · rintro ⟨entry, member, rfl⟩
    exact ⟨entry, member, rfl⟩
  · rintro ⟨entry, member, rfl⟩
    exact ⟨entry, member, rfl⟩

theorem addSlot_not_mem_partsFor {sent : List (Nat × List Transaction)} {region slot batchId : Nat} {factor : Int} :
    BatchLog.Event.addSlot slot batchId factor ∉ partsFor sent region := by
  simp [partsFor]

/-- Under distinct ids, a sent batch's txns are those of its id. -/
theorem contentsOf_of_mem {sent : List (Nat × List Transaction)} (distinct : (sent.map Prod.fst).Nodup)
    {batch : Nat × List Transaction} (member : batch ∈ sent) : contentsOf sent batch.1 = batch.2 := by
  obtain ⟨found, located⟩ : ∃ found, sent.find? (fun other => other.1 = batch.1) = some found :=
    Option.isSome_iff_exists.mp (List.find?_isSome.mpr ⟨batch, member, by simp⟩)
  have same : found.1 = batch.1 := by simpa using List.find?_some located
  have equal : found = batch := List.inj_on_of_nodup_map distinct (List.mem_of_find?_eq_some located) member same
  simp [contentsOf, located, equal]

section Schedule

variable {network : Network} {sent : List (Nat × List Transaction)} {received : Nat → List BatchLog.Event}

/-- The parts of the sent batches for a region and the slots make a schedule of its batch log:
each slot once, each batch once, and each slotted batch sent. -/
theorem Ordered.schedule (ordered : Ordered numRegions network sent received) (region : Nat) :
    BatchLog.Schedule (partsFor sent region ++ ordersOf network.slots) network.slots.length where
  slots := by
    have noSlots : (partsFor sent region).filterMap BatchLog.Event.slotOf = [] := by
      simp [partsFor, List.filterMap_map, BatchLog.Event.slotOf]
    have slotted : (ordersOf network.slots).filterMap BatchLog.Event.slotOf = List.range network.slots.length := by
      rw [ordersOf, List.filterMap_map]
      show network.slots.zipIdx.filterMap (fun entry => some entry.2) = _
      rw [List.filterMap_eq_map', List.zipIdx_map_snd, List.range_eq_range']
    rw [List.filterMap_append, noSlots, slotted, List.nil_append]
  slotted := by
    have noSlots : (partsFor sent region).filterMap BatchLog.Event.slottedOf = [] := by
      simp [partsFor, List.filterMap_map, BatchLog.Event.slottedOf]
    have slotted : (ordersOf network.slots).filterMap BatchLog.Event.slottedOf = network.slots := by
      rw [ordersOf, List.filterMap_map]
      show network.slots.zipIdx.filterMap (fun entry => some entry.1) = _
      rw [List.filterMap_eq_map', List.zipIdx_map_fst]
    rw [List.filterMap_append, noSlots, slotted, List.nil_append]
    exact (ordered.proposed.nodup_iff.mpr ordered.distinct).of_append_right
  batches := by
    have added : (partsFor sent region).filterMap BatchLog.Event.addedOf = sent.map Prod.fst := by
      rw [partsFor, List.filterMap_map]
      show sent.filterMap (fun batch => some batch.1) = _
      rw [List.filterMap_eq_map']
    have noBatches : (ordersOf network.slots).filterMap BatchLog.Event.addedOf = [] := by
      simp [ordersOf, List.filterMap_map, BatchLog.Event.addedOf]
    rw [List.filterMap_append, added, noBatches, List.append_nil]
    exact ordered.distinct
  added := by
    intro slot batchId factor member
    rcases List.mem_append.mp member with part | order
    · exact absurd part addSlot_not_mem_partsFor
    · -- a slotted id was sent, with a part for every region
      have slotted : batchId ∈ network.slots := List.mem_of_getElem? (mem_ordersOf.mp order).1
      obtain ⟨batch, sentBatch, rfl⟩ := List.mem_map.mp
        (ordered.proposed.subset (List.mem_append_right _ slotted))
      exact ⟨_, List.mem_append_left _ (mem_partsFor.mpr ⟨batch, sentBatch, rfl⟩), rfl⟩
  acked := by
    intro slot batchId factor member
    have noAcks : BatchLog.Event.ackReplication batchId ∉ partsFor sent region ++ ordersOf network.slots := by
      simp [partsFor, ordersOf]
    rcases List.mem_append.mp member with part | order
    · exact absurd part addSlot_not_mem_partsFor
    · rw [(mem_ordersOf.mp order).2, List.count_eq_zero.mpr noAcks]
      rfl

/-- Events that, with some more, are the schedule of a region up to order are a prefix of a
schedule, so the region's log admits them. -/
theorem Ordered.admitted (ordered : Ordered numRegions network sent received) {region : Nat}
    {done more : List BatchLog.Event}
    (arriving : (done ++ more).Perm (partsFor sent region ++ ordersOf network.slots)) :
    BatchLog.Tally.empty.AdmitsAll done :=
  BatchLog.Tally.AdmitsAll.left ((ordered.schedule region).perm arriving).admitted

/-- Each region's orderer has forwarded the txns that involve the region of the batches of the
first slots of the global order, in slot order. -/
theorem Ordered.forwarded_eq (ordered : Ordered numRegions network sent received) {region : Nat}
    (within : region < numRegions) :
    ∃ count ≤ network.slots.length, network.forwarded (regionOrderer region) =
      (network.slots.take count).flatMap fun id =>
        (contentsOf sent id).filter fun txn => region ∈ txn.internal.involvedRegions := by
  obtain ⟨emitted, ran, forwarded⟩ := ordered.logged region within
  obtain ⟨emitted', log', ran', -, -, positions, entries⟩ :=
    BatchLog.run_spec (received region) BatchLog.Tally.wellFormed_empty BatchLog.refines_init rfl
      (fun ⟨_, assigned, _⟩ => by simp [BatchLog.Tally.empty] at assigned)
      (ordered.admitted (ordered.scheduled region within))
  rw [ran] at ran'
  obtain ⟨rfl, -⟩ := Prod.mk.inj (Except.ok.inj ran')
  have positions' : emitted.map Prod.fst = List.range emitted.length := by
    have lengths := congrArg List.length positions
    simp only [List.length_map, List.length_range'] at lengths
    rw [positions, ← lengths, List.range_eq_range']
    rfl
  have entryAt : ∀ i (below : i < emitted.length), network.slots[i]? = some emitted[i].2.id ∧
      emitted[i].2.transactions = (contentsOf sent emitted[i].2.id).filter fun txn =>
        region ∈ txn.internal.involvedRegions := by
    intro i below
    have position : emitted[i].1 = i := by
      have atPosition := List.getElem_of_eq positions' (by simpa using below)
      rwa [List.getElem_map, List.getElem_range] at atPosition
    obtain ⟨assigned, stored⟩ := entries emitted[i] (List.getElem_mem below)
    obtain ⟨factor, slotted⟩ := (BatchLog.Tally.slots_foldl (received region) assigned).resolve_left
      (by simp [BatchLog.Tally.empty])
    obtain ⟨added, -⟩ := (BatchLog.Tally.batches_foldl (received region) stored).resolve_left
      (by simp [BatchLog.Tally.empty])
    have scheduled := (ordered.scheduled region within).subset
    rcases List.mem_append.mp (scheduled (List.mem_append_left _ slotted)) with part | order
    · exact absurd part addSlot_not_mem_partsFor
    rcases List.mem_append.mp (scheduled (List.mem_append_left _ added)) with part' | order'
    · obtain ⟨batch, member, same⟩ := mem_partsFor.mp part'
      have atSlot := (mem_ordersOf.mp order).1
      rw [position] at atSlot
      refine ⟨atSlot, ?_⟩
      rw [same, contentsOf_of_mem ordered.distinct member]
    · exact absurd order' addBatch_not_mem_ordersOf
  have bounded : emitted.length ≤ network.slots.length := by
    rcases Nat.eq_zero_or_pos emitted.length with empty | nonempty
    · omega
    · have := (List.getElem?_eq_some_iff.mp (entryAt (emitted.length - 1) (by omega)).1).1
      omega
  refine ⟨emitted.length, bounded, ?_⟩
  rw [forwarded, List.flatMap_def, List.flatMap_def]
  congr 1
  apply List.ext_getElem (by simp [bounded])
  intro i below below'
  simp only [List.length_map] at below
  obtain ⟨slotted, parted⟩ := entryAt i below
  rw [List.getElem_map, List.getElem_map, parted, List.getElem_take]
  rw [List.getElem?_eq_some_iff] at slotted
  rw [slotted.2]

end Schedule

namespace Network

variable {network : Network} {machine : Nat} {orderer : MultiHomeOrderer} {messages : List Message}

@[simp] theorem route_orderers :
    (network.route machine orderer messages).orderers = Function.update network.orderers machine orderer := rfl

@[simp] theorem route_inFlight :
    (network.route machine orderer messages).inFlight = network.inFlight ++ messages.filterMap Message.request := rfl

@[simp] theorem route_proposals :
    (network.route machine orderer messages).proposals = network.proposals ++ messages.filterMap Message.proposal := rfl

@[simp] theorem route_slots : (network.route machine orderer messages).slots = network.slots := rfl

@[simp] theorem route_forwarded : (network.route machine orderer messages).forwarded =
    Function.update network.forwarded machine (network.forwarded machine ++ messages.filterMap Message.txn) := rfl

/-- An orderer that sends nothing only takes its new state. -/
theorem route_nil : network.route machine orderer [] =
    { network with orderers := Function.update network.orderers machine orderer } := by
  simp [route, Function.update_eq_self]

theorem handle_eq_some {request : Request} {network' : Network} :
    network.handle machine request = some network' ↔ ∃ orderer messages,
      (network.orderers machine).onInternalRequestReceived request = .ok (orderer, messages) ∧
        network' = network.route machine orderer messages := by
  unfold handle
  cases (network.orderers machine).onInternalRequestReceived request with
  | error message => simp
  | ok result =>
      simp only [Option.some.injEq, Except.ok.injEq]
      constructor
      · intro handled
        exact ⟨result.1, result.2, rfl, handled.symm⟩
      · rintro ⟨orderer, messages, rfl, rfl⟩
        rfl

/-- Handling a request keeps every machine's counter of batch ids. -/
theorem handle_batchIdCounter {request : Request} {network' : Network}
    (handled : network.handle machine request = some network') (other : Nat) :
    (network'.orderers other).batchIdCounter = (network.orderers other).batchIdCounter := by
  obtain ⟨orderer, messages, handled', rfl⟩ := handle_eq_some.mp handled
  by_cases same : other = machine
  · subst same
    simp [onInternalRequestReceived_batchIdCounter handled']
  · simp [Function.update_of_ne same]

end Network

section Messages

variable (emitted : List (Nat × Batch))

/-- What `AdvanceLog` sends only forwards txns. -/
theorem request_unbatched :
    (emitted.flatMap fun entry => entry.2.transactions.map Message.forwardTxn).filterMap Message.request = [] := by
  simp [List.filterMap_flatMap, List.filterMap_map, Message.request]

theorem proposal_unbatched :
    (emitted.flatMap fun entry => entry.2.transactions.map Message.forwardTxn).filterMap Message.proposal = [] := by
  simp [List.filterMap_flatMap, List.filterMap_map, Message.proposal]

theorem txn_unbatched :
    (emitted.flatMap fun entry => entry.2.transactions.map Message.forwardTxn).filterMap Message.txn =
      emitted.flatMap fun entry => entry.2.transactions := by
  simp only [List.filterMap_flatMap, List.filterMap_map]
  congr 1
  funext entry
  exact List.filterMap_some

end Messages

section Steps

variable {network network' : Network} {sent : List (Nat × List Transaction)} {received : Nat → List BatchLog.Event}
  {machine : Nat} {orderer : MultiHomeOrderer}

/-- Replacing one orderer by one with the same counter keeps every sent id numbered. -/
theorem numbered_update (numbered : ∀ batch ∈ sent, ∃ machine counter, machine < 2 ^ kMachineIdBits ∧
      counter < (network.orderers machine).batchIdCounter ∧ batch.1 = counter * 2 ^ kMachineIdBits + machine)
    (counter : (network.orderers machine).batchIdCounter ≤ orderer.batchIdCounter) :
    ∀ batch ∈ sent, ∃ other count, other < 2 ^ kMachineIdBits ∧
      count < (Function.update network.orderers machine orderer other).batchIdCounter ∧
        batch.1 = count * 2 ^ kMachineIdBits + other := by
  intro batch member
  obtain ⟨other, count, fits, below, id⟩ := numbered batch member
  refine ⟨other, count, fits, ?_, id⟩
  by_cases same : other = machine
  · subst same
    rw [Function.update_self]
    omega
  · rwa [Function.update_of_ne same]

theorem building_update (building : ∀ machine, ∃ txns, (network.orderers machine).Building (configOf numRegions machine) txns)
    (builds : ∃ txns, orderer.Building (configOf numRegions machine) txns) (other : Nat) :
    ∃ txns, (Function.update network.orderers machine orderer other).Building (configOf numRegions other) txns := by
  by_cases same : other = machine
  · subst same
    rwa [Function.update_self]
  · rw [Function.update_of_ne same]
    exact building other

theorem timed_update (timed : ∀ machine, (network.orderers machine).timerSet = true → machine < 2 ^ kMachineIdBits)
    (fits : orderer.timerSet = true → machine < 2 ^ kMachineIdBits) (other : Nat)
    (set : (Function.update network.orderers machine orderer other).timerSet = true) : other < 2 ^ kMachineIdBits := by
  by_cases same : other = machine
  · subst same
    rw [Function.update_self] at set
    exact fits set
  · rw [Function.update_of_ne same] at set
    exact timed other set

/-- Replacing one orderer by one with the same batch log keeps every orderer's log. -/
theorem multiHomeBatchLog_update (log : orderer.multiHomeBatchLog = (network.orderers machine).multiHomeBatchLog)
    (other : Nat) :
    (Function.update network.orderers machine orderer other).multiHomeBatchLog =
      (network.orderers other).multiHomeBatchLog := by
  by_cases same : other = machine
  · subst same
    rw [Function.update_self, log]
  · rw [Function.update_of_ne same]

/-- The forwarder's txn goes into the batch being built and nothing else changes. -/
theorem Ordered.forwardTxn (ordered : Ordered numRegions network sent received) {txn : Transaction}
    (machineFits : machine < 2 ^ kMachineIdBits) (formed : MultiHome numRegions txn)
    (stepped : network.step numRegions (.forwardTxn machine txn) = some network') :
    Ordered numRegions network' sent received := by
  obtain ⟨txns, building⟩ := ordered.building machine
  obtain ⟨grown, added, building', counter, log⟩ :=
    building.addToBatch formed.nonempty formed.distinct formed.within
  have handled : (network.orderers machine).onInternalRequestReceived (.forwardTxn txn) = .ok (grown, []) := by
    simp [onInternalRequestReceived, added, bind, Except.bind, pure, Except.pure]
  obtain ⟨orderer, messages, handled', rfl⟩ := Network.handle_eq_some.mp stepped
  rw [handled] at handled'
  obtain ⟨rfl, rfl⟩ := Prod.mk.inj (Except.ok.inj handled').symm
  rw [Network.route_nil]
  exact {
    distinct := ordered.distinct
    numbered := numbered_update ordered.numbered counter.ge
    building := building_update ordered.building ⟨_, building'⟩
    timed := timed_update ordered.timed fun _ => machineFits
    proposed := ordered.proposed
    addressed := ordered.addressed
    logged := by
      intro region within
      obtain ⟨emitted, ran, forwarded⟩ := ordered.logged region within
      refine ⟨emitted, ?_, forwarded⟩
      rwa [multiHomeBatchLog_update log]
    scheduled := ordered.scheduled }

/-- One more event at the end of what is in flight, kept in place of the schedule's. -/
theorem perm_append_event {α : Type} {received pending parts orders : List α} {event : α}
    (old : (received ++ pending).Perm (parts ++ orders)) :
    (received ++ (pending ++ [event])).Perm (parts ++ [event] ++ orders) := by
  rw [← List.append_assoc]
  refine (old.append_right [event]).trans ?_
  rw [List.append_assoc, List.append_assoc]
  exact List.Perm.append_left parts List.perm_append_comm

@[simp] theorem configOf_numRegions : (configOf numRegions machine).numRegions = numRegions := rfl

/-- `SendBatch` under a batch being built: the id goes to the global Paxos and each region's part
goes in flight to the region's orderer. -/
theorem route_sendBatch {txns : List Transaction} (building : orderer.Building (configOf numRegions machine) txns)
    (orderer' : MultiHomeOrderer) :
    network.route machine orderer' (sendBatch (configOf numRegions machine) orderer) =
      { network with
        orderers := Function.update network.orderers machine orderer'
        inFlight := network.inFlight ++ (List.range numRegions).map fun region =>
          (regionOrderer region, .forwardBatchData ⟨orderer.batchId (configOf numRegions machine),
            txns.filter fun txn => region ∈ txn.internal.involvedRegions⟩)
        proposals := network.proposals ++ [orderer.batchId (configOf numRegions machine)] } := by
  rw [building.sendBatch]
  simp [Network.route, List.filterMap_cons, List.filterMap_map, Message.request, Message.proposal, Message.txn,
    regionOrderer, Function.comp_def, List.filterMap_eq_map']

/-- When its timer goes off, an orderer sends the batch being built: the id is new, is proposed
once, and the part for each region goes in flight to the region's orderer. -/
theorem Ordered.timer (ordered : Ordered numRegions network sent received) (fits : numRegions ≤ 2 ^ 8)
    (stepped : network.step numRegions (.timer machine) = some network')
    (bounded : (network'.orderers machine).batchIdCounter < 2 ^ 32) :
    ∃ sent', Ordered numRegions network' sent' received := by
  simp only [Network.step, Option.some.injEq] at stepped
  subst stepped
  by_cases set : (network.orderers machine).timerSet = true
  · obtain ⟨txns, building⟩ := ordered.building machine
    have machineFits := ordered.timed machine set
    have fired : (network.orderers machine).onTimer (configOf numRegions machine) =
        (newBatch (configOf numRegions machine) { network.orderers machine with timerSet := false },
          sendBatch (configOf numRegions machine) (network.orderers machine)) := by
      simp [onTimer, set]
    simp only [fired, Network.route_orderers, Function.update_self, newBatch_batchIdCounter] at bounded
    rw [fired, route_sendBatch building]
    have id : (network.orderers machine).batchId (configOf numRegions machine) =
        (network.orderers machine).batchIdCounter * 2 ^ kMachineIdBits + machine :=
      batchId_eq machineFits (by omega)
    have fresh : (network.orderers machine).batchId (configOf numRegions machine) ∉ sent.map Prod.fst := by
      intro member
      obtain ⟨batch, sentBatch, same⟩ := List.mem_map.mp member
      obtain ⟨other, count, otherFits, below, numberedAs⟩ := ordered.numbered batch sentBatch
      rw [numberedAs, id] at same
      obtain ⟨rfl, rfl⟩ := counter_eq_of_batchId_eq otherFits machineFits same
      omega
    refine ⟨sent ++ [((network.orderers machine).batchId (configOf numRegions machine), txns)], ?_⟩
    exact {
      distinct := by
        rw [List.map_append]
        exact ordered.distinct.append (List.nodup_singleton _) (by simpa using fresh)
      numbered := by
        intro batch member
        rcases List.mem_append.mp member with old | new
        · exact numbered_update ordered.numbered (by simp) batch old
        · rw [List.mem_singleton] at new
          subst new
          exact ⟨machine, (network.orderers machine).batchIdCounter, machineFits, by simp, id⟩
      building := building_update ordered.building
        ⟨[], (show ({ network.orderers machine with timerSet := false } : MultiHomeOrderer).Building
          (configOf numRegions machine) txns from building).newBatch⟩
      timed := timed_update ordered.timed fun set' => by simp at set'
      proposed := by
        dsimp only
        rw [List.map_append, List.append_assoc]
        refine (List.Perm.append_left _ List.perm_append_comm).trans ?_
        rw [← List.append_assoc]
        exact ordered.proposed.append_right _
      addressed := by
        intro entry member
        rcases List.mem_append.mp member with old | new
        · exact ordered.addressed entry old
        · obtain ⟨region, below, rfl⟩ := List.mem_map.mp new
          exact ⟨⟨region, List.mem_range.mp below, rfl⟩, rfl⟩
      logged := by
        intro region within
        obtain ⟨emitted, ran, forwarded⟩ := ordered.logged region within
        refine ⟨emitted, ?_, forwarded⟩
        have log : (newBatch (configOf numRegions machine) { network.orderers machine with timerSet := false }).multiHomeBatchLog =
            (network.orderers machine).multiHomeBatchLog := rfl
        dsimp only
        rwa [multiHomeBatchLog_update log]
      scheduled := by
        intro region within
        have sentHere := eventsFor_range fits within fun region =>
          Request.forwardBatchData ⟨(network.orderers machine).batchId (configOf numRegions machine),
            txns.filter fun txn => region ∈ txn.internal.involvedRegions⟩
        dsimp only
        rw [eventsFor_append, sentHere, partsFor_append]
        exact perm_append_event (ordered.scheduled region within) }
  · have fired : (network.orderers machine).onTimer (configOf numRegions machine) = (network.orderers machine, []) := by
      simp [onTimer, set]
    rw [fired, Network.route_nil, Function.update_eq_self]
    exact ⟨sent, ordered⟩

/-- The global Paxos gives a pending proposal the next slot, and its leader sends the slot to the
orderer of every region. -/
theorem Ordered.order (ordered : Ordered numRegions network sent received) (fits : numRegions ≤ 2 ^ 8) {index : Nat}
    (stepped : network.step numRegions (.order index) = some network') : Ordered numRegions network' sent received := by
  cases proposal : network.proposals[index]? with
  | none => simp [Network.step, proposal] at stepped
  | some value =>
      simp only [Network.step, proposal, Option.some.injEq] at stepped
      subst stepped
      obtain ⟨within, picked⟩ := List.getElem?_eq_some_iff.mp proposal
      exact {
        distinct := ordered.distinct
        numbered := ordered.numbered
        building := ordered.building
        timed := ordered.timed
        proposed := by
          have taken := List.getElem_cons_eraseIdx_perm within
          rw [picked] at taken
          refine List.Perm.trans ?_ ordered.proposed
          dsimp only
          rw [← List.append_assoc]
          exact (List.perm_append_singleton _ _).trans (taken.append_right network.slots)
        addressed := by
          intro entry member
          rcases List.mem_append.mp member with old | new
          · exact ordered.addressed entry old
          · obtain ⟨region, below, rfl⟩ := List.mem_map.mp new
            exact ⟨⟨region, List.mem_range.mp below, rfl⟩, rfl⟩
        logged := ordered.logged
        scheduled := by
          intro region within
          have sentHere := eventsFor_range fits within fun _ =>
            Request.forwardBatchOrder network.slots.length value
          dsimp only
          rw [eventsFor_append, onCommit, sentHere, ordersOf_append, ← List.append_assoc, ← List.append_assoc]
          exact (ordered.scheduled region within).append_right _ }

/-- A request in flight that arrives leaves what is in flight to the others as it was. -/
theorem eventsFor_eraseIdx {entries : List (Nat × Request)} {index : Nat} {entry : Nat × Request}
    (arrived : entries[index]? = some entry) (region : Nat) :
    (eventsFor region entries).Perm
      ((if entry.1 = regionOrderer region then entry.2.event.toList else []) ++ eventsFor region (entries.eraseIdx index)) := by
  obtain ⟨within, rfl⟩ := List.getElem?_eq_some_iff.mp arrived
  refine (((List.getElem_cons_eraseIdx_perm within).filterMap _).symm).trans ?_
  rw [List.filterMap_cons]
  by_cases toRegion : entries[index].1 = regionOrderer region
  · simp only [toRegion, if_true]
    cases entries[index].2.event <;> simp [eventsFor]
  · simp [toRegion, eventsFor]

/-- A request in flight reaches its region's orderer, whose log runs its event and lets out what
became ready; the orderer forwards the txns of that. -/
theorem Ordered.deliver (ordered : Ordered numRegions network sent received) (fits : numRegions ≤ 2 ^ 8) {index : Nat}
    (stepped : network.step numRegions (.deliver index) = some network') :
    ∃ received', Ordered numRegions network' sent received' := by
  cases arrived : network.inFlight[index]? with
  | none => simp [Network.step, arrived] at stepped
  | some entry =>
      simp only [Network.step, arrived] at stepped
      obtain ⟨⟨region, within, addressedTo⟩, carries⟩ := ordered.addressed entry (List.mem_of_getElem? arrived)
      obtain ⟨event, carried⟩ := Option.isSome_iff_exists.mp carries
      obtain ⟨orderer, messages, handled, rfl⟩ := Network.handle_eq_some.mp stepped
      rw [onInternalRequestReceived_of_event carried] at handled
      obtain ⟨⟨emitted₂, log₂⟩, ranEvent, same⟩ := Folds.exists_of_map_eq_ok handled
      obtain ⟨rfl, rfl⟩ := Prod.mk.inj same.symm
      obtain ⟨emitted, ran, forwarded⟩ := ordered.logged region within
      rw [addressedTo] at ranEvent
      have ranMore := BatchLog.run_append ran [event]
      rw [ranEvent] at ranMore
      refine ⟨Function.update received region (received region ++ [event]), ?_⟩
      exact {
        distinct := ordered.distinct
        numbered := numbered_update ordered.numbered le_rfl
        building := building_update ordered.building (ordered.building entry.1)
        timed := timed_update ordered.timed (ordered.timed entry.1)
        proposed := by simpa [proposal_unbatched] using ordered.proposed
        addressed := by
          intro other member
          simp only [Network.route_inFlight, request_unbatched, List.append_nil] at member
          exact ordered.addressed other (List.mem_of_mem_eraseIdx member)
        logged := by
          intro region' within'
          simp only [Network.route_orderers, Network.route_forwarded, addressedTo]
          by_cases same : region' = region
          · subst same
            refine ⟨emitted ++ (emitted₂ ++ []), ?_, ?_⟩
            · rw [Function.update_self, Function.update_self]
              simpa [Except.map] using ranMore
            · rw [Function.update_self, forwarded, txn_unbatched]
              simp
          · have apart : regionOrderer region' ≠ regionOrderer region :=
              fun equal => same (regionOrderer_inj (by omega) (by omega) equal)
            rw [Function.update_of_ne same, Function.update_of_ne apart, Function.update_of_ne apart]
            exact ordered.logged region' within'
        scheduled := by
          intro region' within'
          have pending := eventsFor_eraseIdx arrived region'
          simp only [Network.route_inFlight, request_unbatched, List.append_nil, Network.route_slots]
          by_cases same : region' = region
          · subst same
            rw [addressedTo, if_pos rfl, carried, Option.toList_some] at pending
            rw [Function.update_self, List.append_assoc]
            exact (pending.append_left _).symm.trans (ordered.scheduled region' within')
          · have apart : entry.1 ≠ regionOrderer region' := by
              rw [addressedTo]
              exact fun equal => same (regionOrderer_inj (by omega) (by omega) equal).symm
            rw [if_neg apart, List.nil_append] at pending
            rw [Function.update_of_ne same]
            exact (pending.append_left _).symm.trans (ordered.scheduled region' within') }

end Steps

section Runs

variable {network network' : Network} {actions : List Action}

theorem ordered_init : Ordered numRegions (init numRegions) [] fun _ => [] where
  distinct := List.nodup_nil
  numbered := by simp
  building := fun _ => ⟨[], building_new⟩
  timed := fun _ set => by simp [init, MultiHomeOrderer.new] at set
  proposed := by simp [init]
  addressed := by simp [init]
  logged := fun _ _ => ⟨[], rfl, rfl⟩
  scheduled := fun _ _ => by simp [init, eventsFor, partsFor, ordersOf]

/-- A step moves a machine's counter of batch ids only when its timer goes off, and then by one. -/
theorem Network.step_batchIdCounter {action : Action} (stepped : network.step numRegions action = some network')
    (machine : Nat) :
    (network.orderers machine).batchIdCounter ≤ (network'.orderers machine).batchIdCounter ∧
      (network'.orderers machine).batchIdCounter ≤
        (network.orderers machine).batchIdCounter + if action = .timer machine then 1 else 0 := by
  cases action with
  | forwardTxn other txn =>
      rw [Network.handle_batchIdCounter stepped machine]
      simp
  | timer other =>
      simp only [Network.step, Option.some.injEq] at stepped
      subst stepped
      by_cases same : machine = other
      · subst same
        simp only [Network.route_orderers, Function.update_self, if_true]
        unfold onTimer
        split <;> simp
      · simp [same]
  | order index =>
      cases proposal : network.proposals[index]? with
      | none => simp [Network.step, proposal] at stepped
      | some value =>
          simp only [Network.step, proposal, Option.some.injEq] at stepped
          subst stepped
          simp
  | deliver index =>
      cases arrived : network.inFlight[index]? with
      | none => simp [Network.step, arrived] at stepped
      | some entry =>
          simp only [Network.step, arrived] at stepped
          rw [Network.handle_batchIdCounter stepped machine]
          simp

/-- Over a run, a machine's counter of batch ids grows by at most the times its timer goes off. -/
theorem Network.run_batchIdCounter (ran : network.run numRegions actions = some network') (machine : Nat) :
    (network'.orderers machine).batchIdCounter ≤
      (network.orderers machine).batchIdCounter + actions.count (.timer machine) := by
  induction actions generalizing network with
  | nil =>
      simp only [Network.run, List.foldlM_nil] at ran
      cases ran
      simp
  | cons action rest ih =>
      simp only [Network.run, List.foldlM_cons] at ran
      cases stepped : network.step numRegions action with
      | none => simp [stepped] at ran
      | some middle =>
          rw [stepped] at ran
          have later := ih ran
          have now := (Network.step_batchIdCounter stepped machine).2
          rw [List.count_cons]
          by_cases timed : action = .timer machine
          · simp only [timed, if_true] at now
            simp only [timed, beq_self_eq_true, if_true]
            omega
          · simp only [timed, if_false] at now
            simp only [beq_iff_eq, timed, if_false]
            omega

/-- A step from a consistent network, with the forwarder's txns multi-home and counters below
`2 ^ 32` after it, leads to a consistent network. -/
theorem Consistent.step (fits : numRegions ≤ 2 ^ 8) (consistent : Consistent numRegions network) {action : Action}
    (sentByForwarder : ∀ machine txn, action = .forwardTxn machine txn →
      machine < 2 ^ kMachineIdBits ∧ MultiHome numRegions txn)
    (stepped : network.step numRegions action = some network')
    (bounded : ∀ machine, (network'.orderers machine).batchIdCounter < 2 ^ 32) : Consistent numRegions network' := by
  obtain ⟨sent, received, ordered⟩ := consistent
  cases action with
  | forwardTxn machine txn =>
      obtain ⟨machineFits, formed⟩ := sentByForwarder machine txn rfl
      exact ⟨sent, received, ordered.forwardTxn machineFits formed stepped⟩
  | timer machine =>
      obtain ⟨sent', ordered'⟩ := ordered.timer fits stepped (bounded machine)
      exact ⟨sent', received, ordered'⟩
  | order index => exact ⟨sent, received, ordered.order fits stepped⟩
  | deliver index =>
      obtain ⟨received', ordered'⟩ := ordered.deliver fits stepped
      exact ⟨sent, received', ordered'⟩

/-- Every network a run reaches is consistent, while no counter has reached `2 ^ 32`. -/
theorem consistent_run (fits : numRegions ≤ 2 ^ 8)
    (sentByForwarder : ∀ machine txn, Action.forwardTxn machine txn ∈ actions →
      machine < 2 ^ kMachineIdBits ∧ MultiHome numRegions txn)
    (ran : (init numRegions).run numRegions actions = some network)
    (bounded : ∀ machine, (network.orderers machine).batchIdCounter < 2 ^ 32) : Consistent numRegions network := by
  refine Folds.foldlM_option_invariant
    (fun network => (∀ machine, (network.orderers machine).batchIdCounter < 2 ^ 32) → Consistent numRegions network)
    ?_ (init numRegions) network (fun _ => ⟨[], fun _ => [], ordered_init⟩) ran bounded
  intro state action member state' holds stepped bounded'
  have consistent := holds fun machine =>
    lt_of_le_of_lt (Network.step_batchIdCounter stepped machine).1 (bounded' machine)
  exact consistent.step fits (fun machine txn same => sentByForwarder machine txn (same ▸ member)) stepped bounded'

/-- A run in which no orderer's timer goes off `2 ^ 32 - 1` times keeps every counter below
`2 ^ 32`. -/
theorem bounded_of_run (ran : (init numRegions).run numRegions actions = some network)
    (few : ∀ machine, actions.count (.timer machine) < 2 ^ 32 - 1) (machine : Nat) :
    (network.orderers machine).batchIdCounter < 2 ^ 32 := by
  have grown := Network.run_batchIdCounter ran machine
  have start : ((init numRegions).orderers machine).batchIdCounter = 1 := rfl
  have fewer := few machine
  omega

end Runs

/-- The txns of the first slots that involve a region, cut to those that involve another, are a
prefix of the txns of all the slots that involve both. -/
theorem filter_take_prefix (slots : List Nat) (contents : Nat → List Transaction) (count region region' : Nat) :
    (((slots.take count).flatMap fun id => (contents id).filter fun txn => region ∈ txn.internal.involvedRegions).filter
        fun txn => region' ∈ txn.internal.involvedRegions) <+:
      slots.flatMap fun id => (contents id).filter fun txn =>
        region ∈ txn.internal.involvedRegions ∧ region' ∈ txn.internal.involvedRegions := by
  rw [List.filter_flatMap]
  have both : ∀ id, ((contents id).filter fun txn => region ∈ txn.internal.involvedRegions).filter
      (fun txn => region' ∈ txn.internal.involvedRegions) =
        (contents id).filter fun txn => region ∈ txn.internal.involvedRegions ∧ region' ∈ txn.internal.involvedRegions := by
    intro id
    rw [List.filter_filter]
    apply List.filter_congr
    intro txn _
    simp only [Bool.decide_and]
    exact Bool.and_comm _ _
  simp only [both]
  exact (List.take_prefix count slots).flatMap _

/-- In every run whose multi-home txns are those the forwarder makes, and in which no orderer's
timer goes off `2 ^ 32 - 1` times: the orderer of each region has forwarded to its sequencer, in
slot order, the txns that involve the region of the batches of the first slots of the global
order, for one assignment of txns to batch ids; so the orderers of any two regions forward the
txns that involve both in the same order, one a prefix of the other. -/
theorem multi_home_order_agrees (numRegions : Nat) (fits : numRegions ≤ 2 ^ 8) (actions : List Action)
    (network : Network)
    (sentByForwarder : ∀ machine txn, Action.forwardTxn machine txn ∈ actions →
      machine < 2 ^ kMachineIdBits ∧ MultiHome numRegions txn)
    (few : ∀ machine, actions.count (.timer machine) < 2 ^ 32 - 1)
    (ran : (init numRegions).run numRegions actions = some network) :
    (∃ contents : Nat → List Transaction, ∀ region < numRegions, ∃ count ≤ network.slots.length,
      network.forwarded (regionOrderer region) = (network.slots.take count).flatMap fun id =>
        (contents id).filter fun txn => region ∈ txn.internal.involvedRegions) ∧
    ∀ region < numRegions, ∀ region' < numRegions,
      ((network.forwarded (regionOrderer region)).filter fun txn => region' ∈ txn.internal.involvedRegions) <+:
          ((network.forwarded (regionOrderer region')).filter fun txn => region ∈ txn.internal.involvedRegions) ∨
        ((network.forwarded (regionOrderer region')).filter fun txn => region ∈ txn.internal.involvedRegions) <+:
          ((network.forwarded (regionOrderer region)).filter fun txn => region' ∈ txn.internal.involvedRegions) := by
  obtain ⟨sent, received, ordered⟩ := consistent_run fits sentByForwarder ran (bounded_of_run ran few)
  refine ⟨⟨contentsOf sent, fun region within => ordered.forwarded_eq within⟩, ?_⟩
  intro region within region' within'
  obtain ⟨count, -, here⟩ := ordered.forwarded_eq within
  obtain ⟨count', -, there⟩ := ordered.forwarded_eq within'
  have herePrefix := filter_take_prefix network.slots (contentsOf sent) count region region'
  have therePrefix := filter_take_prefix network.slots (contentsOf sent) count' region' region
  have swapped : (network.slots.flatMap fun id => (contentsOf sent id).filter fun txn =>
      region' ∈ txn.internal.involvedRegions ∧ region ∈ txn.internal.involvedRegions) =
      network.slots.flatMap fun id => (contentsOf sent id).filter fun txn =>
        region ∈ txn.internal.involvedRegions ∧ region' ∈ txn.internal.involvedRegions := by
    congr 1
    funext id
    apply List.filter_congr
    intro txn _
    simp only [Bool.decide_and]
    exact Bool.and_comm _ _
  rw [swapped] at therePrefix
  rw [here, there]
  exact List.prefix_or_prefix_of_prefix herePrefix therePrefix

/-- A request in flight can be delivered: its event is admitted after those its region's orderer
received, so the run of the orderer's log on it succeeds. -/
theorem Ordered.deliverable {network : Network} {sent : List (Nat × List Transaction)}
    {received : Nat → List BatchLog.Event} (ordered : Ordered numRegions network sent received) {index : Nat}
    (within : index < network.inFlight.length) : (network.step numRegions (.deliver index)).isSome := by
  have arrived : network.inFlight[index]? = some network.inFlight[index] := List.getElem?_eq_getElem within
  obtain ⟨⟨region, below, addressedTo⟩, carries⟩ := ordered.addressed _ (List.getElem_mem within)
  obtain ⟨event, carried⟩ := Option.isSome_iff_exists.mp carries
  obtain ⟨emitted, ran, -⟩ := ordered.logged region below
  have pending := eventsFor_eraseIdx arrived region
  rw [addressedTo, if_pos rfl, carried, Option.toList_some] at pending
  have arriving : (received region ++ [event] ++ eventsFor region (network.inFlight.eraseIdx index)).Perm
      (partsFor sent region ++ ordersOf network.slots) := by
    rw [List.append_assoc]
    exact (pending.append_left _).symm.trans (ordered.scheduled region below)
  obtain ⟨emitted', log', ranMore, -⟩ :=
    BatchLog.run_spec (received region ++ [event]) BatchLog.Tally.wellFormed_empty BatchLog.refines_init rfl
      (fun ⟨_, assigned, _⟩ => by simp [BatchLog.Tally.empty] at assigned) (ordered.admitted arriving)
  rw [BatchLog.run_append ran [event]] at ranMore
  obtain ⟨result, ranEvent, -⟩ := Folds.exists_of_map_eq_ok ranMore
  simp only [Network.step, arrived]
  unfold Network.handle
  rw [onInternalRequestReceived_of_event carried, addressedTo, ranEvent]
  rfl

/-- In every run whose multi-home txns are those the forwarder makes, and in which no orderer's
timer goes off `2 ^ 32 - 1` times, every request in flight can be delivered: no region's orderer
gets a slot twice or finds a ready slot without its batch. -/
theorem orderers_never_fail (numRegions : Nat) (fits : numRegions ≤ 2 ^ 8) (actions : List Action)
    (network : Network)
    (sentByForwarder : ∀ machine txn, Action.forwardTxn machine txn ∈ actions →
      machine < 2 ^ kMachineIdBits ∧ MultiHome numRegions txn)
    (few : ∀ machine, actions.count (.timer machine) < 2 ^ 32 - 1)
    (ran : (init numRegions).run numRegions actions = some network) :
    ∀ index < network.inFlight.length, (network.step numRegions (.deliver index)).isSome := by
  obtain ⟨sent, received, ordered⟩ := consistent_run fits sentByForwarder ran (bounded_of_run ran few)
  exact fun index within => ordered.deliverable within

/-- A multi-home txn of the given regions, with no keys. -/
def multiHomeTxn (id : TxnId) (regions : List Nat) : Transaction :=
  ⟨⟨id, .multiHomeOrLockOnly, 0, [0], regions⟩, none, []⟩

/-- Two machines batch three txns over two regions; the global Paxos orders the second batch
first; region 0 gets everything and region 1 only the slot and the batch of the second batch
sent. -/
def crossingActions : List Action :=
  [.forwardTxn 0 (multiHomeTxn 1 [0, 1]), .forwardTxn 5 (multiHomeTxn 2 [0, 1]), .forwardTxn 0 (multiHomeTxn 3 [1]),
    .timer 5, .timer 0, .order 1, .order 0,
    .deliver 6, .deliver 0, .deliver 5, .deliver 3, .deliver 1, .deliver 0]

theorem crossing_sentByForwarder : ∀ machine txn, Action.forwardTxn machine txn ∈ crossingActions →
    machine < 2 ^ kMachineIdBits ∧ MultiHome 2 txn := by
  intro machine txn member
  simp only [crossingActions, List.mem_cons, Action.forwardTxn.injEq, reduceCtorEq, List.not_mem_nil,
    or_false] at member
  rcases member with ⟨rfl, rfl⟩ | ⟨rfl, rfl⟩ | ⟨rfl, rfl⟩ <;>
    exact ⟨by decide, ⟨by decide, by decide, by decide⟩⟩

theorem crossing_few (machine : Nat) : crossingActions.count (.timer machine) < 2 ^ 32 - 1 :=
  lt_of_le_of_lt List.count_le_length (by decide)

theorem crossing_orders_agree : ∃ network, (init 2).run 2 crossingActions = some network ∧
    (∃ contents : Nat → List Transaction, ∀ region < 2, ∃ count ≤ network.slots.length,
      network.forwarded (regionOrderer region) = (network.slots.take count).flatMap fun id =>
        (contents id).filter fun txn => region ∈ txn.internal.involvedRegions) ∧
    ∀ region < 2, ∀ region' < 2,
      ((network.forwarded (regionOrderer region)).filter fun txn => region' ∈ txn.internal.involvedRegions) <+:
          ((network.forwarded (regionOrderer region')).filter fun txn => region ∈ txn.internal.involvedRegions) ∨
        ((network.forwarded (regionOrderer region')).filter fun txn => region ∈ txn.internal.involvedRegions) <+:
          ((network.forwarded (regionOrderer region)).filter fun txn => region' ∈ txn.internal.involvedRegions) := by
  obtain ⟨network, ran⟩ : ∃ network, (init 2).run 2 crossingActions = some network :=
    Option.isSome_iff_exists.mp (by decide)
  exact ⟨network, ran, multi_home_order_agrees 2 (by decide) crossingActions network crossing_sentByForwarder
    crossing_few ran⟩

example : ((init 2).run 2 crossingActions).map (fun network =>
    ((network.forwarded (regionOrderer 0)).map (·.internal.id), (network.forwarded (regionOrderer 1)).map (·.internal.id),
      network.inFlight.length)) = some ([1, 2], [], 2) := by
  decide

theorem crossing_deliveries_succeed : ∃ network, (init 2).run 2 crossingActions = some network ∧
    ∀ index < network.inFlight.length, (network.step 2 (.deliver index)).isSome := by
  obtain ⟨network, ran⟩ : ∃ network, (init 2).run 2 crossingActions = some network :=
    Option.isSome_iff_exists.mp (by decide)
  exact ⟨network, ran, orderers_never_fail 2 (by decide) crossingActions network crossing_sentByForwarder
    crossing_few ran⟩

end MultiHomeOrdering

end Slog
