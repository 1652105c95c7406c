/-
`BatchLog` (`common/batch_log.cpp`): a slot goes out with its batch once both and all its acks
have arrived; the log refines `Tally`, so it emits the same whatever the order of the events.
-/

import Slog.Common.Types
import Slog.Common.AsyncLog

namespace Slog

open Frontier

/-- The state of a `BatchLog`. The time that `AddSlot` stores beside the batch id only feeds a
metric and is left out. -/
structure BatchLog where
  slots : AsyncLog Nat
  batches : Nat → Option Batch
  replication : Nat → Option Int
  readyBatches : List (Nat × Nat)

namespace BatchLog

def init : BatchLog := ⟨AsyncLog.empty, fun _ => none, fun _ => none, []⟩

/-- One pass of the loop of `UpdateReadyBatches`: the next slot goes out when its batch is
there and its replication count is there and zero. `Next` fails exactly when `HasNext` is
false, which ends the loop. -/
def readyStep (log : BatchLog) : Option BatchLog :=
  match log.slots.next with
  | .error _ => none
  | .ok ((slot, batchId), slots) =>
      if (log.batches batchId).isSome ∧ log.replication batchId = some 0 then
        some { log with
          slots := slots
          replication := Function.update log.replication batchId none
          readyBatches := log.readyBatches ++ [(slot, batchId)] }
      else none

/-- Each pass takes one buffered slot, so their count bounds the passes. -/
def updateReadyBatches (log : BatchLog) : BatchLog :=
  whileSome readyStep log.slots.numBufferedItems log

def addBatch (log : BatchLog) (batch : Batch) : BatchLog :=
  updateReadyBatches { log with batches := Function.update log.batches batch.id (some batch) }

/-- `replication_[batch_id]--`, where a missing count reads as zero. -/
def ackReplication (log : BatchLog) (batchId : Nat) : BatchLog :=
  updateReadyBatches { log with
    replication := Function.update log.replication batchId (some ((log.replication batchId).getD 0 - 1)) }

def addSlot (log : BatchLog) (slotId : Nat) (batchId : Nat) (replicationFactor : Int) :
    Except String BatchLog := do
  let slots ← log.slots.insert slotId batchId
  pure (updateReadyBatches { log with
    slots := slots
    replication := Function.update log.replication batchId
      (some ((log.replication batchId).getD 0 + replicationFactor)) })

def hasNextBatch (log : BatchLog) : Bool := !log.readyBatches.isEmpty

/-- `NextBatch`. The source reads the batch of a ready slot without a check; a missing one is
an error here. -/
def nextBatch (log : BatchLog) : Except String ((Nat × Batch) × BatchLog) :=
  match log.readyBatches with
  | [] => .error "NextBatch() was called when there is no ready batch"
  | (slot, batchId) :: rest =>
      match log.batches batchId with
      | none => .error "NextBatch() found no batch for a ready slot"
      | some batch =>
          .ok ((slot, batch), { log with
            batches := Function.update log.batches batchId none
            readyBatches := rest })

/-- The calls a region's log gets. -/
inductive Event where
  | addBatch (batch : Batch)
  | addSlot (slotId : Nat) (batchId : Nat) (replicationFactor : Int)
  | ackReplication (batchId : Nat)
  deriving DecidableEq, Repr

def apply (log : BatchLog) : Event → Except String BatchLog
  | .addBatch batch => .ok (log.addBatch batch)
  | .addSlot slotId batchId replicationFactor => log.addSlot slotId batchId replicationFactor
  | .ackReplication batchId => .ok (log.ackReplication batchId)

/-- Calling `NextBatch` while `HasNextBatch`, for at most `fuel` batches. -/
def drain : Nat → BatchLog → Except String (List (Nat × Batch) × BatchLog)
  | 0, log => .ok ([], log)
  | fuel + 1, log =>
      if log.hasNextBatch then do
        let (entry, log) ← log.nextBatch
        let (rest, log) ← drain fuel log
        pure (entry :: rest, log)
      else .ok ([], log)

/-- A run: each event, then every batch that became ready, as the log manager reads them. -/
def run : List Event → BatchLog → Except String (List (Nat × Batch) × BatchLog)
  | [], log => .ok ([], log)
  | event :: rest, log => do
      let log ← log.apply event
      let (emitted, log) ← drain log.readyBatches.length log
      let (later, log) ← run rest log
      pure (emitted ++ later, log)

/-- What the events so far have brought, in no order: the batch id given to each slot, the
replication factor and the batch of each batch id, and the count of acks of each batch. -/
structure Tally where
  slots : Nat → Option Nat
  factors : Nat → Option Int
  batches : Nat → Option Batch
  acks : Nat → Nat

namespace Tally

def empty : Tally := ⟨fun _ => none, fun _ => none, fun _ => none, fun _ => 0⟩

def record (tally : Tally) : Event → Tally
  | .addBatch batch => { tally with batches := Function.update tally.batches batch.id (some batch) }
  | .addSlot slotId batchId factor => { tally with
      slots := Function.update tally.slots slotId (some batchId)
      factors := Function.update tally.factors batchId (some factor) }
  | .ackReplication batchId => { tally with
      acks := Function.update tally.acks batchId (tally.acks batchId + 1) }

/-- A slot is complete once its batch id, that batch and all the batch's acks are in. -/
def Complete (tally : Tally) (slot : Nat) : Prop :=
  ∃ batchId, tally.slots slot = some batchId ∧ (tally.batches batchId).isSome ∧
    tally.factors batchId = some (tally.acks batchId : Int)

/-- The count that `replication_` holds for a batch: the factor of its slot less its acks. -/
def replication (tally : Tally) (batchId : Nat) : Option Int :=
  match tally.factors batchId with
  | some factor => some (factor - tally.acks batchId)
  | none => if tally.acks batchId = 0 then none else some (-(tally.acks batchId : Int))

/-- An event that distinct slots, distinct batches and exact ack counts allow after those
tallied. -/
def Admits (tally : Tally) : Event → Prop
  | .addBatch batch => tally.batches batch.id = none
  | .addSlot slotId batchId _ => tally.slots slotId = none ∧ tally.factors batchId = none
  | .ackReplication batchId => tally.factors batchId ≠ some (tally.acks batchId : Int)

structure WellFormed (tally : Tally) : Prop where
  factors : ∀ slot batchId, tally.slots slot = some batchId → (tally.factors batchId).isSome
  injective : ∀ slot slot' batchId, tally.slots slot = some batchId → tally.slots slot' = some batchId →
    slot = slot'
  ids : ∀ batchId batch, tally.batches batchId = some batch → batch.id = batchId

variable {tally : Tally} {event : Event} {slot : Nat}

theorem wellFormed_empty : empty.WellFormed where
  factors := fun _ _ assigned => by simp [empty] at assigned
  injective := fun _ _ _ assigned => by simp [empty] at assigned
  ids := fun _ _ added => by simp [empty] at added

theorem WellFormed.record (wf : tally.WellFormed) (admits : tally.Admits event) :
    (tally.record event).WellFormed := by
  cases event with
  | addBatch batch =>
      refine ⟨wf.factors, wf.injective, ?_⟩
      intro batchId added stored
      by_cases same : batchId = batch.id
      · subst same
        simp only [Tally.record, Function.update_self, Option.some.injEq] at stored
        rw [← stored]
      · simp only [Tally.record, Function.update_of_ne same] at stored
        exact wf.ids batchId added stored
  | addSlot slotId batchId factor =>
      obtain ⟨freeSlot, freeBatch⟩ := admits
      refine ⟨?_, ?_, wf.ids⟩
      · intro other otherBatch assigned
        simp only [Tally.record, Function.update_apply] at assigned ⊢
        split_ifs at assigned ⊢ with sameSlot sameBatch <;> simp_all [wf.factors other otherBatch]
      · intro first second otherBatch assignedFirst assignedSecond
        simp only [Tally.record, Function.update_apply] at assignedFirst assignedSecond
        split_ifs at assignedFirst assignedSecond with sameFirst sameSecond sameSecond
        · rw [sameFirst, sameSecond]
        · obtain rfl := Option.some.inj assignedFirst
          have slotted := wf.factors second _ assignedSecond
          simp [freeBatch] at slotted
        · obtain rfl := Option.some.inj assignedSecond
          have slotted := wf.factors first _ assignedFirst
          simp [freeBatch] at slotted
        · exact wf.injective first second otherBatch assignedFirst assignedSecond
  | ackReplication batchId => exact ⟨wf.factors, wf.injective, wf.ids⟩

theorem replication_ack_of_ne {batchId other : Nat} (differs : other ≠ batchId) :
    (tally.record (.ackReplication batchId)).replication other = tally.replication other := by
  unfold Tally.record Tally.replication
  simp [Function.update_of_ne differs]

theorem replication_slot_of_ne {slotId batchId other : Nat} {factor : Int} (differs : other ≠ batchId) :
    (tally.record (.addSlot slotId batchId factor)).replication other = tally.replication other := by
  unfold Tally.record Tally.replication
  simp [Function.update_of_ne differs]

/-- An admitted event leaves a complete slot complete. -/
theorem Complete.record (complete : tally.Complete slot) (admits : tally.Admits event) :
    (tally.record event).Complete slot := by
  obtain ⟨batchId, assigned, present, acked⟩ := complete
  cases event with
  | addBatch batch =>
      refine ⟨batchId, assigned, ?_, acked⟩
      simp only [Tally.record, Function.update_apply]
      split_ifs <;> simp [present]
  | addSlot slotId otherBatch factor =>
      obtain ⟨freeSlot, freeBatch⟩ := admits
      have slotDiffers : slot ≠ slotId := fun same => by simp [same, freeSlot] at assigned
      have batchDiffers : batchId ≠ otherBatch := fun same => by simp [same, freeBatch] at acked
      exact ⟨batchId, by simp [Tally.record, Function.update_of_ne slotDiffers, assigned], present,
        by simp [Tally.record, Function.update_of_ne batchDiffers, acked]⟩
  | ackReplication otherBatch =>
      have differs : batchId ≠ otherBatch := fun same => admits (same ▸ acked)
      exact ⟨batchId, assigned, present, by simp [Tally.record, Function.update_of_ne differs, acked]⟩

/-- Each event is admitted after those before it. -/
def AdmitsAll (tally : Tally) : List Event → Prop
  | [] => True
  | event :: rest => tally.Admits event ∧ (tally.record event).AdmitsAll rest

theorem slots_record {batchId : Nat} (admits : tally.Admits event) (assigned : tally.slots slot = some batchId) :
    (tally.record event).slots slot = some batchId := by
  cases event with
  | addSlot slotId otherBatch factor =>
      have differs : slot ≠ slotId := fun same => by simp [same, admits.1] at assigned
      simp [Tally.record, Function.update_of_ne differs, assigned]
  | addBatch batch => exact assigned
  | ackReplication otherBatch => exact assigned

theorem batches_record {batchId : Nat} {batch : Batch} (admits : tally.Admits event)
    (stored : tally.batches batchId = some batch) : (tally.record event).batches batchId = some batch := by
  cases event with
  | addBatch other =>
      have differs : batchId ≠ other.id := fun same => by
        rw [same, show tally.batches other.id = none from admits] at stored
        cases stored
      simp [Tally.record, Function.update_of_ne differs, stored]
  | addSlot slotId otherBatch factor => exact stored
  | ackReplication otherBatch => exact stored

variable {events : List Event}

theorem WellFormed.recordAll (wf : tally.WellFormed) (admitted : tally.AdmitsAll events) :
    (events.foldl Tally.record tally).WellFormed := by
  induction events generalizing tally with
  | nil => exact wf
  | cons event rest ih => exact ih (wf.record admitted.1) admitted.2

theorem Complete.recordAll (complete : tally.Complete slot) (admitted : tally.AdmitsAll events) :
    (events.foldl Tally.record tally).Complete slot := by
  induction events generalizing tally with
  | nil => exact complete
  | cons event rest ih => exact ih (complete.record admitted.1) admitted.2

theorem slots_recordAll {batchId : Nat} (admitted : tally.AdmitsAll events)
    (assigned : tally.slots slot = some batchId) : (events.foldl Tally.record tally).slots slot = some batchId := by
  induction events generalizing tally with
  | nil => exact assigned
  | cons event rest ih => exact ih admitted.2 (slots_record admitted.1 assigned)

theorem batches_recordAll {batchId : Nat} {batch : Batch} (admitted : tally.AdmitsAll events)
    (stored : tally.batches batchId = some batch) : (events.foldl Tally.record tally).batches batchId = some batch := by
  induction events generalizing tally with
  | nil => exact stored
  | cons event rest ih => exact ih admitted.2 (batches_record admitted.1 stored)

end Tally

/-- A batch id has gone out once a slot before `next_` has it. -/
def Emitted (tally : Tally) (log : BatchLog) (batchId : Nat) : Prop :=
  ∃ slot, slot < log.slots.nextPosition ∧ tally.slots slot = some batchId

/-- The batch log holds what the tallied events brought: its slot log holds their slots, every
slot before `next_` is complete, and for a batch that has not gone out it holds the batch and
the replication count the events give. -/
structure Refines (tally : Tally) (log : BatchLog) : Prop where
  slots : log.slots.Holds tally.slots
  complete : ∀ slot, slot < log.slots.nextPosition → tally.Complete slot
  batches : ∀ batchId, ¬ Emitted tally log batchId → log.batches batchId = tally.batches batchId
  replication : ∀ batchId, ¬ Emitted tally log batchId → log.replication batchId = tally.replication batchId

/-- The slots waiting in `ready_batches_`: those from `start` up to `next_`, each with its batch
id, whose batch the log still holds. -/
structure Queued (tally : Tally) (log : BatchLog) (start : Nat) : Prop where
  le : start ≤ log.slots.nextPosition
  positions : log.readyBatches.map Prod.fst = List.range' start (log.slots.nextPosition - start)
  entries : ∀ entry ∈ log.readyBatches, tally.slots entry.1 = some entry.2 ∧
    log.batches entry.2 = tally.batches entry.2 ∧ (tally.batches entry.2).isSome

variable {tally : Tally} {log log' : BatchLog} {start : Nat}

theorem refines_init : Refines Tally.empty init where
  slots := AsyncLog.holds_empty
  complete := fun _ below => absurd below (Nat.not_lt_zero _)
  batches := fun _ _ => rfl
  replication := fun _ _ => by simp [init, Tally.replication, Tally.empty]

/-- The batch of the next slot has not gone out. -/
theorem not_emitted_of_next (wf : tally.WellFormed) {batchId : Nat}
    (assigned : tally.slots log.slots.nextPosition = some batchId) : ¬ Emitted tally log batchId := by
  rintro ⟨slot, below, earlier⟩
  have same : slot = log.slots.nextPosition := wf.injective slot log.slots.nextPosition batchId earlier assigned
  rw [same] at below
  exact Nat.lt_irrefl _ below

/-- The check of `UpdateReadyBatches` on the next slot is its completeness. -/
theorem ready_iff (wf : tally.WellFormed) (refines : Refines tally log) {batchId : Nat}
    (assigned : tally.slots log.slots.nextPosition = some batchId) :
    ((log.batches batchId).isSome ∧ log.replication batchId = some 0) ↔
      tally.Complete log.slots.nextPosition := by
  have fresh := not_emitted_of_next wf assigned
  obtain ⟨factor, slotted⟩ := Option.isSome_iff_exists.mp (wf.factors _ batchId assigned)
  have zero : tally.replication batchId = some 0 ↔ tally.factors batchId = some (tally.acks batchId : Int) := by
    simp only [Tally.replication, slotted, Option.some.injEq]
    constructor
    · intro same
      omega
    · intro same
      omega
  have complete : tally.Complete log.slots.nextPosition ↔
      (tally.batches batchId).isSome ∧ tally.factors batchId = some (tally.acks batchId : Int) := by
    simp [Tally.Complete, assigned]
  rw [refines.batches batchId fresh, refines.replication batchId fresh, zero, complete]

theorem readyStep_none (wf : tally.WellFormed) (refines : Refines tally log) (declined : readyStep log = none) :
    ¬ tally.Complete log.slots.nextPosition := by
  intro complete
  obtain ⟨batchId, assigned, rest⟩ := complete
  obtain ⟨slots, taken, -⟩ := refines.slots.next assigned
  have ready := (ready_iff wf refines assigned).mpr ⟨batchId, assigned, rest⟩
  simp only [readyStep, taken] at declined
  simp [ready] at declined

/-- A pass of `UpdateReadyBatches` sends out the next slot, which is complete, and moves on. -/
theorem readyStep_some (wf : tally.WellFormed) (refines : Refines tally log) (queued : Queued tally log start)
    (stepped : readyStep log = some log') :
    tally.Complete log.slots.nextPosition ∧ (Refines tally log' ∧ Queued tally log' start) ∧
      log'.slots.nextPosition = log.slots.nextPosition + 1 ∧
      log'.slots.numBufferedItems < log.slots.numBufferedItems := by
  cases assigned : tally.slots log.slots.nextPosition with
  | none =>
      simp [readyStep, refines.slots.next_eq_error assigned] at stepped
  | some batchId =>
      obtain ⟨slots, taken, holds, moved, fewer⟩ := refines.slots.next assigned
      simp only [readyStep, taken] at stepped
      split_ifs at stepped with ready
      cases stepped
      have complete := (ready_iff wf refines assigned).mp ready
      have fresh := not_emitted_of_next wf assigned
      have emitted : ∀ other, Emitted tally { log with slots := slots } other ↔
          Emitted tally log other ∨ other = batchId := by
        intro other
        simp only [Emitted, moved]
        constructor
        · rintro ⟨slot, below, earlier⟩
          by_cases last : slot = log.slots.nextPosition
          · subst last
            exact Or.inr (Option.some.inj (earlier.symm.trans assigned))
          · exact Or.inl ⟨slot, by omega, earlier⟩
        · rintro (⟨slot, below, earlier⟩ | rfl)
          · exact ⟨slot, by omega, earlier⟩
          · exact ⟨log.slots.nextPosition, by omega, assigned⟩
      have shorter : slots.numBufferedItems < log.slots.numBufferedItems := by omega
      have present : (tally.batches batchId).isSome := by
        rw [← refines.batches batchId fresh]
        exact ready.1
      refine ⟨complete, ⟨⟨holds, ?_, ?_, ?_⟩, ⟨?_, ?_, ?_⟩⟩, moved, shorter⟩
      · intro slot below
        change slot < slots.nextPosition at below
        by_cases last : slot = log.slots.nextPosition
        · exact last ▸ complete
        · exact refines.complete slot (by omega)
      · intro other gone
        have earlier : ¬ Emitted tally log other := fun sent => gone ((emitted other).mpr (Or.inl sent))
        exact refines.batches other earlier
      · intro other gone
        have earlier : ¬ Emitted tally log other := fun sent => gone ((emitted other).mpr (Or.inl sent))
        have differs : other ≠ batchId := fun same => gone ((emitted other).mpr (Or.inr same))
        simp only [Function.update_of_ne differs]
        exact refines.replication other earlier
      · change start ≤ slots.nextPosition
        have := queued.le
        omega
      · change (log.readyBatches ++ [(log.slots.nextPosition, batchId)]).map Prod.fst =
          List.range' start (slots.nextPosition - start)
        have extended : slots.nextPosition - start = (log.slots.nextPosition - start) + 1 := by
          have := queued.le
          omega
        rw [List.map_append, queued.positions, extended, List.range'_1_concat]
        simp [queued.le]
      · intro entry member
        rcases List.mem_append.mp member with waiting | latest
        · exact queued.entries entry waiting
        · simp only [List.mem_singleton] at latest
          subst latest
          exact ⟨assigned, refines.batches batchId fresh, present⟩

/-- `UpdateReadyBatches` sends out the slots up to the first one that is not complete. -/
theorem updateReadyBatches_spec (wf : tally.WellFormed) (refines : Refines tally log)
    (queued : Queued tally log start) :
    (Refines tally log.updateReadyBatches ∧ Queued tally log.updateReadyBatches start) ∧
      IsFrontier tally.Complete log.slots.nextPosition log.updateReadyBatches.slots.nextPosition :=
  whileSome_spec (fun state => Refines tally state ∧ Queued tally state start)
    (fun state => state.slots.nextPosition) (fun state => state.slots.numBufferedItems)
    (fun _ holds declined => readyStep_none wf holds.1 declined)
    (fun _ _ holds stepped => readyStep_some wf holds.1 holds.2 stepped)
    (fun _ holds emptied => by
      cases stepped : readyStep _ with
      | none => rfl
      | some next =>
          have := (readyStep_some wf holds.1 holds.2 stepped).2.2.2
          omega)
    _ log ⟨refines, queued⟩ (Nat.le_refl _)

/-- A log with no slot waiting is one from which the slots from `next_` on are yet to go. -/
theorem queued_of_drained (drained : log.readyBatches = []) : Queued tally log log.slots.nextPosition where
  le := Nat.le_refl _
  positions := by simp [drained]
  entries := by simp [drained]

/-- An admitted event does not give a slot before `next_` a batch. -/
theorem emitted_record_iff (refines : Refines tally log) {event : Event} (admits : tally.Admits event)
    (batchId : Nat) : Emitted (tally.record event) log batchId ↔ Emitted tally log batchId := by
  cases event with
  | addSlot slotId otherBatch factor =>
      have unread : ¬ slotId < log.slots.nextPosition := fun below => by
        simpa [admits.1] using refines.slots.read slotId below
      simp only [Emitted, Tally.record]
      constructor
      · rintro ⟨slot, below, assigned⟩
        have differs : slot ≠ slotId := by omega
        exact ⟨slot, below, by simpa [Function.update_of_ne differs] using assigned⟩
      · rintro ⟨slot, below, assigned⟩
        have differs : slot ≠ slotId := by omega
        exact ⟨slot, below, by simpa [Function.update_of_ne differs] using assigned⟩
  | addBatch batch => exact Iff.rfl
  | ackReplication otherBatch => exact Iff.rfl

/-- The part of a batch log that an event leaves to `UpdateReadyBatches` refines the tally
with the event. -/
theorem Refines.record (refines : Refines tally log) {event : Event} (admits : tally.Admits event)
    {direct : BatchLog} (slots : direct.slots.Holds (tally.record event).slots)
    (moved : direct.slots.nextPosition = log.slots.nextPosition)
    (batches : ∀ batchId, ¬ Emitted tally log batchId → direct.batches batchId = (tally.record event).batches batchId)
    (replication : ∀ batchId, ¬ Emitted tally log batchId →
      direct.replication batchId = (tally.record event).replication batchId) :
    Refines (tally.record event) direct where
  slots := slots
  complete := fun slot below => (refines.complete slot (moved ▸ below)).record admits
  batches := fun batchId gone => batches batchId fun sent => gone (by
    simpa [Emitted, moved] using (emitted_record_iff refines admits batchId).mpr sent)
  replication := fun batchId gone => replication batchId fun sent => gone (by
    simpa [Emitted, moved] using (emitted_record_iff refines admits batchId).mpr sent)

/-- The count `AckReplication` leaves is the tally's after one more ack. -/
theorem replication_ack (tally : Tally) (batchId : Nat) :
    some ((tally.replication batchId).getD 0 - 1) =
      (tally.record (.ackReplication batchId)).replication batchId := by
  simp only [Tally.record, Tally.replication, Function.update_self]
  cases tally.factors batchId with
  | some factor => simp; omega
  | none =>
      by_cases none : tally.acks batchId = 0
      · simp [none]
      · simp [none]; omega

/-- The count `AddSlot` leaves is the tally's once the slot is in. -/
theorem replication_slot (tally : Tally) {slotId : Nat} {batchId : Nat} (factor : Int)
    (fresh : tally.factors batchId = none) :
    some ((tally.replication batchId).getD 0 + factor) =
      (tally.record (.addSlot slotId batchId factor)).replication batchId := by
  simp only [Tally.record, Tally.replication, Function.update_self, fresh]
  by_cases none : tally.acks batchId = 0
  · simp [none]
  · simp [none]; omega

/-- Each call of a region's log, on an event the tally admits, refines the tally with the event
and sends out the slots up to the first one not complete. -/
theorem Refines.apply (wf : tally.WellFormed) (refines : Refines tally log) (drained : log.readyBatches = [])
    {event : Event} (admits : tally.Admits event) :
    ∃ log', log.apply event = .ok log' ∧
      (Refines (tally.record event) log' ∧ Queued (tally.record event) log' log.slots.nextPosition) ∧
      IsFrontier (tally.record event).Complete log.slots.nextPosition log'.slots.nextPosition := by
  have recorded := wf.record admits
  cases event with
  | addBatch batch =>
      have direct : Refines (tally.record (.addBatch batch))
          { log with batches := Function.update log.batches batch.id (some batch) } := by
        refine refines.record admits refines.slots rfl ?_ refines.replication
        intro batchId gone
        simp only [Tally.record, Function.update_apply]
        split_ifs
        · rfl
        · exact refines.batches batchId gone
      exact ⟨_, rfl, updateReadyBatches_spec recorded direct (queued_of_drained drained)⟩
  | ackReplication batchId =>
      have direct : Refines (tally.record (.ackReplication batchId))
          { log with replication :=
            Function.update log.replication batchId (some ((log.replication batchId).getD 0 - 1)) } := by
        refine refines.record admits refines.slots rfl refines.batches ?_
        intro other gone
        by_cases same : other = batchId
        · subst same
          simp only [Function.update_self, refines.replication other gone]
          exact replication_ack tally other
        · change Function.update log.replication batchId _ other = _
          rw [Function.update_of_ne same, refines.replication other gone, Tally.replication_ack_of_ne same]
      exact ⟨_, rfl, updateReadyBatches_spec recorded direct (queued_of_drained drained)⟩
  | addSlot slotId batchId factor =>
      have admitted := admits
      obtain ⟨freeSlot, freeBatch⟩ := admits
      obtain ⟨slots, inserted, holds, moved, -⟩ := refines.slots.insert freeSlot batchId
      have gone : ¬ Emitted tally log batchId := by
        rintro ⟨slot, -, assigned⟩
        simpa [freeBatch] using wf.factors slot batchId assigned
      have direct : Refines (tally.record (.addSlot slotId batchId factor))
          { log with
            slots := slots
            replication :=
              Function.update log.replication batchId (some ((log.replication batchId).getD 0 + factor)) } := by
        refine refines.record admitted holds moved refines.batches ?_
        intro other otherGone
        by_cases same : other = batchId
        · subst same
          simp only [Function.update_self, refines.replication other otherGone]
          exact replication_slot tally factor freeBatch
        · change Function.update log.replication batchId _ other = _
          rw [Function.update_of_ne same, refines.replication other otherGone,
            Tally.replication_slot_of_ne same]
      have spec := updateReadyBatches_spec recorded direct (queued_of_drained drained)
      refine ⟨_, by simp [BatchLog.apply, addSlot, inserted]; rfl, ?_⟩
      simpa [moved] using spec

/-- `NextBatch` while `HasNextBatch` hands out the waiting slots in order, each with its batch. -/
theorem drain_spec (wf : tally.WellFormed) (refines : Refines tally log) (queued : Queued tally log start) :
    ∃ emitted log', drain log.readyBatches.length log = .ok (emitted, log') ∧
      Refines tally log' ∧ log'.readyBatches = [] ∧ log'.slots = log.slots ∧
      emitted.map Prod.fst = log.readyBatches.map Prod.fst ∧
      ∀ entry ∈ emitted, tally.slots entry.1 = some entry.2.id ∧ tally.batches entry.2.id = some entry.2 := by
  obtain ⟨ready, waiting⟩ : ∃ ready, log.readyBatches = ready := ⟨_, rfl⟩
  induction ready generalizing log start with
  | nil => exact ⟨[], log, by simp [waiting, drain], refines, waiting, rfl, by simp [waiting], by simp⟩
  | cons first rest ih =>
      obtain ⟨slot, batchId⟩ := first
      obtain ⟨assigned, held, present⟩ := queued.entries (slot, batchId) (by simp [waiting])
      obtain ⟨batch, stored⟩ := Option.isSome_iff_exists.mp present
      have positions := queued.positions
      rw [waiting, List.map_cons] at positions
      have lengths := congrArg List.length positions
      simp only [List.length_cons, List.length_map, List.length_range'] at lengths
      have shape : slot = start ∧ rest.map Prod.fst = List.range' (start + 1) (log.slots.nextPosition - (start + 1)) := by
        have long : log.slots.nextPosition - start = (log.slots.nextPosition - (start + 1)) + 1 := by omega
        rw [long, List.range'_succ] at positions
        exact List.cons.inj positions
      have sent : Emitted tally log batchId := ⟨slot, by omega, assigned⟩
      let log₁ : BatchLog := { log with batches := Function.update log.batches batchId none, readyBatches := rest }
      have refines₁ : Refines tally log₁ := by
        refine ⟨refines.slots, refines.complete, ?_, refines.replication⟩
        intro other gone
        have differs : other ≠ batchId := fun same => gone (same ▸ sent)
        exact (Function.update_of_ne differs _ _).trans (refines.batches other gone)
      have queued₁ : Queued tally log₁ (start + 1) := by
        refine ⟨?_, shape.2, ?_⟩
        · change start + 1 ≤ log.slots.nextPosition
          omega
        · intro entry member
          change entry ∈ rest at member
          obtain ⟨assignedOther, heldOther, presentOther⟩ := queued.entries entry (by simp [waiting, member])
          have later : start + 1 ≤ entry.1 := by
            have := List.mem_map_of_mem (f := Prod.fst) member
            rw [shape.2, List.mem_range'_1] at this
            omega
          have differs : entry.2 ≠ batchId := fun same => by
            have := wf.injective _ _ batchId (same ▸ assignedOther) assigned
            omega
          exact ⟨assignedOther, (Function.update_of_ne differs _ _).trans heldOther, presentOther⟩
      obtain ⟨emitted, log', drained, refines', empty, slots', positions', entries'⟩ := ih refines₁ queued₁ rfl
      have id : batch.id = batchId := wf.ids batchId batch stored
      refine ⟨(slot, batch) :: emitted, log', ?_, refines', empty, slots', ?_, ?_⟩
      · simp only [waiting, List.length_cons, drain, hasNextBatch, List.isEmpty_cons, Bool.not_false,
          if_true, nextBatch, held.trans stored]
        change drain rest.length log₁ = _ at drained
        simp [bind, Except.bind, drained, log₁, pure, Except.pure]
      · change emitted.map Prod.fst = rest.map Prod.fst at positions'
        simp [waiting, positions']
      · intro entry member
        rcases List.mem_cons.mp member with first | later
        · subst first
          exact ⟨by simp [id, assigned], by simp [id, stored]⟩
        · exact entries' entry later

namespace Tally

variable {events : List Event} {batchId : Nat} {factor : Int} {batch : Batch}

theorem slots_foldl (events : List Event) (assigned : (events.foldl Tally.record tally).slots slot = some batchId) :
    tally.slots slot = some batchId ∨ ∃ factor, .addSlot slot batchId factor ∈ events := by
  induction events generalizing tally with
  | nil => exact Or.inl assigned
  | cons event rest ih =>
      rcases ih assigned with earlier | later
      · cases event with
        | addSlot slotId otherBatch otherFactor =>
            by_cases same : slot = slotId
            · subst same
              simp only [Tally.record, Function.update_self, Option.some.injEq] at earlier
              exact Or.inr ⟨otherFactor, by simp [earlier]⟩
            · exact Or.inl (by simpa [Tally.record, Function.update_of_ne same] using earlier)
        | addBatch other => exact Or.inl earlier
        | ackReplication other => exact Or.inl earlier
      · obtain ⟨factor, member⟩ := later
        exact Or.inr ⟨factor, List.mem_cons_of_mem _ member⟩

theorem factors_foldl (events : List Event)
    (slotted : (events.foldl Tally.record tally).factors batchId = some factor) :
    tally.factors batchId = some factor ∨ ∃ slot, .addSlot slot batchId factor ∈ events := by
  induction events generalizing tally with
  | nil => exact Or.inl slotted
  | cons event rest ih =>
      rcases ih slotted with earlier | later
      · cases event with
        | addSlot slotId otherBatch otherFactor =>
            by_cases same : batchId = otherBatch
            · subst same
              simp only [Tally.record, Function.update_self, Option.some.injEq] at earlier
              exact Or.inr ⟨slotId, by simp [earlier]⟩
            · exact Or.inl (by simpa [Tally.record, Function.update_of_ne same] using earlier)
        | addBatch other => exact Or.inl earlier
        | ackReplication other => exact Or.inl earlier
      · obtain ⟨slot, member⟩ := later
        exact Or.inr ⟨slot, List.mem_cons_of_mem _ member⟩

theorem batches_foldl (events : List Event)
    (stored : (events.foldl Tally.record tally).batches batchId = some batch) :
    tally.batches batchId = some batch ∨ (.addBatch batch ∈ events ∧ batch.id = batchId) := by
  induction events generalizing tally with
  | nil => exact Or.inl stored
  | cons event rest ih =>
      rcases ih stored with earlier | ⟨member, id⟩
      · cases event with
        | addBatch other =>
            by_cases same : batchId = other.id
            · subst same
              simp only [Tally.record, Function.update_self, Option.some.injEq] at earlier
              exact Or.inr ⟨by simp [earlier], by rw [earlier]⟩
            · exact Or.inl (by simpa [Tally.record, Function.update_of_ne same] using earlier)
        | addSlot slotId otherBatch otherFactor => exact Or.inl earlier
        | ackReplication other => exact Or.inl earlier
      · exact Or.inr ⟨List.mem_cons_of_mem _ member, id⟩

theorem acks_foldl (events : List Event) (batchId : Nat) :
    (events.foldl Tally.record tally).acks batchId = tally.acks batchId + events.count (.ackReplication batchId) := by
  induction events generalizing tally with
  | nil => simp
  | cons event rest ih =>
      rw [List.foldl_cons, ih, List.count_cons]
      cases event with
      | ackReplication other =>
          by_cases same : batchId = other
          · subst same
            simp [Tally.record]
            omega
          · simp [Tally.record, Function.update_of_ne same, Ne.symm same]
      | addBatch other => simp [Tally.record]
      | addSlot slotId otherBatch otherFactor => simp [Tally.record]

theorem factors_record (admits : tally.Admits event) (slotted : tally.factors batchId = some factor) :
    (tally.record event).factors batchId = some factor := by
  cases event with
  | addSlot slotId otherBatch otherFactor =>
      have differs : batchId ≠ otherBatch := fun same => by simp [same, admits.2] at slotted
      simp [Tally.record, Function.update_of_ne differs, slotted]
  | addBatch other => exact slotted
  | ackReplication other => exact slotted

theorem factors_recordAll (admitted : tally.AdmitsAll events) (slotted : tally.factors batchId = some factor) :
    (events.foldl Tally.record tally).factors batchId = some factor := by
  induction events generalizing tally with
  | nil => exact slotted
  | cons event rest ih => exact ih admitted.2 (factors_record admitted.1 slotted)

/-- A slot given by an admitted event stays with its batch and factor. -/
theorem slots_of_mem {slotId : Nat} (admitted : tally.AdmitsAll events)
    (member : .addSlot slotId batchId factor ∈ events) :
    (events.foldl Tally.record tally).slots slotId = some batchId ∧
      (events.foldl Tally.record tally).factors batchId = some factor := by
  induction events generalizing tally with
  | nil => simp at member
  | cons event rest ih =>
      rcases List.mem_cons.mp member with same | later
      · subst same
        rw [List.foldl_cons]
        exact ⟨slots_recordAll admitted.2 (by simp [Tally.record]),
          factors_recordAll admitted.2 (by simp [Tally.record])⟩
      · exact ih admitted.2 later

theorem batches_of_mem (admitted : tally.AdmitsAll events) (member : .addBatch batch ∈ events) :
    (events.foldl Tally.record tally).batches batch.id = some batch := by
  induction events generalizing tally with
  | nil => simp at member
  | cons event rest ih =>
      rcases List.mem_cons.mp member with same | later
      · subst same
        rw [List.foldl_cons]
        exact batches_recordAll admitted.2 (by simp [Tally.record])
      · exact ih admitted.2 later

theorem AdmitsAll.left {rest : List Event} (admitted : tally.AdmitsAll (events ++ rest)) : tally.AdmitsAll events := by
  induction events generalizing tally with
  | nil => trivial
  | cons event done ih => exact ⟨admitted.1, ih admitted.2⟩

end Tally

/-- A run from a drained log, on events each admitted after those before, refines the tally of
the events and emits the slots from `next_` up to the first one not complete, in order and each
with its batch. -/
theorem run_spec (events : List Event) (wf : tally.WellFormed) (refines : Refines tally log)
    (drained : log.readyBatches = []) (stopped : ¬ tally.Complete log.slots.nextPosition)
    (admitted : tally.AdmitsAll events) :
    ∃ emitted log', log.run events = .ok (emitted, log') ∧
      (Refines (events.foldl Tally.record tally) log' ∧ log'.readyBatches = []) ∧
      IsFrontier (events.foldl Tally.record tally).Complete log.slots.nextPosition log'.slots.nextPosition ∧
      emitted.map Prod.fst =
        List.range' log.slots.nextPosition (log'.slots.nextPosition - log.slots.nextPosition) ∧
      ∀ entry ∈ emitted, (events.foldl Tally.record tally).slots entry.1 = some entry.2.id ∧
        (events.foldl Tally.record tally).batches entry.2.id = some entry.2 := by
  induction events generalizing tally log with
  | nil => exact ⟨[], log, rfl, ⟨refines, drained⟩, isFrontier_self stopped, by simp, by simp⟩
  | cons event rest ih =>
      obtain ⟨admits, later⟩ := admitted
      simp only [List.foldl_cons]
      obtain ⟨applied, stepped, ⟨refines₁, queued₁⟩, frontier₁⟩ := refines.apply wf drained admits
      obtain ⟨emitted₁, drainedLog, drainedRun, refines₂, empty₂, slots₂, positions₂, entries₂⟩ :=
        drain_spec (wf.record admits) refines₁ queued₁
      rw [← slots₂] at frontier₁
      obtain ⟨emitted₂, final, ran, refinesFinal, frontier₂, positionsFinal, entriesFinal⟩ :=
        ih (wf.record admits) refines₂ empty₂ frontier₁.blocked later
      refine ⟨emitted₁ ++ emitted₂, final, ?_, refinesFinal, ?_, ?_, ?_⟩
      · simp [run, stepped, drainedRun, ran, bind, Except.bind, pure, Except.pure]
      · refine frontier₂.extend (fun slot low high => ?_) frontier₁.le
        exact Tally.Complete.recordAll (frontier₁.below slot low high) later
      · have le₁ := frontier₁.le
        have le₂ := frontier₂.le
        have split := @List.range'_append_1 log.slots.nextPosition
          (drainedLog.slots.nextPosition - log.slots.nextPosition)
          (final.slots.nextPosition - drainedLog.slots.nextPosition)
        rw [show log.slots.nextPosition + (drainedLog.slots.nextPosition - log.slots.nextPosition) =
            drainedLog.slots.nextPosition by omega,
          show drainedLog.slots.nextPosition - log.slots.nextPosition +
            (final.slots.nextPosition - drainedLog.slots.nextPosition) =
            final.slots.nextPosition - log.slots.nextPosition by omega] at split
        rw [List.map_append, positions₂, queued₁.positions, positionsFinal, ← split, slots₂]
      · intro entry member
        rcases List.mem_append.mp member with early | late
        · obtain ⟨assigned, stored⟩ := entries₂ entry early
          exact ⟨Tally.slots_recordAll later assigned, Tally.batches_recordAll later stored⟩
        · exact entriesFinal entry late

/-- The slot id an event gives. -/
def Event.slotOf : Event → Option Nat
  | .addSlot slotId _ _ => some slotId
  | _ => none

/-- The batch id an event gives a slot. -/
def Event.slottedOf : Event → Option Nat
  | .addSlot _ batchId _ => some batchId
  | _ => none

/-- The id of the batch an event adds. -/
def Event.addedOf : Event → Option Nat
  | .addBatch batch => some batch.id
  | _ => none

/-- The events of a region's log: slot ids 0 to `n - 1`, each given once; each batch id given
to at most one slot and each batch added at most once; and each slot's batch added and acked
exactly as often as the slot's replication factor. -/
structure Schedule (events : List Event) (n : Nat) : Prop where
  slots : (events.filterMap Event.slotOf).Perm (List.range n)
  slotted : (events.filterMap Event.slottedOf).Nodup
  batches : (events.filterMap Event.addedOf).Nodup
  added : ∀ slotId batchId factor, .addSlot slotId batchId factor ∈ events →
    ∃ batch, .addBatch batch ∈ events ∧ batch.id = batchId
  acked : ∀ slotId batchId factor, .addSlot slotId batchId factor ∈ events →
    (events.count (.ackReplication batchId) : Int) = factor

variable {events : List Event} {n : Nat}

/-- Under a schedule every event is admitted after those before it. -/
theorem Schedule.admitsAll (schedule : Schedule events n) :
    ∀ done rest, events = done ++ rest → (done.foldl Tally.record Tally.empty).AdmitsAll rest := by
  intro done rest split
  induction rest generalizing done with
  | nil => trivial
  | cons event rest ih =>
      refine ⟨?_, by simpa using ih (done ++ [event]) (by simp [split])⟩
      cases event with
      | addBatch batch =>
          cases stored : (done.foldl Tally.record Tally.empty).batches batch.id with
          | none => exact stored
          | some other =>
              obtain ⟨member, id⟩ := (Tally.batches_foldl done stored).resolve_left (by simp [Tally.empty])
              have distinct := schedule.batches
              rw [split] at distinct
              exact absurd (show Event.addedOf (.addBatch batch) = some batch.id from rfl)
                (filterMap_apart distinct member (by simp [Event.addedOf, id]))
      | addSlot slotId batchId factor =>
          constructor
          · cases assigned : (done.foldl Tally.record Tally.empty).slots slotId with
            | none => rfl
            | some other =>
                obtain ⟨otherFactor, member⟩ :=
                  (Tally.slots_foldl done assigned).resolve_left (by simp [Tally.empty])
                have distinct := schedule.slots.nodup_iff.mpr List.nodup_range
                rw [split] at distinct
                exact absurd (show Event.slotOf (.addSlot slotId batchId factor) = some slotId from rfl)
                  (filterMap_apart distinct member rfl)
          · cases slotted : (done.foldl Tally.record Tally.empty).factors batchId with
            | none => rfl
            | some other =>
                obtain ⟨slot, member⟩ :=
                  (Tally.factors_foldl done slotted).resolve_left (by simp [Tally.empty])
                have distinct := schedule.slotted
                rw [split] at distinct
                exact absurd (show Event.slottedOf (.addSlot slotId batchId factor) = some batchId from rfl)
                  (filterMap_apart distinct member rfl)
      | ackReplication batchId =>
          intro complete
          obtain ⟨slot, member⟩ := (Tally.factors_foldl done complete).resolve_left (by simp [Tally.empty])
          have total := schedule.acked slot batchId _ (by rw [split]; exact List.mem_append_left _ member)
          rw [Tally.acks_foldl, split, List.count_append, List.count_cons] at total
          simp [Tally.empty] at total
          omega

theorem Schedule.admitted (schedule : Schedule events n) : Tally.empty.AdmitsAll events := by
  simpa using schedule.admitsAll [] events rfl

/-- Under a schedule, the slots 0 to `n - 1` end complete and slot `n` never is. -/
theorem Schedule.frontier (schedule : Schedule events n) :
    IsFrontier (events.foldl Tally.record Tally.empty).Complete 0 n := by
  refine ⟨Nat.zero_le n, fun slot _ below => ?_, ?_⟩
  · have listed : slot ∈ events.filterMap Event.slotOf :=
      schedule.slots.mem_iff.mpr (List.mem_range.mpr below)
    obtain ⟨event, member, given⟩ := List.mem_filterMap.mp listed
    cases event with
    | addSlot slotId batchId factor =>
        simp only [Event.slotOf, Option.some.injEq] at given
        subst given
        obtain ⟨assigned, slotted⟩ := Tally.slots_of_mem schedule.admitted member
        obtain ⟨batch, added, id⟩ := schedule.added _ _ _ member
        have stored := Tally.batches_of_mem schedule.admitted added
        rw [id] at stored
        refine ⟨batchId, assigned, by simp [stored], ?_⟩
        rw [slotted, Tally.acks_foldl, ← schedule.acked _ _ _ member]
        simp [Tally.empty]
    | addBatch batch => simp [Event.slotOf] at given
    | ackReplication batchId => simp [Event.slotOf] at given
  · rintro ⟨batchId, assigned, -⟩
    obtain ⟨factor, member⟩ := (Tally.slots_foldl events assigned).resolve_left (by simp [Tally.empty])
    have listed : n ∈ events.filterMap Event.slotOf := List.mem_filterMap.mpr ⟨_, member, rfl⟩
    simpa using schedule.slots.subset listed

/-- A run from the empty log under a schedule emits the slots 0 to `n - 1` in order, each with
the batch its events give it. -/
theorem Schedule.run (schedule : Schedule events n) :
    ∃ emitted log, init.run events = .ok (emitted, log) ∧ emitted.map Prod.fst = List.range n ∧
      ∀ entry ∈ emitted, (∃ factor, .addSlot entry.1 entry.2.id factor ∈ events) ∧ .addBatch entry.2 ∈ events := by
  obtain ⟨emitted, log, ran, -, frontier, positions, entries⟩ :=
    run_spec events Tally.wellFormed_empty refines_init rfl
      (fun ⟨_, assigned, _⟩ => by simp [Tally.empty] at assigned) schedule.admitted
  have stop : log.slots.nextPosition = n := frontier.unique schedule.frontier
  refine ⟨emitted, log, ran, ?_, ?_⟩
  · rw [positions, stop]
    simp [init, AsyncLog.empty, List.range_eq_range']
  · intro entry member
    obtain ⟨assigned, stored⟩ := entries entry member
    obtain ⟨factor, slot⟩ := (Tally.slots_foldl events assigned).resolve_left (by simp [Tally.empty])
    obtain ⟨added, -⟩ := (Tally.batches_foldl events stored).resolve_left (by simp [Tally.empty])
    exact ⟨⟨factor, slot⟩, added⟩

/-- Under a schedule a slot has one batch. -/
theorem Schedule.entry_eq (schedule : Schedule events n) {first second : Nat × Batch}
    (firstIn : (∃ factor, .addSlot first.1 first.2.id factor ∈ events) ∧ .addBatch first.2 ∈ events)
    (secondIn : (∃ factor, .addSlot second.1 second.2.id factor ∈ events) ∧ .addBatch second.2 ∈ events)
    (same : first.1 = second.1) : first = second := by
  obtain ⟨⟨factor, slotFirst⟩, addedFirst⟩ := firstIn
  obtain ⟨⟨factor', slotSecond⟩, addedSecond⟩ := secondIn
  have distinct := schedule.slots.nodup_iff.mpr List.nodup_range
  have sameSlot := eq_of_nodup_filterMap distinct slotFirst slotSecond rfl (by simp [Event.slotOf, same])
  simp only [Event.addSlot.injEq] at sameSlot
  have sameBatch := eq_of_nodup_filterMap schedule.batches addedFirst addedSecond rfl
    (by simp [Event.addedOf, sameSlot.2.1])
  simp only [Event.addBatch.injEq] at sameBatch
  exact Prod.ext same sameBatch

/-- A schedule is one whatever the order of its events. -/
theorem Schedule.perm (schedule : Schedule events n) {events' : List Event} (perm : events'.Perm events) :
    Schedule events' n where
  slots := (perm.filterMap _).trans schedule.slots
  slotted := (perm.filterMap _).nodup_iff.mpr schedule.slotted
  batches := (perm.filterMap _).nodup_iff.mpr schedule.batches
  added := fun slotId batchId factor member => by
    obtain ⟨batch, added, id⟩ := schedule.added slotId batchId factor (perm.subset member)
    exact ⟨batch, perm.symm.subset added, id⟩
  acked := fun slotId batchId factor member => by
    rw [perm.count_eq]
    exact schedule.acked slotId batchId factor (perm.subset member)

/-- A prefix of a schedule emits only slots whose batch came and whose acks all came in it. -/
theorem Schedule.emitted_prefix (schedule : Schedule events n) (done rest : List Event)
    (split : events = done ++ rest) :
    ∃ soFar log, init.run done = .ok (soFar, log) ∧ ∀ entry ∈ soFar, .addBatch entry.2 ∈ done ∧
      ∃ factor, .addSlot entry.1 entry.2.id factor ∈ done ∧ (done.count (.ackReplication entry.2.id) : Int) = factor := by
  have admitted : Tally.empty.AdmitsAll done := Tally.AdmitsAll.left (split ▸ schedule.admitted)
  obtain ⟨soFar, log, ran, -, frontier, positions, entries⟩ :=
    run_spec done Tally.wellFormed_empty refines_init rfl
      (fun ⟨_, assigned, _⟩ => by simp [Tally.empty] at assigned) admitted
  refine ⟨soFar, log, ran, fun entry member => ?_⟩
  obtain ⟨assigned, stored⟩ := entries entry member
  have listed : entry.1 ∈ soFar.map Prod.fst := List.mem_map_of_mem member
  rw [positions, List.mem_range'_1] at listed
  have below : entry.1 < log.slots.nextPosition := by
    have := listed.2
    simp only [init, AsyncLog.empty] at this
    omega
  obtain ⟨batchId, assigned', -, acked⟩ := frontier.below entry.1 listed.1 below
  rw [assigned] at assigned'
  cases assigned'
  obtain ⟨factor, slot⟩ := (Tally.slots_foldl done assigned).resolve_left (by simp [Tally.empty])
  obtain ⟨added, -⟩ := (Tally.batches_foldl done stored).resolve_left (by simp [Tally.empty])
  have slotted := (Tally.slots_of_mem admitted slot).2
  rw [slotted, Tally.acks_foldl] at acked
  simp only [Option.some.injEq] at acked
  refine ⟨added, factor, slot, ?_⟩
  rw [acked]
  simp [Tally.empty]

/-- A run of more events after a run that succeeded goes on from the log it left, and emits
after what it emitted. -/
theorem run_append {events : List Event} {log log' : BatchLog} {emitted : List (Nat × Batch)}
    (ran : log.run events = .ok (emitted, log')) (more : List Event) :
    log.run (events ++ more) = (log'.run more).map fun result => (emitted ++ result.1, result.2) := by
  induction events generalizing log emitted with
  | nil =>
      simp only [run, Except.ok.injEq, Prod.mk.injEq] at ran
      obtain ⟨rfl, rfl⟩ := ran
      rw [List.nil_append]
      cases log.run more <;> rfl
  | cons event rest ih =>
      cases applied : log.apply event with
      | error message => simp [run, applied, bind, Except.bind] at ran
      | ok log₁ =>
          cases drained : drain log₁.readyBatches.length log₁ with
          | error message => simp [run, applied, drained, bind, Except.bind] at ran
          | ok first =>
              obtain ⟨emitted₁, log₂⟩ := first
              cases continued : log₂.run rest with
              | error message => simp [run, applied, drained, continued, bind, Except.bind] at ran
              | ok later =>
                  obtain ⟨emitted₂, log₃⟩ := later
                  simp only [run, applied, drained, continued, bind, Except.bind, pure, Except.pure, Except.ok.injEq,
                    Prod.mk.injEq] at ran
                  obtain ⟨rfl, rfl⟩ := ran
                  simp only [List.cons_append, run, applied, drained, ih continued, bind, Except.bind]
                  cases log₃.run more <;> simp [Except.map, pure, Except.pure]

end BatchLog

/-- The batch log emits each slot in turn with its batch, each batch once and only after the
batch and all its acks came, whatever the order of the calls; an `AsyncLog` likewise reads its
items in position order whatever the order of the inserts. -/
theorem batch_log_order_independent (events : List BatchLog.Event) (n : Nat) (schedule : BatchLog.Schedule events n) :
    ∃ emitted, (BatchLog.init.run events).map Prod.fst = .ok emitted ∧
      emitted.map Prod.fst = List.range n ∧ (emitted.map fun entry => entry.2.id).Nodup ∧
      (∀ entry ∈ emitted, (∃ factor, .addSlot entry.1 entry.2.id factor ∈ events) ∧ .addBatch entry.2 ∈ events) ∧
      (∀ events', events'.Perm events → (BatchLog.init.run events').map Prod.fst = .ok emitted) ∧
      (∀ done rest, events = done ++ rest → ∃ soFar, (BatchLog.init.run done).map Prod.fst = .ok soFar ∧
        ∀ entry ∈ soFar, .addBatch entry.2 ∈ done ∧ ∃ factor, .addSlot entry.1 entry.2.id factor ∈ done ∧
          (done.count (.ackReplication entry.2.id) : Int) = factor) ∧
      ∀ {α : Type} (inserts : List (Nat × α)), (inserts.map Prod.fst).Nodup → ∃ read stop,
        (AsyncLog.empty.insertAll inserts).map Prod.fst = .ok read ∧
        IsFrontier (· ∈ inserts.map Prod.fst) 0 stop ∧ read.map Prod.fst = List.range stop ∧
        (∀ entry ∈ read, entry ∈ inserts) ∧
        ∀ inserts', inserts'.Perm inserts → (AsyncLog.empty.insertAll inserts').map Prod.fst = .ok read := by
  obtain ⟨emitted, log, ran, positions, entries⟩ := schedule.run
  have distinct : emitted.Nodup := List.Nodup.of_map Prod.fst (positions ▸ List.nodup_range)
  refine ⟨emitted, by simp [ran, Except.map], positions, ?_, entries, ?_, ?_, ?_⟩
  · refine distinct.map_on (fun first member second member' sameId => ?_)
    obtain ⟨⟨factor, slotFirst⟩, -⟩ := entries first member
    obtain ⟨⟨factor', slotSecond⟩, -⟩ := entries second member'
    have sameSlot := eq_of_nodup_filterMap schedule.slotted slotFirst slotSecond rfl
      (by simp [BatchLog.Event.slottedOf, sameId])
    simp only [BatchLog.Event.addSlot.injEq] at sameSlot
    exact schedule.entry_eq (entries first member) (entries second member') sameSlot.1
  · intro events' perm
    have schedule' := schedule.perm perm
    obtain ⟨emitted', log', ran', positions', entries'⟩ := schedule'.run
    rw [ran']
    simp only [Except.map]
    congr 1
    refine eq_of_map_fst_eq (positions'.trans positions.symm) (fun first member second member' same => ?_)
    obtain ⟨⟨factor, slot⟩, added⟩ := entries' first member
    exact schedule.entry_eq ⟨⟨factor, perm.subset slot⟩, perm.subset added⟩ (entries second member') same
  · intro done rest split
    obtain ⟨soFar, log, ran, entries⟩ := schedule.emitted_prefix done rest split
    exact ⟨soFar, by simp [ran, Except.map], entries⟩
  · intro α inserts distinct
    obtain ⟨read, stop, ran, frontier, positions, entries⟩ := AsyncLog.insertAll_empty inserts distinct
    exact ⟨read, stop, ran, frontier, positions, entries, fun _ perm => AsyncLog.insertAll_perm distinct perm ran⟩

/-- The calls of the `OutOfOrder` test: both batches first, then slot 1 and then slot 0. -/
def outOfOrderEvents : List BatchLog.Event :=
  [.addBatch ⟨200, []⟩, .addBatch ⟨100, []⟩, .addSlot 1 100 0, .addSlot 0 200 0]

theorem outOfOrder_schedule : BatchLog.Schedule outOfOrderEvents 2 where
  slots := by decide
  slotted := by decide
  batches := by decide
  added := by
    intro slotId batchId factor member
    simp only [outOfOrderEvents, List.mem_cons, reduceCtorEq, BatchLog.Event.addSlot.injEq, false_or,
      List.not_mem_nil, or_false] at member
    rcases member with ⟨-, rfl, -⟩ | ⟨-, rfl, -⟩
    · exact ⟨⟨100, []⟩, by simp [outOfOrderEvents], rfl⟩
    · exact ⟨⟨200, []⟩, by simp [outOfOrderEvents], rfl⟩
  acked := by
    intro slotId batchId factor member
    simp only [outOfOrderEvents, List.mem_cons, reduceCtorEq, BatchLog.Event.addSlot.injEq, false_or,
      List.not_mem_nil, or_false] at member
    rcases member with ⟨-, rfl, rfl⟩ | ⟨-, rfl, rfl⟩ <;> decide

theorem outOfOrder_emits_in_slot_order : ∃ emitted,
    (BatchLog.init.run outOfOrderEvents).map Prod.fst = .ok emitted ∧ emitted.map Prod.fst = List.range 2 := by
  obtain ⟨emitted, ran, positions, -⟩ := batch_log_order_independent outOfOrderEvents 2 outOfOrder_schedule
  exact ⟨emitted, ran, positions⟩

example : (BatchLog.init.run outOfOrderEvents).map (fun result => result.1.map fun entry => (entry.1, entry.2.id)) =
    .ok [(0, 200), (1, 100)] := by
  decide

end Slog
