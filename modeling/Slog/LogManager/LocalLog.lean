/-
`LocalLog` (`module/log_manager.cpp`): the batches of the region's batchers merged in the order of
the local Paxos slots; the log refines `Tally`, so the order of the events plays no part.
-/

import Slog.Common.AsyncLog

namespace Slog

open Frontier

/-- The state of a `LocalLog`: the slots in Paxos order, each with its queue id and its leader;
the batch ids of each queue; and the slots ready to go out, each with its batch id and leader. -/
structure LocalLog where
  slots : AsyncLog (Nat × Nat)
  batchQueues : Nat → Option (AsyncLog Nat)
  readyBatches : List (Nat × (Nat × Nat))

namespace LocalLog

def init : LocalLog := ⟨AsyncLog.empty, fun _ => none, []⟩

/-- A queue of the log; `batch_queues_[queue_id]` makes an empty one where there is none. -/
def queue (log : LocalLog) (queueId : Nat) : AsyncLog Nat := (log.batchQueues queueId).getD AsyncLog.empty

/-- One pass of the loop of `UpdateReadyBatches`: the next slot goes out with the next batch of
its queue once both are there. `Next` fails exactly when `HasNext` is false. -/
def readyStep (log : LocalLog) : Option LocalLog :=
  match log.slots.next with
  | .error _ => none
  | .ok ((slot, (queueId, leader)), slots) =>
      match log.batchQueues queueId with
      | none => none
      | some queue =>
          match queue.next with
          | .error _ => none
          | .ok ((_, batchId), queue) =>
              some { slots := slots
                     batchQueues := Function.update log.batchQueues queueId (some queue)
                     readyBatches := log.readyBatches ++ [(slot, (batchId, leader))] }

/-- Each pass takes one buffered slot, so their count bounds the passes. -/
def updateReadyBatches (log : LocalLog) : LocalLog :=
  whileSome readyStep log.slots.numBufferedItems log

def addBatchId (log : LocalLog) (queueId position batchId : Nat) : Except String LocalLog := do
  let queue ← (log.queue queueId).insert position batchId
  pure (updateReadyBatches { log with batchQueues := Function.update log.batchQueues queueId (some queue) })

def addSlot (log : LocalLog) (slotId queueId leader : Nat) : Except String LocalLog := do
  let slots ← log.slots.insert slotId (queueId, leader)
  pure (updateReadyBatches { log with slots := slots })

def hasNextBatch (log : LocalLog) : Bool := !log.readyBatches.isEmpty

def nextBatch (log : LocalLog) : Except String ((Nat × (Nat × Nat)) × LocalLog) :=
  match log.readyBatches with
  | [] => .error "NextBatch() was called when there is no batch"
  | entry :: rest => .ok (entry, { log with readyBatches := rest })

/-- The calls the local log gets: a batch of a queue at its position, from
`ProcessForwardBatchData`, and a slot with its queue and leader, from
`ProcessForwardBatchOrder`. -/
inductive Event where
  | addBatchId (queueId position batchId : Nat)
  | addSlot (slotId queueId leader : Nat)
  deriving DecidableEq, Repr

def apply (log : LocalLog) : Event → Except String LocalLog
  | .addBatchId queueId position batchId => log.addBatchId queueId position batchId
  | .addSlot slotId queueId leader => log.addSlot slotId queueId leader

/-- Calling `NextBatch` while `HasNextBatch`, for at most `fuel` batches. -/
def drain : Nat → LocalLog → Except String (List (Nat × (Nat × Nat)) × LocalLog)
  | 0, log => .ok ([], log)
  | fuel + 1, log =>
      if log.hasNextBatch then do
        let (entry, log) ← log.nextBatch
        let (rest, log) ← drain fuel log
        pure (entry :: rest, log)
      else .ok ([], log)

/-- A run: each event, then every batch that became ready, as `AdvanceLog` reads them after each
request. -/
def run : List Event → LocalLog → Except String (List (Nat × (Nat × Nat)) × LocalLog)
  | [], log => .ok ([], log)
  | event :: rest, log => do
      let log ← log.apply event
      let (emitted, log) ← drain log.readyBatches.length log
      let (later, log) ← run rest log
      pure (emitted ++ later, log)

/-- What the events so far have brought, in no order: the queue and leader of each slot, and
the batch id at each position of each queue. -/
@[ext]
structure Tally where
  slots : Nat → Option (Nat × Nat)
  queues : Nat → Nat → Option Nat

namespace Tally

def empty : Tally := ⟨fun _ => none, fun _ _ => none⟩

def record (tally : Tally) : Event → Tally
  | .addBatchId queueId position batchId => { tally with
      queues := Function.update tally.queues queueId
        (Function.update (tally.queues queueId) position (some batchId)) }
  | .addSlot slotId queueId leader => { tally with
      slots := Function.update tally.slots slotId (some (queueId, leader)) }

/-- The number of slots before `slot` given to the queue: which of the queue's batches the slot
takes. -/
def rank (tally : Tally) (slot queueId : Nat) : Nat :=
  (List.range slot).countP fun earlier => (tally.slots earlier).map Prod.fst == some queueId

/-- What the merge of the queues gives a slot: the batch of its queue at its rank, and its
leader. -/
def merged (tally : Tally) (slot : Nat) : Option (Nat × Nat) := do
  let (queueId, leader) ← tally.slots slot
  let batchId ← tally.queues queueId (tally.rank slot queueId)
  pure (batchId, leader)

def Placed (tally : Tally) (slot : Nat) : Prop := (tally.merged slot).isSome

/-- An event that distinct slot ids and distinct positions in each queue allow after those
tallied. -/
def Admits (tally : Tally) : Event → Prop
  | .addBatchId queueId position _ => tally.queues queueId position = none
  | .addSlot slotId _ _ => tally.slots slotId = none

/-- Each event is admitted after those before it. -/
def AdmitsAll (tally : Tally) : List Event → Prop
  | [] => True
  | event :: rest => tally.Admits event ∧ (tally.record event).AdmitsAll rest

variable {tally : Tally} {event : Event} {events : List Event} {slot queueId : Nat}

theorem merged_eq_some {entry : Nat × Nat} :
    tally.merged slot = some entry ↔ ∃ queueId, tally.slots slot = some (queueId, entry.2) ∧
      tally.queues queueId (tally.rank slot queueId) = some entry.1 := by
  obtain ⟨batchId, leader⟩ := entry
  cases assigned : tally.slots slot with
  | none => simp [merged, assigned]
  | some slotted =>
      obtain ⟨queueId, leader'⟩ := slotted
      cases stored : tally.queues queueId (tally.rank slot queueId) with
      | none => simp [merged, assigned, stored]
      | some batchId' => simp [merged, assigned, stored, and_comm]

/-- The next slot of a queue takes the batch after the one its slot took. -/
theorem rank_succ {leader : Nat} (assigned : tally.slots slot = some (queueId, leader)) (other : Nat) :
    tally.rank (slot + 1) other = tally.rank slot other + if other = queueId then 1 else 0 := by
  by_cases mine : other = queueId
  · simp [rank, List.range_succ, List.countP_append, assigned, mine]
  · simp [rank, List.range_succ, List.countP_append, assigned, mine, Ne.symm mine]

/-- An admitted event leaves the ranks of a slot alone once every slot before it is given. -/
theorem rank_record (admits : tally.Admits event) (below : ∀ earlier, earlier < slot → (tally.slots earlier).isSome)
    (queueId : Nat) : (tally.record event).rank slot queueId = tally.rank slot queueId := by
  cases event with
  | addBatchId other position batchId => rfl
  | addSlot slotId other leader =>
      refine List.countP_congr (fun earlier member => ?_)
      have given := below earlier (List.mem_range.mp member)
      have differs : earlier ≠ slotId := fun same => by
        rw [same, show tally.slots slotId = none from admits] at given
        cases given
      simp [Tally.record, Function.update_of_ne differs]

theorem slots_record {entry : Nat × Nat} (admits : tally.Admits event) (assigned : tally.slots slot = some entry) :
    (tally.record event).slots slot = some entry := by
  cases event with
  | addSlot slotId other leader =>
      have differs : slot ≠ slotId := fun same => by
        rw [same, show tally.slots slotId = none from admits] at assigned
        cases assigned
      simp [Tally.record, Function.update_of_ne differs, assigned]
  | addBatchId other position batchId => exact assigned

theorem queues_record {position batchId : Nat} (admits : tally.Admits event)
    (stored : tally.queues queueId position = some batchId) :
    (tally.record event).queues queueId position = some batchId := by
  cases event with
  | addBatchId other otherPosition otherBatch =>
      by_cases same : queueId = other ∧ position = otherPosition
      · obtain ⟨rfl, rfl⟩ := same
        rw [show tally.queues queueId position = none from admits] at stored
        cases stored
      · simp only [Tally.record, Function.update_apply]
        split_ifs with mine
        · subst mine
          simp [show position ≠ otherPosition from fun samePosition => same ⟨rfl, samePosition⟩, stored]
        · exact stored
  | addSlot slotId other leader => exact stored

/-- A slot's entry stays once every slot before it is given. -/
theorem merged_record {entry : Nat × Nat} (admits : tally.Admits event)
    (below : ∀ earlier, earlier < slot → (tally.slots earlier).isSome) (found : tally.merged slot = some entry) :
    (tally.record event).merged slot = some entry := by
  obtain ⟨queueId, assigned, stored⟩ := merged_eq_some.mp found
  exact merged_eq_some.mpr ⟨queueId, slots_record admits assigned,
    by rw [rank_record admits below]; exact queues_record admits stored⟩

theorem isSome_record (given : (tally.slots slot).isSome) : ((tally.record event).slots slot).isSome := by
  cases event with
  | addSlot slotId other leader =>
      by_cases same : slot = slotId
      · simp [Tally.record, same]
      · simpa [Tally.record, Function.update_of_ne same] using given
  | addBatchId other position batchId => exact given

theorem merged_recordAll {entry : Nat × Nat} (admitted : tally.AdmitsAll events)
    (below : ∀ earlier, earlier < slot → (tally.slots earlier).isSome) (found : tally.merged slot = some entry) :
    (events.foldl Tally.record tally).merged slot = some entry := by
  induction events generalizing tally with
  | nil => exact found
  | cons event rest ih =>
      exact ih admitted.2 (fun earlier early => isSome_record (below earlier early))
        (merged_record admitted.1 below found)

theorem AdmitsAll.left {rest : List Event} (admitted : tally.AdmitsAll (events ++ rest)) : tally.AdmitsAll events := by
  induction events generalizing tally with
  | nil => trivial
  | cons event done ih => exact ⟨admitted.1, ih admitted.2⟩

theorem slots_recordAll {entry : Nat × Nat} (admitted : tally.AdmitsAll events)
    (assigned : tally.slots slot = some entry) : (events.foldl Tally.record tally).slots slot = some entry := by
  induction events generalizing tally with
  | nil => exact assigned
  | cons event rest ih => exact ih admitted.2 (slots_record admitted.1 assigned)

theorem queues_recordAll {position batchId : Nat} (admitted : tally.AdmitsAll events)
    (stored : tally.queues queueId position = some batchId) :
    (events.foldl Tally.record tally).queues queueId position = some batchId := by
  induction events generalizing tally with
  | nil => exact stored
  | cons event rest ih => exact ih admitted.2 (queues_record admitted.1 stored)

/-- A slot the tally of some events gives was given before them or by one of them. -/
theorem slots_foldl (events : List Event) {entry : Nat × Nat}
    (assigned : (events.foldl Tally.record tally).slots slot = some entry) :
    tally.slots slot = some entry ∨ .addSlot slot entry.1 entry.2 ∈ events := by
  induction events generalizing tally with
  | nil => exact Or.inl assigned
  | cons event rest ih =>
      rcases ih assigned with earlier | later
      · cases event with
        | addSlot slotId other leader =>
            by_cases same : slot = slotId
            · subst same
              simp only [Tally.record, Function.update_self, Option.some.injEq] at earlier
              exact Or.inr (by simp [← earlier])
            · exact Or.inl (by simpa [Tally.record, Function.update_of_ne same] using earlier)
        | addBatchId other position batchId => exact Or.inl earlier
      · exact Or.inr (List.mem_cons_of_mem _ later)

theorem queues_foldl (events : List Event) {position batchId : Nat}
    (stored : (events.foldl Tally.record tally).queues queueId position = some batchId) :
    tally.queues queueId position = some batchId ∨ .addBatchId queueId position batchId ∈ events := by
  induction events generalizing tally with
  | nil => exact Or.inl stored
  | cons event rest ih =>
      rcases ih stored with earlier | later
      · cases event with
        | addBatchId other otherPosition otherBatch =>
            by_cases same : queueId = other ∧ position = otherPosition
            · obtain ⟨rfl, rfl⟩ := same
              simp only [Tally.record, Function.update_self, Option.some.injEq] at earlier
              exact Or.inr (by simp [earlier])
            · refine Or.inl ?_
              simp only [Tally.record, Function.update_apply] at earlier
              split_ifs at earlier with mine
              · subst mine
                simpa [show position ≠ otherPosition from fun samePosition => same ⟨rfl, samePosition⟩]
                  using earlier
              · exact earlier
        | addSlot slotId other leader => exact Or.inl earlier
      · exact Or.inr (List.mem_cons_of_mem _ later)

theorem slots_of_mem {leader : Nat} (admitted : tally.AdmitsAll events)
    (member : .addSlot slot queueId leader ∈ events) :
    (events.foldl Tally.record tally).slots slot = some (queueId, leader) := by
  induction events generalizing tally with
  | nil => simp at member
  | cons event rest ih =>
      rcases List.mem_cons.mp member with same | later
      · subst same
        rw [List.foldl_cons]
        exact slots_recordAll admitted.2 (by simp [Tally.record])
      · exact ih admitted.2 later

theorem queues_of_mem {position batchId : Nat} (admitted : tally.AdmitsAll events)
    (member : .addBatchId queueId position batchId ∈ events) :
    (events.foldl Tally.record tally).queues queueId position = some batchId := by
  induction events generalizing tally with
  | nil => simp at member
  | cons event rest ih =>
      rcases List.mem_cons.mp member with same | later
      · subst same
        rw [List.foldl_cons]
        exact queues_recordAll admitted.2 (by simp [Tally.record])
      · exact ih admitted.2 later

end Tally

/-- The local log holds what the tallied events brought: its slot log holds their slots, each
queue holds their batches for it, and each queue is read up to the rank of the next slot. -/
structure Refines (tally : Tally) (log : LocalLog) : Prop where
  slots : log.slots.Holds tally.slots
  queues : ∀ queueId, (log.queue queueId).Holds (tally.queues queueId)
  positions : ∀ queueId, (log.queue queueId).nextPosition = tally.rank log.slots.nextPosition queueId

/-- The slots waiting in `ready_batches_`: those from `start` up to `next_`, each with its
entry of the merge. -/
structure Queued (tally : Tally) (log : LocalLog) (start : Nat) : Prop where
  le : start ≤ log.slots.nextPosition
  positions : log.readyBatches.map Prod.fst = List.range' start (log.slots.nextPosition - start)
  entries : ∀ entry ∈ log.readyBatches, tally.merged entry.1 = some entry.2

variable {tally : Tally} {log log' : LocalLog} {start : Nat}

theorem refines_init : Refines Tally.empty init where
  slots := AsyncLog.holds_empty
  queues := fun _ => AsyncLog.holds_empty
  positions := fun _ => rfl

theorem Queued.below (queued : Queued tally log start) {entry : Nat × (Nat × Nat)}
    (member : entry ∈ log.readyBatches) : entry.1 < log.slots.nextPosition := by
  have listed := List.mem_map_of_mem (f := Prod.fst) member
  rw [queued.positions, List.mem_range'_1] at listed
  have := queued.le
  omega

theorem readyStep_none (refines : Refines tally log) (declined : readyStep log = none) :
    ¬ tally.Placed log.slots.nextPosition := by
  intro placed
  obtain ⟨entry, found⟩ := Option.isSome_iff_exists.mp placed
  obtain ⟨queueId, assigned, stored⟩ := Tally.merged_eq_some.mp found
  obtain ⟨slots, taken, -⟩ := refines.slots.next assigned
  rw [← refines.positions queueId] at stored
  obtain ⟨queue', taken', -⟩ := (refines.queues queueId).next stored
  cases held : log.batchQueues queueId with
  | none => simp [LocalLog.queue, held, AsyncLog.empty, AsyncLog.next] at taken'
  | some queue =>
      simp only [LocalLog.queue, held, Option.getD_some] at taken'
      simp [readyStep, taken, held, taken'] at declined

/-- A pass of `UpdateReadyBatches` sends out the next slot, which is placed, and moves on. -/
theorem readyStep_some (refines : Refines tally log) (queued : Queued tally log start)
    (stepped : readyStep log = some log') :
    tally.Placed log.slots.nextPosition ∧ (Refines tally log' ∧ Queued tally log' start) ∧
      log'.slots.nextPosition = log.slots.nextPosition + 1 ∧
      log'.slots.numBufferedItems < log.slots.numBufferedItems := by
  cases assigned : tally.slots log.slots.nextPosition with
  | none => simp [readyStep, refines.slots.next_eq_error assigned] at stepped
  | some slotted =>
      obtain ⟨queueId, leader⟩ := slotted
      obtain ⟨slots, taken, holds, moved, fewer⟩ := refines.slots.next assigned
      cases held : log.batchQueues queueId with
      | none => simp [readyStep, taken, held] at stepped
      | some queue =>
          have same : log.queue queueId = queue := by simp [LocalLog.queue, held]
          have queueHolds : queue.Holds (tally.queues queueId) := same ▸ refines.queues queueId
          have position : queue.nextPosition = tally.rank log.slots.nextPosition queueId :=
            same ▸ refines.positions queueId
          cases stored : tally.queues queueId queue.nextPosition with
          | none => simp [readyStep, taken, held, queueHolds.next_eq_error stored] at stepped
          | some batchId =>
              obtain ⟨queue', taken', holds', moved', -⟩ := queueHolds.next stored
              simp only [readyStep, taken, held, taken', Option.some.injEq] at stepped
              subst stepped
              have found : tally.merged log.slots.nextPosition = some (batchId, leader) :=
                Tally.merged_eq_some.mpr ⟨queueId, assigned, position ▸ stored⟩
              have shorter : slots.numBufferedItems < log.slots.numBufferedItems := by omega
              refine ⟨by simp [Tally.Placed, found], ⟨⟨holds, ?_, ?_⟩, ⟨?_, ?_, ?_⟩⟩, moved, shorter⟩
              · intro other
                by_cases mine : other = queueId
                · subst mine
                  simpa [LocalLog.queue] using holds'
                · simpa [LocalLog.queue, Function.update_of_ne mine] using refines.queues other
              · intro other
                change (((Function.update log.batchQueues queueId (some queue')) other).getD
                  AsyncLog.empty).nextPosition = tally.rank slots.nextPosition other
                rw [moved, Tally.rank_succ assigned]
                by_cases mine : other = queueId
                · subst mine
                  simp [moved', position]
                · simpa [LocalLog.queue, Function.update_of_ne mine, mine] using refines.positions other
              · change start ≤ slots.nextPosition
                have := queued.le
                omega
              · change (log.readyBatches ++ [(log.slots.nextPosition, (batchId, leader))]).map Prod.fst =
                  List.range' start (slots.nextPosition - start)
                rw [moved]
                exact map_fst_concat_range' queued.le queued.positions _
              · intro entry member
                rcases List.mem_append.mp member with waiting | latest
                · exact queued.entries entry waiting
                · simp only [List.mem_singleton] at latest
                  subst latest
                  exact found

/-- `UpdateReadyBatches` sends out the slots up to the first one not placed. -/
theorem updateReadyBatches_spec (refines : Refines tally log) (queued : Queued tally log start) :
    (Refines tally log.updateReadyBatches ∧ Queued tally log.updateReadyBatches start) ∧
      IsFrontier tally.Placed log.slots.nextPosition log.updateReadyBatches.slots.nextPosition :=
  whileSome_spec (fun state => Refines tally state ∧ Queued tally state start)
    (fun state => state.slots.nextPosition) (fun state => state.slots.numBufferedItems)
    (fun _ holds declined => readyStep_none holds.1 declined)
    (fun _ _ holds stepped => readyStep_some holds.1 holds.2 stepped)
    (fun _ holds emptied => by
      cases stepped : readyStep _ with
      | none => rfl
      | some next =>
          have := (readyStep_some holds.1 holds.2 stepped).2.2.2
          omega)
    _ log ⟨refines, queued⟩ (Nat.le_refl _)

theorem queued_of_drained (drained : log.readyBatches = []) : Queued tally log log.slots.nextPosition where
  le := Nat.le_refl _
  positions := by simp [drained]
  entries := by simp [drained]

/-- The part of a local log that an event leaves to `UpdateReadyBatches` refines the tally with
the event. -/
theorem Refines.record (refines : Refines tally log) {event : Event} (admits : tally.Admits event)
    {direct : LocalLog} (slots : direct.slots.Holds (tally.record event).slots)
    (moved : direct.slots.nextPosition = log.slots.nextPosition)
    (queues : ∀ queueId, (direct.queue queueId).Holds ((tally.record event).queues queueId))
    (positions : ∀ queueId, (direct.queue queueId).nextPosition = (log.queue queueId).nextPosition) :
    Refines (tally.record event) direct where
  slots := slots
  queues := queues
  positions := fun queueId => by
    rw [positions, refines.positions, moved,
      Tally.rank_record admits (fun earlier below => refines.slots.read earlier below)]

/-- Each call of the local log, on an event the tally admits, refines the tally with the event
and sends out the slots up to the first one not placed. -/
theorem Refines.apply (refines : Refines tally log) (drained : log.readyBatches = []) {event : Event}
    (admits : tally.Admits event) :
    ∃ log', log.apply event = .ok log' ∧
      (Refines (tally.record event) log' ∧ Queued (tally.record event) log' log.slots.nextPosition) ∧
      IsFrontier (tally.record event).Placed log.slots.nextPosition log'.slots.nextPosition := by
  cases event with
  | addBatchId queueId position batchId =>
      obtain ⟨queue, inserted, holds, moved, -⟩ := (refines.queues queueId).insert admits batchId
      have direct : Refines (tally.record (.addBatchId queueId position batchId))
          { log with batchQueues := Function.update log.batchQueues queueId (some queue) } := by
        refine refines.record admits refines.slots rfl (fun other => ?_) (fun other => ?_)
        · by_cases mine : other = queueId
          · subst mine
            simpa [LocalLog.queue, Tally.record] using holds
          · simpa [LocalLog.queue, Tally.record, Function.update_of_ne mine] using refines.queues other
        · by_cases mine : other = queueId
          · subst mine
            simpa [LocalLog.queue] using moved
          · simp [LocalLog.queue, Function.update_of_ne mine]
      have spec := updateReadyBatches_spec direct (queued_of_drained drained)
      exact ⟨_, by simp [LocalLog.apply, addBatchId, inserted], spec⟩
  | addSlot slotId queueId leader =>
      obtain ⟨slots, inserted, holds, moved, -⟩ := refines.slots.insert admits (queueId, leader)
      have direct : Refines (tally.record (.addSlot slotId queueId leader)) { log with slots := slots } :=
        refines.record admits holds moved refines.queues (fun _ => rfl)
      have spec := updateReadyBatches_spec direct (queued_of_drained drained)
      refine ⟨_, by simp [LocalLog.apply, addSlot, inserted]; rfl, ?_⟩
      simpa [moved] using spec

/-- `NextBatch` while `HasNextBatch` hands out the waiting slots as they stand. -/
theorem drain_readyBatches (log : LocalLog) :
    drain log.readyBatches.length log = .ok (log.readyBatches, { log with readyBatches := [] }) := by
  obtain ⟨ready, waiting⟩ : ∃ ready, log.readyBatches = ready := ⟨_, rfl⟩
  induction ready generalizing log with
  | nil =>
      cases log
      simp_all [drain]
  | cons entry rest ih =>
      have taken := ih { log with readyBatches := rest } rfl
      simp only [waiting, List.length_cons, drain, hasNextBatch, List.isEmpty_cons, Bool.not_false,
        if_true, nextBatch]
      simp [bind, Except.bind, taken, pure, Except.pure]

/-- A run from a drained log, on events each admitted after those before, refines the tally of
the events and emits the slots from `next_` up to the first one not placed, in order and each
with its entry of the merge. -/
theorem run_spec (events : List Event) (refines : Refines tally log) (drained : log.readyBatches = [])
    (stopped : ¬ tally.Placed log.slots.nextPosition) (admitted : tally.AdmitsAll events) :
    ∃ emitted log', log.run events = .ok (emitted, log') ∧
      (Refines (events.foldl Tally.record tally) log' ∧ log'.readyBatches = []) ∧
      IsFrontier (events.foldl Tally.record tally).Placed log.slots.nextPosition log'.slots.nextPosition ∧
      emitted.map Prod.fst =
        List.range' log.slots.nextPosition (log'.slots.nextPosition - log.slots.nextPosition) ∧
      ∀ entry ∈ emitted, (events.foldl Tally.record tally).merged entry.1 = some entry.2 := by
  induction events generalizing tally log with
  | nil => exact ⟨[], log, rfl, ⟨refines, drained⟩, isFrontier_self stopped, by simp, by simp⟩
  | cons event rest ih =>
      obtain ⟨admits, later⟩ := admitted
      simp only [List.foldl_cons]
      obtain ⟨applied, stepped, ⟨refines₁, queued₁⟩, frontier₁⟩ := refines.apply drained admits
      let drainedLog : LocalLog := { applied with readyBatches := [] }
      have refines₂ : Refines (tally.record event) drainedLog := ⟨refines₁.slots, refines₁.queues, refines₁.positions⟩
      obtain ⟨emitted₂, final, ran, refinesFinal, frontier₂, positionsFinal, entriesFinal⟩ :=
        ih refines₂ rfl frontier₁.blocked later
      have given : ∀ slot, slot < applied.slots.nextPosition →
          ∀ earlier, earlier < slot → ((tally.record event).slots earlier).isSome :=
        fun slot below earlier early => refines₁.slots.read earlier (by omega)
      refine ⟨applied.readyBatches ++ emitted₂, final, ?_, refinesFinal, ?_, ?_, ?_⟩
      · simp [run, stepped, drain_readyBatches, ran, bind, Except.bind, pure, Except.pure, drainedLog]
      · refine frontier₂.extend (fun slot low high => ?_) frontier₁.le
        obtain ⟨entry, found⟩ := Option.isSome_iff_exists.mp (frontier₁.below slot low high)
        simp [Tally.Placed, Tally.merged_recordAll later (given slot high) found]
      · rw [List.map_append, queued₁.positions, positionsFinal]
        exact range'_append_range' frontier₁.le frontier₂.le
      · intro entry member
        rcases List.mem_append.mp member with early | late
        · exact Tally.merged_recordAll later (given entry.1 (queued₁.below early)) (queued₁.entries entry early)
        · exact entriesFinal entry late

/-- The tally of a run's events from the empty log. -/
def tallyOf (events : List Event) : Tally := events.foldl Tally.record Tally.empty

/-- The slot id an event gives. -/
def Event.slotOf : Event → Option Nat
  | .addSlot slotId _ _ => some slotId
  | .addBatchId .. => none

/-- The position an event gives a batch of the queue. -/
def Event.positionIn (queueId : Nat) : Event → Option Nat
  | .addBatchId queue position _ => if queue = queueId then some position else none
  | .addSlot .. => none

/-- The events of a local log: slot ids 0 to `n - 1`, each given once, and for each queue the
positions 0 to `sizes queueId - 1`, each given once. -/
structure Schedule (events : List Event) (n : Nat) (sizes : Nat → Nat) : Prop where
  slots : (events.filterMap Event.slotOf).Perm (List.range n)
  positions : ∀ queueId, (events.filterMap (Event.positionIn queueId)).Perm (List.range (sizes queueId))

variable {events : List Event} {n : Nat} {sizes : Nat → Nat}

/-- Under a schedule every event is admitted after those before it. -/
theorem Schedule.admitsAll (schedule : Schedule events n sizes) :
    ∀ done rest, events = done ++ rest → (tallyOf done).AdmitsAll rest := by
  intro done rest split
  induction rest generalizing done with
  | nil => trivial
  | cons event rest ih =>
      refine ⟨?_, by simpa [tallyOf] using ih (done ++ [event]) (by simp [split])⟩
      cases event with
      | addBatchId queueId position batchId =>
          cases stored : (tallyOf done).queues queueId position with
          | none => exact stored
          | some other =>
              have member := (Tally.queues_foldl done stored).resolve_left (by simp [Tally.empty])
              have distinct := (schedule.positions queueId).nodup_iff.mpr List.nodup_range
              rw [split] at distinct
              exact absurd (show Event.positionIn queueId (.addBatchId queueId position batchId) = some position by
                simp [Event.positionIn]) (filterMap_apart distinct member (by simp [Event.positionIn]))
      | addSlot slotId queueId leader =>
          cases assigned : (tallyOf done).slots slotId with
          | none => exact assigned
          | some other =>
              have member := (Tally.slots_foldl done assigned).resolve_left (by simp [Tally.empty])
              have distinct := schedule.slots.nodup_iff.mpr List.nodup_range
              rw [split] at distinct
              exact absurd (show Event.slotOf (.addSlot slotId queueId leader) = some slotId from rfl)
                (filterMap_apart distinct member rfl)

theorem Schedule.admitted (schedule : Schedule events n sizes) : Tally.empty.AdmitsAll events := by
  simpa [tallyOf] using schedule.admitsAll [] events rfl

/-- Under a schedule the tally gives a slot exactly the queue and leader its `AddSlot` names. -/
theorem Schedule.slots_iff (schedule : Schedule events n sizes) {slot queueId leader : Nat} :
    (tallyOf events).slots slot = some (queueId, leader) ↔ .addSlot slot queueId leader ∈ events := by
  constructor
  · intro assigned
    exact (Tally.slots_foldl events assigned).resolve_left (by simp [Tally.empty])
  · exact Tally.slots_of_mem schedule.admitted

/-- Under a schedule the tally puts at a position of a queue exactly the batch its `AddBatchId`
names. -/
theorem Schedule.queues_iff (schedule : Schedule events n sizes) {queueId position batchId : Nat} :
    (tallyOf events).queues queueId position = some batchId ↔ .addBatchId queueId position batchId ∈ events := by
  constructor
  · intro stored
    exact (Tally.queues_foldl events stored).resolve_left (by simp [Tally.empty])
  · exact Tally.queues_of_mem schedule.admitted

/-- A schedule is one whatever the order of its events. -/
theorem Schedule.perm (schedule : Schedule events n sizes) {events' : List Event} (perm : events'.Perm events) :
    Schedule events' n sizes where
  slots := (perm.filterMap _).trans schedule.slots
  positions := fun queueId => (perm.filterMap _).trans (schedule.positions queueId)

/-- Under a schedule the tally does not depend on the order of the events. -/
theorem Schedule.tallyOf_perm (schedule : Schedule events n sizes) {events' : List Event}
    (perm : events'.Perm events) : tallyOf events' = tallyOf events := by
  have schedule' := schedule.perm perm
  ext slot entry position
  · obtain ⟨queueId, leader⟩ := entry
    rw [schedule'.slots_iff, schedule.slots_iff]
    exact perm.mem_iff
  · rw [schedule'.queues_iff, schedule.queues_iff]
    exact perm.mem_iff

/-- A run from the empty log under a schedule emits the slots from 0 in order, up to the first
one not placed, each with its entry of the merge. -/
theorem Schedule.run (schedule : Schedule events n sizes) :
    ∃ emitted log, init.run events = .ok (emitted, log) ∧
      IsFrontier (tallyOf events).Placed 0 log.slots.nextPosition ∧
      emitted.map Prod.fst = List.range log.slots.nextPosition ∧
      ∀ entry ∈ emitted, (tallyOf events).merged entry.1 = some entry.2 := by
  have unplaced : ¬ Tally.empty.Placed init.slots.nextPosition := by
    simp [Tally.Placed, Tally.merged, Tally.empty]
  obtain ⟨emitted, log, ran, -, frontier, positions, entries⟩ :=
    run_spec events refines_init rfl unplaced schedule.admitted
  refine ⟨emitted, log, ran, frontier, ?_, entries⟩
  rw [positions]
  simp [init, AsyncLog.empty, List.range_eq_range']

/-- Slot `n` is never placed, so the merge stops at `n` at the latest. -/
theorem Schedule.frontier_le (schedule : Schedule events n sizes) {stop : Nat}
    (frontier : IsFrontier (tallyOf events).Placed 0 stop) : stop ≤ n := by
  refine Nat.le_of_not_lt (fun beyond => ?_)
  obtain ⟨entry, found⟩ := Option.isSome_iff_exists.mp (frontier.below n (Nat.zero_le n) beyond)
  obtain ⟨queueId, assigned, -⟩ := Tally.merged_eq_some.mp found
  have listed : n ∈ events.filterMap Event.slotOf :=
    List.mem_filterMap.mpr ⟨_, schedule.slots_iff.mp assigned, rfl⟩
  simpa using schedule.slots.subset listed

/-- When every slot's rank is a position its queue has, the merge reaches slot `n`. -/
theorem Schedule.frontier_eq (schedule : Schedule events n sizes)
    (within : ∀ slot queueId leader, .addSlot slot queueId leader ∈ events →
      (tallyOf events).rank slot queueId < sizes queueId)
    {stop : Nat} (frontier : IsFrontier (tallyOf events).Placed 0 stop) : stop = n := by
  refine Nat.le_antisymm (schedule.frontier_le frontier) (Nat.le_of_not_lt (fun short => ?_))
  have listed : stop ∈ events.filterMap Event.slotOf :=
    schedule.slots.mem_iff.mpr (List.mem_range.mpr short)
  obtain ⟨event, member, given⟩ := List.mem_filterMap.mp listed
  cases event with
  | addSlot slotId queueId leader =>
      simp only [Event.slotOf, Option.some.injEq] at given
      subst given
      have position : (tallyOf events).rank slotId queueId ∈ events.filterMap (Event.positionIn queueId) :=
        (schedule.positions queueId).mem_iff.mpr (List.mem_range.mpr (within _ _ _ member))
      obtain ⟨added, addedMember, addedPosition⟩ := List.mem_filterMap.mp position
      cases added with
      | addBatchId queue otherPosition batchId =>
          simp only [Event.positionIn] at addedPosition
          split_ifs at addedPosition with mine
          simp only [Option.some.injEq] at addedPosition
          subst mine addedPosition
          have found : (tallyOf events).merged slotId = some (batchId, leader) :=
            Tally.merged_eq_some.mpr ⟨queue, schedule.slots_iff.mpr member, schedule.queues_iff.mpr addedMember⟩
          exact frontier.blocked (by simp [Tally.Placed, found])
      | addSlot otherSlot otherQueue otherLeader => simp [Event.positionIn] at addedPosition
  | addBatchId queueId position batchId => simp [Event.slotOf] at given

end LocalLog

/-- The local log merges the queues of the region's batches in slot order: whatever the order of
the calls, it emits slot after slot, each with the batch of its queue at the slot's rank among
that queue's slots and with its leader, up to the first slot whose batch has not come, which is
slot `n` once every slot's batch is there; it takes each queue's batches in order, none twice and
none left out. -/
theorem local_log_merges_in_slot_order (events : List LocalLog.Event) (n : Nat) (sizes : Nat → Nat)
    (schedule : LocalLog.Schedule events n sizes) :
    (∀ slot queueId leader, (LocalLog.tallyOf events).slots slot = some (queueId, leader) ↔
      .addSlot slot queueId leader ∈ events) ∧
    (∀ queueId position batchId, (LocalLog.tallyOf events).queues queueId position = some batchId ↔
      .addBatchId queueId position batchId ∈ events) ∧
    ∃ emitted stop, (LocalLog.init.run events).map Prod.fst = .ok emitted ∧
      emitted.map Prod.fst = List.range stop ∧
      (∀ entry ∈ emitted, (LocalLog.tallyOf events).merged entry.1 = some entry.2) ∧
      IsFrontier (LocalLog.tallyOf events).Placed 0 stop ∧ stop ≤ n ∧
      ((∀ slot queueId leader, .addSlot slot queueId leader ∈ events →
        (LocalLog.tallyOf events).rank slot queueId < sizes queueId) → stop = n) ∧
      (∀ queueId, ((emitted.filter fun entry =>
          ((LocalLog.tallyOf events).slots entry.1).map Prod.fst == some queueId).map
        fun entry => (LocalLog.tallyOf events).rank entry.1 queueId) =
          List.range ((LocalLog.tallyOf events).rank stop queueId)) ∧
      ∀ events', events'.Perm events → (LocalLog.init.run events').map Prod.fst = .ok emitted := by
  obtain ⟨emitted, log, ran, frontier, positions, entries⟩ := schedule.run
  refine ⟨fun _ _ _ => schedule.slots_iff, fun _ _ _ => schedule.queues_iff, emitted, log.slots.nextPosition,
    by simp [ran, Except.map], positions, entries, frontier, schedule.frontier_le frontier,
    fun within => schedule.frontier_eq within frontier, fun queueId => ?_, fun events' perm => ?_⟩
  · let chosen := fun earlier => ((LocalLog.tallyOf events).slots earlier).map Prod.fst == some queueId
    calc (emitted.filter fun entry => chosen entry.1).map (fun entry => (LocalLog.tallyOf events).rank entry.1 queueId)
        _ = ((emitted.map Prod.fst).filter chosen).map fun slot => (LocalLog.tallyOf events).rank slot queueId := by
          rw [List.filter_map, List.map_map]
          rfl
        _ = List.range ((LocalLog.tallyOf events).rank log.slots.nextPosition queueId) := by
          rw [positions]
          exact map_countP_filter_range chosen log.slots.nextPosition
  · have schedule' := schedule.perm perm
    obtain ⟨emitted', log', ran', frontier', positions', entries'⟩ := schedule'.run
    rw [schedule.tallyOf_perm perm] at frontier' entries'
    have stop : log'.slots.nextPosition = log.slots.nextPosition := frontier'.unique frontier
    rw [ran']
    simp only [Except.map]
    congr 1
    refine eq_of_map_fst_eq (by rw [positions', positions, stop]) (fun first member second member' same => ?_)
    have found := entries' first member
    rw [same, entries second member', Option.some.injEq] at found
    exact Prod.ext same found.symm

/-- The calls of the "SameOriginOutOfOrder" test: batches 1 and 2 of queue 111, slots 0 and 1, then
batch 0, then slot 2. -/
def sameOriginOutOfOrderEvents : List LocalLog.Event :=
  [.addBatchId 111 1 200, .addBatchId 111 2 300, .addSlot 0 111 0, .addSlot 1 111 0, .addBatchId 111 0 100,
    .addSlot 2 111 0]

theorem sameOriginOutOfOrder_schedule :
    LocalLog.Schedule sameOriginOutOfOrderEvents 3 (fun queueId => if queueId = 111 then 3 else 0) where
  slots := by decide
  positions := by
    intro queueId
    by_cases mine : queueId = 111
    · subst mine
      decide
    · simp [sameOriginOutOfOrderEvents, LocalLog.Event.positionIn, Ne.symm mine, mine]

theorem sameOriginOutOfOrder_merges : ∃ emitted,
    (LocalLog.init.run sameOriginOutOfOrderEvents).map Prod.fst = .ok emitted ∧ emitted.map Prod.fst = List.range 3 := by
  obtain ⟨-, -, emitted, stop, ran, positions, -, -, -, reaches, -⟩ :=
    local_log_merges_in_slot_order sameOriginOutOfOrderEvents 3 _ sameOriginOutOfOrder_schedule
  have whole : stop = 3 := reaches (by
    intro slot queueId leader member
    simp only [sameOriginOutOfOrderEvents, List.mem_cons, reduceCtorEq, LocalLog.Event.addSlot.injEq, false_or,
      List.not_mem_nil, or_false] at member
    rcases member with ⟨rfl, rfl, rfl⟩ | ⟨rfl, rfl, rfl⟩ | ⟨rfl, rfl, rfl⟩ <;> decide)
  exact ⟨emitted, ran, whole ▸ positions⟩

example : (LocalLog.init.run sameOriginOutOfOrderEvents).map Prod.fst =
    .ok [(0, (100, 0)), (1, (200, 0)), (2, (300, 0))] := by
  decide

end Slog
