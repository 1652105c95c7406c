/-
The batches of a batcher (`module/sequencer_components/batcher.cpp`) and the positions
`SendBatches` sends them at, with and without the replication delay experiment.
-/

import Mathlib.Data.List.ModifyLast
import Slog.Sequencer.Batcher
import Slog.LogManager.LocalLog

namespace Slog

/-- The settings of the configuration that the batcher reads. -/
structure BatcherConfig where
  numPartitions : Nat
  localRegion : Nat
  localMachineId : Nat
  /-- The sharder's partition of each key. -/
  partitionOf : Key → Nat
  sequencerBatchSize : Int
  replicationDelayPct : Nat

/-- The batcher's state: the batches not sent yet, each cut by partition (`batches_`), the
counter of batch ids, the sizes of the last batch and of all batches since the start-over, and
whether the timer that sends the batches is set. -/
structure Batcher where
  batches : List (List Batch)
  batchIdCounter : Nat
  currentBatchSize : Nat
  totalBatchSize : Nat
  timerSet : Bool

/-- What `SendBatches` does with one batch, all at the batch's generator position: it proposes
the batch to local Paxos, sends each partition to the local machine of that partition, and sends
the whole batch to the other regions and replicas, at once or after the delay. -/
structure Sent where
  position : Nat
  batch : List Batch
  delayed : Bool
  deriving DecidableEq, Repr

namespace Batcher

variable (config : BatcherConfig)

def batchId (batcher : Batcher) : Nat := (batcher.batchIdCounter <<< kMachineIdBits) ||| config.localMachineId

def newBatch (batcher : Batcher) : Batcher :=
  let batcher := { batcher with currentBatchSize := 0, batchIdCounter := batcher.batchIdCounter + 1 }
  { batcher with batches := batcher.batches ++ [List.replicate config.numPartitions ⟨batcher.batchId config, []⟩] }

def startOver (batcher : Batcher) : Batcher :=
  newBatch config { batcher with totalBatchSize := 0, batches := [] }

/-- The state the constructor leaves: `batch_id_counter_(0)`, then `StartOver`. -/
def init : Batcher := startOver config ⟨[], 0, 0, 0, false⟩

/-- Puts a part of a txn into its partition of a batch (`current_batch[p]`). -/
def addPart (batch : List Batch) (part : Nat × Transaction) : List Batch :=
  batch.modify part.1 fun partition => { partition with transactions := partition.transactions ++ [part.2] }

def batchTxn (batcher : Batcher) (txn : Transaction) : Batcher :=
  let parts := Slog.batchTxn config.partitionOf config.localRegion txn
  let batches := batcher.batches.modifyLast fun current => parts.foldl addPart current
  let batcher := { batcher with
    batches := batches
    currentBatchSize := batcher.currentBatchSize + 1
    totalBatchSize := batcher.totalBatchSize + 1 }
  -- the first txn after a start-over sets the timer that sends the batches
  let batcher := if batcher.totalBatchSize = 1 then { batcher with timerSet := true } else batcher
  if 0 < config.sequencerBatchSize ∧ config.sequencerBatchSize ≤ batcher.currentBatchSize then
    newBatch config batcher
  else batcher

/-- The loop of `SendBatches` from a generator position on. `delayed` gives the draw of the delay
experiment for the batch at each position; a delayed batch ends the loop (`return`). -/
def sendFrom (delayed : Nat → Bool) : Nat → List (List Batch) → List Sent
  | _, [] => []
  | position, batch :: rest =>
      if config.replicationDelayPct ≠ 0 ∧ delayed position = true then [⟨position, batch, true⟩]
      else ⟨position, batch, false⟩ :: sendFrom delayed (position + 1) rest

/-- `SendBatches` starts at `batch_id_counter_ - batches_.size()`. -/
def sendBatches (batcher : Batcher) (delayed : Nat → Bool) : List Sent :=
  sendFrom config delayed (batcher.batchIdCounter - batcher.batches.length) batcher.batches

/-- What the batcher gets: a txn to batch, or the firing of its timer. -/
inductive Event where
  | batchTxn (txn : Transaction)
  | timer

/-- One event; the timer, when set, runs `SendBatches` and then `StartOver`. -/
def step (delayed : Nat → Bool) (batcher : Batcher) : Event → Batcher × List Sent
  | .batchTxn txn => (batcher.batchTxn config txn, [])
  | .timer =>
      if batcher.timerSet then (startOver config { batcher with timerSet := false }, batcher.sendBatches config delayed)
      else (batcher, [])

def run (delayed : Nat → Bool) : List Event → Batcher → Batcher × List Sent
  | [], batcher => (batcher, [])
  | event :: rest, batcher =>
      let (batcher, sent) := step config delayed batcher event
      let (batcher, later) := run delayed rest batcher
      (batcher, sent ++ later)

/-- The position the next `SendBatches` starts at. -/
def nextPosition (batcher : Batcher) : Nat := batcher.batchIdCounter - batcher.batches.length

/-- The txns of one partition of a batch. -/
def partitionTxns (partition : Nat) (batch : List Batch) : List Transaction :=
  (batch[partition]?.map Batch.transactions).getD []

/-- The parts an event puts into a partition. -/
def Event.parts (partition : Nat) : Event → List Transaction
  | .batchTxn txn => ((Slog.batchTxn config.partitionOf config.localRegion txn).filter (·.1 = partition)).map Prod.snd
  | .timer => []

variable {config} {batcher : Batcher} {delayed : Nat → Bool}

@[simp] theorem newBatch_batches :
    (newBatch config batcher).batches = batcher.batches ++
      [List.replicate config.numPartitions ⟨((batcher.batchIdCounter + 1) <<< kMachineIdBits) ||| config.localMachineId, []⟩] :=
  rfl

@[simp] theorem newBatch_batchIdCounter : (newBatch config batcher).batchIdCounter = batcher.batchIdCounter + 1 := rfl

@[simp] theorem startOver_batches : (startOver config batcher).batches =
    [List.replicate config.numPartitions ⟨((batcher.batchIdCounter + 1) <<< kMachineIdBits) ||| config.localMachineId, []⟩] :=
  rfl

@[simp] theorem startOver_batchIdCounter : (startOver config batcher).batchIdCounter = batcher.batchIdCounter + 1 := rfl

theorem length_modifyLast {α : Type} (f : α → α) (items : List α) : (items.modifyLast f).length = items.length := by
  rcases List.eq_nil_or_concat items with rfl | ⟨front, last, rfl⟩
  · rfl
  · simp [List.modifyLast_concat]

/-- `BatchTxn` fills the last batch and, when that makes it full, opens a new one. -/
theorem batchTxn_cases (batcher : Batcher) (txn : Transaction) :
    let filled := batcher.batches.modifyLast fun current =>
      (Slog.batchTxn config.partitionOf config.localRegion txn).foldl addPart current
    ((batcher.batchTxn config txn).batches = filled ∧
        (batcher.batchTxn config txn).batchIdCounter = batcher.batchIdCounter) ∨
      ((∃ id, (batcher.batchTxn config txn).batches = filled ++ [List.replicate config.numPartitions ⟨id, []⟩]) ∧
        (batcher.batchTxn config txn).batchIdCounter = batcher.batchIdCounter + 1) := by
  intro filled
  simp only [batchTxn]
  split_ifs
  · exact Or.inr ⟨⟨_, rfl⟩, rfl⟩
  · exact Or.inl ⟨rfl, rfl⟩
  · exact Or.inr ⟨⟨_, rfl⟩, rfl⟩
  · exact Or.inl ⟨rfl, rfl⟩

theorem run_cons (event : Event) (rest : List Event) :
    run config delayed (event :: rest) batcher =
      ((run config delayed rest (step config delayed batcher event).1).1,
        (step config delayed batcher event).2 ++ (run config delayed rest (step config delayed batcher event).1).2) :=
  rfl

/-- `SendBatches` sends its batches at consecutive positions from where it starts. -/
theorem sendFrom_positions (position : Nat) (batches : List (List Batch)) :
    (sendFrom config delayed position batches).map Sent.position =
      List.range' position (sendFrom config delayed position batches).length := by
  induction batches generalizing position with
  | nil => rfl
  | cons batch rest ih =>
      by_cases stops : config.replicationDelayPct ≠ 0 ∧ delayed position = true
      · simp [sendFrom, stops]
      · simp only [sendFrom, if_neg stops, List.map_cons, List.length_cons, ih, List.range'_succ]

theorem length_sendFrom_le (position : Nat) (batches : List (List Batch)) :
    (sendFrom config delayed position batches).length ≤ batches.length := by
  induction batches generalizing position with
  | nil => exact Nat.le_refl 0
  | cons batch rest ih =>
      by_cases stops : config.replicationDelayPct ≠ 0 ∧ delayed position = true
      · simp [sendFrom, stops]
      · simpa [sendFrom, stops] using ih (position + 1)

/-- Without the delay experiment `SendBatches` sends every batch, none of them delayed. -/
theorem sendFrom_of_noDelay (noDelay : config.replicationDelayPct = 0) (position : Nat)
    (batches : List (List Batch)) :
    (sendFrom config delayed position batches).map Sent.batch = batches ∧
      ∀ entry ∈ sendFrom config delayed position batches, entry.delayed = false := by
  induction batches generalizing position with
  | nil => simp [sendFrom]
  | cons batch rest ih =>
      obtain ⟨sentBatches, undelayed⟩ := ih (position + 1)
      simpa [sendFrom, noDelay, sentBatches] using undelayed

/-- What every state of a batcher keeps: `batches_` is never empty, and the counter counts at
least its batches. -/
structure Numbered (batcher : Batcher) : Prop where
  nonempty : batcher.batches ≠ []
  le : batcher.batches.length ≤ batcher.batchIdCounter

theorem numbered_startOver : Numbered (startOver config batcher) := ⟨by simp, by simp⟩

theorem nextPosition_startOver : (startOver config batcher).nextPosition = batcher.batchIdCounter := by
  simp [nextPosition]

theorem Numbered.batchTxn (numbered : Numbered batcher) (txn : Transaction) :
    Numbered (batcher.batchTxn config txn) ∧ (batcher.batchTxn config txn).nextPosition = batcher.nextPosition := by
  have positive := List.length_pos_iff.mpr numbered.nonempty
  have bounded := numbered.le
  rcases batchTxn_cases batcher txn with ⟨batches, counter⟩ | ⟨⟨id, batches⟩, counter⟩
  · have length : (batcher.batchTxn config txn).batches.length = batcher.batches.length := by
      rw [batches, length_modifyLast]
    refine ⟨⟨List.length_pos_iff.mp (by omega), by omega⟩, ?_⟩
    simp only [nextPosition, length, counter]
  · have length : (batcher.batchTxn config txn).batches.length = batcher.batches.length + 1 := by
      rw [batches, List.length_append, length_modifyLast, List.length_singleton]
    refine ⟨⟨List.length_pos_iff.mp (by omega), by omega⟩, ?_⟩
    simp only [nextPosition, length, counter]
    omega

/-- One event keeps a batcher numbered; the batches it sends lie from the position the batcher
was at, below the position it moves to, in increasing order. -/
theorem Numbered.step (numbered : Numbered batcher) (event : Event) :
    Numbered (step config delayed batcher event).1 ∧
      batcher.nextPosition ≤ (step config delayed batcher event).1.nextPosition ∧
      ((step config delayed batcher event).2.map Sent.position).Pairwise (· < ·) ∧
      ∀ entry ∈ (step config delayed batcher event).2,
        batcher.nextPosition ≤ entry.position ∧ entry.position < (step config delayed batcher event).1.nextPosition := by
  cases event with
  | batchTxn txn =>
      obtain ⟨kept, same⟩ := numbered.batchTxn txn
      exact ⟨kept, Nat.le_of_eq same.symm, List.Pairwise.nil, by simp [Batcher.step]⟩
  | timer =>
      by_cases set : batcher.timerSet = true
      · have bounded := numbered.le
        have short := @length_sendFrom_le config delayed batcher.nextPosition batcher.batches
        have positions := @sendFrom_positions config delayed batcher.nextPosition batcher.batches
        simp only [Batcher.step, set, if_true]
        refine ⟨numbered_startOver, ?_, ?_, fun entry member => ?_⟩
        · rw [nextPosition_startOver]
          exact Nat.sub_le _ _
        · rw [sendBatches, ← nextPosition, positions]
          exact List.pairwise_lt_range'
        · have listed : entry.position ∈ List.range' batcher.nextPosition
              (sendFrom config delayed batcher.nextPosition batcher.batches).length := by
            rw [← positions]
            exact List.mem_map_of_mem member
          rw [List.mem_range'_1] at listed
          rw [nextPosition_startOver]
          simp only [nextPosition] at listed short ⊢
          omega
      · simp [Batcher.step, set, numbered]

/-- A run keeps a batcher numbered; the positions it sends increase and lie from the position
the batcher was at on. -/
theorem Numbered.run (numbered : Numbered batcher) (events : List Event) :
    Numbered (run config delayed events batcher).1 ∧
      batcher.nextPosition ≤ (run config delayed events batcher).1.nextPosition ∧
      ((run config delayed events batcher).2.map Sent.position).Pairwise (· < ·) ∧
      ∀ entry ∈ (run config delayed events batcher).2,
        batcher.nextPosition ≤ entry.position ∧ entry.position < (run config delayed events batcher).1.nextPosition := by
  induction events generalizing batcher with
  | nil => exact ⟨numbered, Nat.le_refl _, List.Pairwise.nil, by simp [Batcher.run]⟩
  | cons event rest ih =>
      obtain ⟨numbered₁, later₁, increasing₁, within₁⟩ := @Numbered.step config batcher delayed numbered event
      obtain ⟨numbered₂, later₂, increasing₂, within₂⟩ := ih numbered₁
      rw [run_cons]
      refine ⟨numbered₂, Nat.le_trans later₁ later₂, ?_, fun entry member => ?_⟩
      · rw [List.map_append, List.pairwise_append]
        refine ⟨increasing₁, increasing₂, fun first early second late => ?_⟩
        obtain ⟨entry, member, rfl⟩ := List.mem_map.mp early
        obtain ⟨entry', member', rfl⟩ := List.mem_map.mp late
        exact Nat.lt_of_lt_of_le (within₁ entry member).2 (within₂ entry' member').1
      · rcases List.mem_append.mp member with early | late
        · exact ⟨(within₁ entry early).1, Nat.lt_of_lt_of_le (within₁ entry early).2 later₂⟩
        · exact ⟨Nat.le_trans later₁ (within₂ entry late).1, (within₂ entry late).2⟩

theorem length_addPart (batch : List Batch) (part : Nat × Transaction) : (addPart batch part).length = batch.length :=
  List.length_modify _ _ _

theorem length_foldl_addPart (parts : List (Nat × Transaction)) (batch : List Batch) :
    (parts.foldl addPart batch).length = batch.length := by
  induction parts generalizing batch with
  | nil => rfl
  | cons part rest ih => rw [List.foldl_cons, ih, length_addPart]

theorem partitionTxns_addPart {partition : Nat} (batch : List Batch) (part : Nat × Transaction)
    (within : partition < batch.length) :
    partitionTxns partition (addPart batch part) =
      partitionTxns partition batch ++ if part.1 = partition then [part.2] else [] := by
  obtain ⟨current, found⟩ : ∃ current, batch[partition]? = some current := ⟨_, List.getElem?_eq_getElem within⟩
  by_cases mine : part.1 = partition
  · simp [partitionTxns, addPart, found, mine]
  · simp [partitionTxns, addPart, found, mine]

/-- Filling a batch puts each part at the end of its partition. -/
theorem partitionTxns_foldl_addPart {partition : Nat} (parts : List (Nat × Transaction)) (batch : List Batch)
    (within : partition < batch.length) :
    partitionTxns partition (parts.foldl addPart batch) =
      partitionTxns partition batch ++ (parts.filter (·.1 = partition)).map Prod.snd := by
  induction parts generalizing batch with
  | nil => simp
  | cons part rest ih =>
      rw [List.foldl_cons, ih (addPart batch part) (by rwa [length_addPart]), partitionTxns_addPart batch part within]
      by_cases mine : part.1 = partition
      · simp [mine]
      · simp [mine]

theorem partitionTxns_replicate (partition id count : Nat) :
    partitionTxns partition (List.replicate count ⟨id, []⟩) = [] := by
  by_cases within : partition < count
  · simp [partitionTxns, within]
  · simp [partitionTxns, within]

/-- What a run keeps without the delay experiment: the position the next `SendBatches` starts
at is the count of batches sent, the positions sent run 0, 1, 2, ..., none was delayed, every
waiting batch is cut into all partitions, and each partition's parts are those sent and then
those waiting, in the order their txns came. -/
structure Sound (config : BatcherConfig) (events : List Event) (batcher : Batcher) (sent : List Sent) : Prop where
  numbered : Numbered batcher
  next : batcher.nextPosition = sent.length
  positions : sent.map Sent.position = List.range sent.length
  undelayed : ∀ entry ∈ sent, entry.delayed = false
  shape : ∀ batch ∈ batcher.batches, batch.length = config.numPartitions
  parts : ∀ partition, partition < config.numPartitions →
    sent.flatMap (fun entry => partitionTxns partition entry.batch) ++
      batcher.batches.flatMap (partitionTxns partition) = events.flatMap (Event.parts config partition)

variable {events : List Event} {sent : List Sent}

theorem sound_init : Sound config [] (init config) [] where
  numbered := numbered_startOver
  next := by simp [init, nextPosition]
  positions := rfl
  undelayed := by simp
  shape := by simp [init]
  parts := fun partition _ => by simp [init, partitionTxns_replicate]

/-- `BatchTxn` adds the txn's parts after the parts already waiting. -/
theorem Sound.batchTxn (sound : Sound config events batcher sent) (txn : Transaction) :
    Sound config (events ++ [.batchTxn txn]) (batcher.batchTxn config txn) sent := by
  obtain ⟨numbered, moved⟩ := sound.numbered.batchTxn txn
  obtain ⟨front, last, split⟩ : ∃ front last, batcher.batches = front ++ [last] := by
    rcases List.eq_nil_or_concat batcher.batches with empty | ⟨front, last, split⟩
    · exact absurd empty sound.numbered.nonempty
    · exact ⟨front, last, by rw [split, List.concat_eq_append]⟩
  have lastShape : last.length = config.numPartitions := sound.shape last (by simp [split])
  have filled : (batcher.batches.modifyLast fun current =>
      (Slog.batchTxn config.partitionOf config.localRegion txn).foldl addPart current) =
      front ++ [(Slog.batchTxn config.partitionOf config.localRegion txn).foldl addPart last] := by
    rw [split, List.modifyLast_concat]
  have frontShape : ∀ batch ∈ front, batch.length = config.numPartitions :=
    fun batch member => sound.shape batch (by simp [split, member])
  refine ⟨numbered, by rw [moved, sound.next], sound.positions, sound.undelayed, ?_, ?_⟩
  · have filledShape : ∀ batch ∈ front ++ [(Slog.batchTxn config.partitionOf config.localRegion txn).foldl addPart last],
        batch.length = config.numPartitions := by
      intro batch member
      rcases List.mem_append.mp member with early | late
      · exact frontShape batch early
      · rw [List.mem_singleton.mp late, length_foldl_addPart, lastShape]
    rcases batchTxn_cases batcher txn with ⟨batches, -⟩ | ⟨⟨id, batches⟩, -⟩
    · rw [batches, filled]
      exact filledShape
    · rw [batches, filled]
      intro batch member
      rcases List.mem_append.mp member with early | late
      · exact filledShape batch early
      · rw [List.mem_singleton.mp late, List.length_replicate]
  · intro partition within
    have grown := partitionTxns_foldl_addPart (Slog.batchTxn config.partitionOf config.localRegion txn) last
      (show partition < last.length by omega)
    have before := sound.parts partition within
    rw [split] at before
    rcases batchTxn_cases batcher txn with ⟨batches, -⟩ | ⟨⟨id, batches⟩, -⟩
    · rw [batches, filled, List.flatMap_append]
      simp [grown, ← before, Event.parts]
    · rw [batches, filled, List.flatMap_append]
      simp [grown, ← before, Event.parts, partitionTxns_replicate]

/-- Without the delay experiment the timer sends every waiting batch at the next positions and
starts over. -/
theorem Sound.timer (noDelay : config.replicationDelayPct = 0) (sound : Sound config events batcher sent) :
    Sound config (events ++ [.timer]) (step config delayed batcher .timer).1 (sent ++ (step config delayed batcher .timer).2) := by
  by_cases set : batcher.timerSet = true
  · obtain ⟨sentBatches, undelayed⟩ := @sendFrom_of_noDelay config delayed noDelay batcher.nextPosition batcher.batches
    have length : (sendFrom config delayed batcher.nextPosition batcher.batches).length = batcher.batches.length := by
      simpa using congrArg List.length sentBatches
    have positions := @sendFrom_positions config delayed batcher.nextPosition batcher.batches
    have bounded := sound.numbered.le
    have next := sound.next
    have stepped : step config delayed batcher .timer =
        (startOver config { batcher with timerSet := false }, sendFrom config delayed batcher.nextPosition batcher.batches) := by
      simp [Batcher.step, set, sendBatches, nextPosition]
    rw [stepped]
    dsimp only
    refine ⟨numbered_startOver, ?_, ?_, ?_, by simp, ?_⟩
    · rw [nextPosition_startOver, List.length_append, length]
      change batcher.batchIdCounter = _
      simp only [nextPosition] at next
      omega
    · rw [List.map_append, sound.positions, positions, List.length_append, length, next,
        List.range_eq_range', List.range_eq_range']
      simpa using @List.range'_append_1 0 sent.length batcher.batches.length
    · intro entry member
      rcases List.mem_append.mp member with early | late
      · exact sound.undelayed entry early
      · exact undelayed entry late
    · intro partition within
      have flat : (sendFrom config delayed batcher.nextPosition batcher.batches).flatMap
          (fun entry => partitionTxns partition entry.batch) = batcher.batches.flatMap (partitionTxns partition) := by
        conv_rhs => rw [← sentBatches]
        rw [List.flatMap_map]
      simp [List.flatMap_append, flat, ← sound.parts partition within, partitionTxns_replicate, Event.parts]
  · have stepped : step config delayed batcher .timer = (batcher, []) := by simp [Batcher.step, set]
    rw [stepped]
    exact ⟨sound.numbered, by simpa using sound.next, by simpa using sound.positions, by simpa using sound.undelayed,
      sound.shape, fun partition within => by simpa [Event.parts] using sound.parts partition within⟩

theorem Sound.step (noDelay : config.replicationDelayPct = 0) (sound : Sound config events batcher sent)
    (event : Event) :
    Sound config (events ++ [event]) (step config delayed batcher event).1 (sent ++ (step config delayed batcher event).2) := by
  cases event with
  | batchTxn txn => simpa [Batcher.step] using sound.batchTxn txn
  | timer => exact sound.timer noDelay

theorem Sound.run (noDelay : config.replicationDelayPct = 0) (sound : Sound config events batcher sent)
    (rest : List Event) :
    Sound config (events ++ rest) (run config delayed rest batcher).1 (sent ++ (run config delayed rest batcher).2) := by
  induction rest generalizing events batcher sent with
  | nil => simpa [Batcher.run] using sound
  | cons event rest ih =>
      have stepped := @Sound.step config batcher delayed events sent noDelay sound event
      rw [run_cons, ← List.append_assoc]
      simpa using ih stepped

/-- Without the delay experiment, every run of the batcher from its start sends its batches at
positions 0, 1, 2, ..., none delayed, and each partition's parts of the txns batched are those
of the batches sent followed by those still waiting, in the order the txns came. -/
theorem run_without_delay (noDelay : config.replicationDelayPct = 0) (delayed : Nat → Bool)
    (events : List Event) :
    (run config delayed events (init config)).2.map Sent.position =
        List.range (run config delayed events (init config)).2.length ∧
      (∀ entry ∈ (run config delayed events (init config)).2, entry.delayed = false) ∧
      ∀ partition, partition < config.numPartitions →
        (run config delayed events (init config)).2.flatMap (fun entry => partitionTxns partition entry.batch) ++
          (run config delayed events (init config)).1.batches.flatMap (partitionTxns partition) =
            events.flatMap (Event.parts config partition) := by
  have sound := @Sound.run config (init config) delayed [] [] noDelay sound_init events
  simp only [List.nil_append] at sound
  exact ⟨sound.positions, sound.undelayed, sound.parts⟩

/-- With the delay experiment, a delayed batch ends `SendBatches`: of the waiting batches only
the first is sent, and no later run sends the position of any batch after it. -/
theorem timer_skips_positions (numbered : Numbered batcher) (set : batcher.timerSet = true)
    (delay : config.replicationDelayPct ≠ 0) (drawn : delayed batcher.nextPosition = true)
    {first : List Batch} {rest : List (List Batch)} (waiting : batcher.batches = first :: rest)
    (later : List Event) :
    (step config delayed batcher .timer).2 = [⟨batcher.nextPosition, first, true⟩] ∧
      ∀ entry ∈ (run config delayed later (step config delayed batcher .timer).1).2,
        batcher.nextPosition + rest.length < entry.position := by
  have stepped : step config delayed batcher .timer =
      (startOver config { batcher with timerSet := false }, [⟨batcher.nextPosition, first, true⟩]) := by
    rw [Batcher.step, if_pos set, sendBatches,
      show batcher.batchIdCounter - batcher.batches.length = batcher.nextPosition from rfl, waiting]
    simp [sendFrom, delay, drawn]
  refine ⟨by rw [stepped], fun entry member => ?_⟩
  rw [stepped] at member
  have beyond := (@Numbered.run config _ delayed numbered_startOver later).2.2.2 entry member
  have bounded := numbered.le
  rw [nextPosition_startOver] at beyond
  change batcher.batchIdCounter ≤ entry.position ∧ _ at beyond
  simp only [nextPosition, waiting, List.length_cons] at bounded beyond ⊢
  omega

end Batcher

/-- A single-home txn writing key "A", mastered at region 0, as the forwarder hands it on. -/
def homeTxn (id : Nat) : Transaction where
  internal := { id := id, type := .singleHome, home := 0, involvedPartitions := [0], involvedRegions := [0] }
  remaster := none
  keys := [{ key := "A", valueEntry := { type := .write, metadata := some ⟨0, 0⟩ } }]

/-- Machine 0 of region 0 with one partition, one txn per batch, and every batch delayed
(`delay_pct` 100, so the draw always delays). -/
def delayConfig : BatcherConfig := ⟨1, 0, 0, fun _ => 0, 1, 100⟩

/-- Two txns, the timer, a third txn, the timer. -/
def delayedEvents : List Batcher.Event :=
  [.batchTxn (homeTxn 1), .batchTxn (homeTxn 2), .timer, .batchTxn (homeTxn 3), .timer]

/-- The batcher sends positions 0 and 3 and never 1, 2 or 4; the second txn goes out in no batch
and waits in none; and the local log of the partition, given the two batches at their positions
and a slot for each proposal, emits slot 0 and then waits for queue position 1 forever. -/
theorem delayed_batch_skips_positions :
    (Batcher.run delayConfig (fun _ => true) delayedEvents (Batcher.init delayConfig)).2.map Sent.position = [0, 3] ∧
      (Batcher.run delayConfig (fun _ => true) delayedEvents (Batcher.init delayConfig)).2.map
          (fun entry => (entry.batch.flatMap Batch.transactions).map fun txn => txn.internal.id) = [[1], [3]] ∧
      (Batcher.run delayConfig (fun _ => true) delayedEvents (Batcher.init delayConfig)).1.batches.flatMap
          (fun batch => batch.flatMap Batch.transactions) = [] ∧
      (∀ later delayed, ∀ entry ∈ (Batcher.run delayConfig delayed later
          (Batcher.run delayConfig (fun _ => true) delayedEvents (Batcher.init delayConfig)).1).2, 4 < entry.position) ∧
      (Batcher.run delayConfig (fun _ => true) delayedEvents (Batcher.init delayConfig)).2.map
          (fun entry => entry.batch.map Batch.id) = [[4294967296], [17179869184]] ∧
      (LocalLog.init.run [.addBatchId 0 0 4294967296, .addSlot 0 0 0, .addBatchId 0 3 17179869184, .addSlot 1 0 0]).map
          Prod.fst = .ok [(0, (4294967296, 0))] := by
  refine ⟨by decide, by decide, by decide, fun later delayed entry member => ?_, by decide, by decide⟩
  have numbered : (Batcher.run delayConfig (fun _ => true) delayedEvents (Batcher.init delayConfig)).1.Numbered :=
    (Batcher.numbered_startOver.run delayedEvents).1
  have beyond := (@Batcher.Numbered.run delayConfig _ delayed numbered later).2.2.2 entry member
  have next : (Batcher.run delayConfig (fun _ => true) delayedEvents (Batcher.init delayConfig)).1.nextPosition = 5 := by
    decide
  omega

/-- The batcher of the delay experiment after two txns, each a batch of its own. -/
def twoBatched : Batcher :=
  (Batcher.run delayConfig (fun _ => true) [.batchTxn (homeTxn 1), .batchTxn (homeTxn 2)] (Batcher.init delayConfig)).1

theorem twoBatched_timer_skips : ∃ first rest, Batcher.Numbered twoBatched ∧ twoBatched.timerSet = true ∧
    delayConfig.replicationDelayPct ≠ 0 ∧ twoBatched.batches = first :: rest ∧
    (Batcher.step delayConfig (fun _ => true) twoBatched .timer).2 = [⟨twoBatched.nextPosition, first, true⟩] ∧
      ∀ entry ∈ (Batcher.run delayConfig (fun _ => true) [.batchTxn (homeTxn 3), .timer]
          (Batcher.step delayConfig (fun _ => true) twoBatched .timer).1).2,
        twoBatched.nextPosition + rest.length < entry.position := by
  have numbered : Batcher.Numbered twoBatched := (Batcher.Numbered.run Batcher.numbered_startOver _).1
  have waiting : twoBatched.batches = _ :: _ := rfl
  exact ⟨_, _, numbered, rfl, by decide, waiting,
    Batcher.timer_skips_positions numbered rfl (by decide) rfl waiting [.batchTxn (homeTxn 3), .timer]⟩

/-- The same batcher without the delay experiment. -/
def undelayedConfig : BatcherConfig := ⟨1, 0, 0, fun _ => 0, 1, 0⟩

theorem undelayed_run_in_order : undelayedConfig.replicationDelayPct = 0 ∧
    (Batcher.run undelayedConfig (fun _ => true) delayedEvents (Batcher.init undelayedConfig)).2.map Sent.position =
        List.range (Batcher.run undelayedConfig (fun _ => true) delayedEvents (Batcher.init undelayedConfig)).2.length ∧
      (∀ entry ∈ (Batcher.run undelayedConfig (fun _ => true) delayedEvents (Batcher.init undelayedConfig)).2,
        entry.delayed = false) ∧
      ∀ partition, partition < undelayedConfig.numPartitions →
        (Batcher.run undelayedConfig (fun _ => true) delayedEvents (Batcher.init undelayedConfig)).2.flatMap
            (fun entry => Batcher.partitionTxns partition entry.batch) ++
          (Batcher.run undelayedConfig (fun _ => true) delayedEvents (Batcher.init undelayedConfig)).1.batches.flatMap
            (Batcher.partitionTxns partition) =
            delayedEvents.flatMap (Batcher.Event.parts undelayedConfig partition) :=
  ⟨rfl, Batcher.run_without_delay rfl (fun _ => true) delayedEvents⟩

end Slog
