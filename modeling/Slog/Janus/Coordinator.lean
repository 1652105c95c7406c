/-
The Janus coordinator of one txn (`module/janus/coordinator.cpp`): the fast path on every
participant's fast quorum, otherwise the accept round.
-/

import Mathlib
import Slog.Janus.Acceptor

namespace Slog.Janus

/-- `CoordinatorTxnInfo`; the machines the requests go to are left out. -/
structure CoordinatorTxnInfo where
  txnId : TxnId
  participants : List Nat
  phase : Phase
  shardedDeps : Nat → Option QuorumDeps
  quorums : Nat → Option Quorum

/-- What the coordinator sends after an answer: nothing yet, the accept round, or the commit, each
with the dependencies and their target partitions. -/
inductive Outcome where
  | wait
  | accept (deps : Finset (TxnId × Nat × Nat))
  | commit (deps : Finset (TxnId × Nat × Nat))
  deriving DecidableEq

namespace CoordinatorTxnInfo

def new (txnId : TxnId) (participants : List Nat) : CoordinatorTxnInfo :=
  ⟨txnId, participants, .preAccept, fun _ => none, fun _ => none⟩

/-- The dependencies that `CommitTxn` and the slow path send: each partition's merged set, with
the partition as target. -/
def collectedDeps (info : CoordinatorTxnInfo) (numPartitions : Nat) : Finset (TxnId × Nat × Nat) :=
  (Finset.range numPartitions).biUnion fun p =>
    match info.shardedDeps p with
    | some quorum => quorum.deps.image fun dep => (dep.1, dep.2, p)
    | none => ∅

/-- The entry with a partition's pre-accept quorum set. -/
def withDeps (info : CoordinatorTxnInfo) (p : Nat) (quorum : QuorumDeps) : CoordinatorTxnInfo :=
  { info with shardedDeps := Function.update info.shardedDeps p (some quorum) }

@[simp]
theorem shardedDeps_withDeps (info : CoordinatorTxnInfo) (p : Nat) (quorum : QuorumDeps) :
    (info.withDeps p quorum).shardedDeps = Function.update info.shardedDeps p (some quorum) := rfl

theorem shardedDeps_withDeps_self (info : CoordinatorTxnInfo) (p : Nat) (quorum : QuorumDeps) :
    (info.withDeps p quorum).shardedDeps p = some quorum := by
  rw [shardedDeps_withDeps, Function.update_self]

@[simp]
theorem phase_withDeps (info : CoordinatorTxnInfo) (p : Nat) (quorum : QuorumDeps) :
    (info.withDeps p quorum).phase = info.phase := rfl

@[simp]
theorem participants_withDeps (info : CoordinatorTxnInfo) (p : Nat) (quorum : QuorumDeps) :
    (info.withDeps p quorum).participants = info.participants := rfl

end CoordinatorTxnInfo

/-- The loop over the participants in `PreAcceptTxn` and `AcceptTxn`, on each partition's
quorum as whether it is done and whether it is fast: it stops at the first participant whose
quorum is missing or not done, and otherwise tells whether all are fast. -/
def participantsDone (numPartitions : Nat) (status : Nat → Option (Bool × Bool)) :
    List Nat → Bool → Except String (Bool × Bool)
  | [], fast => .ok (true, fast)
  | p :: rest, fast =>
      if p < numPartitions then
        match status p with
        | some (true, quorumFast) => participantsDone numPartitions status rest (fast && quorumFast)
        | _ => .ok (false, fast)
      else .error "Check failed: p < sharded_deps.size()"

namespace CoordinatorTxnInfo

def preAcceptTxn (info : CoordinatorTxnInfo) (numRegions numPartitions fromPartition : Nat)
    (response : PreAcceptResponse) : Except String (Option CoordinatorTxnInfo × Outcome) :=
  if !response.ok then .error "Check failed: pre_accept.ok()"
  else if info.phase ≠ .preAccept then .ok (some info, .wait)
  else if numPartitions ≤ fromPartition then .error "Check failed: from_partition < sharded_deps.size()"
  else do
    let quorum := ((info.shardedDeps fromPartition).getD (.new numRegions)).add response.deps.toFinset
    let info := info.withDeps fromPartition quorum
    let (done, fast) ← participantsDone numPartitions
      (fun p => (info.shardedDeps p).map fun quorum => (quorum.isDone, quorum.isFastQuorum)) info.participants true
    if !done then pure (some info, .wait)
    -- the fast path commits and forgets the txn
    else if fast then pure (none, .commit (info.collectedDeps numPartitions))
    else pure (some { info with phase := .accept }, .accept (info.collectedDeps numPartitions))

def acceptTxn (info : CoordinatorTxnInfo) (numRegions numPartitions fromPartition : Nat) (response : AcceptResponse) :
    Except String (Option CoordinatorTxnInfo × Outcome) :=
  if !response.ok then .error "Check failed: accept.ok()"
  else if numPartitions ≤ fromPartition then .error "Check failed: from_partition < quorums.size()"
  else do
    let quorum := ((info.quorums fromPartition).getD (.new numRegions)).inc
    let info := { info with quorums := Function.update info.quorums fromPartition (some quorum) }
    let (done, _) ← participantsDone numPartitions
      (fun p => (info.quorums p).map fun quorum => (quorum.isDone, true)) info.participants true
    if done then pure (none, .commit (info.collectedDeps numPartitions)) else pure (some info, .wait)

end CoordinatorTxnInfo

/-- An answer to the coordinator about its txn, with the partition of the replica that sent it. -/
inductive Answer where
  | preAccept (fromPartition : Nat) (response : PreAcceptResponse)
  | accept (fromPartition : Nat) (response : AcceptResponse)

/-- `OnInternalResponseReceived` for one txn; a txn no longer held ignores its answers. -/
def answer (numRegions numPartitions : Nat) : Option CoordinatorTxnInfo → Answer →
    Except String (Option CoordinatorTxnInfo × Outcome)
  | none, _ => .ok (none, .wait)
  | some info, .preAccept fromPartition response => info.preAcceptTxn numRegions numPartitions fromPartition response
  | some info, .accept fromPartition response => info.acceptTxn numRegions numPartitions fromPartition response

def answerAll (numRegions numPartitions : Nat) : Option CoordinatorTxnInfo → List Answer → Except String (List Outcome)
  | _, [] => .ok []
  | state, first :: rest => do
      let (state, outcome) ← answer numRegions numPartitions state first
      let outcomes ← answerAll numRegions numPartitions state rest
      pure (outcome :: outcomes)

section FastPath

variable {numRegions numPartitions p : Nat} {info : CoordinatorTxnInfo}

/-- The dependencies collected when only one partition has a quorum. -/
theorem collectedDeps_single (within : p < numPartitions) (others : ∀ q ≠ p, info.shardedDeps q = none)
    {quorum : QuorumDeps} (held : info.shardedDeps p = some quorum) :
    info.collectedDeps numPartitions = quorum.deps.image fun dep => (dep.1, dep.2, p) := by
  ext entry
  simp only [CoordinatorTxnInfo.collectedDeps, Finset.mem_biUnion, Finset.mem_range]
  constructor
  · rintro ⟨q, -, member⟩
    by_cases same : q = p
    · subst same
      simpa [held] using member
    · simp [others q same] at member
  · intro member
    exact ⟨p, within, by simpa [held] using member⟩

/-- An answer that agrees with those before it, to the coordinator of a txn of one partition:
the quorum counts it, and the last region's answer commits. -/
theorem preAcceptTxn_agreeing (response : PreAcceptResponse) (ok : response.ok = true) (within : p < numPartitions)
    (phase : info.phase = .preAccept) (participants : info.participants = [p]) {count : Nat} {deps : Dependencies}
    (short : count < numRegions) (held : (info.shardedDeps p).getD (.new numRegions) = ⟨numRegions, true, count, deps⟩)
    (agrees : count = 0 ∨ deps = response.deps.toFinset) :
    info.preAcceptTxn numRegions numPartitions p response =
      .ok (if count + 1 = numRegions then
          (none, .commit ((info.withDeps p ⟨numRegions, true, count + 1, response.deps.toFinset⟩).collectedDeps
            numPartitions))
        else (some (info.withDeps p ⟨numRegions, true, count + 1, response.deps.toFinset⟩), .wait)) := by
  have counted := @QuorumDeps.add_of_agreeing ⟨numRegions, true, count, deps⟩ _ rfl short agrees
  have notBeyond : ¬ numPartitions ≤ p := Nat.not_le_of_lt within
  by_cases last : count + 1 = numRegions
  · simp [CoordinatorTxnInfo.preAcceptTxn, ok, phase, held, counted, notBeyond, participants, participantsDone,
      within, last, CoordinatorTxnInfo.withDeps, QuorumDeps.isDone, bind, Except.bind, pure, Except.pure]
  · simp [CoordinatorTxnInfo.preAcceptTxn, ok, phase, held, counted, notBeyond, participants, participantsDone,
      within, last, CoordinatorTxnInfo.withDeps, QuorumDeps.isDone, bind, Except.bind, pure, Except.pure]

/-- Setting a partition's quorum keeps the other partitions' quorums. -/
theorem withDeps_others (others : ∀ q ≠ p, info.shardedDeps q = none) (quorum : QuorumDeps) :
    ∀ q ≠ p, (info.withDeps p quorum).shardedDeps q = none := fun q differs => by
  rw [CoordinatorTxnInfo.shardedDeps_withDeps, Function.update_of_ne differs, others q differs]

/-- A txn of one partition whose replicas in all regions answer with the same dependencies
commits on the fast path with those dependencies, at the last region's answer. -/
theorem answerAll_agreeing (response : PreAcceptResponse) (ok : response.ok = true) (within : p < numPartitions)
    (remaining : Nat) {count : Nat} {deps : Dependencies} (total : count + remaining + 1 = numRegions)
    (phase : info.phase = .preAccept) (participants : info.participants = [p])
    (others : ∀ q ≠ p, info.shardedDeps q = none)
    (held : (info.shardedDeps p).getD (.new numRegions) = ⟨numRegions, true, count, deps⟩)
    (agrees : count = 0 ∨ deps = response.deps.toFinset) :
    answerAll numRegions numPartitions (some info) (List.replicate (remaining + 1) (.preAccept p response)) =
      .ok (List.replicate remaining .wait ++ [.commit (response.deps.toFinset.image fun dep => (dep.1, dep.2, p))]) := by
  induction remaining generalizing info count deps with
  | zero =>
      have step := preAcceptTxn_agreeing response ok within phase participants (by omega) held agrees
      rw [if_pos (by omega), collectedDeps_single within (withDeps_others others _)
        (CoordinatorTxnInfo.shardedDeps_withDeps_self _ _ _)] at step
      simp [answerAll, answer, step, bind, Except.bind, pure, Except.pure]
  | succ remaining ih =>
      have step := preAcceptTxn_agreeing response ok within phase participants (by omega) held agrees
      rw [if_neg (by omega)] at step
      have rest := @ih (info.withDeps p ⟨numRegions, true, count + 1, response.deps.toFinset⟩) (count + 1)
        response.deps.toFinset (by omega) (by rw [CoordinatorTxnInfo.phase_withDeps, phase])
        (by rw [CoordinatorTxnInfo.participants_withDeps, participants]) (withDeps_others others _)
        (by rw [CoordinatorTxnInfo.shardedDeps_withDeps_self]; rfl) (Or.inr rfl)
      rw [List.replicate_succ, answerAll, answer, step]
      simp only [bind, Except.bind]
      rw [rest]
      rfl

end FastPath

/-- A txn on partition 0 that only reads key `k`. -/
def readingTxn : Transaction := ⟨⟨1, .singleHome, 0, [0], [0]⟩, none, [⟨"k", ⟨.read, none⟩⟩]⟩

/-- A txn on partition 0 that writes key `k`. -/
def writingTxn : Transaction := ⟨⟨2, .singleHome, 0, [0], [0]⟩, none, [⟨"k", ⟨.write, none⟩⟩]⟩

/-- Whatever the number of regions, when every replica of the partition gets the reader first,
both txns are answered with no dependency, and both coordinators commit on the fast path with
none: neither txn is ordered after the other. With two regions, one answer is an accept quorum,
and with four, two differing answers are a pre-accept quorum, so quorums of different regions
need not meet. -/
theorem read_then_write_left_unordered (numRegions : Nat) (regions : 0 < numRegions) :
    ((Acceptor.init.processPreAccept 1 (fun _ => true) readingTxn 0) >>= fun answered =>
        (answered.1.processPreAccept 1 (fun _ => true) writingTxn 0).map fun later => (answered.2, later.2)) =
      .ok (⟨1, true, []⟩, ⟨2, true, []⟩) ∧
    answerAll numRegions 1 (some (.new 1 [0])) (List.replicate numRegions (.preAccept 0 ⟨1, true, []⟩)) =
      .ok (List.replicate (numRegions - 1) .wait ++ [.commit ∅]) ∧
    answerAll numRegions 1 (some (.new 2 [0])) (List.replicate numRegions (.preAccept 0 ⟨2, true, []⟩)) =
      .ok (List.replicate (numRegions - 1) .wait ++ [.commit ∅]) ∧
    ((Quorum.new 2).inc.isDone = true ∧ Disjoint ({0} : Finset Nat) {1}) ∧
    (([∅, {(0, 0)}].foldl QuorumDeps.add (.new 4)).isDone = true ∧
      ([∅, {(0, 0)}].foldl QuorumDeps.add (.new 4)).count = 2 ∧ Disjoint ({0, 1} : Finset Nat) {2, 3}) := by
  have total : 0 + (numRegions - 1) + 1 = numRegions := by omega
  have commits : ∀ txnId, answerAll numRegions 1 (some (.new txnId [0]))
      (List.replicate numRegions (.preAccept 0 ⟨txnId, true, []⟩)) =
        .ok (List.replicate (numRegions - 1) .wait ++ [.commit ∅]) := by
    intro txnId
    have run := @answerAll_agreeing numRegions 1 0 (.new txnId [0]) ⟨txnId, true, []⟩ rfl Nat.one_pos
      (numRegions - 1) 0 ∅ total rfl rfl (fun _ _ => rfl) rfl (Or.inl rfl)
    rw [Nat.sub_add_cancel regions] at run
    simpa using run
  exact ⟨rfl, commits 1, commits 2, by decide, by decide⟩

/-- The run with three regions. -/
theorem read_then_write_three_regions : 0 < 3 ∧
    ((Acceptor.init.processPreAccept 1 (fun _ => true) readingTxn 0) >>= fun answered =>
        (answered.1.processPreAccept 1 (fun _ => true) writingTxn 0).map fun later => (answered.2, later.2)) =
      .ok (⟨1, true, []⟩, ⟨2, true, []⟩) ∧
    answerAll 3 1 (some (.new 1 [0])) (List.replicate 3 (.preAccept 0 ⟨1, true, []⟩)) =
      .ok (List.replicate (3 - 1) .wait ++ [.commit ∅]) ∧
    answerAll 3 1 (some (.new 2 [0])) (List.replicate 3 (.preAccept 0 ⟨2, true, []⟩)) =
      .ok (List.replicate (3 - 1) .wait ++ [.commit ∅]) ∧
    ((Quorum.new 2).inc.isDone = true ∧ Disjoint ({0} : Finset Nat) {1}) ∧
    (([∅, {(0, 0)}].foldl QuorumDeps.add (.new 4)).isDone = true ∧
      ([∅, {(0, 0)}].foldl QuorumDeps.add (.new 4)).count = 2 ∧ Disjoint ({0, 1} : Finset Nat) {2, 3}) :=
  ⟨by decide, read_then_write_left_unordered 3 (by decide)⟩

end Slog.Janus
