/-
The DDR lock manager, its resolver never run, and the RMA lock manager give the same answers to
the same calls.
-/

import Slog.Scheduler.DDRRefinement
import Slog.Scheduler.RMARefinement
import Slog.Scheduler.Deliveries

namespace Slog.Locking

/-- What the scheduler learns from one call: the result of `AcquireLocks`, or the set of txns a
`ReleaseLocks` call unblocked. -/
inductive LockReply where
  | acquired (result : AcquireLocksResult)
  | unblocked (txnIds : Finset TxnId)
  deriving DecidableEq

/-- The txns reported ready and not released since, after one call and its reply. -/
def reportReady (ready : Finset TxnId) : LockCall → LockReply → Finset TxnId
  | .acquireLocks txn, .acquired .acquired => insert txn.internal.id ready
  | .releaseLocks txnId, .unblocked txnIds => ready.erase txnId ∪ txnIds
  | _, _ => ready

/-- Every `ReleaseLocks` call is on a txn reported ready and not released since. -/
def ReleasesReady (ready : Finset TxnId) : List LockCall → List LockReply → Prop
  | [], _ => True
  | _ :: _, [] => True
  | .acquireLocks txn :: calls, reply :: replies =>
      ReleasesReady (reportReady ready (.acquireLocks txn) reply) calls replies
  | .releaseLocks txnId :: calls, reply :: replies =>
      txnId ∈ ready ∧ ReleasesReady (reportReady ready (.releaseLocks txnId) reply) calls replies

instance decidableReleasesReady :
    ∀ ready calls replies, Decidable (ReleasesReady ready calls replies)
  | _, [], _ => isTrue trivial
  | _, _ :: _, [] => isTrue trivial
  | ready, .acquireLocks txn :: calls, reply :: replies =>
      decidableReleasesReady (reportReady ready (.acquireLocks txn) reply) calls replies
  | ready, .releaseLocks txnId :: calls, reply :: replies =>
      @instDecidableAnd _ _ (Finset.decidableMem txnId ready)
        (decidableReleasesReady (reportReady ready (.releaseLocks txnId) reply) calls replies)

theorem AcquireLocksResult.eq_of_acquired_iff {result result' : AcquireLocksResult}
    (notAbort : result ≠ .abort) (notAbort' : result' ≠ .abort)
    (same : result = .acquired ↔ result' = .acquired) : result = result' := by
  cases result <;> cases result' <;> simp_all

end Slog.Locking

namespace Slog.DDR

open Locking

/-- One call on the DDR lock manager; the deadlocked flags of a release are dropped. -/
def DDRLockManager.call (lm : DDRLockManager) : LockCall → Except String (LockReply × DDRLockManager)
  | .acquireLocks txn => .ok (.acquired (lm.acquireLocks txn).1, (lm.acquireLocks txn).2)
  | .releaseLocks txnId => (lm.releaseLocks txnId).map fun released =>
      (.unblocked (released.1.map Prod.fst).toFinset, released.2)

/-- The replies to a list of calls; a failed `CHECK` ends the run. -/
def DDRLockManager.run (lm : DDRLockManager) : List LockCall → Except String (List LockReply)
  | [] => .ok []
  | call :: calls =>
      match lm.call call with
      | .error message => .error message
      | .ok (reply, lm') => (lm'.run calls).map (reply :: ·)

theorem DDRLockManager.run_cons_of_call {lm lm' : DDRLockManager} {call : LockCall} {reply : LockReply}
    (called : lm.call call = .ok (reply, lm')) (calls : List LockCall) :
    lm.run (call :: calls) = (lm'.run calls).map (reply :: ·) := by
  rw [DDRLockManager.run, called]

theorem DDRLockManager.acquireLocks_ne_abort (lm : DDRLockManager) (txn : Transaction) :
    (lm.acquireLocks txn).1 ≠ .abort := by
  simp only [DDRLockManager.acquireLocks]
  split <;> simp

end Slog.DDR

namespace Slog.RMA

open Locking

/-- One call on the RMA lock manager. -/
def RMALockManager.call (lm : RMALockManager) : LockCall → LockReply × RMALockManager
  | .acquireLocks txn => (.acquired (lm.acquireLocks txn).1, (lm.acquireLocks txn).2)
  | .releaseLocks txnId => (.unblocked (lm.releaseLocks txnId).1.toFinset, (lm.releaseLocks txnId).2)

def RMALockManager.run (lm : RMALockManager) : List LockCall → List LockReply
  | [] => []
  | call :: calls => (lm.call call).1 :: (lm.call call).2.run calls

theorem RMALockManager.acquireLocks_ne_abort (lm : RMALockManager) (txn : Transaction) :
    (lm.acquireLocks txn).1 ≠ .abort := by
  simp only [RMALockManager.acquireLocks]
  split <;> simp

end Slog.RMA

namespace Slog.Locking

open DDR RMA

/-- The two lock managers after the same calls: both follow one abstract lock manager that
accounts for the lock-only txns delivered so far, and the txns reported ready and not released
since are the ready txns there. -/
structure Agree (ids : Finset TxnId) (delivered : List Transaction) (ready : Finset TxnId)
    (ddr : DDRLockManager) (rma : RMALockManager) (spec : LockSpec) : Prop where
  inv : spec.Inv
  accounts : Accounts spec delivered
  followsDDR : DDR.Simulates ids ddr spec
  followsRMA : RMA.Simulates rma spec
  reported : ∀ txnId, txnId ∈ ready ↔ spec.Ready txnId

theorem agree_init (ids : Finset TxnId) (hasResolver : Bool) :
    Agree ids [] ∅ (DDRLockManager.init hasResolver) RMALockManager.init LockSpec.init where
  inv := LockSpec.init_inv
  accounts := accounts_init
  followsDDR := DDR.simulates_init ids hasResolver
  followsRMA := RMA.simulates_init
  reported txnId := by simp [LockSpec.Ready, LockSpec.init]

section Steps

variable {ids : Finset TxnId} {delivered : List Transaction} {ready : Finset TxnId}
  {ddr : DDRLockManager} {rma : RMALockManager} {spec : LockSpec}

/-- Both answer a lock-only txn alike, and still agree after it. -/
theorem Agree.acquireLocks (agree : Agree ids delivered ready ddr rma spec) {txn : Transaction}
    {rest : List Transaction} (wf : Deliveries (delivered ++ txn :: rest)) (member : txn.internal.id ∈ ids) :
    (ddr.acquireLocks txn).1 = (rma.acquireLocks txn).1 ∧
      Agree ids (delivered ++ [txn]) (reportReady ready (.acquireLocks txn) (.acquired (rma.acquireLocks txn).1))
        (ddr.acquireLocks txn).2 (rma.acquireLocks txn).2 (spec.acquire txn) := by
  have fresh := agree.accounts.fresh wf
  have ddrAcquired := agree.followsDDR.acquireLocks_acquired_iff agree.inv fresh member
  have rmaAcquired := agree.followsRMA.acquireLocks_acquired_iff agree.inv fresh
  refine ⟨AcquireLocksResult.eq_of_acquired_iff (ddr.acquireLocks_ne_abort txn)
    (rma.acquireLocks_ne_abort txn) (ddrAcquired.trans rmaAcquired.symm), ?_⟩
  refine ⟨agree.inv.acquire fresh, agree.accounts.acquire fresh.notReleased,
    agree.followsDDR.acquire agree.inv fresh member, agree.followsRMA.acquire agree.inv fresh, ?_⟩
  intro other
  by_cases self : other = txn.internal.id
  · -- the txn was not ready before its lock-only txn; it is reported exactly when acquired
    subst self
    have notBefore : txn.internal.id ∉ ready := fun listed =>
      fresh.not_ready (wf.locks txn (by simp)) ((agree.reported _).mp listed)
    rw [← rmaAcquired]
    cases (rma.acquireLocks txn).1 <;> simp [reportReady, notBefore]
  · rw [LockSpec.ready_acquire_of_ne fresh.notReleased self, ← agree.reported]
    cases (rma.acquireLocks txn).1 <;> simp [reportReady, self]

/-- Releasing a reported txn: the DDR lock manager passes its `CHECK`, both report the same
txns, and they still agree after it. -/
theorem Agree.releaseLocks (agree : Agree ids delivered ready ddr rma spec) {txnId : TxnId}
    (member : txnId ∈ ready) :
    ∃ result ddr', ddr.releaseLocks txnId = .ok (result, ddr') ∧
      (result.map Prod.fst).toFinset = (rma.releaseLocks txnId).1.toFinset ∧
      Agree ids delivered (reportReady ready (.releaseLocks txnId) (.unblocked (rma.releaseLocks txnId).1.toFinset))
        ddr' (rma.releaseLocks txnId).2 (spec.release txnId) := by
  have isReady := (agree.reported txnId).mp member
  obtain ⟨info, found⟩ : ∃ info, ddr.txnInfo txnId = some info := by
    have known := agree.followsDDR.unarrived txnId
    rw [isReady.1] at known
    exact Option.isSome_iff_exists.mp (by simpa using congrArg Option.isSome known)
  obtain ⟨info', found'⟩ : ∃ info, rma.txnInfo txnId = some info := by
    have known := agree.followsRMA.known txnId
    rw [isReady.1] at known
    exact Option.isSome_iff_exists.mp (by simpa using known)
  have ddrReady := (agree.followsDDR.isReady_iff agree.inv found).mpr isReady
  have rmaReady := (agree.followsRMA.isReady_iff agree.inv found').mpr isReady
  have released := releaseLocks_of_ready found ddrReady
  refine ⟨_, _, released, ?_, ?_⟩
  · ext other
    rw [List.mem_toFinset, List.mem_toFinset, agree.followsDDR.mem_releaseLocks_iff agree.inv found ddrReady
      released, agree.followsRMA.mem_releaseLocks_iff agree.inv found' rmaReady]
  refine ⟨agree.inv.release isReady, agree.accounts.release isReady,
    agree.followsDDR.release found ddrReady released, agree.followsRMA.release agree.inv found' rmaReady, ?_⟩
  intro other
  simp only [reportReady, Finset.mem_union, Finset.mem_erase, List.mem_toFinset]
  rw [agree.followsRMA.mem_releaseLocks_iff agree.inv found' rmaReady, agree.reported]
  by_cases self : other = txnId
  · -- the released txn is gone
    subst self
    have gone : ¬(spec.release other).Ready other := by
      simp [LockSpec.Ready, release_unarrived]
    simp [gone]
  · -- a txn ready before stays ready; the others are the ones the release made ready
    have stays := LockSpec.ready_release_of_ne agree.inv self
    constructor
    · rintro (⟨-, before⟩ | ⟨after, -⟩)
      · exact stays before
      · exact after
    · intro after
      by_cases before : spec.Ready other
      · exact .inl ⟨self, before⟩
      · exact .inr ⟨after, before⟩

/-- Over calls whose lock-only txns are delivered as the sequencer delivers them and whose
releases are of reported txns, the DDR lock manager gives the replies of the RMA one. -/
theorem Agree.run (agree : Agree ids delivered ready ddr rma spec) (calls : List LockCall)
    (wf : Deliveries (delivered ++ deliveries calls)) (covered : ∀ txn ∈ deliveries calls, txn.internal.id ∈ ids)
    (releases : ReleasesReady ready calls (rma.run calls)) : ddr.run calls = .ok (rma.run calls) := by
  induction calls generalizing delivered ready ddr rma spec with
  | nil => rfl
  | cons call calls ih =>
      cases call with
      | acquireLocks txn =>
          rw [deliveries_acquireLocks] at wf covered
          obtain ⟨same, agree'⟩ := agree.acquireLocks wf (covered txn List.mem_cons_self)
          have called : ddr.call (.acquireLocks txn) =
              .ok (.acquired (rma.acquireLocks txn).1, (ddr.acquireLocks txn).2) := by
            rw [DDRLockManager.call, same]
          have rest := ih agree' (by simpa using wf)
            (fun txn' member => covered txn' (List.mem_cons_of_mem _ member)) releases
          rw [DDRLockManager.run_cons_of_call called, rest]
          rfl
      | releaseLocks txnId =>
          rw [deliveries_releaseLocks] at wf covered
          obtain ⟨member, releases⟩ := releases
          obtain ⟨result, ddr', released, same, agree'⟩ := agree.releaseLocks member
          have called : ddr.call (.releaseLocks txnId) =
              .ok (.unblocked (rma.releaseLocks txnId).1.toFinset, ddr') := by
            rw [DDRLockManager.call, released, ← same]
            rfl
          have rest := ih agree' wf covered releases
          rw [DDRLockManager.run_cons_of_call called, rest]
          rfl

end Steps

/-- The txns of a list of calls. -/
def callIds (calls : List LockCall) : Finset TxnId :=
  ((deliveries calls).map (·.internal.id)).toFinset

theorem ddr_run_eq_rma_run (hasResolver : Bool) (calls : List LockCall)
    (delivered : Deliveries (deliveries calls))
    (releases : ReleasesReady ∅ calls (RMALockManager.init.run calls)) :
    (DDRLockManager.init hasResolver).run calls = .ok (RMALockManager.init.run calls) :=
  (agree_init (callIds calls) hasResolver).run calls (by simpa using delivered)
    (fun txn member => List.mem_toFinset.mpr (List.mem_map_of_mem member)) releases

/-- A writer of key A, and a reader of it that waits for the writer. -/
def writerTxn : Transaction := ⟨⟨1, .singleHome, 0, [0], [0]⟩, none, [⟨"A", ⟨.write, some ⟨0, 0⟩⟩⟩]⟩

def readerTxn : Transaction := ⟨⟨2, .singleHome, 0, [0], [0]⟩, none, [⟨"A", ⟨.read, some ⟨0, 0⟩⟩⟩]⟩

/-- The writer is granted, the reader waits, and the writer's release hands the lock on. -/
def handoffCalls : List LockCall :=
  [.acquireLocks writerTxn, .acquireLocks readerTxn, .releaseLocks 1, .releaseLocks 2]

theorem handoff_runs_agree :
    Deliveries (deliveries handoffCalls) ∧ ReleasesReady ∅ handoffCalls (RMALockManager.init.run handoffCalls) ∧
      (DDRLockManager.init false).run handoffCalls = .ok (RMALockManager.init.run handoffCalls) := by
  have delivered : Deliveries (deliveries handoffCalls) := {
    notSentinel := by decide
    distinctKeys := by decide
    locks := by decide
    sameTxn := by decide
    homes := fun txnId => by
      by_cases first : txnId = 1
      · subst first
        decide
      · by_cases second : txnId = 2
        · subst second
          decide
        · simp [handoffCalls, ofTxn, writerTxn, readerTxn, Ne.symm first, Ne.symm second]
    remaster := by decide }
  have releases : ReleasesReady ∅ handoffCalls (RMALockManager.init.run handoffCalls) := by
    simp only [handoffCalls, RMALockManager.run, RMALockManager.call, RMALockManager.releaseLocks,
      sortUnique_eq_insertionSort]
    decide
  exact ⟨delivered, releases, ddr_run_eq_rma_run false handoffCalls delivered releases⟩

/-- A txn that lists key A twice, as a write and as a read. -/
def repeatedKeyTxn : Transaction :=
  ⟨⟨1, .singleHome, 0, [0], [0]⟩, none, [⟨"A", ⟨.write, some ⟨0, 0⟩⟩⟩, ⟨"A", ⟨.read, some ⟨0, 0⟩⟩⟩]⟩

/-- With a repeated key the two lock managers part: DDR grants the txn, whose read follows its own
write in the queue tail, while RMA queues the read behind the txn's own write lock. -/
theorem repeated_key_runs_differ :
    (DDRLockManager.init false).run [.acquireLocks repeatedKeyTxn] = .ok [.acquired .acquired] ∧
      RMALockManager.init.run [.acquireLocks repeatedKeyTxn] = [.acquired .waiting] := by
  simp only [DDRLockManager.run, DDRLockManager.call, DDRLockManager.acquireLocks, RMALockManager.run,
    RMALockManager.call, sortUnique_eq_insertionSort]
  decide

end Slog.Locking
