/-
The DDR lock manager, while its resolver does not run, simulates the abstract lock manager: its
tails and counted waits-for graph make a txn ready exactly when the model does.
-/

import Mathlib.Algebra.Order.BigOperators.Group.Finset
import Slog.Scheduler.DDRLockManager
import Slog.Scheduler.LockSpec

namespace Slog.DDR

open ReaderWriter Locking

def LockQueueTail.ofTail (tail : Tail TxnId) : LockQueueTail := ⟨tail.writer, tail.readers⟩

theorem acquireReadLock_ofTail (tail : Tail TxnId) (txnId : TxnId) :
    (LockQueueTail.ofTail tail).acquireReadLock txnId =
      (tail.writer, LockQueueTail.ofTail (tail.push (txnId, false))) := by
  simp [LockQueueTail.acquireReadLock, LockQueueTail.ofTail, Tail.push]

theorem acquireWriteLock_ofTail (tail : Tail TxnId) (txnId : TxnId) :
    (LockQueueTail.ofTail tail).acquireWriteLock txnId =
      (tail.waitsFor true, LockQueueTail.ofTail (tail.push (txnId, true))) := by
  by_cases empty : tail.readers = [] <;>
    simp [LockQueueTail.acquireWriteLock, LockQueueTail.ofTail, Tail.push, Tail.waitsFor, empty]

theorem writer_toList (tail : Tail TxnId) : tail.writer.toList = tail.waitsFor false := by
  simp [Tail.waitsFor]

/-- What the key loop of `AcquireLocks` adds for the keys it has seen: the requests they
make, the blockers each finds in its tail, and the tails after them. -/
theorem foldl_scanKey (txn : Transaction) (history : KeyRegion → List (TxnId × Bool)) :
    ∀ (keys : List KeyValueEntry) (scan : KeyScan),
    (∀ keyRegion, scan.lockTable keyRegion = LockQueueTail.ofTail (tailOf (history keyRegion))) →
    (((keys.filter txn.isRelevant).map (keyRequest txn)).map Prod.fst).Nodup →
    let result := keys.foldl (scanKey txn) scan
    result.numRelevantLocks = scan.numRelevantLocks + ((keys.filter txn.isRelevant).length : Int) ∧
    result.blockingTxns = scan.blockingTxns ++
      ((keys.filter txn.isRelevant).map (keyRequest txn)).flatMap
        (fun request => (tailOf (history request.1)).waitsFor request.2) ∧
    ∀ keyRegion, result.lockTable keyRegion = LockQueueTail.ofTail (tailOf (history keyRegion ++
      ((((keys.filter txn.isRelevant).map (keyRequest txn)).filter (·.1 = keyRegion)).map
        fun request => (txn.internal.id, request.2))))
  | [], scan, tails, _ => by simpa using tails
  | kv :: keys, scan, tails, distinct => by
      by_cases relevant : txn.isRelevant kv = true
      · -- the key makes a request on its key-region and moves that tail on
        have rest : (((keys.filter txn.isRelevant).map (keyRequest txn)).map Prod.fst).Nodup := by
          simp only [List.filter_cons, relevant, if_true, List.map_cons, List.nodup_cons] at distinct
          exact distinct.2
        have fresh : ∀ request ∈ (keys.filter txn.isRelevant).map (keyRequest txn),
            request.1 ≠ (keyRequest txn kv).1 := by
          simp only [List.filter_cons, relevant, if_true, List.map_cons, List.nodup_cons] at distinct
          intro request member same
          exact distinct.1 (same ▸ List.mem_map_of_mem member)
        let history' := Function.update history (keyRequest txn kv).1
          (history (keyRequest txn kv).1 ++ [(txn.internal.id, (keyRequest txn kv).2)])
        have moved : ∀ keyRegion, (scanKey txn scan kv).lockTable keyRegion =
            LockQueueTail.ofTail (tailOf (history' keyRegion)) := by
          intro keyRegion
          by_cases here : keyRegion = (keyRequest txn kv).1
          · subst here
            cases write : kv.valueEntry.type <;>
              simp [scanKey, relevant, write, keyRequest, history', tails, acquireReadLock_ofTail,
                acquireWriteLock_ofTail, KeyType.isWrite]
          · have other : keyRegion ≠ makeKeyRegion kv.key txn.internal.home := here
            cases write : kv.valueEntry.type <;>
              simp [scanKey, relevant, write, history', here, other, tails]
        have ih := foldl_scanKey txn history' keys (scanKey txn scan kv) moved rest
        have sameTails : ∀ request ∈ (keys.filter txn.isRelevant).map (keyRequest txn),
            history' request.1 = history request.1 := by
          intro request member
          simp [history', fresh request member]
        obtain ⟨count, blockers, table⟩ := ih
        refine ⟨?_, ?_, ?_⟩
        · rw [List.foldl_cons, count]
          cases write : kv.valueEntry.type <;> simp [scanKey, relevant, write] <;> omega
        · rw [List.foldl_cons, blockers]
          have mapped : ((keys.filter txn.isRelevant).map (keyRequest txn)).flatMap
              (fun request => (tailOf (history' request.1)).waitsFor request.2) =
              ((keys.filter txn.isRelevant).map (keyRequest txn)).flatMap
              (fun request => (tailOf (history request.1)).waitsFor request.2) :=
            List.flatMap_congr (fun request member => by rw [sameTails request member])
          rw [mapped]
          cases write : kv.valueEntry.type <;>
            simp [scanKey, relevant, write, keyRequest, tails, acquireReadLock_ofTail,
              acquireWriteLock_ofTail, writer_toList, KeyType.isWrite]
        · intro keyRegion
          rw [List.foldl_cons, table keyRegion]
          by_cases here : keyRegion = (keyRequest txn kv).1
          · subst here
            have none : ((keys.filter txn.isRelevant).map (keyRequest txn)).filter
                (·.1 = (keyRequest txn kv).1) = [] := by
              rw [List.filter_eq_nil_iff]
              intro request member
              simpa using fresh request member
            simp [history', none, relevant]
          · simp [history', here, relevant, Ne.symm here]
      · -- a key homed elsewhere is skipped
        have skipped : scanKey txn scan kv = scan := by simp [scanKey, relevant]
        have distinct' : (((keys.filter txn.isRelevant).map (keyRequest txn)).map Prod.fst).Nodup := by
          simpa [List.filter_cons, relevant] using distinct
        have ih := foldl_scanKey txn history keys scan tails distinct'
        simpa [List.filter_cons, relevant, skipped] using ih

/-- The blocker loop of `AcquireLocks` over distinct blockers: the new txn counts every
blocker still in the table but itself, and each of those lists the new txn once more. -/
theorem foldl_addWaitedBy (txnId : TxnId) :
    ∀ (blockers : List TxnId) (table : TxnId → Option TxnInfo) (info : TxnInfo),
    blockers.Nodup → table txnId = some info → ∀ other,
    blockers.foldl (addWaitedBy txnId) table other =
      if other = txnId then some { info with numWaitingFor := info.numWaitingFor +
          ((blockers.filter fun blocker => blocker ≠ txnId ∧ (table blocker).isSome).length : Int) }
      else (table other).map fun blockerInfo =>
        if other ∈ blockers then { blockerInfo with waitedBy := blockerInfo.waitedBy ++ [txnId] }
        else blockerInfo
  | [], table, info, _, found, other => by
      by_cases same : other = txnId
      · subst same
        simp [found]
      · simp [same]
  | blocker :: rest, table, info, distinct, found, other => by
      have restDistinct := (List.nodup_cons.mp distinct).2
      have fresh := (List.nodup_cons.mp distinct).1
      rw [List.foldl_cons]
      by_cases self : blocker = txnId
      · -- the txn itself is skipped
        have step : addWaitedBy txnId table blocker = table := by simp [addWaitedBy, self]
        rw [step, foldl_addWaitedBy txnId rest table info restDistinct found other]
        by_cases same : other = txnId
        · simp [same, self]
        · have notBlocker : other ≠ blocker := by rw [self]; exact same
          simp [same, notBlocker]
      · cases present : table blocker with
        | none =>
            have step : addWaitedBy txnId table blocker = table := by simp [addWaitedBy, self, present]
            rw [step, foldl_addWaitedBy txnId rest table info restDistinct found other]
            by_cases same : other = txnId
            · simp [same, present]
            · by_cases here : other = blocker
              · subst here
                simp [present]
              · simp [same, here]
        | some blockerInfo =>
            let table' := Function.update
              (Function.update table txnId (some { info with numWaitingFor := info.numWaitingFor + 1 }))
              blocker (some { blockerInfo with waitedBy := blockerInfo.waitedBy ++ [txnId] })
            have step : addWaitedBy txnId table blocker = table' := by
              simp [addWaitedBy, self, present, found, table']
            have found' : table' txnId = some { info with numWaitingFor := info.numWaitingFor + 1 } := by
              simp [table', Ne.symm self]
            have kept : ∀ other, (table' other).isSome = (table other).isSome := by
              intro other
              by_cases here : other = blocker
              · subst here
                simp [table', present]
              · by_cases same : other = txnId
                · subst same
                  simp [table', here, found]
                · simp [table', here, same]
            rw [step, foldl_addWaitedBy txnId rest table' _ restDistinct found' other]
            have filtered : (rest.filter fun other => other ≠ txnId ∧ (table' other).isSome) =
                rest.filter fun other => other ≠ txnId ∧ (table other).isSome := by
              apply List.filter_congr
              intro other _
              rw [kept other]
            by_cases same : other = txnId
            · have counted : ((blocker :: rest).filter fun other => other ≠ txnId ∧ (table other).isSome).length =
                  (rest.filter fun other => other ≠ txnId ∧ (table other).isSome).length + 1 := by
                simp [self, present]
              rw [if_pos same, if_pos same, filtered, counted]
              simp only [Option.some.injEq]
              congr 1
              push_cast
              omega
            · by_cases here : other = blocker
              · subst here
                simp [table', same, fresh, present]
              · simp [table', same, here]

/-- The waiter loop of `ReleaseLocks` takes each txn's count down once per entry of the
released txn's waited-by list. -/
theorem foldl_releaseWaiter_table :
    ∀ (waiters : List TxnId) (acc : List (TxnId × Bool) × (TxnId → Option TxnInfo)) (other : TxnId),
    (waiters.foldl releaseWaiter acc).2 other = (acc.2 other).map fun info =>
      if other = kSentinelTxnId then info
      else { info with numWaitingFor := info.numWaitingFor - waiters.count other }
  | [], acc, other => by
      simp
  | waiter :: rest, acc, other => by
      rw [List.foldl_cons, foldl_releaseWaiter_table rest]
      by_cases sentinel : waiter = kSentinelTxnId
      · have step : releaseWaiter acc waiter = acc := by simp [releaseWaiter, sentinel]
        rw [step]
        by_cases same : other = kSentinelTxnId
        · simp [same]
        · have different : waiter ≠ other := by rw [sentinel]; exact Ne.symm same
          simp [same, different]
      · cases present : acc.2 waiter with
        | none =>
            have step : releaseWaiter acc waiter = acc := by simp [releaseWaiter, sentinel, present]
            rw [step]
            by_cases here : other = waiter
            · subst here
              simp [present]
            · simp [Ne.symm here]
        | some info =>
            by_cases here : other = waiter
            · subst here
              simp only [releaseWaiter, sentinel, present, if_false, Function.update_self,
                Option.map_some, List.count_cons, beq_self_eq_true, if_true, Option.some.injEq]
              push_cast
              congr 1
              omega
            · simp [releaseWaiter, sentinel, present, Function.update_of_ne here,
                Ne.symm here]

/-- The waiter loop reports a txn exactly when its last entry takes its count to zero and all
its lock requests have arrived; the count never goes below the entries still to come. -/
theorem mem_foldl_releaseWaiter :
    ∀ (waiters : List TxnId) (acc : List (TxnId × Bool) × (TxnId → Option TxnInfo)),
    (∀ other info, acc.2 other = some info → other ≠ kSentinelTxnId →
      (waiters.count other : Int) ≤ info.numWaitingFor) →
    ∀ other, other ∈ (waiters.foldl releaseWaiter acc).1.map Prod.fst ↔
      other ∈ acc.1.map Prod.fst ∨ (other ∈ waiters ∧ other ≠ kSentinelTxnId ∧
        ∃ info, acc.2 other = some info ∧ info.numWaitingFor - waiters.count other = 0 ∧
          info.unarrivedLockRequests = 0)
  | [], acc, _, other => by simp
  | waiter :: rest, acc, enough, other => by
      rw [List.foldl_cons]
      by_cases sentinel : waiter = kSentinelTxnId
      · have step : releaseWaiter acc waiter = acc := by simp [releaseWaiter, sentinel]
        have enough' : ∀ other info, acc.2 other = some info → other ≠ kSentinelTxnId →
            (rest.count other : Int) ≤ info.numWaitingFor := by
          intro other info found notSentinel
          have := enough other info found notSentinel
          have different : waiter ≠ other := by rw [sentinel]; exact Ne.symm notSentinel
          simpa [List.count_cons, different] using this
        rw [step, mem_foldl_releaseWaiter rest acc enough' other]
        by_cases same : other = kSentinelTxnId
        · simp [same]
        · have different : waiter ≠ other := by rw [sentinel]; exact Ne.symm same
          simp [different, Ne.symm different]
      · cases present : acc.2 waiter with
        | none =>
            have step : releaseWaiter acc waiter = acc := by simp [releaseWaiter, sentinel, present]
            have enough' : ∀ other info, acc.2 other = some info → other ≠ kSentinelTxnId →
                (rest.count other : Int) ≤ info.numWaitingFor := by
              intro other info found notSentinel
              have := enough other info found notSentinel
              have different : waiter ≠ other := by
                rintro rfl
                simp [present] at found
              simpa [List.count_cons, different] using this
            rw [step, mem_foldl_releaseWaiter rest acc enough' other]
            by_cases here : other = waiter
            · subst here
              simp [present]
            · simp [Ne.symm here, here]
        | some info =>
            let info' := { info with numWaitingFor := info.numWaitingFor - 1 }
            let acc' := (if info'.isReady then acc.1 ++ [(waiter, info'.deadlocked)] else acc.1,
              Function.update acc.2 waiter (some info'))
            have step : releaseWaiter acc waiter = acc' := by simp [releaseWaiter, sentinel, present, acc', info']
            have bound := enough waiter info present sentinel
            simp only [List.count_cons_self] at bound
            have enough' : ∀ other info, acc'.2 other = some info → other ≠ kSentinelTxnId →
                (rest.count other : Int) ≤ info.numWaitingFor := by
              intro other found inTable notSentinel
              by_cases here : other = waiter
              · subst here
                simp only [acc', Function.update_self, Option.some.injEq] at inTable
                subst inTable
                simp only [info']
                push_cast at bound
                omega
              · have := enough other found (by simpa [acc', Function.update_of_ne here] using inTable)
                  notSentinel
                simpa [List.count_cons, Ne.symm here] using this
            rw [step, mem_foldl_releaseWaiter rest acc' enough' other]
            by_cases here : other = waiter
            · subst here
              have earlier : ∀ rest' : List TxnId, other ∈ rest' →
                  ((rest'.count other : Nat) : Int) ≥ 1 := by
                intro rest' member
                have := List.count_pos_iff.mpr member
                omega
              constructor
              · rintro (reported | ⟨member, _, found', found, zero, arrived⟩)
                · by_cases ready : info'.isReady = true
                  · simp only [acc', ready, if_true, List.map_append, List.mem_append,
                      List.mem_map, List.mem_singleton] at reported
                    rcases reported with old | _
                    · exact .inl (List.mem_map.mpr old)
                    · right
                      have drained : info.numWaitingFor - 1 = 0 := by
                        simpa [info', TxnInfo.isReady] using (Bool.and_eq_true _ _).mp ready |>.1
                      refine ⟨List.mem_cons_self, sentinel, info, present, ?_, ?_⟩
                      · push_cast at bound
                        simp only [List.count_cons_self]
                        push_cast
                        omega
                      · simpa [info', TxnInfo.isReady] using (Bool.and_eq_true _ _).mp ready |>.2
                  · simp only [acc', ready] at reported
                    exact .inl (by simpa using reported)
                · simp only [acc', Function.update_self, Option.some.injEq] at found
                  subst found
                  right
                  refine ⟨List.mem_cons_self, sentinel, info, present, ?_, arrived⟩
                  simp only [List.count_cons_self]
                  push_cast
                  simp only [info'] at zero
                  omega
              · rintro (old | ⟨_, _, found', found, zero, arrived⟩)
                · left
                  obtain ⟨entry, member, named⟩ := List.mem_map.mp old
                  apply List.mem_map.mpr
                  refine ⟨entry, ?_, named⟩
                  by_cases ready : info'.isReady = true
                  · simp only [acc', ready, if_true]
                    exact List.mem_append_left _ member
                  · simp only [acc', ready]
                    simpa using member
                · rw [present, Option.some.injEq] at found
                  subst found
                  simp only [List.count_cons_self] at zero
                  by_cases later : other ∈ rest
                  · right
                    refine ⟨later, sentinel, info', by simp [acc'], ?_, arrived⟩
                    simp only [info']
                    push_cast at zero
                    omega
                  · left
                    have none : rest.count other = 0 := List.count_eq_zero.mpr later
                    have ready : info'.isReady = true := by
                      simp only [none] at zero
                      simp [info', TxnInfo.isReady, arrived]
                      omega
                    simp [acc', ready]
            · have otherEntry : acc'.2 other = acc.2 other := by
                simp [acc', Function.update_of_ne here]
              have sameReports : other ∈ acc'.1.map Prod.fst ↔ other ∈ acc.1.map Prod.fst := by
                by_cases ready : info'.isReady = true <;> simp [acc', ready, here]
              rw [otherEntry, sameReports]
              simp [Ne.symm here, here]

/-- The waited-by list of a txn in the table, empty once the txn left. -/
def waitedByOf (table : TxnId → Option TxnInfo) (txnId : TxnId) : List TxnId :=
  ((table txnId).map TxnInfo.waitedBy).getD []

/-- The entries naming a txn in the waited-by lists of the txns of `ids`. -/
def incoming (table : TxnId → Option TxnInfo) (ids : Finset TxnId) (txnId : TxnId) : Int :=
  ∑ other ∈ ids, ((waitedByOf table other).count txnId : Int)

/-- The DDR lock manager follows the abstract one; `ids` holds every txn of the run.
The lock table holds the tails of the queues, the unarrived counts agree, each txn counts the
entries naming it, every entry comes from a tail, and every blocker a tail showed is either
released or still lists the txn it blocks. -/
structure Simulates (ids : Finset TxnId) (lm : DDRLockManager) (spec : LockSpec) : Prop where
  tails : ∀ keyRegion, lm.lockTable keyRegion = LockQueueTail.ofTail (tailOf (spec.history keyRegion))
  unarrived : ∀ txnId, (lm.txnInfo txnId).map TxnInfo.unarrivedLockRequests = spec.unarrived txnId
  covers : ∀ txnId, (lm.txnInfo txnId).isSome → txnId ∈ ids
  notSentinel : ∀ txnId, (lm.txnInfo txnId).isSome → txnId ≠ kSentinelTxnId
  counts : ∀ txnId info, lm.txnInfo txnId = some info →
    info.numWaitingFor = incoming lm.txnInfo ids txnId
  sound : ∀ blocker waiter, waiter ∈ waitedByOf lm.txnInfo blocker → waiter ≠ kSentinelTxnId →
    ∃ keyRegion front write back, spec.history keyRegion = front ++ (waiter, write) :: back ∧
      blocker ∈ (tailOf front).waitsFor write
  complete : ∀ keyRegion front waiter write back,
    spec.history keyRegion = front ++ (waiter, write) :: back → spec.released waiter = false →
    ∀ blocker ∈ (tailOf front).waitsFor write,
      spec.released blocker = true ∨ waiter ∈ waitedByOf lm.txnInfo blocker

theorem simulates_init (ids : Finset TxnId) (hasResolver : Bool) :
    Simulates ids (DDRLockManager.init hasResolver) LockSpec.init where
  tails keyRegion := rfl
  unarrived txnId := rfl
  covers txnId present := by simp [DDRLockManager.init] at present
  notSentinel txnId present := by simp [DDRLockManager.init] at present
  counts txnId info found := by simp [DDRLockManager.init] at found
  sound blocker waiter member := by simp [DDRLockManager.init, waitedByOf] at member
  complete keyRegion front waiter write back split := by simp [LockSpec.init] at split

section Readiness

variable {ids : Finset TxnId} {lm : DDRLockManager} {spec : LockSpec}

theorem waitedByOf_of_none {table : TxnId → Option TxnInfo} {txnId : TxnId}
    (absent : table txnId = none) : waitedByOf table txnId = [] := by
  simp [waitedByOf, absent]

theorem isSome_of_mem_waitedByOf {table : TxnId → Option TxnInfo} {blocker waiter : TxnId}
    (member : waiter ∈ waitedByOf table blocker) : (table blocker).isSome := by
  cases found : table blocker with
  | none => simp [waitedByOf_of_none found] at member
  | some _ => rfl

/-- A txn in the table is not released in the abstract model. -/
theorem Simulates.not_released (sim : Simulates ids lm spec) (inv : spec.Inv) {txnId : TxnId}
    (present : (lm.txnInfo txnId).isSome) : spec.released txnId = false := by
  obtain ⟨info, found⟩ := Option.isSome_iff_exists.mp present
  have known := sim.unarrived txnId
  rw [found] at known
  exact inv.not_released_of_unarrived known.symm

/-- No entry names a txn exactly when its count is zero. -/
theorem Simulates.count_eq_zero_iff (sim : Simulates ids lm spec) {txnId : TxnId} {info : TxnInfo}
    (found : lm.txnInfo txnId = some info) :
    info.numWaitingFor = 0 ↔ ∀ blocker, txnId ∉ waitedByOf lm.txnInfo blocker := by
  rw [sim.counts txnId info found, incoming,
    Finset.sum_eq_zero_iff_of_nonneg (fun other _ => by omega)]
  constructor
  · intro none blocker member
    have inside := sim.covers blocker (isSome_of_mem_waitedByOf member)
    have zero := none blocker inside
    simp only [Int.natCast_eq_zero, List.count_eq_zero] at zero
    exact zero member
  · intro none other _
    simpa [List.count_eq_zero] using none other

/-- An entry naming a txn comes from a blocker that is still there and conflicts with it. -/
theorem Simulates.not_granted_of_mem (sim : Simulates ids lm spec) (inv : spec.Inv)
    {blocker waiter : TxnId} (member : waiter ∈ waitedByOf lm.txnInfo blocker)
    (present : (lm.txnInfo waiter).isSome) : ¬spec.Granted waiter := by
  intro granted
  obtain ⟨keyRegion, front, write, back, split, blocks⟩ :=
    sim.sound blocker waiter member (sim.notSentinel waiter present)
  obtain ⟨earlier, inFront, named, conflict⟩ := mem_waitsFor blocks
  have blockerHere := sim.not_released inv (isSome_of_mem_waitedByOf member)
  have queue := queue_eq_of_history split (sim.not_released inv present)
  have free := granted keyRegion _ _ _ queue earlier
    (List.mem_filter.mpr ⟨inFront, by rw [named]; simp [blockerHere]⟩)
  rw [free] at conflict
  exact Bool.false_ne_true conflict

/-- A txn that no entry names has no conflicting request before it: its direct blockers are
released, and the closure lemma carries that to every earlier conflicting request. -/
theorem Simulates.granted_of_not_mem (sim : Simulates ids lm spec) (inv : spec.Inv)
    {waiter : TxnId} (present : (lm.txnInfo waiter).isSome)
    (none : ∀ blocker, waiter ∉ waitedByOf lm.txnInfo blocker) : spec.Granted waiter := by
  intro keyRegion frontQueue write backQueue queue request inFront
  have notReleased := sim.not_released inv present
  have inHistory : (waiter, write) ∈ spec.history keyRegion := by
    have member : (waiter, write) ∈ spec.queue keyRegion := by simp [queue]
    exact (List.mem_filter.mp member).1
  obtain ⟨front, back, split⟩ := List.append_of_mem inHistory
  have filtered := queue_eq_of_history split notReleased
  have owners := inv.once keyRegion
  rw [split, List.map_append, List.map_cons] at owners
  have absent : waiter ∉ front.map Prod.fst := (List.nodup_middle.mp owners |> List.nodup_cons.mp).1 ∘
    (fun member => List.mem_append_left _ member)
  have queueOwners : ((spec.queue keyRegion).map Prod.fst).Nodup :=
    (inv.once keyRegion).sublist (List.Sublist.map Prod.fst List.filter_sublist)
  rw [queue, List.map_append, List.map_cons] at queueOwners
  have absentQueue : waiter ∉ frontQueue.map Prod.fst := (List.nodup_middle.mp queueOwners |>
    List.nodup_cons.mp).1 ∘ (fun member => List.mem_append_left _ member)
  have absentFiltered : waiter ∉ (front.filter fun request => !spec.released request.1).map Prod.fst :=
    fun member => absent (List.Sublist.subset (List.Sublist.map Prod.fst List.filter_sublist) member)
  obtain ⟨sameFront, -, -⟩ := split_unique (queue.symm.trans filtered) absentQueue absentFiltered
  subst sameFront
  obtain ⟨inHistoryFront, requestHere⟩ := List.mem_filter.mp inFront
  have closedFront : Closed (fun txnId => spec.released txnId = true) front := by
    have taken := (inv.closed keyRegion).take front.length
    rwa [split, List.take_left] at taken
  have blockers : ∀ blocker ∈ (tailOf front).waitsFor write, spec.released blocker = true := by
    intro blocker member
    rcases sim.complete keyRegion front waiter write back split notReleased blocker member with
      released | listed
    · exact released
    · exact absurd listed (none blocker)
  by_contra conflict
  have released := conflicting_of_waitsFor _ front closedFront write blockers request inHistoryFront
    (by simpa using conflict)
  simp [released] at requestHere

/-- A txn in the DDR table is ready exactly when it is ready in the abstract model. -/
theorem Simulates.isReady_iff (sim : Simulates ids lm spec) (inv : spec.Inv) {txnId : TxnId}
    {info : TxnInfo} (found : lm.txnInfo txnId = some info) :
    info.isReady = true ↔ spec.Ready txnId := by
  have present : (lm.txnInfo txnId).isSome := by simp [found]
  have arrived : spec.unarrived txnId = some info.unarrivedLockRequests := by
    rw [← sim.unarrived txnId, found]
    rfl
  simp only [TxnInfo.isReady, Bool.and_eq_true, beq_iff_eq, LockSpec.Ready, arrived, Option.some.injEq]
  constructor
  · rintro ⟨zero, allArrived⟩
    exact ⟨allArrived, sim.granted_of_not_mem inv present ((sim.count_eq_zero_iff found).mp zero)⟩
  · rintro ⟨allArrived, granted⟩
    refine ⟨(sim.count_eq_zero_iff found).mpr ?_, allArrived⟩
    intro blocker member
    exact sim.not_granted_of_mem inv member present granted

end Readiness

end Slog.DDR
