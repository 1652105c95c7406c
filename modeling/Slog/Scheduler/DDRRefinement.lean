/-
Each operation of the DDR lock manager keeps its simulation of the abstract lock manager.
-/

import Mathlib.Algebra.BigOperators.Ring.Finset
import Slog.Scheduler.DDRSimulation

namespace Slog.DDR

open ReaderWriter Locking

/-- The distinct blockers `AcquireLocks` finds for a lock-only txn in the tails of its queues. -/
def blockersOf (spec : LockSpec) (txn : Transaction) : List TxnId :=
  sortUnique ((requests txn).flatMap fun request => (tailOf (spec.history request.1)).waitsFor request.2)

theorem mem_blockersOf {spec : LockSpec} {txn : Transaction} {blocker : TxnId} :
    blocker ∈ blockersOf spec txn ↔
      ∃ request ∈ requests txn, blocker ∈ (tailOf (spec.history request.1)).waitsFor request.2 := by
  simp [blockersOf, List.mem_flatMap]

theorem nodup_blockersOf (spec : LockSpec) (txn : Transaction) : (blockersOf spec txn).Nodup :=
  nodup_sortUnique _

/-- The entry of a txn when its lock-only txn arrives, before the new requests are counted:
the one it has, or a new one that waits for all its locks (`try_emplace`). -/
def startInfo (lm : DDRLockManager) (txn : Transaction) : TxnInfo :=
  (lm.txnInfo txn.internal.id).getD (TxnInfo.init txn.internal.id txn.numRequiredLocks)

section Acquire

variable {ids : Finset TxnId} {lm : DDRLockManager} {spec : LockSpec} {txn : Transaction}

theorem acquireLocks_lockTable (sim : Simulates ids lm spec) (fresh : spec.Fresh txn)
    (keyRegion : KeyRegion) : (lm.acquireLocks txn).2.lockTable keyRegion =
      LockQueueTail.ofTail (tailOf ((spec.acquire txn).history keyRegion)) :=
  (foldl_scanKey txn spec.history txn.keys ⟨0, [], lm.lockTable⟩ sim.tails fresh.distinct).2.2 keyRegion

theorem acquireLocks_txnInfo (sim : Simulates ids lm spec) (fresh : spec.Fresh txn) :
    (lm.acquireLocks txn).2.txnInfo = (blockersOf spec txn).foldl (addWaitedBy txn.internal.id)
      (arrive lm.txnInfo txn.internal.id txn.numRequiredLocks (requests txn).length) := by
  obtain ⟨count, blockers, -⟩ :=
    foldl_scanKey txn spec.history txn.keys ⟨0, [], lm.lockTable⟩ sim.tails fresh.distinct
  simp only [DDRLockManager.acquireLocks, count, blockers, blockersOf, requests, List.length_map,
    zero_add, List.nil_append]

/-- After `AcquireLocks` the txn counts its new blockers that are still in the table. -/
theorem acquireLocks_txnInfo_self (sim : Simulates ids lm spec) (fresh : spec.Fresh txn) :
    (lm.acquireLocks txn).2.txnInfo txn.internal.id = some { startInfo lm txn with
      unarrivedLockRequests := (startInfo lm txn).unarrivedLockRequests - (requests txn).length,
      numWaitingFor := (startInfo lm txn).numWaitingFor +
        (((blockersOf spec txn).filter fun blocker =>
          blocker ≠ txn.internal.id ∧ (lm.txnInfo blocker).isSome).length : Int) } := by
  rw [acquireLocks_txnInfo sim fresh,
    foldl_addWaitedBy _ _ _ _ (nodup_blockersOf spec txn) (arrive_self _ _ _ _), if_pos rfl]
  have filtered : ((blockersOf spec txn).filter fun blocker => blocker ≠ txn.internal.id ∧
      (arrive lm.txnInfo txn.internal.id txn.numRequiredLocks (requests txn).length blocker).isSome) =
      (blockersOf spec txn).filter fun blocker =>
        blocker ≠ txn.internal.id ∧ (lm.txnInfo blocker).isSome := by
    apply List.filter_congr
    intro blocker _
    by_cases self : blocker = txn.internal.id
    · simp [self]
    · rw [arrive_of_ne _ _ self]
  rw [filtered]
  rfl

/-- After `AcquireLocks` each other txn lists the new txn once more if it blocks it. -/
theorem acquireLocks_txnInfo_other (sim : Simulates ids lm spec) (fresh : spec.Fresh txn)
    {other : TxnId} (different : other ≠ txn.internal.id) :
    (lm.acquireLocks txn).2.txnInfo other = (lm.txnInfo other).map fun info =>
      if other ∈ blockersOf spec txn then { info with waitedBy := info.waitedBy ++ [txn.internal.id] }
      else info := by
  rw [acquireLocks_txnInfo sim fresh,
    foldl_addWaitedBy _ _ _ _ (nodup_blockersOf spec txn) (arrive_self _ _ _ _), if_neg different,
    arrive_of_ne _ _ different]

theorem waitedByOf_acquire_self (sim : Simulates ids lm spec) (fresh : spec.Fresh txn) :
    waitedByOf (lm.acquireLocks txn).2.txnInfo txn.internal.id = (startInfo lm txn).waitedBy := by
  simp [waitedByOf, acquireLocks_txnInfo_self sim fresh]

theorem waitedByOf_acquire_other (sim : Simulates ids lm spec) (fresh : spec.Fresh txn)
    {other : TxnId} (different : other ≠ txn.internal.id) :
    waitedByOf (lm.acquireLocks txn).2.txnInfo other = waitedByOf lm.txnInfo other ++
      if other ∈ blockersOf spec txn ∧ (lm.txnInfo other).isSome then [txn.internal.id] else [] := by
  rw [waitedByOf, acquireLocks_txnInfo_other sim fresh different]
  cases found : lm.txnInfo other with
  | none => simp [waitedByOf, found]
  | some info =>
      by_cases blocking : other ∈ blockersOf spec txn <;> simp [waitedByOf, found, blocking]

/-- A new entry has only the empty slot, which no txn id counts. -/
theorem count_startInfo_waitedBy {waiter : TxnId} (notSentinel : waiter ≠ kSentinelTxnId) :
    (startInfo lm txn).waitedBy.count waiter = (waitedByOf lm.txnInfo txn.internal.id).count waiter := by
  cases found : lm.txnInfo txn.internal.id with
  | none =>
      have different : kSentinelTxnId ≠ waiter := Ne.symm notSentinel
      simp [startInfo, waitedByOf, found, TxnInfo.init, different]
  | some info => simp [startInfo, waitedByOf, found]

theorem waitedByOf_subset_acquire (sim : Simulates ids lm spec) (fresh : spec.Fresh txn)
    (blocker : TxnId) :
    waitedByOf lm.txnInfo blocker ⊆ waitedByOf (lm.acquireLocks txn).2.txnInfo blocker := by
  by_cases self : blocker = txn.internal.id
  · subst self
    rw [waitedByOf_acquire_self sim fresh]
    cases found : lm.txnInfo txn.internal.id <;> simp [waitedByOf, startInfo, found]
  · rw [waitedByOf_acquire_other sim fresh self]
    exact List.subset_append_left _ _

/-- A txn id listed after `AcquireLocks` was listed before, or is the new txn listed by one of
its blockers. -/
theorem mem_waitedByOf_acquire (sim : Simulates ids lm spec) (fresh : spec.Fresh txn)
    {blocker waiter : TxnId} (listed : waiter ∈ waitedByOf (lm.acquireLocks txn).2.txnInfo blocker)
    (notSentinel : waiter ≠ kSentinelTxnId) :
    waiter ∈ waitedByOf lm.txnInfo blocker ∨ (waiter = txn.internal.id ∧ blocker ∈ blockersOf spec txn) := by
  by_cases self : blocker = txn.internal.id
  · subst self
    rw [waitedByOf_acquire_self sim fresh] at listed
    cases found : lm.txnInfo txn.internal.id with
    | none =>
        simp only [startInfo, found, Option.getD_none, TxnInfo.init, List.mem_singleton] at listed
        exact absurd listed notSentinel
    | some info =>
        left
        simpa [startInfo, waitedByOf, found] using listed
  · rw [waitedByOf_acquire_other sim fresh self] at listed
    rcases List.mem_append.mp listed with old | new
    · exact .inl old
    · right
      split at new
      · rename_i blocking
        exact ⟨List.mem_singleton.mp new, blocking.1⟩
      · simp at new

theorem incoming_acquire_of_ne (sim : Simulates ids lm spec) (fresh : spec.Fresh txn)
    {waiter : TxnId} (different : waiter ≠ txn.internal.id) (notSentinel : waiter ≠ kSentinelTxnId) :
    incoming (lm.acquireLocks txn).2.txnInfo ids waiter = incoming lm.txnInfo ids waiter := by
  apply Finset.sum_congr rfl
  intro other _
  by_cases self : other = txn.internal.id
  · subst self
    rw [waitedByOf_acquire_self sim fresh, count_startInfo_waitedBy notSentinel]
  · rw [waitedByOf_acquire_other sim fresh self]
    split <;> simp [Ne.symm different]

/-- The new txn is listed once more by each blocker it found that is still in the table. -/
theorem incoming_acquire_self (sim : Simulates ids lm spec) (fresh : spec.Fresh txn) :
    incoming (lm.acquireLocks txn).2.txnInfo ids txn.internal.id = incoming lm.txnInfo ids txn.internal.id +
      (((blockersOf spec txn).filter fun blocker =>
        blocker ≠ txn.internal.id ∧ (lm.txnInfo blocker).isSome).length : Int) := by
  let counted := fun other : TxnId =>
    other ∈ blockersOf spec txn ∧ other ≠ txn.internal.id ∧ (lm.txnInfo other).isSome
  have perOther : ∀ other ∈ ids,
      ((waitedByOf (lm.acquireLocks txn).2.txnInfo other).count txn.internal.id : Int) =
        (waitedByOf lm.txnInfo other).count txn.internal.id + if counted other then 1 else 0 := by
    intro other _
    by_cases self : other = txn.internal.id
    · subst self
      rw [waitedByOf_acquire_self sim fresh, count_startInfo_waitedBy fresh.notSentinel]
      simp [counted]
    · rw [waitedByOf_acquire_other sim fresh self]
      by_cases blocking : other ∈ blockersOf spec txn ∧ (lm.txnInfo other).isSome
      · simp [counted, blocking, self]
      · have notCounted : ¬counted other := fun chosen => blocking ⟨chosen.1, chosen.2.2⟩
        simp [blocking, notCounted]
  have sameSet : ((blockersOf spec txn).filter fun blocker =>
      blocker ≠ txn.internal.id ∧ (lm.txnInfo blocker).isSome).toFinset = ids.filter counted := by
    ext other
    simp only [List.mem_toFinset, List.mem_filter, decide_eq_true_eq, Finset.mem_filter, counted]
    constructor
    · rintro ⟨blocking, self, present⟩
      exact ⟨sim.covers other present, blocking, self, present⟩
    · rintro ⟨_, blocking, self, present⟩
      exact ⟨blocking, self, present⟩
  have distinct := (nodup_blockersOf spec txn).filter (fun blocker =>
    decide (blocker ≠ txn.internal.id ∧ (lm.txnInfo blocker).isSome))
  rw [incoming, Finset.sum_congr rfl perOther, Finset.sum_add_distrib, Finset.sum_boole, ← incoming,
    ← sameSet, List.toFinset_card_of_nodup distinct]

/-- A txn that is not in the table is listed nowhere: it has made no request yet. -/
theorem Simulates.incoming_eq_zero (sim : Simulates ids lm spec) (inv : spec.Inv) {txnId : TxnId}
    (notReleased : spec.released txnId = false) (absent : lm.txnInfo txnId = none)
    (notSentinel : txnId ≠ kSentinelTxnId) : incoming lm.txnInfo ids txnId = 0 := by
  apply Finset.sum_eq_zero
  intro other _
  have notListed : txnId ∉ waitedByOf lm.txnInfo other := by
    intro listed
    obtain ⟨keyRegion, front, write, back, split, _⟩ := sim.sound other txnId listed notSentinel
    have inHistory : (txnId, write) ∈ spec.history keyRegion := by simp [split]
    have unknown : spec.unarrived txnId = none := by
      rw [← sim.unarrived txnId, absent]
      rfl
    rcases inv.known keyRegion _ inHistory with released | known
    · simp [notReleased] at released
    · exact known unknown
  simp [List.count_eq_zero_of_not_mem notListed]

theorem Simulates.startInfo_numWaitingFor (sim : Simulates ids lm spec) (inv : spec.Inv)
    (fresh : spec.Fresh txn) :
    (startInfo lm txn).numWaitingFor = incoming lm.txnInfo ids txn.internal.id := by
  cases found : lm.txnInfo txn.internal.id with
  | none =>
      rw [sim.incoming_eq_zero inv fresh.notReleased found fresh.notSentinel]
      simp [startInfo, found, TxnInfo.init]
  | some info =>
      simp only [startInfo, found, Option.getD_some]
      exact sim.counts _ info found

theorem Simulates.startInfo_unarrived (sim : Simulates ids lm spec) :
    (startInfo lm txn).unarrivedLockRequests =
      (spec.unarrived txn.internal.id).getD txn.numRequiredLocks := by
  rw [← sim.unarrived]
  cases found : lm.txnInfo txn.internal.id <;> simp [startInfo, found, TxnInfo.init]

/-- `AcquireLocks` keeps the simulation: the tails move on by the txn's requests, the txn
counts the blockers it found, and each of them lists it. -/
theorem Simulates.acquire (sim : Simulates ids lm spec) (inv : spec.Inv) (fresh : spec.Fresh txn)
    (member : txn.internal.id ∈ ids) : Simulates ids (lm.acquireLocks txn).2 (spec.acquire txn) where
  tails := acquireLocks_lockTable sim fresh
  unarrived other := by
    rw [acquire_unarrived]
    by_cases self : other = txn.internal.id
    · subst self
      rw [acquireLocks_txnInfo_self sim fresh, if_pos rfl, ← sim.startInfo_unarrived]
      rfl
    · rw [acquireLocks_txnInfo_other sim fresh self, if_neg self, ← sim.unarrived other]
      cases lm.txnInfo other with
      | none => rfl
      | some info => by_cases blocking : other ∈ blockersOf spec txn <;> simp [blocking]
  covers other present := by
    by_cases self : other = txn.internal.id
    · rw [self]
      exact member
    · rw [acquireLocks_txnInfo_other sim fresh self, Option.isSome_map] at present
      exact sim.covers other present
  notSentinel other present := by
    by_cases self : other = txn.internal.id
    · rw [self]
      exact fresh.notSentinel
    · rw [acquireLocks_txnInfo_other sim fresh self, Option.isSome_map] at present
      exact sim.notSentinel other present
  counts other info found := by
    by_cases self : other = txn.internal.id
    · subst self
      rw [acquireLocks_txnInfo_self sim fresh, Option.some.injEq] at found
      subst found
      rw [incoming_acquire_self sim fresh, ← sim.startInfo_numWaitingFor inv fresh]
    · rw [acquireLocks_txnInfo_other sim fresh self] at found
      obtain ⟨old, oldFound, rfl⟩ := Option.map_eq_some_iff.mp found
      have notSentinel := sim.notSentinel other (by simp [oldFound])
      rw [incoming_acquire_of_ne sim fresh self notSentinel, ← sim.counts other old oldFound]
      split <;> rfl
  sound blocker waiter listed notSentinel := by
    rcases mem_waitedByOf_acquire sim fresh listed notSentinel with old | ⟨rfl, blocking⟩
    · obtain ⟨keyRegion, front, write, back, split, blocks⟩ := sim.sound blocker waiter old notSentinel
      refine ⟨keyRegion, front, write, back ++ ((requests txn).filter (·.1 = keyRegion)).map
        fun request => (txn.internal.id, request.2), ?_, blocks⟩
      rw [acquire_history, split, List.append_assoc, List.cons_append]
    · -- the new entry comes from the tail the txn's request on that key-region found
      obtain ⟨request, inRequests, blocks⟩ := mem_blockersOf.mp blocking
      refine ⟨request.1, spec.history request.1, request.2, [], ?_, blocks⟩
      rw [acquire_history, filter_requests_eq_singleton fresh.distinct inRequests]
      rfl
  complete keyRegion front waiter write back split notReleased blocker blocks := by
    rw [acquire_released] at notReleased ⊢
    rw [acquire_history] at split
    rcases split_append split with ⟨back', old, -⟩ | ⟨front', rfl, added⟩
    · rcases sim.complete keyRegion front waiter write back' old notReleased blocker blocks with
        released | listed
      · exact .inl released
      · exact .inr (waitedByOf_subset_acquire sim fresh blocker listed)
    · -- a request of the txn itself: its blocker was found in the old tail
      obtain ⟨rfl, rfl, inRequests⟩ := eq_of_acquire_added fresh.distinct added
      rw [List.append_nil] at blocks
      have blocking : blocker ∈ blockersOf spec txn :=
        mem_blockersOf.mpr ⟨(keyRegion, write), inRequests, blocks⟩
      obtain ⟨earlier, inHistory, named, -⟩ := mem_waitsFor blocks
      have notSelf : blocker ≠ txn.internal.id :=
        named ▸ fresh.new (keyRegion, write) inRequests earlier inHistory
      cases found : lm.txnInfo blocker with
      | none =>
          left
          have unknown : spec.unarrived blocker = none := by
            rw [← sim.unarrived blocker, found]
            rfl
          rcases inv.known keyRegion earlier inHistory with released | known
          · rwa [named] at released
          · exact absurd unknown (named ▸ known)
      | some info =>
          right
          rw [waitedByOf_acquire_other sim fresh notSelf]
          simp [blocking, found]

/-- `AcquireLocks` answers `ACQUIRED` exactly when the txn is ready in the abstract model. -/
theorem Simulates.acquireLocks_acquired_iff (sim : Simulates ids lm spec) (inv : spec.Inv)
    (fresh : spec.Fresh txn) (member : txn.internal.id ∈ ids) :
    (lm.acquireLocks txn).1 = .acquired ↔ (spec.acquire txn).Ready txn.internal.id := by
  obtain ⟨info, found⟩ : ∃ info, (lm.acquireLocks txn).2.txnInfo txn.internal.id = some info :=
    ⟨_, acquireLocks_txnInfo_self sim fresh⟩
  rw [← (sim.acquire inv fresh member).isReady_iff (inv.acquire fresh) found]
  have result : (lm.acquireLocks txn).1 =
      if ((lm.acquireLocks txn).2.txnInfo txn.internal.id).map TxnInfo.isReady == some true
      then .acquired else .waiting := rfl
  rw [result, found]
  cases ready : info.isReady <;> simp [ready]

end Acquire

section Release

variable {ids : Finset TxnId} {lm lm' : DDRLockManager} {spec : LockSpec} {txnId : TxnId}
  {info : TxnInfo} {result : List (TxnId × Bool)}

theorem releaseLocks_of_ready (found : lm.txnInfo txnId = some info) (ready : info.isReady = true) :
    lm.releaseLocks txnId = .ok ((info.waitedBy.foldl releaseWaiter ([], lm.txnInfo)).1,
      { lm with
        txnInfo := Function.update (info.waitedBy.foldl releaseWaiter ([], lm.txnInfo)).2 txnId none }) := by
  simp [DDRLockManager.releaseLocks, found, ready]

/-- After `ReleaseLocks` the released txn is gone and every other txn counts the entries of
its waited-by list naming it less. -/
theorem txnInfo_releaseLocks (found : lm.txnInfo txnId = some info) (ready : info.isReady = true)
    (released : lm.releaseLocks txnId = .ok (result, lm')) (other : TxnId) :
    lm'.txnInfo other = if other = txnId then none else (lm.txnInfo other).map fun blocked =>
      if other = kSentinelTxnId then blocked
      else { blocked with numWaitingFor := blocked.numWaitingFor - info.waitedBy.count other } := by
  rw [releaseLocks_of_ready found ready, Except.ok.injEq, Prod.mk.injEq] at released
  obtain ⟨-, rfl⟩ := released
  by_cases self : other = txnId
  · simp [self]
  · simp only [Function.update_of_ne self, if_neg self]
    exact foldl_releaseWaiter_table _ _ other

theorem waitedByOf_releaseLocks (found : lm.txnInfo txnId = some info) (ready : info.isReady = true)
    (released : lm.releaseLocks txnId = .ok (result, lm')) (other : TxnId) :
    waitedByOf lm'.txnInfo other = if other = txnId then [] else waitedByOf lm.txnInfo other := by
  have table := txnInfo_releaseLocks found ready released other
  by_cases self : other = txnId
  · rw [if_pos self, waitedByOf, table, if_pos self]
    rfl
  · rw [if_neg self, waitedByOf, waitedByOf, table, if_neg self]
    cases lm.txnInfo other with
    | none => rfl
    | some blocked =>
        simp only [Option.map_some]
        split <;> rfl

/-- The released txn's entries leave the count of every txn they name. -/
theorem incoming_releaseLocks (found : lm.txnInfo txnId = some info) (ready : info.isReady = true)
    (released : lm.releaseLocks txnId = .ok (result, lm')) (member : txnId ∈ ids) (other : TxnId) :
    incoming lm'.txnInfo ids other = incoming lm.txnInfo ids other - info.waitedBy.count other := by
  have listed : info.waitedBy = waitedByOf lm.txnInfo txnId := by simp [waitedByOf, found]
  have rest : ∑ blocker ∈ ids.erase txnId, ((waitedByOf lm'.txnInfo blocker).count other : Int) =
      ∑ blocker ∈ ids.erase txnId, ((waitedByOf lm.txnInfo blocker).count other : Int) := by
    apply Finset.sum_congr rfl
    intro blocker inside
    rw [waitedByOf_releaseLocks found ready released, if_neg (Finset.ne_of_mem_erase inside)]
  rw [incoming, incoming, ← Finset.add_sum_erase _ _ member, ← Finset.add_sum_erase _ _ member, rest,
    waitedByOf_releaseLocks found ready released, if_pos rfl, listed]
  simp

/-- A txn counts at least the entries of one waited-by list naming it. -/
theorem Simulates.count_le_numWaitingFor (sim : Simulates ids lm spec) {blocker other : TxnId}
    {blocked : TxnInfo} (present : (lm.txnInfo blocker).isSome) (found : lm.txnInfo other = some blocked) :
    ((waitedByOf lm.txnInfo blocker).count other : Int) ≤ blocked.numWaitingFor := by
  have nonneg : ∀ other' ∈ ids, (0 : Int) ≤ (waitedByOf lm.txnInfo other').count other :=
    fun _ _ => Int.natCast_nonneg _
  rw [sim.counts other blocked found, incoming]
  exact Finset.single_le_sum nonneg (sim.covers blocker present)

/-- No txn waits for itself: a txn asks each key-region once. -/
theorem Simulates.not_mem_waitedByOf_self (sim : Simulates ids lm spec) (inv : spec.Inv)
    {txnId : TxnId} (notSentinel : txnId ≠ kSentinelTxnId) : txnId ∉ waitedByOf lm.txnInfo txnId := by
  intro listed
  obtain ⟨keyRegion, front, write, back, split, blocks⟩ := sim.sound txnId txnId listed notSentinel
  obtain ⟨earlier, inFront, named, -⟩ := mem_waitsFor blocks
  have owners := inv.once keyRegion
  rw [split, List.map_append, List.map_cons] at owners
  have twice := (List.nodup_middle.mp owners |> List.nodup_cons.mp).1
  have owned : txnId ∈ front.map Prod.fst := by
    rw [← named]
    exact List.mem_map_of_mem inFront
  exact twice (List.mem_append_left _ owned)

/-- `ReleaseLocks` of a ready txn keeps the simulation of its release. -/
theorem Simulates.release (sim : Simulates ids lm spec) (found : lm.txnInfo txnId = some info)
    (ready : info.isReady = true) (released : lm.releaseLocks txnId = .ok (result, lm')) :
    Simulates ids lm' (spec.release txnId) where
  tails keyRegion := by
    rw [releaseLocks_of_ready found ready, Except.ok.injEq, Prod.mk.injEq] at released
    obtain ⟨-, rfl⟩ := released
    exact sim.tails keyRegion
  unarrived other := by
    rw [txnInfo_releaseLocks found ready released, release_unarrived, ← sim.unarrived other]
    by_cases self : other = txnId
    · simp [self]
    · rw [if_neg self, if_neg self]
      cases lm.txnInfo other with
      | none => rfl
      | some blocked =>
          simp only [Option.map_some]
          split <;> rfl
  covers other present := by
    rw [txnInfo_releaseLocks found ready released] at present
    split at present
    · simp at present
    · exact sim.covers other (by simpa using present)
  notSentinel other present := by
    rw [txnInfo_releaseLocks found ready released] at present
    split at present
    · simp at present
    · exact sim.notSentinel other (by simpa using present)
  counts other blocked found' := by
    rw [txnInfo_releaseLocks found ready released] at found'
    split at found'
    · simp at found'
    · obtain ⟨old, oldFound, rfl⟩ := Option.map_eq_some_iff.mp found'
      have notSentinel := sim.notSentinel other (by simp [oldFound])
      have member := sim.covers txnId (by simp [found])
      rw [if_neg notSentinel, incoming_releaseLocks found ready released member,
        ← sim.counts other old oldFound]
  sound blocker waiter listed notSentinel := by
    rw [waitedByOf_releaseLocks found ready released] at listed
    split at listed
    · simp at listed
    · exact sim.sound blocker waiter listed notSentinel
  complete keyRegion front waiter write back split notReleased blocker blocks := by
    rw [release_released] at notReleased ⊢
    simp only [Bool.or_eq_false_iff, decide_eq_false_iff_not] at notReleased
    rcases sim.complete keyRegion front waiter write back split notReleased.2 blocker blocks with
      old | listed
    · simp [old]
    · by_cases self : blocker = txnId
      · simp [self]
      · right
        rw [waitedByOf_releaseLocks found ready released, if_neg self]
        exact listed

/-- `ReleaseLocks` of a ready txn reports exactly the txns that its release makes ready. -/
theorem Simulates.mem_releaseLocks_iff (sim : Simulates ids lm spec) (inv : spec.Inv)
    (found : lm.txnInfo txnId = some info) (ready : info.isReady = true)
    (released : lm.releaseLocks txnId = .ok (result, lm')) (other : TxnId) :
    other ∈ result.map Prod.fst ↔ (spec.release txnId).Ready other ∧ ¬spec.Ready other := by
  have sim' := sim.release found ready released
  have inv' := inv.release ((sim.isReady_iff inv found).mp ready)
  have listed : info.waitedBy = waitedByOf lm.txnInfo txnId := by simp [waitedByOf, found]
  have enough : ∀ other blocked, lm.txnInfo other = some blocked → other ≠ kSentinelTxnId →
      (info.waitedBy.count other : Int) ≤ blocked.numWaitingFor := by
    intro other blocked found' _
    rw [listed]
    exact sim.count_le_numWaitingFor (by simp [found]) found'
  have after : ∀ blocked, other ≠ txnId → other ≠ kSentinelTxnId → lm.txnInfo other = some blocked →
      lm'.txnInfo other = some { blocked with
        numWaitingFor := blocked.numWaitingFor - info.waitedBy.count other } := by
    intro blocked notSelf notSentinel found'
    rw [txnInfo_releaseLocks found ready released, if_neg notSelf, found', Option.map_some,
      if_neg notSentinel]
  have shape := released
  rw [releaseLocks_of_ready found ready, Except.ok.injEq, Prod.mk.injEq] at shape
  obtain ⟨rfl, -⟩ := shape
  rw [mem_foldl_releaseWaiter info.waitedBy ([], lm.txnInfo) enough other]
  simp only [List.map_nil, List.not_mem_nil, false_or]
  constructor
  · rintro ⟨member, notSentinel, blocked, found', drained, arrived⟩
    have notSelf : other ≠ txnId := by
      rintro rfl
      exact sim.not_mem_waitedByOf_self inv notSentinel (listed ▸ member)
    refine ⟨(sim'.isReady_iff inv' (after blocked notSelf notSentinel found')).mp ?_, ?_⟩
    · simp [TxnInfo.isReady, drained, arrived]
    · -- before the release the entries of the released txn still counted
      intro readyBefore
      have zero := (sim.isReady_iff inv found').mpr readyBefore
      have positive : 0 < info.waitedBy.count other := List.count_pos_iff.mpr member
      simp only [TxnInfo.isReady, Bool.and_eq_true, beq_iff_eq] at zero
      omega
  · rintro ⟨readyAfter, notBefore⟩
    have known := readyAfter.1
    rw [release_unarrived] at known
    have notSelf : other ≠ txnId := by
      rintro rfl
      simp at known
    rw [if_neg notSelf, ← sim.unarrived other] at known
    obtain ⟨blocked, found', arrived⟩ := Option.map_eq_some_iff.mp known
    have notSentinel := sim.notSentinel other (by simp [found'])
    have readyNow := (sim'.isReady_iff inv' (after blocked notSelf notSentinel found')).mpr readyAfter
    have waiting : blocked.numWaitingFor ≠ 0 := by
      intro zero
      exact notBefore ((sim.isReady_iff inv found').mp (by simp [TxnInfo.isReady, zero, arrived]))
    simp only [TxnInfo.isReady, Bool.and_eq_true, beq_iff_eq] at readyNow
    have member : other ∈ info.waitedBy := by
      apply List.count_pos_iff.mp
      omega
    exact ⟨member, notSentinel, blocked, found', readyNow.1, arrived⟩

end Release

end Slog.DDR
