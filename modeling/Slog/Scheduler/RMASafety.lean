/-
The RMA lock manager when any txn may release, waiting ones included (`TriggerPreDispatchAbort`):
its lock states stay safe and each call reports the txns it made ready.
-/

import Slog.Scheduler.Equivalence

namespace Slog.RMA

open Locking ReaderWriter

/-- The lock manager after a run of calls. -/
def RMALockManager.after (lm : RMALockManager) : List LockCall → RMALockManager
  | [] => lm
  | call :: calls => (lm.call call).2.after calls

/-- A txn the lock manager knows and that waits for no lock. -/
def RMALockManager.isReady (lm : RMALockManager) (txnId : TxnId) : Bool :=
  match lm.txnInfo txnId with
  | some info => info.isReady
  | none => false

/-- The txns a reply reports ready: the txn of an acquired lock-only txn, or the txns a release
unblocked. -/
def reported : LockCall → LockReply → Finset TxnId
  | .acquireLocks txn, .acquired .acquired => {txn.internal.id}
  | .releaseLocks _, .unblocked txnIds => txnIds
  | _, _ => ∅

/-- The txns each call of a run reports ready. -/
def RMALockManager.reports (lm : RMALockManager) : List LockCall → List (Finset TxnId)
  | [] => []
  | call :: calls => reported call (lm.call call).1 :: (lm.call call).2.reports calls

/-- A call reports ready exactly the txns that are ready after it and were not before. -/
def ReportsNewlyReady (lm : RMALockManager) (call : LockCall) : Prop :=
  ∀ txnId, txnId ∈ reported call (lm.call call).1 ↔
    (lm.call call).2.isReady txnId = true ∧ lm.isReady txnId = false

/-- What holds of the RMA lock manager after the lock-only txns `delivered` arrived: every lock
state is unlocked exactly when no txn holds it, and then no txn waits, and a write lock has one
holder; every request a lock state keeps is one a delivered lock-only txn made, and each
request a holder made there is in the lock's mode; no two holders made conflicting requests; a
holder's request conflicts with no request that arrived before it and is still there; every
holder knows the key-region among its keys; and a known txn waits for its required locks less
the key-regions it holds. -/
structure Safety (delivered : List Transaction) (lm : RMALockManager) : Prop where
  shape : ∀ keyRegion, (lm.lockTable keyRegion).Safe
  asked : ∀ keyRegion, ∀ request ∈ (lm.lockTable keyRegion).requests, ∃ txn ∈ delivered,
    txn.internal.id = request.1 ∧ (keyRegion, request.2) ∈ requests txn
  modes : ∀ keyRegion, ∀ holder ∈ (lm.lockTable keyRegion).holders, ∀ txn ∈ delivered,
    txn.internal.id = holder → ∀ write, (keyRegion, write) ∈ requests txn →
      write = (lm.lockTable keyRegion).mode.isWrite
  exclusive : ∀ keyRegion, ∀ txn ∈ delivered, ∀ txn' ∈ delivered, txn.internal.id ≠ txn'.internal.id →
    txn.internal.id ∈ (lm.lockTable keyRegion).holders → txn'.internal.id ∈ (lm.lockTable keyRegion).holders →
    ∀ write write', (keyRegion, write) ∈ requests txn → (keyRegion, write') ∈ requests txn' →
      conflicts write write' = false
  ordered : ∀ keyRegion front holder write back,
    arrivals delivered keyRegion = front ++ (holder, write) :: back →
    holder ∈ (lm.lockTable keyRegion).holders →
    ∀ earlier ∈ front, earlier ∈ (lm.lockTable keyRegion).requests → conflicts earlier.2 write = false
  holding : ∀ keyRegion, ∀ holder ∈ (lm.lockTable keyRegion).holders, ∃ info,
    lm.txnInfo holder = some info ∧ keyRegion ∈ info.keys
  counted : ∀ txnId info, lm.txnInfo txnId = some info → info.keys.Nodup ∧ ∃ txn ∈ delivered,
    txn.internal.id = txnId ∧ info.numWaitingFor = txn.numRequiredLocks -
      ((info.keys.filter fun keyRegion => txnId ∈ (lm.lockTable keyRegion).holders).length : Int)

/-- All the lock requests of a txn arrived. -/
def Complete (delivered : List Transaction) (txnId : TxnId) : Prop :=
  ∃ txn ∈ delivered, txn.internal.id = txnId ∧ (arrivedCount delivered txnId : Int) = txn.numRequiredLocks

/-- The invariant of a run: the lock manager keeps the queues of an abstract lock manager that
forgets each released txn and counts the lock-only txns `live` of the delivered ones; every
lock state is safe; each known txn has one key-region per request it got; and each txn
reported ready (`seen`) is still ready, or released after all its lock requests arrived. -/
structure Guarded (delivered live : List Transaction) (seen : Finset TxnId) (lm : RMALockManager)
    (spec : LockSpec) : Prop where
  tracks : Tracks lm spec
  safe : ∀ keyRegion, (lm.lockTable keyRegion).Safe
  sound : spec.Sound
  kept : ∀ txnId, spec.released txnId = false
  ledger : Ledger spec live
  sublist : live.Sublist delivered
  arrived : ∀ txnId info, lm.txnInfo txnId = some info → info.keys.length = arrivedCount live txnId
  seen : ∀ txnId ∈ seen, lm.isReady txnId = true ∨ (lm.txnInfo txnId = none ∧ Complete delivered txnId)

theorem guarded_init : Guarded [] [] ∅ RMALockManager.init LockSpec.init where
  tracks := tracks_init
  safe _ := LockState.empty_shaped.safe
  sound := LockSpec.init_sound
  kept _ := rfl
  ledger := ledger_init
  sublist := List.Sublist.slnil
  arrived txnId info found := by simp [RMALockManager.init] at found
  seen txnId listed := by simp at listed

section Basics

variable {lm : RMALockManager} {spec : LockSpec} {txnId : TxnId} {info : TxnInfo}

theorem RMALockManager.isReady_eq_true :
    lm.isReady txnId = true ↔ ∃ info, lm.txnInfo txnId = some info ∧ info.isReady = true := by
  cases found : lm.txnInfo txnId <;> simp [RMALockManager.isReady, found]

theorem RMALockManager.isReady_of_found (found : lm.txnInfo txnId = some info) :
    lm.isReady txnId = info.isReady := by
  simp [RMALockManager.isReady, found]

@[simp] theorem deliveries_cons (call : LockCall) (calls : List LockCall) :
    deliveries (call :: calls) = deliveries [call] ++ deliveries calls := by
  cases call <;> rfl

/-- Two holders of one lock hold it for reading. -/
theorem LockState.Safe.isWrite_of_ne {state : LockState} (safe : state.Safe) {holder other : TxnId}
    (different : holder ≠ other) (holding : holder ∈ state.holders) (holding' : other ∈ state.holders) :
    state.mode.isWrite = false := by
  cases mode : state.mode with
  | write =>
      obtain ⟨only, single⟩ := List.length_eq_one_iff.mp (safe.single mode)
      rw [single, List.mem_singleton] at holding holding'
      exact absurd (holding.trans holding'.symm) different
  | read => rfl
  | unlocked => rfl

theorem Tracks.unarrived_eq_none (sim : Tracks lm spec) (found : lm.txnInfo txnId = none) :
    spec.unarrived txnId = none := by
  have known := sim.known txnId
  rw [found] at known
  simpa using known.symm

/-- A known txn never waits for fewer than zero locks. -/
theorem Tracks.numWaitingFor_nonneg (sim : Tracks lm spec) (sound : spec.Sound)
    (found : lm.txnInfo txnId = some info) : 0 ≤ info.numWaitingFor := by
  obtain ⟨unarrived, known, counted⟩ := sim.counts txnId info found
  have nonneg := sound.nonneg txnId unarrived known
  omega

/-- A txn is not ready when a lock-only txn of it arrives: it still waits for that one's requests. -/
theorem Tracks.isReady_eq_false_of_fresh (sim : Tracks lm spec) {txn : Transaction} (fresh : spec.Fresh txn)
    (locks : requests txn ≠ []) : lm.isReady txn.internal.id = false := by
  cases found : lm.txnInfo txn.internal.id with
  | none => simp [RMALockManager.isReady, found]
  | some info =>
      obtain ⟨unarrived, known, counted⟩ := sim.counts _ info found
      have bounded := fresh.bounded
      rw [known, Option.getD_some] at bounded
      have positive : 0 < (requests txn).length := List.length_pos_iff.mpr locks
      simp only [RMALockManager.isReady, found, TxnInfo.isReady, beq_eq_false_iff_ne]
      omega

/-- Forgetting a released txn keeps the queues its release left. -/
theorem Tracks.forget (sim : Tracks lm (spec.release txnId)) (gone : lm.txnInfo txnId = none) :
    Tracks lm (spec.forget txnId) where
  queues keyRegion := by
    rw [forget_queue, sim.queues, release_queue]
  known := sim.known
  keys other info found := by
    have different : other ≠ txnId := by
      rintro rfl
      rw [gone] at found
      cases found
    obtain ⟨distinct, keys⟩ := sim.keys other info found
    refine ⟨distinct, fun keyRegion => ?_⟩
    rw [keys keyRegion, release_history, forget_history]
    simp [different]
  counts := sim.counts

end Basics

section Acquire

variable {lm : RMALockManager} {txn : Transaction}

theorem acquireLocks_txnInfo_of_ne (distinct : ((requests txn).map Prod.fst).Nodup) {other : TxnId}
    (different : other ≠ txn.internal.id) : (lm.acquireLocks txn).2.txnInfo other = lm.txnInfo other := by
  rw [acquireLocks_eq distinct]
  exact Function.update_of_ne different _ _

theorem acquireLocks_isReady (distinct : ((requests txn).map Prod.fst).Nodup) (other : TxnId) :
    (lm.acquireLocks txn).2.isReady other =
      if other = txn.internal.id then (arrivedInfo lm txn).isReady else lm.isReady other := by
  split
  · rename_i self
    subst self
    apply RMALockManager.isReady_of_found
    rw [acquireLocks_eq distinct]
    exact Function.update_self _ _ _
  · rename_i different
    simp only [RMALockManager.isReady, acquireLocks_txnInfo_of_ne distinct different]

/-- `AcquireLocks` reports its txn exactly when the txn holds all its locks after it. -/
theorem reported_acquireLocks (distinct : ((requests txn).map Prod.fst).Nodup) :
    reported (.acquireLocks txn) (lm.call (.acquireLocks txn)).1 =
      if (arrivedInfo lm txn).isReady then {txn.internal.id} else ∅ := by
  simp only [RMALockManager.call, acquireLocks_eq distinct]
  split <;> rfl

theorem Complete.append_of_ne {delivered : List Transaction} {txnId : TxnId}
    (complete : Complete delivered txnId) (different : txnId ≠ txn.internal.id) :
    Complete (delivered ++ [txn]) txnId := by
  obtain ⟨earlier, before, named, all⟩ := complete
  refine ⟨earlier, List.mem_append_left _ before, named, ?_⟩
  rw [arrivedCount_append, arrivedCount_singleton_of_ne (Ne.symm different), Nat.add_zero]
  exact all

end Acquire

section Steps

variable {delivered live : List Transaction} {seen : Finset TxnId} {lm : RMALockManager} {spec : LockSpec}

/-- The entry a txn starts from has one key-region per request it got. -/
theorem Guarded.length_startInfo_keys (guarded : Guarded delivered live seen lm spec) (txn : Transaction) :
    (startInfo lm txn).keys.length = arrivedCount live txn.internal.id := by
  cases found : lm.txnInfo txn.internal.id with
  | some info =>
      simp only [startInfo, found, Option.getD_some]
      exact guarded.arrived _ info found
  | none =>
      have none := guarded.ledger.unknown _ (guarded.tracks.unarrived_eq_none found) (guarded.kept _)
      simp [startInfo, found, arrivedCount, none]

/-- One `AcquireLocks` call: it reports its txn exactly when that becomes ready, the txn was not
reported before, and the invariant holds with the lock-only txn delivered and counted. -/
theorem Guarded.acquire (guarded : Guarded delivered live seen lm spec) {txn : Transaction}
    {rest : List Transaction} (wf : Deliveries (delivered ++ txn :: rest)) :
    ReportsNewlyReady lm (.acquireLocks txn) ∧
      Disjoint seen (reported (.acquireLocks txn) (lm.call (.acquireLocks txn)).1) ∧
      Guarded (delivered ++ [txn]) (live ++ [txn]) (seen ∪ reported (.acquireLocks txn) (lm.call (.acquireLocks txn)).1)
        (lm.acquireLocks txn).2 (spec.acquire txn) := by
  have member : txn ∈ delivered ++ txn :: rest := by simp
  have positive : 0 < (requests txn).length := List.length_pos_iff.mpr (wf.locks txn member)
  have fresh : spec.Fresh txn :=
    guarded.ledger.fresh (wf.sublist (guarded.sublist.append (List.Sublist.refl _))) (guarded.kept _)
  have notBefore := guarded.tracks.isReady_eq_false_of_fresh fresh (wf.locks txn member)
  have unseen : txn.internal.id ∉ seen := by
    intro listed
    rcases guarded.seen _ listed with ready | ⟨_, earlier, before, named, all⟩
    · rw [notBefore] at ready
      exact Bool.false_ne_true ready
    · have bound := wf.arrivedCount_add_le (List.mem_append_left _ before) named
      omega
  have reply : reported (.acquireLocks txn) (lm.call (.acquireLocks txn)).1 =
      if (arrivedInfo lm txn).isReady then {txn.internal.id} else ∅ :=
    reported_acquireLocks fresh.distinct
  refine ⟨fun other => ?_, ?_, ?_⟩
  · change other ∈ reported _ _ ↔ (lm.acquireLocks txn).2.isReady other = true ∧ _
    rw [reply, acquireLocks_isReady fresh.distinct]
    by_cases self : other = txn.internal.id
    · subst self
      cases (arrivedInfo lm txn).isReady <;> simp [notBefore]
    · split <;> simp [self]
  · rw [reply]
    split
    · exact Finset.disjoint_singleton_right.mpr unseen
    · exact Finset.disjoint_empty_right _
  · refine ⟨guarded.tracks.acquire guarded.safe guarded.sound fresh, acquireLocks_safe guarded.safe fresh.distinct,
      guarded.sound.acquire fresh, guarded.kept, guarded.ledger.acquire (guarded.kept _),
      guarded.sublist.append (List.Sublist.refl _), ?_, ?_⟩
    · intro other info found
      by_cases self : other = txn.internal.id
      · subst self
        simp only [acquireLocks_eq fresh.distinct, Function.update_self, Option.some.injEq] at found
        subst found
        rw [arrivedCount_append, arrivedCount_singleton, arrivedInfo, List.length_append, List.length_map,
          guarded.length_startInfo_keys]
      · rw [acquireLocks_txnInfo_of_ne fresh.distinct self] at found
        rw [arrivedCount_append, arrivedCount_singleton_of_ne (Ne.symm self), Nat.add_zero]
        exact guarded.arrived other info found
    · intro other listed
      rcases Finset.mem_union.mp listed with old | new
      · have self : other ≠ txn.internal.id := fun same => unseen (same ▸ old)
        rw [acquireLocks_isReady fresh.distinct, if_neg self, acquireLocks_txnInfo_of_ne fresh.distinct self]
        rcases guarded.seen other old with ready | ⟨unknown, complete⟩
        · exact .inl ready
        · exact .inr ⟨unknown, complete.append_of_ne self⟩
      · rw [reply] at new
        split at new
        · rename_i ready
          rw [Finset.mem_singleton] at new
          subst new
          left
          rw [acquireLocks_isReady fresh.distinct, if_pos rfl, ready]
        · simp at new

/-- A txn that became ready got all its lock requests. -/
theorem Guarded.complete_of_ready (guarded : Guarded delivered live seen lm spec) (wf : Deliveries delivered)
    {txnId : TxnId} {info : TxnInfo} (found : lm.txnInfo txnId = some info) (ready : info.isReady = true) :
    Complete delivered txnId := by
  obtain ⟨unarrived, known, counted⟩ := guarded.tracks.counts txnId info found
  obtain ⟨txn, listed, named, waiting⟩ := guarded.ledger.waiting txnId unarrived known
  have nonneg := guarded.sound.nonneg txnId unarrived known
  have fewer := arrivedCount_le_of_sublist guarded.sublist txnId
  have bound := wf.arrivedCount_le (guarded.sublist.subset listed)
  rw [named] at bound
  simp only [TxnInfo.isReady, beq_iff_eq] at ready
  exact ⟨txn, guarded.sublist.subset listed, named, by omega⟩

/-- One `ReleaseLocks` call on a known txn, ready or waiting: it reports exactly the txns it made
ready, none reported before, and the invariant holds with the txn forgotten. -/
theorem Guarded.release (guarded : Guarded delivered live seen lm spec) (wf : Deliveries delivered)
    {txnId : TxnId} {info : TxnInfo} (found : lm.txnInfo txnId = some info) :
    ReportsNewlyReady lm (.releaseLocks txnId) ∧
      Disjoint seen (reported (.releaseLocks txnId) (lm.call (.releaseLocks txnId)).1) ∧
      Guarded delivered (live.filter (·.internal.id ≠ txnId))
        (seen ∪ reported (.releaseLocks txnId) (lm.call (.releaseLocks txnId)).1)
        (lm.releaseLocks txnId).2 (spec.forget txnId) := by
  have distinct := (guarded.tracks.keys txnId info found).1
  have tracks := guarded.tracks.release guarded.safe guarded.sound found
  have gone : (lm.releaseLocks txnId).2.txnInfo txnId = none := by
    rw [releaseLocks_txnInfo found distinct, if_pos rfl]
  have after : ∀ other, other ≠ txnId → (lm.releaseLocks txnId).2.txnInfo other =
      (lm.txnInfo other).map fun blocked =>
        { blocked with numWaitingFor := blocked.numWaitingFor - (grantees lm txnId info.keys).count other } :=
    fun other self => by rw [releaseLocks_txnInfo found distinct, if_neg self]
  have newly : ∀ other, other ∈ (lm.releaseLocks txnId).1 ↔
      (lm.releaseLocks txnId).2.isReady other = true ∧ lm.isReady other = false := by
    intro other
    rw [guarded.tracks.mem_releaseLocks_iff guarded.safe guarded.sound found, RMALockManager.isReady_eq_true]
    constructor
    · rintro ⟨blocked, after', found', found'', notBefore, readyAfter⟩
      exact ⟨⟨after', found'', readyAfter⟩, by rw [RMALockManager.isReady_of_found found', notBefore]⟩
    · rintro ⟨⟨after', found'', readyAfter⟩, notBefore⟩
      have self : other ≠ txnId := by
        rintro rfl
        rw [gone] at found''
        cases found''
      have mapped := found''
      rw [after other self] at mapped
      obtain ⟨blocked, found', -⟩ := Option.map_eq_some_iff.mp mapped
      rw [RMALockManager.isReady_of_found found'] at notBefore
      exact ⟨blocked, after', found', found'', notBefore, readyAfter⟩
  have reply : reported (.releaseLocks txnId) (lm.call (.releaseLocks txnId)).1 =
      (lm.releaseLocks txnId).1.toFinset := rfl
  refine ⟨fun other => ?_, ?_, ?_⟩
  · rw [reply, List.mem_toFinset]
    exact newly other
  · rw [reply]
    refine Finset.disjoint_left.mpr fun other old new => ?_
    have made := (newly other).mp (List.mem_toFinset.mp new)
    rcases guarded.seen other old with ready | ⟨unknown, _⟩
    · rw [made.2] at ready
      exact Bool.false_ne_true ready
    · obtain ⟨blocked, -, found', -⟩ :=
        (guarded.tracks.mem_releaseLocks_iff guarded.safe guarded.sound found other).mp (List.mem_toFinset.mp new)
      rw [unknown] at found'
      cases found'
  · refine ⟨tracks.forget gone, releaseLocks_safe guarded.safe found distinct, guarded.sound.forget txnId,
      guarded.kept, guarded.ledger.forget txnId, List.filter_sublist.trans guarded.sublist, ?_, ?_⟩
    · intro other info' found'
      by_cases self : other = txnId
      · rw [self, gone] at found'
        cases found'
      · rw [after other self] at found'
        obtain ⟨old, oldFound, rfl⟩ := Option.map_eq_some_iff.mp found'
        rw [arrivedCount_filter_of_ne self]
        exact guarded.arrived other old oldFound
    · intro other listed
      rcases Finset.mem_union.mp listed with old | new
      · by_cases self : other = txnId
        · subst self
          right
          refine ⟨gone, ?_⟩
          rcases guarded.seen other old with ready | ⟨unknown, complete⟩
          · rw [RMALockManager.isReady_of_found found] at ready
            exact guarded.complete_of_ready wf found ready
          · exact complete
        · rcases guarded.seen other old with ready | ⟨unknown, complete⟩
          · -- a ready txn is handed no lock, as it waits for none
            left
            obtain ⟨blocked, found', readyBefore⟩ := RMALockManager.isReady_eq_true.mp ready
            have found'' := after other self
            rw [found', Option.map_some] at found''
            have nonneg := tracks.numWaitingFor_nonneg (guarded.sound.release txnId) found''
            simp only [TxnInfo.isReady, beq_iff_eq] at readyBefore
            rw [RMALockManager.isReady_of_found found'']
            simp only [TxnInfo.isReady, beq_iff_eq]
            dsimp only at nonneg ⊢
            omega
          · right
            rw [after other self, unknown]
            exact ⟨rfl, complete⟩
      · rw [reply, List.mem_toFinset] at new
        exact .inl ((newly other).mp new).1

/-- Any one call keeps the invariant, and reports exactly the txns it made ready, none reported
before. -/
theorem Guarded.call (guarded : Guarded delivered live seen lm spec) (call : LockCall) {rest : List Transaction}
    (wf : Deliveries (delivered ++ deliveries [call] ++ rest)) :
    ReportsNewlyReady lm call ∧ Disjoint seen (reported call (lm.call call).1) ∧
      ∃ live' spec', Guarded (delivered ++ deliveries [call]) live' (seen ∪ reported call (lm.call call).1)
        (lm.call call).2 spec' := by
  cases call with
  | acquireLocks txn =>
      rw [deliveries_acquireLocks, deliveries_nil, List.append_assoc, List.singleton_append] at wf
      obtain ⟨now, disjoint, next⟩ := guarded.acquire wf
      exact ⟨now, disjoint, _, _, next⟩
  | releaseLocks txnId =>
      rw [deliveries_releaseLocks, deliveries_nil, List.append_nil] at wf ⊢
      cases found : lm.txnInfo txnId with
      | some info =>
          obtain ⟨now, disjoint, next⟩ := guarded.release (wf.sublist (List.sublist_append_left _ _)) found
          exact ⟨now, disjoint, _, _, next⟩
      | none =>
          have unchanged : lm.releaseLocks txnId = ([], lm) := by
            simp [RMALockManager.releaseLocks, found]
          have nothing : reported (.releaseLocks txnId) (lm.call (.releaseLocks txnId)).1 = ∅ := by
            simp [RMALockManager.call, reported, unchanged]
          refine ⟨fun other => ?_, by rw [nothing]; exact Finset.disjoint_empty_right _, live, spec, ?_⟩
          · simp [RMALockManager.call, unchanged, reported]
          · rw [nothing, Finset.union_empty]
            simpa [RMALockManager.call, unchanged] using guarded

/-- Over a run, the invariant holds at its end, and each call reports exactly the txns it made
ready, none reported by another call or before the run. -/
theorem Guarded.run (guarded : Guarded delivered live seen lm spec) (calls : List LockCall)
    (wf : Deliveries (delivered ++ deliveries calls)) :
    (∃ live' seen' spec', Guarded (delivered ++ deliveries calls) live' seen' (lm.after calls) spec') ∧
      (∀ reports ∈ lm.reports calls, Disjoint seen reports) ∧ (lm.reports calls).Pairwise Disjoint ∧
      ∀ done call rest, calls = done ++ call :: rest → ReportsNewlyReady (lm.after done) call := by
  induction calls generalizing delivered live seen lm spec with
  | nil =>
      refine ⟨⟨live, seen, spec, by simpa [RMALockManager.after] using guarded⟩, by simp [RMALockManager.reports],
        by simp [RMALockManager.reports], fun done call rest split => ?_⟩
      simp at split
  | cons call calls ih =>
      rw [deliveries_cons, ← List.append_assoc] at wf
      obtain ⟨now, disjoint, live', spec', next⟩ := guarded.call call wf
      obtain ⟨final, later, pairwise, steps⟩ := ih next wf
      refine ⟨?_, ?_, ?_, ?_⟩
      · rw [deliveries_cons, ← List.append_assoc]
        exact final
      · intro reports listed
        rcases List.mem_cons.mp listed with rfl | inRest
        · exact disjoint
        · exact (Finset.disjoint_union_left.mp (later reports inRest)).1
      · exact List.pairwise_cons.mpr
          ⟨fun reports inRest => (Finset.disjoint_union_left.mp (later reports inRest)).2, pairwise⟩
      · intro done call' rest split
        cases done with
        | nil =>
            obtain ⟨rfl, -⟩ := List.cons.inj split
            exact now
        | cons first done =>
            obtain ⟨rfl, tail⟩ := List.cons.inj split
            exact steps done call' rest tail

/-- Every request a lock state keeps arrived, and they keep their arrival order. -/
theorem Guarded.requests_sublist (guarded : Guarded delivered live seen lm spec) (keyRegion : KeyRegion) :
    (lm.lockTable keyRegion).requests.Sublist (arrivals delivered keyRegion) := by
  rw [guarded.tracks.queues, LockSpec.queue, guarded.ledger.history]
  exact List.filter_sublist.trans (arrivals_sublist guarded.sublist)

/-- Every request of a holder on a key-region is in the lock's mode: the lock state keeps one
such request, and the txn makes one request there over all its lock-only txns. -/
theorem Guarded.write_eq_of_holder (guarded : Guarded delivered live seen lm spec) (wf : Deliveries delivered)
    {keyRegion : KeyRegion} {holder : TxnId} {write : Bool} (holding : holder ∈ (lm.lockTable keyRegion).holders)
    (arrived : (holder, write) ∈ arrivals delivered keyRegion) :
    write = (lm.lockTable keyRegion).mode.isWrite := by
  have held : (holder, (lm.lockTable keyRegion).mode.isWrite) ∈ arrivals delivered keyRegion :=
    (guarded.requests_sublist keyRegion).subset (by simp [LockState.requests, holding])
  exact congrArg Prod.snd (List.inj_on_of_nodup_map (wf.nodup_arrivals keyRegion) arrived held rfl)

/-- The invariant gives what the RMA lock manager guarantees. -/
theorem Guarded.safety (guarded : Guarded delivered live seen lm spec) (wf : Deliveries delivered) :
    Safety delivered lm where
  shape := guarded.safe
  asked keyRegion request member :=
    mem_arrivals.mp ((guarded.requests_sublist keyRegion).subset member : (request.1, request.2) ∈ _)
  modes keyRegion holder holding txn listed named write asked :=
    guarded.write_eq_of_holder wf holding (mem_arrivals.mpr ⟨txn, listed, named, asked⟩)
  exclusive keyRegion txn listed txn' listed' different holding holding' write write' asked asked' := by
    have mode := (guarded.safe keyRegion).isWrite_of_ne different holding holding'
    rw [guarded.write_eq_of_holder wf holding (mem_arrivals.mpr ⟨txn, listed, rfl, asked⟩),
      guarded.write_eq_of_holder wf holding' (mem_arrivals.mpr ⟨txn', listed', rfl, asked'⟩), mode]
    rfl
  ordered keyRegion front holder write back split holding earlier before present := by
    have distinct : (arrivals delivered keyRegion).Nodup := (wf.nodup_arrivals keyRegion).of_map _
    have own := guarded.write_eq_of_holder wf holding (by rw [split]; exact List.mem_append_right _ List.mem_cons_self)
    have kept : ((lm.lockTable keyRegion).holders.map (fun holder => (holder, (lm.lockTable keyRegion).mode.isWrite)) ++
        (lm.lockTable keyRegion).waiterQueue.map fun waiter => (waiter.1, waiter.2.isWrite)).Sublist
        (arrivals delivered keyRegion) := guarded.requests_sublist keyRegion
    have leading : (holder, write) ∈ (lm.lockTable keyRegion).holders.map
        fun holder => (holder, (lm.lockTable keyRegion).mode.isWrite) := by
      rw [own]
      exact List.mem_map_of_mem holding
    obtain ⟨other, otherHolding, rfl⟩ := List.mem_map.mp (mem_lead_of_sublist kept distinct split before present leading)
    have apart := (List.nodup_append.mp (split ▸ distinct)).2.2
    have different : other ≠ holder := by
      rintro rfl
      exact apart _ before _ List.mem_cons_self (by rw [own])
    have mode := (guarded.safe keyRegion).isWrite_of_ne different otherHolding holding
    rw [own, mode]
    rfl
  holding keyRegion holder holding := by
    have inQueue : (holder, (lm.lockTable keyRegion).mode.isWrite) ∈ spec.queue keyRegion := by
      rw [← guarded.tracks.queues]
      simp [LockState.requests, holding]
    have inHistory := (List.mem_filter.mp inQueue).1
    rcases guarded.sound.known keyRegion _ inHistory with released | known
    · rw [guarded.kept] at released
      cases released
    · have isKnown : (lm.txnInfo holder).isSome := by
        rw [guarded.tracks.known]
        exact Option.isSome_iff_ne_none.mpr known
      obtain ⟨info, found⟩ := Option.isSome_iff_exists.mp isKnown
      exact ⟨info, found, ((guarded.tracks.keys holder info found).2 keyRegion).mpr ⟨_, inHistory⟩⟩
  counted txnId info found := by
    obtain ⟨unarrived, known, counted⟩ := guarded.tracks.counts txnId info found
    obtain ⟨txn, listed, named, waiting⟩ := guarded.ledger.waiting txnId unarrived known
    have keys := guarded.arrived txnId info found
    have parts := @List.length_eq_length_filter_add _ info.keys
      fun keyRegion => decide (txnId ∈ (lm.lockTable keyRegion).holders)
    have missing : (info.keys.filter fun keyRegion => !decide (txnId ∈ (lm.lockTable keyRegion).holders)) =
        info.keys.filter fun keyRegion => txnId ∉ (lm.lockTable keyRegion).holders := by
      apply List.filter_congr
      intro keyRegion _
      simp
    rw [missing] at parts
    refine ⟨(guarded.tracks.keys txnId info found).1, txn, guarded.sublist.subset listed, named, ?_⟩
    omega

end Steps

/-- A reader of key A that comes after the first reader. -/
def lateReaderTxn : Transaction := ⟨⟨3, .singleHome, 0, [0], [0]⟩, none, [⟨"A", ⟨.read, some ⟨0, 0⟩⟩⟩]⟩

/-- The writer holds key A and two readers wait behind it; the first reader is aborted while it
waits, and the writer's release hands the lock to the second. -/
def abortCalls : List LockCall :=
  [.acquireLocks writerTxn, .acquireLocks readerTxn, .acquireLocks lateReaderTxn, .releaseLocks 2,
    .releaseLocks 1]

/-- The aborted reader is never reported; the other reader is, when the writer releases. -/
example : RMALockManager.init.reports abortCalls = [{1}, ∅, ∅, ∅, {3}] := by
  simp only [abortCalls, RMALockManager.reports, RMALockManager.call, RMALockManager.releaseLocks,
    sortUnique_eq_insertionSort]
  decide

end Slog.RMA
