/-
Each operation of the RMA lock manager keeps its simulation of the abstract lock manager.
-/

import Slog.Library.Countdown
import Slog.Scheduler.RMASimulation

namespace Slog.RMA

open ReaderWriter Locking

/-- Asking a lock state for each request of a list, in order. -/
def acquireAll (txnId : TxnId) (state : LockState) (requests : List (KeyRegion × Bool)) : LockState :=
  requests.foldl (fun state request => (state.acquire (txnId, request.2)).2) state

section LockState

variable {state : LockState} {txnId : TxnId}

/-- The requests of a txn join the end of a safe lock state's queue, and it stays safe. -/
theorem LockState.Safe.acquireAll (safe : state.Safe) (requests : List (KeyRegion × Bool)) :
    (acquireAll txnId state requests).Safe ∧
      (acquireAll txnId state requests).requests =
        state.requests ++ requests.map fun request => (txnId, request.2) := by
  induction requests generalizing state with
  | nil => simp [acquireAll, safe]
  | cons request rest ih =>
      obtain ⟨safe', requests'⟩ := ih (safe.acquire (txnId, request.2))
      refine ⟨safe', ?_⟩
      rw [acquireAll, List.foldl_cons, ← acquireAll, requests', safe.acquire_requests]
      simp

theorem LockState.Shaped.acquireAll (shaped : state.Shaped) (requests : List (KeyRegion × Bool)) :
    (acquireAll txnId state requests).Shaped := by
  induction requests generalizing state with
  | nil => exact shaped
  | cons request rest ih => exact ih (shaped.acquire (txnId, request.2))

/-- Requests of one txn leave the other holders as they are. -/
theorem mem_acquireAll_holders {other : TxnId} (different : other ≠ txnId)
    (requests : List (KeyRegion × Bool)) :
    other ∈ (acquireAll txnId state requests).holders ↔ other ∈ state.holders := by
  induction requests generalizing state with
  | nil => rfl
  | cons request rest ih =>
      rw [acquireAll, List.foldl_cons, ← acquireAll, ih, LockState.acquire_holders]
      split <;> simp [different]

end LockState

/-- One key of `AcquireLocks`, for a key homed here. -/
theorem acquireKey_of_relevant {txn : Transaction} {kv : KeyValueEntry}
    (relevant : txn.isRelevant kv = true) (info : TxnInfo) (table : KeyRegion → LockState) :
    acquireKey txn (info, table) kv =
      ({ numWaitingFor := if ((table (keyRequest txn kv).1).acquire
            (txn.internal.id, (keyRequest txn kv).2)).1 then info.numWaitingFor - 1 else info.numWaitingFor,
         keys := info.keys ++ [(keyRequest txn kv).1] },
        Function.update table (keyRequest txn kv).1
          ((table (keyRequest txn kv).1).acquire (txn.internal.id, (keyRequest txn kv).2)).2) := by
  cases type : kv.valueEntry.type <;>
    simp [acquireKey, relevant, type, keyRequest, LockState.acquire, KeyType.isWrite]

/-- The key loop of `AcquireLocks`: the key-regions homed here join the txn's keys, each lock
state takes the requests made on it, and the txn counts one lock less per granted request. -/
theorem foldl_acquireKey (txn : Transaction) :
    ∀ (keys : List KeyValueEntry) (info : TxnInfo) (table : KeyRegion → LockState),
    (((keys.filter txn.isRelevant).map (keyRequest txn)).map Prod.fst).Nodup →
    let result := keys.foldl (acquireKey txn) (info, table)
    result.1.keys = info.keys ++ ((keys.filter txn.isRelevant).map (keyRequest txn)).map Prod.fst ∧
    result.1.numWaitingFor = info.numWaitingFor -
      ((((keys.filter txn.isRelevant).map (keyRequest txn)).filter fun request =>
        ((table request.1).acquire (txn.internal.id, request.2)).1).length : Int) ∧
    ∀ keyRegion, result.2 keyRegion = acquireAll txn.internal.id (table keyRegion)
      (((keys.filter txn.isRelevant).map (keyRequest txn)).filter (·.1 = keyRegion))
  | [], info, table, _ => by simp [acquireAll]
  | kv :: keys, info, table, distinct => by
      by_cases relevant : txn.isRelevant kv = true
      · -- the key asks the lock of its key-region
        let request := keyRequest txn kv
        let granted := ((table request.1).acquire (txn.internal.id, request.2)).1
        let table' := Function.update table request.1
          ((table request.1).acquire (txn.internal.id, request.2)).2
        have step := acquireKey_of_relevant relevant info table
        have rest : (((keys.filter txn.isRelevant).map (keyRequest txn)).map Prod.fst).Nodup := by
          simp only [List.filter_cons, relevant, if_true, List.map_cons, List.nodup_cons] at distinct
          exact distinct.2
        have fresh : ∀ other ∈ (keys.filter txn.isRelevant).map (keyRequest txn), other.1 ≠ request.1 := by
          simp only [List.filter_cons, relevant, if_true, List.map_cons, List.nodup_cons] at distinct
          intro other member same
          exact distinct.1 (same ▸ List.mem_map_of_mem member)
        have sameTable : ∀ other ∈ (keys.filter txn.isRelevant).map (keyRequest txn),
            table' other.1 = table other.1 := by
          intro other member
          simp [table', fresh other member]
        obtain ⟨keysEq, count, tableEq⟩ := foldl_acquireKey txn keys _ table' rest
        refine ⟨?_, ?_, ?_⟩
        · rw [List.foldl_cons, step, keysEq]
          simp [relevant]
        · rw [List.foldl_cons, step, count]
          have filtered : (((keys.filter txn.isRelevant).map (keyRequest txn)).filter fun other =>
              ((table' other.1).acquire (txn.internal.id, other.2)).1) =
              ((keys.filter txn.isRelevant).map (keyRequest txn)).filter fun other =>
                ((table other.1).acquire (txn.internal.id, other.2)).1 :=
            List.filter_congr fun other member => by rw [sameTable other member]
          rw [filtered]
          simp only [List.filter_cons, relevant, if_true, List.map_cons]
          by_cases grant : granted = true
          · simp only [granted, request] at grant
            simp [grant]
            omega
          · simp only [granted, request, Bool.not_eq_true] at grant
            simp [grant]
        · intro keyRegion
          rw [List.foldl_cons, step, tableEq keyRegion]
          by_cases here : keyRegion = request.1
          · subst here
            have none : ((keys.filter txn.isRelevant).map (keyRequest txn)).filter
                (·.1 = request.1) = [] := by
              rw [List.filter_eq_nil_iff]
              intro other member
              simpa using fresh other member
            simp [table', none, relevant, acquireAll, request]
          · have unchanged : table' keyRegion = table keyRegion := Function.update_of_ne here _ _
            rw [unchanged]
            simp [relevant, Ne.symm here, request]
      · -- a key homed elsewhere is skipped
        have skipped : acquireKey txn (info, table) kv = (info, table) := by
          simp [acquireKey, relevant]
        have distinct' : (((keys.filter txn.isRelevant).map (keyRequest txn)).map Prod.fst).Nodup := by
          simpa [List.filter_cons, relevant] using distinct
        have ih := foldl_acquireKey txn keys info table distinct'
        simpa [List.filter_cons, relevant, skipped] using ih

/-- The entry of a txn when its lock-only txn arrives: the one it has, or a new one that waits
for all its locks (`try_emplace`). -/
def startInfo (lm : RMALockManager) (txn : Transaction) : TxnInfo :=
  (lm.txnInfo txn.internal.id).getD ⟨txn.numRequiredLocks, []⟩

/-- The requests of a lock-only txn that their lock states grant at once. -/
def grantedRequests (lm : RMALockManager) (txn : Transaction) : List (KeyRegion × Bool) :=
  (requests txn).filter fun request => ((lm.lockTable request.1).acquire (txn.internal.id, request.2)).1

/-- The txn's entry after the key loop of `AcquireLocks`. -/
def arrivedInfo (lm : RMALockManager) (txn : Transaction) : TxnInfo :=
  { numWaitingFor := (startInfo lm txn).numWaitingFor - (grantedRequests lm txn).length,
    keys := (startInfo lm txn).keys ++ (requests txn).map Prod.fst }

section Acquire

variable {lm : RMALockManager} {spec : LockSpec} {txn : Transaction}

theorem acquireLocks_eq (distinct : ((requests txn).map Prod.fst).Nodup) :
    lm.acquireLocks txn =
      (if (arrivedInfo lm txn).isReady then .acquired else .waiting,
        ⟨Function.update lm.txnInfo txn.internal.id (some (arrivedInfo lm txn)),
          fun keyRegion => acquireAll txn.internal.id (lm.lockTable keyRegion)
            ((requests txn).filter (·.1 = keyRegion))⟩) := by
  obtain ⟨keysEq, count, tableEq⟩ := foldl_acquireKey txn txn.keys (startInfo lm txn) lm.lockTable distinct
  have loop : txn.keys.foldl (acquireKey txn) (startInfo lm txn, lm.lockTable) =
      (arrivedInfo lm txn, fun keyRegion => acquireAll txn.internal.id (lm.lockTable keyRegion)
        ((requests txn).filter (·.1 = keyRegion))) := by
    refine Prod.ext ?_ (funext tableEq)
    change (⟨_, _⟩ : TxnInfo) = _
    rw [keysEq, count]
    rfl
  simp only [RMALockManager.acquireLocks]
  rw [show (lm.txnInfo txn.internal.id).getD ⟨txn.numRequiredLocks, []⟩ = startInfo lm txn from rfl, loop]

/-- The entry a txn starts from holds the key-regions it asked before, once each. -/
theorem Tracks.startInfo_keys (sim : Tracks lm spec) (sound : spec.Sound) (fresh : spec.Fresh txn) :
    (startInfo lm txn).keys.Nodup ∧ ∀ keyRegion, keyRegion ∈ (startInfo lm txn).keys ↔
      ∃ write, (txn.internal.id, write) ∈ spec.history keyRegion := by
  cases found : lm.txnInfo txn.internal.id with
  | some info =>
      simp only [startInfo, found, Option.getD_some]
      exact sim.keys _ info found
  | none =>
      have unknown : spec.unarrived txn.internal.id = none := by
        have known := sim.known txn.internal.id
        rw [found] at known
        simpa using known.symm
      refine ⟨by simp [startInfo, found], fun keyRegion => ?_⟩
      simp only [startInfo, found, Option.getD_none, List.not_mem_nil, false_iff, not_exists]
      intro write inHistory
      rcases sound.known keyRegion _ inHistory with released | known
      · simp [fresh.notReleased] at released
      · exact known unknown

/-- The entry a txn starts from waits for its unarrived requests and the locks it lacks. -/
theorem Tracks.startInfo_numWaitingFor (sim : Tracks lm spec) :
    (startInfo lm txn).numWaitingFor = (spec.unarrived txn.internal.id).getD txn.numRequiredLocks +
      (((startInfo lm txn).keys.filter fun keyRegion =>
        txn.internal.id ∉ (lm.lockTable keyRegion).holders).length : Int) := by
  cases found : lm.txnInfo txn.internal.id with
  | some info =>
      obtain ⟨unarrived, known, counted⟩ := sim.counts _ info found
      simp [startInfo, found, known, counted]
  | none =>
      have unknown : spec.unarrived txn.internal.id = none := by
        have known := sim.known txn.internal.id
        rw [found] at known
        simpa using known.symm
      simp [startInfo, found, unknown]

/-- A txn holds none of the locks its new requests ask for. -/
theorem Tracks.not_mem_holders_of_request (sim : Tracks lm spec) (fresh : spec.Fresh txn)
    {request : KeyRegion × Bool} (member : request ∈ requests txn) :
    txn.internal.id ∉ (lm.lockTable request.1).holders := by
  intro holding
  have inQueue : (txn.internal.id, (lm.lockTable request.1).mode.isWrite) ∈ spec.queue request.1 := by
    rw [← sim.queues]
    simp [LockState.requests, holding]
  exact fresh.new request member _ (List.mem_filter.mp inQueue).1 rfl

/-- A new request holds its lock after `AcquireLocks` exactly when it was granted. -/
theorem Tracks.mem_holders_acquire (sim : Tracks lm spec) (fresh : spec.Fresh txn)
    {request : KeyRegion × Bool} (member : request ∈ requests txn) :
    txn.internal.id ∈ ((lm.acquireLocks txn).2.lockTable request.1).holders ↔
      ((lm.lockTable request.1).acquire (txn.internal.id, request.2)).1 = true := by
  rw [acquireLocks_eq fresh.distinct]
  simp only [filter_requests_eq_singleton fresh.distinct member, acquireAll, List.foldl_cons,
    List.foldl_nil, LockState.acquire_holders, List.mem_append]
  have absent := sim.not_mem_holders_of_request fresh member
  split <;> simp [*]

/-- A lock state that the txn asks nothing of stays as it is. -/
theorem acquireLocks_lockTable_of_not_asked (distinct : ((requests txn).map Prod.fst).Nodup)
    {keyRegion : KeyRegion} (notAsked : ∀ request ∈ requests txn, request.1 ≠ keyRegion) :
    (lm.acquireLocks txn).2.lockTable keyRegion = lm.lockTable keyRegion := by
  have none : (requests txn).filter (·.1 = keyRegion) = [] :=
    List.filter_eq_nil_iff.mpr fun request member => by simpa using notAsked request member
  rw [acquireLocks_eq distinct]
  simp [none, acquireAll]

/-- `AcquireLocks` keeps the queues: the txn's requests join their ends, and the txn waits for
its unarrived requests and for the locks it was not granted. -/
theorem Tracks.acquire (sim : Tracks lm spec) (safe : ∀ keyRegion, (lm.lockTable keyRegion).Safe)
    (sound : spec.Sound) (fresh : spec.Fresh txn) : Tracks (lm.acquireLocks txn).2 (spec.acquire txn) where
  queues keyRegion := by
    rw [acquire_queue fresh.notReleased, ← sim.queues, acquireLocks_eq fresh.distinct]
    exact ((safe keyRegion).acquireAll _).2
  known other := by
    rw [acquireLocks_eq fresh.distinct, acquire_unarrived]
    by_cases self : other = txn.internal.id
    · simp [self]
    · simp [self, sim.known other]
  keys other info found := by
    rw [acquireLocks_eq fresh.distinct] at found
    by_cases self : other = txn.internal.id
    · subst self
      simp only [Function.update_self, Option.some.injEq] at found
      subst found
      obtain ⟨startDistinct, startKeys⟩ := sim.startInfo_keys sound fresh
      refine ⟨?_, fun keyRegion => ?_⟩
      · -- the new key-regions are distinct and none was asked before
        refine List.nodup_append.mpr ⟨startDistinct, fresh.distinct, ?_⟩
        intro old oldMember new newMember same
        subst same
        obtain ⟨write, inHistory⟩ := (startKeys old).mp oldMember
        obtain ⟨request, inRequests, rfl⟩ := List.mem_map.mp newMember
        exact fresh.new request inRequests _ inHistory rfl
      · rw [arrivedInfo, List.mem_append, startKeys]
        simp only [acquire_history, List.mem_append, List.mem_map, List.mem_filter, decide_eq_true_eq,
          Prod.mk.injEq, exists_or]
        constructor
        · rintro (old | ⟨⟨region, write⟩, inRequests, rfl⟩)
          · exact .inl old
          · right
            exact ⟨write, (region, write), by simpa using inRequests⟩
        · rintro (old | ⟨write, request, ⟨inRequests, onRegion⟩, -, -⟩)
          · exact .inl old
          · exact .inr ⟨request, inRequests, onRegion⟩
    · simp only [Function.update_of_ne self] at found
      obtain ⟨distinct, member⟩ := sim.keys other info found
      refine ⟨distinct, fun keyRegion => ?_⟩
      rw [member, acquire_history]
      simp [Ne.symm self]
  counts other info found := by
    rw [acquireLocks_eq fresh.distinct] at found
    by_cases self : other = txn.internal.id
    · subst self
      simp only [Function.update_self, Option.some.injEq] at found
      subst found
      refine ⟨_, by rw [acquire_unarrived, if_pos rfl], ?_⟩
      obtain ⟨_, startKeys⟩ := sim.startInfo_keys sound fresh
      have oldKeys : ((startInfo lm txn).keys.filter fun keyRegion =>
          txn.internal.id ∉ ((lm.acquireLocks txn).2.lockTable keyRegion).holders) =
          (startInfo lm txn).keys.filter fun keyRegion =>
            txn.internal.id ∉ (lm.lockTable keyRegion).holders := by
        apply List.filter_congr
        intro keyRegion member
        obtain ⟨write, inHistory⟩ := (startKeys keyRegion).mp member
        have notAsked : ∀ request ∈ requests txn, request.1 ≠ keyRegion := by
          intro request inRequests same
          subst same
          exact fresh.new request inRequests _ inHistory rfl
        rw [acquireLocks_lockTable_of_not_asked fresh.distinct notAsked]
      have newKeys : (((requests txn).map Prod.fst).filter fun keyRegion =>
          txn.internal.id ∉ ((lm.acquireLocks txn).2.lockTable keyRegion).holders).length =
          ((requests txn).filter fun request =>
            !((lm.lockTable request.1).acquire (txn.internal.id, request.2)).1).length := by
        rw [List.filter_map, List.length_map]
        congr 1
        apply List.filter_congr
        intro request member
        have held := sim.mem_holders_acquire fresh member
        by_cases granted : ((lm.lockTable request.1).acquire (txn.internal.id, request.2)).1 = true
        · simp [granted, held.mpr granted]
        · simp [granted, (not_congr held).mpr granted]
      have split : (requests txn).length = (grantedRequests lm txn).length +
          ((requests txn).filter fun request =>
            !((lm.lockTable request.1).acquire (txn.internal.id, request.2)).1).length :=
        List.length_eq_length_filter_add _
      have start : (startInfo lm txn).numWaitingFor = _ := sim.startInfo_numWaitingFor
      simp only [arrivedInfo, List.filter_append, List.length_append, oldKeys, newKeys]
      push_cast
      omega
    · simp only [Function.update_of_ne self] at found
      obtain ⟨unarrived, known, counted⟩ := sim.counts other info found
      refine ⟨unarrived, by rw [acquire_unarrived, if_neg self, known], ?_⟩
      rw [counted]
      congr 3
      apply List.filter_congr
      intro keyRegion _
      rw [acquireLocks_eq fresh.distinct]
      simp only [mem_acquireAll_holders self]

/-- `AcquireLocks` keeps a safe lock state safe. -/
theorem acquireLocks_safe (safe : ∀ keyRegion, (lm.lockTable keyRegion).Safe)
    (distinct : ((requests txn).map Prod.fst).Nodup) (keyRegion : KeyRegion) :
    ((lm.acquireLocks txn).2.lockTable keyRegion).Safe := by
  rw [acquireLocks_eq distinct]
  exact ((safe keyRegion).acquireAll _).1

/-- `AcquireLocks` keeps the simulation. -/
theorem Simulates.acquire (sim : Simulates lm spec) (inv : spec.Inv) (fresh : spec.Fresh txn) :
    Simulates (lm.acquireLocks txn).2 (spec.acquire txn) where
  toTracks := sim.toTracks.acquire (fun keyRegion => (sim.shaped keyRegion).safe) inv.toSound fresh
  shaped keyRegion := by
    rw [acquireLocks_eq fresh.distinct]
    exact (sim.shaped keyRegion).acquireAll _

/-- `AcquireLocks` answers `ACQUIRED` exactly when the txn is ready in the abstract model. -/
theorem Simulates.acquireLocks_acquired_iff (sim : Simulates lm spec) (inv : spec.Inv)
    (fresh : spec.Fresh txn) :
    (lm.acquireLocks txn).1 = .acquired ↔ (spec.acquire txn).Ready txn.internal.id := by
  have found : (lm.acquireLocks txn).2.txnInfo txn.internal.id = some (arrivedInfo lm txn) := by
    rw [acquireLocks_eq fresh.distinct]
    simp
  rw [← (sim.acquire inv fresh).isReady_iff (inv.acquire fresh) found, acquireLocks_eq fresh.distinct]
  cases ready : (arrivedInfo lm txn).isReady <;> simp

end Acquire

/-- The txns a release hands locks to, key-region by key-region. -/
def grantees (lm : RMALockManager) (txnId : TxnId) (keys : List KeyRegion) : List TxnId :=
  keys.flatMap fun keyRegion => ((lm.lockTable keyRegion).release txnId).1

/-- Handing a lock on is one step of the count-down loop over the txn table. -/
theorem grantTo_eq_step : grantTo = Countdown.step (fun _ => false)
    (fun info : TxnInfo => { info with numWaitingFor := info.numWaitingFor - 1 }) TxnInfo.isReady
    (fun txnId _ => txnId) := by
  funext acc newTxn
  unfold grantTo Countdown.step
  cases acc.2 newTxn <;> rfl

theorem iterate_lower (times : Nat) (info : TxnInfo) :
    (fun info : TxnInfo => { info with numWaitingFor := info.numWaitingFor - 1 })^[times] info =
      { info with numWaitingFor := info.numWaitingFor - times } := by
  induction times generalizing info with
  | zero => simp
  | succ times ih =>
      rw [Function.iterate_succ_apply, ih]
      congr 1
      push_cast
      omega

/-- The key loop of `ReleaseLocks` over distinct key-regions: each lock state is released once,
and the txns each release hands the lock to are granted in order. -/
theorem foldl_releaseKey (txnId : TxnId) :
    ∀ (keys : List KeyRegion) (result : List TxnId) (table : TxnId → Option TxnInfo)
      (lockTable : KeyRegion → LockState), keys.Nodup →
    let loop := keys.foldl (releaseKey txnId) (result, table, lockTable)
    (loop.1, loop.2.1) = (keys.flatMap fun keyRegion => ((lockTable keyRegion).release txnId).1).foldl
        grantTo (result, table) ∧
    ∀ keyRegion, loop.2.2 keyRegion =
      if keyRegion ∈ keys then ((lockTable keyRegion).release txnId).2 else lockTable keyRegion
  | [], result, table, lockTable, _ => by simp
  | keyRegion :: rest, result, table, lockTable, distinct => by
      have fresh := (List.nodup_cons.mp distinct).1
      let handed := ((lockTable keyRegion).release txnId).1.foldl grantTo (result, table)
      let lockTable' := Function.update lockTable keyRegion ((lockTable keyRegion).release txnId).2
      have step : releaseKey txnId (result, table, lockTable) keyRegion = (handed.1, handed.2, lockTable') := rfl
      have sameStates : ∀ other ∈ rest, lockTable' other = lockTable other := by
        intro other member
        have different : other ≠ keyRegion := by
          rintro rfl
          exact fresh member
        exact Function.update_of_ne different _ _
      obtain ⟨granting, states⟩ :=
        foldl_releaseKey txnId rest handed.1 handed.2 lockTable' (List.nodup_cons.mp distinct).2
      refine ⟨?_, fun other => ?_⟩
      · rw [List.foldl_cons, step, granting, List.flatMap_cons, List.foldl_append]
        have later : (rest.flatMap fun other => ((lockTable' other).release txnId).1) =
            rest.flatMap fun other => ((lockTable other).release txnId).1 :=
          List.flatMap_congr fun other member => by rw [sameStates other member]
        rw [later]
      · rw [List.foldl_cons, step, states other]
        by_cases here : other = keyRegion
        · subst here
          simp [fresh, lockTable']
        · by_cases inRest : other ∈ rest
          · simp [inRest, sameStates other inRest]
          · simp [here, inRest, lockTable']

/-- Counting in a concatenation of lists without repeats counts the lists that hold the value. -/
theorem count_flatMap_of_nodup {α β : Type} [DecidableEq β] {f : α → List β} (value : β) :
    ∀ {l : List α}, (∀ a ∈ l, (f a).Nodup) → (l.flatMap f).count value = (l.filter fun a => value ∈ f a).length
  | [], _ => rfl
  | a :: l, distinct => by
      rw [List.flatMap_cons, List.count_append,
        count_flatMap_of_nodup value fun other member => distinct other (List.mem_cons_of_mem _ member),
        List.filter_cons]
      by_cases member : value ∈ f a
      · rw [List.count_eq_one_of_mem (distinct a List.mem_cons_self) member]
        simp [member]
        omega
      · simp [member, List.count_eq_zero_of_not_mem member]

/-- Two lists without repeats that agree on the values satisfying `p` have as many of them. -/
theorem length_filter_eq_of_nodup {α : Type} [DecidableEq α] {l l' : List α} (distinct : l.Nodup)
    (distinct' : l'.Nodup) {p : α → Bool} (both : ∀ a, p a = true → (a ∈ l ↔ a ∈ l')) :
    (l.filter p).length = (l'.filter p).length := by
  apply List.Perm.length_eq
  apply (List.perm_ext_iff_of_nodup (distinct.filter p) (distinct'.filter p)).mpr
  intro a
  simp only [List.mem_filter]
  constructor
  · rintro ⟨member, chosen⟩
    exact ⟨(both a chosen).mp member, chosen⟩
  · rintro ⟨member, chosen⟩
    exact ⟨(both a chosen).mpr member, chosen⟩

/-- The lock hand-off loop returns a txn exactly when one of the locks handed to it leaves it
waiting for none. -/
theorem mem_foldl_grantTo (grantees : List TxnId) (table : TxnId → Option TxnInfo) (other : TxnId) :
    other ∈ (grantees.foldl grantTo ([], table)).1 ↔ ∃ blocked, table other = some blocked ∧
      ∃ times, 0 < times ∧ times ≤ grantees.count other ∧ blocked.numWaitingFor - times = 0 := by
  have reported : other ∈ (grantees.foldl (Countdown.step (fun _ => false)
      (fun info : TxnInfo => { info with numWaitingFor := info.numWaitingFor - 1 }) TxnInfo.isReady
      (fun txnId _ => txnId)) ([], table)).1.map id ↔ _ :=
    Countdown.mem_foldl_step id (fun _ _ => rfl) grantees ([], table) other
  rw [← grantTo_eq_step, List.map_id] at reported
  rw [reported]
  simp [iterate_lower, TxnInfo.isReady]

section Release

variable {lm : RMALockManager} {spec : LockSpec} {txnId : TxnId} {info : TxnInfo}

theorem releaseLocks_eq (found : lm.txnInfo txnId = some info) (distinct : info.keys.Nodup) :
    lm.releaseLocks txnId =
      (sortUnique ((grantees lm txnId info.keys).foldl grantTo ([], lm.txnInfo)).1,
        ⟨Function.update ((grantees lm txnId info.keys).foldl grantTo ([], lm.txnInfo)).2 txnId none,
          fun keyRegion => if keyRegion ∈ info.keys then ((lm.lockTable keyRegion).release txnId).2
            else lm.lockTable keyRegion⟩) := by
  obtain ⟨granting, states⟩ := foldl_releaseKey txnId info.keys [] lm.txnInfo lm.lockTable distinct
  have loop : info.keys.foldl (releaseKey txnId) ([], lm.txnInfo, lm.lockTable) =
      (((grantees lm txnId info.keys).foldl grantTo ([], lm.txnInfo)).1,
        ((grantees lm txnId info.keys).foldl grantTo ([], lm.txnInfo)).2,
        fun keyRegion => if keyRegion ∈ info.keys then ((lm.lockTable keyRegion).release txnId).2
          else lm.lockTable keyRegion) := by
    rw [grantees, ← granting]
    exact Prod.ext rfl (Prod.ext rfl (funext states))
  simp only [RMALockManager.releaseLocks, found]
  rw [loop]

theorem releaseLocks_lockTable (found : lm.txnInfo txnId = some info) (distinct : info.keys.Nodup)
    (keyRegion : KeyRegion) : (lm.releaseLocks txnId).2.lockTable keyRegion =
      if keyRegion ∈ info.keys then ((lm.lockTable keyRegion).release txnId).2 else lm.lockTable keyRegion := by
  rw [releaseLocks_eq found distinct]

/-- After `ReleaseLocks` the released txn is gone and every other txn counts one lock less per
key-region it was handed. -/
theorem releaseLocks_txnInfo (found : lm.txnInfo txnId = some info) (distinct : info.keys.Nodup)
    (other : TxnId) : (lm.releaseLocks txnId).2.txnInfo other =
      if other = txnId then none else (lm.txnInfo other).map fun blocked =>
        { blocked with numWaitingFor := blocked.numWaitingFor - (grantees lm txnId info.keys).count other } := by
  rw [releaseLocks_eq found distinct]
  by_cases self : other = txnId
  · simp [self]
  · simp only [Function.update_of_ne self, if_neg self, grantTo_eq_step, Countdown.foldl_step_table,
      Bool.false_eq_true, if_false]
    congr 1
    funext blocked
    exact iterate_lower _ _

theorem releaseLocks_result (found : lm.txnInfo txnId = some info) (distinct : info.keys.Nodup) :
    (lm.releaseLocks txnId).1 = sortUnique ((grantees lm txnId info.keys).foldl grantTo ([], lm.txnInfo)).1 := by
  rw [releaseLocks_eq found distinct]

/-- A ready txn holds the lock of each of its keys. -/
theorem Simulates.holding_of_ready (sim : Simulates lm spec) (inv : spec.Inv)
    (found : lm.txnInfo txnId = some info) (ready : info.isReady = true) :
    ∀ keyRegion ∈ info.keys, txnId ∈ (lm.lockTable keyRegion).holders :=
  (sim.granted_iff inv found).mp ((sim.isReady_iff inv found).mp ready).2

theorem Tracks.distinct_requests (sim : Tracks lm spec) (sound : spec.Sound) (keyRegion : KeyRegion) :
    ((lm.lockTable keyRegion).requests.map Prod.fst).Nodup := by
  rw [sim.queues]
  exact distinct_queue sound keyRegion

/-- Releasing a known txn takes its requests out of the queues its lock states keep. -/
theorem Tracks.releaseLocks_requests (sim : Tracks lm spec) (safe : ∀ keyRegion, (lm.lockTable keyRegion).Safe)
    (sound : spec.Sound) (found : lm.txnInfo txnId = some info) (keyRegion : KeyRegion) :
    ((lm.releaseLocks txnId).2.lockTable keyRegion).requests = (spec.release txnId).queue keyRegion := by
  obtain ⟨distinct, keys⟩ := sim.keys txnId info found
  rw [releaseLocks_lockTable found distinct, release_queue]
  split
  · rw [(safe keyRegion).release_requests (sim.distinct_requests sound keyRegion), sim.queues]
  · -- the txn asked nothing of this key-region
    rename_i notMember
    rw [sim.queues]
    symm
    apply List.filter_eq_self.mpr
    intro request member
    have inHistory := (List.mem_filter.mp member).1
    have different : request.1 ≠ txnId := by
      intro same
      exact notMember ((keys keyRegion).mpr ⟨request.2, by rw [← same]; exact inHistory⟩)
    simpa using different

/-- `ReleaseLocks` keeps every lock state safe. -/
theorem releaseLocks_safe (safe : ∀ keyRegion, (lm.lockTable keyRegion).Safe)
    (found : lm.txnInfo txnId = some info) (distinct : info.keys.Nodup) (keyRegion : KeyRegion) :
    ((lm.releaseLocks txnId).2.lockTable keyRegion).Safe := by
  rw [releaseLocks_lockTable found distinct]
  split
  · exact (safe keyRegion).release
  · exact safe keyRegion

/-- `ReleaseLocks` of any known txn, ready or waiting, keeps the queues of its release. -/
theorem Tracks.release (sim : Tracks lm spec) (safe : ∀ keyRegion, (lm.lockTable keyRegion).Safe)
    (sound : spec.Sound) (found : lm.txnInfo txnId = some info) :
    Tracks (lm.releaseLocks txnId).2 (spec.release txnId) where
  queues := sim.releaseLocks_requests safe sound found
  known other := by
    rw [releaseLocks_txnInfo found (sim.keys txnId info found).1, release_unarrived]
    split
    · rfl
    · simp [sim.known other]
  keys other info' found' := by
    rw [releaseLocks_txnInfo found (sim.keys txnId info found).1] at found'
    split at found'
    · simp at found'
    · obtain ⟨old, oldFound, rfl⟩ := Option.map_eq_some_iff.mp found'
      exact sim.keys other old oldFound
  counts other info' found' := by
    have distinct := (sim.keys txnId info found).1
    rw [releaseLocks_txnInfo found distinct] at found'
    split at found'
    · simp at found'
    · rename_i self
      obtain ⟨old, oldFound, rfl⟩ := Option.map_eq_some_iff.mp found'
      obtain ⟨unarrived, known, counted⟩ := sim.counts other old oldFound
      obtain ⟨oldDistinct, oldKeys⟩ := sim.keys other old oldFound
      refine ⟨unarrived, by rw [release_unarrived, if_neg self, known], ?_⟩
      have grows : ∀ keyRegion, other ∈ (lm.lockTable keyRegion).holders →
          other ∈ ((lm.releaseLocks txnId).2.lockTable keyRegion).holders := by
        intro keyRegion holds
        rw [releaseLocks_lockTable found distinct]
        split
        · exact (safe keyRegion).mem_release_holders self holds
        · exact holds
      let newly := fun keyRegion => decide (other ∉ (lm.lockTable keyRegion).holders ∧
        other ∈ ((lm.releaseLocks txnId).2.lockTable keyRegion).holders)
      have granted : (grantees lm txnId info.keys).count other = (old.keys.filter newly).length := by
        rw [grantees, count_flatMap_of_nodup other fun keyRegion _ =>
          (safe keyRegion).nodup_release_grantees (sim.distinct_requests sound keyRegion)]
        have handed : (info.keys.filter fun keyRegion => other ∈ ((lm.lockTable keyRegion).release txnId).1) =
            info.keys.filter newly := by
          apply List.filter_congr
          intro keyRegion member
          simp only [newly]
          rw [(safe keyRegion).release_grantees (sim.distinct_requests sound keyRegion),
            releaseLocks_lockTable found distinct, if_pos member]
          simp [and_comm]
        rw [handed]
        apply length_filter_eq_of_nodup distinct oldDistinct
        intro keyRegion chosen
        simp only [newly, decide_eq_true_eq] at chosen
        have released : keyRegion ∈ info.keys := by
          by_contra notMember
          rw [releaseLocks_lockTable found distinct, if_neg notMember] at chosen
          exact chosen.1 chosen.2
        have asked : keyRegion ∈ old.keys := by
          have inQueue : (other, ((lm.releaseLocks txnId).2.lockTable keyRegion).mode.isWrite) ∈
              (spec.release txnId).queue keyRegion := by
            rw [← sim.releaseLocks_requests safe sound found]
            simp [LockState.requests, chosen.2]
          exact (oldKeys keyRegion).mpr ⟨_, (List.mem_filter.mp inQueue).1⟩
        exact ⟨fun _ => asked, fun _ => released⟩
      have split : (old.keys.filter fun keyRegion => other ∉ (lm.lockTable keyRegion).holders).length =
          (old.keys.filter fun keyRegion =>
            other ∉ ((lm.releaseLocks txnId).2.lockTable keyRegion).holders).length +
          (old.keys.filter newly).length := by
        have total : (old.keys.filter fun keyRegion => other ∉ (lm.lockTable keyRegion).holders).length =
            ((old.keys.filter fun keyRegion => other ∉ (lm.lockTable keyRegion).holders).filter
              fun keyRegion => other ∉ ((lm.releaseLocks txnId).2.lockTable keyRegion).holders).length +
            ((old.keys.filter fun keyRegion => other ∉ (lm.lockTable keyRegion).holders).filter
              fun keyRegion => !decide (other ∉ ((lm.releaseLocks txnId).2.lockTable keyRegion).holders)).length :=
          List.length_eq_length_filter_add _
        have stillWaiting : ((old.keys.filter fun keyRegion => other ∉ (lm.lockTable keyRegion).holders).filter
            fun keyRegion => other ∉ ((lm.releaseLocks txnId).2.lockTable keyRegion).holders) =
            old.keys.filter fun keyRegion => other ∉ ((lm.releaseLocks txnId).2.lockTable keyRegion).holders := by
          rw [List.filter_filter]
          apply List.filter_congr
          intro keyRegion _
          by_cases holds : other ∈ ((lm.releaseLocks txnId).2.lockTable keyRegion).holders
          · simp [holds]
          · have notBefore : other ∉ (lm.lockTable keyRegion).holders := fun before => holds (grows keyRegion before)
            simp [holds, notBefore]
        have handedOn : ((old.keys.filter fun keyRegion => other ∉ (lm.lockTable keyRegion).holders).filter
            fun keyRegion => !decide (other ∉ ((lm.releaseLocks txnId).2.lockTable keyRegion).holders)) =
            old.keys.filter newly := by
          rw [List.filter_filter]
          apply List.filter_congr
          intro keyRegion _
          simp [newly, Bool.and_comm]
        rw [total, stillWaiting, handedOn]
      simp only
      rw [counted, granted]
      omega

/-- `ReleaseLocks` of a ready txn keeps the simulation of its release. -/
theorem Simulates.release (sim : Simulates lm spec) (inv : spec.Inv) (found : lm.txnInfo txnId = some info)
    (ready : info.isReady = true) : Simulates (lm.releaseLocks txnId).2 (spec.release txnId) where
  toTracks := sim.toTracks.release (fun keyRegion => (sim.shaped keyRegion).safe) inv.toSound found
  shaped keyRegion := by
    rw [releaseLocks_lockTable found (sim.keys txnId info found).1]
    split
    · exact (sim.shaped keyRegion).release (sim.holding_of_ready inv found ready keyRegion ‹_›)
    · exact sim.shaped keyRegion

/-- `ReleaseLocks` of any known txn returns exactly the txns whose count of locks to wait for it
brings to zero. -/
theorem Tracks.mem_releaseLocks_iff (sim : Tracks lm spec) (safe : ∀ keyRegion, (lm.lockTable keyRegion).Safe)
    (sound : spec.Sound) (found : lm.txnInfo txnId = some info) (other : TxnId) :
    other ∈ (lm.releaseLocks txnId).1 ↔ ∃ blocked after, lm.txnInfo other = some blocked ∧
      (lm.releaseLocks txnId).2.txnInfo other = some after ∧ blocked.isReady = false ∧ after.isReady = true := by
  have distinct := (sim.keys txnId info found).1
  have sim' := sim.release safe sound found
  have after : ∀ blocked, other ≠ txnId → lm.txnInfo other = some blocked →
      (lm.releaseLocks txnId).2.txnInfo other = some { blocked with
        numWaitingFor := blocked.numWaitingFor - (grantees lm txnId info.keys).count other } := by
    intro blocked self found'
    rw [releaseLocks_txnInfo found distinct, if_neg self, found']
    rfl
  have notSelf : other ∈ grantees lm txnId info.keys → other ≠ txnId := by
    intro member same
    subst same
    obtain ⟨keyRegion, _, handed⟩ := List.mem_flatMap.mp member
    rw [(safe keyRegion).release_grantees (sim.distinct_requests sound keyRegion)] at handed
    exact (safe keyRegion).not_mem_release_holders (sim.distinct_requests sound keyRegion)
      (List.mem_filter.mp handed).1
  rw [releaseLocks_result found distinct, mem_sortUnique, mem_foldl_grantTo]
  constructor
  · rintro ⟨blocked, found', times, positive, bounded, drained⟩
    have self := notSelf (List.count_pos_iff.mp (by omega))
    obtain ⟨unarrived, known, counted⟩ := sim'.counts other _ (after blocked self found')
    have nonneg := (sound.release txnId).nonneg other unarrived known
    simp only at counted drained
    refine ⟨blocked, _, found', after blocked self found', ?_, ?_⟩
    · simp only [TxnInfo.isReady, beq_eq_false_iff_ne]
      omega
    · simp only [TxnInfo.isReady, beq_iff_eq]
      omega
  · rintro ⟨blocked, after', found', found'', notBefore, readyAfter⟩
    have self : other ≠ txnId := by
      rintro rfl
      rw [releaseLocks_txnInfo found distinct, if_pos rfl] at found''
      simp at found''
    rw [after blocked self found', Option.some.injEq] at found''
    subst found''
    simp only [TxnInfo.isReady, beq_iff_eq, beq_eq_false_iff_ne] at notBefore readyAfter
    exact ⟨blocked, found', (grantees lm txnId info.keys).count other, by omega, le_refl _, readyAfter⟩

/-- `ReleaseLocks` of a ready txn returns exactly the txns that its release makes ready. -/
theorem Simulates.mem_releaseLocks_iff (sim : Simulates lm spec) (inv : spec.Inv)
    (found : lm.txnInfo txnId = some info) (ready : info.isReady = true) (other : TxnId) :
    other ∈ (lm.releaseLocks txnId).1 ↔ (spec.release txnId).Ready other ∧ ¬spec.Ready other := by
  have sim' := sim.release inv found ready
  have inv' := inv.release ((sim.isReady_iff inv found).mp ready)
  rw [sim.toTracks.mem_releaseLocks_iff (fun keyRegion => (sim.shaped keyRegion).safe) inv.toSound found]
  constructor
  · rintro ⟨blocked, after, found', found'', notBefore, readyAfter⟩
    refine ⟨(sim'.isReady_iff inv' found'').mp readyAfter, fun readyBefore => ?_⟩
    rw [(sim.isReady_iff inv found').mpr readyBefore] at notBefore
    exact Bool.noConfusion notBefore
  · rintro ⟨readyAfter, notBefore⟩
    have known := readyAfter.1
    rw [release_unarrived] at known
    have self : other ≠ txnId := by
      rintro rfl
      simp at known
    rw [if_neg self] at known
    obtain ⟨blocked, found'⟩ := Option.isSome_iff_exists.mp (by rw [sim.known other, known]; rfl :
      (lm.txnInfo other).isSome)
    obtain ⟨after, found''⟩ := Option.isSome_iff_exists.mp (by rw [sim'.known other, readyAfter.1]; rfl :
      ((lm.releaseLocks txnId).2.txnInfo other).isSome)
    refine ⟨blocked, after, found', found'', ?_, (sim'.isReady_iff inv' found'').mpr readyAfter⟩
    cases waiting : blocked.isReady
    · rfl
    · exact absurd ((sim.isReady_iff inv found').mp waiting) notBefore

end Release

end Slog.RMA
