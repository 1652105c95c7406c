/-
The RMA lock manager, while only ready txns release, simulates the abstract lock manager.
-/

import Mathlib.Data.List.TakeWhile
import Slog.Scheduler.RMALockManager
import Slog.Scheduler.LockSpec

namespace Slog.RMA

open ReaderWriter Locking

def LockMode.isWrite : LockMode → Bool
  | .write => true
  | _ => false

@[simp] theorem LockMode.isWrite_unlocked : LockMode.unlocked.isWrite = false := rfl
@[simp] theorem LockMode.isWrite_read : LockMode.read.isWrite = false := rfl
@[simp] theorem LockMode.isWrite_write : LockMode.write.isWrite = true := rfl

/-- The queue a lock state keeps: its holders in the mode of the lock, then its waiters. -/
def LockState.requests (state : LockState) : List (TxnId × Bool) :=
  state.holders.map (fun holder => (holder, state.mode.isWrite)) ++
    state.waiterQueue.map fun waiter => (waiter.1, waiter.2.isWrite)

/-- The lock state asked for one request, read or write. -/
def LockState.acquire (state : LockState) (request : TxnId × Bool) : Bool × LockState :=
  if request.2 then state.acquireWriteLock request.1 else state.acquireReadLock request.1

/-- The shape every lock state keeps: it is unlocked exactly when no txn holds it, and then no
txn waits; a write lock has one holder; behind a read lock the first waiter writes; and each
waiter asks for a read or a write. -/
structure LockState.Shaped (state : LockState) : Prop where
  unlocked : state.mode = .unlocked ↔ state.holders = []
  idle : state.mode = .unlocked → state.waiterQueue = []
  single : state.mode = .write → state.holders.length = 1
  blocked : state.mode = .read → ∀ waiter ∈ state.waiterQueue.head?, waiter.2 = .write
  asks : ∀ waiter ∈ state.waiterQueue, waiter.2 = .read ∨ waiter.2 = .write

/-- The shape a lock state keeps whichever txns release, waiters included: the fields of
`Shaped` but the one on the first waiter behind a read lock, which the removal of a waiter from
the middle of the queue can break. -/
structure LockState.Safe (state : LockState) : Prop where
  unlocked : state.mode = .unlocked ↔ state.holders = []
  idle : state.mode = .unlocked → state.waiterQueue = []
  single : state.mode = .write → state.holders.length = 1
  asks : ∀ waiter ∈ state.waiterQueue, waiter.2 = .read ∨ waiter.2 = .write

theorem LockState.Shaped.safe {state : LockState} (shaped : state.Shaped) : state.Safe :=
  ⟨shaped.unlocked, shaped.idle, shaped.single, shaped.asks⟩

theorem LockState.empty_shaped : LockState.empty.Shaped where
  unlocked := by simp [LockState.empty]
  idle _ := rfl
  single unlocked := by simp [LockState.empty] at unlocked
  blocked unlocked := by simp [LockState.empty] at unlocked
  asks waiter member := by simp [LockState.empty] at member

section Shape

variable {state : LockState}

/-- The holders of a lock state in shape are the prefix of its queue that the lock grants. -/
theorem LockState.Shaped.grantedPrefix_requests (shaped : state.Shaped) :
    grantedPrefix state.requests = state.holders.map fun holder => (holder, state.mode.isWrite) := by
  obtain ⟨mode, holders, waiters⟩ := state
  cases mode with
  | unlocked =>
      have empty := shaped.unlocked.mp rfl
      have idle := shaped.idle rfl
      simp only at empty idle
      simp [LockState.requests, empty, idle, grantedPrefix]
  | write =>
      obtain ⟨holder, rfl⟩ := List.length_eq_one_iff.mp (shaped.single rfl)
      simp [LockState.requests, grantedPrefix]
  | read =>
      have held : holders ≠ [] := fun empty => by simpa using shaped.unlocked.mpr empty
      obtain ⟨holder, others, rfl⟩ := List.exists_cons_of_ne_nil held
      have stop : (waiters.map fun waiter => (waiter.1, waiter.2.isWrite)).takeWhile
          (fun request => !request.2) = [] := by
        cases waiters with
        | nil => rfl
        | cons first rest =>
            have write := shaped.blocked rfl first (by simp)
            simp [write]
      simp [LockState.requests, grantedPrefix, List.takeWhile_append_of_pos, stop]

/-- A txn with one request in the queue of a lock state in shape holds the lock exactly when
no request before its own conflicts with it. -/
theorem LockState.Shaped.mem_holders_iff (shaped : state.Shaped) {front back : List (TxnId × Bool)}
    {txnId : TxnId} {write : Bool} (split : state.requests = front ++ (txnId, write) :: back)
    (distinct : (state.requests.map Prod.fst).Nodup) :
    txnId ∈ state.holders ↔ ∀ earlier ∈ front, conflicts earlier.2 write = false := by
  have fresh : txnId ∉ front.map Prod.fst := by
    rw [split, List.map_append, List.map_cons] at distinct
    exact fun member => (List.nodup_middle.mp distinct |> List.nodup_cons.mp).1
      (List.mem_append_left _ member)
  have granted : txnId ∈ (grantedPrefix (front ++ (txnId, write) :: back)).map Prod.fst ↔ _ :=
    mem_grantedPrefix fresh
  rw [← split, shaped.grantedPrefix_requests, List.map_map] at granted
  simpa using granted

/-- A request joins the end of the queue. -/
theorem LockState.Safe.acquire_requests (safe : state.Safe) (request : TxnId × Bool) :
    (state.acquire request).2.requests = state.requests ++ [request] := by
  obtain ⟨mode, holders, waiters⟩ := state
  obtain ⟨txnId, write⟩ := request
  cases mode with
  | unlocked =>
      have empty := safe.unlocked.mp rfl
      have idle := safe.idle rfl
      simp only at empty idle
      cases write <;> simp [LockState.acquire, LockState.acquireReadLock, LockState.acquireWriteLock,
        LockState.requests, empty, idle]
  | read =>
      cases write <;> by_cases waiting : waiters = [] <;>
        simp [LockState.acquire, LockState.acquireReadLock, LockState.acquireWriteLock,
          LockState.requests, waiting]
  | write =>
      cases write <;> simp [LockState.acquire, LockState.acquireReadLock, LockState.acquireWriteLock,
        LockState.requests]

/-- A granted request joins the holders; no other holder changes. -/
theorem LockState.acquire_holders (request : TxnId × Bool) :
    (state.acquire request).2.holders =
      state.holders ++ if (state.acquire request).1 then [request.1] else [] := by
  obtain ⟨mode, holders, waiters⟩ := state
  obtain ⟨txnId, write⟩ := request
  cases mode <;> cases write <;> by_cases waiting : waiters = [] <;>
    simp [LockState.acquire, LockState.acquireReadLock, LockState.acquireWriteLock, waiting]

/-- A request keeps the lock state safe: a granted one leaves no waiter behind an unlocked
lock, and a queued one asks a read or a write. -/
theorem LockState.Safe.acquire (safe : state.Safe) (request : TxnId × Bool) :
    (state.acquire request).2.Safe := by
  obtain ⟨mode, holders, waiters⟩ := state
  obtain ⟨txnId, write⟩ := request
  have asks' : ∀ mode', mode' = .read ∨ mode' = .write →
      ∀ waiter ∈ waiters ++ [(txnId, mode')], waiter.2 = .read ∨ waiter.2 = .write := by
    intro mode' asked waiter member
    rcases List.mem_append.mp member with old | new
    · exact safe.asks waiter old
    · rw [List.mem_singleton.mp new]
      exact asked
  cases mode with
  | unlocked =>
      have empty : holders = [] := safe.unlocked.mp rfl
      have idle : waiters = [] := safe.idle rfl
      subst empty idle
      cases write <;>
        exact ⟨by simp [LockState.acquire, LockState.acquireReadLock, LockState.acquireWriteLock],
          by simp [LockState.acquire, LockState.acquireReadLock, LockState.acquireWriteLock],
          by simp [LockState.acquire, LockState.acquireReadLock, LockState.acquireWriteLock],
          by simp [LockState.acquire, LockState.acquireReadLock, LockState.acquireWriteLock]⟩
  | read =>
      have held : holders ≠ [] := fun empty => by simpa using safe.unlocked.mpr empty
      cases write with
      | true =>
          exact ⟨by simp [LockState.acquire, LockState.acquireWriteLock, held],
            by simp [LockState.acquire, LockState.acquireWriteLock],
            by simp [LockState.acquire, LockState.acquireWriteLock], asks' .write (.inr rfl)⟩
      | false =>
          cases waiters with
          | nil =>
              exact ⟨by simp [LockState.acquire, LockState.acquireReadLock],
                by simp [LockState.acquire, LockState.acquireReadLock],
                by simp [LockState.acquire, LockState.acquireReadLock],
                by simp [LockState.acquire, LockState.acquireReadLock]⟩
          | cons front rest =>
              exact ⟨by simp [LockState.acquire, LockState.acquireReadLock, held],
                by simp [LockState.acquire, LockState.acquireReadLock],
                by simp [LockState.acquire, LockState.acquireReadLock], asks' .read (.inl rfl)⟩
  | write =>
      have held : holders ≠ [] := fun empty => by simpa using safe.unlocked.mpr empty
      cases write with
      | true =>
          exact ⟨by simp [LockState.acquire, LockState.acquireWriteLock, held],
            by simp [LockState.acquire, LockState.acquireWriteLock],
            fun _ => by simpa [LockState.acquire, LockState.acquireWriteLock] using safe.single rfl,
            asks' .write (.inr rfl)⟩
      | false =>
          exact ⟨by simp [LockState.acquire, LockState.acquireReadLock, held],
            by simp [LockState.acquire, LockState.acquireReadLock],
            fun _ => by simpa [LockState.acquire, LockState.acquireReadLock] using safe.single rfl,
            asks' .read (.inl rfl)⟩

theorem LockState.Shaped.acquire (shaped : state.Shaped) (request : TxnId × Bool) :
    (state.acquire request).2.Shaped := by
  have safe := shaped.safe.acquire request
  refine ⟨safe.unlocked, safe.idle, safe.single, ?_, safe.asks⟩
  obtain ⟨mode, holders, waiters⟩ := state
  obtain ⟨txnId, write⟩ := request
  intro read waiter first
  cases mode with
  | unlocked =>
      have idle : waiters = [] := shaped.idle rfl
      subst idle
      cases write <;> simp [LockState.acquire, LockState.acquireReadLock, LockState.acquireWriteLock] at read first
  | read =>
      cases waiters with
      | nil =>
          cases write <;> simp [LockState.acquire, LockState.acquireReadLock, LockState.acquireWriteLock] at first
          simp [← first]
      | cons front rest =>
          have head : waiter = front := by
            cases write <;> simpa [LockState.acquire, LockState.acquireReadLock, LockState.acquireWriteLock,
              eq_comm] using first
          exact shaped.blocked rfl waiter (by simp [head])
  | write =>
      cases write <;> simp [LockState.acquire, LockState.acquireReadLock, LockState.acquireWriteLock] at read

section Release

variable {txnId : TxnId}

/-- The holders are distinct and the releasing holder does not also wait. -/
theorem distinct_parts {mode : LockMode} {holders : List TxnId} {waiters : List (TxnId × LockMode)}
    (distinct : ((⟨mode, holders, waiters⟩ : LockState).requests.map Prod.fst).Nodup)
    (held : txnId ∈ holders) : holders.Nodup ∧ ∀ waiter ∈ waiters, waiter.1 ≠ txnId := by
  simp only [LockState.requests, List.map_append, List.map_map] at distinct
  have parts := List.nodup_append.mp distinct
  refine ⟨by simpa [Function.comp_def] using parts.1, ?_⟩
  intro waiter member same
  exact parts.2.2 txnId (by simpa [Function.comp_def] using held) txnId
    (by simpa [Function.comp_def] using ⟨waiter.2, same ▸ member⟩) rfl

/-- `Release` of a txn that does not hold the lock takes it out of the waiter queue. -/
theorem LockState.release_of_not_mem (absent : txnId ∉ state.holders) :
    state.release txnId =
      ([], { state with waiterQueue := state.waiterQueue.filter fun waiter => waiter.1 != txnId }) := by
  simp [LockState.release, absent]

/-- What `Release` of a holder does: the other holders keep the lock, or, when it was the last
holder, the lock is freed, passes to the reads at the front of the queue, or to its front
write. -/
theorem LockState.Safe.release_cases (safe : state.Safe) (held : txnId ∈ state.holders) :
    (state.holders.erase txnId ≠ [] ∧
        state.release txnId = ([], { state with holders := state.holders.erase txnId })) ∨
    (state.holders.erase txnId = [] ∧ state.waiterQueue = [] ∧
        state.release txnId = ([], ⟨.unlocked, [], []⟩)) ∨
    (state.holders.erase txnId = [] ∧ (∃ first ∈ state.waiterQueue.head?, first.2 = .read) ∧
        state.release txnId =
          ((state.waiterQueue.takeWhile fun waiter => waiter.2 = .read).map Prod.fst,
            ⟨.read, (state.waiterQueue.takeWhile fun waiter => waiter.2 = .read).map Prod.fst,
              state.waiterQueue.dropWhile fun waiter => waiter.2 = .read⟩)) ∨
    (state.holders.erase txnId = [] ∧ ∃ first others, state.waiterQueue = first :: others ∧
        first.2 = .write ∧ state.release txnId = ([first.1], ⟨.write, [first.1], others⟩)) := by
  obtain ⟨mode, holders, waiters⟩ := state
  simp only at held ⊢
  by_cases rest : holders.erase txnId = []
  · cases waiters with
    | nil => exact .inr (.inl ⟨rest, rfl, by simp [LockState.release, held, rest]⟩)
    | cons first others =>
        rcases safe.asks first (by simp) with read | write
        · exact .inr (.inr (.inl ⟨rest, ⟨first, by simp, read⟩, by simp [LockState.release, held, rest, read]⟩))
        · exact .inr (.inr (.inr ⟨rest, first, others, rfl, write,
            by simp [LockState.release, held, rest, write]⟩))
  · exact .inl ⟨rest, by simp [LockState.release, held, rest]⟩

/-- Releasing a waiter removes its request from the queue. -/
theorem LockState.release_requests_of_not_mem (absent : txnId ∉ state.holders) :
    (state.release txnId).2.requests = state.requests.filter (·.1 ≠ txnId) := by
  have keepHolders : (state.holders.map fun holder => (holder, state.mode.isWrite)).filter (·.1 ≠ txnId) =
      state.holders.map fun holder => (holder, state.mode.isWrite) :=
    List.filter_eq_self.mpr fun request member => by
      obtain ⟨holder, holding, rfl⟩ := List.mem_map.mp member
      have different : holder ≠ txnId := fun same => absent (same ▸ holding)
      simpa using different
  rw [LockState.release_of_not_mem absent, LockState.requests, LockState.requests, List.filter_append,
    keepHolders, List.filter_map]
  simp only [Function.comp_def]
  congr 2
  apply List.filter_congr
  intro waiter _
  by_cases same : waiter.1 = txnId <;> simp [same]

/-- Releasing a holder removes its request from the queue. -/
theorem LockState.Safe.release_requests_of_mem (safe : state.Safe) (held : txnId ∈ state.holders)
    (distinct : (state.requests.map Prod.fst).Nodup) :
    (state.release txnId).2.requests = state.requests.filter (·.1 ≠ txnId) := by
  have cases := safe.release_cases held
  obtain ⟨mode, holders, waiters⟩ := state
  obtain ⟨unique, notWaiting⟩ := distinct_parts distinct held
  simp only at held cases
  have keepWaiters : (waiters.map fun waiter => (waiter.1, waiter.2.isWrite)).filter
      (fun request => request.1 ≠ txnId) = waiters.map fun waiter => (waiter.1, waiter.2.isWrite) :=
    List.filter_eq_self.mpr fun request member => by
      obtain ⟨waiter, inWaiters, rfl⟩ := List.mem_map.mp member
      simpa using notWaiting waiter inWaiters
  have dropHolder : ∀ write : Bool, (holders.map fun holder => (holder, write)).filter
      (fun request => request.1 ≠ txnId) = (holders.erase txnId).map fun holder => (holder, write) := by
    intro write
    rw [List.filter_map, unique.erase_eq_filter]
    congr 1
    apply List.filter_congr
    intro holder _
    by_cases same : holder = txnId <;> simp [same]
  have filtered : (LockState.requests ⟨mode, holders, waiters⟩).filter (fun request => request.1 ≠ txnId) =
      (holders.erase txnId).map (fun holder => (holder, mode.isWrite)) ++
        waiters.map fun waiter => (waiter.1, waiter.2.isWrite) := by
    rw [LockState.requests, List.filter_append, keepWaiters, dropHolder]
  rw [filtered]
  rcases cases with ⟨_, released⟩ | ⟨rest, rfl, released⟩ | ⟨rest, -, released⟩ |
    ⟨rest, first, others, rfl, write, released⟩
  · rw [released]
    rfl
  · simp [released, rest, LockState.requests]
  · -- the reads at the front of the queue take the lock
    have reads : ((waiters.takeWhile fun waiter => waiter.2 = .read).map Prod.fst).map
        (fun holder => (holder, false)) =
        (waiters.takeWhile fun waiter => waiter.2 = .read).map fun waiter => (waiter.1, waiter.2.isWrite) := by
      rw [List.map_map]
      apply List.map_congr_left
      intro waiter member
      have isRead : waiter.2 = .read := by simpa using List.mem_takeWhile_imp member
      simp [isRead]
    rw [released, LockState.requests, LockMode.isWrite_read, reads, ← List.map_append,
      List.takeWhile_append_dropWhile, rest, List.map_nil, List.nil_append]
  · simp [released, rest, write, LockState.requests]

/-- Releasing any txn removes its request from the queue. -/
theorem LockState.Safe.release_requests (safe : state.Safe) (distinct : (state.requests.map Prod.fst).Nodup) :
    (state.release txnId).2.requests = state.requests.filter (·.1 ≠ txnId) := by
  by_cases held : txnId ∈ state.holders
  · exact safe.release_requests_of_mem held distinct
  · exact LockState.release_requests_of_not_mem held

/-- Releasing any txn keeps the lock state safe. -/
theorem LockState.Safe.release (safe : state.Safe) : (state.release txnId).2.Safe := by
  by_cases held : txnId ∈ state.holders
  · rcases safe.release_cases held with ⟨rest, released⟩ | ⟨-, -, released⟩ |
      ⟨-, ⟨first, front, read⟩, released⟩ | ⟨-, first, others, queue, -, released⟩
    · -- other holders remain, so the lock keeps its mode
      rw [released]
      have locked : state.mode ≠ .unlocked := fun unlocked =>
        List.ne_nil_of_mem held (safe.unlocked.mp unlocked)
      refine ⟨⟨fun unlocked => absurd unlocked locked, fun empty => absurd empty rest⟩,
        fun unlocked => absurd unlocked locked, fun write => ?_, safe.asks⟩
      have single := safe.single write
      have shorter := List.length_erase_of_mem held
      exact absurd (List.eq_nil_of_length_eq_zero (by omega)) rest
    · rw [released]
      exact ⟨by simp, fun _ => rfl, by simp, by simp⟩
    · -- the next holders are the front reads, the first of them at least
      rw [released]
      have batch : first ∈ state.waiterQueue.takeWhile fun waiter => waiter.2 = .read := by
        cases queue : state.waiterQueue with
        | nil => simp [queue] at front
        | cons head others =>
            simp only [queue, List.head?_cons, Option.mem_def, Option.some.injEq] at front
            subst front
            simp [read]
      refine ⟨⟨by simp, fun empty => ?_⟩, by simp, by simp, fun waiter member =>
        safe.asks waiter ((List.dropWhile_sublist _).subset member)⟩
      exact absurd empty (List.ne_nil_of_mem (List.mem_map_of_mem batch))
    · rw [released]
      refine ⟨by simp, by simp, by simp, fun waiter member => safe.asks waiter ?_⟩
      rw [queue]
      exact List.mem_cons_of_mem _ member
  · -- a waiter leaves; the holders and the mode stay
    rw [LockState.release_of_not_mem held]
    exact ⟨safe.unlocked, fun unlocked => by simp [safe.idle unlocked], safe.single,
      fun waiter member => safe.asks waiter (List.mem_of_mem_filter member)⟩

/-- Releasing a holder keeps the shape: when the lock passes to the front reads, the first
waiter left writes. -/
theorem LockState.Shaped.release (shaped : state.Shaped) (held : txnId ∈ state.holders) :
    (state.release txnId).2.Shaped := by
  have safe : (state.release txnId).2.Safe := shaped.safe.release
  refine ⟨safe.unlocked, safe.idle, safe.single, ?_, safe.asks⟩
  rcases shaped.safe.release_cases held with ⟨_, released⟩ | ⟨-, -, released⟩ | ⟨-, -, released⟩ |
    ⟨-, _, _, _, _, released⟩
  · rw [released]
    exact shaped.blocked
  · simp [released]
  · rw [released]
    intro _ waiter next
    have stop := List.head?_dropWhile_not (fun waiter : TxnId × LockMode => decide (waiter.2 = .read))
      state.waiterQueue
    simp only at next
    rw [next] at stop
    have member : waiter ∈ state.waiterQueue :=
      (List.dropWhile_sublist _).subset (List.mem_of_mem_head? next)
    rcases shaped.asks waiter member with isRead | isWrite
    · simp [isRead] at stop
    · exact isWrite
  · simp [released]

/-- The new holders a release reports are those that did not hold the lock before. -/
theorem LockState.Safe.release_grantees (safe : state.Safe) (distinct : (state.requests.map Prod.fst).Nodup) :
    (state.release txnId).1 = (state.release txnId).2.holders.filter (· ∉ state.holders) := by
  by_cases held : txnId ∈ state.holders
  · -- no waiter also holds the lock
    have waiting : ∀ waiter ∈ state.waiterQueue, waiter.1 ∉ state.holders := by
      intro waiter member holding
      simp only [LockState.requests, List.map_append, List.map_map] at distinct
      exact (List.nodup_append.mp distinct).2.2 waiter.1 (by simpa [Function.comp_def] using holding)
        waiter.1 (by simpa [Function.comp_def] using ⟨waiter.2, member⟩) rfl
    rcases safe.release_cases held with ⟨_, released⟩ | ⟨_, _, released⟩ | ⟨_, _, released⟩ |
      ⟨_, first, others, queue, _, released⟩
    · rw [released]
      symm
      exact List.filter_eq_nil_iff.mpr fun holder member => by
        simpa using List.mem_of_mem_erase member
    · simp [released]
    · rw [released]
      symm
      apply List.filter_eq_self.mpr
      intro holder member
      obtain ⟨waiter, inBatch, rfl⟩ := List.mem_map.mp member
      simpa using waiting waiter ((List.takeWhile_sublist _).subset inBatch)
    · rw [released]
      have notHolding := waiting first (by simp [queue])
      simp [notHolding]
  · rw [LockState.release_of_not_mem held]
    simp

/-- Releasing one txn leaves the other holders holding. -/
theorem LockState.Safe.mem_release_holders (safe : state.Safe) {other : TxnId} (different : other ≠ txnId)
    (holding : other ∈ state.holders) : other ∈ (state.release txnId).2.holders := by
  by_cases held : txnId ∈ state.holders
  · have kept : other ∈ state.holders.erase txnId := (List.mem_erase_of_ne different).mpr holding
    rcases safe.release_cases held with ⟨_, released⟩ | ⟨rest, _, _⟩ | ⟨rest, _, _⟩ | ⟨rest, _⟩
    · rw [released]
      exact kept
    all_goals
      rw [rest] at kept
      exact absurd kept (List.not_mem_nil)
  · rw [LockState.release_of_not_mem held]
    exact holding

/-- A txn holds no lock after its own release. -/
theorem LockState.Safe.not_mem_release_holders (safe : state.Safe)
    (distinct : (state.requests.map Prod.fst).Nodup) : txnId ∉ (state.release txnId).2.holders := by
  intro holding
  have member : (txnId, (state.release txnId).2.mode.isWrite) ∈ (state.release txnId).2.requests := by
    simp [LockState.requests, holding]
  rw [safe.release_requests distinct] at member
  simp at member

/-- The txns a release hands the lock to are distinct. -/
theorem LockState.Safe.nodup_release_grantees (safe : state.Safe)
    (distinct : (state.requests.map Prod.fst).Nodup) : (state.release txnId).1.Nodup := by
  have after : ((state.release txnId).2.requests.map Prod.fst).Nodup := by
    rw [safe.release_requests distinct]
    exact distinct.sublist (List.Sublist.map Prod.fst List.filter_sublist)
  have holders : (state.release txnId).2.holders.Nodup := by
    simp only [LockState.requests, List.map_append, List.map_map] at after
    simpa [Function.comp_def] using (List.nodup_append.mp after).1
  rw [safe.release_grantees distinct]
  exact holders.filter _

end Release

end Shape

/-- The RMA lock manager keeps the queues of the abstract one, whichever txns release: each
lock state holds the queue of its key-region; a txn is in the table exactly when the abstract
model knows it; its keys are the key-regions it asked, once each; and it waits for one lock per
key-region it does not hold and one per lock request still to come. -/
structure Tracks (lm : RMALockManager) (spec : LockSpec) : Prop where
  queues : ∀ keyRegion, (lm.lockTable keyRegion).requests = spec.queue keyRegion
  known : ∀ txnId, (lm.txnInfo txnId).isSome = (spec.unarrived txnId).isSome
  keys : ∀ txnId info, lm.txnInfo txnId = some info → info.keys.Nodup ∧
    ∀ keyRegion, keyRegion ∈ info.keys ↔ ∃ write, (txnId, write) ∈ spec.history keyRegion
  counts : ∀ txnId info, lm.txnInfo txnId = some info → ∃ unarrived,
    spec.unarrived txnId = some unarrived ∧ info.numWaitingFor = unarrived +
      ((info.keys.filter fun keyRegion => txnId ∉ (lm.lockTable keyRegion).holders).length : Int)

/-- The RMA lock manager follows the abstract one while only ready txns release: it keeps its
queues, each lock state in shape. -/
structure Simulates (lm : RMALockManager) (spec : LockSpec) : Prop extends Tracks lm spec where
  shaped : ∀ keyRegion, (lm.lockTable keyRegion).Shaped

theorem tracks_init : Tracks RMALockManager.init LockSpec.init where
  queues keyRegion := rfl
  known txnId := rfl
  keys txnId info found := by simp [RMALockManager.init] at found
  counts txnId info found := by simp [RMALockManager.init] at found

theorem simulates_init : Simulates RMALockManager.init LockSpec.init where
  toTracks := tracks_init
  shaped _ := LockState.empty_shaped

section Readiness

variable {lm : RMALockManager} {spec : LockSpec}

/-- A txn asks each key-region at most once, so the owners of a queue are distinct. -/
theorem distinct_queue (sound : spec.Sound) (keyRegion : KeyRegion) :
    ((spec.queue keyRegion).map Prod.fst).Nodup :=
  (sound.once keyRegion).sublist (List.Sublist.map Prod.fst List.filter_sublist)

theorem Simulates.mem_holders_iff (sim : Simulates lm spec) (inv : spec.Inv) {keyRegion : KeyRegion}
    {front back : List (TxnId × Bool)} {txnId : TxnId} {write : Bool}
    (split : spec.queue keyRegion = front ++ (txnId, write) :: back) :
    txnId ∈ (lm.lockTable keyRegion).holders ↔ ∀ earlier ∈ front, conflicts earlier.2 write = false := by
  have distinct := distinct_queue inv.toSound keyRegion
  rw [← sim.queues keyRegion] at split distinct
  exact (sim.shaped keyRegion).mem_holders_iff split distinct

/-- A known txn is granted in the abstract model exactly when it holds the lock of each of its keys. -/
theorem Simulates.granted_iff (sim : Simulates lm spec) (inv : spec.Inv) {txnId : TxnId}
    {info : TxnInfo} (found : lm.txnInfo txnId = some info) :
    spec.Granted txnId ↔ ∀ keyRegion ∈ info.keys, txnId ∈ (lm.lockTable keyRegion).holders := by
  obtain ⟨unarrived, known, _⟩ := sim.counts txnId info found
  have present := inv.not_released_of_unarrived known
  constructor
  · intro granted keyRegion member
    obtain ⟨write, inHistory⟩ := ((sim.keys txnId info found).2 keyRegion).mp member
    have inQueue : (txnId, write) ∈ spec.queue keyRegion := List.mem_filter.mpr ⟨inHistory, by simp [present]⟩
    obtain ⟨front, back, split⟩ := List.append_of_mem inQueue
    exact (sim.mem_holders_iff inv split).mpr (granted keyRegion front write back split)
  · intro holding keyRegion front write back split
    have inQueue : (txnId, write) ∈ spec.queue keyRegion := by simp [split]
    have inHistory : (txnId, write) ∈ spec.history keyRegion := (List.mem_filter.mp inQueue).1
    have member := ((sim.keys txnId info found).2 keyRegion).mpr ⟨write, inHistory⟩
    exact (sim.mem_holders_iff inv split).mp (holding keyRegion member)

/-- A txn in the RMA table is ready exactly when it is ready in the abstract model. -/
theorem Simulates.isReady_iff (sim : Simulates lm spec) (inv : spec.Inv) {txnId : TxnId}
    {info : TxnInfo} (found : lm.txnInfo txnId = some info) :
    info.isReady = true ↔ spec.Ready txnId := by
  obtain ⟨unarrived, known, counted⟩ := sim.counts txnId info found
  have nonneg := inv.nonneg txnId unarrived known
  rw [LockSpec.Ready, sim.granted_iff inv found, known, Option.some.injEq, TxnInfo.isReady, beq_iff_eq,
    counted]
  constructor
  · intro zero
    have allHeld : (info.keys.filter fun keyRegion => txnId ∉ (lm.lockTable keyRegion).holders) = [] :=
      List.eq_nil_of_length_eq_zero (by omega)
    refine ⟨by omega, fun keyRegion member => ?_⟩
    by_contra missing
    have chosen : keyRegion ∈ info.keys.filter fun keyRegion => txnId ∉ (lm.lockTable keyRegion).holders :=
      List.mem_filter.mpr ⟨member, by simpa using missing⟩
    rw [allHeld] at chosen
    exact List.not_mem_nil chosen
  · rintro ⟨zero, holding⟩
    have allHeld : (info.keys.filter fun keyRegion => txnId ∉ (lm.lockTable keyRegion).holders) = [] :=
      List.filter_eq_nil_iff.mpr fun keyRegion member => by simpa using holding keyRegion member
    rw [allHeld, zero]
    rfl

end Readiness

end Slog.RMA
