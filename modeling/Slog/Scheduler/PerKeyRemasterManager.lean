/-
The per-key remaster manager (`PerKeyRemasterManager`) and `RemasterManager::CheckCounters`: the
queues stay well formed, but a txn held back by a key it does not lock is never retried.
-/

import Mathlib.Data.List.TakeWhile
import Slog.Common.Types
import Slog.Library.Folds

namespace Slog.Remaster

inductive VerifyMasterResult where
  | valid
  | waiting
  | abort
  deriving DecidableEq, Repr

/-- The lock-only txns one call unblocked, and those it found behind storage, to abort. -/
structure RemasterOccurredResult where
  unblocked : List Transaction
  shouldAbort : List Transaction
  deriving DecidableEq, Repr

/-- The master metadata storage holds for each key. -/
abbrev Storage := Key → Option MasterMetadata

/-- A key storage does not hold reads as the default record, with master and counter zero. -/
def Storage.metadata (storage : Storage) (key : Key) : MasterMetadata :=
  (storage key).getD ⟨0, 0⟩

/-- A key of a lock-only txn is a home key when its master is the txn's home. -/
def isHomeKey (txn : Transaction) (kv : KeyValueEntry) : Bool :=
  decide ((kv.valueEntry.master : Int) = txn.internal.home)

/-- `RemasterManager::CheckCounters`: a key behind storage aborts the txn at once, a key ahead of
storage makes it wait, and a key level with storage must name the master storage holds. -/
def checkCounters (storage : Storage) (txn : Transaction) (filterByHome : Bool) :
    Except String VerifyMasterResult :=
  go txn.keys false
where
  go : List KeyValueEntry → Bool → Except String VerifyMasterResult
    | [], waiting => .ok (if waiting then .waiting else .valid)
    | kv :: rest, waiting =>
        if filterByHome && !isHomeKey txn kv then go rest waiting
        else
          let record := storage.metadata kv.key
          if kv.valueEntry.counter < record.counter then .ok .abort
          else if kv.valueEntry.counter > record.counter then go rest true
          else if kv.valueEntry.master = record.master then go rest waiting
          else .error ("Check failed: value.metadata().master() == record.metadata().master " ++
            "Masters don't match for same key \"" ++ kv.key ++ "\". In txn: " ++
            toString kv.valueEntry.master ++ ". In storage: " ++ toString record.master)

/-- `blocked_queue_`: the lock-only txns waiting on each key, each with its counter for the key.
An emptied queue is erased, so a key without an entry has the empty queue. -/
abbrev BlockedQueues := Key → List (Transaction × Nat)

/-- `InsertIntoBlockedQueue`: the txn joins the queue behind every entry whose counter is not
above its own. -/
def insertIntoBlockedQueue (queues : BlockedQueues) (key : Key) (counter : Nat) (txn : Transaction) :
    BlockedQueues :=
  Function.update queues key
    ((queues key).takeWhile (·.2 ≤ counter) ++ (txn, counter) :: (queues key).dropWhile (·.2 ≤ counter))

/-- The test of `VerifyMaster` for a txn with current counters: some key of the txn, home key or
not, has a queue whose front counter is not above the txn's counter for it. -/
def indirectlyBlocked (queues : BlockedQueues) (txn : Transaction) : Bool :=
  txn.keys.any fun kv =>
    match queues kv.key with
    | [] => false
    | front :: _ => decide (front.2 ≤ kv.valueEntry.counter)

/-- The last loop of `VerifyMaster`: the txn joins the queue of each of its home keys. -/
def enqueueAtHomeKeys (queues : BlockedQueues) (txn : Transaction) : BlockedQueues :=
  txn.keys.foldl (fun queues kv =>
    if isHomeKey txn kv then insertIntoBlockedQueue queues kv.key kv.valueEntry.counter txn else queues) queues

/-- `PerKeyRemasterManager::VerifyMaster`. -/
def verifyMaster (storage : Storage) (queues : BlockedQueues) (txn : Transaction) :
    Except String (VerifyMasterResult × BlockedQueues) :=
  if txn.keys.isEmpty then .ok (.valid, queues) else
  match checkCounters storage txn true with
  | .error message => .error message
  | .ok .abort => .ok (.abort, queues)
  | .ok .valid =>
      if indirectlyBlocked queues txn then .ok (.waiting, enqueueAtHomeKeys queues txn)
      else .ok (.valid, queues)
  | .ok .waiting => .ok (.waiting, enqueueAtHomeKeys queues txn)

/-- The first loop of `ReleaseTransaction`: the first entry with the txn's id leaves the queue of
each of its keys. -/
def eraseFromQueues (queues : BlockedQueues) (txn : Transaction) : BlockedQueues :=
  txn.keys.foldl (fun queues kv =>
    Function.update queues kv.key ((queues kv.key).eraseP fun entry => entry.1.internal.id = txn.internal.id))
    queues

/-- Whether the txn is at the front of the queue of each of its home keys. -/
def atFrontOfHomeQueues (queues : BlockedQueues) (txn : Transaction) : Bool :=
  txn.keys.all fun kv => !isHomeKey txn kv || (queues kv.key).head?.map Prod.fst == some txn

/-- The garbage collection of `TryToUnblock`: the front entry leaves the queue of each home key. -/
def popHomeFronts (queues : BlockedQueues) (txn : Transaction) : BlockedQueues :=
  txn.keys.foldl (fun queues kv =>
    if isHomeKey txn kv then Function.update queues kv.key (queues kv.key).tail else queues) queues

/-- `TryToUnblock`, with the `ReleaseTransaction` of its abort written out, given `fuel` for the
depth of its recursion. The front txn of the key's queue is aborted, with all that its release
unblocks; or it waits; or, with current counters and at the front of all its home keys' queues,
it is unblocked, leaves them, and each of them is retried. -/
def tryToUnblock (storage : Storage) : Nat → BlockedQueues × RemasterOccurredResult → Key →
    Except String (BlockedQueues × RemasterOccurredResult)
  | 0, state, _ => .ok state
  | fuel + 1, (queues, result), unblockedKey =>
      match queues unblockedKey with
      | [] => .ok (queues, result)
      | (lockOnlyTxn, _) :: _ =>
          match checkCounters storage lockOnlyTxn true with
          | .error message => .error message
          | .ok .abort =>
              (lockOnlyTxn.keys.foldlM (fun state kv => tryToUnblock storage fuel state kv.key)
                (eraseFromQueues queues lockOnlyTxn, ⟨[], []⟩)).map fun released =>
                  (released.1, ⟨result.unblocked ++ released.2.unblocked,
                    result.shouldAbort ++ lockOnlyTxn :: released.2.shouldAbort⟩)
          | .ok .waiting => .ok (queues, result)
          | .ok .valid =>
              if atFrontOfHomeQueues queues lockOnlyTxn then
                lockOnlyTxn.keys.foldlM (fun state kv =>
                    if isHomeKey lockOnlyTxn kv then tryToUnblock storage fuel state kv.key else .ok state)
                  (popHomeFronts queues lockOnlyTxn, ⟨result.unblocked ++ [lockOnlyTxn], result.shouldAbort⟩)
              else .ok (queues, result)

/-- `PerKeyRemasterManager::ReleaseTransaction`: the txn leaves the queues, and the queue of each
of its keys is retried. -/
def releaseTransaction (storage : Storage) (fuel : Nat) (queues : BlockedQueues) (txn : Transaction) :
    Except String (BlockedQueues × RemasterOccurredResult) :=
  txn.keys.foldlM (fun state kv => tryToUnblock storage fuel state kv.key) (eraseFromQueues queues txn, ⟨[], []⟩)

/-- `PerKeyRemasterManager::RemasterOccured`: a key nobody waits for unblocks nothing. -/
def remasterOccured (storage : Storage) (fuel : Nat) (queues : BlockedQueues) (key : Key) :
    Except String (BlockedQueues × RemasterOccurredResult) :=
  if queues key = [] then .ok (queues, ⟨[], []⟩) else tryToUnblock storage fuel (queues, ⟨[], []⟩) key

/-- The calls the scheduler makes: a lock-only txn to verify, a remaster of a key that storage
applied before the manager hears of it, or a txn to release. -/
inductive RemasterCall where
  | verifyMaster (txn : Transaction)
  | remasterOccured (key : Key) (metadata : MasterMetadata)
  | releaseTransaction (txn : Transaction)

inductive RemasterReply where
  | verified (result : VerifyMasterResult)
  | unblocked (result : RemasterOccurredResult)
  deriving DecidableEq, Repr

/-- The storage the manager reads, and its queues. -/
structure RemasterManager where
  storage : Storage
  blockedQueue : BlockedQueues

def RemasterManager.init (storage : Storage) : RemasterManager := ⟨storage, fun _ => []⟩

def RemasterManager.call (fuel : Nat) (manager : RemasterManager) :
    RemasterCall → Except String (RemasterReply × RemasterManager)
  | .verifyMaster txn =>
      (verifyMaster manager.storage manager.blockedQueue txn).map fun verified =>
        (.verified verified.1, { manager with blockedQueue := verified.2 })
  | .remasterOccured key metadata =>
      let storage := Function.update manager.storage key (some metadata)
      (remasterOccured storage fuel manager.blockedQueue key).map fun retried =>
        (.unblocked retried.2, ⟨storage, retried.1⟩)
  | .releaseTransaction txn =>
      (releaseTransaction manager.storage fuel manager.blockedQueue txn).map fun released =>
        (.unblocked released.2, { manager with blockedQueue := released.1 })

/-- The replies to a list of calls; a failed `CHECK` ends the run. -/
def RemasterManager.run (fuel : Nat) (manager : RemasterManager) :
    List RemasterCall → Except String (List RemasterReply × RemasterManager)
  | [] => .ok ([], manager)
  | call :: calls =>
      match manager.call fuel call with
      | .error message => .error message
      | .ok (reply, manager') => (manager'.run fuel calls).map fun rest => (reply :: rest.1, rest.2)

section Sorted

variable {α : Type}

/-- Inserting behind every entry of priority not above the new one keeps a list sorted by
priority. -/
theorem pairwise_insert_behind {queue : List (α × Nat)} (sorted : queue.Pairwise fun a b => a.2 ≤ b.2)
    (entry : α × Nat) :
    (queue.takeWhile (·.2 ≤ entry.2) ++ entry :: queue.dropWhile (·.2 ≤ entry.2)).Pairwise
      fun a b => a.2 ≤ b.2 := by
  have split : queue.takeWhile (·.2 ≤ entry.2) ++ queue.dropWhile (·.2 ≤ entry.2) = queue :=
    List.takeWhile_append_dropWhile
  rw [← split] at sorted
  obtain ⟨front, back, across⟩ := List.pairwise_append.mp sorted
  have small : ∀ a ∈ queue.takeWhile (·.2 ≤ entry.2), a.2 ≤ entry.2 := fun a member => by
    simpa using List.mem_takeWhile_imp member
  have large : ∀ b ∈ queue.dropWhile (·.2 ≤ entry.2), entry.2 ≤ b.2 := by
    intro b member
    cases rest : queue.dropWhile (·.2 ≤ entry.2) with
    | nil =>
        rw [rest] at member
        cases member
    | cons first later =>
        have above := @List.head_dropWhile_not _ (fun a : α × Nat => decide (a.2 ≤ entry.2)) queue
          (by rw [rest]; exact List.cons_ne_nil first later)
        simp only [rest, List.head_cons, decide_eq_false_iff_not, Nat.not_le] at above
        rw [rest] at member back
        rcases List.mem_cons.mp member with rfl | inLater
        · omega
        · have ordered := (List.pairwise_cons.mp back).1 b inLater
          omega
  refine List.pairwise_append.mpr ⟨front, List.pairwise_cons.mpr ⟨large, back⟩, ?_⟩
  intro a inFront b inRest
  rcases List.mem_cons.mp inRest with rfl | inBack
  · exact small a inFront
  · exact across a inFront b inBack

end Sorted

/-- Every queue is sorted by counter, and holds each txn under one of its home keys, with the
txn's counter for that key. -/
structure QueuesWellFormed (queues : BlockedQueues) : Prop where
  sorted : ∀ key, (queues key).Pairwise fun entry entry' => entry.2 ≤ entry'.2
  homed : ∀ key, ∀ entry ∈ queues key, ∃ kv ∈ entry.1.keys, kv.key = key ∧ isHomeKey entry.1 kv = true ∧
    kv.valueEntry.counter = entry.2

section WellFormed

variable {queues : BlockedQueues} {storage : Storage}

theorem queuesWellFormed_empty : QueuesWellFormed fun _ => [] where
  sorted _ := List.Pairwise.nil
  homed _ _ member := by cases member

/-- Taking entries out of one queue keeps the queues well formed. -/
theorem QueuesWellFormed.update_of_sublist (wellFormed : QueuesWellFormed queues) {key : Key}
    {queue : List (Transaction × Nat)} (sub : queue.Sublist (queues key)) :
    QueuesWellFormed (Function.update queues key queue) where
  sorted other := by
    by_cases same : other = key
    · subst same
      rw [Function.update_self]
      exact (wellFormed.sorted other).sublist sub
    · rw [Function.update_of_ne same]
      exact wellFormed.sorted other
  homed other entry listed := by
    by_cases same : other = key
    · subst same
      rw [Function.update_self] at listed
      exact wellFormed.homed other entry (sub.subset listed)
    · rw [Function.update_of_ne same] at listed
      exact wellFormed.homed other entry listed

/-- A txn inserted at one of its home keys keeps the queues well formed. -/
theorem QueuesWellFormed.insert (wellFormed : QueuesWellFormed queues) {txn : Transaction}
    {kv : KeyValueEntry} (member : kv ∈ txn.keys) (home : isHomeKey txn kv = true) :
    QueuesWellFormed (insertIntoBlockedQueue queues kv.key kv.valueEntry.counter txn) where
  sorted other := by
    by_cases same : other = kv.key
    · subst same
      rw [insertIntoBlockedQueue, Function.update_self]
      exact pairwise_insert_behind (wellFormed.sorted _) (txn, kv.valueEntry.counter)
    · rw [insertIntoBlockedQueue, Function.update_of_ne same]
      exact wellFormed.sorted other
  homed other entry listed := by
    by_cases same : other = kv.key
    · subst same
      rw [insertIntoBlockedQueue, Function.update_self] at listed
      rcases List.mem_append.mp listed with front | rest
      · exact wellFormed.homed _ entry ((List.takeWhile_sublist _).subset front)
      · rcases List.mem_cons.mp rest with rfl | back
        · exact ⟨kv, member, rfl, home, rfl⟩
        · exact wellFormed.homed _ entry ((List.dropWhile_sublist _).subset back)
    · rw [insertIntoBlockedQueue, Function.update_of_ne same] at listed
      exact wellFormed.homed other entry listed

theorem QueuesWellFormed.enqueueAtHomeKeys (wellFormed : QueuesWellFormed queues) (txn : Transaction) :
    QueuesWellFormed (enqueueAtHomeKeys queues txn) := by
  refine Folds.foldl_invariant QueuesWellFormed (fun queues kv member kept => ?_) queues wellFormed
  split
  · exact kept.insert member ‹_›
  · exact kept

theorem QueuesWellFormed.eraseFromQueues (wellFormed : QueuesWellFormed queues) (txn : Transaction) :
    QueuesWellFormed (eraseFromQueues queues txn) :=
  Folds.foldl_invariant QueuesWellFormed (fun _ _ _ kept => kept.update_of_sublist List.eraseP_sublist)
    queues wellFormed

theorem QueuesWellFormed.popHomeFronts (wellFormed : QueuesWellFormed queues) (txn : Transaction) :
    QueuesWellFormed (popHomeFronts queues txn) := by
  refine Folds.foldl_invariant QueuesWellFormed (fun queues kv _ kept => ?_) queues wellFormed
  split
  · exact kept.update_of_sublist (List.tail_sublist _)
  · exact kept

/-- `TryToUnblock` keeps the queues well formed, to any depth of its recursion: it only takes
entries out. -/
theorem wellFormed_tryToUnblock (fuel : Nat) :
    ∀ (state : BlockedQueues × RemasterOccurredResult) (key : Key) (final : BlockedQueues × RemasterOccurredResult),
      QueuesWellFormed state.1 → tryToUnblock storage fuel state key = .ok final → QueuesWellFormed final.1 := by
  induction fuel with
  | zero =>
      intro state key final wellFormed ran
      cases ran
      exact wellFormed
  | succ fuel ih =>
      rintro ⟨queues, result⟩ key final wellFormed ran
      simp only [tryToUnblock] at ran
      split at ran
      · cases ran
        exact wellFormed
      · rename_i lockOnlyTxn _ _ _
        split at ran
        · cases ran
        · -- the front txn aborts: it leaves the queues, and the queues of its keys are retried
          obtain ⟨released, folded, rfl⟩ := Folds.exists_of_map_eq_ok ran
          exact Folds.foldlM_invariant (fun state => QueuesWellFormed state.1)
            (fun state kv _ state' kept retried => ih state kv.key state' kept retried)
            _ released (wellFormed.eraseFromQueues lockOnlyTxn) folded
        · cases ran
          exact wellFormed
        · split at ran
          · -- the front txn is unblocked: it leaves its home keys' queues, which are retried
            refine Folds.foldlM_invariant (fun state => QueuesWellFormed state.1)
              (fun state kv _ state' kept retried => ?_) _ final (wellFormed.popHomeFronts lockOnlyTxn) ran
            split at retried
            · exact ih state kv.key state' kept retried
            · cases retried
              exact kept
          · cases ran
            exact wellFormed

theorem wellFormed_verifyMaster (wellFormed : QueuesWellFormed queues) {txn : Transaction}
    {result : VerifyMasterResult} {queues' : BlockedQueues}
    (verified : verifyMaster storage queues txn = .ok (result, queues')) : QueuesWellFormed queues' := by
  simp only [verifyMaster] at verified
  split at verified
  · cases verified
    exact wellFormed
  · split at verified
    · cases verified
    · cases verified
      exact wellFormed
    · split at verified
      · cases verified
        exact wellFormed.enqueueAtHomeKeys txn
      · cases verified
        exact wellFormed
    · cases verified
      exact wellFormed.enqueueAtHomeKeys txn

theorem wellFormed_releaseTransaction (wellFormed : QueuesWellFormed queues) {fuel : Nat} {txn : Transaction}
    {final : BlockedQueues × RemasterOccurredResult} (released : releaseTransaction storage fuel queues txn = .ok final) :
    QueuesWellFormed final.1 :=
  Folds.foldlM_invariant (fun state => QueuesWellFormed state.1)
    (fun state kv _ state' kept retried => wellFormed_tryToUnblock fuel state kv.key state' kept retried)
    _ final (wellFormed.eraseFromQueues txn) released

theorem wellFormed_remasterOccured (wellFormed : QueuesWellFormed queues) {fuel : Nat} {key : Key}
    {final : BlockedQueues × RemasterOccurredResult} (retried : remasterOccured storage fuel queues key = .ok final) :
    QueuesWellFormed final.1 := by
  simp only [remasterOccured] at retried
  split at retried
  · cases retried
    exact wellFormed
  · exact wellFormed_tryToUnblock fuel _ key final wellFormed retried

/-- In every state a run reaches, whatever storage holds and however deep the recursion goes, each
queue is sorted by counter and holds only txns that have its key as a home key. -/
theorem wellFormed_run (fuel : Nat) :
    ∀ (calls : List RemasterCall) (manager : RemasterManager) (replies : List RemasterReply)
      (final : RemasterManager), QueuesWellFormed manager.blockedQueue →
      manager.run fuel calls = .ok (replies, final) → QueuesWellFormed final.blockedQueue := by
  intro calls
  induction calls with
  | nil =>
      intro manager replies final wellFormed ran
      cases ran
      exact wellFormed
  | cons call calls ih =>
      intro manager replies final wellFormed ran
      simp only [RemasterManager.run] at ran
      split at ran
      · cases ran
      · rename_i reply manager' called
        obtain ⟨rest, continued, same⟩ := Folds.exists_of_map_eq_ok ran
        obtain ⟨-, rfl⟩ := Prod.mk.inj same
        refine ih manager' rest.1 rest.2 ?_ continued
        cases call with
        | verifyMaster txn =>
            obtain ⟨verified, ran', same⟩ := Folds.exists_of_map_eq_ok called
            cases same
            exact wellFormed_verifyMaster wellFormed ran'
        | remasterOccured key metadata =>
            obtain ⟨retried, ran', same⟩ := Folds.exists_of_map_eq_ok called
            cases same
            exact wellFormed_remasterOccured wellFormed ran'
        | releaseTransaction txn =>
            obtain ⟨released, ran', same⟩ := Folds.exists_of_map_eq_ok called
            cases same
            exact wellFormed_releaseTransaction wellFormed ran'

end WellFormed

/-- A txn at region 1 on key B, whose metadata already has a remaster of B that storage has not
applied yet: it waits on B. -/
def aheadTxn : Transaction :=
  ⟨⟨1, .singleHome, 1, [0], [1]⟩, none, [⟨"B", ⟨.write, some ⟨1, 1⟩⟩⟩]⟩

/-- The lock-only txn at region 0 of a txn on keys A and B: A is its home key, where storage is
level with it; B, which it does not lock here, has the counter of that remaster. -/
def strandedTxn : Transaction :=
  ⟨⟨2, .multiHomeOrLockOnly, 0, [0], [0, 1]⟩, none,
    [⟨"A", ⟨.write, some ⟨0, 0⟩⟩⟩, ⟨"B", ⟨.read, some ⟨1, 1⟩⟩⟩]⟩

/-- Both arrive while storage holds neither key, then storage applies the remaster of B. -/
def strandingCalls : List RemasterCall :=
  [.verifyMaster aheadTxn, .verifyMaster strandedTxn, .remasterOccured "B" ⟨1, 1⟩]

theorem runnable_txn_stranded (fuel : Nat) :
    ∃ manager, (RemasterManager.init fun _ => none).run (fuel + 2) strandingCalls =
        .ok ([.verified .waiting, .verified .waiting, .unblocked ⟨[aheadTxn], []⟩], manager) ∧
      manager.blockedQueue "A" = [(strandedTxn, 0)] ∧
      atFrontOfHomeQueues manager.blockedQueue strandedTxn = true ∧
      checkCounters manager.storage strandedTxn true = .ok .valid := by
  refine ⟨⟨Function.update (fun _ => none) "B" (some ⟨1, 1⟩),
    Function.update (Function.update (Function.update (fun _ => []) "B" [(aheadTxn, 1)]) "A" [(strandedTxn, 0)])
      "B" []⟩, rfl, rfl, rfl, rfl⟩

theorem stranding_run_wellFormed : ∃ replies final,
    QueuesWellFormed (RemasterManager.init fun _ => none).blockedQueue ∧
      (RemasterManager.init fun _ => none).run 2 strandingCalls = .ok (replies, final) ∧
      QueuesWellFormed final.blockedQueue := by
  have ran : (RemasterManager.init fun _ => none).run 2 strandingCalls = .ok (_, _) := rfl
  exact ⟨_, _, queuesWellFormed_empty, ran, wellFormed_run 2 strandingCalls _ _ _ queuesWellFormed_empty ran⟩

end Slog.Remaster
