/-
What a deterministic lock manager is for: per key-region queues in arrival order, and a txn ready
once all its requests arrived with no earlier conflicting request.
-/

import Slog.Common.Types
import Slog.Library.ReaderWriter

namespace Slog.Locking

open ReaderWriter

/-- The lock request a key of a lock-only txn makes: its key-region, and whether it writes. -/
def keyRequest (txn : Transaction) (kv : KeyValueEntry) : KeyRegion × Bool :=
  (makeKeyRegion kv.key txn.internal.home, kv.valueEntry.type.isWrite)

/-- The lock requests of a lock-only txn, in key order. -/
def requests (txn : Transaction) : List (KeyRegion × Bool) :=
  (txn.keys.filter txn.isRelevant).map (keyRequest txn)

/-- The abstract lock manager: each key-region's requests in arrival order, the txns that
released their locks, and the lock requests still to arrive for each known txn. -/
structure LockSpec where
  history : KeyRegion → List (TxnId × Bool)
  released : TxnId → Bool
  unarrived : TxnId → Option Int

def LockSpec.init : LockSpec := ⟨fun _ => [], fun _ => false, fun _ => none⟩

/-- The requests on a key-region that still hold or wait for the lock. -/
def LockSpec.queue (spec : LockSpec) (keyRegion : KeyRegion) : List (TxnId × Bool) :=
  (spec.history keyRegion).filter fun request => !spec.released request.1

def LockSpec.acquire (spec : LockSpec) (txn : Transaction) : LockSpec :=
  let txnId := txn.internal.id
  { spec with
    history := fun keyRegion => spec.history keyRegion ++
      ((requests txn).filter (·.1 = keyRegion)).map fun request => (txnId, request.2)
    unarrived := Function.update spec.unarrived txnId
      (some ((spec.unarrived txnId).getD txn.numRequiredLocks - (requests txn).length)) }

def LockSpec.release (spec : LockSpec) (txnId : TxnId) : LockSpec :=
  { spec with
    released := Function.update spec.released txnId true
    unarrived := Function.update spec.unarrived txnId none }

/-- Releasing a txn by forgetting it: its requests leave the history, as if it had never come,
so that a later lock-only txn of it starts afresh. This is the release of a txn that may still
wait, as `TriggerPreDispatchAbort` makes it. -/
def LockSpec.forget (spec : LockSpec) (txnId : TxnId) : LockSpec :=
  { spec with
    history := fun keyRegion => (spec.history keyRegion).filter (·.1 ≠ txnId)
    unarrived := Function.update spec.unarrived txnId none }

/-- No request before one of the txn's requests, in the same queue, conflicts with it. -/
def LockSpec.Granted (spec : LockSpec) (txnId : TxnId) : Prop :=
  ∀ keyRegion front write back, spec.queue keyRegion = front ++ (txnId, write) :: back →
    ∀ request ∈ front, conflicts request.2 write = false

def LockSpec.Ready (spec : LockSpec) (txnId : TxnId) : Prop :=
  spec.unarrived txnId = some 0 ∧ spec.Granted txnId

/-- What the abstract lock manager keeps whichever txns release: every requester is known or
released, a released txn waits for nothing, a txn asks each key-region at most once, and no txn
has more lock requests than it announced. -/
structure LockSpec.Sound (spec : LockSpec) : Prop where
  known : ∀ keyRegion, ∀ request ∈ spec.history keyRegion,
    spec.released request.1 = true ∨ spec.unarrived request.1 ≠ none
  gone : ∀ txnId, spec.released txnId = true → spec.unarrived txnId = none
  once : ∀ keyRegion, ((spec.history keyRegion).map Prod.fst).Nodup
  nonneg : ∀ txnId count, spec.unarrived txnId = some count → 0 ≤ count

/-- The invariant of the abstract lock manager when only ready txns release: moreover, a
released txn waited only for released txns. -/
structure LockSpec.Inv (spec : LockSpec) : Prop extends spec.Sound where
  closed : ∀ keyRegion, Closed (fun txnId => spec.released txnId = true) (spec.history keyRegion)

theorem LockSpec.init_sound : LockSpec.init.Sound where
  known keyRegion request member := by simp [LockSpec.init] at member
  gone txnId released := by simp [LockSpec.init] at released
  once keyRegion := by simp [LockSpec.init]
  nonneg txnId count found := by simp [LockSpec.init] at found

theorem LockSpec.init_inv : LockSpec.init.Inv where
  toSound := LockSpec.init_sound
  closed keyRegion index inside := by simp [LockSpec.init] at inside

/-- What the source's callers guarantee of a lock-only txn when it arrives: its txn has not
released its locks, it asks each of its key-regions once and none its txn asked before, its
id is not the sentinel, and its txn does not get more requests than it needs. -/
structure LockSpec.Fresh (spec : LockSpec) (txn : Transaction) : Prop where
  notReleased : spec.released txn.internal.id = false
  distinct : ((requests txn).map Prod.fst).Nodup
  new : ∀ request ∈ requests txn, ∀ earlier ∈ spec.history request.1, earlier.1 ≠ txn.internal.id
  notSentinel : txn.internal.id ≠ kSentinelTxnId
  bounded : (requests txn).length ≤ (spec.unarrived txn.internal.id).getD txn.numRequiredLocks

section Steps

variable {spec : LockSpec} {txn : Transaction} {txnId : TxnId}

@[simp] theorem acquire_history (keyRegion : KeyRegion) :
    (spec.acquire txn).history keyRegion = spec.history keyRegion ++
      ((requests txn).filter (·.1 = keyRegion)).map fun request => (txn.internal.id, request.2) := rfl

@[simp] theorem acquire_released : (spec.acquire txn).released = spec.released := rfl

theorem acquire_unarrived (other : TxnId) :
    (spec.acquire txn).unarrived other = if other = txn.internal.id then
      some ((spec.unarrived txn.internal.id).getD txn.numRequiredLocks - (requests txn).length)
    else spec.unarrived other := by
  simp [LockSpec.acquire, Function.update_apply]

@[simp] theorem release_history : (spec.release txnId).history = spec.history := rfl

theorem release_released (other : TxnId) :
    (spec.release txnId).released other = (other = txnId || spec.released other) := by
  by_cases same : other = txnId <;> simp [LockSpec.release, same]

theorem release_unarrived (other : TxnId) :
    (spec.release txnId).unarrived other = if other = txnId then none else spec.unarrived other := by
  simp [LockSpec.release, Function.update_apply]

@[simp] theorem forget_released : (spec.forget txnId).released = spec.released := rfl

theorem forget_history (keyRegion : KeyRegion) :
    (spec.forget txnId).history keyRegion = (spec.history keyRegion).filter (·.1 ≠ txnId) := rfl

theorem forget_unarrived (other : TxnId) :
    (spec.forget txnId).unarrived other = if other = txnId then none else spec.unarrived other := by
  simp [LockSpec.forget, Function.update_apply]

/-- The requests of an unreleased txn join the end of the queues. -/
theorem acquire_queue (notReleased : spec.released txn.internal.id = false) (keyRegion : KeyRegion) :
    (spec.acquire txn).queue keyRegion = spec.queue keyRegion ++
      ((requests txn).filter (·.1 = keyRegion)).map fun request => (txn.internal.id, request.2) := by
  have kept : (((requests txn).filter (·.1 = keyRegion)).map fun request => (txn.internal.id, request.2)).filter
      (fun request => !spec.released request.1) =
      ((requests txn).filter (·.1 = keyRegion)).map fun request => (txn.internal.id, request.2) :=
    List.filter_eq_self.mpr fun request member => by
      obtain ⟨_, _, rfl⟩ := List.mem_map.mp member
      simp [notReleased]
  rw [LockSpec.queue, acquire_history, List.filter_append, acquire_released, kept]
  rfl

/-- Releasing a txn takes its requests out of the queues. -/
theorem release_queue (keyRegion : KeyRegion) :
    (spec.release txnId).queue keyRegion = (spec.queue keyRegion).filter (·.1 ≠ txnId) := by
  simp only [LockSpec.queue, release_history, List.filter_filter]
  apply List.filter_congr
  intro request _
  by_cases same : request.1 = txnId <;> simp [release_released, same]

/-- Forgetting a txn takes its requests out of the queues, as releasing it does. -/
theorem forget_queue (keyRegion : KeyRegion) :
    (spec.forget txnId).queue keyRegion = (spec.queue keyRegion).filter (·.1 ≠ txnId) := by
  simp only [LockSpec.queue, forget_history, forget_released, List.filter_filter]
  apply List.filter_congr
  intro request _
  rw [Bool.and_comm]

/-- A txn asks a key-region at most once in one lock-only txn. -/
theorem length_filter_requests_le (distinct : ((requests txn).map Prod.fst).Nodup)
    (keyRegion : KeyRegion) : ((requests txn).filter (·.1 = keyRegion)).length ≤ 1 := by
  have filtered : (((requests txn).filter (·.1 = keyRegion)).map Prod.fst).Nodup :=
    distinct.sublist (List.Sublist.map Prod.fst List.filter_sublist)
  have same : ∀ region ∈ ((requests txn).filter (·.1 = keyRegion)).map Prod.fst, keyRegion = region := by
    intro region member
    obtain ⟨request, chosen, rfl⟩ := List.mem_map.mp member
    exact (of_decide_eq_true (List.mem_filter.mp chosen).2).symm
  have counted := List.nodup_iff_count_le_one.mp filtered keyRegion
  rw [List.count_eq_length.mpr same, List.length_map] at counted
  exact counted

/-- A request of a lock-only txn is its only request on that key-region. -/
theorem filter_requests_eq_singleton (distinct : ((requests txn).map Prod.fst).Nodup)
    {request : KeyRegion × Bool} (member : request ∈ requests txn) :
    (requests txn).filter (·.1 = request.1) = [request] := by
  have single := length_filter_requests_le distinct request.1
  have chosen : request ∈ (requests txn).filter (·.1 = request.1) := by
    simp [member]
  generalize ((requests txn).filter (·.1 = request.1)) = filtered at single chosen ⊢
  match filtered, single, chosen with
  | [], _, chosen => simp at chosen
  | [_], _, chosen => simp_all
  | _ :: _ :: _, tooLong, _ => simp at tooLong

/-- What the acquire step adds to a key-region's history is the txn's one request there. -/
theorem eq_of_acquire_added (distinct : ((requests txn).map Prod.fst).Nodup)
    {keyRegion : KeyRegion} {front back : List (TxnId × Bool)} {owner : TxnId} {write : Bool}
    (added : ((requests txn).filter (·.1 = keyRegion)).map (fun request => (txn.internal.id, request.2)) =
      front ++ (owner, write) :: back) :
    front = [] ∧ owner = txn.internal.id ∧ (keyRegion, write) ∈ requests txn := by
  have single := length_filter_requests_le distinct keyRegion
  have lengths := congrArg List.length added
  simp only [List.length_map, List.length_append, List.length_cons] at lengths
  have empty : front = [] := List.eq_nil_of_length_eq_zero (by omega)
  subst empty
  have member : (owner, write) ∈ ((requests txn).filter (·.1 = keyRegion)).map
      (fun request => (txn.internal.id, request.2)) := by
    simp [added]
  obtain ⟨⟨region, write'⟩, chosen, same⟩ := List.mem_map.mp member
  simp only [Prod.mk.injEq] at same
  obtain ⟨rfl, rfl⟩ := same
  obtain ⟨inRequests, onRegion⟩ := List.mem_filter.mp chosen
  have onRegion : region = keyRegion := by simpa using onRegion
  subst onRegion
  exact ⟨rfl, rfl, inRequests⟩

/-- The queue of a key-region splits around an unreleased request as its history does. -/
theorem queue_eq_of_history {keyRegion : KeyRegion} {front back : List (TxnId × Bool)}
    {owner : TxnId} {write : Bool} (split : spec.history keyRegion = front ++ (owner, write) :: back)
    (present : spec.released owner = false) :
    spec.queue keyRegion = front.filter (fun request => !spec.released request.1) ++
      (owner, write) :: back.filter (fun request => !spec.released request.1) := by
  simp [LockSpec.queue, split, List.filter_append, present]

theorem LockSpec.Sound.acquire (sound : spec.Sound) (fresh : spec.Fresh txn) : (spec.acquire txn).Sound where
  known keyRegion request member := by
    rw [acquire_history] at member
    rcases List.mem_append.mp member with old | added
    · rcases sound.known keyRegion request old with released | known
      · exact .inl released
      · right
        rw [acquire_unarrived]
        split <;> simp_all
    · obtain ⟨_, _, rfl⟩ := List.mem_map.mp added
      right
      simp [acquire_unarrived]
  gone other released := by
    have different : other ≠ txn.internal.id := by
      rintro rfl
      simp [fresh.notReleased] at released
    rw [acquire_unarrived, if_neg different]
    exact sound.gone other released
  once keyRegion := by
    rw [acquire_history, List.map_append, List.nodup_append]
    have single := length_filter_requests_le fresh.distinct keyRegion
    refine ⟨sound.once keyRegion, ?_, ?_⟩
    · rw [List.map_map]
      generalize ((requests txn).filter (·.1 = keyRegion)) = chosen at single ⊢
      match chosen, single with
      | [], _ => simp
      | [_], _ => simp
      | _ :: _ :: _, tooLong => simp at tooLong
    · intro earlier old later added
      obtain ⟨request, member, rfl⟩ := List.mem_map.mp added
      obtain ⟨⟨region, write⟩, chosen, rfl⟩ := List.mem_map.mp member
      have onRegion : region = keyRegion := by simpa using (List.mem_filter.mp chosen).2
      subst onRegion
      obtain ⟨old', inHistory, rfl⟩ := List.mem_map.mp old
      exact fresh.new (region, write) (List.mem_filter.mp chosen).1 old' inHistory
  nonneg other count found := by
    rw [acquire_unarrived] at found
    split at found
    · have bound := fresh.bounded
      simp only [Option.some.injEq] at found
      omega
    · exact sound.nonneg other count found

theorem LockSpec.Inv.acquire (inv : spec.Inv) (fresh : spec.Fresh txn) : (spec.acquire txn).Inv where
  toSound := inv.toSound.acquire fresh
  closed keyRegion := by
    apply (inv.closed keyRegion).append
    intro request member
    obtain ⟨_, _, rfl⟩ := List.mem_map.mp member
    simp [fresh.notReleased]

theorem LockSpec.Sound.not_released_of_unarrived (sound : spec.Sound) {count : Int}
    (known : spec.unarrived txnId = some count) : spec.released txnId = false := by
  by_contra released
  simp [sound.gone txnId (by simpa using released)] at known

/-- Releasing any txn keeps the abstract lock manager sound: its requests leave the queues and
it is forgotten. -/
theorem LockSpec.Sound.release (sound : spec.Sound) (txnId : TxnId) : (spec.release txnId).Sound where
  known keyRegion request member := by
    rcases sound.known keyRegion request member with released | known
    · left
      simp [release_released, released]
    · by_cases same : request.1 = txnId
      · left
        simp [release_released, same]
      · right
        simpa [release_unarrived, same] using known
  gone other released := by
    rw [release_unarrived]
    split
    · rfl
    · rename_i different
      rw [release_released] at released
      exact sound.gone other (by simpa [different] using released)
  once keyRegion := sound.once keyRegion
  nonneg other count found := by
    rw [release_unarrived] at found
    split at found
    · simp at found
    · exact sound.nonneg other count found

/-- Forgetting any txn keeps the abstract lock manager sound. -/
theorem LockSpec.Sound.forget (sound : spec.Sound) (txnId : TxnId) : (spec.forget txnId).Sound where
  known keyRegion request member := by
    rw [forget_history, List.mem_filter] at member
    have different : request.1 ≠ txnId := by simpa using member.2
    rcases sound.known keyRegion request member.1 with released | known
    · exact .inl released
    · right
      rwa [forget_unarrived, if_neg different]
  gone other released := by
    rw [forget_unarrived]
    split
    · rfl
    · exact sound.gone other released
  once keyRegion := (sound.once keyRegion).sublist (List.filter_sublist.map Prod.fst)
  nonneg other count found := by
    rw [forget_unarrived] at found
    split at found
    · simp at found
    · exact sound.nonneg other count found

/-- A ready txn waited only for released txns, so releasing it keeps every queue closed. -/
theorem LockSpec.Inv.release (inv : spec.Inv) (ready : spec.Ready txnId) : (spec.release txnId).Inv where
  toSound := inv.toSound.release txnId
  closed keyRegion := by
    rw [release_history]
    have larger : ∀ owner, spec.released owner = true → (spec.release txnId).released owner = true := by
      intro owner released
      simp [release_released, released]
    have added : ∀ front request back, spec.history keyRegion = front ++ request :: back →
        (spec.release txnId).released request.1 = true → ¬spec.released request.1 = true →
        ∀ blocker ∈ (tailOf front).waitsFor request.2, (spec.release txnId).released blocker = true := by
      intro front request back split nowReleased wasNot blocker member
      have owner : request.1 = txnId := by
        rw [release_released] at nowReleased
        by_contra different
        simp_all
      obtain ⟨earlier, inFront, named, conflict⟩ := mem_waitsFor member
      rw [release_released]
      by_cases released : spec.released blocker = true
      · simp [released]
      · have present := inv.not_released_of_unarrived ready.1
        have split' : spec.history keyRegion = front ++ (txnId, request.2) :: back := by
          rw [split, ← owner]
        have granted := ready.2 keyRegion _ _ _ (queue_eq_of_history split' present) earlier
          (List.mem_filter.mpr ⟨inFront, by simp_all⟩)
        simp_all
    exact (inv.closed keyRegion).grow larger added

/-- A lock-only txn with a request cannot arrive for a ready txn: a ready txn waits for no more
requests. -/
theorem LockSpec.Fresh.not_ready (fresh : spec.Fresh txn) (locks : requests txn ≠ []) :
    ¬spec.Ready txn.internal.id := by
  intro ready
  have bound := fresh.bounded
  rw [ready.1, Option.getD_some] at bound
  have positive : 0 < (requests txn).length := List.length_pos_iff.mpr locks
  omega

/-- An owner appears at most once in a queue whose history asks each key-region once. -/
theorem LockSpec.absent_front (once : ∀ keyRegion, ((spec.history keyRegion).map Prod.fst).Nodup)
    {keyRegion : KeyRegion} {front back : List (TxnId × Bool)} {owner : TxnId} {write : Bool}
    (split : spec.queue keyRegion = front ++ (owner, write) :: back) : owner ∉ front.map Prod.fst := by
  have owners : ((spec.queue keyRegion).map Prod.fst).Nodup :=
    (once keyRegion).sublist (List.Sublist.map Prod.fst List.filter_sublist)
  rw [split, List.map_append, List.map_cons] at owners
  exact fun member => (List.nodup_middle.mp owners |> List.nodup_cons.mp).1 (List.mem_append_left _ member)

/-- Another txn's lock-only txn leaves a txn's readiness as it is: its requests join the queues
behind every request already there. -/
theorem LockSpec.ready_acquire_of_ne (notReleased : spec.released txn.internal.id = false)
    (different : txnId ≠ txn.internal.id) : (spec.acquire txn).Ready txnId ↔ spec.Ready txnId := by
  rw [LockSpec.Ready, LockSpec.Ready, acquire_unarrived, if_neg different]
  apply and_congr_right
  intro _
  constructor
  · intro granted keyRegion front write back split
    apply granted keyRegion front write (back ++ ((requests txn).filter (·.1 = keyRegion)).map
      fun request => (txn.internal.id, request.2))
    rw [acquire_queue notReleased, split]
    simp
  · intro granted keyRegion front write back split
    rw [acquire_queue notReleased] at split
    rcases split_append split with ⟨back', old, -⟩ | ⟨front', -, added⟩
    · exact granted keyRegion front write back' old
    · -- the added requests are the new txn's
      have member : (txnId, write) ∈ ((requests txn).filter (·.1 = keyRegion)).map
          fun request => (txn.internal.id, request.2) := by
        rw [added]
        simp
      obtain ⟨_, _, same⟩ := List.mem_map.mp member
      exact absurd (congrArg Prod.fst same).symm different

/-- Releasing a txn keeps every other ready txn ready: it only takes requests out of the queues. -/
theorem LockSpec.ready_release_of_ne (inv : spec.Inv) {other : TxnId} (different : other ≠ txnId)
    (ready : spec.Ready other) : (spec.release txnId).Ready other := by
  refine ⟨by rw [release_unarrived, if_neg different]; exact ready.1, ?_⟩
  intro keyRegion front write back split
  have inQueue : (other, write) ∈ spec.queue keyRegion := by
    have member : (other, write) ∈ (spec.release txnId).queue keyRegion := by simp [split]
    rw [release_queue] at member
    exact (List.mem_filter.mp member).1
  obtain ⟨front', back', split'⟩ := List.append_of_mem inQueue
  have filtered : (spec.release txnId).queue keyRegion =
      front'.filter (·.1 ≠ txnId) ++ (other, write) :: back'.filter (·.1 ≠ txnId) := by
    rw [release_queue, split']
    simp [List.filter_append, different]
  have absentFiltered : other ∉ (front'.filter (·.1 ≠ txnId)).map Prod.fst := fun member =>
    LockSpec.absent_front inv.once split' (List.Sublist.subset (List.Sublist.map Prod.fst List.filter_sublist) member)
  obtain ⟨sameFront, -, -⟩ := split_unique (split.symm.trans filtered)
    (LockSpec.absent_front (fun keyRegion => by rw [release_history]; exact inv.once keyRegion) split)
    absentFiltered
  intro request member
  rw [sameFront] at member
  exact ready.2 keyRegion front' write back' split' request (List.mem_filter.mp member).1

end Steps

end Slog.Locking
