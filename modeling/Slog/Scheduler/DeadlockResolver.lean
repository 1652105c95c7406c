/-
`DeadlockResolver::ResolveDeadlock` (`module/scheduler_components/ddr_lock_manager.cpp`): the
rewiring of one component of the waits-for graph into a chain of its local members.
-/

import Mathlib
import Slog.Scheduler.DDRLockManager

namespace Slog.DDR

/-- `TxnInfoUpdate`: what the resolver adds to a txn's `num_waiting_for`, and its copy of the
txn's waited-by list. -/
structure TxnInfoUpdate where
  numWaitingFor : Int
  waitedBy : List TxnId
  deriving DecidableEq, Repr

/-- A new update: nothing to add yet, and one empty slot for the resolver. -/
def TxnInfoUpdate.init : TxnInfoUpdate := ⟨0, [kSentinelTxnId]⟩

/-- `ReconstructLocalTxnInfo`: a log entry makes its txn's update, and puts the txn into the
waited-by lists of the txns it waits for that have one. -/
def reconstructLocalTxnInfo (updates : TxnId → Option TxnInfoUpdate) (entry : LogEntry) :
    TxnId → Option TxnInfoUpdate :=
  let updates := if (updates entry.txnId).isSome then updates
    else Function.update updates entry.txnId (some TxnInfoUpdate.init)
  entry.incomingEdges.foldl (fun updates waited =>
    match updates waited with
    | none => updates
    | some update => Function.update updates waited (some { update with waitedBy := update.waitedBy ++ [entry.txnId] }))
    updates

/-- The loop of `ResolveDeadlock` that removes a member's edges into the component: each such
entry becomes the sentinel, and the txn it pointed to waits for one txn fewer. -/
def removeEdges (scc : List TxnId) :
    List TxnId → (TxnId → Option TxnInfoUpdate) → Except String (List TxnId × (TxnId → Option TxnInfoUpdate))
  | [], updates => .ok ([], updates)
  | other :: rest, updates =>
      -- `std::binary_search` on the sorted component
      if other ∈ scc then
        match updates other with
        | none => .error "Check failed: other_update != txn_info_updates_.end()"
        | some update => do
            let (rest, updates) ← removeEdges scc rest
              (Function.update updates other (some { update with numWaitingFor := update.numWaitingFor - 1 }))
            pure (kSentinelTxnId :: rest, updates)
      else do
        let (rest, updates) ← removeEdges scc rest updates
        pure (other :: rest, updates)

/-- The new edge goes into the first empty slot of the list, if there is one. -/
def fillSlot (target : TxnId) : List TxnId → Option (List TxnId)
  | [] => none
  | entry :: rest =>
      if entry = kSentinelTxnId then some (target :: rest) else (fillSlot target rest).map (entry :: ·)

/-- The resolver's state in the loop of `ResolveDeadlock`. -/
structure Resolving where
  updates : TxnId → Option TxnInfoUpdate
  toBeUpdated : List TxnId
  /-- The local member handled last, `scc_[prev_local]` once the first one is handled. -/
  prevLocal : Option TxnId

/-- One pass of the loop over the sorted component, from the largest local member down. A member
without an update is not local and is passed over; the first local member gets no new edge. -/
def resolveStep (scc : List TxnId) (state : Resolving) (member : TxnId) : Except String Resolving :=
  match state.updates member with
  | none => .ok state
  | some update => do
      let (waitedBy, updates) ← removeEdges scc update.waitedBy state.updates
      let (waitedBy, updates) ← match state.prevLocal with
        | none => pure (waitedBy, updates)
        | some other =>
            match fillSlot other waitedBy with
            | none => throw "Cannot find slot to add new edge"
            | some waitedBy => pure (waitedBy, fun txn => if txn = other then
                (updates txn).map fun found => { found with numWaitingFor := found.numWaitingFor + 1 } else updates txn)
      pure { updates := fun txn => if txn = member then
               (updates txn).map fun found => { found with waitedBy := waitedBy } else updates txn
             toBeUpdated := state.toBeUpdated ++ [member]
             prevLocal := some member }

/-- `ResolveDeadlock` on a component: sort it (`std::sort`), find the largest local member, and
rewire the members from there down. Without a local member nothing changes. -/
def resolveDeadlock (scc : List TxnId) (updates : TxnId → Option TxnInfoUpdate) (toBeUpdated : List TxnId) :
    Except String ((TxnId → Option TxnInfoUpdate) × List TxnId) :=
  if scc.length < 2 then .error "Check failed: scc_.size() >= 2" else
  let sorted := scc.insertionSort (· ≤ ·)
  let fromLast := sorted.reverse.dropWhile fun member => (updates member).isNone
  if fromLast = [] then .ok (updates, toBeUpdated) else do
    let state ← fromLast.foldlM (resolveStep sorted) ⟨updates, toBeUpdated, none⟩
    pure (state.updates, state.toBeUpdated)

/-- A waited-by list with its entries into the component cleared to the sentinel. -/
def clear (scc : List TxnId) (waitedBy : List TxnId) : List TxnId :=
  waitedBy.map fun other => if other ∈ scc then kSentinelTxnId else other

/-- The updates with `delta txn` added to the count of each txn. -/
def shift (updates : TxnId → Option TxnInfoUpdate) (delta : TxnId → Int) : TxnId → Option TxnInfoUpdate :=
  fun txn => (updates txn).map fun update => { update with numWaitingFor := update.numWaitingFor + delta txn }

@[simp] theorem shift_zero (updates : TxnId → Option TxnInfoUpdate) : shift updates (fun _ => 0) = updates := by
  funext txn
  cases found : updates txn <;> simp [shift, found]

section Lists

variable {scc waitedBy : List TxnId} {updates : TxnId → Option TxnInfoUpdate}

/-- Removing a member's edges clears them and takes one from the count of the txn at the other
end of each. -/
theorem removeEdges_eq (closed : ∀ other ∈ waitedBy, other ∈ scc → (updates other).isSome) :
    removeEdges scc waitedBy updates =
      .ok (clear scc waitedBy, shift updates fun txn => -((waitedBy.filter (· ∈ scc)).count txn : Int)) := by
  induction waitedBy generalizing updates with
  | nil => simp [removeEdges, clear]
  | cons other rest ih =>
      by_cases inside : other ∈ scc
      · obtain ⟨update, found⟩ := Option.isSome_iff_exists.mp (closed other List.mem_cons_self inside)
        have lowered := @ih (Function.update updates other
            (some { update with numWaitingFor := update.numWaitingFor - 1 }))
          (fun txn member within => by
            by_cases same : txn = other
            · simp [same]
            · simpa [Function.update_of_ne same] using closed txn (List.mem_cons_of_mem _ member) within)
        have combined : shift (Function.update updates other (some { update with numWaitingFor := update.numWaitingFor - 1 }))
            (fun txn => -((rest.filter (· ∈ scc)).count txn : Int)) =
            shift updates (fun txn => -(((other :: rest).filter (· ∈ scc)).count txn : Int)) := by
          funext txn
          by_cases same : txn = other
          · subst same
            simp only [shift, Function.update_self, found, Option.map_some, List.filter_cons, inside,
              decide_true, if_true, List.count_cons_self, Option.some.injEq, TxnInfoUpdate.mk.injEq, and_true]
            push_cast
            omega
          · simp [shift, Function.update_of_ne same, inside, Ne.symm same]
        simp [removeEdges, inside, found, lowered, combined, clear, bind, Except.bind, pure, Except.pure]
      · have kept := @ih updates
          (fun txn member within => closed txn (List.mem_cons_of_mem _ member) within)
        simp [removeEdges, inside, kept, clear, bind, Except.bind, pure, Except.pure]

theorem fillSlot_isSome {target : TxnId} : (fillSlot target waitedBy).isSome ↔ kSentinelTxnId ∈ waitedBy := by
  induction waitedBy with
  | nil => simp [fillSlot]
  | cons entry rest ih =>
      by_cases empty : entry = kSentinelTxnId
      · simp [fillSlot, empty]
      · simp [fillSlot, empty, ih, Ne.symm empty]

theorem length_fillSlot {target : TxnId} {filled : List TxnId} (found : fillSlot target waitedBy = some filled) :
    filled.length = waitedBy.length := by
  induction waitedBy generalizing filled with
  | nil => simp [fillSlot] at found
  | cons entry rest ih =>
      by_cases empty : entry = kSentinelTxnId
      · simp only [fillSlot, empty, if_true, Option.some.injEq] at found
        simp [← found]
      · simp only [fillSlot, empty, if_false, Option.map_eq_some_iff] at found
        obtain ⟨tail, filledTail, rfl⟩ := found
        simp [ih filledTail]

/-- The new edge takes one empty slot and leaves every other slot as it was. -/
theorem getElem?_fillSlot {target : TxnId} {filled : List TxnId} (found : fillSlot target waitedBy = some filled)
    (slot : Nat) : filled[slot]? = waitedBy[slot]? ∨
      (waitedBy[slot]? = some kSentinelTxnId ∧ filled[slot]? = some target) := by
  induction waitedBy generalizing filled slot with
  | nil => simp [fillSlot] at found
  | cons entry rest ih =>
      by_cases empty : entry = kSentinelTxnId
      · simp only [fillSlot, empty, if_true, Option.some.injEq] at found
        subst found
        cases slot with
        | zero => simp [empty]
        | succ slot => simp
      · simp only [fillSlot, empty, if_false, Option.map_eq_some_iff] at found
        obtain ⟨tail, filledTail, rfl⟩ := found
        cases slot with
        | zero => simp
        | succ slot => simpa using ih filledTail slot

/-- In a list with no entry that `chosen` picks, the new edge is the only one it picks. -/
theorem filter_fillSlot {target : TxnId} {filled : List TxnId} (chosen : TxnId → Bool)
    (found : fillSlot target waitedBy = some filled) (none : ∀ other ∈ waitedBy, chosen other = false) :
    filled.filter chosen = if chosen target then [target] else [] := by
  induction waitedBy generalizing filled with
  | nil => simp [fillSlot] at found
  | cons entry rest ih =>
      have restNone : ∀ other ∈ rest, chosen other = false := fun other member => none other (List.mem_cons_of_mem _ member)
      by_cases empty : entry = kSentinelTxnId
      · simp only [fillSlot, empty, if_true, Option.some.injEq] at found
        subst found
        rw [List.filter_cons, List.filter_eq_nil_iff.mpr (fun other member => by simp [restNone other member])]
      · simp only [fillSlot, empty, if_false, Option.map_eq_some_iff] at found
        obtain ⟨tail, filledTail, rfl⟩ := found
        rw [List.filter_cons, none entry List.mem_cons_self, ih filledTail restNone]
        rfl

/-- Clearing leaves no entry into the component, since the sentinel is no member. -/
theorem not_mem_of_mem_clear (sentinel : kSentinelTxnId ∉ scc) {other : TxnId} (member : other ∈ clear scc waitedBy) :
    other ∉ scc := by
  obtain ⟨entry, -, rfl⟩ := List.mem_map.mp member
  by_cases inside : entry ∈ scc
  · simpa [inside] using sentinel
  · simp [inside]

theorem sentinel_mem_clear (empty : kSentinelTxnId ∈ waitedBy) : kSentinelTxnId ∈ clear scc waitedBy :=
  List.mem_map.mpr ⟨kSentinelTxnId, empty, by split_ifs <;> rfl⟩

end Lists

/-- Every waited-by list holds an empty slot. -/
def HasSlots (updates : TxnId → Option TxnInfoUpdate) : Prop :=
  ∀ txn update, updates txn = some update → kSentinelTxnId ∈ update.waitedBy

section Reconstruct

variable {updates : TxnId → Option TxnInfoUpdate}

theorem hasSlots_foldl_append (waiter : TxnId) (edges : List TxnId) (slots : HasSlots updates) :
    HasSlots (edges.foldl (fun updates waited =>
      match updates waited with
      | none => updates
      | some update => Function.update updates waited (some { update with waitedBy := update.waitedBy ++ [waiter] }))
      updates) := by
  induction edges generalizing updates with
  | nil => exact slots
  | cons waited rest ih =>
      apply ih
      dsimp only
      cases found : updates waited with
      | none => exact slots
      | some update =>
          intro txn other stored
          dsimp only at stored
          by_cases same : txn = waited
          · subst same
            simp only [Function.update_self, Option.some.injEq] at stored
            simp [← stored, slots txn update found]
          · rw [Function.update_of_ne same] at stored
            exact slots txn other stored

/-- Rebuilding the updates from a log entry keeps an empty slot in every list: a new update
starts with one, and edges are only appended. -/
theorem hasSlots_reconstructLocalTxnInfo (slots : HasSlots updates) (entry : LogEntry) :
    HasSlots (reconstructLocalTxnInfo updates entry) := by
  have made : HasSlots (if (updates entry.txnId).isSome then updates
      else Function.update updates entry.txnId (some TxnInfoUpdate.init)) := by
    split_ifs
    · exact slots
    · intro txn update stored
      by_cases same : txn = entry.txnId
      · subst same
        simp only [Function.update_self, Option.some.injEq] at stored
        simp [← stored, TxnInfoUpdate.init]
      · rw [Function.update_of_ne same] at stored
        exact slots txn update stored
  exact hasSlots_foldl_append entry.txnId entry.incomingEdges made

theorem hasSlots_foldl_reconstructLocalTxnInfo (entries : List LogEntry) :
    HasSlots (entries.foldl reconstructLocalTxnInfo fun _ => none) := by
  have fromAny : ∀ start : TxnId → Option TxnInfoUpdate, HasSlots start →
      HasSlots (entries.foldl reconstructLocalTxnInfo start) := by
    induction entries with
    | nil => exact fun _ slots => slots
    | cons entry rest ih => exact fun start slots => ih _ (hasSlots_reconstructLocalTxnInfo slots entry)
  exact fromAny _ fun _ _ absent => nomatch absent

/-- Every entry of a waited-by list is the sentinel or a txn with an update. -/
def WaitersKnown (updates : TxnId → Option TxnInfoUpdate) : Prop :=
  ∀ txn update, updates txn = some update → ∀ other ∈ update.waitedBy, other ≠ kSentinelTxnId → (updates other).isSome

/-- Appending a waiter to lists keeps the txns that have an update, and adds only the waiter. -/
theorem foldl_append_cases (waiter : TxnId) (edges : List TxnId) :
    (∀ txn, (updates txn).isSome → ((edges.foldl (fun updates waited =>
      match updates waited with
      | none => updates
      | some update => Function.update updates waited (some { update with waitedBy := update.waitedBy ++ [waiter] }))
      updates) txn).isSome) ∧
    ∀ txn after, (edges.foldl (fun updates waited =>
      match updates waited with
      | none => updates
      | some update => Function.update updates waited (some { update with waitedBy := update.waitedBy ++ [waiter] }))
      updates) txn = some after →
      ∃ update, updates txn = some update ∧ ∀ other ∈ after.waitedBy, other ∈ update.waitedBy ∨ other = waiter := by
  induction edges generalizing updates with
  | nil => exact ⟨fun _ present => present, fun txn after stored => ⟨after, stored, fun _ listed => .inl listed⟩⟩
  | cons waited rest ih =>
      obtain ⟨kept, appended⟩ := @ih (match updates waited with
        | none => updates
        | some update => Function.update updates waited (some { update with waitedBy := update.waitedBy ++ [waiter] }))
      refine ⟨fun txn present => kept txn ?_, fun txn after stored => ?_⟩
      · cases found : updates waited with
        | none => simpa [found] using present
        | some update =>
            by_cases same : txn = waited
            · subst same
              simp
            · simpa [found, same] using present
      · obtain ⟨middle, between, listed⟩ := appended txn after stored
        cases found : updates waited with
        | none =>
            rw [found] at between
            exact ⟨middle, between, listed⟩
        | some update =>
            rw [found] at between
            dsimp only at between
            by_cases same : txn = waited
            · subst same
              simp only [Function.update_self, Option.some.injEq] at between
              refine ⟨update, found, fun other member => ?_⟩
              rcases listed other member with old | new
              · rw [← between, List.mem_append, List.mem_singleton] at old
                exact old
              · exact .inr new
            · rw [Function.update_of_ne same] at between
              exact ⟨middle, between, listed⟩

/-- Rebuilding the updates from a log entry keeps every entry of a list a txn with an update: the
entry's txn gets one before it is added to the lists of the txns it waits for. -/
theorem waitersKnown_reconstructLocalTxnInfo (known : WaitersKnown updates) (entry : LogEntry) :
    WaitersKnown (reconstructLocalTxnInfo updates entry) := by
  let made := if (updates entry.txnId).isSome then updates
    else Function.update updates entry.txnId (some TxnInfoUpdate.init)
  have grown : ∀ txn, (updates txn).isSome → (made txn).isSome := by
    intro txn present
    by_cases same : txn = entry.txnId
    · subst same
      simp [made, present]
    · simp only [made]
      split_ifs
      · exact present
      · simpa [same] using present
  have waiter : (made entry.txnId).isSome := by
    simp only [made]
    split_ifs with present
    · exact present
    · simp
  have madeKnown : WaitersKnown made := by
    intro txn update stored other listed notSentinel
    by_cases same : txn = entry.txnId ∧ (updates entry.txnId).isNone
    · obtain ⟨rfl, fresh⟩ := same
      have absent : updates entry.txnId = none := Option.isNone_iff_eq_none.mp fresh
      simp only [made, absent, Option.isSome_none, Bool.false_eq_true, if_false, Function.update_self,
        Option.some.injEq] at stored
      subst stored
      simp [TxnInfoUpdate.init] at listed
      exact absurd listed notSentinel
    · have old : updates txn = some update := by
        by_cases present : (updates entry.txnId).isSome
        · simpa [made, present] using stored
        · have other : txn ≠ entry.txnId := fun eq => same ⟨eq, by simpa using present⟩
          simpa [made, present, other] using stored
      exact grown other (known txn update old other listed notSentinel)
  obtain ⟨kept, appended⟩ := @foldl_append_cases made entry.txnId entry.incomingEdges
  intro txn after stored other listed notSentinel
  obtain ⟨update, found, source⟩ := appended txn after stored
  rcases source other listed with old | new
  · exact kept other (madeKnown txn update found other old notSentinel)
  · exact new ▸ kept _ waiter

theorem waitersKnown_foldl_reconstructLocalTxnInfo (entries : List LogEntry) :
    WaitersKnown (entries.foldl reconstructLocalTxnInfo fun _ => none) := by
  have fromAny : ∀ start : TxnId → Option TxnInfoUpdate, WaitersKnown start →
      WaitersKnown (entries.foldl reconstructLocalTxnInfo start) := by
    induction entries with
    | nil => exact fun _ known => known
    | cons entry rest ih => exact fun start known => ih _ (waitersKnown_reconstructLocalTxnInfo known entry)
  exact fromAny _ fun _ _ absent => nomatch absent

end Reconstruct

/-- What the resolver's own bookkeeping gives of a component and its updates: its ids are
distinct and none is the sentinel; the waited-by list of each local member has an empty slot,
as every update starts with one; and the entries of those lists that point into the component
point to local members. -/
structure Admissible (scc : List TxnId) (updates : TxnId → Option TxnInfoUpdate) : Prop where
  nodup : scc.Nodup
  sentinel : kSentinelTxnId ∉ scc
  slot : ∀ member ∈ scc, ∀ update, updates member = some update → kSentinelTxnId ∈ update.waitedBy
  closed : ∀ member ∈ scc, ∀ update, updates member = some update →
    ∀ other ∈ update.waitedBy, other ∈ scc → (updates other).isSome

section Chain

variable (scc : List TxnId) (updates : TxnId → Option TxnInfoUpdate)

/-- The local members of the component, in ascending order. -/
def localMembers : List TxnId := (scc.insertionSort (· ≤ ·)).filter fun member => (updates member).isSome

/-- The next larger local member, which a local member's new edge points to. -/
def nextLocal (member : TxnId) : Option TxnId := ((localMembers scc updates).filter (member < ·)).head?

/-- The waited-by list a local member ends with: its edges into the component cleared, then the
edge to the next larger local member in its first empty slot. -/
def rewire (member : TxnId) (waitedBy : List TxnId) : List TxnId :=
  match nextLocal scc updates member with
  | none => clear scc waitedBy
  | some next => (fillSlot next (clear scc waitedBy)).getD (clear scc waitedBy)

/-- The edges into a txn that the members in `done` remove from their waited-by lists. -/
def removedBy (done : List TxnId) (txn : TxnId) : Int :=
  (done.map fun member => (((updates member).map fun update => (update.waitedBy.filter (· ∈ scc)).count txn).getD 0 : Int)).sum

/-- The updates once the local members in `done` have been handled: each has its rewired list,
and each txn's count has gained the new edges into it and lost the removed ones. -/
def handled (done : List TxnId) : TxnId → Option TxnInfoUpdate := fun txn =>
  (updates txn).map fun update =>
    { numWaitingFor := update.numWaitingFor + (done.countP fun member => nextLocal scc updates member == some txn) -
        removedBy scc updates done txn
      waitedBy := if txn ∈ done then rewire scc updates txn update.waitedBy else update.waitedBy }

end Chain

section Step

variable {scc : List TxnId} {updates : TxnId → Option TxnInfoUpdate} {toBeUpdated done : List TxnId}

theorem handled_nil : handled scc updates [] = updates := by
  funext txn
  cases found : updates txn <;> simp [handled, removedBy, found]

theorem clear_insertionSort (waitedBy : List TxnId) :
    clear (scc.insertionSort (· ≤ ·)) waitedBy = clear scc waitedBy := by
  simp [clear, List.mem_insertionSort]

theorem removedBy_append (member txn : TxnId) :
    removedBy scc updates (done ++ [member]) txn = removedBy scc updates done txn +
      (((updates member).map fun update => (update.waitedBy.filter (· ∈ scc)).count txn).getD 0 : Int) := by
  simp [removedBy]

/-- Handling the next local member, whose next larger local member is the one handled last,
rewires its list and moves the counts as `handled` says. -/
theorem resolveStep_handled (admissible : Admissible scc updates) {member : TxnId} {update : TxnInfoUpdate}
    (found : updates member = some update) (inside : member ∈ scc) (fresh : member ∉ done)
    (next : nextLocal scc updates member = done.getLast?) :
    resolveStep (scc.insertionSort (· ≤ ·)) ⟨handled scc updates done, toBeUpdated ++ done, done.getLast?⟩ member =
      .ok ⟨handled scc updates (done ++ [member]), toBeUpdated ++ (done ++ [member]), some member⟩ := by
  have current : handled scc updates done member = some { update with
      numWaitingFor := update.numWaitingFor + (done.countP fun other => nextLocal scc updates other == some member) -
        removedBy scc updates done member } := by
    simp [handled, found, fresh]
  have closed : ∀ other ∈ update.waitedBy, other ∈ scc.insertionSort (· ≤ ·) →
      (handled scc updates done other).isSome := by
    intro other listed within
    simpa [handled] using admissible.closed member inside update found other listed ((List.mem_insertionSort _).mp within)
  have removed := removeEdges_eq closed
  rw [clear_insertionSort] at removed
  have filterSorted : update.waitedBy.filter (· ∈ scc.insertionSort (· ≤ ·)) = update.waitedBy.filter (· ∈ scc) := by
    simp [List.mem_insertionSort]
  rw [filterSorted] at removed
  have slot : kSentinelTxnId ∈ clear scc update.waitedBy :=
    sentinel_mem_clear (admissible.slot member inside update found)
  simp only [resolveStep, current, removed]
  cases last : done.getLast? with
  | none =>
      simp only [bind, Except.bind, pure, Except.pure, Except.ok.injEq, Resolving.mk.injEq, and_true]
      refine ⟨funext fun txn => ?_, by simp⟩
      cases known : updates txn with
      | none => simp [handled, shift, known]
      | some other =>
          by_cases mine : txn = member
          · subst mine
            obtain rfl : other = update := Option.some.inj (known.symm.trans found)
            simp [handled, shift, known, removedBy_append, rewire, next, last, fresh]
            omega
          · simp [handled, shift, known, removedBy_append, mine, found, next, last]
            omega
  | some target =>
      have fillable : (fillSlot target (clear scc update.waitedBy)).isSome := fillSlot_isSome.mpr slot
      obtain ⟨filled, filledEq⟩ := Option.isSome_iff_exists.mp fillable
      simp only [filledEq, bind, Except.bind, pure, Except.pure, Except.ok.injEq, Resolving.mk.injEq, and_true]
      refine ⟨funext fun txn => ?_, by simp⟩
      cases known : updates txn with
      | none => simp [handled, shift, known]
      | some other =>
          have handledBefore : target ∈ done := List.mem_of_getLast? last
          by_cases mine : txn = member
          · subst mine
            obtain rfl : other = update := Option.some.inj (known.symm.trans found)
            have apart : txn ≠ target := fun same => fresh (same ▸ handledBefore)
            simp [handled, shift, known, removedBy_append, rewire, next, last, fresh, filledEq, apart, Ne.symm apart]
            omega
          · by_cases bumped : txn = target
            · subst bumped
              simp [handled, shift, known, removedBy_append, mine, found, next, last]
              omega
            · simp [handled, shift, known, removedBy_append, mine, found, next, last, bumped, Ne.symm bumped]
              omega

/-- A member that is not local is passed over. -/
theorem resolveStep_of_none {member : TxnId} (absent : updates member = none) :
    resolveStep (scc.insertionSort (· ≤ ·)) ⟨handled scc updates done, toBeUpdated ++ done, done.getLast?⟩ member =
      .ok ⟨handled scc updates done, toBeUpdated ++ done, done.getLast?⟩ := by
  simp [resolveStep, handled, absent]

end Step

/-- The sorted component from its largest local member down: the members the loop of
`ResolveDeadlock` visits. -/
def fromLast (scc : List TxnId) (updates : TxnId → Option TxnInfoUpdate) : List TxnId :=
  (scc.insertionSort (· ≤ ·)).reverse.dropWhile fun member => (updates member).isNone

section Loop

variable {scc : List TxnId} {updates : TxnId → Option TxnInfoUpdate} {toBeUpdated : List TxnId}

/-- In a strictly increasing list, the entries larger than one of its entries are those after it. -/
theorem filter_lt_of_pairwise {before after : List TxnId} {entry : TxnId}
    (increasing : (before ++ entry :: after).Pairwise (· < ·)) :
    (before ++ entry :: after).filter (entry < ·) = after := by
  obtain ⟨-, later, across⟩ := List.pairwise_append.mp increasing
  have beforeNone : before.filter (entry < ·) = [] :=
    List.filter_eq_nil_iff.mpr fun earlier member => by
      simpa using Nat.le_of_lt (across earlier member entry List.mem_cons_self)
  have afterAll : after.filter (entry < ·) = after :=
    List.filter_eq_self.mpr fun bigger member => by simpa using List.rel_of_pairwise_cons later member
  simp [beforeNone, afterAll]

/-- In a strictly increasing list, each entry but the first is the next larger entry of exactly
one entry, the one before it. -/
theorem countP_next_of_pairwise {chain : List TxnId} (increasing : chain.Pairwise (· < ·)) (txn : TxnId) :
    chain.countP (fun member => (chain.filter (member < ·)).head? == some txn) =
      if txn ∈ chain ∧ chain.head? ≠ some txn then 1 else 0 := by
  induction chain with
  | nil => simp
  | cons first rest ih =>
      obtain ⟨smallest, ascending⟩ := List.pairwise_cons.mp increasing
      have later : ∀ member ∈ rest, (first :: rest).filter (member < ·) = rest.filter (member < ·) :=
        fun member listed => by simp [Nat.not_lt.mpr (Nat.le_of_lt (smallest member listed))]
      have firstNext : (first :: rest).filter (first < ·) = rest := @filter_lt_of_pairwise [] rest first increasing
      rw [List.countP_cons, List.countP_congr (fun member listed => by rw [later member listed]), ih ascending,
        firstNext]
      cases rest with
      | nil => simp [eq_comm]
      | cons second tail =>
          have below : first < second := smallest second List.mem_cons_self
          have absent : first ∉ second :: tail := fun listed => Nat.lt_irrefl first (smallest first listed)
          by_cases next : txn = second
          · subst next
            simp [Nat.ne_of_lt below]
          · by_cases least : txn = first
            · subst least
              simp [absent, Ne.symm next]
            · simp [next, Ne.symm next, least, Ne.symm least]

theorem pairwise_insertionSort_lt (nodup : scc.Nodup) : (scc.insertionSort (· ≤ ·)).Pairwise (· < ·) := by
  have distinct : (scc.insertionSort (· ≤ ·)).Nodup := (List.perm_insertionSort _ scc).nodup_iff.mpr nodup
  exact ((List.pairwise_insertionSort (· ≤ ·) scc).and distinct).imp fun ordered => Nat.lt_of_le_of_ne ordered.1 ordered.2

/-- The loop meets the local members from the largest down. -/
theorem filter_fromLast :
    (fromLast scc updates).filter (fun member => (updates member).isSome) = (localMembers scc updates).reverse := by
  have split := List.takeWhile_append_dropWhile (p := fun member => (updates member).isNone)
    (l := (scc.insertionSort (· ≤ ·)).reverse)
  have skipped : ((scc.insertionSort (· ≤ ·)).reverse.takeWhile fun member => (updates member).isNone).filter
      (fun member => (updates member).isSome) = [] :=
    List.filter_eq_nil_iff.mpr fun member listed => by simpa using List.mem_takeWhile_imp listed
  have whole := congrArg (List.filter fun member => (updates member).isSome) split
  rw [List.filter_append, skipped, List.nil_append] at whole
  rw [fromLast, whole, localMembers, List.filter_reverse]

theorem mem_of_mem_fromLast {member : TxnId} (listed : member ∈ fromLast scc updates) : member ∈ scc :=
  (List.mem_insertionSort _).mp (List.mem_reverse.mp ((List.dropWhile_sublist _).subset listed))

theorem nodup_fromLast (nodup : scc.Nodup) : (fromLast scc updates).Nodup :=
  (List.dropWhile_sublist _).nodup (List.nodup_reverse.mpr ((List.perm_insertionSort _ scc).nodup_iff.mpr nodup))

/-- When the loop reaches a local member, its next larger local member is the local member
handled last. -/
theorem nextLocal_of_fromLast (nodup : scc.Nodup) {before after : List TxnId} {member : TxnId}
    (split : fromLast scc updates = before ++ member :: after) (found : (updates member).isSome) :
    nextLocal scc updates member = (before.filter fun other => (updates other).isSome).getLast? := by
  have ascending : localMembers scc updates =
      (after.filter fun other => (updates other).isSome).reverse ++
        member :: (before.filter fun other => (updates other).isSome).reverse := by
    rw [← List.reverse_reverse (localMembers scc updates), ← filter_fromLast, split]
    simp [List.filter_append, found]
  have increasing : (localMembers scc updates).Pairwise (· < ·) :=
    (pairwise_insertionSort_lt nodup).sublist List.filter_sublist
  rw [ascending] at increasing
  rw [nextLocal, ascending, filter_lt_of_pairwise increasing, List.head?_reverse]

/-- The loop run from any point of its walk down the component: each local member met is
handled, and the others are passed over. -/
theorem foldlM_resolveStep (admissible : Admissible scc updates) {before after : List TxnId}
    (split : fromLast scc updates = before ++ after) :
    after.foldlM (resolveStep (scc.insertionSort (· ≤ ·)))
        ⟨handled scc updates (before.filter fun other => (updates other).isSome),
          toBeUpdated ++ before.filter (fun other => (updates other).isSome),
          (before.filter fun other => (updates other).isSome).getLast?⟩ =
      .ok ⟨handled scc updates (localMembers scc updates).reverse, toBeUpdated ++ (localMembers scc updates).reverse,
        (localMembers scc updates).reverse.getLast?⟩ := by
  induction after generalizing before with
  | nil =>
      have visited : before.filter (fun other => (updates other).isSome) = (localMembers scc updates).reverse := by
        rw [← filter_fromLast, split, List.append_nil]
      simp only [List.foldlM_nil, visited]
      rfl
  | cons member after ih =>
      have moved : fromLast scc updates = (before ++ [member]) ++ after := by simp [split]
      rw [List.foldlM_cons]
      cases found : updates member with
      | none =>
          have passed : (before ++ [member]).filter (fun other => (updates other).isSome) =
              before.filter fun other => (updates other).isSome := by simp [found]
          rw [resolveStep_of_none found]
          simpa only [bind, Except.bind, passed] using ih moved
      | some update =>
          have inside : member ∈ scc := mem_of_mem_fromLast (split ▸ List.mem_append_right _ List.mem_cons_self)
          have fresh : member ∉ before.filter fun other => (updates other).isSome := fun listed => by
            have distinct : (fromLast scc updates).Nodup := nodup_fromLast admissible.nodup
            rw [split] at distinct
            exact List.disjoint_of_nodup_append distinct (List.mem_of_mem_filter listed) List.mem_cons_self
          have taken : (before ++ [member]).filter (fun other => (updates other).isSome) =
              (before.filter fun other => (updates other).isSome) ++ [member] := by simp [found]
          rw [resolveStep_handled admissible found inside fresh
            (nextLocal_of_fromLast admissible.nodup split (by simp [found]))]
          simpa only [bind, Except.bind, taken, List.getLast?_concat] using ih moved

/-- `ResolveDeadlock` on an admissible component of two or more txns handles each of its local
members, from the largest down, and queues them for the lock manager in that order. -/
theorem resolveDeadlock_eq (admissible : Admissible scc updates) (two : 2 ≤ scc.length) :
    resolveDeadlock scc updates toBeUpdated =
      .ok (handled scc updates (localMembers scc updates).reverse, toBeUpdated ++ (localMembers scc updates).reverse) := by
  have visited := @foldlM_resolveStep scc updates toBeUpdated admissible [] _ (List.nil_append (fromLast scc updates)).symm
  simp only [List.filter_nil, handled_nil, List.append_nil, List.getLast?_nil] at visited
  simp only [resolveDeadlock, show ¬ scc.length < 2 by omega, if_false]
  show (if fromLast scc updates = [] then _ else _) = _
  split_ifs with empty
  · have noLocal : localMembers scc updates = [] := by
      simpa [empty] using (@filter_fromLast scc updates).symm
    simp [noLocal, handled_nil]
  · rw [fromLast] at visited
    simp [visited, bind, Except.bind, pure, Except.pure]

end Loop

section Chained

variable {scc : List TxnId} {updates : TxnId → Option TxnInfoUpdate}

theorem mem_localMembers {txn : TxnId} : txn ∈ localMembers scc updates ↔ txn ∈ scc ∧ (updates txn).isSome := by
  simp [localMembers, List.mem_insertionSort]

/-- The next larger local member is the least local member above. -/
theorem nextLocal_eq_some_iff (nodup : scc.Nodup) {member next : TxnId} :
    nextLocal scc updates member = some next ↔
      next ∈ localMembers scc updates ∧ member < next ∧
        ∀ other ∈ localMembers scc updates, member < other → next ≤ other := by
  have increasing : ((localMembers scc updates).filter (member < ·)).Pairwise (· < ·) :=
    ((pairwise_insertionSort_lt nodup).sublist List.filter_sublist).sublist List.filter_sublist
  constructor
  · intro found
    obtain ⟨rest, split⟩ := List.head?_eq_some_iff.mp found
    have listed : next ∈ (localMembers scc updates).filter (member < ·) := by simp [split]
    refine ⟨List.mem_of_mem_filter listed, by simpa using (List.mem_filter.mp listed).2, fun other counted above => ?_⟩
    have chosen : other ∈ (localMembers scc updates).filter (member < ·) := List.mem_filter.mpr ⟨counted, by simpa using above⟩
    rw [split] at increasing chosen
    rcases List.mem_cons.mp chosen with same | later
    · exact Nat.le_of_eq same.symm
    · exact Nat.le_of_lt (List.rel_of_pairwise_cons increasing later)
  · rintro ⟨counted, above, least⟩
    have chosen : next ∈ (localMembers scc updates).filter (member < ·) := List.mem_filter.mpr ⟨counted, by simpa using above⟩
    obtain ⟨first, rest, split⟩ := List.exists_cons_of_ne_nil (List.ne_nil_of_mem chosen)
    have firstListed : first ∈ (localMembers scc updates).filter (member < ·) := split ▸ List.mem_cons_self
    have atMost : first ≤ next := by
      rw [split] at increasing chosen
      rcases List.mem_cons.mp chosen with same | later
      · exact Nat.le_of_eq same.symm
      · exact Nat.le_of_lt (List.rel_of_pairwise_cons increasing later)
    have atLeast : next ≤ first :=
      least first (List.mem_of_mem_filter firstListed) (by simpa using (List.mem_filter.mp firstListed).2)
    rw [nextLocal, split, List.head?_cons, Nat.le_antisymm atMost atLeast]

/-- Each local member but the smallest gets exactly one new edge, and no other txn gets one. -/
theorem countP_nextLocal (nodup : scc.Nodup) (txn : TxnId) :
    (localMembers scc updates).countP (fun member => nextLocal scc updates member == some txn) =
      if txn ∈ localMembers scc updates ∧ (localMembers scc updates).head? ≠ some txn then 1 else 0 :=
  countP_next_of_pairwise ((pairwise_insertionSort_lt nodup).sublist List.filter_sublist) txn

theorem removedBy_reverse (done : List TxnId) (txn : TxnId) :
    removedBy scc updates done.reverse txn = removedBy scc updates done txn := by
  simp [removedBy, List.map_reverse, List.sum_reverse]

theorem length_clear (waitedBy : List TxnId) : (clear scc waitedBy).length = waitedBy.length :=
  List.length_map _

/-- A slot of a cleared list keeps its entry, unless that pointed into the component. -/
theorem getElem?_clear (waitedBy : List TxnId) (slot : Nat) :
    (clear scc waitedBy)[slot]? = waitedBy[slot]? ∨
      ∃ other, waitedBy[slot]? = some other ∧ other ∈ scc ∧ (clear scc waitedBy)[slot]? = some kSentinelTxnId := by
  cases entry : waitedBy[slot]? with
  | none => simp [clear, entry]
  | some other =>
      by_cases inside : other ∈ scc
      · simp [clear, entry, inside]
      · simp [clear, entry, inside]

variable {member : TxnId} {update : TxnInfoUpdate}

theorem length_rewire (waitedBy : List TxnId) :
    (rewire scc updates member waitedBy).length = waitedBy.length := by
  unfold rewire
  split
  · exact length_clear waitedBy
  · cases filled : fillSlot _ (clear scc waitedBy) with
    | none => exact length_clear waitedBy
    | some list => rw [Option.getD_some, length_fillSlot filled, length_clear]

/-- The rewired list of a local member keeps every slot but those that were empty or pointed
into the component. -/
theorem getElem?_rewire (waitedBy : List TxnId) (slot : Nat) :
    (rewire scc updates member waitedBy)[slot]? = waitedBy[slot]? ∨
      ∃ other, waitedBy[slot]? = some other ∧ (other = kSentinelTxnId ∨ other ∈ scc) := by
  have cleared : (clear scc waitedBy)[slot]? = waitedBy[slot]? ∨
      ∃ other, waitedBy[slot]? = some other ∧ (other = kSentinelTxnId ∨ other ∈ scc) := by
    rcases getElem?_clear waitedBy slot with same | ⟨other, entry, inside, -⟩
    · exact Or.inl same
    · exact Or.inr ⟨other, entry, Or.inr inside⟩
  unfold rewire
  split
  · exact cleared
  · cases filled : fillSlot _ (clear scc waitedBy) with
    | none => exact cleared
    | some list =>
        rw [Option.getD_some]
        rcases getElem?_fillSlot filled slot with same | ⟨empty, -⟩
        · rw [same]
          exact cleared
        · -- the new edge went into a slot that was empty, or that an edge into the component had
          right
          rcases getElem?_clear waitedBy slot with same | ⟨other, entry, inside, -⟩
          · exact ⟨kSentinelTxnId, same ▸ empty, Or.inl rfl⟩
          · exact ⟨other, entry, Or.inr inside⟩

/-- A local member's rewired list points into the component only at its next larger local
member. -/
theorem filter_rewire (admissible : Admissible scc updates) (found : updates member = some update)
    (inside : member ∈ scc) :
    (rewire scc updates member update.waitedBy).filter (· ∈ scc) = (nextLocal scc updates member).toList := by
  have outside : ∀ other ∈ clear scc update.waitedBy, decide (other ∈ scc) = false :=
    fun other listed => by simpa using not_mem_of_mem_clear admissible.sentinel listed
  unfold rewire
  split
  case h_1 next =>
    rw [next, List.filter_eq_nil_iff.mpr (fun other listed => by simpa using outside other listed)]
    rfl
  case h_2 target next =>
    have slot : kSentinelTxnId ∈ clear scc update.waitedBy :=
      sentinel_mem_clear (admissible.slot member inside update found)
    obtain ⟨filled, filledEq⟩ := Option.isSome_iff_exists.mp (fillSlot_isSome.mpr slot)
    have targetInside : target ∈ scc :=
      (mem_localMembers.mp ((nextLocal_eq_some_iff admissible.nodup).mp next).1).1
    rw [next, filledEq, Option.getD_some, filter_fillSlot _ filledEq outside]
    simp [targetInside]

end Chained

/-- On a component of two or more txns whose updates are admissible, `ResolveDeadlock` succeeds
and rewires the component into an ascending chain of its local members: each local member
points into the component only at the next larger local member, every slot that was neither
empty nor pointed into the component keeps its entry, the lists of other txns are untouched,
and each count gains one for the new edge into it (none for the smallest local member) and
loses the removed edges into it. -/
theorem resolveDeadlock_chains_component (scc : List TxnId) (updates : TxnId → Option TxnInfoUpdate)
    (toBeUpdated : List TxnId) (admissible : Admissible scc updates) (two : 2 ≤ scc.length) :
    ∃ result, resolveDeadlock scc updates toBeUpdated = .ok (result, toBeUpdated ++ (localMembers scc updates).reverse) ∧
      (∀ txn, updates txn = none → result txn = none) ∧
      ∀ txn update, updates txn = some update → ∃ after, result txn = some after ∧
        (txn ∈ scc → after.waitedBy.filter (· ∈ scc) = (nextLocal scc updates txn).toList) ∧
        (txn ∉ scc → after.waitedBy = update.waitedBy) ∧
        after.waitedBy.length = update.waitedBy.length ∧
        (∀ slot : Nat, after.waitedBy[slot]? = update.waitedBy[slot]? ∨
          ∃ other, update.waitedBy[slot]? = some other ∧ (other = kSentinelTxnId ∨ other ∈ scc)) ∧
        after.numWaitingFor = update.numWaitingFor +
          (if txn ∈ localMembers scc updates ∧ (localMembers scc updates).head? ≠ some txn then 1 else 0) -
          removedBy scc updates (localMembers scc updates) txn := by
  refine ⟨handled scc updates (localMembers scc updates).reverse, resolveDeadlock_eq admissible two,
    fun txn absent => by simp [handled, absent], fun txn update found => ?_⟩
  have count : ((localMembers scc updates).reverse.countP fun member => nextLocal scc updates member == some txn) =
      if txn ∈ localMembers scc updates ∧ (localMembers scc updates).head? ≠ some txn then 1 else 0 := by
    rw [List.countP_reverse, countP_nextLocal admissible.nodup]
  by_cases inside : txn ∈ scc
  · have member : txn ∈ (localMembers scc updates).reverse :=
      List.mem_reverse.mpr (mem_localMembers.mpr ⟨inside, by simp [found]⟩)
    have current : handled scc updates (localMembers scc updates).reverse txn = some
        { numWaitingFor := update.numWaitingFor + ((localMembers scc updates).reverse.countP fun member =>
              nextLocal scc updates member == some txn) - removedBy scc updates (localMembers scc updates).reverse txn
          waitedBy := rewire scc updates txn update.waitedBy } := by
      simp [handled, found, member]
    refine ⟨_, current, fun _ => filter_rewire admissible found inside, fun outside => absurd inside outside,
      length_rewire _, getElem?_rewire _, ?_⟩
    rw [count, removedBy_reverse]
    split_ifs <;> rfl
  · have member : txn ∉ (localMembers scc updates).reverse :=
      fun listed => inside (mem_localMembers.mp (List.mem_reverse.mp listed)).1
    have current : handled scc updates (localMembers scc updates).reverse txn = some
        { numWaitingFor := update.numWaitingFor + ((localMembers scc updates).reverse.countP fun member =>
              nextLocal scc updates member == some txn) - removedBy scc updates (localMembers scc updates).reverse txn
          waitedBy := update.waitedBy } := by
      simp [handled, found, member]
    refine ⟨_, current, fun within => absurd within inside, fun _ => rfl, rfl, fun _ => Or.inl rfl, ?_⟩
    rw [count, removedBy_reverse]
    split_ifs <;> rfl

/-- The updates rebuilt from the log are admissible for a component of distinct txns. -/
theorem admissible_foldl_reconstructLocalTxnInfo (entries : List LogEntry) {scc : List TxnId} (nodup : scc.Nodup)
    (sentinel : kSentinelTxnId ∉ scc) : Admissible scc (entries.foldl reconstructLocalTxnInfo fun _ => none) where
  nodup := nodup
  sentinel := sentinel
  slot _ _ update found := hasSlots_foldl_reconstructLocalTxnInfo entries _ update found
  closed _ _ update found other listed within :=
    waitersKnown_foldl_reconstructLocalTxnInfo entries _ update found other listed fun same => sentinel (same ▸ within)

/-- On the updates that `ReconstructLocalTxnInfo` builds from the log, `ResolveDeadlock` never fails
a check on a component of two or more distinct txns, and rewires it into an ascending chain of
its local members, with the counts and the other lists as `resolveDeadlock_chains_component` says. -/
theorem resolveDeadlock_rewires_logged (entries : List LogEntry) (updates : TxnId → Option TxnInfoUpdate)
    (built : entries.foldl reconstructLocalTxnInfo (fun _ => none) = updates) (scc toBeUpdated : List TxnId)
    (nodup : scc.Nodup) (sentinel : kSentinelTxnId ∉ scc) (two : 2 ≤ scc.length) :
    ∃ result, resolveDeadlock scc updates toBeUpdated = .ok (result, toBeUpdated ++ (localMembers scc updates).reverse) ∧
      (∀ txn, updates txn = none → result txn = none) ∧
      ∀ txn update, updates txn = some update → ∃ after, result txn = some after ∧
        (txn ∈ scc → after.waitedBy.filter (· ∈ scc) = (nextLocal scc updates txn).toList) ∧
        (txn ∉ scc → after.waitedBy = update.waitedBy) ∧
        after.waitedBy.length = update.waitedBy.length ∧
        (∀ slot : Nat, after.waitedBy[slot]? = update.waitedBy[slot]? ∨
          ∃ other, update.waitedBy[slot]? = some other ∧ (other = kSentinelTxnId ∨ other ∈ scc)) ∧
        after.numWaitingFor = update.numWaitingFor +
          (if txn ∈ localMembers scc updates ∧ (localMembers scc updates).head? ≠ some txn then 1 else 0) -
          removedBy scc updates (localMembers scc updates) txn := by
  subst built
  exact resolveDeadlock_chains_component scc _ toBeUpdated (admissible_foldl_reconstructLocalTxnInfo entries nodup sentinel)
    two

/-- The log of a deadlock of txns 1 and 2, each waiting for the other. -/
def cycleLog : List LogEntry := [⟨1, 1, true, [2]⟩, ⟨2, 1, true, [1]⟩]

theorem cycle_log_resolved : ([1, 2] : List TxnId).Nodup ∧ kSentinelTxnId ∉ ([1, 2] : List TxnId) ∧
    2 ≤ [1, 2].length ∧ ∃ result, resolveDeadlock [1, 2] (cycleLog.foldl reconstructLocalTxnInfo fun _ => none) [] =
      .ok (result, [2, 1]) := by
  obtain ⟨result, resolved, -⟩ := resolveDeadlock_rewires_logged cycleLog _ rfl [1, 2] [] (by decide) (by decide) (by decide)
  exact ⟨by decide, by decide, by decide, result, resolved⟩

end Slog.DDR
