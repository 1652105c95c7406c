/-
The lock-only txns a scheduler receives, as the sequencer and the batcher make them, and what the
abstract lock manager then accounts for.
-/

import Mathlib.Data.List.Flatten
import Slog.Common.ProtoUtils
import Slog.Scheduler.LockSpec

namespace Slog.Locking

open ReaderWriter

/-- A call the scheduler makes to its lock manager. -/
inductive LockCall where
  | acquireLocks (txn : Transaction)
  | releaseLocks (txnId : TxnId)
  deriving DecidableEq, Repr

def LockCall.delivery : LockCall → Option Transaction
  | .acquireLocks txn => some txn
  | .releaseLocks _ => none

/-- The lock-only txns among the calls, in order. -/
def deliveries (calls : List LockCall) : List Transaction := calls.filterMap LockCall.delivery

@[simp] theorem deliveries_nil : deliveries [] = [] := rfl

@[simp] theorem deliveries_acquireLocks (txn : Transaction) (calls : List LockCall) :
    deliveries (.acquireLocks txn :: calls) = txn :: deliveries calls := rfl

@[simp] theorem deliveries_releaseLocks (txnId : TxnId) (calls : List LockCall) :
    deliveries (.releaseLocks txnId :: calls) = deliveries calls := rfl

/-- The lock-only txns of one txn. -/
def ofTxn (txns : List Transaction) (txnId : TxnId) : List Transaction :=
  txns.filter (·.internal.id = txnId)

/-- The lock requests the lock-only txns of one txn make together. -/
def arrivedCount (txns : List Transaction) (txnId : TxnId) : Nat :=
  ((ofTxn txns txnId).map fun txn => (requests txn).length).sum

/-- The lock requests the lock-only txns make on one key-region, in arrival order. -/
def arrivals (txns : List Transaction) (keyRegion : KeyRegion) : List (TxnId × Bool) :=
  txns.flatMap fun txn =>
    ((requests txn).filter (·.1 = keyRegion)).map fun request => (txn.internal.id, request.2)

/-- Lock-only txns as the sequencer and the batcher deliver them to one partition. -/
structure Deliveries (txns : List Transaction) : Prop where
  notSentinel : ∀ txn ∈ txns, txn.internal.id ≠ kSentinelTxnId
  distinctKeys : ∀ txn ∈ txns, (txn.keys.map KeyValueEntry.key).Nodup
  locks : ∀ txn ∈ txns, requests txn ≠ []
  sameTxn : ∀ txn ∈ txns, ∀ txn' ∈ txns, txn.internal.id = txn'.internal.id →
    txn.keys = txn'.keys ∧ txn.isRemaster = txn'.isRemaster
  homes : ∀ txnId, ((ofTxn txns txnId).map (·.internal.home)).Nodup
  remaster : ∀ txn ∈ txns, txn.isRemaster = true →
    txn.keys.length = 1 ∧ (ofTxn txns txn.internal.id).length ≤ 2

/-- Every lock request of a lock-only txn is on a key-region of its home. -/
theorem home_of_mem_requests {txn : Transaction} {request : KeyRegion × Bool}
    (member : request ∈ requests txn) : request.1.2 = txn.internal.home := by
  obtain ⟨_, _, rfl⟩ := List.mem_map.mp member
  rfl

/-- A lock-only txn over distinct keys asks each of its key-regions once. -/
theorem nodup_requests {txn : Transaction} (distinct : (txn.keys.map KeyValueEntry.key).Nodup) :
    ((requests txn).map Prod.fst).Nodup := by
  have relevant : ((txn.keys.filter txn.isRelevant).map KeyValueEntry.key).Nodup :=
    distinct.sublist (List.Sublist.map _ List.filter_sublist)
  have regions : (requests txn).map Prod.fst =
      ((txn.keys.filter txn.isRelevant).map KeyValueEntry.key).map fun key => (key, txn.internal.home) := by
    simp [requests, keyRequest, makeKeyRegion]
  rw [regions]
  exact relevant.map fun _ _ same => congrArg Prod.fst same

@[simp] theorem ofTxn_append (txns txns' : List Transaction) (txnId : TxnId) :
    ofTxn (txns ++ txns') txnId = ofTxn txns txnId ++ ofTxn txns' txnId := by
  simp [ofTxn]

theorem arrivedCount_append (txns txns' : List Transaction) (txnId : TxnId) :
    arrivedCount (txns ++ txns') txnId = arrivedCount txns txnId + arrivedCount txns' txnId := by
  simp [arrivedCount]

theorem arrivedCount_singleton_of_ne {txn : Transaction} {txnId : TxnId}
    (different : txn.internal.id ≠ txnId) : arrivedCount [txn] txnId = 0 := by
  simp [arrivedCount, ofTxn, different]

theorem arrivedCount_singleton (txn : Transaction) :
    arrivedCount [txn] txn.internal.id = (requests txn).length := by
  simp [arrivedCount, ofTxn]

/-- What a txn's lock-only txns ask before one of them and with it, it needs. -/
theorem arrivedCount_prefix (txns : List Transaction) (txn : Transaction) (rest : List Transaction) :
    arrivedCount txns txn.internal.id + (requests txn).length ≤
      arrivedCount (txns ++ txn :: rest) txn.internal.id := by
  rw [← List.singleton_append, arrivedCount_append, arrivedCount_append, arrivedCount_singleton]
  omega

/-- Fewer lock-only txns make fewer lock requests. -/
theorem arrivedCount_le_of_sublist {txns txns' : List Transaction} (sub : txns.Sublist txns') (txnId : TxnId) :
    arrivedCount txns txnId ≤ arrivedCount txns' txnId := by
  have split : ∀ txn rest, arrivedCount (txn :: rest) txnId = arrivedCount [txn] txnId + arrivedCount rest txnId :=
    fun txn rest => arrivedCount_append [txn] rest txnId
  induction sub with
  | slnil => exact le_refl _
  | @cons _ later txn _ ih =>
      rw [split txn later]
      omega
  | @cons_cons earlier later txn _ ih =>
      rw [split txn earlier, split txn later]
      omega

section Arrivals

variable {txns txns' : List Transaction} {keyRegion : KeyRegion}

@[simp] theorem arrivals_nil : arrivals [] keyRegion = [] := rfl

theorem arrivals_append : arrivals (txns ++ txns') keyRegion = arrivals txns keyRegion ++ arrivals txns' keyRegion := by
  simp [arrivals]

theorem arrivals_singleton (txn : Transaction) : arrivals [txn] keyRegion =
    ((requests txn).filter (·.1 = keyRegion)).map fun request => (txn.internal.id, request.2) := by
  simp [arrivals]

theorem mem_arrivals {owner : TxnId} {write : Bool} : (owner, write) ∈ arrivals txns keyRegion ↔
    ∃ txn ∈ txns, txn.internal.id = owner ∧ (keyRegion, write) ∈ requests txn := by
  simp only [arrivals, List.mem_flatMap, List.mem_map, List.mem_filter, Prod.mk.injEq, decide_eq_true_eq]
  constructor
  · rintro ⟨txn, listed, request, ⟨asked, rfl⟩, named, rfl⟩
    exact ⟨txn, listed, named, asked⟩
  · rintro ⟨txn, listed, named, asked⟩
    exact ⟨txn, listed, (keyRegion, write), ⟨asked, rfl⟩, named, rfl⟩

/-- Leaving out the lock-only txns of one txn leaves out its requests. -/
theorem arrivals_filter (txnId : TxnId) :
    arrivals (txns.filter (·.internal.id ≠ txnId)) keyRegion = (arrivals txns keyRegion).filter (·.1 ≠ txnId) := by
  induction txns with
  | nil => rfl
  | cons txn txns ih =>
      rw [← List.singleton_append, List.filter_append, arrivals_append, arrivals_append, List.filter_append, ih]
      congr 1
      have owned : ∀ request ∈ arrivals [txn] keyRegion, request.1 = txn.internal.id := by
        intro request member
        rw [arrivals_singleton] at member
        obtain ⟨_, _, rfl⟩ := List.mem_map.mp member
        rfl
      by_cases same : txn.internal.id = txnId
      · have gone : (arrivals [txn] keyRegion).filter (·.1 ≠ txnId) = [] :=
          List.filter_eq_nil_iff.mpr fun request member => by simp [owned request member, same]
        rw [gone]
        simp [same]
      · have kept : (arrivals [txn] keyRegion).filter (·.1 ≠ txnId) = arrivals [txn] keyRegion :=
          List.filter_eq_self.mpr fun request member => by simp [owned request member, same]
        rw [kept]
        simp [same]

theorem arrivals_sublist (sub : txns.Sublist txns') : (arrivals txns keyRegion).Sublist (arrivals txns' keyRegion) :=
  sub.flatMap _

end Arrivals

/-- The requests of a lock-only txn that is not a remaster txn: its keys homed at its home. -/
theorem length_requests_of_not_remaster {txn : Transaction} (notRemaster : txn.isRemaster = false) :
    (requests txn).length =
      (txn.keys.filter fun kv => (kv.valueEntry.master : Int) = txn.internal.home).length := by
  rw [requests, List.length_map]
  congr 1
  apply List.filter_congr
  intro kv _
  simp [Transaction.isRelevant, notRemaster]

/-- A remaster txn asks every key. -/
theorem length_requests_of_remaster {txn : Transaction} (remaster : txn.isRemaster = true) :
    (requests txn).length = txn.keys.length := by
  simp [requests, Transaction.isRelevant, remaster]

/-- No txn gets more lock requests than it needs: its lock-only txns lock the keys homed at
distinct regions, or, for a remaster txn, its one key at two regions at most. -/
theorem Deliveries.arrivedCount_le {txns : List Transaction} (delivered : Deliveries txns)
    {txn : Transaction} (member : txn ∈ txns) :
    (arrivedCount txns txn.internal.id : Int) ≤ txn.numRequiredLocks := by
  have same : ∀ other ∈ ofTxn txns txn.internal.id, other.keys = txn.keys ∧ other.isRemaster = txn.isRemaster := by
    intro other chosen
    obtain ⟨inTxns, named⟩ := List.mem_filter.mp chosen
    exact delivered.sameTxn other inTxns txn member (by simpa using named)
  cases remaster : txn.isRemaster with
  | true =>
      obtain ⟨oneKey, twoRegions⟩ := delivered.remaster txn member remaster
      have each : ((ofTxn txns txn.internal.id).map fun other => (requests other).length) =
          (ofTxn txns txn.internal.id).map fun _ => 1 := by
        apply List.map_congr_left
        intro other chosen
        have otherRemaster : other.isRemaster = true := by
          rw [(same other chosen).2, remaster]
        rw [length_requests_of_remaster otherRemaster, (same other chosen).1, oneKey]
      have ones : ∀ group : List Transaction, (group.map fun _ => (1 : Nat)).sum = group.length := by
        intro group
        induction group with
        | nil => rfl
        | cons _ _ ih =>
            simp only [List.map_cons, List.sum_cons, ih, List.length_cons]
            omega
      rw [arrivedCount, each, ones]
      simp only [Transaction.numRequiredLocks, remaster, if_true]
      omega
  | false =>
      have each : ((ofTxn txns txn.internal.id).map fun other => (requests other).length) =
          ((ofTxn txns txn.internal.id).map (·.internal.home)).map fun home =>
            (txn.keys.filter fun kv => (kv.valueEntry.master : Int) = home).length := by
        rw [List.map_map]
        apply List.map_congr_left
        intro other chosen
        have otherRemaster : other.isRemaster = false := by
          rw [(same other chosen).2, remaster]
        rw [length_requests_of_not_remaster otherRemaster, (same other chosen).1]
        rfl
      rw [arrivedCount, each, sum_length_filter_homes _ _ (delivered.homes txn.internal.id)]
      simp only [Transaction.numRequiredLocks, remaster, Bool.false_eq_true, if_false]
      exact_mod_cast List.length_filter_le _ _

/-- Two lock-only txns of one txn come from different regions. -/
theorem Deliveries.home_ne {delivered rest : List Transaction} {txn earlier : Transaction}
    (wf : Deliveries (delivered ++ txn :: rest)) (before : earlier ∈ delivered)
    (same : earlier.internal.id = txn.internal.id) : earlier.internal.home ≠ txn.internal.home := by
  have distinct := wf.homes txn.internal.id
  have split : ofTxn (txn :: rest) txn.internal.id = txn :: ofTxn rest txn.internal.id := by
    simp [ofTxn]
  rw [ofTxn_append, split, List.map_append, List.map_cons] at distinct
  have listed : earlier.internal.home ∈ (ofTxn delivered txn.internal.id).map (·.internal.home) :=
    List.mem_map_of_mem (List.mem_filter.mpr ⟨before, by simpa using same⟩)
  intro sameHome
  rw [sameHome] at listed
  exact List.disjoint_of_nodup_append distinct listed List.mem_cons_self

/-- Lock-only txns that differ in their txn or their home come from distinct regions per txn. -/
theorem nodup_homes_of_nodup {txns : List Transaction}
    (distinct : (txns.map fun txn => (txn.internal.id, txn.internal.home)).Nodup) (txnId : TxnId) :
    ((ofTxn txns txnId).map (·.internal.home)).Nodup := by
  have chosen : ((ofTxn txns txnId).map fun txn => (txn.internal.id, txn.internal.home)).Nodup :=
    distinct.sublist (List.filter_sublist.map _)
  have named : ((ofTxn txns txnId).map fun txn => (txn.internal.id, txn.internal.home)) =
      ((ofTxn txns txnId).map (·.internal.home)).map fun home => (txnId, home) := by
    rw [List.map_map]
    apply List.map_congr_left
    intro txn member
    simp [of_decide_eq_true (List.mem_filter.mp member).2]
  rw [named] at chosen
  exact chosen.of_map _

/-- Fewer lock-only txns, in the same order, are still delivered as the sequencer delivers them. -/
theorem Deliveries.sublist {txns txns' : List Transaction} (delivered : Deliveries txns)
    (sub : txns'.Sublist txns) : Deliveries txns' where
  notSentinel txn member := delivered.notSentinel txn (sub.subset member)
  distinctKeys txn member := delivered.distinctKeys txn (sub.subset member)
  locks txn member := delivered.locks txn (sub.subset member)
  sameTxn txn member txn' member' := delivered.sameTxn txn (sub.subset member) txn' (sub.subset member')
  homes txnId := (delivered.homes txnId).sublist ((sub.filter _).map _)
  remaster txn member remaster := by
    obtain ⟨oneKey, twoRegions⟩ := delivered.remaster txn (sub.subset member) remaster
    exact ⟨oneKey, le_trans (sub.filter _).length_le twoRegions⟩

/-- A txn asks a key-region once over all its lock-only txns: they come from distinct regions,
and a key-region names its region. -/
theorem Deliveries.nodup_arrivals {txns : List Transaction} (delivered : Deliveries txns)
    (keyRegion : KeyRegion) : ((arrivals txns keyRegion).map Prod.fst).Nodup := by
  induction txns with
  | nil => simp
  | cons txn txns ih =>
      rw [← List.singleton_append, arrivals_append, List.map_append, List.nodup_append]
      refine ⟨?_, ih (delivered.sublist (List.sublist_cons_self txn txns)), ?_⟩
      · -- one lock-only txn asks the key-region once
        have single := length_filter_requests_le (nodup_requests (delivered.distinctKeys txn List.mem_cons_self))
          keyRegion
        rw [arrivals_singleton]
        generalize (requests txn).filter (·.1 = keyRegion) = filtered at single ⊢
        match filtered, single with
        | [], _ => simp
        | [_], _ => simp
        | _ :: _ :: _, tooLong => simp at tooLong
      · -- a later lock-only txn of the txn that asks the key-region has the same home
        rintro _ first _ later same
        obtain ⟨⟨owner, write⟩, member, rfl⟩ := List.mem_map.mp first
        obtain ⟨⟨owner', write'⟩, member', rfl⟩ := List.mem_map.mp later
        obtain ⟨self, listed, named, asked⟩ := mem_arrivals.mp member
        obtain ⟨other, listed', named', asked'⟩ := mem_arrivals.mp member'
        rw [List.mem_singleton] at listed
        subst listed
        have homes := delivered.homes self.internal.id
        simp only [ofTxn, List.filter_cons, decide_true, if_true, List.map_cons, List.nodup_cons] at homes
        apply homes.1
        have sameHome : other.internal.home = self.internal.home := by
          rw [← home_of_mem_requests asked', home_of_mem_requests asked]
        have sameId : other.internal.id = self.internal.id := by
          simp only at same
          rw [named', named, same]
        exact List.mem_map.mpr ⟨other, List.mem_filter.mpr ⟨listed', by simp [sameId]⟩, sameHome⟩

/-- How the abstract lock manager stands to the lock-only txns it counts: the history of each
key-region is their requests in arrival order, a known txn waits for the requests its counted
lock-only txns did not make, and an unknown txn that did not release has none counted. -/
structure Ledger (spec : LockSpec) (delivered : List Transaction) : Prop where
  history : ∀ keyRegion, spec.history keyRegion = arrivals delivered keyRegion
  waiting : ∀ txnId count, spec.unarrived txnId = some count → ∃ txn ∈ delivered,
    txn.internal.id = txnId ∧ count = txn.numRequiredLocks - arrivedCount delivered txnId
  unknown : ∀ txnId, spec.unarrived txnId = none → spec.released txnId = false →
    ofTxn delivered txnId = []

/-- The ledger of the lock-only txns delivered so far while only ready txns release: a released
txn got all its requests. -/
structure Accounts (spec : LockSpec) (delivered : List Transaction) : Prop extends Ledger spec delivered where
  complete : ∀ txnId, spec.released txnId = true → ∃ txn ∈ delivered,
    txn.internal.id = txnId ∧ (arrivedCount delivered txnId : Int) = txn.numRequiredLocks

theorem ledger_init : Ledger LockSpec.init [] where
  history keyRegion := rfl
  waiting txnId count found := by simp [LockSpec.init] at found
  unknown txnId _ _ := rfl

theorem accounts_init : Accounts LockSpec.init [] where
  toLedger := ledger_init
  complete txnId released := by simp [LockSpec.init] at released

/-- Leaving out the lock-only txns of one txn. -/
theorem ofTxn_filter (txns : List Transaction) (txnId other : TxnId) :
    ofTxn (txns.filter (·.internal.id ≠ txnId)) other = if other = txnId then [] else ofTxn txns other := by
  unfold ofTxn
  rw [List.filter_filter]
  split
  · rename_i same
    subst same
    exact List.filter_eq_nil_iff.mpr fun txn _ => by simp
  · rename_i different
    apply List.filter_congr
    intro txn _
    by_cases named : txn.internal.id = other
    · simp [named, different]
    · simp [named]

theorem arrivedCount_filter_of_ne {txns : List Transaction} {txnId other : TxnId} (different : other ≠ txnId) :
    arrivedCount (txns.filter (·.internal.id ≠ txnId)) other = arrivedCount txns other := by
  simp only [arrivedCount, ofTxn_filter, if_neg different]

/-- What a txn's lock-only txns asked before a new one, and what the new one asks, stays within
what the txn needs. -/
theorem Deliveries.arrivedCount_add_le {delivered rest : List Transaction} {txn : Transaction}
    (wf : Deliveries (delivered ++ txn :: rest)) {other : Transaction} (listed : other ∈ delivered ++ txn :: rest)
    (same : other.internal.id = txn.internal.id) :
    (arrivedCount delivered txn.internal.id + (requests txn).length : Int) ≤ other.numRequiredLocks := by
  have bound := wf.arrivedCount_le listed
  rw [same] at bound
  have counted := arrivedCount_prefix delivered txn rest
  omega

section Ledger

variable {spec : LockSpec} {delivered : List Transaction} {txn : Transaction} {txnId : TxnId}

theorem Ledger.acquire (ledger : Ledger spec delivered)
    (notReleased : spec.released txn.internal.id = false) :
    Ledger (spec.acquire txn) (delivered ++ [txn]) where
  history keyRegion := by
    rw [acquire_history, ledger.history, arrivals_append, arrivals_singleton]
  waiting other count found := by
    rw [acquire_unarrived] at found
    split at found
    · -- the arriving txn counts its new requests off what it waited for
      rename_i self
      subst self
      simp only [Option.some.injEq] at found
      rw [arrivedCount_append, arrivedCount_singleton]
      cases known : spec.unarrived txn.internal.id with
      | none =>
          have none := ledger.unknown _ known notReleased
          rw [known, Option.getD_none] at found
          refine ⟨txn, by simp, rfl, ?_⟩
          simp [arrivedCount, none, found]
      | some waited =>
          obtain ⟨earlier, before, named, counted⟩ := ledger.waiting _ _ known
          rw [known, Option.getD_some] at found
          refine ⟨earlier, List.mem_append_left _ before, named, ?_⟩
          push_cast
          omega
    · rename_i different
      obtain ⟨earlier, before, named, counted⟩ := ledger.waiting other count found
      refine ⟨earlier, List.mem_append_left _ before, named, ?_⟩
      rw [arrivedCount_append, arrivedCount_singleton_of_ne (Ne.symm different), Nat.add_zero]
      exact counted
  unknown other absent notReleased' := by
    rw [acquire_unarrived] at absent
    split at absent
    · simp at absent
    · rename_i different
      rw [ofTxn_append, ledger.unknown other absent notReleased']
      simp [ofTxn, Ne.symm different]

/-- Releasing any txn keeps the ledger: the txn is no longer known, and it released. -/
theorem Ledger.release (ledger : Ledger spec delivered) (txnId : TxnId) :
    Ledger (spec.release txnId) delivered where
  history := ledger.history
  waiting other count found := by
    rw [release_unarrived] at found
    split at found
    · simp at found
    · exact ledger.waiting other count found
  unknown other absent notReleased := by
    rw [release_released, Bool.or_eq_false_iff] at notReleased
    have different : other ≠ txnId := by simpa using notReleased.1
    rw [release_unarrived, if_neg different] at absent
    exact ledger.unknown other absent notReleased.2

/-- Forgetting any txn keeps the ledger of the lock-only txns of the other txns. -/
theorem Ledger.forget (ledger : Ledger spec delivered) (txnId : TxnId) :
    Ledger (spec.forget txnId) (delivered.filter (·.internal.id ≠ txnId)) where
  history keyRegion := by
    rw [forget_history, ledger.history, arrivals_filter]
  waiting other count found := by
    rw [forget_unarrived] at found
    split at found
    · simp at found
    · rename_i different
      obtain ⟨earlier, before, named, counted⟩ := ledger.waiting other count found
      refine ⟨earlier, List.mem_filter.mpr ⟨before, by simpa [named] using different⟩, named, ?_⟩
      rw [arrivedCount_filter_of_ne different]
      exact counted
  unknown other absent notReleased := by
    rw [ofTxn_filter]
    split
    · rfl
    · rename_i different
      rw [forget_unarrived, if_neg different] at absent
      exact ledger.unknown other absent notReleased

/-- Over such deliveries, a lock-only txn of a txn that has not released is fresh for the abstract
lock manager when it arrives. -/
theorem Ledger.fresh {rest : List Transaction} (ledger : Ledger spec delivered)
    (wf : Deliveries (delivered ++ txn :: rest)) (notReleased : spec.released txn.internal.id = false) :
    spec.Fresh txn := by
  have member : txn ∈ delivered ++ txn :: rest := by simp
  refine ⟨notReleased, nodup_requests (wf.distinctKeys txn member), ?_, wf.notSentinel txn member, ?_⟩
  · -- an earlier request of the txn on the same key-region came from the same home
    intro request asked earlier inHistory same
    rw [ledger.history] at inHistory
    obtain ⟨other, before, named, earlierAsked⟩ := mem_arrivals.mp (inHistory : (earlier.1, earlier.2) ∈ _)
    have sameHome : other.internal.home = txn.internal.home := by
      rw [← home_of_mem_requests earlierAsked, home_of_mem_requests asked]
    exact wf.home_ne before (named.trans same) sameHome
  · cases known : spec.unarrived txn.internal.id with
    | none =>
        have none := ledger.unknown _ known notReleased
        have bound := wf.arrivedCount_add_le member rfl
        have nothing : arrivedCount delivered txn.internal.id = 0 := by simp [arrivedCount, none]
        rw [Option.getD_none]
        omega
    | some waited =>
        obtain ⟨earlier, before, named, counted⟩ := ledger.waiting _ _ known
        have bound := wf.arrivedCount_add_le (List.mem_append_left _ before) named
        rw [Option.getD_some]
        omega

end Ledger

section Accounts

variable {spec : LockSpec} {delivered : List Transaction} {txn : Transaction} {txnId : TxnId}

theorem Accounts.acquire (accounts : Accounts spec delivered)
    (notReleased : spec.released txn.internal.id = false) :
    Accounts (spec.acquire txn) (delivered ++ [txn]) where
  toLedger := accounts.toLedger.acquire notReleased
  complete other released := by
    have different : other ≠ txn.internal.id := by
      rintro rfl
      simp [notReleased] at released
    obtain ⟨earlier, before, named, all⟩ := accounts.complete other released
    refine ⟨earlier, List.mem_append_left _ before, named, ?_⟩
    rw [arrivedCount_append, arrivedCount_singleton_of_ne (Ne.symm different), Nat.add_zero]
    exact all

/-- A ready txn got all its requests, so it stays accounted for once released. -/
theorem Accounts.release (accounts : Accounts spec delivered) (ready : spec.Ready txnId) :
    Accounts (spec.release txnId) delivered where
  toLedger := accounts.toLedger.release txnId
  complete other released := by
    rw [release_released] at released
    by_cases same : other = txnId
    · subst same
      obtain ⟨earlier, before, named, counted⟩ := accounts.waiting other 0 ready.1
      exact ⟨earlier, before, named, by omega⟩
    · exact accounts.complete other (by simpa [same] using released)

/-- Over such deliveries, every lock-only txn is fresh for the abstract lock manager when it
arrives: a txn that released got all its requests, so none of its lock-only txns is still to
come. -/
theorem Accounts.fresh {rest : List Transaction} (accounts : Accounts spec delivered)
    (wf : Deliveries (delivered ++ txn :: rest)) : spec.Fresh txn := by
  have positive : 0 < (requests txn).length := List.length_pos_iff.mpr (wf.locks txn (by simp))
  have notReleased : spec.released txn.internal.id = false := by
    cases released : spec.released txn.internal.id with
    | false => rfl
    | true =>
        obtain ⟨earlier, before, named, all⟩ := accounts.complete _ released
        have bound := wf.arrivedCount_add_le (List.mem_append_left _ before) named
        omega
  exact accounts.toLedger.fresh wf notReleased

end Accounts

end Slog.Locking
