/-
The scheduler's record of a txn (`scheduler_components/txn_holder.cpp`), as
`Scheduler::ProcessTransaction` and `Scheduler::OnCustomSocket` keep it.
-/

import Slog.Sequencer.Batcher

namespace Slog

/-- The fields of `TxnHolder` that the arrival of lock-only txns and garbage collection read;
`lo_txns_` has one slot per region. -/
structure TxnHolder where
  txnId : TxnId
  mainTxnIdx : Int
  loTxns : List (Option Transaction)
  done : Bool
  numLoTxns : Int
  expectedNumLoTxns : Int
  deriving DecidableEq, Repr

/-- `TxnHolder::TxnHolder`: the holder made from the first lock-only txn to arrive. -/
def TxnHolder.new (numRegions : Nat) (txn : Transaction) : TxnHolder where
  txnId := txn.internal.id
  mainTxnIdx := txn.internal.home
  loTxns := (List.replicate numRegions none).set txn.internal.home.toNat (some txn)
  done := false
  numLoTxns := 1
  expectedNumLoTxns := txn.internal.involvedRegions.length

/-- `TxnHolder::AddLockOnlyTxn`: a lock-only txn whose home slot is taken is refused. -/
def TxnHolder.addLockOnlyTxn (holder : TxnHolder) (txn : Transaction) : Except String (Bool × TxnHolder) :=
  let home := txn.internal.home
  if ¬home < holder.loTxns.length then .error "Check failed: home < static_cast<int>(lo_txns_.size())" else
  if (holder.loTxns.getD home.toNat none).isSome then .ok (false, holder) else
  .ok (true, { holder with loTxns := holder.loTxns.set home.toNat (some txn), numLoTxns := holder.numLoTxns + 1 })

def TxnHolder.setDone (holder : TxnHolder) : TxnHolder := { holder with done := true }

def TxnHolder.isReadyForGc (holder : TxnHolder) : Bool :=
  holder.done && holder.numLoTxns == holder.expectedNumLoTxns

/-- `Scheduler::ProcessTransaction` on the holder of the txn: `try_emplace` makes it from the
first lock-only txn, and each later one is added to it; one refused leaves it as it was. -/
def processTransaction (numRegions : Nat) : Option TxnHolder → Transaction → Except String TxnHolder
  | none, txn => .ok (TxnHolder.new numRegions txn)
  | some holder, txn => (holder.addLockOnlyTxn txn).map Prod.snd

/-- The holder after lock-only txns of the txn arrive one after another. -/
def processTransactions (numRegions : Nat) (holder : Option TxnHolder) :
    List Transaction → Except String (Option TxnHolder)
  | [] => .ok holder
  | txn :: rest => do
      let holder ← processTransaction numRegions holder txn
      processTransactions numRegions (some holder) rest

/-- `Scheduler::OnCustomSocket` once the txn's worker is done: the holder is marked done and
erased from `active_txns_` when it is ready for garbage collection. -/
def finishTxn (holder : TxnHolder) : Option TxnHolder :=
  let holder := holder.setDone
  if holder.isReadyForGc then none else some holder

section Arrival

variable {numRegions : Nat} {arrived : List Transaction} {expected : Int} {holder : TxnHolder}
  {txn : Transaction}

theorem getD_set_of_lt {α : Type} {slots : List (Option α)} {index : Nat} (value : Option α)
    (within : index < slots.length) (region : Nat) :
    (slots.set index value).getD region none = if index = region then value else slots.getD region none := by
  simp only [List.getD_eq_getElem?_getD, List.getElem?_set]
  split_ifs <;> simp_all

/-- A holder after lock-only txns of one txn arrived at distinct homes: one slot per region, the
slots of their homes filled, each of them counted, and the count the first one set expected. -/
structure TxnHolder.Holds (numRegions : Nat) (arrived : List Transaction) (expected : Int)
    (holder : TxnHolder) : Prop where
  slots : holder.loTxns.length = numRegions
  filled : ∀ region : Nat, (holder.loTxns.getD region none).isSome ↔
    ∃ txn ∈ arrived, txn.internal.home = region
  count : holder.numLoTxns = arrived.length
  expects : holder.expectedNumLoTxns = expected

/-- A home that names a slot of the holder. -/
def InRange (numRegions : Nat) (txn : Transaction) : Prop :=
  0 ≤ txn.internal.home ∧ txn.internal.home < numRegions

theorem TxnHolder.holds_new (range : InRange numRegions txn) :
    (TxnHolder.new numRegions txn).Holds numRegions [txn] txn.internal.involvedRegions.length where
  slots := by simp [TxnHolder.new]
  filled region := by
    have ⟨nonnegative, below⟩ := range
    rw [TxnHolder.new, getD_set_of_lt _ (by simp; omega)]
    by_cases same : txn.internal.home.toNat = region
    · simp only [same, if_true, Option.isSome_some, true_iff]
      exact ⟨txn, List.mem_singleton_self _, by omega⟩
    · -- every other slot is still empty
      simp only [same, if_false, List.mem_singleton, exists_eq_left, List.getD_eq_getElem?_getD,
        List.getElem?_replicate]
      split_ifs <;> simp <;> omega
  count := rfl
  expects := rfl

/-- A lock-only txn at a home no earlier one had is added, and the holder keeps its shape. -/
theorem TxnHolder.Holds.addLockOnlyTxn (holds : holder.Holds numRegions arrived expected)
    (range : InRange numRegions txn) (fresh : ∀ other ∈ arrived, other.internal.home ≠ txn.internal.home) :
    ∃ holder', holder.addLockOnlyTxn txn = .ok (true, holder') ∧
      holder'.Holds numRegions (arrived ++ [txn]) expected := by
  have ⟨nonnegative, below⟩ := range
  have within : txn.internal.home.toNat < holder.loTxns.length := by
    rw [holds.slots]
    omega
  have empty : (holder.loTxns.getD txn.internal.home.toNat none).isSome = false := by
    cases slot : (holder.loTxns.getD txn.internal.home.toNat none).isSome
    · rfl
    · obtain ⟨other, member, home⟩ := ((holds.filled _).mp slot)
      exact absurd (by omega) (fresh other member)
  refine ⟨{ holder with
      loTxns := holder.loTxns.set txn.internal.home.toNat (some txn)
      numLoTxns := holder.numLoTxns + 1 }, ?_, ?_⟩
  · rw [TxnHolder.addLockOnlyTxn, if_neg (by omega), if_neg (by rw [empty]; exact Bool.false_ne_true)]
  · constructor
    · simp [holds.slots]
    · intro region
      rw [getD_set_of_lt _ within]
      by_cases same : txn.internal.home.toNat = region
      · simp only [same, if_true, Option.isSome_some, true_iff]
        exact ⟨txn, List.mem_append_right _ (List.mem_singleton_self _), by omega⟩
      · rw [if_neg same, holds.filled]
        simp only [List.mem_append, List.mem_singleton]
        constructor
        · rintro ⟨other, member, home⟩
          exact ⟨other, Or.inl member, home⟩
        · rintro ⟨other, member | rfl, home⟩
          · exact ⟨other, member, home⟩
          · omega
    · simp [holds.count]
    · exact holds.expects

/-- Lock-only txns arriving at homes distinct from each other and from the earlier ones are all
added. -/
theorem TxnHolder.Holds.processTransactions (holds : holder.Holds numRegions arrived expected)
    (rest : List Transaction) (distinct : ((arrived ++ rest).map (·.internal.home)).Nodup)
    (range : ∀ txn ∈ rest, InRange numRegions txn) :
    ∃ holder', processTransactions numRegions (some holder) rest = .ok (some holder') ∧
      holder'.Holds numRegions (arrived ++ rest) expected := by
  induction rest generalizing arrived holder with
  | nil => exact ⟨holder, rfl, by simpa using holds⟩
  | cons txn rest ih =>
      have fresh : ∀ other ∈ arrived, other.internal.home ≠ txn.internal.home := by
        rw [List.map_append, List.nodup_append] at distinct
        exact fun other member => distinct.2.2 _ (List.mem_map_of_mem member) _
          (List.mem_map_of_mem List.mem_cons_self)
      obtain ⟨added, add, holdsAdded⟩ := holds.addLockOnlyTxn (range txn List.mem_cons_self) fresh
      obtain ⟨final, run, holdsFinal⟩ := ih holdsAdded (by simpa using distinct)
        fun other member => range other (List.mem_cons_of_mem _ member)
      refine ⟨final, ?_, by simpa using holdsFinal⟩
      rw [Slog.processTransactions, processTransaction, add]
      exact run

/-- When the lock-only txns of a txn arrive at distinct homes, the holder made from the first is
erased once the txn is done exactly when that first one expected all of them. -/
theorem processTransactions_finishTxn {first : Transaction} {rest : List Transaction}
    (distinct : ((first :: rest).map (·.internal.home)).Nodup)
    (range : ∀ txn ∈ first :: rest, InRange numRegions txn) :
    ∃ holder, processTransactions numRegions none (first :: rest) = .ok (some holder) ∧
      (finishTxn holder = none ↔ first.internal.involvedRegions.length = rest.length + 1) := by
  obtain ⟨holder, run, holds⟩ := (TxnHolder.holds_new (range first List.mem_cons_self)).processTransactions
    rest (by simpa using distinct) fun txn member => range txn (List.mem_cons_of_mem _ member)
  refine ⟨holder, run, ?_⟩
  simp only [finishTxn, TxnHolder.setDone, TxnHolder.isReadyForGc, holds.count, holds.expects]
  split <;> simp_all <;> omega

end Arrival

section Collection

variable {numRegions numPartitions : Nat} {partitionOf : Key → Nat} {txn : Transaction} {partition : Nat}
  {arrivals : List Transaction}

/-- A txn that does not remaster leaves no holder behind at a partition it involves: in whatever
order its lock-only txns arrive there, its holder is erased once it is done. -/
theorem holder_collected (client : ClientTxn numPartitions partitionOf txn)
    (notRemaster : txn.isRemaster = false)
    (involved : partition ∈ (forwardTxn numPartitions partitionOf txn).internal.involvedPartitions)
    (regions : ∀ kv ∈ txn.keys, kv.valueEntry.master < numRegions)
    (order : arrivals.Perm (lockOnlyTxnsAt partitionOf partition (forwardTxn numPartitions partitionOf txn))) :
    ∃ holder, processTransactions numRegions none arrivals = .ok (some holder) ∧ finishTxn holder = none := by
  obtain ⟨distinct, covered⟩ := client.homes_lockOnlyTxnsAt involved notRemaster
  have nonempty : arrivals ≠ [] := by
    obtain ⟨kv, member⟩ := List.exists_mem_of_ne_nil _ (client.keysOn_ne_nil involved)
    obtain ⟨sub, reaching, _⟩ := List.mem_map.mp (covered kv member)
    exact List.ne_nil_of_mem (order.symm.subset reaching)
  obtain ⟨first, rest, rfl⟩ := List.exists_cons_of_ne_nil nonempty
  have range : ∀ lot ∈ first :: rest, InRange numRegions lot := by
    intro lot member
    obtain ⟨kv, chosen, home⟩ := client.home_of_mem_lockOnlyTxnsAt involved notRemaster (order.subset member)
    have below := regions kv (List.mem_filter.mp chosen).1
    constructor <;> omega
  obtain ⟨holder, run, collected⟩ := processTransactions_finishTxn ((order.map _).nodup_iff.mpr distinct) range
  refine ⟨holder, run, collected.mpr ?_⟩
  rw [(client.involvedRegions_perm involved notRemaster (order.subset List.mem_cons_self)).length_eq,
    ← length_lockOnlyTxnsAt client.nodup_involvedPartitions involved, ← order.length_eq, List.length_cons]

theorem twoRegionTxn_holder_collected : ClientTxn 1 (fun _ => 0) twoRegionTxn ∧
    twoRegionTxn.isRemaster = false ∧ 0 ∈ (forwardTxn 1 (fun _ => 0) twoRegionTxn).internal.involvedPartitions ∧
    (∀ kv ∈ twoRegionTxn.keys, kv.valueEntry.master < 2) ∧
    ∃ holder, processTransactions 2 none (lockOnlyTxnsAt (fun _ => 0) 0 (forwardTxn 1 (fun _ => 0) twoRegionTxn)) =
      .ok (some holder) ∧ finishTxn holder = none :=
  have involved : 0 ∈ (forwardTxn 1 (fun _ => 0) twoRegionTxn).internal.involvedPartitions :=
    twoRegionTxn_client.mem_involvedPartitions.mpr ⟨_, List.mem_cons_self, rfl⟩
  ⟨twoRegionTxn_client, rfl, involved, by decide,
    holder_collected twoRegionTxn_client rfl involved (by decide) (List.Perm.refl _)⟩

theorem length_sortUnique_pair {first second : Nat} (different : first ≠ second) :
    (sortUnique [first, second]).length = 2 := by
  have pair : (sortUnique [first, second]).Perm [first, second] := by
    rw [List.perm_ext_iff_of_nodup (nodup_sortUnique _) (by simp [different])]
    simp
  rw [pair.length_eq]
  rfl

/-- A remaster txn of one key to another region leaves its holder behind at the key's partition:
both lock-only txns arrive there and each expects one, so the holder is never ready for garbage
collection. -/
theorem ClientTxn.remaster_holder_kept (client : ClientTxn numPartitions partitionOf txn)
    {procedure : RemasterProcedure} (remaster : txn.remaster = some procedure) {kv : KeyValueEntry}
    (single : txn.keys = [kv]) (moved : kv.valueEntry.master ≠ procedure.newMaster)
    (regions : kv.valueEntry.master < numRegions ∧ procedure.newMaster < numRegions)
    (order : arrivals.Perm (lockOnlyTxnsAt partitionOf (partitionOf kv.key) (forwardTxn numPartitions partitionOf txn))) :
    ∃ holder, processTransactions numRegions none arrivals = .ok (some holder) ∧ finishTxn holder ≠ none := by
  have involved : partitionOf kv.key ∈ (forwardTxn numPartitions partitionOf txn).internal.involvedPartitions :=
    client.mem_involvedPartitions.mpr ⟨kv, by simp [single], rfl⟩
  obtain ⟨reaching, expects⟩ := client.lockOnlyTxnsAt_remaster remaster single
  have type := (client.forward_multiHome (by simp [Transaction.isRemaster, remaster])).1
  have parts : lockOnlyTxnsAt partitionOf (partitionOf kv.key) (forwardTxn numPartitions partitionOf txn) =
      (sortUnique [kv.valueEntry.master, procedure.newMaster]).map
        (batchedPart partitionOf (partitionOf kv.key) (forwardTxn numPartitions partitionOf txn)) := by
    rw [lockOnlyTxnsAt_eq_map client.nodup_involvedPartitions involved, reaching]
  have homes : (lockOnlyTxnsAt partitionOf (partitionOf kv.key) (forwardTxn numPartitions partitionOf txn)).map
      (·.internal.home) = (sortUnique [kv.valueEntry.master, procedure.newMaster]).map fun region : Nat => (region : Int) := by
    rw [parts, List.map_map]
    apply List.map_congr_left
    intro region _
    simp [batchedPart_home, type]
  have two : arrivals.length = 2 := by
    rw [order.length_eq, parts, List.length_map, length_sortUnique_pair moved]
  obtain ⟨first, rest, rfl⟩ := List.exists_cons_of_ne_nil (List.ne_nil_of_length_pos (show 0 < arrivals.length by omega))
  have range : ∀ lot ∈ first :: rest, InRange numRegions lot := by
    intro lot member
    obtain ⟨region, sent, home⟩ := List.mem_map.mp (homes ▸ List.mem_map_of_mem (order.subset member) :
      lot.internal.home ∈ (sortUnique [kv.valueEntry.master, procedure.newMaster]).map fun region : Nat => (region : Int))
    have home : (region : Int) = lot.internal.home := home
    rw [mem_sortUnique, List.mem_pair] at sent
    have below : region < numRegions := by
      rcases sent with rfl | rfl <;> omega
    rw [InRange, ← home]
    constructor <;> omega
  have distinct : ((first :: rest).map (·.internal.home)).Nodup := by
    rw [(order.map _).nodup_iff, homes]
    exact (nodup_sortUnique _).map fun _ _ same => by omega
  obtain ⟨holder, run, collected⟩ := processTransactions_finishTxn distinct range
  refine ⟨holder, run, fun erased => ?_⟩
  have counted := collected.mp erased
  rw [expects first (order.subset List.mem_cons_self)] at counted
  simp only [List.length_cons, List.length_nil] at two counted
  omega

/-- A remaster txn moving key "A" from region 0 to region 1, on a single partition. -/
def remasterTxn : Transaction where
  internal := { id := 7, type := .unknown, home := 0, involvedPartitions := [], involvedRegions := [] }
  remaster := some { newMaster := 1, isNewMasterLockOnly := false }
  keys := [{ key := "A", valueEntry := { type := .write, metadata := some ⟨0, 0⟩ } }]

/-- Two lock-only txns of `remasterTxn` reach its partition, each naming region 0 alone as
involved, and its holder outlives the txn. -/
theorem remaster_holder_never_erased :
    (lockOnlyTxnsAt (fun _ => 0) 0 (forwardTxn 1 (fun _ => 0) remasterTxn)).length = 2 ∧
    (∀ sub ∈ lockOnlyTxnsAt (fun _ => 0) 0 (forwardTxn 1 (fun _ => 0) remasterTxn),
      sub.internal.involvedRegions = [0]) ∧
    ∃ holder, processTransactions 2 none (lockOnlyTxnsAt (fun _ => 0) 0 (forwardTxn 1 (fun _ => 0) remasterTxn)) =
      .ok (some holder) ∧ finishTxn holder ≠ none := by
  have client : ClientTxn 1 (fun _ => 0) remasterTxn := ⟨by decide, by decide, by decide, rfl, rfl⟩
  have involved : 0 ∈ (forwardTxn 1 (fun _ => 0) remasterTxn).internal.involvedPartitions :=
    client.mem_involvedPartitions.mpr ⟨_, List.mem_cons_self, rfl⟩
  obtain ⟨reaching, expects⟩ := client.lockOnlyTxnsAt_remaster rfl rfl
  refine ⟨?_, expects, client.remaster_holder_kept rfl rfl (by decide) (by decide) (List.Perm.refl _)⟩
  rw [length_lockOnlyTxnsAt client.nodup_involvedPartitions involved, reaching]
  exact length_sortUnique_pair (by decide)

end Collection

end Slog
