/-
How a txn reaches the schedulers: the forwarder (`ProcessForwardTxn`, `Forward`) and the batcher's
lock-only txns (`Batcher::BatchTxn`).
-/

import Slog.Common.ProtoUtils

namespace Slog

/-- What the forwarder makes of a new txn once its keys carry master metadata
(`ProcessForwardTxn`, then `Forward`). -/
def forwardTxn (numPartitions : Nat) (partitionOf : Key → Nat) (txn : Transaction) : Transaction :=
  populateInvolvedRegions (setTransactionType (populateInvolvedPartitions numPartitions partitionOf txn))

/-- The regions whose sequencers `Forward` sends a txn to: the master of its keys for a
single-home txn, every involved region for a multi-home one. -/
def sequencedAt (txn : Transaction) : List Nat :=
  match txn.internal.type with
  | .singleHome => (txn.keys.head?.map fun kv => kv.valueEntry.master).toList
  | .multiHomeOrLockOnly => txn.internal.involvedRegions
  | .unknown => []

/-- `Batcher::BatchTxn` at a region: the sub-txns it adds to the batches, with their partitions. -/
def batchTxn (partitionOf : Key → Nat) (localRegion : Nat) (txn : Transaction) : List (Nat × Transaction) :=
  let txn := if txn.internal.type = .multiHomeOrLockOnly then generateLockOnlyTxn txn localRegion else txn
  txn.internal.involvedPartitions.filterMap fun partition =>
    (generatePartitionedTxn partitionOf txn partition).map fun sub => (partition, sub)

/-- The lock-only txns of a txn that reach the scheduler of a partition, region by region. -/
def lockOnlyTxnsAt (partitionOf : Key → Nat) (partition : Nat) (txn : Transaction) : List Transaction :=
  (sequencedAt txn).flatMap fun region =>
    ((batchTxn partitionOf region txn).filter (·.1 = partition)).map Prod.snd

/-- The regions whose batcher sends the partition a lock-only txn of the txn. -/
def regionsReaching (partitionOf : Key → Nat) (partition : Nat) (txn : Transaction) : List Nat :=
  (sequencedAt txn).filter fun region => (batchTxn partitionOf region txn).any (·.1 = partition)

/-- A new txn as the forwarder holds it once its master lookups are done: it has keys, each
with master metadata and on a partition of the sharder, and no involved partition or region yet. -/
structure ClientTxn (numPartitions : Nat) (partitionOf : Key → Nat) (txn : Transaction) : Prop where
  keys : txn.keys ≠ []
  metadata : ∀ kv ∈ txn.keys, kv.valueEntry.metadata.isSome
  partitions : ∀ kv ∈ txn.keys, partitionOf kv.key < numPartitions
  noPartitions : txn.internal.involvedPartitions = []
  noRegions : txn.internal.involvedRegions = []

section Partitioned

variable {partitionOf : Key → Nat} {txn sub : Transaction} {partition : Nat}

/-- The keys of a txn on one partition. -/
def keysOn (partitionOf : Key → Nat) (partition : Nat) (txn : Transaction) : List KeyValueEntry :=
  txn.keys.filter fun kv => partitionOf kv.key = partition

/-- `GeneratePartitionedTxn` keeps a part exactly when it has keys and it remasters or one of
its keys is mastered at its home. -/
theorem generatePartitionedTxn_isSome :
    (generatePartitionedTxn partitionOf txn partition).isSome ↔ keysOn partitionOf partition txn ≠ [] ∧
      (txn.isRemaster = true ∨ ∃ kv ∈ keysOn partitionOf partition txn,
        (kv.valueEntry.master : Int) = txn.internal.home) := by
  have kept : (keysOn partitionOf partition txn ≠ [] ∧ (txn.isRemaster = true ∨
      ∃ kv ∈ keysOn partitionOf partition txn, (kv.valueEntry.master : Int) = txn.internal.home)) ↔
      ¬((keysOn partitionOf partition txn).isEmpty || (!txn.isRemaster &&
        (keysOn partitionOf partition txn).all fun kv => (kv.valueEntry.master : Int) ≠ txn.internal.home)) = true := by
    cases txn.isRemaster <;> simp [List.isEmpty_iff]
  rw [kept]
  simp only [generatePartitionedTxn]
  split_ifs with dropped
  · simp only [Option.isSome_none, Bool.false_eq_true, false_iff, not_not]
    exact dropped
  all_goals
    simp only [Option.isSome_some, true_iff]
    exact dropped

/-- The part `GeneratePartitionedTxn` keeps: the keys on the partition, and for a multi-home
txn the masters of those keys as its involved regions. -/
theorem eq_of_generatePartitionedTxn (kept : generatePartitionedTxn partitionOf txn partition = some sub) :
    sub = if txn.internal.type = .multiHomeOrLockOnly then
      { txn with keys := keysOn partitionOf partition txn, internal := { txn.internal with
          involvedRegions := involvedRegionsOf (keysOn partitionOf partition txn) } }
    else { txn with keys := keysOn partitionOf partition txn } := by
  simp only [generatePartitionedTxn] at kept
  split_ifs at kept with dropped multi <;> simp_all [keysOn]

end Partitioned

section Batch

variable {partitionOf : Key → Nat} {txn : Transaction} {partition : Nat}

/-- Over distinct keys, the entries made for one key are the one value made for it. -/
theorem map_snd_filter_filterMap {α β : Type} [DecidableEq α] (make : α → Option β) (key : α) :
    ∀ keys : List α, keys.Nodup →
    ((keys.filterMap fun k => (make k).map fun value => (k, value)).filter (·.1 = key)).map Prod.snd =
      if key ∈ keys then (make key).toList else []
  | [], _ => by simp
  | first :: rest, distinct => by
      obtain ⟨fresh, distinct'⟩ := List.nodup_cons.mp distinct
      have later := map_snd_filter_filterMap make key rest distinct'
      by_cases same : first = key
      · subst same
        rw [if_neg fresh] at later
        cases made : make first <;> simp [made, later]
      · cases made : make first <;> simp [made, later, same, Ne.symm same]

theorem any_fst_eq (entries : List (Nat × Transaction)) (key : Nat) :
    entries.any (·.1 = key) = !(((entries.filter (·.1 = key)).map Prod.snd).isEmpty) := by
  induction entries with
  | nil => rfl
  | cons first rest ih =>
      by_cases same : first.1 = key <;> simp [same, ih]

/-- The lock-only txns reaching a partition, region by region, are the parts the batchers of the
regions cut for it. -/
theorem lockOnlyTxnsAt_eq (distinct : txn.internal.involvedPartitions.Nodup)
    (member : partition ∈ txn.internal.involvedPartitions) :
    lockOnlyTxnsAt partitionOf partition txn = (sequencedAt txn).filterMap fun region =>
      generatePartitionedTxn partitionOf
        (if txn.internal.type = .multiHomeOrLockOnly then generateLockOnlyTxn txn region else txn) partition := by
  rw [lockOnlyTxnsAt, List.filterMap_eq_flatMap_toList]
  congr 1
  funext region
  have partitions : (if txn.internal.type = .multiHomeOrLockOnly then generateLockOnlyTxn txn region
      else txn).internal.involvedPartitions = txn.internal.involvedPartitions := by
    split <;> simp
  rw [batchTxn, map_snd_filter_filterMap _ _ _ (partitions ▸ distinct), partitions, if_pos member]

theorem regionsReaching_eq (distinct : txn.internal.involvedPartitions.Nodup)
    (member : partition ∈ txn.internal.involvedPartitions) :
    regionsReaching partitionOf partition txn = (sequencedAt txn).filter fun region =>
      (generatePartitionedTxn partitionOf
        (if txn.internal.type = .multiHomeOrLockOnly then generateLockOnlyTxn txn region else txn) partition).isSome := by
  rw [regionsReaching]
  congr 1
  funext region
  have partitions : (if txn.internal.type = .multiHomeOrLockOnly then generateLockOnlyTxn txn region
      else txn).internal.involvedPartitions = txn.internal.involvedPartitions := by
    split <;> simp
  rw [any_fst_eq, batchTxn, map_snd_filter_filterMap _ _ _ (partitions ▸ distinct), partitions, if_pos member]
  cases generatePartitionedTxn partitionOf _ partition <;> rfl

end Batch

section Forward

variable {numPartitions : Nat} {partitionOf : Key → Nat} {txn : Transaction} {partition : Nat}

@[simp] theorem forwardTxn_keys : (forwardTxn numPartitions partitionOf txn).keys = txn.keys := by
  simp [forwardTxn, populateInvolvedPartitions]

@[simp] theorem forwardTxn_remaster : (forwardTxn numPartitions partitionOf txn).remaster = txn.remaster := by
  simp [forwardTxn, populateInvolvedPartitions]

@[simp] theorem forwardTxn_isRemaster :
    (forwardTxn numPartitions partitionOf txn).isRemaster = txn.isRemaster := by
  simp [Transaction.isRemaster]

@[simp] theorem forwardTxn_id : (forwardTxn numPartitions partitionOf txn).internal.id = txn.internal.id := by
  simp [forwardTxn, populateInvolvedPartitions]

theorem ClientTxn.complete (client : ClientTxn numPartitions partitionOf txn) :
    (!txn.keys.isEmpty && txn.keys.all fun kv => kv.valueEntry.metadata.isSome) = true := by
  simpa [List.isEmpty_iff, client.keys] using client.metadata

theorem ClientTxn.involvedPartitions (client : ClientTxn numPartitions partitionOf txn) :
    (forwardTxn numPartitions partitionOf txn).internal.involvedPartitions =
      (List.range numPartitions).filter fun p => txn.keys.any fun kv => partitionOf kv.key = p := by
  simp [forwardTxn, populateInvolvedPartitions, client.noPartitions]

theorem ClientTxn.nodup_involvedPartitions (client : ClientTxn numPartitions partitionOf txn) :
    (forwardTxn numPartitions partitionOf txn).internal.involvedPartitions.Nodup := by
  rw [client.involvedPartitions]
  exact List.nodup_range.filter _

/-- The forwarder involves exactly the partitions of the txn's keys. -/
theorem ClientTxn.mem_involvedPartitions (client : ClientTxn numPartitions partitionOf txn) :
    partition ∈ (forwardTxn numPartitions partitionOf txn).internal.involvedPartitions ↔
      ∃ kv ∈ txn.keys, partitionOf kv.key = partition := by
  rw [client.involvedPartitions]
  simp only [List.mem_filter, List.mem_range, List.any_eq_true, decide_eq_true_eq]
  constructor
  · exact fun ⟨_, found⟩ => found
  · rintro ⟨kv, member, rfl⟩
    exact ⟨client.partitions kv member, kv, member, rfl⟩

/-- A txn whose keys share one master and that does not remaster goes, single-home, to the
sequencer of that master alone. -/
theorem ClientTxn.forward_singleHome (client : ClientTxn numPartitions partitionOf txn)
    (single : (txn.keys.all fun kv => kv.valueEntry.master = firstMaster txn) = true)
    (notRemaster : txn.isRemaster = false) :
    (forwardTxn numPartitions partitionOf txn).internal.type = .singleHome ∧
      (forwardTxn numPartitions partitionOf txn).internal.home = firstMaster txn ∧
      sequencedAt (forwardTxn numPartitions partitionOf txn) = [firstMaster txn] := by
  obtain ⟨first, rest, keys⟩ := List.exists_cons_of_ne_nil client.keys
  rw [forwardTxn, @setTransactionType_of_singleHome (populateInvolvedPartitions numPartitions partitionOf txn)
    client.complete single notRemaster]
  simp [populateInvolvedRegions, populateInvolvedPartitions, sequencedAt, firstMaster, keys]

/-- Any other txn goes, multi-home, to the sequencers of the masters of its keys and, for a
remaster txn, of its new master. -/
theorem ClientTxn.forward_multiHome (client : ClientTxn numPartitions partitionOf txn)
    (multi : ¬((txn.keys.all fun kv => kv.valueEntry.master = firstMaster txn) = true ∧
      txn.isRemaster = false)) :
    (forwardTxn numPartitions partitionOf txn).internal.type = .multiHomeOrLockOnly ∧
      (forwardTxn numPartitions partitionOf txn).internal.home = -1 ∧
      sequencedAt (forwardTxn numPartitions partitionOf txn) =
        sortUnique ((txn.keys.map fun kv => kv.valueEntry.master) ++
          (txn.remaster.map RemasterProcedure.newMaster).toList) := by
  rw [forwardTxn, @setTransactionType_of_multiHome (populateInvolvedPartitions numPartitions partitionOf txn)
    client.complete multi]
  simp [populateInvolvedRegions, populateInvolvedPartitions, sequencedAt, client.noRegions]

/-- A txn of known type is sent to the regions `PopulateInvolvedRegions` names. -/
theorem sequencedAt_populateInvolvedRegions (known : txn.internal.type ≠ .unknown) :
    sequencedAt (populateInvolvedRegions txn) = (populateInvolvedRegions txn).internal.involvedRegions := by
  obtain ⟨⟨id, type, home, partitions, regions⟩, remaster, keys⟩ := txn
  cases type <;> simp_all [populateInvolvedRegions, sequencedAt]

/-- The forwarder sends a txn to the regions it names as involved. -/
theorem ClientTxn.sequencedAt_eq (client : ClientTxn numPartitions partitionOf txn) :
    sequencedAt (forwardTxn numPartitions partitionOf txn) =
      (forwardTxn numPartitions partitionOf txn).internal.involvedRegions := by
  have known : (forwardTxn numPartitions partitionOf txn).internal.type ≠ .unknown := by
    by_cases single : (txn.keys.all fun kv => kv.valueEntry.master = firstMaster txn) = true ∧
        txn.isRemaster = false
    · simp [(client.forward_singleHome single.1 single.2).1]
    · simp [(client.forward_multiHome single).1]
  rw [forwardTxn, populateInvolvedRegions_type] at known
  exact sequencedAt_populateInvolvedRegions known

theorem ClientTxn.nodup_sequencedAt (client : ClientTxn numPartitions partitionOf txn) :
    (sequencedAt (forwardTxn numPartitions partitionOf txn)).Nodup := by
  by_cases single : (txn.keys.all fun kv => kv.valueEntry.master = firstMaster txn) = true ∧
      txn.isRemaster = false
  · rw [(client.forward_singleHome single.1 single.2).2.2]
    exact List.nodup_singleton _
  · rw [(client.forward_multiHome single).2.2]
    exact nodup_sortUnique _

end Forward

section Parts

variable {partitionOf : Key → Nat} {partition region : Nat} {txn : Transaction}

/-- The part of a txn that the batcher of a region cuts for a partition, when it keeps one: the
keys on the partition, and for a multi-home txn the lock-only txn of the region with the masters
of those keys as its involved regions. -/
def batchedPart (partitionOf : Key → Nat) (partition : Nat) (txn : Transaction) (region : Nat) :
    Transaction :=
  if txn.internal.type = .multiHomeOrLockOnly then
    let lockOnlyTxn := generateLockOnlyTxn txn region
    { lockOnlyTxn with keys := keysOn partitionOf partition txn, internal := { lockOnlyTxn.internal with
        involvedRegions := involvedRegionsOf (keysOn partitionOf partition txn) } }
  else { txn with keys := keysOn partitionOf partition txn }

@[simp] theorem batchedPart_keys : (batchedPart partitionOf partition txn region).keys = keysOn partitionOf partition txn := by
  unfold batchedPart
  split <;> rfl

@[simp] theorem batchedPart_isRemaster : (batchedPart partitionOf partition txn region).isRemaster = txn.isRemaster := by
  unfold batchedPart
  split
  · exact generateLockOnlyTxn_isRemaster region
  · rfl

@[simp] theorem batchedPart_id : (batchedPart partitionOf partition txn region).internal.id = txn.internal.id := by
  unfold batchedPart
  split <;> simp

theorem batchedPart_home : (batchedPart partitionOf partition txn region).internal.home =
    if txn.internal.type = .multiHomeOrLockOnly then (region : Int) else txn.internal.home := by
  unfold batchedPart
  split <;> simp

theorem batchedPart_involvedRegions : (batchedPart partitionOf partition txn region).internal.involvedRegions =
    if txn.internal.type = .multiHomeOrLockOnly then involvedRegionsOf (keysOn partitionOf partition txn)
    else txn.internal.involvedRegions := by
  unfold batchedPart
  split <;> simp

/-- What the batcher of a region keeps for a partition is `batchedPart`. -/
theorem generatePartitionedTxn_eq_batchedPart
    (kept : (generatePartitionedTxn partitionOf (if txn.internal.type = .multiHomeOrLockOnly then
      generateLockOnlyTxn txn region else txn) partition).isSome) :
    generatePartitionedTxn partitionOf (if txn.internal.type = .multiHomeOrLockOnly then
      generateLockOnlyTxn txn region else txn) partition = some (batchedPart partitionOf partition txn region) := by
  obtain ⟨sub, made⟩ := Option.isSome_iff_exists.mp kept
  rw [made, eq_of_generatePartitionedTxn made]
  by_cases multi : txn.internal.type = .multiHomeOrLockOnly
  · simp [batchedPart, multi, keysOn]
  · simp [batchedPart, multi]

/-- A partial map whose values a total map gives is that map on the inputs it keeps. -/
theorem filterMap_eq_map_filter {α β : Type} {f : α → Option β} {g : α → β} :
    ∀ l : List α, (∀ x ∈ l, (f x).isSome → f x = some (g x)) →
      l.filterMap f = (l.filter fun x => (f x).isSome).map g
  | [], _ => rfl
  | x :: rest, given => by
      have later := filterMap_eq_map_filter rest fun y member => given y (List.mem_cons_of_mem x member)
      cases made : f x with
      | none => simp [made, later]
      | some y =>
          have value := given x List.mem_cons_self (by simp [made])
          rw [made, Option.some_inj] at value
          simp [made, later, value]

/-- The lock-only txns reaching a partition are the parts cut for it by the regions reaching it. -/
theorem lockOnlyTxnsAt_eq_map (distinct : txn.internal.involvedPartitions.Nodup)
    (member : partition ∈ txn.internal.involvedPartitions) :
    lockOnlyTxnsAt partitionOf partition txn =
      (regionsReaching partitionOf partition txn).map (batchedPart partitionOf partition txn) := by
  rw [lockOnlyTxnsAt_eq distinct member, regionsReaching_eq distinct member]
  exact filterMap_eq_map_filter _ fun _ _ kept => generatePartitionedTxn_eq_batchedPart kept

/-- A region the txn is sent to reaches a partition when the txn has keys there and remasters or
has one of them mastered at the home of the region's lock-only txn. -/
theorem mem_regionsReaching (distinct : txn.internal.involvedPartitions.Nodup)
    (member : partition ∈ txn.internal.involvedPartitions) :
    region ∈ regionsReaching partitionOf partition txn ↔ region ∈ sequencedAt txn ∧
      keysOn partitionOf partition txn ≠ [] ∧ (txn.isRemaster = true ∨ ∃ kv ∈ keysOn partitionOf partition txn,
        (kv.valueEntry.master : Int) = (batchedPart partitionOf partition txn region).internal.home) := by
  rw [regionsReaching_eq distinct member, List.mem_filter, generatePartitionedTxn_isSome, batchedPart_home]
  by_cases multi : txn.internal.type = .multiHomeOrLockOnly
  · simp [multi, keysOn]
  · simp [multi]

end Parts

section Agreement

variable {numPartitions : Nat} {partitionOf : Key → Nat} {txn sub : Transaction} {partition region region' : Nat}

@[simp] theorem keysOn_forwardTxn :
    keysOn partitionOf partition (forwardTxn numPartitions partitionOf txn) = keysOn partitionOf partition txn := by
  simp [keysOn]

theorem ClientTxn.keysOn_ne_nil (client : ClientTxn numPartitions partitionOf txn)
    (involved : partition ∈ (forwardTxn numPartitions partitionOf txn).internal.involvedPartitions) :
    keysOn partitionOf partition txn ≠ [] := by
  obtain ⟨kv, member, on⟩ := client.mem_involvedPartitions.mp involved
  exact List.ne_nil_of_mem (List.mem_filter.mpr ⟨member, by simp [on]⟩)

theorem master_eq_of_all {txn : Transaction}
    (single : (txn.keys.all fun kv => kv.valueEntry.master = firstMaster txn) = true) {kv : KeyValueEntry}
    (member : kv ∈ txn.keys) : kv.valueEntry.master = firstMaster txn := by
  simpa using List.all_eq_true.mp single kv member

theorem ClientTxn.nodup_regionsReaching (client : ClientTxn numPartitions partitionOf txn) :
    (regionsReaching partitionOf partition (forwardTxn numPartitions partitionOf txn)).Nodup :=
  client.nodup_sequencedAt.filter _

theorem ClientTxn.nodup_batchedPart_involvedRegions (client : ClientTxn numPartitions partitionOf txn) :
    (batchedPart partitionOf partition (forwardTxn numPartitions partitionOf txn) region).internal.involvedRegions.Nodup := by
  rw [batchedPart_involvedRegions]
  split
  · exact nodup_involvedRegionsOf _
  · rw [← client.sequencedAt_eq]
    exact client.nodup_sequencedAt

/-- Each part reaching a partition names the masters of the txn's keys there as its involved
regions. -/
theorem ClientTxn.mem_batchedPart_involvedRegions (client : ClientTxn numPartitions partitionOf txn)
    (involved : partition ∈ (forwardTxn numPartitions partitionOf txn).internal.involvedPartitions) :
    region ∈ (batchedPart partitionOf partition (forwardTxn numPartitions partitionOf txn) region').internal.involvedRegions ↔
      ∃ kv ∈ keysOn partitionOf partition txn, kv.valueEntry.master = region := by
  rw [batchedPart_involvedRegions]
  by_cases single : (txn.keys.all fun kv => kv.valueEntry.master = firstMaster txn) = true ∧
      txn.isRemaster = false
  · -- a single-home part keeps the one region the forwarder named, the master of every key
    obtain ⟨type, _, sent⟩ := client.forward_singleHome single.1 single.2
    obtain ⟨kv, member⟩ := List.exists_mem_of_ne_nil _ (client.keysOn_ne_nil involved)
    have masters : ∀ kv ∈ keysOn partitionOf partition txn, kv.valueEntry.master = firstMaster txn :=
      fun kv member => master_eq_of_all single.1 (List.mem_filter.mp member).1
    rw [if_neg (by simp [type]), ← client.sequencedAt_eq, sent, List.mem_singleton]
    constructor
    · rintro rfl
      exact ⟨kv, member, masters kv member⟩
    · rintro ⟨other, chosen, rfl⟩
      exact masters other chosen
  · rw [if_pos (client.forward_multiHome single).1, keysOn_forwardTxn, mem_involvedRegionsOf]

/-- Without a remaster, the regions reaching a partition are the masters of the txn's keys there. -/
theorem ClientTxn.mem_regionsReaching_of_not_remaster (client : ClientTxn numPartitions partitionOf txn)
    (involved : partition ∈ (forwardTxn numPartitions partitionOf txn).internal.involvedPartitions)
    (notRemaster : txn.isRemaster = false) :
    region ∈ regionsReaching partitionOf partition (forwardTxn numPartitions partitionOf txn) ↔
      ∃ kv ∈ keysOn partitionOf partition txn, kv.valueEntry.master = region := by
  rw [mem_regionsReaching client.nodup_involvedPartitions involved, batchedPart_home, keysOn_forwardTxn]
  simp only [forwardTxn_isRemaster, notRemaster, Bool.false_eq_true, false_or]
  by_cases single : (txn.keys.all fun kv => kv.valueEntry.master = firstMaster txn) = true
  · obtain ⟨type, home, sent⟩ := client.forward_singleHome single notRemaster
    have masters : ∀ kv ∈ keysOn partitionOf partition txn, kv.valueEntry.master = firstMaster txn :=
      fun kv member => master_eq_of_all single (List.mem_filter.mp member).1
    obtain ⟨kv, member⟩ := List.exists_mem_of_ne_nil _ (client.keysOn_ne_nil involved)
    rw [sent, if_neg (by simp [type]), home, List.mem_singleton]
    constructor
    · rintro ⟨rfl, _, _⟩
      exact ⟨kv, member, masters kv member⟩
    · rintro ⟨other, chosen, rfl⟩
      exact ⟨masters other chosen, List.ne_nil_of_mem chosen, other, chosen, by rw [masters other chosen]⟩
  · obtain ⟨type, _, sent⟩ := client.forward_multiHome fun both => single both.1
    rw [sent, if_pos type]
    constructor
    · rintro ⟨_, _, kv, member, master⟩
      exact ⟨kv, member, by exact_mod_cast master⟩
    · rintro ⟨kv, member, rfl⟩
      refine ⟨?_, List.ne_nil_of_mem member, kv, member, rfl⟩
      simp only [mem_sortUnique, List.mem_append, List.mem_map]
      exact Or.inl ⟨kv, (List.mem_filter.mp member).1, rfl⟩

/-- Every part reaching a partition has the txn's keys there and remasters as the txn does. -/
theorem ClientTxn.keys_of_mem_lockOnlyTxnsAt (client : ClientTxn numPartitions partitionOf txn)
    (involved : partition ∈ (forwardTxn numPartitions partitionOf txn).internal.involvedPartitions)
    (member : sub ∈ lockOnlyTxnsAt partitionOf partition (forwardTxn numPartitions partitionOf txn)) :
    ∃ region ∈ regionsReaching partitionOf partition (forwardTxn numPartitions partitionOf txn),
      sub = batchedPart partitionOf partition (forwardTxn numPartitions partitionOf txn) region ∧
      sub.keys = keysOn partitionOf partition txn ∧ sub.isRemaster = txn.isRemaster := by
  rw [lockOnlyTxnsAt_eq_map client.nodup_involvedPartitions involved] at member
  obtain ⟨region, reached, rfl⟩ := List.mem_map.mp member
  exact ⟨region, reached, rfl, by simp, by simp⟩

/-- Without a remaster, the parts reaching a partition have distinct homes, and every key there
is homed at one of them. -/
theorem ClientTxn.homes_lockOnlyTxnsAt (client : ClientTxn numPartitions partitionOf txn)
    (involved : partition ∈ (forwardTxn numPartitions partitionOf txn).internal.involvedPartitions)
    (notRemaster : txn.isRemaster = false) :
    ((lockOnlyTxnsAt partitionOf partition (forwardTxn numPartitions partitionOf txn)).map (·.internal.home)).Nodup ∧
      ∀ kv ∈ keysOn partitionOf partition txn, (kv.valueEntry.master : Int) ∈
        (lockOnlyTxnsAt partitionOf partition (forwardTxn numPartitions partitionOf txn)).map (·.internal.home) := by
  have reached : ∀ region, region ∈ regionsReaching partitionOf partition (forwardTxn numPartitions partitionOf txn) ↔
      ∃ kv ∈ keysOn partitionOf partition txn, kv.valueEntry.master = region :=
    fun _ => client.mem_regionsReaching_of_not_remaster involved notRemaster
  rw [lockOnlyTxnsAt_eq_map client.nodup_involvedPartitions involved, List.map_map]
  by_cases single : (txn.keys.all fun kv => kv.valueEntry.master = firstMaster txn) = true
  · -- one part, at the master of every key
    obtain ⟨type, home, sent⟩ := client.forward_singleHome single notRemaster
    obtain ⟨kv, member⟩ := List.exists_mem_of_ne_nil _ (client.keysOn_ne_nil involved)
    have masters : ∀ kv ∈ keysOn partitionOf partition txn, kv.valueEntry.master = firstMaster txn :=
      fun kv member => master_eq_of_all single (List.mem_filter.mp member).1
    have first : firstMaster txn ∈ regionsReaching partitionOf partition (forwardTxn numPartitions partitionOf txn) :=
      (reached _).mpr ⟨kv, member, masters kv member⟩
    have regions : regionsReaching partitionOf partition (forwardTxn numPartitions partitionOf txn) =
        [firstMaster txn] := by
      rw [regionsReaching, sent] at first ⊢
      simpa using first
    rw [regions]
    refine ⟨List.nodup_singleton _, fun kv member => ?_⟩
    simp [batchedPart_home, type, home, masters kv member]
  · -- one part per region reaching the partition, homed there
    have type := (client.forward_multiHome fun both => single both.1).1
    have homes : (fun region => (batchedPart partitionOf partition (forwardTxn numPartitions partitionOf txn)
        region).internal.home) = fun region : Nat => (region : Int) := by
      funext region
      rw [batchedPart_home, if_pos type]
    rw [Function.comp_def, homes]
    refine ⟨client.nodup_regionsReaching.map fun _ _ same => by omega, fun kv member => ?_⟩
    exact List.mem_map_of_mem ((reached _).mpr ⟨kv, member, rfl⟩)

/-- Without a remaster, the keys of the parts reaching a partition that are homed at their
part's home add up to the keys there. -/
theorem ClientTxn.sum_homed_lockOnlyTxnsAt (client : ClientTxn numPartitions partitionOf txn)
    (involved : partition ∈ (forwardTxn numPartitions partitionOf txn).internal.involvedPartitions)
    (notRemaster : txn.isRemaster = false) :
    ((lockOnlyTxnsAt partitionOf partition (forwardTxn numPartitions partitionOf txn)).map fun other =>
      (other.keys.filter fun kv => (kv.valueEntry.master : Int) = other.internal.home).length).sum =
      (keysOn partitionOf partition txn).length := by
  obtain ⟨distinct, covered⟩ := client.homes_lockOnlyTxnsAt involved notRemaster
  calc ((lockOnlyTxnsAt partitionOf partition (forwardTxn numPartitions partitionOf txn)).map fun other =>
        (other.keys.filter fun kv => (kv.valueEntry.master : Int) = other.internal.home).length).sum
      = (((lockOnlyTxnsAt partitionOf partition (forwardTxn numPartitions partitionOf txn)).map
          (·.internal.home)).map fun home =>
            ((keysOn partitionOf partition txn).filter fun kv => (kv.valueEntry.master : Int) = home).length).sum := by
        rw [List.map_map]
        congr 1
        apply List.map_congr_left
        intro other member
        simp [(client.keys_of_mem_lockOnlyTxnsAt involved member).choose_spec.2.2.1]
    _ = ((keysOn partitionOf partition txn).filter fun kv => (kv.valueEntry.master : Int) ∈
          (lockOnlyTxnsAt partitionOf partition (forwardTxn numPartitions partitionOf txn)).map
            (·.internal.home)).length :=
        sum_length_filter_homes _ _ distinct
    _ = (keysOn partitionOf partition txn).length := by
        rw [List.filter_eq_self.mpr (by simpa using covered)]

theorem length_lockOnlyTxnsAt (distinct : txn.internal.involvedPartitions.Nodup)
    (member : partition ∈ txn.internal.involvedPartitions) :
    (lockOnlyTxnsAt partitionOf partition txn).length = (regionsReaching partitionOf partition txn).length := by
  rw [lockOnlyTxnsAt_eq_map distinct member, List.length_map]

/-- Without a remaster, each part reaching a partition names the regions it comes from. -/
theorem ClientTxn.involvedRegions_perm (client : ClientTxn numPartitions partitionOf txn)
    (involved : partition ∈ (forwardTxn numPartitions partitionOf txn).internal.involvedPartitions)
    (notRemaster : txn.isRemaster = false)
    (member : sub ∈ lockOnlyTxnsAt partitionOf partition (forwardTxn numPartitions partitionOf txn)) :
    sub.internal.involvedRegions.Perm (regionsReaching partitionOf partition (forwardTxn numPartitions partitionOf txn)) := by
  obtain ⟨region, _, rfl, _, _⟩ := client.keys_of_mem_lockOnlyTxnsAt involved member
  rw [List.perm_ext_iff_of_nodup client.nodup_batchedPart_involvedRegions client.nodup_regionsReaching]
  intro other
  rw [client.mem_batchedPart_involvedRegions involved,
    client.mem_regionsReaching_of_not_remaster involved notRemaster]

/-- Without a remaster, each part reaching a partition is homed at the master of one of the
txn's keys there. -/
theorem ClientTxn.home_of_mem_lockOnlyTxnsAt (client : ClientTxn numPartitions partitionOf txn)
    (involved : partition ∈ (forwardTxn numPartitions partitionOf txn).internal.involvedPartitions)
    (notRemaster : txn.isRemaster = false)
    (member : sub ∈ lockOnlyTxnsAt partitionOf partition (forwardTxn numPartitions partitionOf txn)) :
    ∃ kv ∈ keysOn partitionOf partition txn, (kv.valueEntry.master : Int) = sub.internal.home := by
  obtain ⟨distinct, covered⟩ := client.homes_lockOnlyTxnsAt involved notRemaster
  obtain ⟨region, reached, rfl, _, _⟩ := client.keys_of_mem_lockOnlyTxnsAt involved member
  rw [batchedPart_home]
  split
  · obtain ⟨kv, chosen, master⟩ := (client.mem_regionsReaching_of_not_remaster involved notRemaster).mp reached
    exact ⟨kv, chosen, by rw [master]⟩
  · -- a single-home txn has one part, and some key there is homed at it
    obtain ⟨kv, chosen⟩ := List.exists_mem_of_ne_nil _ (client.keysOn_ne_nil involved)
    obtain ⟨other, otherMember, home⟩ := List.mem_map.mp (covered kv chosen)
    obtain ⟨region', _, rfl, _, _⟩ := client.keys_of_mem_lockOnlyTxnsAt involved otherMember
    rw [batchedPart_home, if_neg (by assumption)] at home
    exact ⟨kv, chosen, home.symm⟩

theorem sum_map_natCast {α : Type} (f : α → Nat) :
    ∀ l : List α, (l.map fun x => (f x : Int)).sum = ((l.map f).sum : Int)
  | [] => rfl
  | x :: rest => by
      rw [List.map_cons, List.map_cons, List.sum_cons, List.sum_cons, sum_map_natCast f rest]
      omega

/-- For a txn that does not remaster, the lock-only txns that reach a partition are what its
scheduler expects: each names as its involved regions the regions they come from, so each
expects as many as arrive; they carry the same keys; and their keys homed at their own homes
add up to the locks the txn needs. -/
theorem lockOnlyTxnsAt_agree (client : ClientTxn numPartitions partitionOf txn)
    (notRemaster : txn.isRemaster = false)
    (involved : partition ∈ (forwardTxn numPartitions partitionOf txn).internal.involvedPartitions) :
    ∀ sub ∈ lockOnlyTxnsAt partitionOf partition (forwardTxn numPartitions partitionOf txn),
      sub.internal.involvedRegions.Perm (regionsReaching partitionOf partition (forwardTxn numPartitions partitionOf txn)) ∧
      (lockOnlyTxnsAt partitionOf partition (forwardTxn numPartitions partitionOf txn)).length =
        sub.internal.involvedRegions.length ∧
      sub.keys = keysOn partitionOf partition txn ∧
      (((lockOnlyTxnsAt partitionOf partition (forwardTxn numPartitions partitionOf txn)).map fun other =>
        (other.keys.filter fun kv => (kv.valueEntry.master : Int) = other.internal.home).length).sum : Int) =
        sub.numRequiredLocks := by
  intro sub member
  have regions := client.involvedRegions_perm involved notRemaster member
  obtain ⟨_, _, _, keys, remaster⟩ := client.keys_of_mem_lockOnlyTxnsAt involved member
  refine ⟨regions, ?_, keys, ?_⟩
  · rw [regions.length_eq, length_lockOnlyTxnsAt client.nodup_involvedPartitions involved]
  · have total := client.sum_homed_lockOnlyTxnsAt involved notRemaster
    rw [Transaction.numRequiredLocks, if_neg (by simp [remaster, notRemaster]), keys]
    rw [sum_map_natCast, total]

/-- A txn writing key "A", mastered at region 0, and reading key "B", mastered at region 1. -/
def twoRegionTxn : Transaction where
  internal := { id := 5, type := .unknown, home := 0, involvedPartitions := [], involvedRegions := [] }
  remaster := none
  keys := [{ key := "A", valueEntry := { type := .write, metadata := some ⟨0, 0⟩ } },
    { key := "B", valueEntry := { type := .read, metadata := some ⟨1, 0⟩ } }]

theorem twoRegionTxn_client : ClientTxn 1 (fun _ => 0) twoRegionTxn :=
  ⟨by decide, by decide, by decide, rfl, rfl⟩

theorem twoRegionTxn_agrees : ClientTxn 1 (fun _ => 0) twoRegionTxn ∧ twoRegionTxn.isRemaster = false ∧
    0 ∈ (forwardTxn 1 (fun _ => 0) twoRegionTxn).internal.involvedPartitions ∧
    ∀ sub ∈ lockOnlyTxnsAt (fun _ => 0) 0 (forwardTxn 1 (fun _ => 0) twoRegionTxn),
      sub.internal.involvedRegions.Perm (regionsReaching (fun _ => 0) 0 (forwardTxn 1 (fun _ => 0) twoRegionTxn)) ∧
      (lockOnlyTxnsAt (fun _ => 0) 0 (forwardTxn 1 (fun _ => 0) twoRegionTxn)).length =
        sub.internal.involvedRegions.length ∧
      sub.keys = keysOn (fun _ => 0) 0 twoRegionTxn ∧
      (((lockOnlyTxnsAt (fun _ => 0) 0 (forwardTxn 1 (fun _ => 0) twoRegionTxn)).map fun other =>
        (other.keys.filter fun kv => (kv.valueEntry.master : Int) = other.internal.home).length).sum : Int) =
        sub.numRequiredLocks :=
  have involved : 0 ∈ (forwardTxn 1 (fun _ => 0) twoRegionTxn).internal.involvedPartitions :=
    twoRegionTxn_client.mem_involvedPartitions.mpr ⟨_, List.mem_cons_self, rfl⟩
  ⟨twoRegionTxn_client, rfl, involved, lockOnlyTxnsAt_agree twoRegionTxn_client rfl involved⟩

/-- A remaster txn of one key reaches the key's partition from the key's master and from its new
master, and each of these lock-only txns names the key's master alone as its involved region:
`GeneratePartitionedTxn` recomputes the regions from the keys and drops the new master. -/
theorem ClientTxn.lockOnlyTxnsAt_remaster (client : ClientTxn numPartitions partitionOf txn)
    {procedure : RemasterProcedure} (remaster : txn.remaster = some procedure) {kv : KeyValueEntry}
    (single : txn.keys = [kv]) :
    regionsReaching partitionOf (partitionOf kv.key) (forwardTxn numPartitions partitionOf txn) =
        sortUnique [kv.valueEntry.master, procedure.newMaster] ∧
      ∀ sub ∈ lockOnlyTxnsAt partitionOf (partitionOf kv.key) (forwardTxn numPartitions partitionOf txn),
        sub.internal.involvedRegions = [kv.valueEntry.master] := by
  have isRemaster : txn.isRemaster = true := by simp [Transaction.isRemaster, remaster]
  have involved : partitionOf kv.key ∈ (forwardTxn numPartitions partitionOf txn).internal.involvedPartitions :=
    client.mem_involvedPartitions.mpr ⟨kv, by simp [single], rfl⟩
  have keys : keysOn partitionOf (partitionOf kv.key) txn = [kv] := by simp [keysOn, single]
  obtain ⟨type, _, sent⟩ := client.forward_multiHome (by simp [isRemaster])
  refine ⟨?_, fun sub member => ?_⟩
  · -- every region the txn is sent to keeps its one key, since a remaster part is never redundant
    rw [regionsReaching_eq client.nodup_involvedPartitions involved, sent, List.filter_eq_self.mpr]
    · simp [single, remaster]
    · intro region _
      simp [generatePartitionedTxn_isSome, keysOn, single, isRemaster, type]
  · obtain ⟨region, _, rfl, _, _⟩ := client.keys_of_mem_lockOnlyTxnsAt involved member
    rw [batchedPart_involvedRegions, if_pos type, keysOn_forwardTxn, keys]
    apply List.perm_singleton.mp
    rw [List.perm_ext_iff_of_nodup (nodup_involvedRegionsOf _) (List.nodup_singleton _)]
    simp [eq_comm]

end Agreement

end Slog
