/-
How a region's log managers pass a message on (`module/log_manager.cpp`), and how many
replication acks a local batch gets.
-/

import Mathlib
import Slog.Library.Folds
import Slog.Common.BatchLog

namespace Slog.Replication

/-- `MakeMachineId(region, replica, partition)`, kept unpacked. -/
@[ext]
structure Machine where
  region : Nat
  replica : Nat
  partition : Nat
  deriving DecidableEq, Repr

/-- What forwarding reads of the `Configuration`: the replicas of each region and the
partitions. -/
structure Layout where
  numReplicas : Nat → Nat
  numPartitions : Nat

/-- Every machine of a region. -/
def Layout.machines (layout : Layout) (region : Nat) : List Machine :=
  (List.range (layout.numReplicas region)).flatMap fun replica =>
    (List.range layout.numPartitions).map fun partition => ⟨region, replica, partition⟩

/-- `other_partitions_` of the log manager on a machine. -/
def otherPartitions (layout : Layout) (me : Machine) : List Machine :=
  ((List.range layout.numPartitions).filter (· ≠ me.partition)).map fun partition => ⟨me.region, me.replica, partition⟩

/-- `other_replicas_` of the log manager on a machine. -/
def otherReplicas (layout : Layout) (me : Machine) : List Machine :=
  ((List.range (layout.numReplicas me.region)).filter (· ≠ me.replica)).map fun replica =>
    ⟨me.region, replica, me.partition⟩

/-- Where a log manager passes a message on, by the machine it came from
(`ProcessBatchReplicationAck`; the same tests in `ProcessForwardBatchData` and in the remote
case of `ProcessForwardBatchOrder`). -/
def forwardTargets (layout : Layout) (me sender : Machine) : List Machine :=
  let firstTimeRegion := sender.region ≠ me.region
  let firstTimeReplica := firstTimeRegion ∨ sender.replica ≠ me.replica
  (if firstTimeRegion then otherReplicas layout me else []) ++
    (if firstTimeReplica then otherPartitions layout me else [])

/-- The machines that get a message, each time it arrives, from the sends that start it, level
by level of the forwarding, for at most `fuel` levels. A machine's forwarding depends only on
where the message came from, so the order of the arrivals does not change who gets it. -/
def spread (layout : Layout) : Nat → List (Machine × Machine) → List Machine
  | 0, _ => []
  | fuel + 1, sends =>
      sends.map Prod.snd ++
        spread layout fuel (sends.flatMap fun send => (forwardTargets layout send.2 send.1).map (send.2, ·))

/-- `Configuration::replication_factor()`: the proto's value, at least 1. -/
def replicationFactor (raw : Nat) : Nat := max raw 1

/-- The replication part of the `Configuration` constructor: the factor may not exceed the
regions, and the local region's replication order (its string split at the commas) has every
entry checked and the local region left out. -/
def replicationOrderOf (regionsSize rawFactor localRegion : Nat) (orders : List (List Nat)) :
    Except String (List Nat) :=
  if regionsSize < rawFactor then .error "Replication factor must not exceed number of regions"
  else if localRegion < orders.length then
    (orders.getD localRegion []).foldlM (fun order region =>
      if region < regionsSize then .ok (if region ≠ localRegion then order ++ [region] else order)
      else .error "Invalid region specified in the replication order") []
  else .ok []

/-- `need_ack_from_region_`, set by the `LogManager` constructor: the first
`replication_factor - 1` regions of the replication order. -/
def needAckFromRegion (numRegions factor : Nat) (order : List Nat) : List Bool :=
  (List.range (min order.length (factor - 1))).foldl (fun needAck r => needAck.set (order.getD r 0) true)
    (List.replicate numRegions false)

/-- The machines to which `AdvanceLog` sends a local batch's order with `need_ack` set: a fixed
partition of replica 0 of each other region that must ack. -/
def ackDestinations (numRegions numPartitions localRegion : Nat) (needAck : List Bool) : List Machine :=
  ((List.range numRegions).filter fun region => region ≠ localRegion ∧ needAck.getD region false = true).map
    fun region => ⟨region, 0, (region + numRegions - localRegion) % numRegions % numPartitions⟩

/-- The `AckReplication` calls of the home region for one local batch: each destination answers
the leader, the only machine of its region to get the order from the home region, and the
leader's region passes each answer on. -/
def ackDeliveries (layout : Layout) (leader : Machine) (destinations : List Machine) : List Machine :=
  destinations.flatMap fun destination => spread layout 3 [(destination, leader)]

section Forwarding

variable {layout : Layout} {me sender machine : Machine}

theorem mem_machines {region : Nat} :
    machine ∈ layout.machines region ↔
      machine.region = region ∧ machine.replica < layout.numReplicas region ∧ machine.partition < layout.numPartitions := by
  obtain ⟨region', replica, partition⟩ := machine
  simp only [Layout.machines, List.mem_flatMap, List.mem_range, List.mem_map, Machine.mk.injEq]
  constructor
  · rintro ⟨replica, below, partition, within, rfl, rfl, rfl⟩
    exact ⟨rfl, below, within⟩
  · rintro ⟨rfl, below, within⟩
    exact ⟨replica, below, partition, within, rfl, rfl, rfl⟩

theorem mem_otherPartitions :
    machine ∈ otherPartitions layout me ↔ machine.region = me.region ∧ machine.replica = me.replica ∧
      machine.partition < layout.numPartitions ∧ machine.partition ≠ me.partition := by
  obtain ⟨region, replica, partition⟩ := machine
  simp only [otherPartitions, List.mem_map, List.mem_filter, List.mem_range, decide_eq_true_eq, Machine.mk.injEq]
  constructor
  · rintro ⟨partition, ⟨within, apart⟩, rfl, rfl, rfl⟩
    exact ⟨rfl, rfl, within, apart⟩
  · rintro ⟨rfl, rfl, within, apart⟩
    exact ⟨partition, ⟨within, apart⟩, rfl, rfl, rfl⟩

theorem mem_otherReplicas :
    machine ∈ otherReplicas layout me ↔ machine.region = me.region ∧ machine.replica < layout.numReplicas me.region ∧
      machine.replica ≠ me.replica ∧ machine.partition = me.partition := by
  obtain ⟨region, replica, partition⟩ := machine
  simp only [otherReplicas, List.mem_map, List.mem_filter, List.mem_range, decide_eq_true_eq, Machine.mk.injEq]
  constructor
  · rintro ⟨replica, ⟨below, apart⟩, rfl, rfl, rfl⟩
    exact ⟨rfl, below, apart, rfl⟩
  · rintro ⟨rfl, below, apart, rfl⟩
    exact ⟨replica, ⟨below, apart⟩, rfl, rfl, rfl⟩

theorem nodup_otherPartitions : (otherPartitions layout me).Nodup :=
  (List.nodup_range.filter _).map fun _ _ same => (Machine.mk.inj same).2.2

theorem nodup_otherReplicas : (otherReplicas layout me).Nodup :=
  (List.nodup_range.filter _).map fun _ _ same => (Machine.mk.inj same).2.1

theorem mem_flatMap_otherPartitions :
    machine ∈ (otherReplicas layout me).flatMap (otherPartitions layout) ↔ machine.region = me.region ∧
      machine.replica < layout.numReplicas me.region ∧ machine.replica ≠ me.replica ∧
      machine.partition < layout.numPartitions ∧ machine.partition ≠ me.partition := by
  simp only [List.mem_flatMap, mem_otherPartitions, mem_otherReplicas]
  constructor
  · rintro ⟨replica, ⟨region, below, apart, partition⟩, sameRegion, sameReplica, within, other⟩
    exact ⟨by omega, by omega, by omega, within, by omega⟩
  · rintro ⟨region, below, apart, within, other⟩
    exact ⟨⟨me.region, machine.replica, me.partition⟩, ⟨rfl, below, apart, rfl⟩, region, rfl, within, other⟩

/-- The replicas' partitions are all different machines: two replicas share no machine. -/
theorem nodup_flatMap_otherPartitions : ((otherReplicas layout me).flatMap (otherPartitions layout)).Nodup := by
  refine List.nodup_flatMap.mpr ⟨fun _ _ => nodup_otherPartitions, ?_⟩
  refine nodup_otherReplicas.pairwise_of_forall_ne fun first firstListed second secondListed apart => ?_
  intro machine inFirst inSecond
  have firsts := mem_otherReplicas.mp firstListed
  have seconds := mem_otherReplicas.mp secondListed
  have inFirsts := mem_otherPartitions.mp inFirst
  have inSeconds := mem_otherPartitions.mp inSecond
  exact apart (Machine.ext (by omega) (by omega) (by omega))

theorem forwardTargets_of_outside (outside : sender.region ≠ me.region) :
    forwardTargets layout me sender = otherReplicas layout me ++ otherPartitions layout me := by
  simp [forwardTargets, outside]

theorem forwardTargets_of_replica (same : sender.region = me.region) (other : sender.replica ≠ me.replica) :
    forwardTargets layout me sender = otherPartitions layout me := by
  simp [forwardTargets, same, other]

theorem forwardTargets_of_same (same : sender.region = me.region) (sameReplica : sender.replica = me.replica) :
    forwardTargets layout me sender = [] := by
  simp [forwardTargets, same, sameReplica]

theorem spread_nil (fuel : Nat) : spread layout fuel [] = [] := by
  induction fuel with
  | zero => rfl
  | succ fuel earlier => rw [spread, List.flatMap_nil, earlier, List.map_nil, List.append_nil]

/-- A message that comes into a region reaches its first machine, that machine's other replicas
and other partitions, and the other partitions of each of those replicas; nothing goes further. -/
theorem spread_from_outside (outside : sender.region ≠ me.region) (fuel : Nat) :
    spread layout (fuel + 3) [(sender, me)] =
      me :: (otherReplicas layout me ++ otherPartitions layout me ++
        (otherReplicas layout me).flatMap (otherPartitions layout)) := by
  have second : [(sender, me)].flatMap (fun send => (forwardTargets layout send.2 send.1).map (send.2, ·)) =
      (otherReplicas layout me ++ otherPartitions layout me).map (me, ·) := by
    simp [forwardTargets_of_outside outside]
  have third : ((otherReplicas layout me ++ otherPartitions layout me).map (me, ·)).flatMap
      (fun send => (forwardTargets layout send.2 send.1).map (send.2, ·)) =
      (otherReplicas layout me).flatMap fun replica => (otherPartitions layout replica).map (replica, ·) := by
    rw [List.map_append, List.flatMap_append, List.flatMap_map, List.flatMap_map]
    have quiet : (otherPartitions layout me).flatMap
        (fun partition => (forwardTargets layout partition me).map (partition, ·)) = [] := by
      refine List.flatMap_eq_nil_iff.mpr fun partition listed => ?_
      obtain ⟨region, replica, -, -⟩ := mem_otherPartitions.mp listed
      rw [forwardTargets_of_same region.symm replica.symm, List.map_nil]
    rw [quiet, List.append_nil]
    refine List.flatMap_congr fun replica listed => ?_
    obtain ⟨region, -, apart, -⟩ := mem_otherReplicas.mp listed
    rw [forwardTargets_of_replica region.symm (Ne.symm apart)]
  have fourth : ((otherReplicas layout me).flatMap fun replica => (otherPartitions layout replica).map (replica, ·)).flatMap
      (fun send => (forwardTargets layout send.2 send.1).map (send.2, ·)) = [] := by
    refine List.flatMap_eq_nil_iff.mpr fun send listed => ?_
    obtain ⟨replica, -, sendListed⟩ := List.mem_flatMap.mp listed
    obtain ⟨partition, partitionListed, rfl⟩ := List.mem_map.mp sendListed
    obtain ⟨region, sameReplica, -, -⟩ := mem_otherPartitions.mp partitionListed
    rw [forwardTargets_of_same region.symm sameReplica.symm, List.map_nil]
  rw [spread.eq_2, second, spread.eq_2, third, spread.eq_2, fourth, spread_nil]
  simp [List.map_flatMap, Function.comp_def]

/-- A message that comes into a region from another gets to every machine of the region exactly
once, and to no other machine. -/
theorem spread_exactly_once (outside : sender.region ≠ me.region) (within : me ∈ layout.machines me.region)
    {fuel : Nat} (enough : 3 ≤ fuel) :
    (spread layout fuel [(sender, me)]).Nodup ∧
      ∀ machine, machine ∈ spread layout fuel [(sender, me)] ↔ machine ∈ layout.machines me.region := by
  obtain ⟨extra, rfl⟩ := Nat.exists_eq_add_of_le' enough
  rw [spread_from_outside outside]
  obtain ⟨-, replicaBelow, partitionBelow⟩ := mem_machines.mp within
  constructor
  · -- the parts differ in whether a machine keeps the first machine's replica and partition
    rw [List.nodup_cons, List.nodup_append, List.nodup_append]
    simp only [List.mem_append, mem_otherReplicas, mem_otherPartitions, mem_flatMap_otherPartitions, ne_eq,
      Machine.ext_iff]
    exact ⟨by simp, ⟨nodup_otherReplicas, nodup_otherPartitions, by intros; omega⟩, nodup_flatMap_otherPartitions,
      by intros; omega⟩
  · intro machine
    simp only [List.mem_cons, List.mem_append, mem_otherReplicas, mem_otherPartitions, mem_flatMap_otherPartitions,
      mem_machines, Machine.ext_iff]
    omega

/-- Two replicas of two partitions in every region. -/
def twoByTwo : Layout := ⟨fun _ => 2, 2⟩

theorem twoByTwo_spread : (⟨1, 0, 0⟩ : Machine).region ≠ (⟨0, 0, 0⟩ : Machine).region ∧
    (⟨0, 0, 0⟩ : Machine) ∈ twoByTwo.machines 0 ∧
    (spread twoByTwo 3 [(⟨1, 0, 0⟩, ⟨0, 0, 0⟩)]).Nodup ∧
      ∀ machine, machine ∈ spread twoByTwo 3 [(⟨1, 0, 0⟩, ⟨0, 0, 0⟩)] ↔ machine ∈ twoByTwo.machines 0 :=
  ⟨by decide, by decide, spread_exactly_once (by decide) (by decide) (Nat.le_refl 3)⟩

end Forwarding

section Acks

/-- Setting entries of a list of flags to true raises exactly the flags at the indices set that
the list has. -/
theorem getD_foldl_set {α : Type} (target : α → Nat) (items : List α) (flags : List Bool) (index : Nat) :
    (items.foldl (fun flags item => flags.set (target item) true) flags).getD index false = true ↔
      flags.getD index false = true ∨ (index < flags.length ∧ index ∈ items.map target) := by
  induction items generalizing flags with
  | nil => simp
  | cons item rest ih =>
      rw [List.foldl_cons, ih, List.length_set, List.map_cons, List.mem_cons]
      by_cases same : target item = index
      · rw [← same]
        by_cases below : target item < flags.length
        · simp [List.getD_eq_getElem?_getD, below]
        · simp [List.getD_eq_getElem?_getD, below]
      · simp [List.getD_eq_getElem?_getD, same, Ne.symm same]

/-- The regions `need_ack_from_region_` marks are those of the first `replication_factor - 1`
entries of the replication order. -/
theorem getD_needAckFromRegion (numRegions factor : Nat) (order : List Nat) (region : Nat) :
    (needAckFromRegion numRegions factor order).getD region false = true ↔
      region < numRegions ∧ region ∈ order.take (factor - 1) := by
  have indices : (List.range (min order.length (factor - 1))).map (order.getD · 0) = order.take (factor - 1) := by
    refine List.ext_getElem (by simp [Nat.min_comm]) fun r below _ => ?_
    simp only [List.length_map, List.length_range] at below
    simp [List.getD_eq_getElem?_getD, List.getElem?_eq_getElem (show r < order.length by omega)]
  rw [needAckFromRegion, getD_foldl_set, indices]
  simp

/-- A replication order the configuration accepts names regions of the configuration other than
the local one. -/
theorem replicationOrderOf_valid {regionsSize rawFactor localRegion : Nat} {orders : List (List Nat)}
    {order : List Nat} (parsed : replicationOrderOf regionsSize rawFactor localRegion orders = .ok order) :
    rawFactor ≤ regionsSize ∧ ∀ region ∈ order, region < regionsSize ∧ region ≠ localRegion := by
  unfold replicationOrderOf at parsed
  split_ifs at parsed with tooMany listed
  · exact ⟨Nat.le_of_not_lt tooMany, Folds.foldlM_invariant
      (fun order => ∀ region ∈ order, region < regionsSize ∧ region ≠ localRegion)
      (fun order region _ order' valid stepped => by
        split_ifs at stepped with below apart <;> cases stepped
        · intro entry member
          rcases List.mem_append.mp member with earlier | latest
          · exact valid entry earlier
          · rw [List.mem_singleton.mp latest]
            exact ⟨below, apart⟩
        · exact valid)
      [] order (by simp) parsed⟩
  · cases parsed
    exact ⟨Nat.le_of_not_lt tooMany, by simp⟩

theorem region_of_mem_ackDestinations {numRegions numPartitions localRegion : Nat} {needAck : List Bool}
    {destination : Machine} (listed : destination ∈ ackDestinations numRegions numPartitions localRegion needAck) :
    destination.region ≠ localRegion := by
  obtain ⟨region, marked, rfl⟩ := List.mem_map.mp listed
  simp only [List.mem_filter, decide_eq_true_eq] at marked
  exact marked.2.1

/-- `AdvanceLog` asks one machine of each distinct region among the first
`replication_factor - 1` of a valid replication order for an ack. -/
theorem length_ackDestinations (numRegions numPartitions localRegion factor : Nat) (order : List Nat)
    (valid : ∀ region ∈ order, region < numRegions ∧ region ≠ localRegion) :
    (ackDestinations numRegions numPartitions localRegion (needAckFromRegion numRegions factor order)).length =
      (order.take (factor - 1)).dedup.length := by
  have marked : ((List.range numRegions).filter fun region =>
      region ≠ localRegion ∧ (needAckFromRegion numRegions factor order).getD region false = true).Perm
        (order.take (factor - 1)).dedup := by
    refine (List.perm_ext_iff_of_nodup (List.nodup_range.filter _) (List.nodup_dedup _)).mpr fun region => ?_
    simp only [List.mem_filter, List.mem_range, decide_eq_true_eq, getD_needAckFromRegion, List.mem_dedup]
    constructor
    · rintro ⟨-, -, -, taken⟩
      exact taken
    · intro taken
      have checked := valid region (List.mem_of_mem_take taken)
      exact ⟨checked.1, checked.2, checked.1, taken⟩
  rw [ackDestinations, List.length_map, marked.length_eq]

/-- Every machine of the leader's region gets one ack from each destination. -/
theorem count_ackDeliveries {layout : Layout} {leader machine : Machine} {destinations : List Machine}
    (leads : leader ∈ layout.machines leader.region)
    (outside : ∀ destination ∈ destinations, destination.region ≠ leader.region)
    (home : machine ∈ layout.machines leader.region) :
    (ackDeliveries layout leader destinations).count machine = destinations.length := by
  have once : ∀ destination ∈ destinations,
      (List.count machine ∘ fun destination => spread layout 3 [(destination, leader)]) destination = 1 := by
    intro destination listed
    obtain ⟨distinct, reaches⟩ := spread_exactly_once (outside destination listed) leads (Nat.le_refl 3)
    exact List.count_eq_one_of_mem distinct ((reaches machine).mpr home)
  rw [ackDeliveries, List.count_flatMap, List.map_congr_left once, List.map_const', List.sum_replicate, smul_eq_mul,
    mul_one]

/-- For each local batch, every machine of the home region calls `AckReplication` once for each
distinct region among the first `replication_factor - 1` of the region's replication order. -/
theorem count_acks (layout : Layout) (numRegions numPartitions rawFactor : Nat) (orders : List (List Nat))
    {leader machine : Machine} {order : List Nat}
    (parsed : replicationOrderOf numRegions rawFactor leader.region orders = .ok order)
    (leads : leader ∈ layout.machines leader.region) (home : machine ∈ layout.machines leader.region) :
    (ackDeliveries layout leader (ackDestinations numRegions numPartitions leader.region
        (needAckFromRegion numRegions (replicationFactor rawFactor) order))).count machine =
      (order.take (replicationFactor rawFactor - 1)).dedup.length := by
  rw [count_ackDeliveries leads (fun _ listed => region_of_mem_ackDestinations listed) home]
  exact length_ackDestinations _ _ _ _ order (replicationOrderOf_valid parsed).2

theorem twoByTwo_acks : replicationOrderOf 3 2 0 [[1, 2], [], []] = .ok [1, 2] ∧
    (⟨0, 0, 0⟩ : Machine) ∈ twoByTwo.machines 0 ∧ (⟨0, 1, 1⟩ : Machine) ∈ twoByTwo.machines 0 ∧
    (ackDeliveries twoByTwo ⟨0, 0, 0⟩ (ackDestinations 3 2 0
        (needAckFromRegion 3 (replicationFactor 2) [1, 2]))).count ⟨0, 1, 1⟩ =
      ([1, 2].take (replicationFactor 2 - 1)).dedup.length :=
  ⟨by decide, by decide, by decide, count_acks twoByTwo 3 2 2 [[1, 2], [], []] (by decide) (by decide) (by decide)⟩

/-- The replication orders of the configuration's own documentation: with a replication factor
of 3, region 0 replicates to regions 1 and 2, region 1 to regions 2 and 0, and region 2 to none. -/
def documentedOrders : List (List Nat) := [[1, 2], [2, 1, 0], []]

/-- Under the documented orders the configuration accepts region 2's empty order, so no machine
of region 2 ever gets an ack for a local batch, while `AdvanceLog` tells the batch log to wait for
two: the local batches of region 2 never leave its batch log. -/
theorem documented_order_stalls_local_batches :
    replicationOrderOf 3 3 2 documentedOrders = .ok [] ∧
      (∀ (layout : Layout) (numPartitions : Nat) (leader machine : Machine),
        (ackDeliveries layout leader (ackDestinations 3 numPartitions 2
          (needAckFromRegion 3 (replicationFactor 3) []))).count machine = 0) ∧
      replicationFactor 3 - 1 = 2 ∧
      (BatchLog.init.run [.addBatch ⟨0, []⟩, .addSlot 0 0 ((replicationFactor 3 - 1 : Nat) : Int)]).map Prod.fst =
        .ok [] := by
  refine ⟨rfl, fun layout numPartitions leader machine => ?_, rfl, by decide⟩
  have unmarked : ackDestinations 3 numPartitions 2 (needAckFromRegion 3 (replicationFactor 3) []) = [] := rfl
  rw [unmarked]
  rfl

end Acks

end Slog.Replication
