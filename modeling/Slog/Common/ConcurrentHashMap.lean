/-
`ConcurrentHashMap` (`common/concurrent_hash_map.h`) with one thread: 256 lazily made segments of
chained buckets, rehashed at load 1.05; `Erase` leaves `size_` as it was. Latches are left out.
-/

import Mathlib
import Slog.Library.Buckets

namespace Slog

namespace ConcurrentHashMap

/-- `ShardBits`, as `MemOnlyStorage` uses it. -/
def kShardBits : Nat := 8

/-- `NumShards`. -/
def kNumShards : Nat := 1 <<< kShardBits

/-- `GetIndex`: the bucket of a hash, for a power of two of buckets. -/
def getIndex (nbuckets hash : Nat) : Nat := (hash >>> kShardBits) &&& (nbuckets - 1)

/-- `static_cast<size_t>(kLoadFactor * count)`. `kLoadFactor` is the float nearest 1.05, which
is 8808038 / 2 ^ 23; its product with a power of two is exact, and the cast drops the fraction. -/
def loadFactorMax (count : Nat) : Nat := count * 8808038 / 8388608

/-- Two to a power of buckets pick a bucket within the table. -/
theorem getIndex_lt {count bits : Nat} (powTwo : count = 2 ^ bits) (hash : Nat) : getIndex count hash < count := by
  rw [getIndex, powTwo, Nat.and_two_pow_sub_one_eq_mod]
  exact Nat.mod_lt _ (Nat.two_pow_pos bits)

/-- Twice the buckets allow more nodes than the buckets did, when there is one bucket at least. -/
theorem loadFactorMax_lt_double {count : Nat} (positive : 1 ≤ count) :
    loadFactorMax count < loadFactorMax (count <<< 1) := by
  have whole : 1 ≤ count * 8808038 / 8388608 := (Nat.le_div_iff_mul_le (by decide)).mpr (by omega)
  have halves : count * 8808038 / 8388608 + count * 8808038 / 8388608 ≤
      (count * 8808038 + count * 8808038) / 8388608 := Nat.div_add_div_le_add_div
  have twice : count <<< 1 * 8808038 = count * 8808038 + count * 8808038 := by
    rw [Nat.shiftLeft_eq]
    ring
  rw [loadFactorMax, loadFactorMax, twice]
  omega

theorem loadFactorMax_le_double (count : Nat) : loadFactorMax count ≤ 2 * count :=
  Nat.div_le_of_le_mul (by omega)

/-- `SegmentT`: its buckets, each a chain of nodes with their keys and values. -/
structure Segment (K V : Type) where
  buckets : List (List (K × V))
  loadFactorMaxSize : Nat
  size : Nat
  deriving DecidableEq, Repr

namespace Segment

variable {K V : Type} [DecidableEq K]

/-- The constructor, with `initial_bucket_count` empty buckets. -/
def new (initialBucketCount : Nat) : Segment K V :=
  ⟨List.replicate initialBucketCount [], loadFactorMax initialBucketCount, 0⟩

/-- The chain of the bucket that a hash picks. -/
def chainOf (segment : Segment K V) (hash : Nat) : List (K × V) :=
  segment.buckets.getD (getIndex segment.buckets.length hash) []

/-- `Get` and `GetUnsafe`: the value of the first node of the key in the chain its hash picks. -/
def get (hashFn : K → Nat) (segment : Segment K V) (key : K) : Option V :=
  ((segment.chainOf (hashFn key)).find? (·.1 = key)).map (·.2)

/-- The loops of `InsertOrUpdate` and `Erase` over a chain: the first node of the key replaced by
the nodes given, a new node or none; nothing when no node has the key. -/
def spliceNode (key : K) (replacement : List (K × V)) : List (K × V) → Option (List (K × V))
  | [] => none
  | node :: rest => if node.1 = key then some (replacement ++ rest) else (spliceNode key replacement rest).map (node :: ·)

/-- `Rehash`: twice the buckets, with every node moved, chain by chain and in chain order, to the
head of the chain its hash picks. -/
def rehash (hashFn : K → Nat) (segment : Segment K V) : Segment K V :=
  let newCount := segment.buckets.length <<< 1
  let buckets := segment.buckets.foldl (fun buckets chain => chain.foldl (fun buckets node =>
      buckets.set (getIndex newCount (hashFn node.1)) (node :: buckets.getD (getIndex newCount (hashFn node.1)) []))
      buckets) (List.replicate newCount [])
  ⟨buckets, loadFactorMax newCount, segment.size⟩

/-- The check at the end of `InsertOrUpdate`: a segment whose `size_` has reached its bound is
rehashed. -/
def growIfFull (hashFn : K → Nat) (segment : Segment K V) : Segment K V :=
  if segment.size ≥ segment.loadFactorMaxSize then segment.rehash hashFn else segment

/-- `InsertOrUpdate`: whether the key was there, and the segment. -/
def insertOrUpdate (hashFn : K → Nat) (segment : Segment K V) (key : K) (value : V) : Bool × Segment K V :=
  let idx := getIndex segment.buckets.length (hashFn key)
  match spliceNode key [(key, value)] (segment.chainOf (hashFn key)) with
  | some chain => (true, growIfFull hashFn { segment with buckets := segment.buckets.set idx chain })
  | none =>
      (false, growIfFull hashFn
        { segment with
          buckets := segment.buckets.set idx ((key, value) :: segment.chainOf (hashFn key))
          size := segment.size + 1 })

/-- `Erase`: whether the key was there, and the segment, whose `size_` stays. -/
def erase (hashFn : K → Nat) (segment : Segment K V) (key : K) : Bool × Segment K V :=
  match spliceNode key [] (segment.chainOf (hashFn key)) with
  | some chain => (true, { segment with buckets := segment.buckets.set (getIndex segment.buckets.length (hashFn key)) chain })
  | none => (false, segment)

section Chains

variable {key : K} {replacement : List (K × V)} {chain : List (K × V)}

theorem spliceNode_eq_none_iff : spliceNode key replacement chain = none ↔ ∀ node ∈ chain, node.1 ≠ key := by
  induction chain with
  | nil => simp [spliceNode]
  | cons node rest ih =>
      by_cases here : node.1 = key
      · simp [spliceNode, here]
      · simp [spliceNode, here, ih]

/-- A splice finds the first node of the key, and puts the replacement in its place. -/
theorem spliceNode_eq_some {spliced : List (K × V)} (found : spliceNode key replacement chain = some spliced) :
    ∃ before old after, (∀ node ∈ before, node.1 ≠ key) ∧ chain = before ++ (key, old) :: after ∧
      spliced = before ++ replacement ++ after := by
  induction chain generalizing spliced with
  | nil => cases found
  | cons node rest ih =>
      by_cases here : node.1 = key
      · rw [spliceNode, if_pos here, Option.some.injEq] at found
        exact ⟨[], node.2, rest, fun _ member => (by cases member), by rw [← here]; rfl, by rw [← found]; rfl⟩
      · rw [spliceNode, if_neg here] at found
        obtain ⟨later, rested, rfl⟩ := Option.map_eq_some_iff.mp found
        obtain ⟨before, old, after, missing, rfl, rfl⟩ := ih rested
        refine ⟨node :: before, old, after, fun other member => ?_, rfl, rfl⟩
        rcases List.mem_cons.mp member with rfl | earlier
        · exact here
        · exact missing other earlier

end Chains

/-- The layout of a segment: a power of two of buckets, each node in the chain its hash picks, no
key twice, and the bound on `size_` that goes with the buckets. -/
structure Layout (hashFn : K → Nat) (segment : Segment K V) : Prop where
  powTwo : ∃ bits, segment.buckets.length = 2 ^ bits
  placed : ∀ i, ∀ node ∈ segment.buckets.getD i [], getIndex segment.buckets.length (hashFn node.1) = i
  nodup : (segment.buckets.flatten.map Prod.fst).Nodup
  maxSize : segment.loadFactorMaxSize = loadFactorMax segment.buckets.length

/-- A layout with `size_` below its bound, as every call leaves a segment. -/
structure WellFormed (hashFn : K → Nat) (segment : Segment K V) : Prop extends Layout hashFn segment where
  room : segment.size < segment.loadFactorMaxSize

omit [DecidableEq K] in
theorem wellFormed_new (hashFn : K → Nat) : WellFormed hashFn (new 8 : Segment K V) where
  powTwo := ⟨3, rfl⟩
  placed i node member := by
    rw [new, Buckets.getD_replicate_nil] at member
    cases member
  nodup := by simp [new]
  maxSize := rfl
  room := show 0 < loadFactorMax 8 by decide

section Get

variable {hashFn : K → Nat} {segment : Segment K V}

omit [DecidableEq K] in
theorem Layout.index_lt (layout : Layout hashFn segment) (hash : Nat) :
    getIndex segment.buckets.length hash < segment.buckets.length := by
  obtain ⟨bits, powTwo⟩ := layout.powTwo
  exact getIndex_lt powTwo hash

omit [DecidableEq K] in
theorem Layout.mem_flatten_of_mem_chainOf (layout : Layout hashFn segment) {node : K × V} {hash : Nat}
    (member : node ∈ segment.chainOf hash) : node ∈ segment.buckets.flatten := by
  rw [chainOf, List.getD_eq_getElem _ _ (layout.index_lt hash)] at member
  exact List.mem_flatten.mpr ⟨_, List.getElem_mem _, member⟩

omit [DecidableEq K] in
/-- Every node of a segment is in the chain its hash picks. -/
theorem Layout.mem_chainOf (layout : Layout hashFn segment) {node : K × V} (member : node ∈ segment.buckets.flatten) :
    node ∈ segment.chainOf (hashFn node.1) := by
  obtain ⟨chain, listed, inChain⟩ := List.mem_flatten.mp member
  obtain ⟨i, within, rfl⟩ := List.mem_iff_getElem.mp listed
  have picked := layout.placed i node (by rw [List.getD_eq_getElem _ _ within]; exact inChain)
  rw [chainOf, picked, List.getD_eq_getElem _ _ within]
  exact inChain

/-- `Get` finds the value of a key exactly when the segment holds a node of the key with it. -/
theorem Layout.get_eq_some_iff (layout : Layout hashFn segment) (key : K) (value : V) :
    segment.get hashFn key = some value ↔ (key, value) ∈ segment.buckets.flatten := by
  constructor
  · intro found
    obtain ⟨node, first, rfl⟩ := Option.map_eq_some_iff.mp found
    have sameKey : node.1 = key := by simpa using List.find?_some first
    rw [← sameKey]
    exact layout.mem_flatten_of_mem_chainOf (List.mem_of_find?_eq_some first)
  · intro member
    have inChain := layout.mem_chainOf member
    obtain ⟨node, first⟩ := Option.isSome_iff_exists.mp
      ((List.find?_isSome (p := fun node : K × V => decide (node.1 = key))).mpr ⟨_, inChain, by simp⟩)
    have sameKey : node.1 = key := by simpa using List.find?_some first
    have same : node = (key, value) :=
      List.inj_on_of_nodup_map layout.nodup (layout.mem_flatten_of_mem_chainOf (List.mem_of_find?_eq_some first))
        member sameKey
    simp [get, first, same]

/-- Two layouts whose nodes differ as a call on one key changes them give the same values to
every other key. -/
theorem Layout.get_eq_of_mem_iff {after : Segment K V} (layout : Layout hashFn segment) (laid : Layout hashFn after)
    (key : K) (result : Option V)
    (changed : ∀ entry, entry ∈ after.buckets.flatten ↔ (entry.1 = key ∧ result = some entry.2) ∨
      (entry ∈ segment.buckets.flatten ∧ entry.1 ≠ key))
    (other : K) : after.get hashFn other = if other = key then result else segment.get hashFn other := by
  apply Option.ext
  intro value
  rw [laid.get_eq_some_iff, changed]
  by_cases same : other = key
  · subst same
    simp
  · simp [same, layout.get_eq_some_iff]

/-- `Get` finds nothing exactly when no node of the segment has the key. -/
theorem Layout.get_eq_none_iff (layout : Layout hashFn segment) (key : K) :
    segment.get hashFn key = none ↔ ∀ entry ∈ segment.buckets.flatten, entry.1 ≠ key := by
  constructor
  · intro missing entry member same
    obtain ⟨other, value⟩ := entry
    simp only at same
    subst same
    rw [(layout.get_eq_some_iff other value).mpr member] at missing
    cases missing
  · intro absent
    cases held : segment.get hashFn key with
    | none => rfl
    | some value => exact absurd rfl (absent _ ((layout.get_eq_some_iff key value).mp held))

/-- A splice that finds no node of the key in its chain finds none in the segment. -/
theorem Layout.absent_of_spliceNode (layout : Layout hashFn segment) {key : K} {replacement : List (K × V)}
    (missing : spliceNode key replacement (segment.chainOf (hashFn key)) = none) :
    ∀ entry ∈ segment.buckets.flatten, entry.1 ≠ key := fun entry member same =>
  spliceNode_eq_none_iff.mp missing entry (same ▸ layout.mem_chainOf member) same

end Get

section Splice

variable {hashFn : K → Nat} {segment : Segment K V}

/-- Splicing the chain of the key's bucket changes the nodes of the segment as it changes that
chain: the node of the key gives way to the replacement. -/
theorem Layout.splice (layout : Layout hashFn segment) {key : K} {replacement spliced : List (K × V)}
    (found : spliceNode key replacement (segment.chainOf (hashFn key)) = some spliced) :
    ∃ old others, segment.buckets.flatten.Perm ((key, old) :: others) ∧
      (segment.buckets.set (getIndex segment.buckets.length (hashFn key)) spliced).flatten.Perm (replacement ++ others) ∧
      (∀ entry ∈ others, entry.1 ≠ key) ∧ (others.map Prod.fst).Nodup ∧
      spliced ⊆ replacement ++ segment.chainOf (hashFn key) := by
  obtain ⟨before, old, after, -, chain, rfl⟩ := spliceNode_eq_some found
  obtain ⟨others, whole, set⟩ := Buckets.flatten_set_perm (layout.index_lt (hashFn key)) (before ++ replacement ++ after)
  rw [← chainOf, chain] at whole
  have holds : segment.buckets.flatten.Perm ((key, old) :: (before ++ after ++ others)) := by
    refine whole.trans ?_
    simp only [List.append_assoc, List.cons_append]
    exact List.perm_middle
  have unique := (List.Perm.map Prod.fst holds).nodup_iff.mp layout.nodup
  rw [List.map_cons, List.nodup_cons] at unique
  refine ⟨old, before ++ after ++ others, holds, ?_, fun entry member same => ?_, unique.2, fun node member => ?_⟩
  · refine set.trans ?_
    simp only [List.append_assoc]
    exact List.perm_append_comm_assoc _ _ _
  · exact unique.1 (List.mem_map.mpr ⟨entry, member, same⟩)
  · rw [chain]
    simp only [List.mem_append, List.mem_cons] at member ⊢
    tauto

omit [DecidableEq K] in
/-- A segment whose chain of the key is set to nodes of that chain or of the key keeps its
layout, when no key is there twice. -/
theorem Layout.set_chainOf (layout : Layout hashFn segment) {key : K} {chain : List (K × V)}
    (within : ∀ node ∈ chain, node ∈ segment.chainOf (hashFn key) ∨ node.1 = key)
    (distinct : ((segment.buckets.set (getIndex segment.buckets.length (hashFn key)) chain).flatten.map Prod.fst).Nodup) :
    Layout hashFn { segment with buckets := segment.buckets.set (getIndex segment.buckets.length (hashFn key)) chain } := by
  refine ⟨by simpa using layout.powTwo, fun i node member => ?_, distinct, by simpa using layout.maxSize⟩
  simp only [List.length_set]
  rw [Buckets.getD_set] at member
  split_ifs at member with here
  · rw [← here.1]
    rcases within node member with kept | fresh
    · rw [← layout.placed _ node kept]
    · rw [fresh]
  · exact layout.placed i node member

/-- A segment whose chain of the key is spliced, with a replacement of nodes of that key, one at
most, keeps its layout. -/
theorem Layout.set_splice (layout : Layout hashFn segment) {key : K} {replacement spliced : List (K × V)}
    (found : spliceNode key replacement (segment.chainOf (hashFn key)) = some spliced)
    (single : ∀ node ∈ replacement, node.1 = key) (short : replacement.length ≤ 1) :
    Layout hashFn { segment with buckets := segment.buckets.set (getIndex segment.buckets.length (hashFn key)) spliced } := by
  obtain ⟨old, others, -, after, apart, distinct, within⟩ := layout.splice found
  refine layout.set_chainOf (fun node member => ?_) ?_
  · rcases List.mem_append.mp (within member) with fresh | kept
    · exact Or.inr (single node fresh)
    · exact Or.inl kept
  · -- the replacement's one key is not among the others
    rw [(List.Perm.map Prod.fst after).nodup_iff, List.map_append, List.nodup_append]
    refine ⟨?_, distinct, fun first inFirst second inSecond same => ?_⟩
    · rcases replacement with _ | ⟨node, _ | ⟨other, rest⟩⟩
      · exact List.nodup_nil
      · exact List.nodup_singleton _
      · simp at short
    · obtain ⟨node, fresh, rfl⟩ := List.mem_map.mp inFirst
      obtain ⟨entry, kept, rfl⟩ := List.mem_map.mp inSecond
      exact apart entry kept (same ▸ single node fresh)

end Splice

section Calls

variable {hashFn : K → Nat} {segment : Segment K V}

omit [DecidableEq K] in
/-- `Rehash` pushes every node of the segment, in order, to the head of its new chain. -/
theorem rehash_buckets (hashFn : K → Nat) (segment : Segment K V) :
    (segment.rehash hashFn).buckets = Buckets.distribute (fun node => getIndex (segment.buckets.length <<< 1) (hashFn node.1))
      segment.buckets.flatten (List.replicate (segment.buckets.length <<< 1) []) := by
  simp only [rehash, Buckets.distribute, List.foldl_flatten]

omit [DecidableEq K] in
/-- `Rehash` keeps the nodes and the layout, with twice the buckets. -/
theorem Layout.rehash (layout : Layout hashFn segment) :
    Layout hashFn (segment.rehash hashFn) ∧ (segment.rehash hashFn).buckets.flatten.Perm segment.buckets.flatten := by
  obtain ⟨bits, powTwo⟩ := layout.powTwo
  have count : segment.buckets.length <<< 1 = 2 ^ (bits + 1) := by
    rw [Nat.shiftLeft_eq, powTwo, ← Nat.pow_add]
  have length : (segment.rehash hashFn).buckets.length = segment.buckets.length <<< 1 := by
    rw [rehash_buckets, Buckets.length_distribute, List.length_replicate]
  have moved : (segment.rehash hashFn).buckets.flatten.Perm segment.buckets.flatten := by
    rw [rehash_buckets]
    have pushed := @Buckets.flatten_distribute_perm (K × V) (List.replicate (segment.buckets.length <<< 1) [])
      (fun node => getIndex (segment.buckets.length <<< 1) (hashFn node.1)) segment.buckets.flatten
      fun node _ => by rw [List.length_replicate]; exact getIndex_lt count _
    simpa using pushed
  refine ⟨⟨⟨bits + 1, length.trans count⟩, fun i node member => ?_, (moved.map Prod.fst).nodup_iff.mpr layout.nodup,
    by rw [length]; rfl⟩, moved⟩
  rw [rehash_buckets] at member
  rcases Buckets.mem_distribute member with before | ⟨-, picked⟩
  · simp at before
  · rw [length]
    exact picked

omit [DecidableEq K] in
/-- The check at the end of `InsertOrUpdate` leaves `size_` below its bound, when it was at most
the bound, and keeps the nodes. -/
theorem Layout.growIfFull (layout : Layout hashFn segment) (full : segment.size ≤ segment.loadFactorMaxSize) :
    WellFormed hashFn (segment.growIfFull hashFn) ∧
      (segment.growIfFull hashFn).buckets.flatten.Perm segment.buckets.flatten ∧
      (segment.growIfFull hashFn).size = segment.size := by
  unfold Segment.growIfFull
  split_ifs with reached
  · -- the bound for twice the buckets is above the old one
    obtain ⟨laid, moved⟩ := layout.rehash
    obtain ⟨bits, powTwo⟩ := layout.powTwo
    have more := @loadFactorMax_lt_double segment.buckets.length (by rw [powTwo]; exact Nat.one_le_two_pow)
    refine ⟨⟨laid, ?_⟩, moved, rfl⟩
    show segment.size < loadFactorMax (segment.buckets.length <<< 1)
    rw [layout.maxSize] at full
    omega
  · exact ⟨⟨layout, by omega⟩, List.Perm.refl _, rfl⟩

/-- `InsertOrUpdate` keeps a segment well formed and answers whether the key was there. The key
gets the value, every other node stays, and `size_` counts a new node. -/
theorem WellFormed.insertOrUpdate (wf : WellFormed hashFn segment) (key : K) (value : V) :
    WellFormed hashFn (segment.insertOrUpdate hashFn key value).2 ∧
      (segment.insertOrUpdate hashFn key value).1 = (segment.get hashFn key).isSome ∧
      (∀ entry, entry ∈ (segment.insertOrUpdate hashFn key value).2.buckets.flatten ↔
        (entry.1 = key ∧ some value = some entry.2) ∨ (entry ∈ segment.buckets.flatten ∧ entry.1 ≠ key)) ∧
      (segment.insertOrUpdate hashFn key value).2.size =
        if (segment.get hashFn key).isSome then segment.size else segment.size + 1 := by
  have layout := wf.toLayout
  unfold Segment.insertOrUpdate
  cases found : spliceNode key [(key, value)] (segment.chainOf (hashFn key)) with
  | some spliced =>
      obtain ⟨old, others, before, after, apart, -, -⟩ := layout.splice found
      have held : segment.get hashFn key = some old :=
        (layout.get_eq_some_iff key old).mpr (before.mem_iff.mpr List.mem_cons_self)
      obtain ⟨grown, moved, sized⟩ := (layout.set_splice found (by simp) (by simp)).growIfFull (Nat.le_of_lt wf.room)
      refine ⟨grown, by rw [held]; rfl, fun entry => ?_, by rw [sized, held]; rfl⟩
      rw [moved.mem_iff, after.mem_iff, before.mem_iff, List.singleton_append]
      obtain ⟨other, stored⟩ := entry
      constructor
      · intro member
        rcases List.mem_cons.mp member with same | kept
        · simp at same
          simp [same]
        · exact Or.inr ⟨List.mem_cons_of_mem _ kept, apart _ kept⟩
      · rintro (⟨same, valued⟩ | ⟨member, apartKey⟩)
        · simp only at same valued
          rw [same, Option.some.inj valued]
          exact List.mem_cons_self
        · rcases List.mem_cons.mp member with same | kept
          · simp at same
            exact absurd same.1 apartKey
          · exact List.mem_cons_of_mem _ kept
  | none =>
      have absent := layout.absent_of_spliceNode found
      have unheld := (layout.get_eq_none_iff key).mpr absent
      obtain ⟨others, whole, set⟩ := Buckets.flatten_set_perm (layout.index_lt (hashFn key))
        ((key, value) :: segment.chainOf (hashFn key))
      rw [← chainOf] at whole
      have pushed : (segment.buckets.set (getIndex segment.buckets.length (hashFn key))
          ((key, value) :: segment.chainOf (hashFn key))).flatten.Perm ((key, value) :: segment.buckets.flatten) :=
        set.trans (List.Perm.cons _ whole.symm)
      have distinct : ((segment.buckets.set (getIndex segment.buckets.length (hashFn key))
          ((key, value) :: segment.chainOf (hashFn key))).flatten.map Prod.fst).Nodup := by
        rw [(pushed.map Prod.fst).nodup_iff, List.map_cons, List.nodup_cons]
        exact ⟨fun member => by
          obtain ⟨entry, kept, same⟩ := List.mem_map.mp member
          exact absent entry kept same, layout.nodup⟩
      have set := layout.set_chainOf (fun node member => by
        rcases List.mem_cons.mp member with rfl | kept
        · exact Or.inr rfl
        · exact Or.inl kept) distinct
      have laid : Layout hashFn { segment with
          buckets := segment.buckets.set (getIndex segment.buckets.length (hashFn key))
            ((key, value) :: segment.chainOf (hashFn key))
          size := segment.size + 1 } := ⟨set.powTwo, set.placed, set.nodup, set.maxSize⟩
      obtain ⟨grown, moved, sized⟩ := laid.growIfFull wf.room
      refine ⟨grown, by rw [unheld]; rfl, fun entry => ?_, by rw [sized, unheld]; rfl⟩
      rw [moved.mem_iff]
      show entry ∈ (segment.buckets.set _ _).flatten ↔ _
      rw [pushed.mem_iff]
      obtain ⟨other, stored⟩ := entry
      constructor
      · intro member
        rcases List.mem_cons.mp member with same | kept
        · simp at same
          simp [same]
        · exact Or.inr ⟨kept, absent _ kept⟩
      · rintro (⟨same, valued⟩ | ⟨member, -⟩)
        · simp only at same valued
          rw [same, Option.some.inj valued]
          exact List.mem_cons_self
        · exact List.mem_cons_of_mem _ member

/-- `Erase` keeps a segment well formed and answers whether the key was there. The node of the
key goes, every other node stays, and so does `size_`. -/
theorem WellFormed.erase (wf : WellFormed hashFn segment) (key : K) :
    WellFormed hashFn (segment.erase hashFn key).2 ∧ (segment.erase hashFn key).1 = (segment.get hashFn key).isSome ∧
      (∀ entry, entry ∈ (segment.erase hashFn key).2.buckets.flatten ↔
        (entry.1 = key ∧ (none : Option V) = some entry.2) ∨ (entry ∈ segment.buckets.flatten ∧ entry.1 ≠ key)) ∧
      (segment.erase hashFn key).2.size = segment.size := by
  have layout := wf.toLayout
  unfold Segment.erase
  cases found : spliceNode key [] (segment.chainOf (hashFn key)) with
  | some spliced =>
      obtain ⟨old, others, before, after, apart, -, -⟩ := layout.splice found
      have held : segment.get hashFn key = some old :=
        (layout.get_eq_some_iff key old).mpr (before.mem_iff.mpr List.mem_cons_self)
      refine ⟨⟨layout.set_splice found (by simp) (by simp), wf.room⟩, by rw [held]; rfl, fun entry => ?_, rfl⟩
      rw [after.mem_iff, before.mem_iff, List.nil_append]
      constructor
      · intro kept
        exact Or.inr ⟨List.mem_cons_of_mem _ kept, apart entry kept⟩
      · rintro (⟨-, never⟩ | ⟨member, apartKey⟩)
        · cases never
        · rcases List.mem_cons.mp member with rfl | kept
          · exact absurd rfl apartKey
          · exact kept
  | none =>
      have absent := layout.absent_of_spliceNode found
      refine ⟨wf, by rw [(layout.get_eq_none_iff key).mpr absent]; rfl, fun entry => ?_, rfl⟩
      constructor
      · intro member
        exact Or.inr ⟨member, absent entry member⟩
      · rintro (⟨-, never⟩ | ⟨member, -⟩)
        · cases never
        · exact member

/-- One round of an insert and an erase of a key the segment does not hold leaves its nodes as
they were, with `size_` one up. -/
theorem WellFormed.insertErase (wf : WellFormed hashFn segment) (key : K) (value : V)
    (absent : ∀ entry ∈ segment.buckets.flatten, entry.1 ≠ key) :
    WellFormed hashFn ((segment.insertOrUpdate hashFn key value).2.erase hashFn key).2 ∧
      (∀ entry, entry ∈ ((segment.insertOrUpdate hashFn key value).2.erase hashFn key).2.buckets.flatten ↔
        entry ∈ segment.buckets.flatten) ∧
      ((segment.insertOrUpdate hashFn key value).2.erase hashFn key).2.size = segment.size + 1 := by
  obtain ⟨inserted, -, placed, sized⟩ := wf.insertOrUpdate key value
  obtain ⟨erased, -, removed, kept⟩ := inserted.erase key
  have unheld := (wf.get_eq_none_iff key).mpr absent
  refine ⟨erased, fun entry => ?_, by rw [kept, sized, unheld]; rfl⟩
  rw [removed, placed]
  constructor
  · rintro (⟨-, never⟩ | ⟨(⟨same, -⟩ | ⟨member, -⟩), other⟩)
    · cases never
    · exact absurd same other
    · exact member
  · intro member
    exact Or.inr ⟨Or.inr ⟨member, absent entry member⟩, absent entry member⟩

/-- Rounds of an insert and an erase of one key, from a segment without nodes, leave it without
nodes, with `size_` up by the number of rounds. -/
theorem WellFormed.insertErase_iterate (wf : WellFormed hashFn segment) (cleared : segment.buckets.flatten = [])
    (key : K) (value : V) (rounds : Nat) :
    WellFormed hashFn ((fun segment => ((segment.insertOrUpdate hashFn key value).2.erase hashFn key).2)^[rounds] segment) ∧
      ((fun segment => ((segment.insertOrUpdate hashFn key value).2.erase hashFn key).2)^[rounds] segment).buckets.flatten = [] ∧
      ((fun segment => ((segment.insertOrUpdate hashFn key value).2.erase hashFn key).2)^[rounds] segment).size =
        segment.size + rounds := by
  induction rounds with
  | zero => exact ⟨wf, cleared, rfl⟩
  | succ rounds ih =>
      obtain ⟨before, empty, sized⟩ := ih
      obtain ⟨after, moved, grown⟩ := before.insertErase key value (by simp [empty])
      rw [Function.iterate_succ_apply']
      refine ⟨after, List.eq_nil_iff_forall_not_mem.mpr fun entry member => ?_, by rw [grown, sized]; rfl⟩
      rw [moved, empty] at member
      cases member

end Calls

end Segment

end ConcurrentHashMap

/-- `ConcurrentHashMap`: the segment at each of its `NumShards` slots, once made. -/
structure ConcurrentHashMap (K V : Type) where
  segments : Nat → Option (ConcurrentHashMap.Segment K V)

namespace ConcurrentHashMap

variable {K V : Type} [DecidableEq K] (hashFn : K → Nat)

/-- The constructor: no segment yet. -/
def empty : ConcurrentHashMap K V := ⟨fun _ => none⟩

/-- `PickSegment`: the low bits of the hash. -/
def pickSegment (key : K) : Nat := hashFn key &&& (kNumShards - 1)

/-- `EnsureSegment`: the segment at a slot, a new one with 8 buckets when there is none. -/
def ensureSegment (map : ConcurrentHashMap K V) (idx : Nat) : Segment K V :=
  (map.segments idx).getD (.new 8)

/-- A call of the map on a key: the call on the segment the key picks, which is stored at its
slot. -/
def withSegment {α : Type} (map : ConcurrentHashMap K V) (key : K) (op : Segment K V → α × Segment K V) :
    α × ConcurrentHashMap K V :=
  let idx := pickSegment hashFn key
  let after := op (map.ensureSegment idx)
  (after.1, ⟨Function.update map.segments idx (some after.2)⟩)

/-- `Get` and `GetUnsafe`, which make the segment when it is not there. -/
def get (map : ConcurrentHashMap K V) (key : K) : Option V × ConcurrentHashMap K V :=
  map.withSegment hashFn key fun segment => (segment.get hashFn key, segment)

def insertOrUpdate (map : ConcurrentHashMap K V) (key : K) (value : V) : Bool × ConcurrentHashMap K V :=
  map.withSegment hashFn key fun segment => segment.insertOrUpdate hashFn key value

def erase (map : ConcurrentHashMap K V) (key : K) : Bool × ConcurrentHashMap K V :=
  map.withSegment hashFn key fun segment => segment.erase hashFn key

/-- A call of one thread on the map; `MemOnlyStorage` makes them for `Read`, `Write` and
`Delete`. -/
inductive Call (K V : Type) where
  | get (key : K)
  | getUnsafe (key : K)
  | insertOrUpdate (key : K) (value : V)
  | erase (key : K)
  deriving DecidableEq, Repr

/-- What a call returns: the value found, or whether the key was there. -/
inductive Reply (V : Type) where
  | value (result : Option V)
  | found (present : Bool)
  deriving DecidableEq, Repr

def call (map : ConcurrentHashMap K V) : Call K V → Reply V × ConcurrentHashMap K V
  | .get key | .getUnsafe key => Prod.map .value id (map.get hashFn key)
  | .insertOrUpdate key value => Prod.map .found id (map.insertOrUpdate hashFn key value)
  | .erase key => Prod.map .found id (map.erase hashFn key)

/-- The calls one after the other, with their replies. -/
def run (map : ConcurrentHashMap K V) : List (Call K V) → List (Reply V) × ConcurrentHashMap K V
  | [] => ([], map)
  | c :: calls =>
      let rest := (map.call hashFn c).2.run calls
      ((map.call hashFn c).1 :: rest.1, rest.2)

namespace FiniteMap

/-- What the calls are for: a finite map from keys to values, as a function. -/
def call (contents : K → Option V) : Call K V → Reply V × (K → Option V)
  | .get key | .getUnsafe key => (.value (contents key), contents)
  | .insertOrUpdate key value => (.found (contents key).isSome, Function.update contents key (some value))
  | .erase key => (.found (contents key).isSome, Function.update contents key none)

def run (contents : K → Option V) : List (Call K V) → List (Reply V) × (K → Option V)
  | [] => ([], contents)
  | c :: calls =>
      let rest := run (call contents c).2 calls
      ((call contents c).1 :: rest.1, rest.2)

/-- The finite map after the calls, as a fold of the calls over it. -/
theorem run_snd (contents : K → Option V) (calls : List (Call K V)) :
    (run contents calls).2 = calls.foldl (fun contents c => (call contents c).2) contents := by
  induction calls generalizing contents with
  | nil => rfl
  | cons c calls ih => exact ih (call contents c).2

end FiniteMap

/-- The finite map a map stands for: the value `Get` finds for each key. -/
def contents (map : ConcurrentHashMap K V) (key : K) : Option V :=
  (map.ensureSegment (pickSegment hashFn key)).get hashFn key

/-- Every segment made so far is well formed. -/
def Valid (map : ConcurrentHashMap K V) : Prop :=
  ∀ idx segment, map.segments idx = some segment → Segment.WellFormed hashFn segment

section Refinement

variable {hashFn} {map : ConcurrentHashMap K V}

omit [DecidableEq K] in
theorem valid_empty : Valid hashFn (empty : ConcurrentHashMap K V) := fun _ _ made => by cases made

omit [DecidableEq K] in
theorem Valid.ensureSegment (valid : Valid hashFn map) (idx : Nat) : Segment.WellFormed hashFn (map.ensureSegment idx) := by
  unfold ConcurrentHashMap.ensureSegment
  cases made : map.segments idx with
  | none => exact Segment.wellFormed_new hashFn
  | some segment => exact valid idx segment made

omit [DecidableEq K] in
/-- A call on a key changes the segment it picks, and no other. -/
theorem ensureSegment_withSegment {α : Type} (key : K) (op : Segment K V → α × Segment K V) (idx : Nat) :
    (map.withSegment hashFn key op).2.ensureSegment idx =
      if idx = pickSegment hashFn key then (op (map.ensureSegment (pickSegment hashFn key))).2 else map.ensureSegment idx := by
  unfold ConcurrentHashMap.withSegment ConcurrentHashMap.ensureSegment
  split_ifs with picked
  · subst picked
    simp
  · simp [Function.update_of_ne picked]

omit [DecidableEq K] in
theorem Valid.withSegment {α : Type} (valid : Valid hashFn map) {key : K} {op : Segment K V → α × Segment K V}
    (kept : Segment.WellFormed hashFn (op (map.ensureSegment (pickSegment hashFn key))).2) :
    Valid hashFn (map.withSegment hashFn key op).2 := by
  intro idx segment made
  by_cases picked : idx = pickSegment hashFn key
  · subst picked
    simp only [ConcurrentHashMap.withSegment, Function.update_self, Option.some.injEq] at made
    rw [← made]
    exact kept
  · simp only [ConcurrentHashMap.withSegment, Function.update_of_ne picked] at made
    exact valid idx segment made

/-- A call on a key whose segment then finds the result for the key, and for every other key
what it found before, changes the finite map at that key alone. -/
theorem contents_withSegment {α : Type} {key : K} {op : Segment K V → α × Segment K V} {result : Option V}
    (changed : ∀ other, (op (map.ensureSegment (pickSegment hashFn key))).2.get hashFn other =
      if other = key then result else (map.ensureSegment (pickSegment hashFn key)).get hashFn other) :
    contents hashFn (map.withSegment hashFn key op).2 = Function.update (contents hashFn map) key result := by
  funext other
  show ((map.withSegment hashFn key op).2.ensureSegment (pickSegment hashFn other)).get hashFn other = _
  rw [ensureSegment_withSegment]
  split_ifs with picked
  · rw [changed]
    by_cases same : other = key
    · subst same
      simp
    · rw [if_neg same, Function.update_of_ne same, contents, picked]
  · -- another segment: the key is another one too
    have apart : other ≠ key := fun same => picked (same ▸ rfl)
    rw [Function.update_of_ne apart]
    rfl

/-- Each call on a valid map keeps it valid, replies as the call on the finite map it stands for,
and changes that finite map as the call does. -/
theorem Valid.call (valid : Valid hashFn map) (c : Call K V) :
    Valid hashFn (map.call hashFn c).2 ∧ (map.call hashFn c).1 = (FiniteMap.call (contents hashFn map) c).1 ∧
      contents hashFn (map.call hashFn c).2 = (FiniteMap.call (contents hashFn map) c).2 := by
  have wf := valid.ensureSegment
  cases c with
  | get key | getUnsafe key =>
      have kept : Valid hashFn (map.get hashFn key).2 := valid.withSegment (wf _)
      refine ⟨kept, rfl, ?_⟩
      rw [FiniteMap.call, ← Function.update_eq_self key (contents hashFn map)]
      exact contents_withSegment fun other => by split_ifs with same <;> simp [same, contents]
  | insertOrUpdate key value =>
      obtain ⟨inserted, found, placed, -⟩ := (wf (pickSegment hashFn key)).insertOrUpdate key value
      have kept : Valid hashFn (map.insertOrUpdate hashFn key value).2 := valid.withSegment inserted
      refine ⟨kept, by simp [ConcurrentHashMap.call, ConcurrentHashMap.insertOrUpdate,
        ConcurrentHashMap.withSegment, found, FiniteMap.call, contents], ?_⟩
      show contents hashFn (map.insertOrUpdate hashFn key value).2 = Function.update (contents hashFn map) key (some value)
      exact contents_withSegment ((wf _).get_eq_of_mem_iff inserted.toLayout key (some value) placed)
  | erase key =>
      obtain ⟨erased, found, removed, -⟩ := (wf (pickSegment hashFn key)).erase key
      have kept : Valid hashFn (map.erase hashFn key).2 := valid.withSegment erased
      refine ⟨kept, by simp [ConcurrentHashMap.call, ConcurrentHashMap.erase,
        ConcurrentHashMap.withSegment, found, FiniteMap.call, contents], ?_⟩
      show contents hashFn (map.erase hashFn key).2 = Function.update (contents hashFn map) key none
      exact contents_withSegment ((wf _).get_eq_of_mem_iff erased.toLayout key none removed)

/-- The run lemma: a valid map runs the calls as the finite map it stands for. -/
theorem Valid.run (valid : Valid hashFn map) (calls : List (Call K V)) :
    Valid hashFn (map.run hashFn calls).2 ∧ (map.run hashFn calls).1 = (FiniteMap.run (contents hashFn map) calls).1 ∧
      contents hashFn (map.run hashFn calls).2 = (FiniteMap.run (contents hashFn map) calls).2 := by
  induction calls generalizing map with
  | nil => exact ⟨valid, rfl, rfl⟩
  | cons c calls ih =>
      obtain ⟨stepped, replied, moved⟩ := valid.call c
      obtain ⟨ran, replies, contented⟩ := ih stepped
      refine ⟨ran, ?_, ?_⟩
      · simp only [ConcurrentHashMap.run, FiniteMap.run, replied, replies, moved]
      · simp only [ConcurrentHashMap.run, FiniteMap.run, contented, moved]

end Refinement

omit [DecidableEq K] in
@[simp] theorem ensureSegment_empty (idx : Nat) : (empty : ConcurrentHashMap K V).ensureSegment idx = .new 8 := rfl

/-- A map used by one thread is a finite map: from the constructor, every run of calls replies as
the finite map without keys does and changes it as that map does, and no segment holds a key
twice. -/
theorem run_refines_finiteMap (calls : List (Call K V)) :
    (empty.run hashFn calls).1 = (FiniteMap.run (fun _ => none) calls).1 ∧
      contents hashFn (empty.run hashFn calls).2 = (FiniteMap.run (fun _ => none) calls).2 ∧
      ∀ idx segment, (empty.run hashFn calls).2.segments idx = some segment →
        (segment.buckets.flatten.map Prod.fst).Nodup := by
  have fresh : contents hashFn (empty : ConcurrentHashMap K V) = fun _ => none := by
    funext key
    simp only [contents, ensureSegment_empty, Segment.get, Segment.chainOf, Segment.new, Buckets.getD_replicate_nil,
      List.find?_nil, Option.map_none]
  obtain ⟨valid, replies, contented⟩ := (@valid_empty K V hashFn).run calls
  rw [fresh] at replies contented
  exact ⟨replies, contented, fun idx segment made => (valid idx segment made).nodup⟩

theorem run_append (map : ConcurrentHashMap K V) (first second : List (Call K V)) :
    map.run hashFn (first ++ second) =
      ((map.run hashFn first).1 ++ ((map.run hashFn first).2.run hashFn second).1,
        ((map.run hashFn first).2.run hashFn second).2) := by
  induction first generalizing map with
  | nil => rfl
  | cons c first ih => simp [run, ih]

/-- Rounds of an insert and an erase of one key. -/
def insertEraseRounds (key : K) (value : V) (rounds : Nat) : List (Call K V) :=
  (List.replicate rounds [.insertOrUpdate key value, .erase key]).flatten

/-- The rounds act on the segment of the key alone, a round at a time. -/
theorem ensureSegment_run_insertEraseRounds (map : ConcurrentHashMap K V) (key : K) (value : V) (rounds : Nat) :
    (map.run hashFn (insertEraseRounds key value rounds)).2.ensureSegment (pickSegment hashFn key) =
      (fun segment => ((segment.insertOrUpdate hashFn key value).2.erase hashFn key).2)^[rounds]
        (map.ensureSegment (pickSegment hashFn key)) := by
  induction rounds with
  | zero => rfl
  | succ rounds ih =>
      rw [insertEraseRounds, List.replicate_succ', List.flatten_append, ← insertEraseRounds, run_append,
        Function.iterate_succ_apply', ← ih, List.flatten_singleton]
      generalize (map.run hashFn (insertEraseRounds key value rounds)).2 = before
      show ((before.insertOrUpdate hashFn key value).2.erase hashFn key).2.ensureSegment (pickSegment hashFn key) = _
      rw [ConcurrentHashMap.erase, ensureSegment_withSegment, if_pos rfl, ConcurrentHashMap.insertOrUpdate,
        ensureSegment_withSegment, if_pos rfl]

theorem size_counts_erased_nodes (key : K) (value : V) (rounds : Nat) :
    ((empty.run hashFn (insertEraseRounds key value rounds)).2.ensureSegment (pickSegment hashFn key)).buckets.flatten = [] ∧
      ((empty.run hashFn (insertEraseRounds key value rounds)).2.ensureSegment (pickSegment hashFn key)).size = rounds ∧
      rounds < 2 * ((empty.run hashFn (insertEraseRounds key value rounds)).2.ensureSegment
        (pickSegment hashFn key)).buckets.length := by
  rw [ensureSegment_run_insertEraseRounds, ensureSegment_empty]
  obtain ⟨wf, cleared, sized⟩ := (Segment.wellFormed_new hashFn).insertErase_iterate (by simp [Segment.new]) key value rounds
  refine ⟨cleared, by rw [sized]; simp [Segment.new], ?_⟩
  have room := wf.room
  rw [wf.maxSize, sized] at room
  have bound := loadFactorMax_le_double
    ((fun segment => ((segment.insertOrUpdate hashFn key value).2.erase hashFn key).2)^[rounds]
      (Segment.new 8 : Segment K V)).buckets.length
  have start : (Segment.new 8 : Segment K V).size = 0 := rfl
  rw [start, Nat.zero_add] at room
  omega

example : ((empty.run (fun n : Nat => n) (insertEraseRounds 0 0 8)).2.ensureSegment 0).buckets.length = 16 := by
  decide

end ConcurrentHashMap

end Slog
