/-
The txn's storage adapter (`execution/tpcc/storage_adapter.cpp`) while its index is sound.
-/

import Mathlib
import Slog.Tpcc.Table

namespace Slog.Tpcc

namespace TxnStorageAdapter

/-- The txn's keys are distinct, and `key_index_` holds each of them at its position. -/
def Indexed (adapter : TxnStorageAdapter) : Prop :=
  (adapter.keys.map TxnKey.key).Nodup ∧ adapter.keyIndex = (adapter.keys.map TxnKey.key).zipIdx

/-- `emplace` of keys not yet in the index, each once, appends them in turn. -/
theorem foldl_emplace (entries : List (TxnKey × Nat)) (keyIndex : List (Bytes × Nat))
    (distinct : (entries.map (·.1.key)).Nodup)
    (fresh : ∀ entry ∈ entries, ∀ indexed ∈ keyIndex, indexed.1 ≠ entry.1.key) :
    entries.foldl (fun keyIndex entry => emplace keyIndex entry.1.key entry.2) keyIndex =
      keyIndex ++ entries.map fun entry => (entry.1.key, entry.2) := by
  induction entries generalizing keyIndex with
  | nil => simp
  | cons entry entries ih =>
      rw [List.map_cons, List.nodup_cons] at distinct
      have unindexed : keyIndex.any (·.1 = entry.1.key) = false := by
        simpa using fresh entry List.mem_cons_self
      have stillFresh : ∀ other ∈ entries, ∀ indexed ∈ keyIndex ++ [(entry.1.key, entry.2)],
          indexed.1 ≠ other.1.key := by
        intro other member indexed indexedMember same
        rcases List.mem_append.mp indexedMember with old | new
        · exact fresh other (List.mem_cons_of_mem _ member) indexed old same
        · rw [List.mem_singleton] at new
          subst new
          exact distinct.1 (List.mem_map.mpr ⟨other, member, same.symm⟩)
      rw [List.foldl_cons, emplace, unindexed, if_neg Bool.false_ne_true, ih _ distinct.2 stillFresh]
      simp

/-- The constructor indexes distinct keys soundly. -/
theorem indexed_new {keys : List TxnKey} (distinct : (keys.map TxnKey.key).Nodup) : (new keys).Indexed := by
  have entriesDistinct : (keys.zipIdx.map (·.1.key)).Nodup := by
    have names : keys.zipIdx.map (·.1.key) = keys.map TxnKey.key := by
      apply List.ext_getElem?
      intro i
      simp [List.getElem?_zipIdx, Function.comp_def]
    rwa [names]
  refine ⟨distinct, ?_⟩
  simp only [new]
  rw [foldl_emplace _ _ entriesDistinct (by simp), List.nil_append, List.zipIdx_map]
  rfl

variable {adapter : TxnStorageAdapter}

/-- What the index finds for a key is its position among the txn's keys. -/
theorem Indexed.find_eq_some_iff (indexed : adapter.Indexed) {key : Bytes} {i : Nat} :
    adapter.find key = some i ↔ (adapter.keys.map TxnKey.key)[i]? = some key := by
  obtain ⟨distinct, indexedAt⟩ := indexed
  have sound : ∀ j, adapter.find key = some j → (adapter.keys.map TxnKey.key)[j]? = some key := by
    intro j found
    obtain ⟨entry, located, rfl⟩ := Option.map_eq_some_iff.mp found
    have member := List.mem_of_find?_eq_some located
    have named : entry.1 = key := by simpa using List.find?_some located
    rw [indexedAt, List.mem_zipIdx_iff_getElem?] at member
    rw [member, named]
  refine ⟨sound i, fun named => ?_⟩
  cases found : adapter.find key with
  | none =>
      have member : (key, i) ∈ adapter.keyIndex := by
        rw [indexedAt, List.mem_zipIdx_iff_getElem?]
        exact named
      unfold find at found
      rw [Option.map_eq_none_iff, List.find?_eq_none] at found
      exact absurd (by simp) (found _ member)
  | some j =>
      have within : i < (adapter.keys.map TxnKey.key).length := (List.getElem?_eq_some_iff.mp named).1
      rw [(List.getElem?_inj within distinct).mp (named.trans (sound j found).symm)]

theorem Indexed.checkIndexSize (indexed : adapter.Indexed) : adapter.checkIndexSize = .ok () := by
  have sized : adapter.keyIndex.length = adapter.keys.length := by
    rw [indexed.2, List.length_zipIdx, List.length_map]
  simp [TxnStorageAdapter.checkIndexSize, sized, pure, Except.pure]

section Entry

variable {i : Nat} {entry : TxnKey}

theorem Indexed.find_of_getElem? (indexed : adapter.Indexed) (present : adapter.keys[i]? = some entry) :
    adapter.find entry.key = some i :=
  indexed.find_eq_some_iff.mpr (by simp [present])

/-- `Read` of a key of the txn gives the value read at its position. -/
theorem Indexed.read (indexed : adapter.Indexed) (present : adapter.keys[i]? = some entry) :
    adapter.read entry.key = .ok (some entry.value) := by
  simp [TxnStorageAdapter.read, indexed.checkIndexSize, indexed.find_of_getElem? present, Execution.repeatedAt,
    present, bind, Except.bind, pure, Except.pure]

/-- `Insert` into a WRITE key of the txn sets the new value at its position. -/
theorem Indexed.insert (indexed : adapter.Indexed) (present : adapter.keys[i]? = some entry)
    (write : entry.type = .write) (value : Bytes) :
    adapter.insert entry.key value =
      .ok (true, { adapter with keys := adapter.keys.set i { entry with newValue := value } }) := by
  simp [TxnStorageAdapter.insert, indexed.checkIndexSize, indexed.find_of_getElem? present, Execution.repeatedAt,
    present, write, bind, Except.bind, pure, Except.pure]

/-- A new value set at a position keeps the index sound. -/
theorem Indexed.set (indexed : adapter.Indexed) (present : adapter.keys[i]? = some entry) (value : Bytes) :
    ({ adapter with keys := adapter.keys.set i { entry with newValue := value } } : TxnStorageAdapter).Indexed := by
  obtain ⟨within, atPosition⟩ := List.getElem?_eq_some_iff.mp present
  have names : (adapter.keys.set i { entry with newValue := value }).map TxnKey.key = adapter.keys.map TxnKey.key := by
    apply List.ext_getElem?
    intro j
    by_cases same : i = j
    · subst same
      simp [within, atPosition]
    · simp [same]
  exact ⟨names ▸ indexed.1, names ▸ indexed.2⟩

end Entry

/-- A flush makes each new value the value read and keeps the index sound. -/
theorem flush_keys (adapter : TxnStorageAdapter) (i : Nat) :
    adapter.flush.keys[i]? = adapter.keys[i]?.map fun entry =>
      { entry with value := if entry.newValue = [] then entry.value else entry.newValue, newValue := [] } := by
  simp [flush]

theorem Indexed.flush (indexed : adapter.Indexed) : adapter.flush.Indexed := by
  have names : adapter.flush.keys.map TxnKey.key = adapter.keys.map TxnKey.key := by
    simp [TxnStorageAdapter.flush, Function.comp_def]
  exact ⟨names ▸ indexed.1, names ▸ indexed.2⟩

end TxnStorageAdapter

end Slog.Tpcc
