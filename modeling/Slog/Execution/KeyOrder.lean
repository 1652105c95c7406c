/-
With distinct keys, `Execute` does not depend on the order of a txn's entries, as the worker needs:
it appends remote reads to the keys in the order the messages arrive.
-/

import Slog.Execution.KeyValue
import Slog.Library.Lookup

namespace Slog.Execution

/-- The entry `key_index` gives a key: its first one. -/
def entryOf (keys : List KeyEntry) (key : Key) : Option KeyEntry :=
  keys.find? (·.key = key)

/-- Two lists of entries that give every key the same entry. -/
def SameEntries (keys keys' : List KeyEntry) : Prop :=
  ∀ key, entryOf keys key = entryOf keys' key

/-- The key a command gives a new value, and the value. -/
def assignedKey (keys : List KeyEntry) (args : List String) : Option (Key × String) :=
  (assignment keys args).bind fun target => keys[target.1]?.map fun entry => (entry.key, target.2)

/-- The new value of a key after the commands: that of the last command that assigns the key, or
the one it had. -/
def newValueOf (keys : List KeyEntry) (procedures : List (List String)) (key : Key) (initial : String) : String :=
  procedures.foldl (fun value args =>
    match assignedKey keys args with
    | some (assigned, assignedValue) => if assigned = key then assignedValue else value
    | none => value) initial

/-- An entry with the new value the commands give its key. -/
def KeyEntry.executed (keys : List KeyEntry) (procedures : List (List String)) (entry : KeyEntry) : KeyEntry :=
  { entry with newValue := newValueOf keys procedures entry.key entry.newValue }

section Lookups

variable {keys keys' : List KeyEntry} {key : Key}

theorem entryOf_of_keyIndex {i : Nat} (found : keyIndex keys key = some i) : keys[i]? = entryOf keys key :=
  Lookup.findIdx?_getElem? KeyEntry.key found

theorem isSome_keyIndex : (keyIndex keys key).isSome = (entryOf keys key).isSome := by
  rw [keyIndex, entryOf, List.findIdx?_isSome, List.isSome_find?]

theorem isNone_keyIndex : (keyIndex keys key).isNone = (entryOf keys key).isNone := by
  rw [← Option.not_isSome, ← Option.not_isSome, isSome_keyIndex]

/-- Looking up the entry at the index of a key finds the entry of the key. -/
theorem keyIndex_bind : (keyIndex keys key).bind (fun i => keys[i]?) = entryOf keys key := by
  cases found : keyIndex keys key with
  | none =>
      have missing : (keyIndex keys key).isNone = (entryOf keys key).isNone := isNone_keyIndex
      rw [found, Option.isNone_none, eq_comm, Option.isNone_iff_eq_none] at missing
      rw [missing]
      rfl
  | some i => exact entryOf_of_keyIndex found

theorem readValue_eq_map : readValue keys key = (entryOf keys key).map (·.value) := by
  rw [← keyIndex_bind, Option.map_bind, readValue]
  rfl

theorem writeIndex_bind : (writeIndex keys key).bind (fun i => keys[i]?) = (entryOf keys key).filter (·.type = .write) := by
  cases found : keyIndex keys key with
  | none =>
      rw [← keyIndex_bind, found]
      simp [writeIndex, found]
  | some i =>
      obtain ⟨entry, present, -⟩ := keyIndex_spec found
      rw [writeIndex_of_found found present, ← entryOf_of_keyIndex found, present]
      by_cases write : entry.type = .write <;> simp [write, present, Option.filter]

theorem isSome_writeIndex :
    (writeIndex keys key).isSome = ((entryOf keys key).filter (·.type = .write)).isSome := by
  cases found : keyIndex keys key with
  | none =>
      rw [← keyIndex_bind, found]
      simp [writeIndex, found]
  | some i =>
      obtain ⟨entry, present, -⟩ := keyIndex_spec found
      rw [writeIndex_of_found found present, ← entryOf_of_keyIndex found, present]
      by_cases write : entry.type = .write <;> simp [write, Option.filter]

/-- With distinct keys, the entries of a key are the same in any order. -/
theorem sameEntries_of_perm (perm : keys.Perm keys') (distinct : (keys.map KeyEntry.key).Nodup) :
    SameEntries keys keys' :=
  Lookup.find?_perm KeyEntry.key perm distinct

end Lookups

/-! Each part of the meaning of a command reads the keys only through the entries of its
arguments, so two lists with the same entries give it the same meaning. -/

section Congruence

variable {keys keys' : List KeyEntry} (same : SameEntries keys keys')
include same

theorem SameEntries.faulty_eq (args : List String) : faulty keys args = faulty keys' args := by
  rcases args with _ | ⟨command, _ | ⟨key, _ | ⟨_, _⟩⟩⟩
  · rfl
  · rfl
  · simp only [faulty, isSome_writeIndex, isSome_keyIndex, isNone_keyIndex, same key]
  · simp only [faulty, isNone_keyIndex, same key]

theorem SameEntries.mismatch_eq (args : List String) : mismatch keys args = mismatch keys' args := by
  rcases args with _ | ⟨command, _ | ⟨key, _ | ⟨_, _⟩⟩⟩
  · rfl
  · rfl
  · rfl
  · simp only [mismatch, readValue_eq_map, same key]

theorem SameEntries.assignedKey_eq (args : List String) : assignedKey keys args = assignedKey keys' args := by
  rcases args with _ | ⟨command, _ | ⟨key, _ | ⟨value, _⟩⟩⟩
  · rfl
  · rfl
  · rfl
  · -- the entry assigned is the one of the key `SET` or `COPY` writes, read through `key_index`
    have written : ∀ (target : Key) (read : String),
        ((writeIndex keys target).map (·, read)).bind (fun target => keys[target.1]?.map fun entry => (entry.key, target.2)) =
          ((entryOf keys target).filter (·.type = .write)).map fun entry => (entry.key, read) := by
      intro target read
      rw [Option.bind_map, ← writeIndex_bind, Option.map_bind]
      rfl
    have written' : ∀ (target : Key) (read : String),
        ((writeIndex keys' target).map (·, read)).bind (fun target => keys'[target.1]?.map fun entry => (entry.key, target.2)) =
          ((entryOf keys' target).filter (·.type = .write)).map fun entry => (entry.key, read) := by
      intro target read
      rw [Option.bind_map, ← writeIndex_bind, Option.map_bind]
      rfl
    simp only [assignedKey, assignment]
    split_ifs
    · rw [written, written', same key]
    · rw [Option.bind_assoc, Option.bind_assoc, readValue_eq_map, readValue_eq_map, same key]
      simp only [written, written', same value]
    · rfl

theorem SameEntries.newValueOf_eq (procedures : List (List String)) :
    newValueOf keys procedures = newValueOf keys' procedures := by
  funext key initial
  simp only [newValueOf, same.assignedKey_eq]

theorem SameEntries.executed_eq (procedures : List (List String)) :
    KeyEntry.executed keys procedures = KeyEntry.executed keys' procedures := by
  unfold KeyEntry.executed
  rw [same.newValueOf_eq]

end Congruence

section Meaning

variable {keys : List KeyEntry}

theorem foldl_perform_abortReason (procedures : List (List String)) (state : ExecuteState) :
    (procedures.foldl (ExecuteState.perform keys) state).abortReason =
      procedures.foldl (fun reason args => reason ++ (mismatch keys args).getD "") state.abortReason := by
  induction procedures generalizing state with
  | nil => rfl
  | cons args procedures ih => rw [List.foldl_cons, ih]; rfl

/-- With distinct keys, the new value of the entry at an index is that of its key. -/
theorem lastAssigned_eq_newValueOf (distinct : (keys.map KeyEntry.key).Nodup) {i : Nat} {entry : KeyEntry}
    (present : keys[i]? = some entry) (procedures : List (List String)) (initial : String) :
    lastAssigned keys procedures i initial = newValueOf keys procedures entry.key initial := by
  induction procedures generalizing initial with
  | nil => rfl
  | cons args procedures ih =>
      simp only [lastAssigned, newValueOf, List.foldl_cons] at ih ⊢
      rw [ih]
      congr 1
      cases assigned : assignment keys args with
      | none => simp [assignedKey, assigned]
      | some target =>
          obtain ⟨j, value⟩ := target
          cases present' : keys[j]? with
          | none =>
              have other : j ≠ i := fun same => by simp [same, present] at present'
              simp [assignedKey, assigned, present', other]
          | some entry' =>
              simp [assignedKey, assigned, present', Lookup.index_eq_iff KeyEntry.key distinct present' present]

/-- With distinct keys, each entry ends with the new value the commands give its key. -/
theorem mapIdx_lastAssigned (distinct : (keys.map KeyEntry.key).Nodup) (procedures : List (List String)) :
    keys.mapIdx (fun i entry => { entry with newValue := lastAssigned keys procedures i entry.newValue }) =
      keys.map (KeyEntry.executed keys procedures) := by
  apply List.ext_getElem?
  intro i
  simp only [List.getElem?_mapIdx, List.getElem?_map]
  cases present : keys[i]? with
  | none => rfl
  | some entry => simp only [Option.map_some, lastAssigned_eq_newValueOf distinct present, KeyEntry.executed]

/-- A txn is the other with its keys when the two differ only in their keys. -/
theorem eq_with_keys {txn txn' : Txn} (others : { txn with keys := txn'.keys } = txn') :
    txn = { txn' with keys := txn.keys } := by
  rw [← others]

/-- Executing entries keeps their keys. -/
theorem map_key_executed (entries : List KeyEntry) (procedures : List (List String)) :
    (entries.map (KeyEntry.executed keys procedures)).map KeyEntry.key = entries.map KeyEntry.key := by
  rw [List.map_map]
  rfl

/-- With distinct keys, the commands leave the txn with its entries executed. -/
theorem foldl_perform_txn_eq {txn : Txn} (distinct : (txn.keys.map KeyEntry.key).Nodup) (aborted : Bool)
    (reason : String) :
    (txn.procedures.foldl (ExecuteState.perform txn.keys) ⟨txn, aborted, reason⟩).txn =
      { txn with keys := txn.keys.map (KeyEntry.executed txn.keys txn.procedures) } := by
  have keys := @foldl_perform_keys txn.keys txn.procedures ⟨txn, aborted, reason⟩
  rw [mapIdx_lastAssigned distinct] at keys
  rw [eq_with_keys (@foldl_perform_txn txn.keys txn.procedures ⟨txn, aborted, reason⟩), keys]

end Meaning

theorem exists_execute_eq_ok (isLocalKey : Key → Bool) (txn : Txn) :
    (∃ result, execute isLocalKey txn = .ok result) ↔ ∀ args ∈ txn.procedures, faulty txn.keys args = false :=
  ⟨fun ⟨result, ran⟩ => ((execute_eq_ok_iff isLocalKey txn result).mp ran).1,
    fun runs => ⟨_, (execute_eq_ok_iff isLocalKey txn _).mpr ⟨runs, rfl⟩⟩⟩

/-- The local writes of entries in any order leave the storage the same, when their keys are
distinct. -/
theorem find?_writes_perm {entries entries' : List KeyEntry} (perm : entries.Perm entries')
    (distinct : (entries.map KeyEntry.key).Nodup) (local? : KeyEntry → Bool) (key : Key) :
    (entries.filter local?).reverse.find? (·.key = key) = (entries'.filter local?).reverse.find? (·.key = key) := by
  apply Lookup.find?_perm KeyEntry.key
  · exact ((List.reverse_perm _).trans (perm.filter local?)).trans (List.reverse_perm _).symm
  · rw [List.map_reverse, List.nodup_reverse]
    exact distinct.sublist (List.filter_sublist.map _)

/-- `Execute` does not depend on the order of a txn's keys when they are distinct: it returns for
one order exactly when it returns for the other, and then ends the txn the same but for the
order of its entries, with the same entries, and leaves the storage the same. -/
theorem execute_perm_keys (isLocalKey : Key → Bool) (txn : Txn) {keys : List KeyEntry} (perm : keys.Perm txn.keys)
    (distinct : (txn.keys.map KeyEntry.key).Nodup) :
    ((∃ result, execute isLocalKey { txn with keys } = .ok result) ↔ ∃ result, execute isLocalKey txn = .ok result) ∧
      ∀ result result', execute isLocalKey { txn with keys } = .ok result → execute isLocalKey txn = .ok result' →
        { result.1 with keys := result'.1.keys } = result'.1 ∧ result.1.keys.Perm result'.1.keys ∧
          ∀ contents, (ConcurrentHashMap.FiniteMap.run contents result.2).2 =
            (ConcurrentHashMap.FiniteMap.run contents result'.2).2 := by
  have distinct' : (keys.map KeyEntry.key).Nodup := (perm.map _).nodup_iff.mpr distinct
  have same := sameEntries_of_perm perm distinct'
  refine ⟨?_, fun result result' ran ran' => ?_⟩
  · simp only [exists_execute_eq_ok, same.faulty_eq]
  obtain ⟨-, rfl⟩ := (execute_eq_ok_iff isLocalKey _ result).mp ran
  obtain ⟨-, rfl⟩ := (execute_eq_ok_iff isLocalKey txn result').mp ran'
  have aborted := @foldl_perform_aborted keys txn.procedures ⟨{ txn with keys }, false, ""⟩
  have aborted' := @foldl_perform_aborted txn.keys txn.procedures ⟨txn, false, ""⟩
  have reason := @foldl_perform_abortReason keys txn.procedures ⟨{ txn with keys }, false, ""⟩
  have reason' := @foldl_perform_abortReason txn.keys txn.procedures ⟨txn, false, ""⟩
  have executed := @foldl_perform_txn_eq { txn with keys } distinct' false ""
  have executed' := foldl_perform_txn_eq distinct false ""
  simp only [same.mismatch_eq] at aborted reason
  rw [same.executed_eq] at executed
  dsimp only
  rw [aborted, aborted', reason, reason', executed, executed']
  have writes : ((keys.map (KeyEntry.executed txn.keys txn.procedures)).map KeyEntry.key).Nodup := by
    rwa [map_key_executed]
  split_ifs
  · exact ⟨rfl, perm.map _, fun contents => rfl⟩
  · refine ⟨rfl, perm.map _, fun contents => funext fun key => ?_⟩
    simp only [applyWrites_contents, find?_writes_perm (perm.map _) writes]

/-- A txn that copies the value read of one key to another. -/
def copyTxn : Txn where
  keys := [⟨"a", "1", "", .read, none⟩, ⟨"b", "", "", .write, none⟩]
  procedures := [["COPY", "a", "b"]]
  deletedKeys := []
  status := .notStarted
  abortReason := ""

theorem copyTxn_keys_reversed : copyTxn.keys.reverse.Perm copyTxn.keys ∧ (copyTxn.keys.map KeyEntry.key).Nodup ∧
    ((∃ result, execute (fun _ => true) { copyTxn with keys := copyTxn.keys.reverse } = .ok result) ↔
        ∃ result, execute (fun _ => true) copyTxn = .ok result) ∧
      ∀ result result', execute (fun _ => true) { copyTxn with keys := copyTxn.keys.reverse } = .ok result →
        execute (fun _ => true) copyTxn = .ok result' →
        { result.1 with keys := result'.1.keys } = result'.1 ∧ result.1.keys.Perm result'.1.keys ∧
          ∀ contents, (ConcurrentHashMap.FiniteMap.run contents result.2).2 =
            (ConcurrentHashMap.FiniteMap.run contents result'.2).2 :=
  ⟨List.reverse_perm _, by decide, execute_perm_keys (fun _ => true) copyTxn (List.reverse_perm _) (by decide)⟩

end Slog.Execution
