/-
What a select returns after an insert and a flush of the written bytes.
-/

import Mathlib
import Slog.Tpcc.Table
import Slog.Tpcc.Keys
import Slog.Tpcc.StorageAdapter
import Slog.Library.Folds

namespace Slog.Tpcc

open LittleEndian
open Execution (repeatedAt)

section Keys

variable {schema : Schema} {values : List Scalar}

/-- A key is made only for values that hold the whole primary key. -/
theorem keyPrefix_length {key : Bytes} (made : schema.keyPrefix values = .ok key) : schema.pkeySize ≤ values.length := by
  unfold Schema.keyPrefix at made
  by_contra short
  simp [Nat.lt_of_not_le short, bind, Except.bind, throw, throwThe, MonadExceptOf.throw] at made

theorem makeStorageKeys_length {columns : List Nat} {keys : List Bytes}
    (made : schema.makeStorageKeys values columns = .ok keys) : schema.pkeySize ≤ values.length := by
  unfold Schema.makeStorageKeys at made
  cases prefixed : schema.keyPrefix values with
  | error message => simp [prefixed, bind, Except.bind] at made
  | ok key => exact keyPrefix_length prefixed

end Keys

section KeyColumns

variable (schema : Schema) (adapter : TxnStorageAdapter) {pkey : List Scalar} {keys : List Bytes}

/-- Key columns never count as a value found: the loop over them keeps the flag. -/
theorem foldlM_selectColumn_of_key (long : schema.pkeySize ≤ pkey.length) (entries : List (Nat × Nat))
    (keyOnly : ∀ entry ∈ entries, entry.1 < schema.pkeySize) (state : Bool × List Scalar) :
    ∃ result, entries.foldlM (Table.selectColumn schema adapter pkey keys) state = .ok (state.1, result) := by
  induction entries generalizing state with
  | nil => exact ⟨state.2, rfl⟩
  | cons entry entries ih =>
      have isKey := keyOnly entry List.mem_cons_self
      have bound : entry.1 < pkey.length := by omega
      have step : Table.selectColumn schema adapter pkey keys state entry =
          .ok (state.1, state.2 ++ [pkey[entry.1]]) := by
        simp [Table.selectColumn, isKey, Execution.repeatedAt_of_lt bound, bind, Except.bind, pure, Except.pure]
      obtain ⟨result, rest⟩ := ih (fun other member => keyOnly other (List.mem_cons_of_mem _ member))
        (state.1, state.2 ++ [pkey[entry.1]])
      exact ⟨result, by rw [List.foldlM_cons, step]; exact rest⟩

end KeyColumns

/-! A row typed as its schema: each value of its column's type, fixed texts of their width. -/

section Layout

variable {schema : Schema} {row : List Scalar}

/-- Values laid one after another: each at the length of the bytes before it. -/
theorem getElem?_offsetsFrom (values : List Scalar) (base j : Nat) (within : j < values.length) :
    (Schema.offsetsFrom base (values.map Scalar.type))[j]? =
      some (base + ((values.take j).flatMap Scalar.data).length) := by
  induction values generalizing base j with
  | nil => simp at within
  | cons value values ih =>
      cases j with
      | zero => simp [Schema.offsetsFrom]
      | succ j =>
          rw [List.map_cons, Schema.offsetsFrom, List.getElem?_cons_succ, ih _ j (by simpa using within)]
          simp [Nat.add_assoc]

theorem columnOffsets_of_typed (typed : row.map Scalar.type = schema.columnTypes) {column : Nat}
    (nonKey : schema.pkeySize ≤ column) (within : column < row.length) :
    schema.columnOffsets[column]? =
      some (((row.drop schema.pkeySize).take (column - schema.pkeySize)).flatMap Scalar.data).length := by
  rw [Schema.columnOffsets, ← typed, ← List.map_drop, List.getElem?_append_right (by simpa using nonKey),
    List.length_replicate, getElem?_offsetsFrom _ _ _ (by simp; omega), Nat.zero_add]

/-- A non-key column is read back at its offset of the row's value, whatever follows the value. -/
theorem columnScalar_of_typed (typed : row.map Scalar.type = schema.columnTypes) {column : Nat}
    (nonKey : schema.pkeySize ≤ column) (within : column < row.length) (tail : Bytes) :
    Table.columnScalar schema ((row.drop schema.pkeySize).flatMap Scalar.data ++ tail) column = .ok row[column] := by
  have typeAt : schema.columnTypes[column]? = some row[column].type := by
    rw [← typed, List.getElem?_map, List.getElem?_eq_getElem within]
    rfl
  have dropped : (row.drop schema.pkeySize).drop (column - schema.pkeySize) = row[column] :: row.drop (column + 1) := by
    rw [List.drop_drop, Nat.add_sub_cancel' nonKey]
    exact List.drop_eq_getElem_cons within
  have split : ((row.drop schema.pkeySize).flatMap Scalar.data ++ tail).drop
      (((row.drop schema.pkeySize).take (column - schema.pkeySize)).flatMap Scalar.data).length =
        row[column].data ++ ((row.drop (column + 1)).flatMap Scalar.data ++ tail) := by
    have whole : (row.drop schema.pkeySize).flatMap Scalar.data =
        ((row.drop schema.pkeySize).take (column - schema.pkeySize)).flatMap Scalar.data ++
          ((row.drop schema.pkeySize).drop (column - schema.pkeySize)).flatMap Scalar.data := by
      rw [← List.flatMap_append, List.take_append_drop]
    rw [whole, List.append_assoc, List.drop_left, dropped, List.flatMap_cons, List.append_assoc]
  simp only [Table.columnScalar, Execution.repeatedAt, typeAt, columnOffsets_of_typed typed nonKey within, bind,
    Except.bind]
  rw [split, makeScalar_data]

/-- The non-key columns are read back from the row's value, whatever follows it. -/
theorem mapM_columnScalar_of_typed (typed : row.map Scalar.type = schema.columnTypes) (tail : Bytes) :
    (List.range' schema.pkeySize (schema.numColumns - schema.pkeySize)).mapM
        (Table.columnScalar schema ((row.drop schema.pkeySize).flatMap Scalar.data ++ tail)) =
      .ok (row.drop schema.pkeySize) := by
  have sized : schema.numColumns - schema.pkeySize = (row.drop schema.pkeySize).length := by
    simp [Schema.numColumns, ← typed]
  rw [sized]
  apply Folds.mapM_range'_eq_ok
  intro j within
  rw [List.getElem_drop]
  rw [List.length_drop] at within
  exact columnScalar_of_typed typed (by omega) (by omega) tail

/-- A column of positive size has bytes. -/
theorem data_ne_nil_of_typed (typed : row.map Scalar.type = schema.columnTypes)
    (sized : ∀ type ∈ schema.columnTypes.drop schema.pkeySize, 0 < type.size) {column : Nat}
    (nonKey : schema.pkeySize ≤ column) (within : column < row.length) : row[column].data ≠ [] := by
  have member : row[column].type ∈ schema.columnTypes.drop schema.pkeySize := by
    rw [← typed, ← List.map_drop]
    refine List.mem_map_of_mem (List.mem_of_getElem? (i := column - schema.pkeySize) ?_)
    rw [List.getElem?_drop, Nat.add_sub_cancel' nonKey, List.getElem?_eq_getElem within]
  exact List.ne_nil_of_length_pos (by rw [Scalar.length_data]; exact sized _ member)

theorem validateType_of_typed (typed : row.map Scalar.type = schema.columnTypes) {column : Nat}
    (within : column < row.length) : schema.validateType row[column] column = .ok () :=
  validateType_eq_ok_iff.mpr ⟨row[column].type, by rw [← typed, List.getElem?_map, List.getElem?_eq_getElem within]; rfl,
    rfl⟩

/-- The key of a row is made from its primary key alone. -/
theorem keyPrefix_take (positive : 0 < schema.pkeySize) (values : List Scalar) :
    schema.keyPrefix (values.take schema.pkeySize) = schema.keyPrefix values := by
  obtain ⟨others, sized⟩ := Nat.exists_eq_add_of_lt positive
  unfold Schema.keyPrefix
  cases values with
  | nil => simp
  | cons first rest => simp [sized, List.take_take]

/-- A row typed as its schema has a key. -/
theorem keyPrefix_of_typed (typed : row.map Scalar.type = schema.columnTypes) (positive : 0 < schema.pkeySize)
    (keyed : schema.pkeySize ≤ schema.numColumns) : ∃ key, schema.keyPrefix row = .ok key := by
  have long : row.length = schema.numColumns := by rw [Schema.numColumns, ← typed, List.length_map]
  have checks : ∀ entry ∈ (row.take schema.pkeySize).zipIdx, schema.validateType entry.1 entry.2 = .ok () := by
    rintro ⟨value, column⟩ member
    have located : (row.take schema.pkeySize)[column]? = some value := List.mem_zipIdx_iff_getElem?.mp member
    rw [List.getElem?_take] at located
    split at located
    · obtain ⟨within, atColumn⟩ := List.getElem?_eq_some_iff.mp located
      rw [← atColumn]
      exact validateType_of_typed typed within
    · cases located
  cases row with
  | nil => simp at long; omega
  | cons first rest =>
      refine ⟨first.data ++ [UInt8.ofNat schema.id.toNat] ++ (rest.take (schema.pkeySize - 1)).flatMap Scalar.data, ?_⟩
      simp only [Schema.keyPrefix, show ¬ (first :: rest).length < schema.pkeySize by omega, if_false]
      rw [Folds.forM_eq_ok_iff.mpr ?_]
      · simp only [bind, Except.bind, pure, Except.pure]
      · rintro ⟨value, column⟩ member
        exact checks (value, column) member

end Layout

section Insert

variable {schema : Schema} {row : List Scalar}

/-- `Insert` of a row typed as its schema passes its checks. -/
theorem insert_of_typed (typed : row.map Scalar.type = schema.columnTypes) (adapter : TxnStorageAdapter) :
    Table.insert schema adapter row =
      if schema.grouped then do
        let key ← schema.makeStorageKey row
        adapter.insert key ((row.drop schema.pkeySize).flatMap Scalar.data)
      else (do
        let keys ← schema.makeStorageKeys row []
        (keys.zip (row.drop schema.pkeySize)).foldlM (fun state entry => do
            let (inserted, adapter) ← state.2.insert entry.1 entry.2.data
            pure (state.1 && inserted, adapter)) (true, adapter)) := by
  have long : row.length = schema.numColumns := by rw [Schema.numColumns, ← typed, List.length_map]
  have checked : (List.range' schema.pkeySize (schema.numColumns - schema.pkeySize)).forM
      (fun i => do let value ← repeatedAt row i; schema.validateType value i) = .ok () := by
    refine Folds.forM_eq_ok_iff.mpr fun i member => ?_
    have within : i < row.length := by
      rw [List.mem_range'_1] at member
      omega
    simp only [Execution.repeatedAt_of_lt within, bind, Except.bind]
    exact validateType_of_typed typed within
  simp only [Table.insert, long, ne_eq, not_true_eq_false, if_false]
  rw [checked]
  simp only [bind, Except.bind, pure, Except.pure]

/-- Inserts of values under distinct WRITE keys of the txn: each key gets its value's bytes as
its new value, and the other entries stay as they were. -/
theorem foldlM_insert {adapter : TxnStorageAdapter} (indexed : adapter.Indexed) (writes : List (Bytes × Scalar))
    (distinct : (writes.map Prod.fst).Nodup)
    (writable : ∀ write ∈ writes, ∃ (i : Nat) (entry : TxnKey), adapter.keys[i]? = some entry ∧ entry.key = write.1 ∧
      entry.type = .write)
    (flag : Bool) :
    ∃ written : TxnStorageAdapter,
      writes.foldlM (fun state entry => do
          let (inserted, adapter) ← state.2.insert entry.1 entry.2.data
          pure (state.1 && inserted, adapter)) (flag, adapter) = .ok (flag, written) ∧
        written.Indexed ∧
        (∀ write ∈ writes, ∃ (i : Nat) (entry : TxnKey), written.keys[i]? = some entry ∧ entry.key = write.1 ∧
          entry.newValue = write.2.data) ∧
        ∀ (i : Nat) (entry : TxnKey), adapter.keys[i]? = some entry → entry.key ∉ writes.map Prod.fst →
          written.keys[i]? = some entry := by
  induction writes generalizing adapter with
  | nil => exact ⟨adapter, rfl, indexed, by simp, fun _ _ present _ => present⟩
  | cons write writes ih =>
      obtain ⟨key, value⟩ := write
      rw [List.map_cons, List.nodup_cons] at distinct
      obtain ⟨i, entry, present, named, isWrite⟩ := writable (key, value) List.mem_cons_self
      replace named : entry.key = key := named
      subst named
      have within : i < adapter.keys.length := (List.getElem?_eq_some_iff.mp present).1
      have here : (adapter.keys.set i { entry with newValue := value.data })[i]? =
          some { entry with newValue := value.data } := by simp [within]
      have elsewhere : ∀ j, j ≠ i → (adapter.keys.set i { entry with newValue := value.data })[j]? = adapter.keys[j]? :=
        fun j apart => by simp [Ne.symm apart]
      have writableLater : ∀ later ∈ writes, ∃ (j : Nat) (other : TxnKey),
          (adapter.keys.set i { entry with newValue := value.data })[j]? = some other ∧ other.key = later.1 ∧
            other.type = .write := by
        intro later member
        obtain ⟨j, other, presentLater, namedLater, typeLater⟩ := writable later (List.mem_cons_of_mem _ member)
        have apart : j ≠ i := by
          rintro rfl
          rw [present, Option.some.injEq] at presentLater
          subst presentLater
          exact distinct.1 (List.mem_map.mpr ⟨later, member, namedLater.symm⟩)
        exact ⟨j, other, (elsewhere j apart).trans presentLater, namedLater, typeLater⟩
      obtain ⟨written, ran, indexedWritten, wrote, kept⟩ := ih (indexed.set present value.data) distinct.2 writableLater
      refine ⟨written, ?_, indexedWritten, ?_, ?_⟩
      · simp only [List.foldlM_cons]
        rw [indexed.insert present isWrite value.data]
        show List.foldlM _ (flag && true, _) writes = _
        rw [Bool.and_true]
        exact ran
      · intro other member
        rcases List.mem_cons.mp member with rfl | later
        · exact ⟨i, _, kept i _ here distinct.1, rfl, rfl⟩
        · exact wrote other later
      · intro j other presentOther fresh
        have apart : j ≠ i := by
          rintro rfl
          rw [present, Option.some.injEq] at presentOther
          subst presentOther
          exact fresh List.mem_cons_self
        exact kept j other ((elsewhere j apart).trans presentOther) fun member => fresh (List.mem_cons_of_mem _ member)

end Insert

section Select

variable {schema : Schema} {row : List Scalar} {adapter : TxnStorageAdapter}

/-- A key column asked for is read from the primary key given. -/
theorem repeatedAt_take_of_key {column : Nat} (isKey : column < schema.pkeySize) (within : column < row.length) :
    repeatedAt (row.take schema.pkeySize) column = .ok row[column] := by
  rw [Execution.repeatedAt_of_lt (by simp; omega), List.getElem_take]

/-- A select from a grouped table, whose key holds the row's value and whatever follows it, reads
the row back: whole, or the columns asked for. -/
theorem selectGrouped_of_typed (typed : row.map Scalar.type = schema.columnTypes) (positive : 0 < schema.pkeySize)
    (indexed : adapter.Indexed) {i : Nat} {entry : TxnKey} (present : adapter.keys[i]? = some entry)
    (made : schema.keyPrefix row = .ok entry.key) {tail : Bytes}
    (valued : entry.value = (row.drop schema.pkeySize).flatMap Scalar.data ++ tail) {columns : List Nat}
    (asked : ∀ column ∈ columns, column < schema.numColumns) :
    Table.selectGrouped schema adapter (row.take schema.pkeySize) columns =
      .ok (if columns = [] then row else columns.filterMap fun column => row[column]?) := by
  have long : row.length = schema.numColumns := by rw [Schema.numColumns, ← typed, List.length_map]
  simp only [Table.selectGrouped, Schema.makeStorageKey, keyPrefix_take positive, made, indexed.read present, valued,
    bind, Except.bind]
  by_cases given : columns = []
  · subst given
    simp [mapM_columnScalar_of_typed typed tail, pure, Except.pure]
  · -- each column asked for is read from the key or from the value
    have each : ∀ column ∈ columns, ∃ scalar, row[column]? = some scalar ∧
        (if column < schema.pkeySize then repeatedAt (row.take schema.pkeySize) column
          else Table.columnScalar schema ((row.drop schema.pkeySize).flatMap Scalar.data ++ tail) column) = .ok scalar := by
      intro column member
      have within : column < row.length := by
        have := asked column member
        omega
      refine ⟨row[column], List.getElem?_eq_getElem within, ?_⟩
      split
      · exact repeatedAt_take_of_key (by assumption) within
      · exact columnScalar_of_typed typed (by omega) within tail
    simp only [List.isEmpty_iff, given, if_false]
    exact Folds.mapM_eq_ok_filterMap each

/-- A column of an ungrouped row read from its own key, which holds the column's bytes. -/
theorem readColumn_of_typed (typed : row.map Scalar.type = schema.columnTypes) (indexed : adapter.Indexed)
    {i : Nat} {entry : TxnKey} (present : adapter.keys[i]? = some entry) {column : Nat} (within : column < row.length)
    (valued : entry.value = row[column].data) (nonempty : row[column].data ≠ []) (state : Bool × List Scalar) :
    Table.readColumn schema adapter state entry.key column = .ok (true, state.2 ++ [row[column]]) := by
  have typeAt : repeatedAt schema.columnTypes column = .ok row[column].type := by
    rw [Execution.repeatedAt_of_lt (by rw [← typed, List.length_map]; exact within)]
    simp [← typed]
  have read : makeScalar row[column].type row[column].data = .ok row[column] := by
    simpa using makeScalar_data row[column] []
  simp only [Table.readColumn, indexed.read present, valued, nonempty, if_false, typeAt, read, bind, Except.bind,
    pure, Except.pure]

end Select

/-! An ungrouped table keeps each non-key column under the row's key with the column id last. -/

section Ungrouped

variable {schema : Schema} {row : List Scalar} {adapter : TxnStorageAdapter}

theorem makeStorageKeys_of_keyPrefix {values : List Scalar} {key : Bytes} (made : schema.keyPrefix values = .ok key)
    (columns : List Nat) :
    schema.makeStorageKeys values columns =
      .ok ((if columns.isEmpty then schema.nonPkeyColumns else columns).map fun column => key ++ [UInt8.ofNat column]) := by
  simp [Schema.makeStorageKeys, made, bind, Except.bind, pure, Except.pure]

/-- Column ids below 256 give distinct keys. -/
theorem nodup_columnKeys (key : Bytes) {columns : List Nat} (distinct : columns.Nodup)
    (narrow : ∀ column ∈ columns, column < 256) : (columns.map fun column => key ++ [UInt8.ofNat column]).Nodup := by
  refine distinct.map_on fun first firstMember second secondMember same => ?_
  have byte : UInt8.ofNat first = UInt8.ofNat second := by simpa using same
  have read := congrArg UInt8.toNat byte
  simp only [UInt8.toNat_ofNat'] at read
  have := narrow first firstMember
  have := narrow second secondMember
  omega

theorem getElem?_nonPkeyColumns {j : Nat} (within : j < schema.numColumns - schema.pkeySize) :
    schema.nonPkeyColumns[j]? = some (schema.pkeySize + j) := by
  rw [Schema.nonPkeyColumns, List.getElem?_range' within, Nat.one_mul]

/-- `Insert` into an ungrouped table of a row typed as its schema, whose column keys are WRITE keys
of the txn: each column key gets the column's bytes as its new value. -/
theorem insert_ungrouped (typed : row.map Scalar.type = schema.columnTypes) (ungrouped : schema.grouped = false)
    (narrow : schema.numColumns ≤ 256) (indexed : adapter.Indexed) {key : Bytes} (made : schema.keyPrefix row = .ok key)
    (writable : ∀ column ∈ schema.nonPkeyColumns, ∃ (i : Nat) (entry : TxnKey), adapter.keys[i]? = some entry ∧
      entry.key = key ++ [UInt8.ofNat column] ∧ entry.type = .write) :
    ∃ written : TxnStorageAdapter, Table.insert schema adapter row = .ok (true, written) ∧ written.Indexed ∧
      ∀ column, schema.pkeySize ≤ column → ∀ within : column < row.length, ∃ (i : Nat) (entry : TxnKey),
        written.keys[i]? = some entry ∧ entry.key = key ++ [UInt8.ofNat column] ∧ entry.newValue = row[column].data := by
  have long : row.length = schema.numColumns := by rw [Schema.numColumns, ← typed, List.length_map]
  have sized : (schema.nonPkeyColumns.map fun column => key ++ [UInt8.ofNat column]).length =
      (row.drop schema.pkeySize).length := by
    simp [Schema.nonPkeyColumns, long]
  have distinct : (((schema.nonPkeyColumns.map fun column => key ++ [UInt8.ofNat column]).zip
      (row.drop schema.pkeySize)).map Prod.fst).Nodup := by
    rw [List.map_fst_zip sized.le]
    refine nodup_columnKeys key (List.nodup_range' _) fun column member => ?_
    rw [Schema.nonPkeyColumns, List.mem_range'_1] at member
    omega
  have writableWrites : ∀ write ∈ (schema.nonPkeyColumns.map fun column => key ++ [UInt8.ofNat column]).zip
      (row.drop schema.pkeySize), ∃ (i : Nat) (entry : TxnKey), adapter.keys[i]? = some entry ∧ entry.key = write.1 ∧
        entry.type = .write := by
    rintro ⟨columnKey, value⟩ member
    obtain ⟨column, columnMember, rfl⟩ := List.mem_map.mp (List.of_mem_zip member).1
    exact writable column columnMember
  obtain ⟨written, ran, indexedWritten, wrote, -⟩ := foldlM_insert indexed _ distinct writableWrites true
  refine ⟨written, ?_, indexedWritten, fun column nonKey within => ?_⟩
  · rw [insert_of_typed typed, if_neg (by simp [ungrouped]), makeStorageKeys_of_keyPrefix made]
    simp only [List.isEmpty_nil, if_true, bind, Except.bind, pure, Except.pure] at ran ⊢
    exact ran
  · -- the column's write is at its place among the non-key columns
    have place : column - schema.pkeySize < schema.numColumns - schema.pkeySize := by omega
    have member : (key ++ [UInt8.ofNat column], row[column]) ∈ (schema.nonPkeyColumns.map fun column =>
        key ++ [UInt8.ofNat column]).zip (row.drop schema.pkeySize) := by
      refine List.mem_of_getElem? (i := column - schema.pkeySize) (List.getElem?_zip_eq_some.mpr ⟨?_, ?_⟩)
      · rw [List.getElem?_map, getElem?_nonPkeyColumns place, Nat.add_sub_cancel' nonKey, Option.map_some]
      · rw [List.getElem?_drop, Nat.add_sub_cancel' nonKey, List.getElem?_eq_getElem within]
    exact wrote _ member

/-- A select from an ungrouped table whose column keys hold the row's columns reads the row back:
whole, or the columns asked for when one of them is not a key column. -/
theorem selectUngrouped_of_typed (typed : row.map Scalar.type = schema.columnTypes) (positive : 0 < schema.pkeySize)
    (valued : schema.pkeySize < schema.numColumns)
    (sized : ∀ type ∈ schema.columnTypes.drop schema.pkeySize, 0 < type.size) (indexed : adapter.Indexed) {key : Bytes}
    (made : schema.keyPrefix row = .ok key)
    (stored : ∀ column, schema.pkeySize ≤ column → ∀ within : column < row.length, ∃ (i : Nat) (entry : TxnKey),
      adapter.keys[i]? = some entry ∧ entry.key = key ++ [UInt8.ofNat column] ∧ entry.value = row[column].data)
    {columns : List Nat} (asked : ∀ column ∈ columns, column < schema.numColumns)
    (nonKeyAsked : columns = [] ∨ ∃ column ∈ columns, schema.pkeySize ≤ column) :
    Table.selectUngrouped schema adapter (row.take schema.pkeySize) columns =
      .ok (if columns = [] then row else columns.filterMap fun column => row[column]?) := by
  have long : row.length = schema.numColumns := by rw [Schema.numColumns, ← typed, List.length_map]
  have reads : ∀ column, schema.pkeySize ≤ column → ∀ within : column < row.length, ∀ state,
      Table.readColumn schema adapter state (key ++ [UInt8.ofNat column]) column = .ok (true, state.2 ++ [row[column]]) := by
    intro column nonKey within state
    obtain ⟨i, entry, present, named, valuedAt⟩ := stored column nonKey within
    rw [← named]
    exact readColumn_of_typed typed indexed present within valuedAt (data_ne_nil_of_typed typed sized nonKey within) state
  unfold Table.selectUngrouped
  rw [makeStorageKeys_of_keyPrefix (by rw [keyPrefix_take positive]; exact made)]
  by_cases given : columns = []
  · subst given
    have folded : (List.range' schema.pkeySize (schema.numColumns - schema.pkeySize)).foldlM
        (Table.selectNonKeyColumn schema adapter (schema.nonPkeyColumns.map fun column => key ++ [UInt8.ofNat column]))
          (false, row.take schema.pkeySize) = .ok (true, row) := by
      have count : schema.numColumns - schema.pkeySize = (row.drop schema.pkeySize).length := by simp [long]
      rw [count, Folds.foldlM_range'_append (row.drop schema.pkeySize) schema.pkeySize ?_ (false, row.take schema.pkeySize)]
      · have nonempty : (row.drop schema.pkeySize).isEmpty = false := by
          rw [List.isEmpty_eq_false_iff, ← List.length_pos_iff, List.length_drop]
          omega
        simp [nonempty]
      · intro j within state
        rw [List.length_drop] at within
        rw [List.getElem_drop]
        have keyAt : repeatedAt (schema.nonPkeyColumns.map fun column => key ++ [UInt8.ofNat column]) j =
            .ok (key ++ [UInt8.ofNat (schema.pkeySize + j)]) := by
          simp [Execution.repeatedAt, getElem?_nonPkeyColumns (show j < schema.numColumns - schema.pkeySize by omega)]
        simp only [Table.selectNonKeyColumn, Nat.add_sub_cancel_left, keyAt, bind, Except.bind]
        exact reads (schema.pkeySize + j) (by omega) (by omega) state
    simp [folded, bind, Except.bind, pure, Except.pure]
  · have nonempty : columns.isEmpty = false := List.isEmpty_eq_false_iff.mpr given
    have each : ∀ entry ∈ columns.zipIdx, ∀ state,
        Table.selectColumn schema adapter (row.take schema.pkeySize)
            (columns.map fun column => key ++ [UInt8.ofNat column]) state entry =
          .ok (state.1 || decide (schema.pkeySize ≤ entry.1), state.2 ++ (row[entry.1]?).toList) := by
      rintro ⟨column, position⟩ member state
      have located : columns[position]? = some column := List.mem_zipIdx_iff_getElem?.mp member
      have within : column < row.length := by
        have := asked column (List.mem_of_getElem? located)
        omega
      simp only [List.getElem?_eq_getElem within, Option.toList_some]
      by_cases isKey : column < schema.pkeySize
      · simp [Table.selectColumn, isKey, repeatedAt_take_of_key isKey within, bind, Except.bind, pure, Except.pure]
      · have keyAt : repeatedAt (columns.map fun column => key ++ [UInt8.ofNat column]) position =
            .ok (key ++ [UInt8.ofNat column]) := by
          simp [Execution.repeatedAt, located]
        simp only [Table.selectColumn, isKey, if_false, keyAt, bind, Except.bind, reads column (by omega) within state]
        simp [show schema.pkeySize ≤ column by omega]
    have found : columns.zipIdx.any (fun entry => decide (schema.pkeySize ≤ entry.1)) = true := by
      obtain ⟨column, member, nonKey⟩ := nonKeyAsked.resolve_left given
      obtain ⟨position, located⟩ := List.getElem?_of_mem member
      exact List.any_eq_true.mpr ⟨(column, position), List.mem_zipIdx_iff_getElem?.mpr located, by simpa using nonKey⟩
    have picked : columns.zipIdx.flatMap (fun entry => (row[entry.1]?).toList) =
        columns.filterMap fun column => row[column]? := by
      rw [← List.filterMap_eq_flatMap_toList]
      have mapped := List.filterMap_map (f := Prod.fst) (g := fun column => row[column]?) (l := columns.zipIdx)
      rw [List.zipIdx_map_fst] at mapped
      exact mapped.symm
    simp only [nonempty, Bool.false_eq_true, if_false, bind, Except.bind]
    rw [Folds.foldlM_eq_ok_foldl each, Folds.foldl_or_append]
    simp [found, picked, given, pure, Except.pure]

end Ungrouped

/-- A district row, the keys of its non-key columns in the txn as WRITE keys. -/
def districtRow : List Scalar :=
  [.int32 1, .int8 2, .fixedText (List.replicate 10 65), .fixedText (List.replicate 71 66), .int32 3, .int64 4, .int32 5]

def districtAdapter : TxnStorageAdapter :=
  TxnStorageAdapter.new (((districtSchema.makeStorageKeys districtRow []).toOption.getD []).map fun key => ⟨key, [], [], .write⟩)

/-- An item row whose name is a fixed text one byte short, and the row's key in the txn. -/
def itemRow : List Scalar :=
  [.int32 1, .int32 2, .int32 3, .fixedText (List.replicate 23 65), .int32 4, .fixedText (List.replicate 50 66)]

def itemAdapter : TxnStorageAdapter :=
  TxnStorageAdapter.new [⟨(itemSchema.makeStorageKey itemRow).toOption.getD [], [], [], .write⟩]

theorem select_drops_key_columns :
    (∀ (schema : Schema) (adapter : TxnStorageAdapter) (pkey : List Scalar) (columns : List Nat),
        schema.grouped = false → columns ≠ [] → (∀ column ∈ columns, column < schema.pkeySize) →
          Table.select schema adapter pkey columns = (schema.makeStorageKeys pkey columns).map fun _ => []) ∧
      Table.insertFlushSelect districtSchema districtAdapter districtRow (districtRow.take 2) [] = .ok districtRow ∧
      Table.insertFlushSelect districtSchema districtAdapter districtRow (districtRow.take 2) [0, 1] = .ok [] ∧
      Table.insertFlushSelect itemSchema itemAdapter itemRow (itemRow.take 2) [4] = .ok [.int32 1107296256] := by
  refine ⟨fun schema adapter pkey columns ungrouped given keyOnly => ?_, by decide, by decide, by decide⟩
  unfold Table.select Table.selectUngrouped
  rw [if_neg (by simp [ungrouped])]
  cases made : schema.makeStorageKeys pkey columns with
  | error message => simp [bind, Except.bind, Except.map]
  | ok keys =>
      obtain ⟨result, ran⟩ := @foldlM_selectColumn_of_key schema adapter pkey keys (makeStorageKeys_length made)
        columns.zipIdx (fun entry member => keyOnly entry.1 (List.fst_mem_of_mem_zipIdx member)) (false, [])
      have nonempty : columns.isEmpty = false := List.isEmpty_eq_false_iff.mpr given
      simp [nonempty, ran, bind, Except.bind, pure, Except.pure, Except.map]

/-- A row typed as its grouped table, inserted into a txn that holds the row's key as a WRITE key,
is read back after a flush by a select of its primary key: whole, or the columns asked for. -/
theorem grouped_row_round_trip (schema : Schema) (keys : List TxnKey) (row : List Scalar) (columns : List Nat)
    (grouped : schema.grouped = true) (positive : 0 < schema.pkeySize) (keyed : schema.pkeySize ≤ schema.numColumns)
    (typed : row.map Scalar.type = schema.columnTypes) (distinct : (keys.map TxnKey.key).Nodup)
    (writable : ∀ key, schema.makeStorageKey row = .ok key → ∃ entry ∈ keys, entry.key = key ∧ entry.type = .write)
    (asked : ∀ column ∈ columns, column < schema.numColumns) :
    Table.insertFlushSelect schema (TxnStorageAdapter.new keys) row (row.take schema.pkeySize) columns =
      .ok (if columns = [] then row else columns.filterMap fun column => row[column]?) := by
  have indexed := TxnStorageAdapter.indexed_new distinct
  obtain ⟨key, made⟩ := keyPrefix_of_typed typed positive keyed
  obtain ⟨entry, member, named, isWrite⟩ := writable key made
  subst named
  obtain ⟨i, present⟩ := List.getElem?_of_mem member
  have inserted : Table.insert schema (TxnStorageAdapter.new keys) row =
      .ok (true, { TxnStorageAdapter.new keys with
        keys := keys.set i { entry with newValue := (row.drop schema.pkeySize).flatMap Scalar.data } }) := by
    rw [insert_of_typed typed, if_pos grouped]
    simp only [Schema.makeStorageKey, made, bind, Except.bind]
    exact indexed.insert present isWrite _
  have flushed := (indexed.set present ((row.drop schema.pkeySize).flatMap Scalar.data)).flush
  have within : i < keys.length := (List.getElem?_eq_some_iff.mp present).1
  obtain ⟨tail, valued⟩ : ∃ tail, (if (row.drop schema.pkeySize).flatMap Scalar.data = [] then entry.value
      else (row.drop schema.pkeySize).flatMap Scalar.data) = (row.drop schema.pkeySize).flatMap Scalar.data ++ tail := by
    split
    · rename_i empty
      exact ⟨entry.value, by rw [empty, List.nil_append]⟩
    · exact ⟨[], (List.append_nil _).symm⟩
  have stored : ({ TxnStorageAdapter.new keys with
      keys := keys.set i { entry with newValue := (row.drop schema.pkeySize).flatMap Scalar.data } } :
        TxnStorageAdapter).flush.keys[i]? =
      some { entry with
        value := if (row.drop schema.pkeySize).flatMap Scalar.data = [] then entry.value
          else (row.drop schema.pkeySize).flatMap Scalar.data
        newValue := [] } := by
    rw [TxnStorageAdapter.flush_keys]
    simp [within]
  simp only [Table.insertFlushSelect, inserted, bind, Except.bind]
  rw [Table.select, if_pos grouped]
  exact selectGrouped_of_typed typed positive flushed stored made valued asked

/-- An item row of the item table's types, and the row's key in the txn as a WRITE key. -/
def typedItemRow : List Scalar :=
  [.int32 1, .int32 7, .int32 3, .fixedText (List.replicate 24 65), .int32 4, .fixedText (List.replicate 50 66)]

def typedItemKeys : List TxnKey :=
  [⟨(itemSchema.makeStorageKey typedItemRow).toOption.getD [], [], [], .write⟩]

/-- The name and the id of the item are read back. -/
theorem item_row_read_back :
    Table.insertFlushSelect itemSchema (TxnStorageAdapter.new typedItemKeys) typedItemRow (typedItemRow.take 2) [3, 1] =
      .ok [.fixedText (List.replicate 24 65), .int32 7] :=
  (grouped_row_round_trip itemSchema typedItemKeys typedItemRow [3, 1] rfl (by decide) (by decide) (by decide)
    (by decide) (fun key made => ⟨_, List.mem_singleton_self _, by simp [made, Except.toOption], rfl⟩)
    (by decide)).trans rfl


/-- A row typed as its ungrouped table, inserted into a txn that holds its column keys as WRITE
keys, is read back after a flush by a select of its primary key: whole, or the columns asked for
when one of them is not a key column. -/
theorem ungrouped_row_round_trip (schema : Schema) (keys : List TxnKey) (row : List Scalar) (columns : List Nat)
    (ungrouped : schema.grouped = false) (positive : 0 < schema.pkeySize) (valued : schema.pkeySize < schema.numColumns)
    (narrow : schema.numColumns ≤ 256) (sized : ∀ type ∈ schema.columnTypes.drop schema.pkeySize, 0 < type.size)
    (typed : row.map Scalar.type = schema.columnTypes) (distinct : (keys.map TxnKey.key).Nodup)
    (writable : ∀ storageKeys, schema.makeStorageKeys row [] = .ok storageKeys →
      ∀ key ∈ storageKeys, ∃ entry ∈ keys, entry.key = key ∧ entry.type = .write)
    (asked : ∀ column ∈ columns, column < schema.numColumns)
    (nonKeyAsked : columns = [] ∨ ∃ column ∈ columns, schema.pkeySize ≤ column) :
    Table.insertFlushSelect schema (TxnStorageAdapter.new keys) row (row.take schema.pkeySize) columns =
      .ok (if columns = [] then row else columns.filterMap fun column => row[column]?) := by
  have indexed := TxnStorageAdapter.indexed_new distinct
  obtain ⟨key, made⟩ := keyPrefix_of_typed typed positive valued.le
  have writableColumns : ∀ column ∈ schema.nonPkeyColumns, ∃ (i : Nat) (entry : TxnKey),
      (TxnStorageAdapter.new keys).keys[i]? = some entry ∧ entry.key = key ++ [UInt8.ofNat column] ∧
        entry.type = .write := by
    intro column member
    obtain ⟨entry, entryMember, named, isWrite⟩ := writable _ (makeStorageKeys_of_keyPrefix made [])
      (key ++ [UInt8.ofNat column]) (by simpa using List.mem_map_of_mem member)
    obtain ⟨i, present⟩ := List.getElem?_of_mem entryMember
    exact ⟨i, entry, present, named, isWrite⟩
  obtain ⟨written, inserted, indexedWritten, wrote⟩ := insert_ungrouped typed ungrouped narrow indexed made writableColumns
  have stored : ∀ column, schema.pkeySize ≤ column → ∀ within : column < row.length, ∃ (i : Nat) (entry : TxnKey),
      written.flush.keys[i]? = some entry ∧ entry.key = key ++ [UInt8.ofNat column] ∧ entry.value = row[column].data := by
    intro column nonKey within
    obtain ⟨i, entry, present, named, newValued⟩ := wrote column nonKey within
    refine ⟨i, { entry with value := if entry.newValue = [] then entry.value else entry.newValue, newValue := [] },
      by rw [TxnStorageAdapter.flush_keys, present]; rfl, named, ?_⟩
    simp [newValued, data_ne_nil_of_typed typed sized nonKey within]
  simp only [Table.insertFlushSelect, inserted, bind, Except.bind]
  rw [Table.select, if_neg (by simp [ungrouped])]
  exact selectUngrouped_of_typed typed positive valued sized indexedWritten.flush made stored asked nonKeyAsked

/-- The district's tax, its warehouse id and its name are read back. -/
theorem district_row_read_back :
    Table.insertFlushSelect districtSchema districtAdapter districtRow (districtRow.take 2) [4, 0, 2] =
      .ok [.int32 3, .int32 1, .fixedText (List.replicate 10 65)] :=
  (ungrouped_row_round_trip districtSchema _ districtRow [4, 0, 2] rfl (by decide) (by decide) (by decide) (by decide)
    (by decide) (by decide)
    (fun storageKeys made key member => ⟨⟨key, [], [], .write⟩, by simp [made, Except.toOption, member], rfl, rfl⟩)
    (by decide) (Or.inr ⟨4, by decide, by decide⟩)).trans rfl


end Slog.Tpcc
