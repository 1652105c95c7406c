/-
Where TPC-C keys go (`execution/tpcc/table.h`, `common/sharder.cpp`,
`execution/tpcc/metadata_initializer.cpp`).
-/

import Mathlib
import Slog.Tpcc.Table
import Slog.Library.Folds

namespace Slog.Tpcc

open LittleEndian
open Execution (repeatedAt)

/-- `TPCCSharder::compute_partition`: the warehouse id less one, modulo the partitions, in
unsigned arithmetic. The `int` subtraction overflows at the least `int`, and there is no modulo
by zero partitions: both are undefined behaviour, a fault here. -/
def TPCCSharder.computePartition (numPartitions : Nat) (key : Bytes) : Except String Nat :=
  if key.length < 4 then .error "read past the end of the key"
  else
    let wId : BitVec 32 := BitVec.ofNat 32 (leValue (key.take 4))
    if wId = BitVec.intMin 32 then .error "signed overflow"
    else if numPartitions = 0 then .error "division by zero"
    else .ok ((wId - 1).toNat % numPartitions)

/-- `TPCCMetadataInitializer::Compute`: the master of a key, from its warehouse id. -/
def TPCCMetadataInitializer.compute (numRegions numPartitions : Nat) (key : Bytes) : Except String Nat :=
  if key.length < 4 then .error "Invalid key"
  else if numPartitions = 0 ∨ numRegions = 0 then .error "division by zero"
  else
    let warehouseId : BitVec 32 := BitVec.ofNat 32 (leValue (key.take 4))
    .ok ((warehouseId - 1).toNat / numPartitions % numRegions)

/-- The keys the tables make: a grouped table's key of a primary key, or an ungrouped table's key
of a primary key and one of its non-key columns. -/
inductive KeySource where
  | row (table : TableId) (pkey : List Scalar)
  | column (table : TableId) (pkey : List Scalar) (column : Nat)
  deriving DecidableEq, Repr

namespace KeySource

/-- `MakeStorageKey` of a grouped table; the key of the column among `MakeStorageKeys` of an
ungrouped one, as `SelectUngrouped` takes it. -/
def key : KeySource → Except String Bytes
  | row table pkey => (schemaOf table).makeStorageKey pkey
  | column table pkey columnId => do
      let keys ← (schemaOf table).makeStorageKeys pkey []
      repeatedAt keys (columnId - (schemaOf table).pkeySize)

/-- The keys the tables do make: rows of grouped tables and non-key columns of ungrouped ones,
each with a whole primary key. -/
def Valid : KeySource → Prop
  | row table pkey => (schemaOf table).grouped = true ∧ pkey.length = (schemaOf table).pkeySize
  | column table pkey columnId =>
      (schemaOf table).grouped = false ∧ pkey.length = (schemaOf table).pkeySize ∧
        (schemaOf table).pkeySize ≤ columnId ∧ columnId < (schemaOf table).numColumns

/-- The primary key. -/
def pkey : KeySource → List Scalar
  | row _ pkey => pkey
  | column _ pkey _ => pkey

end KeySource

/-! Reading a key back. -/

/-- The table of a table id byte. -/
def TableId.ofByte (byte : UInt8) : Option TableId :=
  [TableId.warehouse, .district, .customer, .history, .newOrder, .order, .orderLine, .item, .stock].find?
    fun table => UInt8.ofNat table.toNat = byte

/-- Values of the types given, read one after the other; what follows them is left. -/
def readValues : List DataType → Bytes → Option (List Scalar × Bytes)
  | [], bytes => some ([], bytes)
  | type :: types, bytes => do
      let scalar ← (makeScalar type bytes).toOption
      let (rest, tail) ← readValues types (bytes.drop type.size)
      pure (scalar :: rest, tail)

/-- A key read back: the warehouse id, the table, the other key columns, and what follows. -/
def decodeKey (key : Bytes) : Option (TableId × List Scalar × Bytes) := do
  let first ← (makeScalar .int32 key).toOption
  let byte ← key[4]?
  let table ← TableId.ofByte byte
  let schema := schemaOf table
  let others ← readValues ((schema.columnTypes.take schema.pkeySize).drop 1) (key.drop 5)
  pure (table, first :: others.1, others.2)

section Format

/-- Each of the nine tables: its id, a warehouse id of `int32` first, key columns of integer
types, and fewer columns than a byte counts. -/
theorem schemaOf_format (table : TableId) :
    (schemaOf table).id = table ∧ (schemaOf table).columnTypes.take 1 = [.int32] ∧ 1 ≤ (schemaOf table).pkeySize ∧
      (∀ type ∈ (schemaOf table).columnTypes.take (schemaOf table).pkeySize, type.name ≠ .fixedText) ∧
      (schemaOf table).pkeySize ≤ (schemaOf table).numColumns ∧ (schemaOf table).numColumns < 256 := by
  cases table <;> decide

theorem TableId.ofByte_toNat (table : TableId) : TableId.ofByte (UInt8.ofNat table.toNat) = some table := by
  cases table <;> decide

/-- A value whose type has the name of an integer type has that type. -/
theorem Scalar.type_eq_of_name {scalar : Scalar} {type : DataType} (named : scalar.type.name = type.name)
    (integer : type.name ≠ .fixedText) : scalar.type = type := by
  cases scalar <;> cases type <;> simp_all [Scalar.type, DataType.name]

theorem readValues_flatMap (values : List Scalar) (rest : Bytes) :
    readValues (values.map Scalar.type) (values.flatMap Scalar.data ++ rest) = some (values, rest) := by
  induction values with
  | nil => rfl
  | cons value values ih =>
      simp only [List.map_cons, List.flatMap_cons, List.append_assoc, readValues, makeScalar_data]
      rw [List.drop_left' (Scalar.length_data value)]
      simp [ih, bind, Option.bind, pure, Except.toOption]

theorem validateType_eq_ok_iff {schema : Schema} {value : Scalar} {i : Nat} :
    schema.validateType value i = .ok () ↔ ∃ columnType, schema.columnTypes[i]? = some columnType ∧
      value.type.name = columnType.name := by
  unfold Schema.validateType Execution.repeatedAt
  cases schema.columnTypes[i]? with
  | none => simp [bind, Except.bind]
  | some columnType =>
      by_cases named : value.type.name = columnType.name <;>
        simp [named, bind, Except.bind, pure, Except.pure, throw, throwThe, MonadExceptOf.throw]

/-- A key prefix is made of the first value, the table id and the other key values, every key
value of its column's type name. -/
theorem keyPrefix_eq_ok {schema : Schema} {values : List Scalar} {key : Bytes} (made : schema.keyPrefix values = .ok key) :
    schema.pkeySize ≤ values.length ∧
      (∀ i < schema.pkeySize, ∃ columnType, schema.columnTypes[i]? = some columnType ∧
        values[i]?.map (·.type.name) = some columnType.name) ∧
      ∃ first rest, values = first :: rest ∧
        key = first.data ++ [UInt8.ofNat schema.id.toNat] ++ (rest.take (schema.pkeySize - 1)).flatMap Scalar.data := by
  unfold Schema.keyPrefix at made
  by_cases short : values.length < schema.pkeySize
  · simp [short, bind, Except.bind, throw, throwThe, MonadExceptOf.throw] at made
  simp only [short, if_false, bind, Except.bind, pure, Except.pure] at made
  split at made
  · cases made
  · rename_i checks
    have passed := Folds.forM_eq_ok_iff.mp checks
    refine ⟨Nat.le_of_not_lt short, fun i within => ?_, ?_⟩
    · -- the check of the key value at `i`
      have there : i < values.length := by omega
      have member : (values[i], i) ∈ (values.take schema.pkeySize).zipIdx :=
        List.mk_mem_zipIdx_iff_getElem?.mpr (by simp [within, there])
      obtain ⟨columnType, typed, named⟩ := validateType_eq_ok_iff.mp (passed _ member)
      exact ⟨columnType, typed, by simp [List.getElem?_eq_getElem there, named]⟩
    · cases values with
      | nil => simp [throw, throwThe, MonadExceptOf.throw] at made
      | cons first rest =>
          simp only [Except.ok.injEq] at made
          exact ⟨first, rest, rfl, made.symm⟩

/-- The key values of a key made from a whole primary key have their columns' types. -/
theorem keyPrefix_types {table : TableId} {values : List Scalar} {key : Bytes}
    (made : (schemaOf table).keyPrefix values = .ok key) (whole : values.length = (schemaOf table).pkeySize) :
    values.map Scalar.type = (schemaOf table).columnTypes.take (schemaOf table).pkeySize := by
  obtain ⟨-, -, -, integer, -, -⟩ := schemaOf_format table
  obtain ⟨-, checked, -⟩ := keyPrefix_eq_ok made
  apply List.ext_getElem?
  intro i
  by_cases within : i < (schemaOf table).pkeySize
  · obtain ⟨columnType, there, named⟩ := checked i within
    obtain ⟨value, present, valueNamed⟩ := Option.map_eq_some_iff.mp named
    have kept : columnType ∈ (schemaOf table).columnTypes.take (schemaOf table).pkeySize :=
      List.mem_of_getElem? (by rw [List.getElem?_take, if_pos within, there])
    rw [List.getElem?_map, present, List.getElem?_take, if_pos within, there, Option.map_some,
      Scalar.type_eq_of_name valueNamed (integer columnType kept)]
  · rw [List.getElem?_map, List.getElem?_eq_none (by omega), List.getElem?_take, if_neg within, Option.map_none]

/-- A key made from a whole primary key is read back, whatever follows it. -/
theorem decodeKey_keyPrefix {table : TableId} {values : List Scalar} {key : Bytes}
    (made : (schemaOf table).keyPrefix values = .ok key) (whole : values.length = (schemaOf table).pkeySize)
    (rest : Bytes) : decodeKey (key ++ rest) = some (table, values, rest) := by
  obtain ⟨ided, first32, positive, -, -, -⟩ := schemaOf_format table
  have typed := keyPrefix_types made whole
  obtain ⟨-, -, first, others, rfl, rfl⟩ := keyPrefix_eq_ok made
  rw [List.map_cons] at typed
  have firstType : first.type = .int32 := by
    have head := congrArg (·.take 1) typed
    simp only [List.take_take, Nat.min_eq_left positive, first32] at head
    simpa using head
  have othersTyped : others.map Scalar.type = ((schemaOf table).columnTypes.take (schemaOf table).pkeySize).tail := by
    rw [← typed, List.tail_cons]
  have othersWhole : others.take ((schemaOf table).pkeySize - 1) = others :=
    List.take_of_length_le (by simp at whole; omega)
  have firstLength : first.data.length = 4 := by simp [firstType, DataType.size]
  rw [othersWhole]
  unfold decodeKey
  have readFirst : makeScalar .int32 (first.data ++ [UInt8.ofNat (schemaOf table).id.toNat] ++
      others.flatMap Scalar.data ++ rest) = .ok first := by
    rw [← firstType, List.append_assoc, List.append_assoc, makeScalar_data]
  have readByte : (first.data ++ [UInt8.ofNat (schemaOf table).id.toNat] ++ others.flatMap Scalar.data ++ rest)[4]? =
      some (UInt8.ofNat (schemaOf table).id.toNat) := by
    simp [firstLength]
  have dropped : (first.data ++ [UInt8.ofNat (schemaOf table).id.toNat] ++ others.flatMap Scalar.data ++ rest).drop 5 =
      others.flatMap Scalar.data ++ rest := by
    simp [List.drop_append, firstLength]
  rw [readFirst, readByte, dropped, ided]
  simp [Except.toOption, TableId.ofByte_toNat, ← othersTyped, readValues_flatMap, pure]

/-- A key read back starts with the four bytes of its warehouse id. -/
theorem decodeKey_first {key : Bytes} {table : TableId} {pkey : List Scalar} {tail : Bytes}
    (read : decodeKey key = some (table, pkey, tail)) :
    4 ≤ key.length ∧ pkey.head? = some (.int32 (BitVec.ofNat 32 (leValue (key.take 4)))) := by
  unfold decodeKey at read
  by_cases short : key.length < 4
  · simp [makeScalar, short, DataType.size, Except.toOption] at read
  · simp only [makeScalar, Except.toOption, Option.bind_eq_bind] at read
    rw [if_neg (show ¬ key.length < DataType.int32.size from short)] at read
    simp only [Option.bind_some] at read
    obtain ⟨byte, -, found⟩ := Option.bind_eq_some_iff.mp read
    obtain ⟨table', -, found⟩ := Option.bind_eq_some_iff.mp found
    obtain ⟨values, -, found⟩ := Option.bind_eq_some_iff.mp found
    simp only [pure, Option.some.injEq, Prod.mk.injEq] at found
    obtain ⟨-, rfl, -⟩ := found
    exact ⟨by omega, rfl⟩

end Format

section Sources

namespace KeySource

/-- The key of a column of an ungrouped table: the row's key prefix, the column id last. -/
theorem key_column {table : TableId} {pkey : List Scalar} {columnId : Nat} {key : Bytes}
    (valid : (column table pkey columnId).Valid) (made : (column table pkey columnId).key = .ok key) :
    ∃ keyPrefix, (schemaOf table).keyPrefix pkey = .ok keyPrefix ∧ key = keyPrefix ++ [UInt8.ofNat columnId] := by
  obtain ⟨-, -, above, below⟩ := valid
  unfold KeySource.key Schema.makeStorageKeys at made
  cases prefixed : (schemaOf table).keyPrefix pkey with
  | error message => simp [prefixed, bind, Except.bind] at made
  | ok keyPrefix =>
      refine ⟨keyPrefix, rfl, ?_⟩
      have within : columnId - (schemaOf table).pkeySize < (schemaOf table).nonPkeyColumns.length := by
        rw [Schema.nonPkeyColumns, List.length_range']
        omega
      simp only [prefixed, bind, Except.bind, pure, Except.pure, List.isEmpty_nil, if_true] at made
      rw [Execution.repeatedAt_of_lt (by simpa using within)] at made
      simp only [Except.ok.injEq, List.getElem_map] at made
      have element : (schemaOf table).nonPkeyColumns[columnId - (schemaOf table).pkeySize] = columnId := by
        simp only [Schema.nonPkeyColumns, List.getElem_range']
        omega
      rw [← made, element]

/-- What a key reads back as: its table, its primary key, and the column id of an ungrouped
table's key. -/
def reading : KeySource → TableId × List Scalar × Bytes
  | row table pkey => (table, pkey, [])
  | column table pkey columnId => (table, pkey, [UInt8.ofNat columnId])

theorem decodeKey_key {source : KeySource} (valid : source.Valid) {key : Bytes} (made : source.key = .ok key) :
    decodeKey key = some source.reading := by
  cases source with
  | row table pkey =>
      rw [← List.append_nil key]
      exact decodeKey_keyPrefix made valid.2 []
  | column table pkey columnId =>
      obtain ⟨keyPrefix, prefixed, rfl⟩ := key_column valid made
      exact decodeKey_keyPrefix prefixed valid.2.1 _

theorem reading_pkey (source : KeySource) : source.reading.2.1 = source.pkey := by
  cases source <;> rfl

/-- Keys the tables make differ for different tables, primary keys or columns. -/
theorem key_inj {a b : KeySource} (validA : a.Valid) (validB : b.Valid) {key : Bytes}
    (madeA : a.key = .ok key) (madeB : b.key = .ok key) : a = b := by
  have same := (decodeKey_key validA madeA).symm.trans (decodeKey_key validB madeB)
  cases a with
  | row table pkey =>
      cases b with
      | row table' pkey' =>
          simp only [reading, Option.some.injEq, Prod.mk.injEq, and_true] at same
          rw [same.1, same.2]
      | column table' pkey' columnId' => simp [reading] at same
  | column table pkey columnId =>
      cases b with
      | row table' pkey' => simp [reading] at same
      | column table' pkey' columnId' =>
          simp only [reading, Option.some.injEq, Prod.mk.injEq, List.cons.injEq, and_true] at same
          obtain ⟨rfl, rfl, byte⟩ := same
          have small := (schemaOf_format table).2.2.2.2.2
          have read := congrArg UInt8.toNat byte
          simp only [UInt8.toNat_ofNat'] at read
          have : columnId = columnId' := by
            have := validA.2.2.2
            have := validB.2.2.2
            omega
          rw [this]

/-- The warehouse id that the sharder and the metadata initializer read from a key is the first
value of its primary key. -/
theorem key_warehouse {source : KeySource} (valid : source.Valid) {key : Bytes} (made : source.key = .ok key)
    {wId : BitVec 32} (first : source.pkey.head? = some (.int32 wId)) :
    4 ≤ key.length ∧ BitVec.ofNat 32 (leValue (key.take 4)) = wId := by
  have read : decodeKey key = some (source.reading.1, source.reading.2.1, source.reading.2.2) :=
    decodeKey_key valid made
  obtain ⟨long, head⟩ := decodeKey_first read
  rw [reading_pkey, first, Option.some.injEq, Scalar.int32.injEq] at head
  exact ⟨long, head.symm⟩

end KeySource

end Sources

section Routing

variable {source : KeySource} {key : Bytes} {wId : BitVec 32}

theorem computePartition_key (valid : source.Valid) (made : source.key = .ok key)
    (first : source.pkey.head? = some (.int32 wId)) (numPartitions : Nat) :
    TPCCSharder.computePartition numPartitions key =
      if wId = BitVec.intMin 32 then .error "signed overflow"
      else if numPartitions = 0 then .error "division by zero"
      else .ok ((wId - 1).toNat % numPartitions) := by
  obtain ⟨long, read⟩ := KeySource.key_warehouse valid made first
  rw [TPCCSharder.computePartition, if_neg (by omega), read]

theorem compute_key (valid : source.Valid) (made : source.key = .ok key)
    (first : source.pkey.head? = some (.int32 wId)) (numRegions numPartitions : Nat) :
    TPCCMetadataInitializer.compute numRegions numPartitions key =
      if numPartitions = 0 ∨ numRegions = 0 then .error "division by zero"
      else .ok ((wId - 1).toNat / numPartitions % numRegions) := by
  obtain ⟨long, read⟩ := KeySource.key_warehouse valid made first
  rw [TPCCMetadataInitializer.compute, if_neg (by omega), read]

/-- A positive warehouse id is not the least `int`, and less one it stays what it is. -/
theorem sub_one_of_pos (positive : 1 ≤ wId.toInt) :
    wId ≠ BitVec.intMin 32 ∧ (wId - 1).toNat = (wId.toInt - 1).toNat := by
  have small : 2 * wId.toNat < 2 ^ 32 := by
    by_contra large
    rw [BitVec.toInt_eq_toNat_cond, if_neg large] at positive
    have := wId.isLt
    omega
  have asInt : wId.toInt = wId.toNat := by rw [BitVec.toInt_eq_toNat_cond, if_pos small]
  refine ⟨fun least => ?_, ?_⟩
  · rw [least, BitVec.toInt_intMin] at positive
    norm_num at positive
  · have one : (1 : BitVec 32).toNat = 1 := rfl
    rw [BitVec.toNat_sub, one, asInt]
    omega

theorem tpcc_keys_route_by_warehouse :
    (∀ a b : KeySource, a.Valid → b.Valid → ∀ key, a.key = .ok key → b.key = .ok key → a = b) ∧
      ∀ (source : KeySource) (key : Bytes) (wId : BitVec 32) (numPartitions numRegions : Nat),
        source.Valid → source.key = .ok key → source.pkey.head? = some (.int32 wId) → 1 ≤ wId.toInt →
          0 < numPartitions → 0 < numRegions →
          TPCCSharder.computePartition numPartitions key = .ok ((wId.toInt - 1).toNat % numPartitions) ∧
            TPCCMetadataInitializer.compute numRegions numPartitions key =
              .ok ((wId.toInt - 1).toNat / numPartitions % numRegions) := by
  refine ⟨fun a b validA validB key madeA madeB => KeySource.key_inj validA validB madeA madeB, ?_⟩
  intro source key wId numPartitions numRegions valid made first positive partitions regions
  obtain ⟨notLeast, lessOne⟩ := sub_one_of_pos positive
  rw [computePartition_key valid made first, compute_key valid made first, if_neg notLeast,
    if_neg (by omega), if_neg (by omega), lessOne]
  exact ⟨rfl, rfl⟩

/-- The key of an item of warehouse 5: it goes to partition 1 of 3, in region 1 of 3. -/
theorem item_key_routes :
    (KeySource.row .item [.int32 5, .int32 1]).key = .ok [5, 0, 0, 0, 7, 1, 0, 0, 0] ∧
      TPCCSharder.computePartition 3 [5, 0, 0, 0, 7, 1, 0, 0, 0] = .ok ((5 - 1 : Int).toNat % 3) ∧
      TPCCMetadataInitializer.compute 3 3 [5, 0, 0, 0, 7, 1, 0, 0, 0] = .ok ((5 - 1 : Int).toNat / 3 % 3) := by
  have made : (KeySource.row .item [.int32 5, .int32 1]).key = .ok [5, 0, 0, 0, 7, 1, 0, 0, 0] := by decide
  exact ⟨made, tpcc_keys_route_by_warehouse.2 (.row .item [.int32 5, .int32 1]) _ 5 3 3 ⟨rfl, rfl⟩ made rfl
    (by decide) (by decide) (by decide)⟩

/-- Keys of an item of warehouse 0, and of the least `int`. -/
theorem warehouse_zero_wraps :
    (KeySource.row .item [.int32 0, .int32 1]).key = .ok [0, 0, 0, 0, 7, 1, 0, 0, 0] ∧
      TPCCSharder.computePartition 3 [0, 0, 0, 0, 7, 1, 0, 0, 0] = .ok 0 ∧ ((0 : Int) - 1) % 3 = 2 ∧
      TPCCMetadataInitializer.compute 3 3 [0, 0, 0, 0, 7, 1, 0, 0, 0] = .ok 1 ∧ ((0 : Int) - 1) / 3 % 3 = 2 ∧
      (KeySource.row .item [.int32 (BitVec.intMin 32), .int32 1]).key = .ok [0, 0, 0, 128, 7, 1, 0, 0, 0] ∧
      TPCCSharder.computePartition 3 [0, 0, 0, 128, 7, 1, 0, 0, 0] = .error "signed overflow" := by
  decide

end Routing

end Slog.Tpcc
