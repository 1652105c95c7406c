/-
The TPC-C tables (`execution/tpcc/table.h`, `scalar.h`, `types.h`) over the txn's storage adapter.
-/

import Mathlib
import Slog.Common.Types
import Slog.Library.LittleEndian
import Slog.Execution.KeyValue

namespace Slog.Tpcc

open LittleEndian

abbrev Bytes := List UInt8

inductive DataTypeName where
  | int8
  | int16
  | int32
  | int64
  | fixedText
  deriving DecidableEq, Repr

/-- `DataType`: the four integer types and `FixedTextType<Width>`. -/
inductive DataType where
  | int8
  | int16
  | int32
  | int64
  | fixedText (width : Nat)
  deriving DecidableEq, Repr

namespace DataType

def name : DataType → DataTypeName
  | int8 => .int8
  | int16 => .int16
  | int32 => .int32
  | int64 => .int64
  | fixedText _ => .fixedText

def size : DataType → Nat
  | int8 => 1
  | int16 => 2
  | int32 => 4
  | int64 => 8
  | fixedText width => width

def toString : DataType → String
  | int8 => "INT8"
  | int16 => "INT16"
  | int32 => "INT32"
  | int64 => "INT64"
  | fixedText width => "FIXED_TEXT<" ++ Nat.repr width ++ ">"

end DataType

/-- `Scalar`: an integer of one of the four widths, or a fixed text, whose type is
`FixedTextType` of its own length as `MakeFixedTextScalar` checks. -/
inductive Scalar where
  | int8 (value : BitVec 8)
  | int16 (value : BitVec 16)
  | int32 (value : BitVec 32)
  | int64 (value : BitVec 64)
  | fixedText (buffer : Bytes)
  deriving DecidableEq, Repr

namespace Scalar

def type : Scalar → DataType
  | int8 _ => .int8
  | int16 _ => .int16
  | int32 _ => .int32
  | int64 _ => .int64
  | fixedText buffer => .fixedText buffer.length

/-- The `type->size()` bytes at `data()`. -/
def data : Scalar → Bytes
  | int8 value => leBytes 1 value.toNat
  | int16 value => leBytes 2 value.toNat
  | int32 value => leBytes 4 value.toNat
  | int64 value => leBytes 8 value.toNat
  | fixedText buffer => buffer

end Scalar

/-- `MakeScalar`: a scalar of a type read from the bytes at a position. Reading past the end of
the bytes is undefined behaviour, a fault here. -/
def makeScalar (type : DataType) (bytes : Bytes) : Except String Scalar :=
  if bytes.length < type.size then .error "read past the end of the value"
  else
    .ok <| match type with
      | .int8 => .int8 (BitVec.ofNat 8 (leValue (bytes.take 1)))
      | .int16 => .int16 (BitVec.ofNat 16 (leValue (bytes.take 2)))
      | .int32 => .int32 (BitVec.ofNat 32 (leValue (bytes.take 4)))
      | .int64 => .int64 (BitVec.ofNat 64 (leValue (bytes.take 8)))
      | .fixedText width => .fixedText (bytes.take width)

@[simp] theorem Scalar.length_data (scalar : Scalar) : scalar.data.length = scalar.type.size := by
  cases scalar <;> simp [Scalar.data, Scalar.type, DataType.size]

/-- A scalar is read back from its bytes, whatever follows them. -/
theorem makeScalar_data (scalar : Scalar) (rest : Bytes) : makeScalar scalar.type (scalar.data ++ rest) = .ok scalar := by
  have enough : ¬ (scalar.data ++ rest).length < scalar.type.size := by simp
  rw [makeScalar.eq_def, if_neg enough]
  cases scalar with
  | fixedText buffer => simp [Scalar.type, Scalar.data]
  | _ value =>
      have below := value.isLt
      simp only [Scalar.type, Scalar.data, Except.ok.injEq]
      rw [List.take_left' (by simp), leValue_leBytes, Nat.mod_eq_of_lt (by simpa using below), BitVec.ofNat_toNat,
        BitVec.setWidth_eq]

/-- `TableId`. -/
inductive TableId where
  | warehouse
  | district
  | customer
  | history
  | newOrder
  | order
  | orderLine
  | item
  | stock
  deriving DecidableEq, Repr

/-- The `int8_t` value of a table id. -/
def TableId.toNat : TableId → Nat
  | warehouse => 0
  | district => 1
  | customer => 2
  | history => 3
  | newOrder => 4
  | order => 5
  | orderLine => 6
  | item => 7
  | stock => 8

/-- `SCHEMA`: a table's id, its columns' types, how many lead columns make the primary key, and
whether a row is stored as one value. -/
structure Schema where
  id : TableId
  columnTypes : List DataType
  pkeySize : Nat
  grouped : Bool

def warehouseSchema : Schema :=
  ⟨.warehouse, [.int32, .fixedText 10, .fixedText 71, .int32, .int64], 1, false⟩

def districtSchema : Schema :=
  ⟨.district, [.int32, .int8, .fixedText 10, .fixedText 71, .int32, .int64, .int32], 2, false⟩

def customerSchema : Schema :=
  ⟨.customer, [.int32, .int8, .int32, .fixedText 34, .fixedText 71, .fixedText 16, .int64, .fixedText 2, .int64,
    .int32, .int64, .int64, .int16, .int16, .fixedText 250], 3, false⟩

def historySchema : Schema :=
  ⟨.history, [.int32, .int8, .int32, .int32, .int8, .int32, .int64, .int32, .fixedText 24], 4, true⟩

def newOrderSchema : Schema :=
  ⟨.newOrder, [.int32, .int8, .int32, .int8], 3, true⟩

def orderSchema : Schema :=
  ⟨.order, [.int32, .int8, .int32, .int32, .int64, .int8, .int8, .int8], 3, true⟩

def orderLineSchema : Schema :=
  ⟨.orderLine, [.int32, .int8, .int32, .int8, .int32, .int32, .int64, .int8, .int32, .fixedText 24], 4, true⟩

def itemSchema : Schema :=
  ⟨.item, [.int32, .int32, .int32, .fixedText 24, .int32, .fixedText 50], 2, true⟩

def stockSchema : Schema :=
  ⟨.stock, [.int32, .int32, .int16, .fixedText 240, .int32, .int16, .int16, .fixedText 50], 2, true⟩

/-- The schema of each table. -/
def schemaOf : TableId → Schema
  | .warehouse => warehouseSchema
  | .district => districtSchema
  | .customer => customerSchema
  | .history => historySchema
  | .newOrder => newOrderSchema
  | .order => orderSchema
  | .orderLine => orderLineSchema
  | .item => itemSchema
  | .stock => stockSchema

open Execution (repeatedAt)

namespace Schema

def numColumns (schema : Schema) : Nat := schema.columnTypes.length

/-- The offsets from a position on, each column after the ones before it. -/
def offsetsFrom : Nat → List DataType → List Nat
  | _, [] => []
  | offset, type :: rest => offset :: offsetsFrom (offset + type.size) rest

/-- `column_offsets_` after `InitializeColumnOffsets`: key columns at offset 0, the others one
after another. -/
def columnOffsets (schema : Schema) : List Nat :=
  List.replicate schema.pkeySize 0 ++ offsetsFrom 0 (schema.columnTypes.drop schema.pkeySize)

/-- `non_pkey_columns_`. -/
def nonPkeyColumns (schema : Schema) : List Nat :=
  List.range' schema.pkeySize (schema.numColumns - schema.pkeySize)

/-- `ValidateType`: the names of the types must agree. -/
def validateType (schema : Schema) (value : Scalar) (column : Nat) : Except String Unit := do
  let columnType ← repeatedAt schema.columnTypes column
  if value.type.name = columnType.name then pure ()
  else
    throw ("Invalid column type. Value type: " ++ value.type.toString ++ ". Column type: " ++ columnType.toString)

/-- The checks both key builders make, and the key without a column: the first value, the table
id, the rest of the primary key. -/
def keyPrefix (schema : Schema) (values : List Scalar) : Except String Bytes := do
  if values.length < schema.pkeySize then
    throw "Number of values needs to be equal or larger than primary key size"
  ((values.take schema.pkeySize).zipIdx).forM fun (value, i) => schema.validateType value i
  match values with
  | [] => throw "index out of range"
  | first :: rest =>
      pure (first.data ++ [UInt8.ofNat schema.id.toNat] ++ (rest.take (schema.pkeySize - 1)).flatMap Scalar.data)

/-- `MakeStorageKey`. -/
def makeStorageKey (schema : Schema) (values : List Scalar) : Except String Bytes :=
  schema.keyPrefix values

/-- `MakeStorageKeys`: the key with each column id as its last byte, for the columns given or,
when none is, for the non-key columns. -/
def makeStorageKeys (schema : Schema) (values : List Scalar) (columns : List Nat) : Except String (List Bytes) := do
  let columns := if columns.isEmpty then schema.nonPkeyColumns else columns
  let key ← schema.keyPrefix values
  pure (columns.map fun column => key ++ [UInt8.ofNat column])

end Schema

/-- A key of the txn as the adapter sees it: its bytes, the value read, the new value and its
type. -/
structure TxnKey where
  key : Bytes
  value : Bytes
  newValue : Bytes
  type : KeyType
  deriving DecidableEq, Repr

/-- `TxnStorageAdapter`: the txn's keys and deleted keys, and `key_index_` from a key to its
position. -/
structure TxnStorageAdapter where
  keys : List TxnKey
  deletedKeys : List Bytes
  keyIndex : List (Bytes × Nat)
  deriving DecidableEq, Repr

namespace TxnStorageAdapter

/-- `emplace`: a key already in the index keeps its position. -/
def emplace (keyIndex : List (Bytes × Nat)) (key : Bytes) (position : Nat) : List (Bytes × Nat) :=
  if keyIndex.any (·.1 = key) then keyIndex else keyIndex ++ [(key, position)]

/-- `key_index_[key] = position`. -/
def assign (keyIndex : List (Bytes × Nat)) (key : Bytes) (position : Nat) : List (Bytes × Nat) :=
  if keyIndex.any (·.1 = key) then keyIndex.map fun entry => if entry.1 = key then (key, position) else entry
  else keyIndex ++ [(key, position)]

/-- The constructor: each key with its first position. -/
def new (keys : List TxnKey) : TxnStorageAdapter :=
  ⟨keys, [], keys.zipIdx.foldl (fun keyIndex entry => emplace keyIndex entry.1.key entry.2) []⟩

def find (adapter : TxnStorageAdapter) (key : Bytes) : Option Nat :=
  (adapter.keyIndex.find? (·.1 = key)).map (·.2)

def checkIndexSize (adapter : TxnStorageAdapter) : Except String Unit :=
  if adapter.keyIndex.length = adapter.keys.length then pure ()
  else throw "Size of key list in the transaction has changed"

/-- `Read`: the value read of the key, if the txn has it. -/
def read (adapter : TxnStorageAdapter) (key : Bytes) : Except String (Option Bytes) := do
  adapter.checkIndexSize
  match adapter.find key with
  | none => pure none
  | some i => do
      let entry ← repeatedAt adapter.keys i
      pure (some entry.value)

/-- `Insert`: the new value of a WRITE key of the txn. -/
def insert (adapter : TxnStorageAdapter) (key value : Bytes) : Except String (Bool × TxnStorageAdapter) := do
  adapter.checkIndexSize
  match adapter.find key with
  | none => pure (false, adapter)
  | some i => do
      let entry ← repeatedAt adapter.keys i
      if entry.type ≠ .write then pure (false, adapter)
      else pure (true, { adapter with keys := adapter.keys.set i { entry with newValue := value } })

/-- `Update`: the new value of a WRITE key of the txn that has a value, made from that value. -/
def update (adapter : TxnStorageAdapter) (key : Bytes) (updateFn : Bytes → Except String Bytes) :
    Except String (Bool × TxnStorageAdapter) := do
  adapter.checkIndexSize
  match adapter.find key with
  | none => pure (false, adapter)
  | some i => do
      let entry ← repeatedAt adapter.keys i
      if entry.type ≠ .write ∨ entry.value = [] then pure (false, adapter)
      else do
        let updated ← updateFn entry.value
        pure (true, { adapter with keys := adapter.keys.set i { entry with newValue := updated } })

/-- One turn of the loop of `Delete`: the entry at a position swapped with the next, which is
indexed at the position. -/
def shiftDown (state : List TxnKey × List (Bytes × Nat)) (position : Nat) : List TxnKey × List (Bytes × Nat) :=
  match state.1[position]?, state.1[position + 1]? with
  | some here, some next =>
      let keys := (state.1.set position next).set (position + 1) here
      (keys, assign state.2 next.key position)
  | _, _ => state

/-- `Delete`: the key moved to the end and dropped, the keys after it indexed one down. -/
def delete (adapter : TxnStorageAdapter) (key : Bytes) : Except String (Bool × TxnStorageAdapter) := do
  adapter.checkIndexSize
  match adapter.find key with
  | none => pure (false, adapter)
  | some i =>
      let (keys, keyIndex) := (List.range' i (adapter.keys.length - 1 - i)).foldl shiftDown (adapter.keys, adapter.keyIndex)
      pure (true, ⟨keys.dropLast, adapter.deletedKeys ++ [key], keyIndex.filter (·.1 ≠ key)⟩)

/-- A flush of the written bytes, as the tests make between calls: each key written reads its new
value, no key keeps a new value, and the deleted keys are gone. -/
def flush (adapter : TxnStorageAdapter) : TxnStorageAdapter :=
  { adapter with
    keys := adapter.keys.map fun entry =>
      { entry with value := if entry.newValue = [] then entry.value else entry.newValue, newValue := [] }
    deletedKeys := [] }

end TxnStorageAdapter

/-- `std::string::replace(pos, len, bytes)`, which throws when the position is past the end. -/
def replaceBytes (stored : Bytes) (position length : Nat) (bytes : Bytes) : Except String Bytes :=
  if stored.length < position then .error "basic_string::replace"
  else .ok (stored.take position ++ bytes ++ stored.drop (position + length))

namespace Table

variable (schema : Schema) (adapter : TxnStorageAdapter)

/-- The scalar of a non-key column of a grouped row, read at the column's offset. -/
def columnScalar (value : Bytes) (column : Nat) : Except String Scalar := do
  let type ← repeatedAt schema.columnTypes column
  let offset ← repeatedAt schema.columnOffsets column
  makeScalar type (value.drop offset)

def selectGrouped (pkey : List Scalar) (columns : List Nat) : Except String (List Scalar) := do
  let key ← schema.makeStorageKey pkey
  match ← adapter.read key with
  | none => pure []
  | some value =>
      -- no column asks for every column
      if columns.isEmpty then do
        let rest ← (List.range' schema.pkeySize (schema.numColumns - schema.pkeySize)).mapM (columnScalar schema value)
        pure (pkey ++ rest)
      else
        columns.mapM fun column =>
          if column < schema.pkeySize then repeatedAt pkey column else columnScalar schema value column

/-- A column of an ungrouped row read from its own key, when the txn has a value there; the flag
says whether a value was found. -/
def readColumn (state : Bool × List Scalar) (key : Bytes) (column : Nat) : Except String (Bool × List Scalar) := do
  match ← adapter.read key with
  | some value =>
      if value = [] then pure state
      else do
        let type ← repeatedAt schema.columnTypes column
        let scalar ← makeScalar type value
        pure (true, state.2 ++ [scalar])
  | none => pure state

/-- One turn of the loop of `SelectUngrouped` over the non-key columns, the keys made for them. -/
def selectNonKeyColumn (keys : List Bytes) (state : Bool × List Scalar) (column : Nat) :
    Except String (Bool × List Scalar) := do
  let key ← repeatedAt keys (column - schema.pkeySize)
  readColumn schema adapter state key column

/-- One turn of the loop of `SelectUngrouped` over the columns given, with each column's position:
a key column is taken from the key, another read from the key made for it. -/
def selectColumn (pkey : List Scalar) (keys : List Bytes) (state : Bool × List Scalar) (entry : Nat × Nat) :
    Except String (Bool × List Scalar) :=
  if entry.1 < schema.pkeySize then do
    let scalar ← repeatedAt pkey entry.1
    pure (state.1, state.2 ++ [scalar])
  else do
    let key ← repeatedAt keys entry.2
    readColumn schema adapter state key entry.1

def selectUngrouped (pkey : List Scalar) (columns : List Nat) : Except String (List Scalar) := do
  let keys ← schema.makeStorageKeys pkey columns
  let (found, result) ←
    if columns.isEmpty then
      (List.range' schema.pkeySize (schema.numColumns - schema.pkeySize)).foldlM
        (selectNonKeyColumn schema adapter keys) (false, pkey)
    else columns.zipIdx.foldlM (selectColumn schema adapter pkey keys) (false, [])
  -- a row none of whose values was found reads as no row
  if !found then pure [] else pure result

/-- `Select`. -/
def select (pkey : List Scalar) (columns : List Nat) : Except String (List Scalar) :=
  if schema.grouped then selectGrouped schema adapter pkey columns else selectUngrouped schema adapter pkey columns

/-- `Insert`: the non-key columns are checked, then stored as one value or each under its key. -/
def insert (values : List Scalar) : Except String (Bool × TxnStorageAdapter) := do
  if values.length ≠ schema.numColumns then throw "Number of values does not match number of columns"
  (List.range' schema.pkeySize (schema.numColumns - schema.pkeySize)).forM fun i => do
    let value ← repeatedAt values i
    schema.validateType value i
  if schema.grouped then
    let storageValue := (values.drop schema.pkeySize).flatMap Scalar.data
    let key ← schema.makeStorageKey values
    adapter.insert key storageValue
  else do
    let keys ← schema.makeStorageKeys values []
    (keys.zip (values.drop schema.pkeySize)).foldlM (fun state entry => do
        let (inserted, adapter) ← state.2.insert entry.1 entry.2.data
        pure (state.1 && inserted, adapter)) (true, adapter)

/-- `Update`: each column given is checked, then written over at its offset of the row's value, or
replaces the value of its own key. -/
def update (pkey : List Scalar) (columns : List Nat) (values : List Scalar) : Except String (Bool × TxnStorageAdapter) := do
  if columns.length ≠ values.length then throw "Number of values does not match number of columns"
  (columns.zip values).forM fun entry => schema.validateType entry.2 entry.1
  if schema.grouped then do
    let key ← schema.makeStorageKey pkey
    adapter.update key fun stored =>
      (columns.zip values).foldlM (fun stored entry => do
          let offset ← repeatedAt schema.columnOffsets entry.1
          replaceBytes stored offset entry.2.type.size entry.2.data) stored
  else do
    let keys ← schema.makeStorageKeys pkey columns
    (keys.zip values).foldlM (fun state entry => do
        let (updated, adapter) ← state.2.update entry.1 fun _ => pure entry.2.data
        pure (state.1 && updated, adapter)) (true, adapter)

/-- `Delete`: the row's key, or each of its columns' keys. -/
def delete (pkey : List Scalar) : Except String (Bool × TxnStorageAdapter) := do
  if schema.grouped then do
    let key ← schema.makeStorageKey pkey
    adapter.delete key
  else do
    let keys ← schema.makeStorageKeys pkey []
    keys.foldlM (fun state key => do
        let (deleted, adapter) ← state.2.delete key
        pure (state.1 && deleted, adapter)) (true, adapter)

/-- The tests' round of an insert of a row, a flush of the written bytes, and a select. -/
def insertFlushSelect (row pkey : List Scalar) (columns : List Nat) : Except String (List Scalar) := do
  let (_, adapter) ← insert schema adapter row
  select schema adapter.flush pkey columns

/-- The tests' round of an update, a flush of the written bytes, and a select. -/
def updateFlushSelect (pkey : List Scalar) (updated : List Nat) (values : List Scalar) (columns : List Nat) :
    Except String (List Scalar) := do
  let (_, adapter) ← update schema adapter pkey updated values
  select schema adapter.flush pkey columns

end Table

end Slog.Tpcc
