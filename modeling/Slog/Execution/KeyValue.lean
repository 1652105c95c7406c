/-
`KeyValueExecution::Execute` (`execution/key_value.cpp`) and `Execution::ApplyWrites`
(`execution/execution.cpp`); undefined behaviour of the code is a fault here.
-/

import Mathlib
import Slog.Common.Types
import Slog.Library.Folds
import Slog.Common.ConcurrentHashMap

namespace Slog.Execution

open ConcurrentHashMap (Call)

inductive TransactionStatus where
  | notStarted
  | committed
  | aborted
  deriving DecidableEq, Repr

/-- A key of the txn with its `ValueEntry`: the value read, the new value, the type and the
master metadata, unset where `metadata` is `none`. -/
structure KeyEntry where
  key : Key
  value : String
  newValue : String
  type : KeyType
  metadata : Option MasterMetadata
  deriving DecidableEq, Repr

/-- The parts of a `Transaction` that the execution reads and writes: its keys, the argument
lists of its code procedures, its deleted keys, status and abort reason. -/
structure Txn where
  keys : List KeyEntry
  procedures : List (List String)
  deletedKeys : List Key
  status : TransactionStatus
  abortReason : String
  deriving DecidableEq, Repr

/-- `Record`: a value with the master metadata of its key. -/
structure Record where
  value : String
  metadata : MasterMetadata
  deriving DecidableEq, Repr

/-- `operator[]` of a repeated field. Out of range it is undefined behaviour, a fault here. -/
def repeatedAt {α : Type} (items : List α) (index : Nat) : Except String α :=
  match items[index]? with
  | some item => .ok item
  | none => .error "index out of range"

/-- `key_index`: each key to its first entry, since `emplace` keeps the entry there. -/
def keyIndex (keys : List KeyEntry) (key : Key) : Option Nat :=
  keys.findIdx? (·.key = key)

def isSpace (c : Char) : Bool :=
  c = ' ' ∨ c = '\t' ∨ c = '\n' ∨ c = '\x0b' ∨ c = '\x0c' ∨ c = '\r'

/-- `std::stoi`: after white space and a sign, the longest run of decimal digits; `none` where
it throws, for no digit or a value outside `int`. -/
def stoi (text : String) : Option Int :=
  let chars := text.toList.dropWhile isSpace
  let (negative, rest) : Bool × List Char :=
    match chars with
    | '-' :: rest => (true, rest)
    | '+' :: rest => (false, rest)
    | rest => (false, rest)
  let digits := rest.takeWhile Char.isDigit
  let magnitude : Int := digits.foldl (fun value c => 10 * value + (c.toNat - '0'.toNat : Nat)) 0
  let value := if negative then -magnitude else magnitude
  if digits.isEmpty then none
  else if -2 ^ 31 ≤ value ∧ value < 2 ^ 31 then some value
  else none

/-- `set_new_value` on the entry at an index. -/
def Txn.setNewValue (txn : Txn) (index : Nat) (value : String) : Txn :=
  { txn with keys := txn.keys.modify index fun entry => { entry with newValue := value } }

/-- The locals of `Execute`: the txn, whether an `EQ` failed, and the abort reason so far. -/
structure ExecuteState where
  txn : Txn
  aborted : Bool
  abortReason : String
  deriving DecidableEq, Repr

/-- The body of the loop over the procedures, for one argument list. -/
def runProcedure (keyIndex : Key → Option Nat) (state : ExecuteState) (args : List String) :
    Except String ExecuteState :=
  match args with
  | [] => pure state
  | command :: _ =>
      if command = "SET" then do
        let key ← repeatedAt args 1
        match keyIndex key with
        | none => pure state
        | some i => do
            let entry ← repeatedAt state.txn.keys i
            if entry.type ≠ .write then pure state
            else do
              let value ← repeatedAt args 2
              pure { state with txn := state.txn.setNewValue i value }
      else if command = "DEL" then do
        let key ← repeatedAt args 1
        -- the test reads `it != key_index.end() || ...`: a key the txn has is skipped, and for
        -- another one the second operand dereferences `end()`
        match keyIndex key with
        | some _ => pure state
        | none => .error "key_index.end() dereferenced"
      else if command = "COPY" then do
        let src ← repeatedAt args 1
        let dst ← repeatedAt args 2
        match keyIndex src, keyIndex dst with
        | some srcIndex, some dstIndex => do
            let srcEntry ← repeatedAt state.txn.keys srcIndex
            let dstEntry ← repeatedAt state.txn.keys dstIndex
            if dstEntry.type ≠ .write then pure state
            else pure { state with txn := state.txn.setNewValue dstIndex srcEntry.value }
        | _, _ => pure state
      else if command = "EQ" then do
        let key ← repeatedAt args 1
        match keyIndex key with
        | none => pure state
        | some i => do
            let entry ← repeatedAt state.txn.keys i
            let expected ← repeatedAt args 2
            if entry.value ≠ expected then
              pure { state with
                aborted := true
                abortReason := state.abortReason ++ "Key = " ++ key ++ ". Expected value = " ++ expected ++
                  ". Actual value = " ++ entry.value }
            else pure state
      else if command = "SLEEP" then do
        let time ← repeatedAt args 1
        match stoi time with
        | some _ => pure state
        | none => .error "std::stoi threw"
      else pure state

/-- `ApplyWrites`: a `Write` of each local WRITE key's new value, then a `Delete` of each
deleted key. -/
def applyWrites (isLocalKey : Key → Bool) (txn : Txn) : List (Call Key Record) :=
  (txn.keys.filter fun kv => isLocalKey kv.key && kv.type != .read).map
      (fun kv => .insertOrUpdate kv.key ⟨kv.newValue, kv.metadata.getD ⟨0, 0⟩⟩) ++
    txn.deletedKeys.map .erase

/-- `Execute`: the txn with its status, and the storage calls it makes. -/
def execute (isLocalKey : Key → Bool) (txn : Txn) : Except String (Txn × List (Call Key Record)) := do
  let state ← txn.procedures.foldlM (runProcedure (keyIndex txn.keys)) ⟨txn, false, ""⟩
  if state.aborted then
    pure ({ state.txn with status := .aborted, abortReason := state.abortReason }, [])
  else
    let txn := { state.txn with status := .committed }
    pure (txn, applyWrites isLocalKey txn)

/-! What the commands mean, read off the txn's keys alone: the entry a command gives a new value
and the value, the abort reason it adds, and whether the code cannot run it. Since `Execute`
writes only new values, the keys, values read and types it looks up stay those of the txn. -/

/-- The index of the first entry of a key, when that entry is a WRITE one. -/
def writeIndex (keys : List KeyEntry) (key : Key) : Option Nat :=
  (keyIndex keys key).filter fun i => keys[i]?.map (·.type) = some .write

/-- The value read of the first entry of a key. -/
def readValue (keys : List KeyEntry) (key : Key) : Option String :=
  (keyIndex keys key).bind fun i => keys[i]?.map (·.value)

/-- The entry that a command gives a new value, and the value: `SET k v` and `COPY s d` on a
WRITE key. -/
def assignment (keys : List KeyEntry) : List String → Option (Nat × String)
  | command :: key :: value :: _ =>
      if command = "SET" then (writeIndex keys key).map (·, value)
      else if command = "COPY" then (readValue keys key).bind fun read => (writeIndex keys value).map (·, read)
      else none
  | _ => none

/-- The abort reason a command adds: an `EQ` of a key whose value read differs. -/
def mismatch (keys : List KeyEntry) : List String → Option String
  | command :: key :: expected :: _ =>
      if command = "EQ" then
        (readValue keys key).bind fun value =>
          if value ≠ expected then
            some ("Key = " ++ key ++ ". Expected value = " ++ expected ++ ". Actual value = " ++ value)
          else none
      else none
  | _ => none

/-- The commands the code cannot run: those it reads an argument of out of range, a `DEL` of a
key the txn does not have, and a `SLEEP` whose time `std::stoi` rejects. -/
def faulty (keys : List KeyEntry) : List String → Bool
  | [] => false
  | [command] => decide (command = "SET" ∨ command = "DEL" ∨ command = "COPY" ∨ command = "EQ" ∨ command = "SLEEP")
  | [command, key] =>
      if command = "SET" then (writeIndex keys key).isSome
      else if command = "DEL" then (keyIndex keys key).isNone
      else if command = "COPY" then true
      else if command = "EQ" then (keyIndex keys key).isSome
      else if command = "SLEEP" then (stoi key).isNone
      else false
  | command :: key :: _ :: _ =>
      if command = "DEL" then (keyIndex keys key).isNone
      else if command = "SLEEP" then (stoi key).isNone
      else false

/-- What a command the code can run does to the locals of `Execute`. -/
def ExecuteState.perform (keys : List KeyEntry) (state : ExecuteState) (args : List String) : ExecuteState where
  txn :=
    match assignment keys args with
    | some (i, value) => state.txn.setNewValue i value
    | none => state.txn
  aborted := state.aborted || (mismatch keys args).isSome
  abortReason := state.abortReason ++ (mismatch keys args).getD ""

/-- The fields of an entry that `Execute` reads and never writes. -/
def KeyEntry.fixed (entry : KeyEntry) : Key × String × KeyType := (entry.key, entry.value, entry.type)

/-- The locals agree with the txn's keys on what `Execute` reads. -/
def ExecuteState.Agrees (keys : List KeyEntry) (state : ExecuteState) : Prop :=
  state.txn.keys.map KeyEntry.fixed = keys.map KeyEntry.fixed

section Step

variable {keys : List KeyEntry} {state : ExecuteState}

theorem keyIndex_spec {key : Key} {i : Nat} (found : keyIndex keys key = some i) :
    ∃ entry, keys[i]? = some entry ∧ entry.key = key := by
  obtain ⟨within, first, -⟩ := List.findIdx?_eq_some_iff_getElem.mp found
  exact ⟨keys[i], List.getElem?_eq_getElem within, by simpa using first⟩

theorem setNewValue_fixed (txn : Txn) (i : Nat) (value : String) :
    (txn.setNewValue i value).keys.map KeyEntry.fixed = txn.keys.map KeyEntry.fixed := by
  apply List.ext_getElem?
  intro j
  simp only [Txn.setNewValue, List.getElem?_map, List.getElem?_modify]
  cases txn.keys[j]? with
  | none => rfl
  | some entry => by_cases same : i = j <;> simp [same, KeyEntry.fixed]

theorem ExecuteState.Agrees.perform (agrees : state.Agrees keys) (args : List String) : (state.perform keys args).Agrees keys := by
  unfold ExecuteState.Agrees ExecuteState.perform
  split
  · rw [setNewValue_fixed]
    exact agrees
  · exact agrees

/-- An entry the txn has at an index is there in the locals, with the fields `Execute` reads. -/
theorem ExecuteState.Agrees.repeatedAt (agrees : state.Agrees keys) {i : Nat} {entry : KeyEntry} (present : keys[i]? = some entry) :
    ∃ current, repeatedAt state.txn.keys i = .ok current ∧ current.type = entry.type ∧ current.value = entry.value := by
  have read := congrArg (·[i]?) agrees
  simp only [List.getElem?_map, present, Option.map_some] at read
  obtain ⟨current, there, same⟩ := Option.map_eq_some_iff.mp read
  simp only [KeyEntry.fixed, Prod.mk.injEq] at same
  exact ⟨current, by simp [Execution.repeatedAt, there], same.2.2, same.2.1⟩

theorem perform_eq_self {args : List String} (unassigned : assignment keys args = none) (matched : mismatch keys args = none) :
    state.perform keys args = state := by
  simp [ExecuteState.perform, unassigned, matched]

/-- Commands of fewer than three words assign nothing and compare nothing. -/
theorem perform_of_short {args : List String} (short : args.length < 3) : state.perform keys args = state := by
  rcases args with _ | ⟨_, _ | ⟨_, _ | ⟨_, _⟩⟩⟩
  · exact perform_eq_self rfl rfl
  · exact perform_eq_self rfl rfl
  · exact perform_eq_self rfl rfl
  · simp only [List.length_cons] at short
    omega

/-! The proofs below unfold `runProcedure`, `faulty`, `assignment` and `mismatch` with `delta`.
`simp` would unfold them by their equation lemmas, which Lean generates on first use: the proofs
are checked in parallel, and all of them would wait on the one that generates each lemma. -/

/-- Only `SET` and `COPY` assign. -/
theorem assignment_of_inert {command : String} (set : command ≠ "SET") (copy : command ≠ "COPY") (rest : List String) :
    assignment keys (command :: rest) = none := by
  delta assignment
  rcases rest with _ | ⟨_, _ | ⟨_, _⟩⟩ <;> simp [set, copy]

/-- Only `EQ` compares. -/
theorem mismatch_of_ne_eq {command : String} (eq : command ≠ "EQ") (rest : List String) :
    mismatch keys (command :: rest) = none := by
  delta mismatch
  rcases rest with _ | ⟨_, _ | ⟨_, _⟩⟩ <;> simp [eq]

@[simp] theorem repeatedAt_nil {α : Type} (i : Nat) : repeatedAt ([] : List α) i = .error "index out of range" := rfl

@[simp] theorem repeatedAt_cons_zero {α : Type} (item : α) (items : List α) : repeatedAt (item :: items) 0 = .ok item := rfl

@[simp] theorem repeatedAt_cons_succ {α : Type} (item : α) (items : List α) (i : Nat) :
    repeatedAt (item :: items) (i + 1) = repeatedAt items i := rfl

theorem repeatedAt_of_lt {α : Type} {items : List α} {i : Nat} (within : i < items.length) :
    repeatedAt items i = .ok items[i] := by
  simp [repeatedAt, List.getElem?_eq_getElem within]

theorem writeIndex_of_found {key : Key} {i : Nat} {entry : KeyEntry} (found : keyIndex keys key = some i)
    (present : keys[i]? = some entry) : writeIndex keys key = if entry.type = .write then some i else none := by
  simp [writeIndex, found, present, Option.filter]

theorem readValue_of_found {key : Key} {i : Nat} {entry : KeyEntry} (found : keyIndex keys key = some i)
    (present : keys[i]? = some entry) : readValue keys key = some entry.value := by
  simp [readValue, found, present]

theorem runProcedure_set (agrees : state.Agrees keys) (rest : List String) (final : ExecuteState) :
    runProcedure (keyIndex keys) state ("SET" :: rest) = .ok final ↔
      faulty keys ("SET" :: rest) = false ∧ state.perform keys ("SET" :: rest) = final := by
  delta runProcedure faulty
  rcases rest with _ | ⟨key, rest⟩
  · simp [bind, Except.bind]
  cases found : keyIndex keys key with
  | none =>
      have unwritten : writeIndex keys key = none := by simp [writeIndex, found]
      rcases rest with _ | ⟨value, more⟩
      · rw [perform_of_short (by simp)]
        simp [bind, Except.bind, pure, Except.pure, found, unwritten]
      · rw [perform_eq_self (by delta assignment; simp [unwritten]) (mismatch_of_ne_eq (by simp) _)]
        simp [bind, Except.bind, pure, Except.pure, found]
  | some i =>
      obtain ⟨entry, present, -⟩ := keyIndex_spec found
      obtain ⟨current, read, typed, -⟩ := agrees.repeatedAt present
      have written := writeIndex_of_found found present
      by_cases write : entry.type = .write
      · rcases rest with _ | ⟨value, more⟩
        · simp [bind, Except.bind, found, read, typed, write, written]
        · have assigned : assignment keys ("SET" :: key :: value :: more) = some (i, value) := by
            delta assignment
            simp [written, write]
          simp [bind, Except.bind, pure, Except.pure, found, read, typed, write, ExecuteState.perform, assigned,
            mismatch_of_ne_eq]
      · have unwritten : writeIndex keys key = none := by simp [written, write]
        rcases rest with _ | ⟨value, more⟩
        · rw [perform_of_short (by simp)]
          simp [bind, Except.bind, pure, Except.pure, found, read, typed, write, unwritten]
        · rw [perform_eq_self (by delta assignment; simp [unwritten]) (mismatch_of_ne_eq (by simp) _)]
          simp [bind, Except.bind, pure, Except.pure, found, read, typed, write]

theorem runProcedure_del (rest : List String) (final : ExecuteState) :
    runProcedure (keyIndex keys) state ("DEL" :: rest) = .ok final ↔
      faulty keys ("DEL" :: rest) = false ∧ state.perform keys ("DEL" :: rest) = final := by
  delta runProcedure faulty
  rcases rest with _ | ⟨key, more⟩
  · simp [bind, Except.bind]
  rw [perform_eq_self (assignment_of_inert (by simp) (by simp) _) (mismatch_of_ne_eq (by simp) _)]
  cases found : keyIndex keys key with
  | none => rcases more with _ | ⟨_, _⟩ <;> simp [bind, Except.bind, found]
  | some i => rcases more with _ | ⟨_, _⟩ <;> simp [bind, Except.bind, pure, Except.pure, found]

theorem runProcedure_copy (agrees : state.Agrees keys) (rest : List String) (final : ExecuteState) :
    runProcedure (keyIndex keys) state ("COPY" :: rest) = .ok final ↔
      faulty keys ("COPY" :: rest) = false ∧ state.perform keys ("COPY" :: rest) = final := by
  delta runProcedure faulty
  rcases rest with _ | ⟨src, _ | ⟨dst, more⟩⟩
  · simp [bind, Except.bind]
  · simp [bind, Except.bind]
  cases foundSrc : keyIndex keys src with
  | none =>
      rw [perform_eq_self (by delta assignment; simp [readValue, foundSrc]) (mismatch_of_ne_eq (by simp) _)]
      simp [bind, Except.bind, pure, Except.pure, foundSrc]
  | some srcIndex =>
      cases foundDst : keyIndex keys dst with
      | none =>
          rw [perform_eq_self (by delta assignment; simp [writeIndex, foundDst]) (mismatch_of_ne_eq (by simp) _)]
          simp [bind, Except.bind, pure, Except.pure, foundSrc, foundDst]
      | some dstIndex =>
          obtain ⟨srcEntry, srcPresent, -⟩ := keyIndex_spec foundSrc
          obtain ⟨dstEntry, dstPresent, -⟩ := keyIndex_spec foundDst
          obtain ⟨srcCurrent, srcRead, -, srcValued⟩ := agrees.repeatedAt srcPresent
          obtain ⟨dstCurrent, dstRead, dstTyped, -⟩ := agrees.repeatedAt dstPresent
          have read := readValue_of_found foundSrc srcPresent
          have written := writeIndex_of_found foundDst dstPresent
          by_cases write : dstEntry.type = .write
          · have assigned : assignment keys ("COPY" :: src :: dst :: more) = some (dstIndex, srcEntry.value) := by
              delta assignment
              simp [read, written, write]
            simp [bind, Except.bind, pure, Except.pure, foundSrc, foundDst, srcRead, dstRead, dstTyped,
              srcValued, write, ExecuteState.perform, assigned, mismatch_of_ne_eq]
          · rw [perform_eq_self (by delta assignment; simp [read, written, write]) (mismatch_of_ne_eq (by simp) _)]
            simp [bind, Except.bind, pure, Except.pure, foundSrc, foundDst, srcRead, dstRead, dstTyped, write]

theorem runProcedure_eq (agrees : state.Agrees keys) (rest : List String) (final : ExecuteState) :
    runProcedure (keyIndex keys) state ("EQ" :: rest) = .ok final ↔
      faulty keys ("EQ" :: rest) = false ∧ state.perform keys ("EQ" :: rest) = final := by
  delta runProcedure faulty
  rcases rest with _ | ⟨key, rest⟩
  · simp [bind, Except.bind]
  cases found : keyIndex keys key with
  | none =>
      have unread : readValue keys key = none := by simp [readValue, found]
      rcases rest with _ | ⟨expected, more⟩
      · rw [perform_of_short (by simp)]
        simp [bind, Except.bind, pure, Except.pure, found]
      · rw [perform_eq_self (assignment_of_inert (by simp) (by simp) _) (by delta mismatch; simp [unread])]
        simp [bind, Except.bind, pure, Except.pure, found]
  | some i =>
      obtain ⟨entry, present, -⟩ := keyIndex_spec found
      obtain ⟨current, read, -, valued⟩ := agrees.repeatedAt present
      have readEntry := readValue_of_found found present
      rcases rest with _ | ⟨expected, more⟩
      · simp [bind, Except.bind, found, read]
      by_cases same : entry.value = expected
      · rw [perform_eq_self (assignment_of_inert (by simp) (by simp) _) (by delta mismatch; simp [readEntry, same])]
        simp [bind, Except.bind, pure, Except.pure, found, read, valued, same]
      · have matched : mismatch keys ("EQ" :: key :: expected :: more) =
            some ("Key = " ++ key ++ ". Expected value = " ++ expected ++ ". Actual value = " ++ entry.value) := by
          delta mismatch
          simp [readEntry, same]
        simp [bind, Except.bind, pure, Except.pure, found, read, valued, same, ExecuteState.perform, matched,
          assignment_of_inert, String.append_assoc]

theorem runProcedure_sleep (rest : List String) (final : ExecuteState) :
    runProcedure (keyIndex keys) state ("SLEEP" :: rest) = .ok final ↔
      faulty keys ("SLEEP" :: rest) = false ∧ state.perform keys ("SLEEP" :: rest) = final := by
  delta runProcedure faulty
  rcases rest with _ | ⟨time, more⟩
  · simp [bind, Except.bind]
  rw [perform_eq_self (assignment_of_inert (by simp) (by simp) _) (mismatch_of_ne_eq (by simp) _)]
  cases parsed : stoi time with
  | none => rcases more with _ | ⟨_, _⟩ <;> simp [bind, Except.bind, parsed]
  | some ms => rcases more with _ | ⟨_, _⟩ <;> simp [bind, Except.bind, pure, Except.pure, parsed]

/-- A command the code does not know is skipped, whatever its arguments. -/
theorem runProcedure_other {command : String}
    (unknown : command ≠ "SET" ∧ command ≠ "DEL" ∧ command ≠ "COPY" ∧ command ≠ "EQ" ∧ command ≠ "SLEEP")
    (rest : List String) (final : ExecuteState) :
    runProcedure (keyIndex keys) state (command :: rest) = .ok final ↔
      faulty keys (command :: rest) = false ∧ state.perform keys (command :: rest) = final := by
  obtain ⟨set, del, copy, eq, sleep⟩ := unknown
  rw [perform_eq_self (assignment_of_inert set copy rest) (mismatch_of_ne_eq eq rest)]
  delta runProcedure faulty
  rcases rest with _ | ⟨_, _ | ⟨_, _⟩⟩ <;> simp [pure, Except.pure, set, del, copy, eq, sleep]

/-- The step lemma: the code runs a command exactly when it is not faulty, and then does what the
command means. -/
theorem runProcedure_eq_ok_iff (agrees : state.Agrees keys) (args : List String) (final : ExecuteState) :
    runProcedure (keyIndex keys) state args = .ok final ↔ faulty keys args = false ∧ state.perform keys args = final := by
  rcases args with _ | ⟨command, rest⟩
  · rw [perform_of_short (by simp)]
    delta runProcedure faulty
    simp [pure, Except.pure]
  by_cases set : command = "SET"
  · subst set
    exact runProcedure_set agrees rest final
  by_cases del : command = "DEL"
  · subst del
    exact runProcedure_del rest final
  by_cases copy : command = "COPY"
  · subst copy
    exact runProcedure_copy agrees rest final
  by_cases eq : command = "EQ"
  · subst eq
    exact runProcedure_eq agrees rest final
  by_cases sleep : command = "SLEEP"
  · subst sleep
    exact runProcedure_sleep rest final
  exact runProcedure_other ⟨set, del, copy, eq, sleep⟩ rest final

/-- The run lemma: the loop runs to its end exactly when no command is faulty, and then does what
the commands mean, one after the other. -/
theorem foldlM_runProcedure_eq_ok_iff (agrees : state.Agrees keys) (procedures : List (List String))
    (final : ExecuteState) :
    procedures.foldlM (runProcedure (keyIndex keys)) state = .ok final ↔
      (∀ args ∈ procedures, faulty keys args = false) ∧ procedures.foldl (ExecuteState.perform keys) state = final := by
  induction procedures generalizing state with
  | nil => simp [pure, Except.pure]
  | cons args procedures ih =>
      simp only [List.foldlM_cons, List.foldl_cons, List.forall_mem_cons]
      cases stepped : runProcedure (keyIndex keys) state args with
      | error message =>
          have stops : faulty keys args = true := by
            by_contra runs
            have ran := (runProcedure_eq_ok_iff agrees args (state.perform keys args)).mpr ⟨by simpa using runs, rfl⟩
            rw [stepped] at ran
            cases ran
          simp [bind, Except.bind, stops]
      | ok next =>
          obtain ⟨runs, rfl⟩ := (runProcedure_eq_ok_iff agrees args next).mp stepped
          simp only [bind, Except.bind, runs, true_and]
          exact ih (agrees.perform args)

end Step

section Meaning

variable (keys : List KeyEntry)

/-- The new value of the entry at an index after the commands: that of the last command that
assigns it, or the one it had. -/
def lastAssigned (procedures : List (List String)) (i : Nat) (initial : String) : String :=
  procedures.foldl (fun value args =>
    match assignment keys args with
    | some (j, assigned) => if j = i then assigned else value
    | none => value) initial

variable {keys}

theorem foldl_perform_keys (procedures : List (List String)) (state : ExecuteState) :
    (procedures.foldl (ExecuteState.perform keys) state).txn.keys =
      state.txn.keys.mapIdx fun i entry => { entry with newValue := lastAssigned keys procedures i entry.newValue } := by
  induction procedures generalizing state with
  | nil =>
      apply List.ext_getElem?
      intro j
      simp only [List.foldl_nil, List.getElem?_mapIdx, lastAssigned]
      cases state.txn.keys[j]? <;> rfl
  | cons args procedures ih =>
      rw [List.foldl_cons, ih]
      apply List.ext_getElem?
      intro j
      simp only [List.getElem?_mapIdx, lastAssigned, List.foldl_cons]
      unfold ExecuteState.perform
      cases assignment keys args with
      | none => rfl
      | some target =>
          obtain ⟨k, value⟩ := target
          simp only [Txn.setNewValue, List.getElem?_modify]
          cases state.txn.keys[j]? with
          | none => rfl
          | some entry => by_cases same : k = j <;> simp [same]

theorem foldl_perform_aborted (procedures : List (List String)) (state : ExecuteState) :
    (procedures.foldl (ExecuteState.perform keys) state).aborted =
      (state.aborted || procedures.any fun args => (mismatch keys args).isSome) := by
  induction procedures generalizing state with
  | nil => simp
  | cons args procedures ih =>
      rw [List.foldl_cons, ih, List.any_cons]
      simp [ExecuteState.perform, Bool.or_assoc]

/-- The commands change no field of the txn but the new values. -/
theorem foldl_perform_txn (procedures : List (List String)) (state : ExecuteState) :
    { (procedures.foldl (ExecuteState.perform keys) state).txn with keys := state.txn.keys } = state.txn := by
  induction procedures generalizing state with
  | nil => rfl
  | cons args procedures ih =>
      rw [List.foldl_cons]
      have kept := ih (state.perform keys args)
      unfold ExecuteState.perform at kept ⊢
      split at kept <;> simp_all [Txn.setNewValue]

end Meaning

/-- `Execute` returns exactly when no command is faulty, and then ends as the commands mean: aborted
with the reasons when an `EQ` failed, and otherwise committed with the writes of `ApplyWrites`. -/
theorem execute_eq_ok_iff (isLocalKey : Key → Bool) (txn : Txn) (result : Txn × List (Call Key Record)) :
    execute isLocalKey txn = .ok result ↔ (∀ args ∈ txn.procedures, faulty txn.keys args = false) ∧
      result =
        let final := txn.procedures.foldl (ExecuteState.perform txn.keys) ⟨txn, false, ""⟩
        if final.aborted then ({ final.txn with status := .aborted, abortReason := final.abortReason }, [])
        else ({ final.txn with status := .committed }, applyWrites isLocalKey { final.txn with status := .committed }) := by
  have start : (⟨txn, false, ""⟩ : ExecuteState).Agrees txn.keys := rfl
  unfold execute
  cases folded : txn.procedures.foldlM (runProcedure (keyIndex txn.keys)) ⟨txn, false, ""⟩ with
  | error message =>
      have stops : ¬ ∀ args ∈ txn.procedures, faulty txn.keys args = false := fun runs => by
        have ran := (foldlM_runProcedure_eq_ok_iff start txn.procedures _).mpr ⟨runs, rfl⟩
        rw [folded] at ran
        cases ran
      simp [bind, Except.bind, stops]
  | ok final =>
      obtain ⟨runs, rfl⟩ := (foldlM_runProcedure_eq_ok_iff start _ final).mp folded
      rw [iff_true_intro runs, true_and]
      simp only [bind, Except.bind]
      split <;> simp only [pure, Except.pure, Except.ok.injEq, *] <;> exact eq_comm

/-- A txn with the WRITE key `A`, whose procedure deletes it. -/
def deleteTxn : Txn := ⟨[⟨"A", "x", "", .write, none⟩], [["DEL", "A"]], [], .notStarted, ""⟩

theorem del_never_deletes :
    (∀ isLocalKey txn result, execute isLocalKey txn = .ok result → result.1.deletedKeys = txn.deletedKeys) ∧
      execute (fun _ => true) deleteTxn =
        .ok ({ deleteTxn with status := .committed }, [.insertOrUpdate "A" ⟨"", ⟨0, 0⟩⟩]) ∧
      (execute (fun _ => true) { deleteTxn with procedures := [["DEL", "B"]] }).toOption = none ∧
      (execute (fun _ => true) { deleteTxn with procedures := [["SET"]] }).toOption = none := by
  refine ⟨fun isLocalKey txn result ran => ?_, by rfl, by rfl, by rfl⟩
  obtain ⟨-, rfl⟩ := (execute_eq_ok_iff isLocalKey txn result).mp ran
  have kept := congrArg Txn.deletedKeys (@foldl_perform_txn txn.keys txn.procedures ⟨txn, false, ""⟩)
  simp only at kept ⊢
  split <;> exact kept

section Storage

/-- Writes of entries leave each key with the record of its last write, or what it held. -/
theorem foldl_writes (writes : List KeyEntry) (contents : Key → Option Record) (key : Key) :
    (writes.foldl (fun (contents : Key → Option Record) kv => Function.update contents kv.key (some ⟨kv.newValue, kv.metadata.getD ⟨0, 0⟩⟩))
        contents) key =
      ((writes.reverse.find? (·.key = key)).map fun kv => (⟨kv.newValue, kv.metadata.getD ⟨0, 0⟩⟩ : Record)).or
        (contents key) := by
  induction writes generalizing contents with
  | nil => simp
  | cons kv writes ih =>
      rw [List.foldl_cons, ih, List.reverse_cons, List.find?_append]
      cases later : writes.reverse.find? (·.key = key) with
      | some last => rfl
      | none =>
          by_cases same : kv.key = key
          · subst same
            simp
          · simp [same, Function.update_of_ne (Ne.symm same)]

/-- Deletes of keys leave each deleted key without a record. -/
theorem foldl_deletes (deleted : List Key) (contents : Key → Option Record) (key : Key) :
    (deleted.foldl (fun (contents : Key → Option Record) deletedKey => Function.update contents deletedKey none)
        contents) key =
      if key ∈ deleted then none else contents key := by
  induction deleted generalizing contents with
  | nil => simp
  | cons deletedKey deleted ih =>
      rw [List.foldl_cons, ih]
      by_cases same : key = deletedKey
      · subst same
        simp
      · simp [same]

/-- `ApplyWrites` on a finite map: a deleted key holds nothing, and every other key the record of
its last local write, or what it held. -/
theorem applyWrites_contents (isLocalKey : Key → Bool) (txn : Txn) (contents : Key → Option Record) (key : Key) :
    (ConcurrentHashMap.FiniteMap.run contents (applyWrites isLocalKey txn)).2 key =
      if key ∈ txn.deletedKeys then none
      else (((txn.keys.filter fun kv => isLocalKey kv.key && kv.type != .read).reverse.find? (·.key = key)).map
        fun kv => (⟨kv.newValue, kv.metadata.getD ⟨0, 0⟩⟩ : Record)).or (contents key) := by
  rw [ConcurrentHashMap.FiniteMap.run_snd, applyWrites, List.foldl_append, List.foldl_map, List.foldl_map]
  refine (foldl_deletes _ _ key).trans ?_
  by_cases deleted : key ∈ txn.deletedKeys
  · simp only [deleted, if_true]
  · simp only [deleted, if_false]
    exact foldl_writes _ _ key

/-- On commit `MemOnlyStorage` holds the writes of `ApplyWrites`: after any history of calls on
its map, a deleted key holds nothing, and every other key the record of its last local write or
what it held. -/
theorem applyWrites_memOnlyStorage (hashFn : Key → Nat) (history : List (Call Key Record)) (isLocalKey : Key → Bool)
    (txn : Txn) (key : Key) :
    ConcurrentHashMap.contents hashFn
        ((ConcurrentHashMap.empty.run hashFn history).2.run hashFn (applyWrites isLocalKey txn)).2 key =
      if key ∈ txn.deletedKeys then none
      else (((txn.keys.filter fun kv => isLocalKey kv.key && kv.type != .read).reverse.find? (·.key = key)).map
        fun kv => (⟨kv.newValue, kv.metadata.getD ⟨0, 0⟩⟩ : Record)).or
          (ConcurrentHashMap.contents hashFn (ConcurrentHashMap.empty.run hashFn history).2 key) := by
  obtain ⟨valid, -, -⟩ := (@ConcurrentHashMap.valid_empty Key Record hashFn).run history
  obtain ⟨-, -, contented⟩ := valid.run (applyWrites isLocalKey txn)
  rw [contented, applyWrites_contents]

end Storage

/-- `Execute` runs the procedure language: it returns exactly when no command is faulty. Then
every entry has the new value of the last command that assigns it, the deleted keys stay as they
were, the txn aborts exactly when an `EQ` fails, and only a committed txn writes, through
`ApplyWrites`. -/
theorem execute_runs_commands (isLocalKey : Key → Bool) (txn : Txn) :
    ((∃ result, execute isLocalKey txn = .ok result) ↔ ∀ args ∈ txn.procedures, faulty txn.keys args = false) ∧
      ∀ result, execute isLocalKey txn = .ok result →
        result.1.keys = txn.keys.mapIdx (fun i entry =>
          { entry with newValue := lastAssigned txn.keys txn.procedures i entry.newValue }) ∧
        result.1.deletedKeys = txn.deletedKeys ∧
        (result.1.status = .aborted ↔ ∃ args ∈ txn.procedures, (mismatch txn.keys args).isSome) ∧
        (result.1.status = .aborted ∧ result.2 = [] ∨
          result.1.status = .committed ∧ result.2 = applyWrites isLocalKey result.1) := by
  refine ⟨⟨fun ⟨result, ran⟩ => ((execute_eq_ok_iff isLocalKey txn result).mp ran).1,
    fun runs => ⟨_, (execute_eq_ok_iff isLocalKey txn _).mpr ⟨runs, rfl⟩⟩⟩, fun result ran => ?_⟩
  obtain ⟨-, rfl⟩ := (execute_eq_ok_iff isLocalKey txn result).mp ran
  have keys := @foldl_perform_keys txn.keys txn.procedures ⟨txn, false, ""⟩
  have aborted := @foldl_perform_aborted txn.keys txn.procedures ⟨txn, false, ""⟩
  have kept := congrArg Txn.deletedKeys (@foldl_perform_txn txn.keys txn.procedures ⟨txn, false, ""⟩)
  simp only [Bool.false_or] at aborted kept
  simp only
  split <;> rename_i stopped
  · -- an `EQ` failed
    rw [stopped, eq_comm, List.any_eq_true] at aborted
    exact ⟨keys, kept, iff_of_true rfl (by simpa using aborted), Or.inl ⟨rfl, rfl⟩⟩
  · rw [Bool.not_eq_true, aborted, List.any_eq_false] at stopped
    refine ⟨keys, kept, iff_of_false (by simp) fun ⟨args, member, failed⟩ => ?_, Or.inr ⟨rfl, rfl⟩⟩
    exact stopped args member failed

end Slog.Execution
