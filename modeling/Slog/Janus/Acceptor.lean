/-
The Janus acceptor of one partition's replica (`module/janus/acceptor.cpp`): `ProcessPreAccept`
answers a txn with the latest writer of each of its local keys.
-/

import Mathlib
import Slog.Janus.Quorum

namespace Slog.Janus

inductive Phase where
  | preAccept
  | accept
  deriving DecidableEq, Repr

structure AcceptorTxnInfo where
  txn : Transaction
  phase : Phase
  highestBallot : Nat
  deriving DecidableEq, Repr

/-- The state of an acceptor: `txns_` and `latest_writing_txns_`. -/
structure Acceptor where
  txns : TxnId → Option AcceptorTxnInfo
  latestWritingTxns : Key → Option Dependency

/-- A `JanusPreAccept` response. The target partition of each dependency is the acceptor's own
partition, which the coordinator does not read, and is left out. -/
structure PreAcceptResponse where
  txnId : TxnId
  ok : Bool
  deps : List Dependency
  deriving DecidableEq, Repr

structure AcceptResponse where
  txnId : TxnId
  ok : Bool
  deriving DecidableEq, Repr

/-- The participants bitmap of `ProcessPreAccept`: a bit for each involved partition, each
checked against the number of partitions. -/
def participantsBitmap (numPartitions : Nat) (partitions : List Nat) : Except String Nat :=
  partitions.foldlM (fun bitmap p =>
    if p < numPartitions then (intBit p).map (bitmap ||| ·) else .error "Check failed: p < num_partitions") 0

/-- One pass of the loop over the txn's keys. A local key adds its latest writer to the
dependencies, unless the map holds that txn already (`unordered_map::insert`). A written local
key then gets this txn as its latest writer. -/
def determineDeps (isLocalKey : Key → Bool) (txnId : TxnId) (bitmap : Nat)
    (state : (Key → Option Dependency) × List Dependency) (entry : KeyValueEntry) :
    (Key → Option Dependency) × List Dependency :=
  if isLocalKey entry.key then
    let deps := match state.1 entry.key with
      | some dep => if state.2.any (·.1 == dep.1) then state.2 else state.2 ++ [dep]
      | none => state.2
    let latest :=
      if entry.valueEntry.type = .write then Function.update state.1 entry.key (some (txnId, bitmap)) else state.1
    (latest, deps)
  else state

namespace Acceptor

def init : Acceptor := ⟨fun _ => none, fun _ => none⟩

/-- `ProcessPreAccept` past the ballot check, on the txn's entry as found or as made. -/
def preAcceptWith (acceptor : Acceptor) (numPartitions : Nat) (isLocalKey : Key → Bool) (txn : Transaction)
    (ballot : Nat) (info : AcceptorTxnInfo) : Except String (Acceptor × PreAcceptResponse) := do
  let bitmap ← participantsBitmap numPartitions txn.internal.involvedPartitions
  let (latest, deps) :=
    txn.keys.foldl (determineDeps isLocalKey txn.internal.id bitmap) (acceptor.latestWritingTxns, [])
  pure (⟨Function.update acceptor.txns txn.internal.id (some { info with highestBallot := ballot }), latest⟩,
    ⟨txn.internal.id, true, deps⟩)

def processPreAccept (acceptor : Acceptor) (numPartitions : Nat) (isLocalKey : Key → Bool) (txn : Transaction)
    (ballot : Nat) : Except String (Acceptor × PreAcceptResponse) :=
  match acceptor.txns txn.internal.id with
  | some info =>
      if ballot < info.highestBallot then .ok (acceptor, ⟨txn.internal.id, false, []⟩)
      else acceptor.preAcceptWith numPartitions isLocalKey txn ballot info
  | none => acceptor.preAcceptWith numPartitions isLocalKey txn ballot ⟨txn, .preAccept, 0⟩

def processAccept (acceptor : Acceptor) (txnId : TxnId) (ballot : Nat) : Acceptor × AcceptResponse :=
  match acceptor.txns txnId with
  | some info =>
      if ballot < info.highestBallot then (acceptor, ⟨txnId, false⟩)
      else ({ acceptor with txns := Function.update acceptor.txns txnId (some { info with phase := .accept }) },
        ⟨txnId, true⟩)
  | none => (acceptor, ⟨txnId, false⟩)

/-- `ProcessCommit` hands the stored txn on and forgets it. -/
def processCommit (acceptor : Acceptor) (txnId : TxnId) : Acceptor × Option Transaction :=
  match acceptor.txns txnId with
  | some info => ({ acceptor with txns := Function.update acceptor.txns txnId none }, some info.txn)
  | none => (acceptor, none)

end Acceptor

end Slog.Janus
