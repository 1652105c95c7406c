/-
The Janus scheduler (`module/janus/scheduler.cpp`): the graph of committed txns, the searches from
each one, the dispatch of the components found, and the inquiries.
-/

import Mathlib
import Slog.Library.Folds
import Slog.Janus.Tarjan

namespace Slog.Janus

/-- The state of the scheduler. `txns` holds the ids of `txns_`, the local committed txns not yet
sent to a worker. `pendingTxns` is the `PendingIndex` from a missing txn to the txns that wait
for it. `dispatched` lists the messages sent to the workers, each a txn and its worker, and
`components` the components given to `DispatchSCCs`. -/
structure Scheduler where
  graph : Graph
  txns : List TxnId
  executionHorizon : TxnHorizon
  pendingTxns : TxnId → Option (List TxnId)
  finder : TarjanSCCsFinder
  currentWorker : Nat
  dispatched : List (TxnId × Nat)
  components : List SCC
  inquiries : List (Nat × TxnId)

namespace Scheduler

def init : Scheduler := ⟨⟨[]⟩, [], .empty, fun _ => none, .init, 0, [], [], []⟩

/-- `PendingIndex::Add`: the descendant waits for the ancestor; the flag says whether the
ancestor is new to the index. -/
def addPending (scheduler : Scheduler) (ancestor descendant : TxnId) : Scheduler × Bool :=
  match scheduler.pendingTxns ancestor with
  | some waiting =>
      let waiting := if descendant ∈ waiting then waiting else waiting ++ [descendant]
      ({ scheduler with pendingTxns := Function.update scheduler.pendingTxns ancestor (some waiting) }, false)
  | none => ({ scheduler with pendingTxns := Function.update scheduler.pendingTxns ancestor (some [descendant]) }, true)

/-- One member of a component in `DispatchSCCs`: a remote txn leaves the graph and counts as
executed; a local one goes to the next worker in turn. -/
def dispatchMember (numWorkers : Nat) (scheduler : Scheduler) (member : TxnId × Bool) : Except String Scheduler :=
  if !member.2 then
    .ok { scheduler with
      graph := scheduler.graph.removeVertex member.1
      executionHorizon := scheduler.executionHorizon.add member.1 }
  else if member.1 ∈ scheduler.txns then
    .ok { scheduler with
      txns := scheduler.txns.erase member.1
      currentWorker := (scheduler.currentWorker + 1) % numWorkers
      dispatched := scheduler.dispatched ++ [(member.1, scheduler.currentWorker)] }
  else .error "Could not find transaction"

def dispatchSCCs (numWorkers : Nat) (scheduler : Scheduler) (sccs : List SCC) : Except String Scheduler :=
  sccs.foldlM (fun scheduler scc =>
    scc.foldlM (dispatchMember numWorkers) { scheduler with components := scheduler.components ++ [scc] }) scheduler

/-- The inquiries for a missing dependency: one to the partition that reported it, unless this
partition takes part in the txn and will learn of it itself. -/
def inquire (localPartition : Nat) (scheduler : Scheduler) (v : TxnId) (dep : JanusDependency) :
    Except String Scheduler := do
  let (scheduler, fresh) := scheduler.addPending dep.txnId v
  if fresh then
    let bit ← intBit localPartition
    if dep.participantsBitmap &&& bit = 0 then
      pure { scheduler with inquiries := scheduler.inquiries ++ [(dep.targetPartition, dep.txnId)] }
    else pure scheduler
  else pure scheduler

/-- `FindAndResolveSCCs` from `v`: search, record the missing dependencies of `v` and inquire
about them, send the components found to the workers and push their txns on `ready`. It
returns the txns left unready. -/
def findAndResolveSCCs (numWorkers localPartition : Nat) (scheduler : Scheduler) (v : TxnId) (ready : List TxnId) :
    Except String (Scheduler × List TxnId × List TxnId) := do
  let (graph, finder) := findSCCs scheduler.executionHorizon (scheduler.graph.vertices.length + 1) v
    (scheduler.graph, scheduler.finder)
  let (graph, finder, result) := finalize graph finder
  let graph := graph.modifyVertex v fun vertex => { vertex with missingDeps := result.missingDeps.length }
  let scheduler ← result.missingDeps.foldlM (fun scheduler dep => inquire localPartition scheduler v dep)
    { scheduler with graph := graph, finder := finder }
  let scheduler ← dispatchSCCs numWorkers scheduler result.sccs
  pure (scheduler, (result.sccs.flatten.map Prod.fst).reverse ++ ready, result.unready)

/-- One txn that waited for a txn now ready: it misses one dependency less, and a search starts
from it when it misses none and is not known unready. -/
def retryPending (numWorkers localPartition : Nat) (state : Scheduler × List TxnId × List TxnId) (pendingTxnId : TxnId) :
    Except String (Scheduler × List TxnId × List TxnId) :=
  let (scheduler, ready, unready) := state
  match scheduler.graph.vertex? pendingTxnId with
  | none => .ok state
  | some vertex =>
      if vertex.disc ≠ 0 then .ok state
      else
        let graph := scheduler.graph.modifyVertex pendingTxnId fun vertex => { vertex with missingDeps := vertex.missingDeps - 1 }
        let scheduler := { scheduler with graph }
        if pendingTxnId ∈ unready ∨ vertex.missingDeps - 1 > 0 then .ok (scheduler, ready, unready)
        else do
          let (scheduler, ready, newUnready) ← findAndResolveSCCs numWorkers localPartition scheduler pendingTxnId ready
          pure (scheduler, ready, unready ++ newUnready)

/-- `CheckPendingTxns`: take the ready txns from the back, and retry the txns that waited for
each. Every txn pushed on `ready` was sent to the workers or left the graph, so the graph and
the first ready txns bound the passes; `fuel` is that bound. -/
def checkPendingTxns (numWorkers localPartition : Nat) : Nat → Scheduler → List TxnId → Except String Scheduler
  | 0, scheduler, _ => .ok scheduler
  | _ + 1, scheduler, [] => .ok scheduler
  | fuel + 1, scheduler, txnId :: ready =>
      match scheduler.pendingTxns txnId with
      | none => checkPendingTxns numWorkers localPartition fuel scheduler ready
      | some pending => do
          let scheduler := { scheduler with pendingTxns := Function.update scheduler.pendingTxns txnId none }
          let (scheduler, ready, _) ← pending.foldlM (retryPending numWorkers localPartition) (scheduler, ready, [])
          checkPendingTxns numWorkers localPartition fuel scheduler ready

/-- `CheckPendingTxns` with enough passes. -/
def checkPending (numWorkers localPartition : Nat) (scheduler : Scheduler) (ready : List TxnId) :
    Except String Scheduler :=
  checkPendingTxns numWorkers localPartition (scheduler.graph.vertices.length + ready.length + 1) scheduler ready

/-- `ProcessTransaction`: a committed local txn joins the graph and a search starts from it. -/
def processTransaction (numWorkers localPartition : Nat) (scheduler : Scheduler) (txnId : TxnId)
    (deps : List JanusDependency) : Except String Scheduler := do
  let txns := if txnId ∈ scheduler.txns then scheduler.txns else scheduler.txns ++ [txnId]
  let (graph, inserted) := scheduler.graph.addVertex (.new txnId true deps)
  if !inserted then .error "Check failed: inserted"
  else do
    let (scheduler, ready, _) ← findAndResolveSCCs numWorkers localPartition { scheduler with txns, graph } txnId []
    checkPending numWorkers localPartition scheduler ready

/-- An inquiry result: whether the txn is executed at its partition, and otherwise its
dependencies there. -/
structure InquiryResult where
  txnId : TxnId
  executed : Bool
  deps : List JanusDependency
  deriving DecidableEq, Repr

/-- One result of `OnInternalResponseReceived`: an executed txn joins the horizon and the txns
that waited for it are retried; another joins the graph as a remote txn, unless it is there,
and a search starts from it. -/
def processInquiryResult (numWorkers localPartition : Nat) (scheduler : Scheduler) (result : InquiryResult) :
    Except String Scheduler :=
  if result.executed then
    checkPending numWorkers localPartition
      { scheduler with executionHorizon := scheduler.executionHorizon.add result.txnId } [result.txnId]
  else do
    let (graph, _) := scheduler.graph.addVertex (.new result.txnId false result.deps)
    let (scheduler, ready, _) ← findAndResolveSCCs numWorkers localPartition { scheduler with graph } result.txnId []
    checkPending numWorkers localPartition scheduler ready

/-- `OnCustomSocket` for one message: the worker finished the txn. -/
def workerDone (scheduler : Scheduler) (txnId : TxnId) : Scheduler :=
  { scheduler with executionHorizon := scheduler.executionHorizon.add txnId, graph := scheduler.graph.removeVertex txnId }

inductive Event where
  | commit (txnId : TxnId) (deps : List JanusDependency)
  | inquiryResults (results : List InquiryResult)
  | workerDone (txnId : TxnId)
  deriving DecidableEq, Repr

def handle (numWorkers localPartition : Nat) (scheduler : Scheduler) : Event → Except String Scheduler
  | .commit txnId deps => scheduler.processTransaction numWorkers localPartition txnId deps
  | .inquiryResults results => results.foldlM (processInquiryResult numWorkers localPartition) scheduler
  | .workerDone txnId => .ok (scheduler.workerDone txnId)

def run (numWorkers localPartition : Nat) (scheduler : Scheduler) (events : List Event) : Except String Scheduler :=
  events.foldlM (handle numWorkers localPartition) scheduler

end Scheduler

end Slog.Janus
