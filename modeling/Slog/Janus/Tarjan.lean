/-
Tarjan's search of the Janus scheduler (`module/janus/tarjan.cpp`) over the graph of committed txns
and their dependencies.
-/

import Mathlib
import Slog.Janus.Horizon

namespace Slog.Janus

/-- A `JanusDependency`: a txn, the bitmap of its partitions, and the partition that reported
it. -/
structure JanusDependency where
  txnId : TxnId
  participantsBitmap : Nat
  targetPartition : Nat
  deriving DecidableEq, Repr

structure Vertex where
  txnId : TxnId
  isLocal : Bool
  deps : List JanusDependency
  disc : Nat
  low : Nat
  missingDeps : Int
  onStack : Bool
  deriving DecidableEq, Repr

def Vertex.new (txnId : TxnId) (isLocal : Bool) (deps : List JanusDependency) : Vertex :=
  ⟨txnId, isLocal, deps, 0, 0, 0, false⟩

/-- `Graph`, an `unordered_map` from a txn to its vertex, kept as a list with one vertex per txn. -/
structure Graph where
  vertices : List Vertex
  deriving DecidableEq, Repr

namespace Graph

def vertex? (graph : Graph) (txnId : TxnId) : Option Vertex := graph.vertices.find? (·.txnId == txnId)

def modifyVertex (graph : Graph) (txnId : TxnId) (change : Vertex → Vertex) : Graph :=
  ⟨graph.vertices.map fun vertex => if vertex.txnId = txnId then change vertex else vertex⟩

def removeVertex (graph : Graph) (txnId : TxnId) : Graph := ⟨graph.vertices.filter (·.txnId ≠ txnId)⟩

/-- `graph_.insert`: a vertex for a txn not in the graph is added; the flag says whether it was. -/
def addVertex (graph : Graph) (vertex : Vertex) : Graph × Bool :=
  if (graph.vertex? vertex.txnId).isSome then (graph, false) else (⟨graph.vertices ++ [vertex]⟩, true)

variable {graph : Graph} {txnId : TxnId}

/-- A change that keeps the txn of a vertex changes the vertex of that txn and no other. -/
theorem vertex?_modifyVertex {change : Vertex → Vertex} (keeps : ∀ vertex, (change vertex).txnId = vertex.txnId)
    (other : TxnId) :
    (graph.modifyVertex txnId change).vertex? other =
      if other = txnId then (graph.vertex? other).map change else graph.vertex? other := by
  obtain ⟨vertices⟩ := graph
  simp only [modifyVertex, vertex?]
  induction vertices with
  | nil => split <;> rfl
  | cons vertex rest ih =>
      rw [List.map_cons, List.find?_cons, List.find?_cons, ih]
      by_cases changed : vertex.txnId = txnId <;> by_cases found : vertex.txnId = other
      · subst changed found
        simp [keeps]
      · have apart : ¬ other = txnId := fun same => found (changed.trans same.symm)
        have miss : (vertex.txnId == other) = false := beq_eq_false_iff_ne.mpr found
        simp only [if_pos changed, keeps, miss, if_neg apart]
      · have apart : ¬ other = txnId := fun same => changed (found.trans same)
        simp [found, apart]
      · have miss : (vertex.txnId == other) = false := beq_eq_false_iff_ne.mpr found
        simp only [changed, ↓reduceIte, miss]

/-- `first` depends on `second`: the vertex of `first` lists a dependency on `second`. What a
txn reaches is the transitive closure of this relation. -/
def DependsOn (graph : Graph) (first second : TxnId) : Prop :=
  ∃ vertex, graph.vertex? first = some vertex ∧ ∃ dep ∈ vertex.deps, dep.txnId = second

end Graph

/-- A strongly connected component: its txns, each with whether it is local. -/
abbrev SCC := List (TxnId × Bool)

/-- The state of `TarjanSCCsFinder` between two searches: its stack, top first, the components
found, the missing dependencies by txn, and the discovery counter. -/
structure TarjanSCCsFinder where
  stack : List TxnId
  sccs : List SCC
  missingDeps : List (TxnId × JanusDependency)
  idCounter : Nat
  deriving DecidableEq, Repr

def TarjanSCCsFinder.init : TarjanSCCsFinder := ⟨[], [], [], 0⟩

/-- `missing_deps_.insert`, which keeps the entry already there. -/
def TarjanSCCsFinder.addMissing (finder : TarjanSCCsFinder) (dep : JanusDependency) : TarjanSCCsFinder :=
  if finder.missingDeps.any (·.1 == dep.txnId) then finder
  else { finder with missingDeps := finder.missingDeps ++ [(dep.txnId, dep)] }

structure TarjanResult where
  sccs : List SCC
  missingDeps : List JanusDependency
  unready : List TxnId
  deriving DecidableEq, Repr

/-- `v.low = std::min(v.low, value)`. -/
def lowerLow (graph : Graph) (v : TxnId) (value : Nat) : Graph :=
  graph.modifyVertex v fun vertex => { vertex with low := min vertex.low value }

/-- The loop that pops the members above the root `v` off the stack, taking each off the stack
mark; it returns them, top first, and the stack from `v` down. -/
def popMembers (v : TxnId) : Graph → List TxnId → Graph × SCC × List TxnId
  | graph, [] => (graph, [], [])
  | graph, top :: rest =>
      if top = v then (graph, [], top :: rest)
      else
        let isLocal := ((graph.vertex? top).map (·.isLocal)).getD false
        let (graph, members, below) := popMembers v (graph.modifyVertex top fun member => { member with onStack := false }) rest
        (graph, (top, isLocal) :: members, below)

/-- The component of the root `v`: the members above it and `v` itself, sorted; `v` keeps its
stack mark. -/
def formComponent (graph : Graph) (finder : TarjanSCCsFinder) (v : TxnId) (isLocal : Bool) :
    Graph × TarjanSCCsFinder :=
  let (graph, members, below) := popMembers v graph finder.stack
  let scc := (members ++ [(v, isLocal)]).insertionSort fun first second => first.1 ≤ second.1
  (graph, { finder with stack := below.tail, sccs := finder.sccs ++ [scc] })

/-- `FindSCCs` from `v`. Each call below the first numbers a new vertex, so the vertices of the
graph bound the depth; `fuel` is that bound. -/
def findSCCs (horizon : TxnHorizon) : Nat → TxnId → Graph × TarjanSCCsFinder → Graph × TarjanSCCsFinder
  | 0, _, state => state
  | fuel + 1, v, (graph, finder) =>
      match graph.vertex? v with
      | none => (graph, finder)
      | some vertex =>
          if vertex.disc ≠ 0 ∨ horizon.contains v then (graph, finder)
          else
            let id := finder.idCounter + 1
            let graph := graph.modifyVertex v fun vertex => { vertex with disc := id, low := id, onStack := true }
            let finder := { finder with idCounter := id, stack := v :: finder.stack }
            let (graph, finder) := vertex.deps.foldl (fun (graph, finder) next =>
              if next.txnId = v ∨ horizon.contains next.txnId then (graph, finder)
              else
                match graph.vertex? next.txnId with
                | none => (graph, finder.addMissing next)
                | some nextVertex =>
                    if nextVertex.disc = 0 then
                      let (graph, finder) := findSCCs horizon fuel next.txnId (graph, finder)
                      (lowerLow graph v (((graph.vertex? next.txnId).map (·.low)).getD 0), finder)
                    -- a vertex numbered and off the stack counts as settled
                    else if nextVertex.onStack then (lowerLow graph v nextVertex.disc, finder)
                    else (graph, finder)) (graph, finder)
            if finder.missingDeps ≠ [] then (graph, finder)
            else
              match graph.vertex? v with
              | some root => if root.disc = root.low then formComponent graph finder v root.isLocal else (graph, finder)
              | none => (graph, finder)

/-- `Finalize`: hand over the components and the missing dependencies, clear the discovery
numbers of the vertices left on the stack, which are unready, and reset the counter. -/
def finalize (graph : Graph) (finder : TarjanSCCsFinder) : Graph × TarjanSCCsFinder × TarjanResult :=
  let graph := finder.stack.foldl (fun graph top => graph.modifyVertex top fun vertex => { vertex with disc := 0 }) graph
  (graph, .init, ⟨finder.sccs, finder.missingDeps.map Prod.snd, finder.stack⟩)

/-- Lowering the low link of `v` changes the vertex of `v` and no other. -/
theorem vertex?_lowerLow (graph : Graph) (v : TxnId) (value : Nat) (other : TxnId) :
    (lowerLow graph v value).vertex? other =
      if other = v then (graph.vertex? other).map (fun vertex => { vertex with low := min vertex.low value })
      else graph.vertex? other :=
  Graph.vertex?_modifyVertex (by intro _; rfl) other

theorem popMembers_self (v : TxnId) (graph : Graph) (rest : List TxnId) :
    popMembers v graph (v :: rest) = (graph, [], v :: rest) := by
  simp [popMembers]

/-- A dependency on a txn of this partition, as a local txn's dependencies list it. -/
def dependencyOn (txnId : TxnId) : JanusDependency := ⟨txnId, 1, 0⟩

def rootTxn : TxnId := txnIdOf 0 1

def memberTxn : TxnId := txnIdOf 0 2

def laterTxn : TxnId := txnIdOf 0 3

/-- The later txn depends on the member, which an earlier search numbered and took off the stack. -/
def numberedGraph : Graph :=
  ⟨[.new laterTxn true [dependencyOn memberTxn], ⟨memberTxn, true, [], 1, 1, 0, false⟩]⟩

/-- Three local txns: the root depends on the member and on the later txn, and the later txn
on the member. The root reaches both, and neither reaches the root. -/
def branchGraph : Graph :=
  ⟨[.new rootTxn true [dependencyOn memberTxn, dependencyOn laterTxn], .new memberTxn true [],
    .new laterTxn true [dependencyOn memberTxn]]⟩

/-- One search from the root, with nothing executed. The member is a component of its own
and keeps its stack mark, so the later txn takes the member's number as its low link and is
left below the root on the stack. The root then pops it into its own component, although
the later txn does not reach the root: the second component is not strongly connected. -/
theorem search_joins_unreachable_txn :
    (finalize (findSCCs .empty 4 rootTxn (branchGraph, .init)).1
        (findSCCs .empty 4 rootTxn (branchGraph, .init)).2).2.2 =
      ⟨[[(memberTxn, true)], [(rootTxn, true), (laterTxn, true)]], [], []⟩ ∧
      ¬ Relation.TransGen branchGraph.DependsOn laterTxn rootTxn := by
  refine ⟨by decide, fun reaches => ?_⟩
  have onlyMember : ∀ target, Relation.TransGen branchGraph.DependsOn laterTxn target → target = memberTxn := by
    intro target path
    induction path with
    | single edge =>
        obtain ⟨vertex, found, dep, listed, rfl⟩ := edge
        have later : branchGraph.vertex? laterTxn = some (.new laterTxn true [dependencyOn memberTxn]) := by decide
        rw [later, Option.some.injEq] at found
        subst found
        rw [List.mem_singleton.mp listed]
        rfl
    | tail _ edge reached =>
        obtain ⟨vertex, found, dep, listed, -⟩ := edge
        have member : branchGraph.vertex? memberTxn = some (.new memberTxn true []) := by decide
        rw [reached, member, Option.some.injEq] at found
        subst found
        cases listed
  exact absurd (onlyMember rootTxn reaches) (by decide)

end Slog.Janus
