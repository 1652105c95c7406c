/-
`SimulatedMultiPaxos` (`paxos/`): a leader and an acceptor on every member, as a network whose
messages in flight may be delivered in any order.
-/

import Mathlib.Logic.Function.Basic
import Slog.Library.Folds

namespace Slog.Paxos

abbrev MachineId := Nat

def kPaxosDefaultLeaderPosition : Nat := 0

/-- `Members`: the acceptors, whose first is the leader, and the learners. -/
structure Members where
  acceptors : List MachineId
  learners : List MachineId
  deriving DecidableEq, Repr

/-- The Paxos requests of `internal.proto`. -/
inductive Request where
  | propose (value : Nat)
  | accept (ballot slot value : Nat)
  | commit (slot value leader : Nat)
  deriving DecidableEq, Repr

/-- `PaxosAcceptResponse`. -/
structure AcceptResponse where
  ballot : Nat
  slot : Nat
  deriving DecidableEq, Repr

/-- The Paxos responses: a `Response` holds one case of its oneof. -/
inductive Response where
  | accept (response : AcceptResponse)
  | commit (slot : Nat)
  deriving DecidableEq, Repr

/-- `response().paxos_accept()`: protobuf's accessor gives the default message when the oneof
holds another case. -/
def Response.paxosAccept : Response → AcceptResponse
  | .accept response => response
  | .commit _ => ⟨0, 0⟩

inductive Body where
  | request (request : Request)
  | response (response : Response)
  deriving DecidableEq, Repr

/-- An envelope in flight, with the machine that sent it (`from`) and the one it goes to. -/
structure Envelope where
  sender : MachineId
  receiver : MachineId
  body : Body
  deriving DecidableEq, Repr

/-- One `OnCommit(slot, value, leader)` call. -/
structure Commit where
  slot : Nat
  value : Nat
  leader : MachineId
  deriving DecidableEq, Repr

structure PaxosInstance where
  ballot : Nat
  value : Nat
  numAccepts : Nat
  numCommits : Nat
  deriving DecidableEq, Repr

structure Leader where
  members : Members
  me : MachineId
  isElected : Bool
  electedLeader : MachineId
  nextEmptySlot : Nat
  ballot : Nat
  instances : Nat → Option PaxosInstance

namespace Leader

/-- The constructor. A machine that is no acceptor leaves `ballot_` unset; it never starts an
instance, so the value taken here is never read. -/
def new (members : Members) (me : MachineId) : Leader :=
  let electedLeader := (members.acceptors[kPaxosDefaultLeaderPosition]?).getD 0
  match members.acceptors.idxOf? me with
  | some position => ⟨members, me, position == kPaxosDefaultLeaderPosition, electedLeader, 0, position, fun _ => none⟩
  | none => ⟨members, me, false, electedLeader, 0, 0, fun _ => none⟩

/-- `StartNewInstance`: `try_emplace` at the next empty slot, and an accept request to every
acceptor. -/
def startNewInstance (leader : Leader) (value : Nat) : Leader × List Envelope :=
  let slot := leader.nextEmptySlot
  let instances := if (leader.instances slot).isSome then leader.instances
    else Function.update leader.instances slot (some ⟨leader.ballot, value, 0, 0⟩)
  ({ leader with instances := instances, nextEmptySlot := slot + 1 },
    leader.members.acceptors.map fun acceptor =>
      ⟨leader.me, acceptor, .request (.accept leader.ballot slot value)⟩)

/-- `ProcessCommitRequest`: report the commit, and move the next empty slot past it. -/
def processCommitRequest (leader : Leader) (slot value committer : Nat) : Leader × List Commit :=
  ({ leader with nextEmptySlot := if slot ≥ leader.nextEmptySlot then slot + 1 else leader.nextEmptySlot },
    [⟨slot, value, committer⟩])

/-- `HandleRequest`: the elected leader starts an instance for a proposal, any other member
forwards it to the elected leader. -/
def handleRequest (leader : Leader) : Request → Leader × List Envelope × List Commit
  | .propose value =>
      if leader.isElected then
        let (leader, sent) := leader.startNewInstance value
        (leader, sent, [])
      else (leader, [⟨leader.me, leader.electedLeader, .request (.propose value)⟩], [])
  | .commit slot value committer =>
      let (leader, commits) := leader.processCommitRequest slot value committer
      (leader, [], commits)
  | .accept .. => (leader, [], [])

/-- `HandleResponse`. An accept response counts toward its slot's majority, which sends the
commit to the learners exactly when it is reached. A commit response reads its slot through
`paxos_accept()`, as the source does, and counts toward the instance erased after one commit
response per acceptor. -/
def handleResponse (leader : Leader) (response : Response) : Leader × List Envelope :=
  match response with
  | .accept _ =>
      let slot := response.paxosAccept.slot
      match leader.instances slot with
      | none => (leader, [])
      | some current =>
          let current := { current with numAccepts := current.numAccepts + 1 }
          let counted := { leader with instances := Function.update leader.instances slot (some current) }
          if current.numAccepts = leader.members.acceptors.length / 2 + 1 then
            (counted, leader.members.learners.map fun learner =>
              ⟨leader.me, learner, .request (.commit slot current.value leader.me)⟩)
          else (counted, [])
  | .commit _ =>
      let slot := response.paxosAccept.slot
      match leader.instances slot with
      | none => (leader, [])
      | some current =>
          let current := { current with numCommits := current.numCommits + 1 }
          if current.numCommits = leader.members.acceptors.length then
            ({ leader with instances := Function.update leader.instances slot none }, [])
          else ({ leader with instances := Function.update leader.instances slot (some current) }, [])

end Leader

structure Acceptor where
  ballot : Nat

namespace Acceptor

/-- `HandleRequest`: accept a request of a ballot at least its own, and answer every commit. -/
def handleRequest (acceptor : Acceptor) (me sender : MachineId) : Request → Acceptor × List Envelope
  | .accept ballot slot _ =>
      if ballot < acceptor.ballot then (acceptor, [])
      else (⟨ballot⟩, [⟨me, sender, .response (.accept ⟨ballot, slot⟩)⟩])
  | .commit slot _ _ => (acceptor, [⟨me, sender, .response (.commit slot)⟩])
  | .propose _ => (acceptor, [])

end Acceptor

/-- The Paxos module of one machine. -/
structure Node where
  leader : Leader
  acceptor : Acceptor

/-- `OnInternalRequestReceived` (leader, then acceptor) and `OnInternalResponseReceived`. -/
def Node.receive (node : Node) (me : MachineId) (envelope : Envelope) : Node × List Envelope × List Commit :=
  match envelope.body with
  | .request request =>
      let (leader, sentByLeader, commits) := node.leader.handleRequest request
      let (acceptor, sentByAcceptor) := node.acceptor.handleRequest me envelope.sender request
      (⟨leader, acceptor⟩, sentByLeader ++ sentByAcceptor, commits)
  | .response response =>
      let (leader, sent) := node.leader.handleResponse response
      (⟨leader, node.acceptor⟩, sent, [])

/-- The members' nodes, the envelopes in flight, and the `OnCommit` calls made so far, each
with the machine that made it, in the order they were made. -/
structure Network where
  nodes : MachineId → Node
  inFlight : List Envelope
  commits : List (MachineId × Commit)

inductive Action where
  /-- The user on a machine proposes a value to its Paxos module. -/
  | propose (member value : Nat)
  /-- The envelope at this index of those in flight arrives. -/
  | deliver (index : Nat)
  deriving DecidableEq, Repr

namespace Network

def init (members : Members) : Network :=
  ⟨fun me => ⟨Leader.new members me, ⟨0⟩⟩, [], []⟩

def step (network : Network) : Action → Option Network
  | .propose member value =>
      some { network with inFlight := network.inFlight ++ [⟨member, member, .request (.propose value)⟩] }
  | .deliver index =>
      match network.inFlight[index]? with
      | none => none
      | some envelope =>
          let (node, sent, commits) := (network.nodes envelope.receiver).receive envelope.receiver envelope
          some ⟨Function.update network.nodes envelope.receiver node, network.inFlight.eraseIdx index ++ sent,
            network.commits ++ commits.map (envelope.receiver, ·)⟩

def run (network : Network) (actions : List Action) : Option Network :=
  actions.foldlM step network

/-- The envelopes a run delivers, in the order they arrive; none when an action cannot be
taken. -/
def deliveries (network : Network) : List Action → Option (List Envelope)
  | [] => some []
  | action :: actions =>
      match network.step action with
      | none => none
      | some next =>
          let arrived := match action with
            | .deliver index => network.inFlight[index]?.toList
            | .propose _ _ => []
          (next.deliveries actions).map (arrived ++ ·)

end Network

namespace Leader

variable {slot : Nat}

theorem isElected_handleRequest (leader : Leader) (request : Request) :
    (leader.handleRequest request).1.isElected = leader.isElected := by
  cases request with
  | propose value =>
      by_cases elected : leader.isElected
      · simp [handleRequest, elected, startNewInstance]
      · simp [handleRequest, elected]
  | accept => rfl
  | commit => rfl

/-- Only the first acceptor is elected. -/
theorem isElected_new {members : Members} {me : MachineId} (elected : (Leader.new members me).isElected = true) :
    members.acceptors[kPaxosDefaultLeaderPosition]? = some me := by
  simp only [new] at elected
  split at elected
  · next position found =>
      have first : position = kPaxosDefaultLeaderPosition := by simpa using elected
      obtain ⟨within, atPosition, -⟩ := List.idxOf?_eq_some_iff.mp found
      rw [← first, List.getElem?_eq_getElem within, atPosition]
  · cases elected

/-- A leader's requests never ask for a commit: it forwards proposals and asks for accepts. -/
theorem handleRequest_sent (leader : Leader) (request : Request) :
    ∀ envelope ∈ (leader.handleRequest request).2.1, ∀ other value committer,
      envelope.body ≠ .request (.commit other value committer) := by
  cases request with
  | propose value =>
      by_cases elected : leader.isElected
      · simp [handleRequest, elected, startNewInstance]
      · simp [handleRequest, elected]
  | accept => simp [handleRequest]
  | commit => simp [handleRequest, processCommitRequest]

/-- A leader reports a commit only for a commit request, as the request names it. -/
theorem handleRequest_commits (leader : Leader) (request : Request) :
    ∀ commit ∈ (leader.handleRequest request).2.2, request = .commit commit.slot commit.value commit.leader := by
  cases request with
  | propose value =>
      by_cases elected : leader.isElected
      · simp [handleRequest, elected]
      · simp [handleRequest, elected]
  | accept => simp [handleRequest]
  | commit slot value committer => simp [handleRequest, processCommitRequest]

/-- A request leaves a slot without an instance when the elected leader is past it, and keeps
the elected leader past it. -/
theorem handleRequest_instances (leader : Leader) (request : Request) (lost : leader.instances slot = none)
    (passed : leader.isElected → slot < leader.nextEmptySlot) :
    (leader.handleRequest request).1.instances slot = none ∧
      ((leader.handleRequest request).1.isElected → slot < (leader.handleRequest request).1.nextEmptySlot) := by
  cases request with
  | propose value =>
      by_cases elected : leader.isElected
      · have below := passed elected
        have apart : slot ≠ leader.nextEmptySlot := Nat.ne_of_lt below
        refine ⟨?_, fun _ => ?_⟩
        · by_cases taken : (leader.instances leader.nextEmptySlot).isSome
          · simp [handleRequest, elected, startNewInstance, taken, lost]
          · simp [handleRequest, elected, startNewInstance, taken, Function.update_of_ne apart, lost]
        · simp only [handleRequest, elected, if_true, startNewInstance]
          omega
      · simp [handleRequest, elected, lost]
  | accept => exact ⟨lost, passed⟩
  | commit other value committer =>
      refine ⟨lost, fun elected => ?_⟩
      have below := passed elected
      show slot < if other ≥ leader.nextEmptySlot then other + 1 else leader.nextEmptySlot
      split_ifs <;> omega

/-- What a request does to the instances: nothing, or the elected leader's new instance of a
proposal at its next empty slot, which it then moves past. -/
theorem handleRequest_instances_cases (leader : Leader) (request : Request) :
    (leader.handleRequest request).1.instances = leader.instances ∨
      ∃ value, request = .propose value ∧ leader.isElected ∧ leader.instances leader.nextEmptySlot = none ∧
        (leader.handleRequest request).1.instances =
          Function.update leader.instances leader.nextEmptySlot (some ⟨leader.ballot, value, 0, 0⟩) ∧
        (leader.handleRequest request).1.nextEmptySlot = leader.nextEmptySlot + 1 := by
  cases request with
  | propose value =>
      by_cases elected : leader.isElected
      · by_cases taken : (leader.instances leader.nextEmptySlot).isSome
        · left
          simp [handleRequest, elected, startNewInstance, taken]
        · right
          exact ⟨value, rfl, elected, by simpa using taken, by simp [handleRequest, elected, startNewInstance, taken],
            by simp [handleRequest, elected, startNewInstance]⟩
      · left
        simp [handleRequest, elected]
  | accept => exact Or.inl rfl
  | commit => exact Or.inl rfl

theorem nextEmptySlot_le_handleRequest (leader : Leader) (request : Request) :
    leader.nextEmptySlot ≤ (leader.handleRequest request).1.nextEmptySlot := by
  cases request with
  | propose value =>
      by_cases elected : leader.isElected
      · simp [handleRequest, elected, startNewInstance]
      · simp [handleRequest, elected]
  | accept => exact Nat.le_refl _
  | commit other value committer =>
      show leader.nextEmptySlot ≤ if other ≥ leader.nextEmptySlot then other + 1 else leader.nextEmptySlot
      split_ifs <;> omega

/-- A member that is not the elected leader never starts an instance. -/
theorem handleRequest_idle (leader : Leader) (request : Request) (idle : leader.isElected = false) :
    (leader.handleRequest request).1.instances = leader.instances := by
  cases request with
  | propose value => simp [handleRequest, idle]
  | accept => rfl
  | commit => rfl

/-- Handling a response changes only the instances. -/
theorem handleResponse_frame (leader : Leader) (response : Response) :
    ∃ instances, (leader.handleResponse response).1 = { leader with instances := instances } := by
  unfold handleResponse
  dsimp only
  split
  all_goals
    split
    · exact ⟨leader.instances, rfl⟩
    · split
      all_goals exact ⟨_, rfl⟩

/-- A response never brings back an instance that is gone. -/
theorem handleResponse_instances (leader : Leader) (response : Response) (lost : leader.instances slot = none) :
    (leader.handleResponse response).1.instances slot = none := by
  unfold handleResponse
  dsimp only
  split
  all_goals
    split
    · exact lost
    · next current found =>
        have apart : ∀ read, leader.instances read = some current → slot ≠ read := fun read present same => by
          rw [← same, lost] at present
          cases present
        split
        all_goals simp [Function.update_of_ne (apart _ found), lost]

/-- A response asks the learners to commit only a slot whose instance the leader holds, with
that instance's value. -/
theorem handleResponse_sent (leader : Leader) (response : Response) :
    ∀ envelope ∈ (leader.handleResponse response).2, ∀ other value committer,
      envelope.body = .request (.commit other value committer) →
        ∃ current, leader.instances other = some current ∧ value = current.value := by
  unfold handleResponse
  dsimp only
  split
  all_goals
    split
    · simp
    · next current found =>
        split
        all_goals
          simp only [List.mem_map, List.not_mem_nil, false_implies, implies_true]
        try
          rintro envelope ⟨learner, -, rfl⟩ other value committer sent
          simp only [Body.request.injEq, Request.commit.injEq] at sent
          rw [← sent.1]
          exact ⟨current, found, sent.2.1.symm⟩

/-- Replacing an instance by one of the same value, or by none, keeps every instance's value. -/
theorem update_value {instances : Nat → Option PaxosInstance} {read slot : Nat} {current kept : PaxosInstance}
    {replacement : Option PaxosInstance} (found : instances read = some current)
    (same : ∀ other ∈ replacement, other.value = current.value) :
    Function.update instances read replacement slot = some kept →
      ∃ older, instances slot = some older ∧ kept.value = older.value := by
  intro present
  by_cases here : slot = read
  · subst here
    rw [Function.update_self] at present
    exact ⟨current, found, same kept present⟩
  · rw [Function.update_of_ne here] at present
    exact ⟨kept, present, rfl⟩

/-- A response keeps the value of every instance it leaves. -/
theorem handleResponse_value (leader : Leader) (response : Response) {slot : Nat} {kept : PaxosInstance}
    (present : (leader.handleResponse response).1.instances slot = some kept) :
    ∃ current, leader.instances slot = some current ∧ kept.value = current.value := by
  revert present
  unfold handleResponse
  dsimp only
  split
  all_goals
    split
    · exact fun present => ⟨kept, present, rfl⟩
    · next current found =>
        split
        all_goals exact update_value found (by simp)

/-- A response keeps the instance of every slot other than zero, with its commit count: a commit
response reads its slot through `paxos_accept()`, which gives zero. -/
theorem handleResponse_keeps (leader : Leader) (response : Response) (nonzero : slot ≠ 0) {current : PaxosInstance}
    (held : leader.instances slot = some current) :
    ∃ later, (leader.handleResponse response).1.instances slot = some later ∧ later.numCommits = current.numCommits := by
  cases response with
  | accept answer =>
      simp only [handleResponse, Response.paxosAccept]
      split
      · exact ⟨current, held, rfl⟩
      · next counted found =>
          by_cases here : slot = answer.slot
          · subst here
            rw [held, Option.some.injEq] at found
            subst found
            split <;> exact ⟨{ current with numAccepts := current.numAccepts + 1 }, by simp, rfl⟩
          · split <;> exact ⟨current, by simp [Function.update_of_ne here, held], rfl⟩
  | commit answered =>
      simp only [handleResponse, Response.paxosAccept]
      split
      · exact ⟨current, held, rfl⟩
      · split <;> exact ⟨current, by simp [Function.update_of_ne nonzero, held], rfl⟩

/-- A request keeps every instance: a proposal fills only an empty slot. -/
theorem handleRequest_keeps (leader : Leader) (request : Request) {current : PaxosInstance}
    (held : leader.instances slot = some current) :
    (leader.handleRequest request).1.instances slot = some current := by
  rcases leader.handleRequest_instances_cases request with same | ⟨value, -, -, empty, created, -⟩
  · rw [same, held]
  · have apart : slot ≠ leader.nextEmptySlot := fun same => by
      rw [same, empty] at held
      cases held
    rw [created, Function.update_of_ne apart, held]

end Leader

/-- An acceptor only ever answers. -/
theorem Acceptor.handleRequest_sent (acceptor : Acceptor) (me sender : MachineId) (request : Request) :
    ∀ envelope ∈ (acceptor.handleRequest me sender request).2, ∃ response, envelope.body = .response response := by
  cases request with
  | propose value => simp [Acceptor.handleRequest]
  | accept ballot slot value =>
      by_cases stale : ballot < acceptor.ballot
      · simp [Acceptor.handleRequest, stale]
      · simp [Acceptor.handleRequest, stale]
  | commit slot value committer => simp [Acceptor.handleRequest]

namespace Node

variable {node : Node} {me : MachineId} {envelope : Envelope} {slot : Nat}

theorem receive_request {request : Request} (body : envelope.body = .request request) :
    node.receive me envelope =
      (⟨(node.leader.handleRequest request).1, (node.acceptor.handleRequest me envelope.sender request).1⟩,
        (node.leader.handleRequest request).2.1 ++ (node.acceptor.handleRequest me envelope.sender request).2,
        (node.leader.handleRequest request).2.2) := by
  simp only [receive, body]

theorem receive_response {response : Response} (body : envelope.body = .response response) :
    node.receive me envelope =
      (⟨(node.leader.handleResponse response).1, node.acceptor⟩, (node.leader.handleResponse response).2, []) := by
  simp only [receive, body]

theorem isElected_receive : (node.receive me envelope).1.leader.isElected = node.leader.isElected := by
  cases body : envelope.body with
  | request request =>
      rw [receive_request body]
      exact node.leader.isElected_handleRequest request
  | response response =>
      obtain ⟨instances, frame⟩ := node.leader.handleResponse_frame response
      rw [receive_response body]
      simp only [frame]

/-- A machine asks for a commit only of a slot whose instance it holds, with its value. -/
theorem receive_sent :
    ∀ sent ∈ (node.receive me envelope).2.1, ∀ other value committer,
      sent.body = .request (.commit other value committer) →
        ∃ current, node.leader.instances other = some current ∧ value = current.value := by
  intro sent member other value committer asks
  cases body : envelope.body with
  | request request =>
      rw [receive_request body] at member
      rcases List.mem_append.mp member with byLeader | byAcceptor
      · exact absurd asks (node.leader.handleRequest_sent request sent byLeader other value committer)
      · obtain ⟨response, answer⟩ := Acceptor.handleRequest_sent _ _ _ request sent byAcceptor
        rw [answer] at asks
        cases asks
  | response response =>
      rw [receive_response body] at member
      exact node.leader.handleResponse_sent response sent member other value committer asks

/-- A machine reports a commit only on a commit request, as the request names it. -/
theorem receive_commits :
    ∀ commit ∈ (node.receive me envelope).2.2,
      envelope.body = .request (.commit commit.slot commit.value commit.leader) := by
  intro commit member
  cases body : envelope.body with
  | request request =>
      rw [receive_request body] at member
      rw [node.leader.handleRequest_commits request commit member]
  | response response =>
      rw [receive_response body] at member
      cases member

theorem receive_instances (lost : node.leader.instances slot = none)
    (passed : node.leader.isElected → slot < node.leader.nextEmptySlot) :
    (node.receive me envelope).1.leader.instances slot = none ∧
      ((node.receive me envelope).1.leader.isElected → slot < (node.receive me envelope).1.leader.nextEmptySlot) := by
  cases body : envelope.body with
  | request request =>
      rw [receive_request body]
      exact node.leader.handleRequest_instances request lost passed
  | response response =>
      obtain ⟨instances, frame⟩ := node.leader.handleResponse_frame response
      have kept := node.leader.handleResponse_instances response lost
      rw [receive_response body]
      rw [frame] at kept ⊢
      exact ⟨kept, passed⟩

/-- What a delivery does to a machine's instances: it keeps the value of every instance it
leaves and never moves the next empty slot back, or it is the elected leader's new instance of a
proposal at its next empty slot. -/
theorem receive_instances_cases :
    ((∀ slot kept, (node.receive me envelope).1.leader.instances slot = some kept →
        ∃ current, node.leader.instances slot = some current ∧ kept.value = current.value) ∧
      node.leader.nextEmptySlot ≤ (node.receive me envelope).1.leader.nextEmptySlot) ∨
    ∃ value, envelope.body = .request (.propose value) ∧ node.leader.isElected ∧
      node.leader.instances node.leader.nextEmptySlot = none ∧
      (node.receive me envelope).1.leader.instances =
        Function.update node.leader.instances node.leader.nextEmptySlot (some ⟨node.leader.ballot, value, 0, 0⟩) ∧
      (node.receive me envelope).1.leader.nextEmptySlot = node.leader.nextEmptySlot + 1 := by
  cases body : envelope.body with
  | request request =>
      rw [receive_request body]
      rcases node.leader.handleRequest_instances_cases request with same | ⟨value, rfl, elected, empty, created, moved⟩
      · refine Or.inl ⟨fun slot kept present => ⟨kept, ?_, rfl⟩, node.leader.nextEmptySlot_le_handleRequest request⟩
        rw [← same]
        exact present
      · exact Or.inr ⟨value, rfl, elected, empty, created, moved⟩
  | response response =>
      obtain ⟨instances, frame⟩ := node.leader.handleResponse_frame response
      rw [receive_response body]
      have same : (node.leader.handleResponse response).1.nextEmptySlot = node.leader.nextEmptySlot := by
        rw [frame]
      exact Or.inl ⟨fun slot kept present => node.leader.handleResponse_value response present, Nat.le_of_eq same.symm⟩

/-- A machine that is not the elected leader holds no instance. -/
theorem receive_idle (idle : node.leader.isElected = false) (empty : ∀ slot, node.leader.instances slot = none) :
    ∀ slot, (node.receive me envelope).1.leader.instances slot = none := by
  intro slot
  cases body : envelope.body with
  | request request =>
      rw [receive_request body]
      simp only [node.leader.handleRequest_idle request idle, empty]
  | response response =>
      rw [receive_response body]
      exact node.leader.handleResponse_instances response (empty slot)

theorem receive_keeps (nonzero : slot ≠ 0) {current : PaxosInstance} (held : node.leader.instances slot = some current) :
    ∃ later, (node.receive me envelope).1.leader.instances slot = some later ∧ later.numCommits = current.numCommits := by
  cases body : envelope.body with
  | request request =>
      rw [receive_request body]
      exact ⟨current, node.leader.handleRequest_keeps request held, rfl⟩
  | response response =>
      rw [receive_response body]
      exact node.leader.handleResponse_keeps response nonzero held

end Node

namespace Network

variable {network network' : Network} {action : Action}

/-- What a delivery does: the envelope at the index arrives at its receiver, which replaces its
node and adds what it sends to the envelopes in flight and what it commits to the commits. -/
theorem step_deliver {index : Nat} (stepped : network.step (.deliver index) = some network') :
    ∃ envelope, network.inFlight[index]? = some envelope ∧
      network' = ⟨Function.update network.nodes envelope.receiver
          ((network.nodes envelope.receiver).receive envelope.receiver envelope).1,
        network.inFlight.eraseIdx index ++ ((network.nodes envelope.receiver).receive envelope.receiver envelope).2.1,
        network.commits ++ ((network.nodes envelope.receiver).receive envelope.receiver envelope).2.2.map
          (envelope.receiver, ·)⟩ := by
  simp only [step] at stepped
  split at stepped
  · cases stepped
  · next envelope found => exact ⟨envelope, found, by rw [← Option.some.inj stepped]⟩

theorem step_propose {member value : Nat} (stepped : network.step (.propose member value) = some network') :
    network' = { network with inFlight := network.inFlight ++ [⟨member, member, .request (.propose value)⟩] } :=
  (Option.some.inj stepped).symm

/-- No machine is ever elected or unelected. -/
theorem isElected_step (stepped : network.step action = some network') (machine : MachineId) :
    (network'.nodes machine).leader.isElected = (network.nodes machine).leader.isElected := by
  cases action with
  | propose member value => rw [step_propose stepped]
  | deliver index =>
      obtain ⟨envelope, -, rfl⟩ := step_deliver stepped
      by_cases arrived : machine = envelope.receiver
      · subst arrived
        simp only [Function.update_self]
        exact Node.isElected_receive
      · simp only [Function.update_of_ne arrived]

theorem isElected_run {actions : List Action} (ran : network.run actions = some network') (machine : MachineId) :
    (network'.nodes machine).leader.isElected = (network.nodes machine).leader.isElected :=
  Folds.foldlM_option_invariant (fun state => (state.nodes machine).leader.isElected = (network.nodes machine).leader.isElected)
    (fun _ _ _ _ same stepped => (isElected_step stepped machine).trans same) network network' rfl ran

/-- Only the elected leader ever holds an instance. -/
def Steady (network : Network) : Prop :=
  ∀ machine, (network.nodes machine).leader.isElected = false → ∀ slot, (network.nodes machine).leader.instances slot = none

theorem steady_init (members : Members) : (init members).Steady := by
  intro machine _ slot
  simp only [init, Leader.new]
  split <;> rfl

theorem Steady.step (steady : network.Steady) (stepped : network.step action = some network') : network'.Steady := by
  intro machine idle
  rw [isElected_step stepped machine] at idle
  cases action with
  | propose member value =>
      rw [step_propose stepped]
      exact steady machine idle
  | deliver index =>
      obtain ⟨envelope, -, rfl⟩ := step_deliver stepped
      by_cases arrived : machine = envelope.receiver
      · subst arrived
        simp only [Function.update_self]
        exact Node.receive_idle idle (steady _ idle)
      · simp only [Function.update_of_ne arrived]
        exact steady machine idle

theorem Steady.run (steady : network.Steady) {actions : List Action} (ran : network.run actions = some network') :
    network'.Steady :=
  Folds.foldlM_option_invariant Steady (fun _ _ _ _ holds stepped => holds.step stepped) network network' steady ran

/-- A machine holds an instance at the slot, with this many commits counted. -/
def Keeps (network : Network) (machine slot commits : Nat) : Prop :=
  ∃ current, (network.nodes machine).leader.instances slot = some current ∧ current.numCommits = commits

/-- An instance at a slot other than zero stays, with its commit count, whatever arrives. -/
theorem Keeps.step {machine slot commits : Nat} (keeps : network.Keeps machine slot commits) (nonzero : slot ≠ 0)
    (stepped : network.step action = some network') : network'.Keeps machine slot commits := by
  obtain ⟨current, held, counted⟩ := keeps
  cases action with
  | propose member value =>
      rw [step_propose stepped]
      exact ⟨current, held, counted⟩
  | deliver index =>
      obtain ⟨envelope, -, rfl⟩ := step_deliver stepped
      by_cases here : machine = envelope.receiver
      · subst here
        obtain ⟨later, kept, same⟩ :=
          @Node.receive_keeps (network.nodes envelope.receiver) envelope.receiver envelope slot nonzero current held
        exact ⟨later, by simpa only [Function.update_self] using kept, same.trans counted⟩
      · exact ⟨current, by simpa only [Function.update_of_ne here] using held, counted⟩

theorem Keeps.run {machine slot commits : Nat} (keeps : network.Keeps machine slot commits) (nonzero : slot ≠ 0)
    {actions : List Action} (ran : network.run actions = some network') : network'.Keeps machine slot commits :=
  Folds.foldlM_option_invariant (Keeps · machine slot commits) (fun _ _ _ _ holds stepped => holds.step nonzero stepped)
    network network' keeps ran

/-- A slot that no machine has committed and none ever will: no node holds its instance, the
elected leader is past it, and no commit request for it is in flight. -/
structure SlotLost (network : Network) (slot : Nat) : Prop where
  instances : ∀ machine, (network.nodes machine).leader.instances slot = none
  passed : ∀ machine, (network.nodes machine).leader.isElected → slot < (network.nodes machine).leader.nextEmptySlot
  pending : ∀ envelope ∈ network.inFlight, ∀ value committer, envelope.body ≠ .request (.commit slot value committer)
  uncommitted : ∀ entry ∈ network.commits, entry.2.slot ≠ slot

variable {slot : Nat}

theorem SlotLost.step (lost : network.SlotLost slot) (stepped : network.step action = some network') :
    network'.SlotLost slot := by
  cases action with
  | propose member value =>
      rw [step_propose stepped]
      refine ⟨lost.instances, lost.passed, fun envelope member value' committer => ?_, lost.uncommitted⟩
      rcases List.mem_append.mp member with old | fresh
      · exact lost.pending envelope old value' committer
      · simp at fresh
        simp [fresh]
  | deliver index =>
      obtain ⟨envelope, found, rfl⟩ := step_deliver stepped
      have arrived : envelope ∈ network.inFlight := List.mem_of_getElem? found
      have received := @Node.receive_instances (network.nodes envelope.receiver) envelope.receiver envelope slot
        (lost.instances envelope.receiver) (lost.passed envelope.receiver)
      refine ⟨fun machine => ?_, fun machine => ?_, fun sent member value committer => ?_, fun entry member => ?_⟩
      · by_cases here : machine = envelope.receiver
        · subst here
          simpa only [Function.update_self] using received.1
        · simpa only [Function.update_of_ne here] using lost.instances machine
      · by_cases here : machine = envelope.receiver
        · subst here
          simpa only [Function.update_self] using received.2
        · simpa only [Function.update_of_ne here] using lost.passed machine
      · rcases List.mem_append.mp member with old | fresh
        · exact lost.pending sent (List.mem_of_mem_eraseIdx old) value committer
        · intro asks
          obtain ⟨current, held, -⟩ := Node.receive_sent sent fresh slot value committer asks
          rw [lost.instances envelope.receiver] at held
          cases held
      · rcases List.mem_append.mp member with old | fresh
        · exact lost.uncommitted entry old
        · obtain ⟨commit, reported, rfl⟩ := List.mem_map.mp fresh
          intro same
          exact lost.pending envelope arrived commit.value commit.leader (same ▸ Node.receive_commits commit reported)

theorem SlotLost.run (lost : network.SlotLost slot) {actions : List Action} (ran : network.run actions = some network') :
    network'.SlotLost slot :=
  Folds.foldlM_option_invariant (SlotLost · slot) (fun _ _ _ _ holds stepped => holds.step stepped)
    network network' lost ran

/-- One value for each slot that every mention of the slot carries: an instance of it at any
machine, a commit request for it in flight, and a commit of it made. Nothing mentions a slot
at or past the elected leader's next empty slot yet. -/
structure Agreed (network : Network) (value : Nat → Nat) : Prop where
  instances : ∀ machine slot current, (network.nodes machine).leader.instances slot = some current →
    current.value = value slot
  pending : ∀ envelope ∈ network.inFlight, ∀ slot value' committer,
    envelope.body = .request (.commit slot value' committer) → value' = value slot
  committed : ∀ entry ∈ network.commits, entry.2.value = value entry.2.slot
  fresh : ∀ machine, (network.nodes machine).leader.isElected → ∀ slot, (network.nodes machine).leader.nextEmptySlot ≤ slot →
    (network.nodes machine).leader.instances slot = none ∧
      (∀ envelope ∈ network.inFlight, ∀ value' committer, envelope.body ≠ .request (.commit slot value' committer)) ∧
      ∀ entry ∈ network.commits, entry.2.slot ≠ slot

/-- The invariant behind agreement: only the elected leader holds instances, no two machines are
elected, and the slots agree on their values. -/
structure Consistent (network : Network) : Prop where
  steady : network.Steady
  unique : ∀ first second, (network.nodes first).leader.isElected → (network.nodes second).leader.isElected →
    first = second
  agreed : ∃ value, network.Agreed value

theorem consistent_init (members : Members) : (init members).Consistent where
  steady := steady_init members
  unique first second electedFirst electedSecond := by
    have same := (Leader.isElected_new electedFirst).symm.trans (Leader.isElected_new electedSecond)
    exact Option.some.inj same
  agreed := ⟨fun _ => 0,
    { instances := fun machine slot current present => by
        simp only [init, Leader.new] at present
        split at present <;> cases present
      pending := fun _ member => by cases member
      committed := fun _ member => by cases member
      fresh := fun machine _ slot _ =>
        ⟨(by simp only [init, Leader.new]; split <;> rfl), fun _ member => (by cases member),
          fun _ member => (by cases member)⟩ }⟩

theorem Agreed.propose {value : Nat → Nat} (agreed : network.Agreed value) {member proposal : Nat}
    (stepped : network.step (.propose member proposal) = some network') : network'.Agreed value := by
  rw [step_propose stepped]
  refine ⟨agreed.instances, fun envelope member slot value' committer asks => ?_, agreed.committed,
    fun machine elected slot past => ?_⟩
  · rcases List.mem_append.mp member with old | fresh
    · exact agreed.pending envelope old slot value' committer asks
    · simp only [List.mem_singleton] at fresh
      rw [fresh] at asks
      cases asks
  · obtain ⟨empty, quiet, uncommitted⟩ := agreed.fresh machine elected slot past
    refine ⟨empty, fun envelope member value' committer => ?_, uncommitted⟩
    rcases List.mem_append.mp member with old | fresh
    · exact quiet envelope old value' committer
    · simp only [List.mem_singleton] at fresh
      simp [fresh]

/-- A machine that holds an instance is the elected leader. -/
theorem Steady.elected_of_instance (steady : network.Steady) {machine : MachineId} {slot : Nat}
    {current : PaxosInstance} (held : (network.nodes machine).leader.instances slot = some current) :
    (network.nodes machine).leader.isElected = true := by
  cases elected : (network.nodes machine).leader.isElected with
  | false =>
      rw [steady machine elected slot] at held
      cases held
  | true => rfl

theorem eq_none_of_keeps {before after : Nat → Option PaxosInstance} {slot : Nat}
    (keeps : ∀ slot kept, after slot = some kept → ∃ current, before slot = some current ∧ kept.value = current.value)
    (empty : before slot = none) : after slot = none := by
  cases present : after slot with
  | none => rfl
  | some kept =>
      obtain ⟨current, held, -⟩ := keeps slot kept present
      rw [empty] at held
      cases held

section Deliver

variable {value : Nat → Nat} {envelope : Envelope} {index : Nat}

/-- A delivery whose receiver keeps its instances' values keeps every slot's value. -/
theorem Agreed.deliver_kept (agreed : network.Agreed value) (steady : network.Steady)
    (unique : ∀ first second, (network.nodes first).leader.isElected → (network.nodes second).leader.isElected →
      first = second)
    (arrived : envelope ∈ network.inFlight)
    (keeps : ∀ slot kept, ((network.nodes envelope.receiver).receive envelope.receiver envelope).1.leader.instances slot =
        some kept → ∃ current, (network.nodes envelope.receiver).leader.instances slot = some current ∧
          kept.value = current.value)
    (later : (network.nodes envelope.receiver).leader.nextEmptySlot ≤
      ((network.nodes envelope.receiver).receive envelope.receiver envelope).1.leader.nextEmptySlot) :
    Agreed ⟨Function.update network.nodes envelope.receiver
          ((network.nodes envelope.receiver).receive envelope.receiver envelope).1,
        network.inFlight.eraseIdx index ++ ((network.nodes envelope.receiver).receive envelope.receiver envelope).2.1,
        network.commits ++ ((network.nodes envelope.receiver).receive envelope.receiver envelope).2.2.map
          (envelope.receiver, ·)⟩ value := by
  refine ⟨fun machine slot current present => ?_, fun sent member slot value' committer asks => ?_,
    fun entry member => ?_, fun machine elected slot past => ?_⟩
  · by_cases here : machine = envelope.receiver
    · subst here
      simp only [Function.update_self] at present
      obtain ⟨older, held, same⟩ := keeps slot current present
      rw [same]
      exact agreed.instances _ slot older held
    · simp only [Function.update_of_ne here] at present
      exact agreed.instances machine slot current present
  · rcases List.mem_append.mp member with old | fresh
    · exact agreed.pending sent (List.mem_of_mem_eraseIdx old) slot value' committer asks
    · obtain ⟨current, held, same⟩ := Node.receive_sent sent fresh slot value' committer asks
      rw [same]
      exact agreed.instances _ slot current held
  · rcases List.mem_append.mp member with old | fresh
    · exact agreed.committed entry old
    · obtain ⟨commit, reported, rfl⟩ := List.mem_map.mp fresh
      exact agreed.pending envelope arrived commit.slot commit.value commit.leader (Node.receive_commits commit reported)
  · by_cases here : machine = envelope.receiver
    · subst here
      simp only [Function.update_self] at elected past ⊢
      rw [Node.isElected_receive] at elected
      obtain ⟨empty, quiet, uncommitted⟩ := agreed.fresh _ elected slot (Nat.le_trans later past)
      refine ⟨eq_none_of_keeps keeps empty, fun sent member value' committer => ?_, fun entry member => ?_⟩
      · rcases List.mem_append.mp member with old | fresh
        · exact quiet sent (List.mem_of_mem_eraseIdx old) value' committer
        · intro asks
          obtain ⟨current, held, -⟩ := Node.receive_sent sent fresh slot value' committer asks
          rw [empty] at held
          cases held
      · rcases List.mem_append.mp member with old | fresh
        · exact uncommitted entry old
        · obtain ⟨commit, reported, rfl⟩ := List.mem_map.mp fresh
          intro same
          exact quiet envelope arrived commit.value commit.leader (same ▸ Node.receive_commits commit reported)
    · simp only [Function.update_of_ne here] at elected past ⊢
      obtain ⟨empty, quiet, uncommitted⟩ := agreed.fresh machine elected slot past
      refine ⟨empty, fun sent member value' committer => ?_, fun entry member => ?_⟩
      · rcases List.mem_append.mp member with old | fresh
        · exact quiet sent (List.mem_of_mem_eraseIdx old) value' committer
        · -- only the elected leader asks for commits, and that is this machine, not the receiver
          intro asks
          obtain ⟨current, held, -⟩ := Node.receive_sent sent fresh slot value' committer asks
          exact here (unique machine _ elected (steady.elected_of_instance held))
      · rcases List.mem_append.mp member with old | fresh
        · exact uncommitted entry old
        · obtain ⟨commit, reported, rfl⟩ := List.mem_map.mp fresh
          intro same
          exact quiet envelope arrived commit.value commit.leader (same ▸ Node.receive_commits commit reported)

/-- A proposal that the elected leader gives its next empty slot fixes that slot's value. -/
theorem Agreed.deliver_created (agreed : network.Agreed value) (steady : network.Steady)
    (unique : ∀ first second, (network.nodes first).leader.isElected → (network.nodes second).leader.isElected →
      first = second)
    {proposal : Nat} (body : envelope.body = .request (.propose proposal))
    (elected : (network.nodes envelope.receiver).leader.isElected)
    (empty : (network.nodes envelope.receiver).leader.instances (network.nodes envelope.receiver).leader.nextEmptySlot = none)
    (created : ((network.nodes envelope.receiver).receive envelope.receiver envelope).1.leader.instances =
      Function.update (network.nodes envelope.receiver).leader.instances (network.nodes envelope.receiver).leader.nextEmptySlot
        (some ⟨(network.nodes envelope.receiver).leader.ballot, proposal, 0, 0⟩))
    (moved : ((network.nodes envelope.receiver).receive envelope.receiver envelope).1.leader.nextEmptySlot =
      (network.nodes envelope.receiver).leader.nextEmptySlot + 1) :
    Agreed ⟨Function.update network.nodes envelope.receiver
          ((network.nodes envelope.receiver).receive envelope.receiver envelope).1,
        network.inFlight.eraseIdx index ++ ((network.nodes envelope.receiver).receive envelope.receiver envelope).2.1,
        network.commits ++ ((network.nodes envelope.receiver).receive envelope.receiver envelope).2.2.map
          (envelope.receiver, ·)⟩
      (Function.update value (network.nodes envelope.receiver).leader.nextEmptySlot proposal) := by
  obtain ⟨-, quiet, uncommitted⟩ := agreed.fresh _ elected _ (Nat.le_refl _)
  have noCommits : ((network.nodes envelope.receiver).receive envelope.receiver envelope).2.2 = [] :=
    List.eq_nil_iff_forall_not_mem.mpr fun commit reported => by
      have asked := Node.receive_commits commit reported
      rw [body] at asked
      cases asked
  refine ⟨fun machine slot current present => ?_, fun sent member slot value' committer asks => ?_,
    fun entry member => ?_, fun machine electedNow slot past => ?_⟩
  · by_cases here : machine = envelope.receiver
    · subst here
      simp only [Function.update_self] at present
      rw [created] at present
      by_cases next : slot = (network.nodes envelope.receiver).leader.nextEmptySlot
      · subst next
        simp only [Function.update_self] at present
        rw [← Option.some.inj present, Function.update_self]
      · rw [Function.update_of_ne next] at present
        rw [Function.update_of_ne next]
        exact agreed.instances _ slot current present
    · -- the receiver is the elected leader, so no other machine holds an instance
      simp only [Function.update_of_ne here] at present
      exact absurd (unique machine _ (steady.elected_of_instance present) elected) here
  · rcases List.mem_append.mp member with old | fresh
    · have apart : slot ≠ (network.nodes envelope.receiver).leader.nextEmptySlot := fun same =>
        quiet sent (List.mem_of_mem_eraseIdx old) value' committer (same ▸ asks)
      rw [Function.update_of_ne apart]
      exact agreed.pending sent (List.mem_of_mem_eraseIdx old) slot value' committer asks
    · obtain ⟨current, held, same⟩ := Node.receive_sent sent fresh slot value' committer asks
      have apart : slot ≠ (network.nodes envelope.receiver).leader.nextEmptySlot := fun next => by
        rw [next, empty] at held
        cases held
      rw [Function.update_of_ne apart, same]
      exact agreed.instances _ slot current held
  · rcases List.mem_append.mp member with old | fresh
    · rw [Function.update_of_ne (uncommitted entry old)]
      exact agreed.committed entry old
    · rw [noCommits] at fresh
      cases fresh
  · by_cases here : machine = envelope.receiver
    · subst here
      simp only [Function.update_self] at past ⊢
      rw [moved] at past
      obtain ⟨emptyLater, quietLater, uncommittedLater⟩ := agreed.fresh _ elected slot (by omega)
      have apart : slot ≠ (network.nodes envelope.receiver).leader.nextEmptySlot := by omega
      refine ⟨by rw [created, Function.update_of_ne apart, emptyLater], fun sent member value' committer => ?_,
        fun entry member => ?_⟩
      · rcases List.mem_append.mp member with old | fresh
        · exact quietLater sent (List.mem_of_mem_eraseIdx old) value' committer
        · intro asks
          obtain ⟨current, held, -⟩ := Node.receive_sent sent fresh slot value' committer asks
          rw [emptyLater] at held
          cases held
      · rcases List.mem_append.mp member with old | fresh
        · exact uncommittedLater entry old
        · rw [noCommits] at fresh
          cases fresh
    · simp only [Function.update_of_ne here] at electedNow
      exact absurd (unique machine _ electedNow elected) here

end Deliver

theorem Consistent.step (consistent : network.Consistent) (stepped : network.step action = some network') :
    network'.Consistent := by
  obtain ⟨steady, unique, value, agreed⟩ := consistent
  refine ⟨steady.step stepped, fun first second electedFirst electedSecond => ?_, ?_⟩
  · rw [isElected_step stepped] at electedFirst electedSecond
    exact unique first second electedFirst electedSecond
  · cases action with
    | propose member proposal => exact ⟨value, agreed.propose stepped⟩
    | deliver index =>
        obtain ⟨envelope, found, rfl⟩ := step_deliver stepped
        rcases @Node.receive_instances_cases (network.nodes envelope.receiver) envelope.receiver envelope
          with ⟨keeps, later⟩ | ⟨proposal, body, elected, empty, created, moved⟩
        · exact ⟨value, agreed.deliver_kept steady unique (List.mem_of_getElem? found) keeps later⟩
        · exact ⟨_, agreed.deliver_created steady unique body elected empty created moved⟩

theorem Consistent.run (consistent : network.Consistent) {actions : List Action}
    (ran : network.run actions = some network') : network'.Consistent :=
  Folds.foldlM_option_invariant Consistent (fun _ _ _ _ holds stepped => holds.step stepped)
    network network' consistent ran

end Network

/-- Three machines, each an acceptor and a learner, as in the Paxos tests. -/
def threeMembers : Members := ⟨[0, 1, 2], [0, 1, 2]⟩

/-- Machine 0 gets the proposals 111 and 222 and gives them slots 0 and 1. Two acceptors answer
slot 1 first, so the leader sends its commit; the three commit requests arrive and are answered,
and those answers arrive. Then slot 0's accept requests arrive and are answered, those answers
arrive, and last the third acceptor answers slot 1. -/
def lostSlotActions : List Action :=
  [.propose 0 111, .propose 0 222, .deliver 0, .deliver 0, .deliver 3, .deliver 3, .deliver 4, .deliver 4,
    .deliver 4, .deliver 4, .deliver 4, .deliver 4, .deliver 4, .deliver 4, .deliver 0, .deliver 0, .deliver 0,
    .deliver 1, .deliver 1, .deliver 1, .deliver 0, .deliver 0]

/-- In the run above, the leader receives the three commit responses of slot 1 and none of
slot 0. It has erased the instance of slot 0 and counted no commit for slot 1, whose instance
it keeps with no commit counted, whatever arrives later. -/
theorem commits_counted_at_slot_zero :
    ((Network.init threeMembers).deliveries lostSlotActions).map (fun delivered =>
        (delivered.countP (fun envelope => envelope.receiver = 0 ∧ envelope.body = .response (.commit 0)),
          delivered.countP (fun envelope => envelope.receiver = 0 ∧ envelope.body = .response (.commit 1)))) =
        some (0, 3) ∧
      ∃ network, (Network.init threeMembers).run lostSlotActions = some network ∧
        (network.nodes 0).leader.instances 0 = none ∧ (network.nodes 0).leader.instances 1 = some ⟨0, 222, 3, 0⟩ ∧
        ∀ actions network', network.run actions = some network' → network'.Keeps 0 1 0 := by
  refine ⟨by decide, ?_⟩
  obtain ⟨network, ran⟩ : ∃ network, (Network.init threeMembers).run lostSlotActions = some network :=
    Option.isSome_iff_exists.mp (by decide)
  have held : ((Network.init threeMembers).run lostSlotActions).map
      (fun network => ((network.nodes 0).leader.instances 0, (network.nodes 0).leader.instances 1)) =
      some (none, some ⟨0, 222, 3, 0⟩) := by decide
  simp only [ran, Option.map_some, Option.some.injEq, Prod.mk.injEq] at held
  exact ⟨network, ran, held.1, held.2, fun actions network' continued =>
    Network.Keeps.run ⟨_, held.2, rfl⟩ (by decide) continued⟩

/-- Agreement, over every order in which messages arrive: two commits of one slot, by any
learners, carry the same value; so no learner gives a slot two values. -/
theorem paxos_commits_agree (members : Members) (actions : List Action) (network : Network)
    (ran : (Network.init members).run actions = some network) :
    ∀ first ∈ network.commits, ∀ second ∈ network.commits, first.2.slot = second.2.slot →
      first.2.value = second.2.value := by
  obtain ⟨-, -, value, agreed⟩ := (Network.consistent_init members).run ran
  intro first memberFirst second memberSecond same
  rw [agreed.committed first memberFirst, agreed.committed second memberSecond, same]

theorem lostSlot_commits_agree : ∃ network, (Network.init threeMembers).run lostSlotActions = some network ∧
    ∀ first ∈ network.commits, ∀ second ∈ network.commits, first.2.slot = second.2.slot →
      first.2.value = second.2.value := by
  obtain ⟨network, ran⟩ : ∃ network, (Network.init threeMembers).run lostSlotActions = some network :=
    Option.isSome_iff_exists.mp (by decide)
  exact ⟨network, ran, paxos_commits_agree threeMembers lostSlotActions network ran⟩

end Slog.Paxos
