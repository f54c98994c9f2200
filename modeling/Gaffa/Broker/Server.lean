import Gaffa.Broker.Replication
import Gaffa.Protocol.Codec
import Gaffa.Lib.Transition
import Gaffa.Storage.Topic

/-!
# The server: requests in steps

`process_request` in `broker/src/server.rs`, for `CreateTopic`, `Produce` and `Fetch`.  Every
connection has its own task, and a request holds no lock from one of its steps to the next, so a
request in progress is a `Task` that says what it does next, and a run interleaves the tasks.

* `serverNext_advance`: what a step of a task does.
-/

set_option autoImplicit false

namespace Gaffa

/-- What the requests share: `TopicManager`, `ClusterMetadata`, and the replication factor of
`ReplicationManager`. -/
structure Server where
  topicManager : TopicManager
  cluster : ClusterMetadata
  replicationFactor : Nat

/-- What a step of a task meets: the file system's answers, a clock reading, and the order in which
the brokers are iterated. -/
structure StepIo where
  create : CreateIo
  append : PartitionIo
  now : Nat
  order : List BrokerId

/-- A request in progress. -/
inductive Task where
  | checkTopic (name : String) (partitions : Nat)
  | createPartitions (name : String) (partitions : Nat) (made : List Nat)
  | assignReplicas (name : String) (partitions next : Nat)
  | findTopic (topic : String) (partition : Nat) (messages : List Message)
  | append (handle : Topic) (topic : String) (partition : Nat) (messages : List Message)
  | updateLeader (topic : String) (partition baseOffset count : Nat)
  | findFetched (topic : String) (partition offset maxMessages : Nat)
  | fetch (handle : Topic) (topic : String) (partition offset maxMessages : Nat)
  deriving DecidableEq, Repr

/-- What a step of a task leads to: its next step, or its end, with a response unless it
panicked. -/
inductive Progress where
  | waits (task : Task)
  | ends (response : Option Response)
  deriving DecidableEq, Repr

/-- The first step of a request. -/
def start : Request → Option Task
  | .createTopic name partitions => some (.checkTopic name partitions)
  | .produce topic partition messages => some (.findTopic topic partition messages)
  | .fetch topic partition offset maxMessages =>
    some (.findFetched topic partition offset maxMessages)
  | _ => none

namespace Task

/-- The steps of `CreateTopic` from the creation of a partition on; the topic is inserted when its
last partition is made. -/
def create (dirOf : String → Nat → Path) (io : CreateIo) (name : String) (partitions : Nat)
    (made : List Nat) (srv : Server) : Progress × Server :=
  if made.length < partitions then
    match srv.topicManager.createPartition io (dirOf name made.length) name made.length with
    | (.error e, tm) => (.ends (some (.createTopicError e.display)), { srv with topicManager := tm })
    | (.ok ref, tm) =>
      (.waits (.createPartitions name partitions (made ++ [ref])), { srv with topicManager := tm })
  else
    (.waits (.assignReplicas name partitions 0),
      { srv with topicManager := srv.topicManager.insertTopic ⟨name, made⟩ })

/-- One iteration of the loop of `CreateTopic` over the partitions, or its end. -/
def assign (now : Nat) (order : List BrokerId) (name : String) (partitions next : Nat)
    (srv : Server) : Progress × Server :=
  if next < partitions then
    match srv.cluster.assignPartitionReplicas now order srv.replicationFactor next with
    | .error _ => (.ends none, srv)
    | .ok (leader, replicas) =>
      (.waits (.assignReplicas name partitions (next + 1)),
        { srv with cluster := srv.cluster.setPartitionReplicas name next leader replicas })
  else (.ends (some (.createTopicSuccess name partitions)), srv)

/-- `topic_obj.append` in `Produce`. -/
def appendBatch (K : Crates) (io : PartitionIo) (handle : Topic) (topic : String) (partition : Nat)
    (messages : List Message) (srv : Server) : Progress × Server :=
  match handle.getPartition partition with
  | .error e => (.ends (some (.produceError e.display)), srv)
  | .ok ref =>
    match srv.topicManager.objects.get ref with
    | none => (.ends none, srv)
    | some o =>
      let r := srv.topicManager.appendTo K io messages ref o
      (match r.1 with
        | .ok baseOffset =>
          .waits (.updateLeader topic partition baseOffset (messages.length % 2 ^ 32))
        | .error (.error e) => .ends (some (.produceError e.display))
        | .error (.panic _) => .ends none, { srv with topicManager := r.2 })

/-- `update_leader_offset` in `Produce`, and the response. -/
def update (overflowChecks : Bool) (topic : String) (partition baseOffset count : Nat)
    (srv : Server) : Progress × Server :=
  match addWith overflowChecks 64 baseOffset count with
  | .error _ => (.ends none, srv)
  | .ok finalOffset =>
    let r := srv.cluster.updateLeaderOffset overflowChecks topic partition finalOffset
    (match r.1 with
      | .ok _ => .ends (some (.produceSuccess topic partition baseOffset count))
      | .error _ => .ends none, { srv with cluster := r.2 })

/-- `topic_obj.fetch` in `Fetch`, and the response. -/
def read (K : Crates) (handle : Topic) (topic : String) (partition offset maxMessages : Nat)
    (srv : Server) : Option Response :=
  match handle.getPartition partition with
  | .error e => some (.fetchError e.display)
  | .ok ref =>
    match srv.topicManager.objects.get ref with
    | none => none
    | some o => respond (.fetchSuccess topic partition) .fetchError
        (srv.topicManager.fetchFrom K offset maxMessages o)

/-- One step of a task. -/
def advance (K : Crates) (dirOf : String → Nat → Path) (overflowChecks : Bool) (io : StepIo)
    (srv : Server) : Task → Progress × Server
  | checkTopic name partitions =>
    if srv.topicManager.contains name then
      (.ends (some (.createTopicError
        (GaffaError.invalidMessage ("Topic '" ++ name ++ "' already exists")).display)), srv)
    else (.waits (.createPartitions name partitions []), srv)
  | createPartitions name partitions made => create dirOf io.create name partitions made srv
  | assignReplicas name partitions next => assign io.now io.order name partitions next srv
  | findTopic topic partition messages =>
    match srv.topicManager.getTopic topic with
    | .error e => (.ends (some (.produceError e.display)), srv)
    | .ok handle => (.waits (.append handle topic partition messages), srv)
  | append handle topic partition messages =>
    appendBatch K io.append handle topic partition messages srv
  | updateLeader topic partition baseOffset count =>
    update overflowChecks topic partition baseOffset count srv
  | findFetched topic partition offset maxMessages =>
    match srv.topicManager.getTopic topic with
    | .error e => (.ends (some (.fetchError e.display)), srv)
    | .ok handle => (.waits (.fetch handle topic partition offset maxMessages), srv)
  | fetch handle topic partition offset maxMessages =>
    (.ends (read K handle topic partition offset maxMessages srv), srv)

end Task

/-! ## Runs -/

/-- What the codec's frame limit says of a message that it decoded. -/
def Message.Framed (m : Message) : Prop :=
  (∀ key ∈ m.key, key.length ≤ maxMessageSize) ∧ m.value.length ≤ maxMessageSize

instance decidableMessageFramed (m : Message) : Decidable m.Framed :=
  inferInstanceAs (Decidable (_ ∧ _))

/-- What the codec's frame limit says of a request that it decoded. -/
def Request.Framed : Request → Prop
  | .produce _ _ messages => messages.length ≤ maxMessageSize ∧ ∀ m ∈ messages, m.Framed
  | _ => True

instance decidableFramed : ∀ request : Request, Decidable request.Framed
  | .produce .. => inferInstanceAs (Decidable (_ ∧ _))
  | .createTopic .. => isTrue trivial
  | .fetch .. => isTrue trivial
  | .getMetadata .. => isTrue trivial
  | .getPartitions .. => isTrue trivial
  | .listTopics => isTrue trivial
  | .joinGroup .. => isTrue trivial
  | .leaveGroup .. => isTrue trivial
  | .heartbeat .. => isTrue trivial
  | .commitOffset .. => isTrue trivial
  | .fetchOffset .. => isTrue trivial
  | .registerBroker .. => isTrue trivial
  | .getClusterMetadata => isTrue trivial
  | .replicationFetch .. => isTrue trivial

/-- The server with the requests in progress. -/
structure ServerState where
  server : Server
  tasks : Table Nat Task

/-- A server on an empty data directory. -/
def ServerState.new (cluster : ClusterMetadata) (replicationFactor : Nat) : ServerState :=
  ⟨⟨TopicManager.new, cluster, replicationFactor⟩, Table.empty⟩

/-- A request arrives, a task takes a step, a broker registers, a replica's offset is reported. -/
inductive ServerEvent where
  | receive (id : Nat) (request : Request)
  | advance (id : Nat) (io : StepIo)
  | registerBroker (now brokerId : Nat) (host : String) (port : Nat)
  | updateReplicaOffset (topic : String) (partition : Nat) (brokerId : BrokerId) (offset : Nat)

/-- The tasks after one of them made progress. -/
def settle (id : Nat) (progress : Progress) (tasks : Table Nat Task) : Table Nat Task :=
  match progress with
  | .waits task => tasks.insert id task
  | .ends _ => tasks.remove id

/-- The response that an event sends. -/
def answer (K : Crates) (dirOf : String → Nat → Path) (overflowChecks : Bool) (s : ServerState) :
    ServerEvent → Option Response
  | .advance id io =>
    match s.tasks.get id with
    | none => none
    | some task =>
      match (task.advance K dirOf overflowChecks io s.server).1 with
      | .waits _ => none
      | .ends response => response
  | _ => none

/-- The steps of the server. -/
def serverNext (K : Crates) (dirOf : String → Nat → Path) (overflowChecks : Bool)
    (s : ServerState) : ServerEvent → Option ServerState
  | .receive id request =>
    if s.tasks.get id = none ∧ request.Framed then
      (start request).map fun task => { s with tasks := s.tasks.insert id task }
    else none
  | .advance id io =>
    match s.tasks.get id with
    | none => none
    | some task =>
      if s.server.cluster.brokers.Order io.order then
        let r := task.advance K dirOf overflowChecks io s.server
        some ⟨r.2, settle id r.1 s.tasks⟩
      else none
  | .registerBroker now brokerId host port =>
    some { s with server := { s.server with
      cluster := s.server.cluster.registerBroker (BrokerInfo.new now brokerId host port) } }
  | .updateReplicaOffset topic partition brokerId offset =>
    some { s with server := { s.server with
      cluster :=
        (s.server.cluster.updateReplicaOffset overflowChecks topic partition brokerId offset).2 } }

/-- **What an event does.** -/
theorem serverNext_advance {K : Crates} {dirOf : String → Nat → Path} {overflowChecks : Bool}
    {s t : ServerState} {id : Nat} {io : StepIo}
    (h : serverNext K dirOf overflowChecks s (.advance id io) = some t) :
    ∃ task, s.tasks.get id = some task ∧ s.server.cluster.brokers.Order io.order ∧
      t.server = (task.advance K dirOf overflowChecks io s.server).2 ∧
      t.tasks = settle id (task.advance K dirOf overflowChecks io s.server).1 s.tasks := by
  simp only [serverNext] at h
  split at h
  · cases h
  · rename_i task htask
    split at h
    · rename_i horder
      cases h
      exact ⟨task, htask, horder, rfl, rfl⟩
    · cases h

theorem serverNext_receive {K : Crates} {dirOf : String → Nat → Path} {overflowChecks : Bool}
    {s t : ServerState} {id : Nat} {request : Request}
    (h : serverNext K dirOf overflowChecks s (.receive id request) = some t) :
    ∃ task, s.tasks.get id = none ∧ request.Framed ∧ start request = some task ∧
      t = { s with tasks := s.tasks.insert id task } := by
  simp only [serverNext, Option.ite_none_right_eq_some] at h
  obtain ⟨⟨hnone, hframed⟩, h⟩ := h
  obtain ⟨task, hstart, rfl⟩ := Option.map_eq_some_iff.1 h
  exact ⟨task, hnone, hframed, hstart, rfl⟩

end Gaffa
