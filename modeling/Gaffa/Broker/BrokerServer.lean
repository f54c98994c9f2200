import Gaffa.Broker.Failover
import Gaffa.Broker.Replication
import Gaffa.Broker.Server
import Gaffa.Storage.FailedAppend
import Gaffa.Storage.Survival

/-!
# The broker: requests, health checks, restarts

`broker/src/server.rs` and `check_broker_health` of `broker/src/replication.rs`, with every request
processed from its start to its end.  The requests of consumer groups are answered by the group
coordinator and the offset manager, which read the topics and change neither them nor the cluster
metadata: their answer is given with the request.

* `assignReplicas_cases`: the replica states that `CreateTopic` sets.
* `RequestStep`, `processRequest_step`: what a request can do to the broker.
* `new_spec`: which topics a broker serves when it starts.
-/

set_option autoImplicit false

namespace Gaffa

open FileSystem DirTree Transition TopicStore

/-- What `BrokerServer` reads of `BrokerConfig`. -/
structure BrokerConfig where
  host : String
  port : Nat
  dataDir : Location
  brokerId : BrokerId
  replicationFactor : Nat
  maxIsrLag : Nat

/-- `Duration::from_secs(30)`, in nanoseconds. -/
def brokerTimeout : Nat := 30 * 10 ^ 9

/-- `TopicManager` and `ClusterMetadata` of a `BrokerServer`, and the clock. -/
structure Broker where
  store : TopicStore
  cluster : ClusterMetadata
  now : Nat

/-- The answers of the environment to a request: the file system's, and the orders in which the
brokers, the topics, the partition states and their ISRs are iterated. -/
structure RequestIo where
  create : Nat → SetupIo
  append : PartitionIo
  brokers : List BrokerId
  topics : List String
  states : List PartitionKey
  isr : PartitionKey → List BrokerId
  group : Option Response

/-- The orders are those of what is iterated. -/
def RequestIo.Fits (io : RequestIo) (b : Broker) : Prop :=
  b.cluster.brokers.Order io.brokers ∧ b.store.topics.Order io.topics ∧
  b.cluster.partitionStates.Order io.states ∧
  ∀ key ∈ io.states, ∀ state ∈ b.cluster.partitionStates.get key,
    (io.isr key).Nodup ∧ (io.isr key).toFinset = state.isr

instance decidableRequestFits (io : RequestIo) (b : Broker) : Decidable (io.Fits b) :=
  inferInstanceAs (Decidable (_ ∧ _ ∧ _ ∧ _))

/-- The answers of the environment to a health check: the orders in which the brokers and the
partition states are iterated, and for each election the order in which it visits the partitions
and the first element of each ISR. -/
structure HealthIo where
  brokers : List BrokerId
  states : List PartitionKey
  elections : Nat → List PartitionKey × (PartitionKey → BrokerId)

namespace Broker

/-! ## Requests -/

/-- The loop of `CreateTopic` over the partitions. -/
def assignReplicas (now : Nat) (order : List BrokerId) (replicationFactor : Nat) (name : String) :
    List Nat → ClusterMetadata → Except Fault Unit × ClusterMetadata
  | [], c => (.ok (), c)
  | partition :: rest, c =>
    match c.assignPartitionReplicas now order replicationFactor partition with
    | .error e => (.error e, c)
    | .ok (leader, replicas) => assignReplicas now order replicationFactor name rest
        (c.setPartitionReplicas name partition leader replicas)

/-- `CreateTopic`. -/
def createTopic (config : BrokerConfig) (io : RequestIo) (name : String) (partitions : Nat)
    (b : Broker) : Option Response × Broker :=
  match b.store.createTopic io.create config.dataDir name partitions with
  | (.error e, store) => (some (.createTopicError e.display), { b with store := store })
  | (.ok _, store) =>
    let r := assignReplicas b.now io.brokers config.replicationFactor name (List.range partitions)
      b.cluster
    (match r.1 with
      | .ok () => some (.createTopicSuccess name partitions)
      | .error _ => none, { b with store := store, cluster := r.2 })

/-- `Produce`. -/
def produce (K : Crates) (overflowChecks : Bool) (io : RequestIo) (topic : String)
    (partition : Nat) (messages : List Message) (b : Broker) : Option Response × Broker :=
  match b.store.append K io.append messages topic partition with
  | (.error (.error e), store) => (some (.produceError e.display), { b with store := store })
  | (.error (.panic _), store) => (none, { b with store := store })
  | (.ok baseOffset, store) =>
    let count := messages.length % 2 ^ 32
    match addWith overflowChecks 64 baseOffset count with
    | .error _ => (none, { b with store := store })
    | .ok finalOffset =>
      let r := b.cluster.updateLeaderOffset overflowChecks topic partition finalOffset
      (match r.1 with
        | .ok () => some (.produceSuccess topic partition baseOffset count)
        | .error _ => none, { b with store := store, cluster := r.2 })

/-- `Fetch`. -/
def fetch (K : Crates) (topic : String) (partition offset maxMessages : Nat) (b : Broker) :
    Option Response :=
  respond (.fetchSuccess topic partition) .fetchError
    (b.store.fetch K topic partition offset maxMessages)

/-- `GetMetadata`, for the order in which the topics are listed. -/
def getMetadata (order topics : List String) (b : Broker) : List TopicMetadata :=
  (if topics = [] then order else topics).filterMap fun name =>
    (b.store.topics.get name).map fun topic => TopicMetadata.new name topic.numPartitions

/-- `GetClusterMetadata`: the alive brokers. -/
def aliveBrokers (order : List BrokerId) (b : Broker) : List BrokerMetadata :=
  (b.cluster.getAliveBrokers b.now order).map fun info => ⟨info.id, info.host, info.port⟩

/-- `GetClusterMetadata`: the partition states. -/
def topicPartitions (io : RequestIo) (b : Broker) : List TopicPartitionMetadata :=
  io.states.filterMap fun key => (b.cluster.partitionStates.get key).map fun state =>
    ⟨state.topic, state.partition, state.leader, state.replicas, io.isr key⟩

/-- `ReplicationFetch`, with `ReplicationManager::handle_replication_fetch`. -/
def replicationFetch (K : Crates) (io : RequestIo) (topic : String) (partition offset : Nat)
    (b : Broker) : Option Response :=
  if b.cluster.isPartitionLeader topic partition then
    match b.store.fetch K topic partition offset 1000 with
    | .error (.panic _) => none
    | fetched =>
      let found := (io.states.filterMap b.cluster.partitionStates.get).find? fun state =>
        state.topic = topic ∧ state.partition = partition
      some (.replicationFetchSuccess (fetched.toOption.getD [])
        (b.cluster.getHighWatermark topic partition)
        ((found.map PartitionReplicaState.leaderEpoch).getD 0))
  else some (.replicationFetchError "Not the leader for this partition")

/-- `process_request`: the response, none if the request panicked, and the broker. -/
def processRequest (K : Crates) (config : BrokerConfig) (overflowChecks : Bool) (io : RequestIo)
    (b : Broker) : Request → Option Response × Broker
  | .createTopic name partitions => b.createTopic config io name partitions
  | .produce topic partition messages => b.produce K overflowChecks io topic partition messages
  | .fetch topic partition offset maxMessages =>
    (b.fetch K topic partition offset maxMessages, b)
  | .getMetadata topics => (some (.metadata (b.getMetadata io.topics topics)), b)
  | .getPartitions topic =>
    (match b.store.getTopic topic with
      | .ok found => some (.partitions topic found.numPartitions)
      | .error e => some (.partitionsError e.display), b)
  | .listTopics => (some (.topics io.topics), b)
  | .registerBroker brokerId host port =>
    (some (.registerBrokerSuccess brokerId), { b with
      cluster := b.cluster.registerBroker (BrokerInfo.new b.now brokerId host port) })
  | .getClusterMetadata =>
    (some (.clusterMetadata (b.aliveBrokers io.brokers) (b.topicPartitions io)), b)
  | .replicationFetch _ topic partition offset =>
    (b.replicationFetch K io topic partition offset, b)
  | .joinGroup .. => (io.group, b)
  | .leaveGroup .. => (io.group, b)
  | .heartbeat .. => (io.group, b)
  | .commitOffset .. => (io.group, b)
  | .fetchOffset .. => (io.group, b)

/-! ## Health checks -/

/-- The loop of `check_broker_health` over the states it has read; it ends at a panic. -/
def electionLoop (overflowChecks : Bool) (alive : List BrokerId) :
    List PartitionReplicaState → (Nat → List PartitionKey × (PartitionKey → BrokerId)) →
    ClusterMetadata → Option ClusterMetadata
  | [], _, c => some c
  | state :: rest, elections, c =>
    if state.leader ∈ alive then electionLoop overflowChecks alive rest elections c
    else if c.partitionStates.Order (elections 0).1 ∧
        ∀ k ∈ (elections 0).1, FirstOf state.leader (elections 0).2 c k then
      match c.handleBrokerFailure overflowChecks state.leader (elections 0).1 (elections 0).2 with
      | (.error _, c) => some c
      | (.ok _, c) =>
        electionLoop overflowChecks alive rest (fun i => elections (i + 1)) c
    else none

/-- `ReplicationManager::check_broker_health`. -/
def checkBrokerHealth (overflowChecks : Bool) (io : HealthIo) (b : Broker) :
    Option ClusterMetadata :=
  electionLoop overflowChecks ((b.cluster.getAliveBrokers b.now io.brokers).map BrokerInfo.id)
    (io.states.filterMap b.cluster.partitionStates.get) io.elections b.cluster

/-! ## Starting -/

/-- The directory that `OffsetManager::new` makes. -/
def offsetsName : Name := ['o', 'f', 'f', 's', 'e', 't', 's']

/-- The `ClusterMetadata` of a new `BrokerServer`, which has registered itself. -/
def newCluster (config : BrokerConfig) (now : Nat) : ClusterMetadata :=
  (ClusterMetadata.new config.brokerId brokerTimeout config.maxIsrLag).registerBroker
    (BrokerInfo.new now config.brokerId config.host config.port)

/-- `BrokerServer::new`. -/
def new (K : Crates) (config : BrokerConfig) (listing : Listing) (now : Nat) (t : Tree) :
    Except Fault Broker :=
  match open_ K listing config.dataDir t with
  | .error e => .error e
  | .ok store =>
    match mkdirAll [] (config.dataDir ++ [offsetsName]) t with
    | (none, _) => .error (.error (.io "Not a directory (os error 20)"))
    | (some _, tree) => .ok ⟨{ store with tree := tree }, newCluster config now, now⟩

end Broker

/-! ## Runs -/

/-- A request is processed, the health checker ticks, time passes, the broker starts again. -/
inductive BrokerEvent where
  | request (request : Request) (io : RequestIo)
  | healthCheck (io : HealthIo)
  | pass (now : Nat)
  | restart (listing : Listing)

/-- The number of partitions of a topic is a `u32`. -/
def Request.Sized : Request → Prop
  | .createTopic _ partitions => partitions < 2 ^ 32
  | _ => True

instance decidableSized : ∀ request : Request, Decidable request.Sized
  | .createTopic .. => inferInstanceAs (Decidable (_ < _))
  | .produce .. => isTrue trivial
  | .fetch .. => isTrue trivial
  | .getMetadata .. => isTrue trivial
  | .getPartitions .. => isTrue trivial
  | .listTopics => isTrue trivial
  | .joinGroup .. => isTrue trivial
  | .leaveGroup .. => isTrue trivial
  | .heartbeat .. => isTrue trivial
  | .commitOffset .. => isTrue trivial
  | .fetchOffset .. => isTrue trivial
  | .registerBroker .. => isTrue trivial
  | .getClusterMetadata => isTrue trivial
  | .replicationFetch .. => isTrue trivial

/-- The steps of a broker. -/
def brokerNext (K : Crates) (config : BrokerConfig) (overflowChecks : Bool) (b : Broker) :
    BrokerEvent → Option Broker
  | .request request io =>
    if request.Framed ∧ request.Sized ∧ io.Fits b then
      some (b.processRequest K config overflowChecks io request).2
    else none
  | .healthCheck io =>
    if b.cluster.brokers.Order io.brokers ∧ b.cluster.partitionStates.Order io.states then
      (b.checkBrokerHealth overflowChecks io).map fun c => { b with cluster := c }
    else none
  | .pass now => if b.now ≤ now then some { b with now := now } else none
  | .restart listing =>
    if Lists b.store.tree listing then
      match Broker.new K config listing b.now b.store.tree with
      | .ok b => some b
      | .error _ => none
    else none

/-! ## The assignment of replicas -/

section Assign

variable {now : Nat} {order : List BrokerId} {replicationFactor : Nat} {name : String}
  {c : ClusterMetadata}

theorem assignPartitionReplicas_congr {c d : ClusterMetadata} (hbrokers : d.brokers = c.brokers)
    (hid : d.brokerId = c.brokerId) (htimeout : d.brokerTimeout = c.brokerTimeout)
    (now : Nat) (order : List BrokerId) (replicationFactor partition : Nat) :
    d.assignPartitionReplicas now order replicationFactor partition =
      c.assignPartitionReplicas now order replicationFactor partition := by
  unfold ClusterMetadata.assignPartitionReplicas ClusterMetadata.getAliveBrokers
  rw [hbrokers, hid, htimeout]

/-- No replicas can be assigned when there are alive brokers and none is to be a replica. -/
theorem assignPartitionReplicas_error_iff (partition : Nat) :
    (∃ e, c.assignPartitionReplicas now order replicationFactor partition = .error e) ↔
      c.getAliveBrokers now order ≠ [] ∧ replicationFactor = 0 := by
  unfold ClusterMetadata.assignPartitionReplicas
  generalize c.getAliveBrokers now order = alive
  simp only [List.length_eq_zero_iff]
  by_cases halive : alive = []
  · rw [if_pos halive]
    exact iff_of_false (fun ⟨_, h⟩ => by cases h) (fun h => h.1 halive)
  · rw [if_neg halive]
    have hpos : 0 < alive.length := List.length_pos_iff.2 halive
    cases replicationFactor with
    | zero => exact iff_of_true ⟨_, by rw [Nat.zero_min]; rfl⟩ ⟨halive, rfl⟩
    | succ n =>
      refine iff_of_false ?_ (fun h => Nat.succ_ne_zero n h.2)
      rintro ⟨e, h⟩
      split at h
      · rename_i hnil
        rw [List.filterMap_eq_nil_iff] at hnil
        have hfirst := hnil 0 (List.mem_range.2 (by omega))
        rw [List.getElem?_eq_getElem (Nat.mod_lt _ hpos)] at hfirst
        cases hfirst
      · cases h

/-- The loop leaves everything but the replica states as it is. -/
theorem assignReplicas_frame (now : Nat) (order : List BrokerId) (replicationFactor : Nat)
    (name : String) (ids : List Nat) : ∀ c : ClusterMetadata,
    (Broker.assignReplicas now order replicationFactor name ids c).2.brokers = c.brokers ∧
      (Broker.assignReplicas now order replicationFactor name ids c).2.brokerId = c.brokerId ∧
      (Broker.assignReplicas now order replicationFactor name ids c).2.brokerTimeout =
        c.brokerTimeout ∧
      (Broker.assignReplicas now order replicationFactor name ids c).2.isrLagThreshold =
        c.isrLagThreshold := by
  induction ids with
  | nil => exact fun c => ⟨rfl, rfl, rfl, rfl⟩
  | cons id ids ih =>
    intro c
    unfold Broker.assignReplicas
    split
    · exact ⟨rfl, rfl, rfl, rfl⟩
    · rename_i leader replicas _
      exact ih (c.setPartitionReplicas name id leader replicas)

/-- The partitions of a topic have new states, with the replicas that `c` assigns; the states of the
others are those of `d`. -/
def SetsStates (now : Nat) (order : List BrokerId) (replicationFactor : Nat) (name : String)
    (ids : List Nat) (c d d' : ClusterMetadata) : Prop :=
  ∀ key : PartitionKey, (key.1 = name ∧ key.2 ∈ ids ∧ ∃ leader replicas,
      c.assignPartitionReplicas now order replicationFactor key.2 = .ok (leader, replicas) ∧
      d'.partitionStates.get key =
        some (PartitionReplicaState.new name key.2 leader replicas)) ∨
    (¬(key.1 = name ∧ key.2 ∈ ids) ∧ d'.partitionStates.get key = d.partitionStates.get key)

/-- The loop, from metadata in which some of the states are set: it sets the others. -/
theorem assignReplicas_loop
    (hok : ∀ id e, c.assignPartitionReplicas now order replicationFactor id ≠ .error e)
    (ids : List Nat) : ∀ d : ClusterMetadata, ids.Nodup →
    d.brokers = c.brokers → d.brokerId = c.brokerId → d.brokerTimeout = c.brokerTimeout →
    (∀ id ∈ ids, d.partitionStates.get (name, id) = none) →
    SetsStates now order replicationFactor name ids c d
      (Broker.assignReplicas now order replicationFactor name ids d).2 := by
  induction ids with
  | nil => exact fun d _ _ _ _ _ key => .inr ⟨fun h => List.not_mem_nil h.2, rfl⟩
  | cons id ids ih =>
    intro d hnodup hbrokers hbroker htimeout hnone key
    obtain ⟨hid, hnodup⟩ := List.nodup_cons.1 hnodup
    obtain ⟨hstate, hnone⟩ := List.forall_mem_cons.1 hnone
    have hcongr := assignPartitionReplicas_congr hbrokers hbroker htimeout now order
      replicationFactor id
    cases hassign : c.assignPartitionReplicas now order replicationFactor id with
    | error e => exact absurd hassign (hok id e)
    | ok assigned =>
      obtain ⟨leader, replicas⟩ := assigned
      rw [Broker.assignReplicas, hcongr, hassign]
      simp only
      have hset : (d.setPartitionReplicas name id leader replicas).partitionStates =
          d.partitionStates.insert (name, id)
            (PartitionReplicaState.new name id leader replicas) := by
        unfold ClusterMetadata.setPartitionReplicas
        rw [hstate]
      have hothers : ∀ id' ∈ ids, (d.setPartitionReplicas name id leader
          replicas).partitionStates.get (name, id') = none := by
        intro id' hmem
        rw [hset, Table.get_insert_ne]
        · exact hnone id' hmem
        · intro heq
          cases heq
          exact hid hmem
      rcases ih (d.setPartitionReplicas name id leader replicas) hnodup hbrokers hbroker htimeout
        hothers key with ⟨hname, hmem, hfound⟩ | ⟨hnot, hkeep⟩
      · exact .inl ⟨hname, List.mem_cons_of_mem _ hmem, hfound⟩
      · rw [hkeep, hset, Table.get_insert]
        by_cases hkey : key = (name, id)
        · subst hkey
          exact .inl ⟨rfl, List.mem_cons_self .., leader, replicas, hassign, if_pos rfl⟩
        · refine .inr ⟨?_, if_neg hkey⟩
          rintro ⟨hname, hmem⟩
          rcases List.mem_cons.1 hmem with heq | hmem
          · exact hkey (Prod.ext hname heq)
          · exact hnot ⟨hname, hmem⟩

/-- **What the loop of `CreateTopic` sets**, when the topic has no replica states: a new state for
every partition, or none at all. -/
theorem assignReplicas_cases (hfresh : ∀ id, c.partitionStates.get (name, id) = none)
    (now : Nat) (order : List BrokerId) (replicationFactor partitions : Nat) :
    (partitions ≠ 0 ∧ c.getAliveBrokers now order ≠ [] ∧ replicationFactor = 0 ∧
      (Broker.assignReplicas now order replicationFactor name (List.range partitions) c).2 = c) ∨
    SetsStates now order replicationFactor name (List.range partitions) c c
      (Broker.assignReplicas now order replicationFactor name (List.range partitions) c).2 := by
  by_cases hpanic : c.getAliveBrokers now order ≠ [] ∧ replicationFactor = 0
  · cases partitions with
    | zero => exact .inr fun key => .inr ⟨fun h => List.not_mem_nil h.2, rfl⟩
    | succ n =>
      obtain ⟨e, he⟩ := (assignPartitionReplicas_error_iff 0).2 hpanic
      refine .inl ⟨Nat.succ_ne_zero n, hpanic.1, hpanic.2, ?_⟩
      rw [List.range_succ_eq_map, Broker.assignReplicas, he]
  · right
    have hok : ∀ id e, c.assignPartitionReplicas now order replicationFactor id ≠ .error e :=
      fun id e he => hpanic ((assignPartitionReplicas_error_iff id).1 ⟨e, he⟩)
    exact assignReplicas_loop hok _ c List.nodup_range rfl rfl rfl fun id _ => hfresh id

/-- The states of other topics stay. -/
theorem assignReplicas_others (hfresh : ∀ id, c.partitionStates.get (name, id) = none)
    (now : Nat) (order : List BrokerId) (replicationFactor partitions : Nat) {key : PartitionKey}
    (hkey : key.1 ≠ name) :
    (Broker.assignReplicas now order replicationFactor name (List.range
      partitions) c).2.partitionStates.get key = c.partitionStates.get key := by
  rcases assignReplicas_cases hfresh now order replicationFactor partitions with
    ⟨-, -, -, heq⟩ | hsets
  · rw [heq]
  · rcases hsets key with ⟨hname, -⟩ | ⟨-, heq⟩
    · exact absurd hname hkey
    · exact heq

end Assign

/-! ## What a request does -/

/-- A request that changes neither the topics nor the cluster metadata. -/
def Request.Reads : Request → Prop
  | .createTopic .. => False
  | .produce .. => False
  | .registerBroker .. => False
  | _ => True

/-- The answers of the file system to an append in the directory of a partition. -/
def StoredPartition.answers (t : Tree) (io : PartitionIo) (p : StoredPartition) : PartitionIo :=
  { io with create := unlessDir t p.dir p.partition.nextOffset io.create }

/-- The store in which a partition of a topic has been replaced, with its files. -/
def TopicStore.put (name : String) (topic : StoredTopic) (id : Nat) (p : StoredPartition)
    (t : Tree) (s : TopicStore) : TopicStore :=
  ⟨s.topics.insert name { topic with partitions := topic.partitions.set id p }, t⟩

/-- **What a request can do** to a broker. -/
inductive RequestStep (K : Crates) (config : BrokerConfig) (overflowChecks : Bool)
    (io : RequestIo) (b : Broker) : Request → Broker → Prop where
  | reads {request : Request} (h : request.Reads) : RequestStep K config overflowChecks io b request b
  | notCreated {name : String} {partitions : Nat} {e : GaffaError} {t : Tree}
      (h : b.store.createTopic io.create config.dataDir name partitions =
        (.error e, { b.store with tree := t })) :
      RequestStep K config overflowChecks io b (.createTopic name partitions)
        { b with store := { b.store with tree := t } }
  | created {name : String} {partitions : Nat} {t : Tree} (hnew : b.store.topics.get name = none)
      (h : b.store.createTopic io.create config.dataDir name partitions =
        (.ok (freshTopic config.dataDir name partitions),
          ⟨b.store.topics.insert name (freshTopic config.dataDir name partitions), t⟩)) :
      RequestStep K config overflowChecks io b (.createTopic name partitions)
        ⟨⟨b.store.topics.insert name (freshTopic config.dataDir name partitions), t⟩,
          (Broker.assignReplicas b.now io.brokers config.replicationFactor name
            (List.range partitions) b.cluster).2, b.now⟩
  | notFound {topic : String} {partition : Nat} {messages : List Message} {e : GaffaError}
      (h : b.store.find topic partition = .error e) :
      RequestStep K config overflowChecks io b (.produce topic partition messages) b
  | failed {topic : String} {partition : Nat} {messages : List Message} {found : StoredTopic}
      {p : StoredPartition} {e : Fault} (hfind : b.store.find topic partition = .ok (found, p))
      (h : (appendTo K io.append messages b.store.tree p).1 = .error e) :
      RequestStep K config overflowChecks io b (.produce topic partition messages)
        ⟨b.store.put topic found partition
            (appendTo K io.append messages b.store.tree p).2.2
            (appendTo K io.append messages b.store.tree p).2.1, b.cluster, b.now⟩
  | appended {topic : String} {partition : Nat} {messages : List Message} {found : StoredTopic}
      {p : StoredPartition} {base : Nat} (hfind : b.store.find topic partition = .ok (found, p))
      (h : (appendTo K io.append messages b.store.tree p).1 = .ok base) :
      RequestStep K config overflowChecks io b (.produce topic partition messages)
        ⟨b.store.put topic found partition
            (appendTo K io.append messages b.store.tree p).2.2
            (appendTo K io.append messages b.store.tree p).2.1,
          (b.cluster.updateLeaderOffset overflowChecks topic partition
            (base + messages.length)).2, b.now⟩
  | registered (brokerId : BrokerId) (host : String) (port : Nat) :
      RequestStep K config overflowChecks io b (.registerBroker brokerId host port)
        ⟨b.store, b.cluster.registerBroker (BrokerInfo.new b.now brokerId host port), b.now⟩

section Process

variable {K : Crates} {config : BrokerConfig} {overflowChecks : Bool} {io : RequestIo} {b : Broker}

theorem find_put {topic : String} {partition : Nat} {found : StoredTopic} {p : StoredPartition}
    (hfind : b.store.find topic partition = .ok (found, p)) (q : StoredPartition)
    (t : Tree) :
    (b.store.put topic found partition q t).find topic partition =
      .ok ({ found with partitions := found.partitions.set partition q }, q) := by
  obtain ⟨-, hp⟩ := find_ok_iff.1 hfind
  obtain ⟨hlt, -⟩ := List.getElem?_eq_some_iff.1 hp
  refine find_ok_iff.2 ⟨Table.get_insert_self .., ?_⟩
  exact List.getElem?_set_self hlt

/-- A successful append, with what it does to the partition's next offset. -/
theorem appendTo_base {io : PartitionIo} {messages : List Message} {t : Tree}
    {p : StoredPartition} {base : Nat} (h : (appendTo K io messages t p).1 = .ok base) :
    messages ≠ [] ∧ base = p.partition.nextOffset ∧ base + messages.length < 2 ^ 64 ∧
      (appendTo K io messages t p).2.2.partition.nextOffset = base + messages.length := by
  unfold appendTo at h ⊢
  simp only at h ⊢
  generalize hres : Partition.append K { io with
    create := unlessDir t p.dir p.partition.nextOffset io.create } messages (files t p.dir)
      p.partition = res at h ⊢
  obtain ⟨out, d, q⟩ := res
  simp only at h
  subst h
  obtain ⟨hbase, hnext, hlt, -⟩ := append_nextOffset hres
  exact ⟨(partition_append_ok hres).1, hbase, hlt, hnext⟩

theorem createTopic_step (name : String) (partitions : Nat) :
    RequestStep K config overflowChecks io b (.createTopic name partitions)
      (b.createTopic config io name partitions).2 := by
  unfold Broker.createTopic
  rcases createTopic_cases io.create config.dataDir name partitions b.store with
    ⟨-, e, heq⟩ | ⟨-, e, t, -, heq⟩ | ⟨hnew, ps, t, -, heq⟩
  · rw [heq]
    exact .notCreated heq
  · rw [heq]
    exact .notCreated heq
  · rw [heq]
    exact .created hnew heq

theorem produce_step (topic : String) (partition : Nat) {messages : List Message}
    (hlength : messages.length < 2 ^ 32) :
    RequestStep K config overflowChecks io b (.produce topic partition messages)
      (b.produce K overflowChecks io topic partition messages).2 := by
  unfold Broker.produce TopicStore.append
  cases hfind : b.store.find topic partition with
  | error e => exact .notFound hfind
  | ok found =>
    obtain ⟨found, p⟩ := found
    simp only
    cases happend : (appendTo K io.append messages b.store.tree p).1 with
    | error e =>
      cases e with
      | error e => exact .failed hfind happend
      | panic m => exact .failed hfind happend
    | ok base =>
      simp only
      rw [Nat.mod_eq_of_lt hlength,
        addWith_of_lt overflowChecks (appendTo_base happend).2.2.1]
      exact .appended hfind happend

/-- **A request** takes one of these steps. -/
theorem processRequest_step {request : Request} (h : request.Framed) :
    RequestStep K config overflowChecks io b request
      (b.processRequest K config overflowChecks io request).2 := by
  cases request with
  | createTopic name partitions => exact createTopic_step name partitions
  | produce topic partition messages =>
    have hlength : messages.length ≤ maxMessageSize := h.1
    unfold maxMessageSize at hlength
    exact produce_step topic partition (by omega)
  | registerBroker brokerId host port => exact .registered brokerId host port
  | _ => exact .reads trivial

/-- An append, failed or not, moves the next offset exactly if its first record was counted. -/
theorem appendTo_nextOffset_ne_iff (K : Crates) (io : PartitionIo) (messages : List Message)
    (t : Tree) (p : StoredPartition) :
    (appendTo K io messages t p).2.2.partition.nextOffset ≠ p.partition.nextOffset ↔
      Partition.Moves K (p.answers t io) messages p.partition :=
  append_nextOffset_ne_iff K (p.answers t io) messages (files t p.dir) p.partition

/-! ### Replica states -/

/-- An offset update changes one state. -/
theorem get_updateLeaderOffset (c : ClusterMetadata) (topic : String) (partition offset : Nat)
    (key : PartitionKey) :
    (c.updateLeaderOffset overflowChecks topic partition offset).2.partitionStates.get key =
      if key = (topic, partition) then (c.partitionStates.get key).map fun state =>
        (state.updateReplicaOffset overflowChecks c.brokerId offset c.isrLagThreshold).2
      else c.partitionStates.get key := by
  unfold ClusterMetadata.updateLeaderOffset ClusterMetadata.updateReplicaOffset
  cases hget : c.partitionStates.get (topic, partition) with
  | none =>
    simp only
    split
    · rename_i h
      rw [h, hget]
      rfl
    · rfl
  | some state =>
    simp only [Table.get_insert]
    split
    · rename_i h
      rw [h, hget]
      rfl
    · rfl

theorem updateLeaderOffset_frame (overflowChecks : Bool) (c : ClusterMetadata) (topic : String)
    (partition offset : Nat) :
    (c.updateLeaderOffset overflowChecks topic partition offset).2.brokers = c.brokers ∧
      (c.updateLeaderOffset overflowChecks topic partition offset).2.brokerId = c.brokerId ∧
      (c.updateLeaderOffset overflowChecks topic partition offset).2.brokerTimeout =
        c.brokerTimeout ∧
      (c.updateLeaderOffset overflowChecks topic partition offset).2.isrLagThreshold =
        c.isrLagThreshold := by
  unfold ClusterMetadata.updateLeaderOffset ClusterMetadata.updateReplicaOffset
  split <;> exact ⟨rfl, rfl, rfl, rfl⟩

/-- Only partitions of served topics have replica states. -/
def Broker.Known (b : Broker) : Prop :=
  ∀ key state, b.cluster.partitionStates.get key = some state →
    ∃ topic, b.store.topics.get key.1 = some topic ∧ key.2 < topic.numPartitions

/-- A topic that is not served has no replica states. -/
theorem Broker.Known.fresh (h : b.Known) {name : String} (hnew : b.store.topics.get name = none)
    (id : Nat) : b.cluster.partitionStates.get (name, id) = none := by
  cases hget : b.cluster.partitionStates.get (name, id) with
  | none => rfl
  | some state =>
    obtain ⟨topic, htopic, -⟩ := h (name, id) state hget
    rw [hnew] at htopic
    cases htopic

theorem Broker.Known.put (h : b.Known) {name : String} {id : Nat} {found : StoredTopic}
    {p : StoredPartition} (hfind : b.store.find name id = .ok (found, p)) (q : StoredPartition)
    (t : Tree) (now : Nat) : Broker.Known ⟨b.store.put name found id q t, b.cluster, now⟩ := by
  obtain ⟨hname, -⟩ := find_ok_iff.1 hfind
  intro key state hget
  obtain ⟨topic, htopic, hlt⟩ := h key state hget
  unfold TopicStore.put
  simp only [Table.get_insert]
  split
  · rename_i hkey
    rw [hkey, hname, Option.some_inj] at htopic
    subst htopic
    exact ⟨_, rfl, by rwa [StoredTopic.numPartitions, List.length_set]⟩
  · exact ⟨topic, htopic, hlt⟩

theorem numPartitions_freshTopic (dataDir : Location) (name : String) {partitions : Nat}
    (h : partitions < 2 ^ 32) : (freshTopic dataDir name partitions).numPartitions = partitions := by
  unfold StoredTopic.numPartitions freshTopic
  rw [List.length_map, List.length_range, Nat.mod_eq_of_lt h]

/-- **A request** keeps the replica states to the served topics. -/
theorem Broker.Known.request (h : b.Known) {request : Request} {b' : Broker}
    (hsized : request.Sized) (hstep : RequestStep K config overflowChecks io b request b') :
    b'.Known := by
  cases hstep with
  | reads _ => exact h
  | notCreated _ => exact h
  | @created name partitions t hnew _ =>
    intro key state hget
    by_cases hkey : key.1 = name
    · refine ⟨_, by rw [hkey]; exact Table.get_insert_self .., ?_⟩
      have hnostate : b.cluster.partitionStates.get key = none := by
        rw [← Prod.mk.eta (p := key), hkey]
        exact h.fresh hnew key.2
      rcases assignReplicas_cases (h.fresh hnew) b.now io.brokers config.replicationFactor
        partitions with ⟨-, -, -, heq⟩ | hsets
      · rw [heq, hnostate] at hget
        cases hget
      · rcases hsets key with ⟨-, hmem, -⟩ | ⟨-, heq⟩
        · rw [numPartitions_freshTopic _ _ hsized]
          exact List.mem_range.1 hmem
        · rw [heq, hnostate] at hget
          cases hget
    · rw [assignReplicas_others (h.fresh hnew) _ _ _ partitions hkey] at hget
      obtain ⟨topic, htopic, hlt⟩ := h key state hget
      exact ⟨topic, (Table.get_insert_ne _ hkey).trans htopic, hlt⟩
  | notFound _ => exact h
  | failed hfind _ => exact h.put hfind _ _ _
  | @appended topic partition messages found p base hfind _ =>
    intro key state hget
    simp only at hget
    rw [get_updateLeaderOffset] at hget
    have hold : ∃ old, b.cluster.partitionStates.get key = some old := by
      split at hget
      · obtain ⟨old, hold, -⟩ := Option.map_eq_some_iff.1 hget
        exact ⟨old, hold⟩
      · exact ⟨state, hget⟩
    obtain ⟨old, hold⟩ := hold
    exact h.put hfind _ _ b.now key old hold
  | registered _ _ _ => exact h

end Process

/-! ## What a step is -/

/-- **The elections of a health check** keep what every failure keeps. -/
theorem electionLoop_induct {overflowChecks : Bool} {alive : List BrokerId}
    {I : ClusterMetadata → Prop}
    (hfail : ∀ c failed order first, I c → c.partitionStates.Order order →
      (∀ k ∈ order, FirstOf failed first c k) →
        I (c.handleBrokerFailure overflowChecks failed order first).2) :
    ∀ {states : List PartitionReplicaState}
      {elections : Nat → List PartitionKey × (PartitionKey → BrokerId)} {c d : ClusterMetadata},
      I c → Broker.electionLoop overflowChecks alive states elections c = some d → I d
  | [], _, _, _, hc, h => by
    cases h
    exact hc
  | state :: states, elections, c, d, hc, h => by
    unfold Broker.electionLoop at h
    split at h
    · exact electionLoop_induct hfail hc h
    · obtain ⟨⟨horder, hfirst⟩, h⟩ := Option.ite_none_right_eq_some.1 h
      have hnext := hfail c state.leader _ _ hc horder hfirst
      split at h
      · rename_i e c' heq
        cases h
        rw [heq] at hnext
        exact hnext
      · rename_i leaders c' heq
        rw [heq] at hnext
        exact electionLoop_induct hfail hnext h

section Next

variable {K : Crates} {config : BrokerConfig} {overflowChecks : Bool} {b b' : Broker}

theorem next_request {request : Request} {io : RequestIo}
    (h : brokerNext K config overflowChecks b (.request request io) = some b') :
    request.Framed ∧ request.Sized ∧ io.Fits b ∧
      b' = (b.processRequest K config overflowChecks io request).2 ∧
      RequestStep K config overflowChecks io b request b' := by
  unfold brokerNext at h
  simp only at h
  split at h
  · rename_i hfits
    cases h
    exact ⟨hfits.1, hfits.2.1, hfits.2.2, rfl, processRequest_step hfits.1⟩
  · cases h

theorem next_healthCheck {io : HealthIo}
    (h : brokerNext K config overflowChecks b (.healthCheck io) = some b') :
    b.cluster.brokers.Order io.brokers ∧ b.cluster.partitionStates.Order io.states ∧
      ∃ c, b.checkBrokerHealth overflowChecks io = some c ∧ b' = { b with cluster := c } := by
  unfold brokerNext at h
  simp only at h
  split at h
  · rename_i horders
    obtain ⟨c, hc, rfl⟩ := Option.map_eq_some_iff.1 h
    exact ⟨horders.1, horders.2, c, hc, rfl⟩
  · cases h

theorem next_pass {now : Nat} (h : brokerNext K config overflowChecks b (.pass now) = some b') :
    b.now ≤ now ∧ b' = { b with now := now } := by
  unfold brokerNext at h
  simp only at h
  split at h
  · rename_i hle
    exact ⟨hle, (Option.some_inj.1 h).symm⟩
  · cases h

theorem next_restart {listing : Listing}
    (h : brokerNext K config overflowChecks b (.restart listing) = some b') :
    Lists b.store.tree listing ∧ Broker.new K config listing b.now b.store.tree = .ok b' := by
  unfold brokerNext at h
  simp only at h
  split at h
  · rename_i hlists
    split at h
    · rename_i b₁ hnew
      cases h
      exact ⟨hlists, hnew⟩
    · cases h
  · cases h

end Next

/-! ## What a start does -/

section Start

variable {K : Crates} {config : BrokerConfig} {listing : Listing} {now : Nat} {t : Tree} {b : Broker}

/-- An entry of the data directory from which a topic is opened. -/
def TopicOpens (K : Crates) (config : BrokerConfig) (listing : Listing) (t : Tree) (name : String)
    (topic : StoredTopic) : Prop :=
  isDir t config.dataDir = true ∧ name.toList ∈ listing config.dataDir ∧
    isDir t (config.dataDir ++ [name.toList]) = true ∧
    openTopic K listing t config.dataDir name = .ok topic

theorem open_topics_iff {store : TopicStore} (h : open_ K listing config.dataDir t = .ok store)
    (name : String) (topic : StoredTopic) :
    store.topics.get name = some topic ↔ TopicOpens K config listing t name topic := by
  unfold open_ at h
  split at h
  · rename_i hdir
    split at h
    · cases h
    · rename_i topics htopics
      cases h
      rw [openTopics_spec htopics]
      simp only [Table.get_empty]
      constructor
      · rintro (hopens | ⟨hnone, -⟩)
        · exact ⟨hdir, hopens⟩
        · cases hnone
      · rintro ⟨-, hopens⟩
        exact .inl hopens
  · rename_i hdir
    cases h
    exact iff_of_false (fun h => by cases h) (fun h => hdir h.1)

/-- **A start** serves the topics that open, and knows no replica states. -/
theorem new_spec (h : Broker.new K config listing now t = .ok b) :
    b.cluster = Broker.newCluster config now ∧ b.now = now ∧
      ∀ name topic, b.store.topics.get name = some topic ↔
        TopicOpens K config listing t name topic := by
  unfold Broker.new at h
  split at h
  · cases h
  · rename_i store hopen
    split at h
    · cases h
    · cases h
      refine ⟨rfl, rfl, fun name topic => ?_⟩
      have hiff := open_topics_iff hopen name topic
      exact hiff

end Start

/-! ## Runs from an empty data directory -/

/-- A configuration with the data directory `/d`. -/
def localConfig (brokerId replicationFactor : Nat) : BrokerConfig :=
  ⟨"localhost", 9092, [['d']], brokerId, replicationFactor, 10⟩

/-- The listing of the empty data directory. -/
def emptyListing : Listing := fun dir => if dir = [] then [['d']] else []

/-- A broker that starts on the empty data directory, and what it does at some events. -/
def localRun (config : BrokerConfig) (events : List BrokerEvent) :
    Option (Broker × List (BrokerEvent × Broker)) :=
  match Broker.new plainCrates config emptyListing 0 emptyDataDir with
  | .error _ => none
  | .ok b => (trace (brokerNext plainCrates config true) b events).map fun tr => (b, tr)

theorem localRun_spec {config : BrokerConfig} {events : List BrokerEvent} {b : Broker}
    {tr : List (BrokerEvent × Broker)} (h : localRun config events = some (b, tr)) :
    Broker.new plainCrates config emptyListing 0 emptyDataDir = .ok b ∧
      trace (brokerNext plainCrates config true) b events = some tr := by
  unfold localRun at h
  split at h
  · cases h
  · rename_i b' hnew
    obtain ⟨tr', htr, heq⟩ := Option.map_eq_some_iff.1 h
    cases heq
    exact ⟨hnew, htr⟩

/-- The orders in which a request finds the brokers, the topics and the partition states; no call
of the file system fails. -/
def RequestIo.inOrder (brokers : List BrokerId) (topics : List String)
    (states : List PartitionKey) (isr : PartitionKey → List BrokerId) : RequestIo :=
  ⟨fun _ => .done, .done, brokers, topics, states, isr, none⟩

end Gaffa
