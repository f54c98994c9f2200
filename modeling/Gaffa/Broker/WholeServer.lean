import Gaffa.Broker.BrokerServer
import Gaffa.Broker.OffsetLife
import Gaffa.Client.Commits

/-!
# The whole server

`process_request` of `broker/src/server.rs` for every request, with the topics, the cluster metadata,
the group coordinator and the offset manager that it hands them to; the two health checkers; restarts.
The coordinator only knows how many partitions a topic has from the `JoinGroup` requests that named it.

* `KnowsTopics.next`: what the coordinator knows of a topic is what the topic manager stores.
* `assignments_stored`: members are only ever assigned partitions that exist, and a member that joins
  is told of its part of all partitions that the topics it asks for then have.
-/

set_option autoImplicit false

namespace Gaffa

open FileSystem DirTree Transition TopicStore OffsetManager ConsumerGroup

/-- `BrokerServer`; `broker` has its topic manager and its cluster metadata, `offsets` its offset
manager. -/
structure BrokerServer where
  broker : Broker
  coordinator : GroupCoordinator
  offsets : OffsetStore

/-- What the processing of a request meets: the answers for the topics and the cluster metadata; clock,
fresh identifier and iteration order for the coordinator; and for the offset manager whether a file
can be created, what becomes of the writes, and how the map is iterated. -/
structure ServerIo where
  broker : RequestIo
  now : Nat
  uuid : String
  members : IterationOrder
  full : Bool
  persist : PersistIo
  offsets : List OffsetKey

/-- The loop of `JoinGroup` over the topics of the request. -/
def learnTopics (store : TopicStore) : List String → GroupCoordinator → GroupCoordinator
  | [], c => c
  | topic :: topics, c =>
    match store.getTopic topic with
    | .ok found => learnTopics store topics (c.updateTopicPartitions topic found.numPartitions)
    | .error _ => learnTopics store topics c

namespace BrokerServer

/-- `CommitOffset`. -/
def commitOffset (os : Os) (io : ServerIo) (groupId topic : String) (partition offset : Nat)
    (s : BrokerServer) : Response × BrokerServer :=
  let r := s.offsets.manager.commitOffset (if io.full then os.exhausted else os) io.persist
    ⟨groupId, topic, partition⟩ offset io.offsets s.offsets.files
  (match r.1 with
    | .ok _ => .commitOffsetSuccess groupId topic partition offset
    | .error e => .commitOffsetError e.display, { s with offsets := ⟨r.2.1, r.2.2⟩ })

/-- `process_request`: the response, none if the request panicked, and the server. -/
def processRequest (K : Crates) (config : BrokerConfig) (overflowChecks : Bool) (os : Os)
    (io : ServerIo) (s : BrokerServer) : Request → Option Response × BrokerServer
  | .joinGroup groupId memberId topics =>
    let r := processJoinGroup overflowChecks io.now io.uuid io.members groupId memberId topics
      (learnTopics s.broker.store topics s.coordinator)
    (r.1, { s with coordinator := r.2 })
  | .leaveGroup groupId memberId =>
    let r := processLeaveGroup overflowChecks io.members groupId memberId s.coordinator
    (r.1, { s with coordinator := r.2 })
  | .heartbeat groupId memberId =>
    let r := processHeartbeat io.now groupId memberId s.coordinator
    (some r.1, { s with coordinator := r.2 })
  | .commitOffset groupId topic partition offset =>
    let r := s.commitOffset os io groupId topic partition offset
    (some r.1, r.2)
  | .fetchOffset groupId topic partition =>
    (some (processFetchOffset groupId topic partition s.offsets.manager), s)
  | request =>
    let r := s.broker.processRequest K config overflowChecks io.broker request
    (r.1, { s with broker := r.2 })

end BrokerServer

/-- The call of the coordinator that a request makes. -/
def ServerIo.groupCall (io : ServerIo) : Request → Option GroupCall
  | .joinGroup groupId memberId topics =>
    some (.joinGroup io.now io.uuid io.members groupId memberId topics)
  | .leaveGroup groupId memberId => some (.leaveGroup io.members groupId memberId)
  | .heartbeat groupId memberId => some (.heartbeat io.now groupId memberId)
  | _ => none

/-- The coordinator as that call finds it. -/
def BrokerServer.informed (s : BrokerServer) : Request → GroupCoordinator
  | .joinGroup _ _ topics => learnTopics s.broker.store topics s.coordinator
  | _ => s.coordinator

/-- The orders in which a request iterates the offsets. -/
def ServerIo.IteratesOffsets (io : ServerIo) (s : BrokerServer) : Request → Prop
  | .commitOffset groupId topic partition offset =>
    (groupOffsets groupId
      (s.offsets.manager.offsets.insert ⟨groupId, topic, partition⟩ offset)).Order io.offsets
  | _ => True

/-- The orders are those of what is iterated, and the coordinator does not panic. -/
def ServerIo.Fits (overflowChecks : Bool) (io : ServerIo) (s : BrokerServer) (request : Request) :
    Prop :=
  io.broker.Fits s.broker ∧ io.IteratesOffsets s request ∧
  ∀ call ∈ io.groupCall request, call.Iterates (s.informed request) ∧
    panicked (call.perform overflowChecks (s.informed request)).1 = false

instance decidableIteratesOffsets (io : ServerIo) (s : BrokerServer) :
    ∀ request, Decidable (io.IteratesOffsets s request)
  | .commitOffset .. => inferInstanceAs (Decidable (Table.Order _ _))
  | .createTopic .. => isTrue trivial
  | .produce .. => isTrue trivial
  | .fetch .. => isTrue trivial
  | .getMetadata .. => isTrue trivial
  | .getPartitions .. => isTrue trivial
  | .listTopics => isTrue trivial
  | .joinGroup .. => isTrue trivial
  | .leaveGroup .. => isTrue trivial
  | .heartbeat .. => isTrue trivial
  | .fetchOffset .. => isTrue trivial
  | .registerBroker .. => isTrue trivial
  | .getClusterMetadata => isTrue trivial
  | .replicationFetch .. => isTrue trivial

instance decidableServerFits (overflowChecks : Bool) (io : ServerIo) (s : BrokerServer)
    (request : Request) : Decidable (io.Fits overflowChecks s request) :=
  inferInstanceAs (Decidable (_ ∧ _ ∧ ∀ call ∈ io.groupCall request, _))

/-- A request is processed, one of the health checkers ticks, time passes, the broker starts again. -/
inductive BrokerServerEvent where
  | request (request : Request) (io : ServerIo)
  | checkHeartbeats (now : String → Nat) (order : List String) (orders : String → IterationOrder)
  | checkBrokerHealth (io : HealthIo)
  | pass (now : Nat)
  | restart (listing : Listing) (offsets : List Name)

/-- `BrokerServer::new`, with the load of the offsets at the start of `run`. -/
def BrokerServer.start (broker : Broker) (files : Files) (dataDir : Location) (listing : List Name) :
    BrokerServer :=
  ⟨broker, GroupCoordinator.new brokerTimeout, ⟨(load files listing (new dataDir)).2, files⟩⟩

/-- The steps of the server. -/
def BrokerServer.next (K : Crates) (config : BrokerConfig) (overflowChecks : Bool) (os : Os)
    (s : BrokerServer) : BrokerServerEvent → Option BrokerServer
  | .request request io =>
    if request.Framed ∧ request.Sized ∧ io.Fits overflowChecks s request then
      some (s.processRequest K config overflowChecks os io request).2
    else none
  | .checkHeartbeats now order orders =>
    if (GroupCall.checkHeartbeats now order orders).Iterates s.coordinator ∧
        panicked (s.coordinator.checkHeartbeats overflowChecks now order orders).1 = false then
      some { s with coordinator := (s.coordinator.checkHeartbeats overflowChecks now order orders).2 }
    else none
  | .checkBrokerHealth io =>
    (brokerNext K config overflowChecks s.broker (.healthCheck io)).map fun b =>
      { s with broker := b }
  | .pass now =>
    (brokerNext K config overflowChecks s.broker (.pass now)).map fun b => { s with broker := b }
  | .restart listing offsets =>
    if (entries s.offsets.files s.offsets.manager.dataDir).Order offsets then
      (brokerNext K config overflowChecks s.broker (.restart listing)).map fun b =>
        .start b s.offsets.files s.offsets.manager.dataDir offsets
    else none

/-! ## What the coordinator knows of the topics -/

/-- The topic is stored, with so many partitions. -/
def HasPartitions (b : Broker) (topic : String) (count : Nat) : Prop :=
  ∃ found, b.store.topics.get topic = some found ∧ found.numPartitions = count

/-- The topic of the partition is stored, and the partition is one of it. -/
def Serves (b : Broker) (a : PartitionAssignment) : Prop :=
  ∃ count, HasPartitions b a.topic count ∧ a.partition < count

/-- A partition that is stored is found by `Produce` and `Fetch`. -/
theorem Serves.found {b : Broker} {a : PartitionAssignment} (h : Serves b a) :
    ∃ found p, b.store.find a.topic a.partition = .ok (found, p) := by
  obtain ⟨count, ⟨found, hget, rfl⟩, hlt⟩ := h
  have hlength : a.partition < found.partitions.length :=
    lt_of_lt_of_le hlt (Nat.mod_le _ _)
  exact ⟨found, _, find_ok_iff.2 ⟨hget, List.getElem?_eq_getElem hlength⟩⟩

/-- No request takes a topic away or changes how many partitions it has. -/
theorem RequestStep.hasPartitions {K : Crates} {config : BrokerConfig} {overflowChecks : Bool}
    {io : RequestIo} {b b' : Broker} {request : Request}
    (hstep : RequestStep K config overflowChecks io b request b') {topic : String} {count : Nat}
    (h : HasPartitions b topic count) : HasPartitions b' topic count := by
  have hput : ∀ {name : String} {id : Nat} {found : StoredTopic} {p : StoredPartition},
      b.store.find name id = .ok (found, p) → ∀ (q : StoredPartition) (t : Tree)
        (c : ClusterMetadata), HasPartitions ⟨b.store.put name found id q t, c, b.now⟩ topic count := by
    intro name id found p hfind q t c
    obtain ⟨hname, -⟩ := find_ok_iff.1 hfind
    obtain ⟨stored, hstored, hcount⟩ := h
    by_cases htopic : topic = name
    · subst htopic
      obtain rfl := Option.some_inj.1 (hname.symm.trans hstored)
      refine ⟨_, Table.get_insert_self .., ?_⟩
      rw [← hcount, StoredTopic.numPartitions, StoredTopic.numPartitions, List.length_set]
    · exact ⟨stored, (Table.get_insert_ne _ htopic).trans hstored, hcount⟩
  cases hstep with
  | reads _ => exact h
  | notCreated _ => exact h
  | @created name partitions t hnew _ =>
    obtain ⟨stored, hstored, hcount⟩ := h
    have htopic : topic ≠ name := by
      rintro rfl
      rw [hnew] at hstored
      cases hstored
    exact ⟨stored, (Table.get_insert_ne _ htopic).trans hstored, hcount⟩
  | notFound _ => exact h
  | failed hfind _ => exact hput hfind _ _ _
  | appended hfind _ => exact hput hfind _ _ _
  | registered _ _ _ => exact h

theorem learnTopics_groups (store : TopicStore) (topics : List String) (c : GroupCoordinator) :
    (learnTopics store topics c).groups = c.groups := by
  induction topics generalizing c with
  | nil => rfl
  | cons topic topics ih =>
    rw [learnTopics]
    split <;> exact ih _

/-- What the coordinator has learned is stored, or it knew it before. -/
theorem learnTopics_cases {store : TopicStore} {topics : List String} {c : GroupCoordinator}
    {topic : String} {count : Nat}
    (h : (learnTopics store topics c).topicPartitions.get topic = some count) :
    (∃ found, store.topics.get topic = some found ∧ found.numPartitions = count) ∨
      c.topicPartitions.get topic = some count := by
  induction topics generalizing c with
  | nil => exact .inr h
  | cons name names ih =>
    rw [learnTopics] at h
    split at h
    · rename_i found hfound
      rcases ih h with hstored | hknown
      · exact .inl hstored
      · rcases Table.get_insert_cases hknown with ⟨rfl, rfl⟩ | ⟨-, hknown⟩
        · refine .inl ⟨found, ?_, rfl⟩
          unfold TopicStore.getTopic at hfound
          split at hfound
          · rename_i hget
            cases hfound
            exact hget
          · cases hfound
        · exact .inr hknown
    · exact ih h

/-- The coordinator has learned what is stored of the topics. -/
theorem learnTopics_mem {store : TopicStore} {topics : List String} {topic : String}
    {found : StoredTopic} (hget : store.topics.get topic = some found) (c : GroupCoordinator)
    (hmem : topic ∈ topics ∨ c.topicPartitions.get topic = some found.numPartitions) :
    (learnTopics store topics c).topicPartitions.get topic = some found.numPartitions := by
  induction topics generalizing c with
  | nil =>
    rcases hmem with hmem | hmem
    · cases hmem
    · exact hmem
  | cons name names ih =>
    rw [learnTopics]
    by_cases hname : topic = name
    · subst hname
      have hfound : store.getTopic topic = .ok found := by
        unfold TopicStore.getTopic
        rw [hget]
      rw [hfound]
      exact ih _ (.inr (Table.get_insert_self ..))
    · have hmem' : topic ∈ names ∨ c.topicPartitions.get topic = some found.numPartitions := by
        simpa [hname] using hmem
      split
      · refine ih _ (hmem'.imp_right fun hknown => ?_)
        exact (Table.get_insert_ne _ hname).trans hknown
      · exact ih _ hmem'

theorem perform_topicPartitions {overflowChecks : Bool} {c : GroupCoordinator} {call : GroupCall}
    (h : ∀ topic count, call ≠ .updateTopicPartitions topic count) :
    (call.perform overflowChecks c).2.topicPartitions = c.topicPartitions := by
  cases call with
  | updateTopicPartitions topic count => exact absurd rfl (h topic count)
  | joinGroup now uuid order groupId memberId topics => rfl
  | leaveGroup order groupId memberId =>
    simp only [GroupCall.perform, GroupCoordinator.leaveGroup]
    repeat' split
    all_goals rfl
  | heartbeat now groupId memberId =>
    simp only [GroupCall.perform, GroupCoordinator.heartbeat]
    split <;> rfl
  | checkHeartbeats now order orders =>
    simp only [GroupCall.perform, GroupCoordinator.checkHeartbeats]
    split <;> rfl

/-- The groups own what their latest rebalance knew exactly once, and what the coordinator knows, or
knew then, of a topic is what is stored. -/
structure KnowsTopics (s : BrokerServer) (counts : String → Table String Nat) : Prop where
  owned : EveryGroupOwned ⟨s.coordinator, counts⟩
  current : ∀ topic count, s.coordinator.topicPartitions.get topic = some count →
    HasPartitions s.broker topic count
  past : ∀ id topic count, (counts id).get topic = some count → HasPartitions s.broker topic count

section Step

variable {K : Crates} {config : BrokerConfig} {overflowChecks : Bool} {os : Os} {s t : BrokerServer}
  {counts : String → Table String Nat}

/-- Whatever keeps the topics keeps what is known of them. -/
theorem KnowsTopics.broker (h : KnowsTopics s counts) {b : Broker}
    (hkeeps : ∀ topic count, HasPartitions s.broker topic count → HasPartitions b topic count) :
    KnowsTopics { s with broker := b } counts :=
  ⟨h.owned, fun topic count hget => hkeeps topic count (h.current topic count hget),
    fun id topic count hget => hkeeps topic count (h.past id topic count hget)⟩

theorem knowsTopics_start {broker : Broker} {offsets : OffsetStore} :
    KnowsTopics ⟨broker, GroupCoordinator.new brokerTimeout, offsets⟩ fun _ => Table.empty := by
  refine ⟨?_, ?_, ?_⟩
  · intro id g hget
    cases hget
  · intro topic count hget
    cases hget
  · intro id topic count hget
    cases hget

/-- A `JoinGroup` request tells the coordinator of its topics. -/
theorem KnowsTopics.informed (h : KnowsTopics s counts) (request : Request) :
    KnowsTopics { s with coordinator := s.informed request } counts := by
  cases request with
  | joinGroup groupId memberId topics =>
    refine ⟨?_, ?_, h.past⟩
    · intro id g hget
      simp only [BrokerServer.informed, learnTopics_groups] at hget
      exact h.owned id g hget
    · intro topic count hget
      rcases learnTopics_cases hget with hstored | hknown
      · exact hstored
      · exact h.current topic count hknown
  | _ => exact h

/-- The counts that the latest rebalances knew, after a call. -/
def countsAfter (c : GroupCoordinator) (call : GroupCall) (counts : String → Table String Nat)
    (id : String) : Table String Nat :=
  if call.rebalances c id then c.topicPartitions else counts id

/-- **A call of the coordinator**. -/
theorem KnowsTopics.call (h : KnowsTopics s counts) (call : GroupCall)
    (hcall : ∀ topic count, call ≠ .updateTopicPartitions topic count)
    (hiter : call.Iterates s.coordinator)
    (hret : panicked (call.perform overflowChecks s.coordinator).1 = false) :
    KnowsTopics { s with coordinator := (call.perform overflowChecks s.coordinator).2 }
      (countsAfter s.coordinator call counts) := by
  have hnext : groupNext overflowChecks ⟨s.coordinator, counts⟩ call =
      some ⟨(call.perform overflowChecks s.coordinator).2, countsAfter s.coordinator call counts⟩ := by
    unfold groupNext
    rw [if_pos ⟨hiter, hret⟩]
    rfl
  refine ⟨h.owned.next hnext, ?_, ?_⟩
  · intro topic count hget
    rw [perform_topicPartitions hcall] at hget
    exact h.current topic count hget
  · intro id topic count hget
    unfold countsAfter at hget
    split at hget
    · exact h.current topic count hget
    · exact h.past id topic count hget

/-- What a request does to the server besides what it answers. -/
theorem processRequest_cases (K : Crates) (config : BrokerConfig) (overflowChecks : Bool) (os : Os)
    (s : BrokerServer) (request : Request) (io : ServerIo) :
    (∃ call, io.groupCall request = some call ∧
      (s.processRequest K config overflowChecks os io request).2 =
        { s with coordinator := (call.perform overflowChecks (s.informed request)).2 }) ∨
    (∃ offsets, (s.processRequest K config overflowChecks os io request).2 =
      { s with offsets := offsets }) ∨
    (s.processRequest K config overflowChecks os io request).2 =
      { s with
        broker := (s.broker.processRequest K config overflowChecks io.broker request).2 } := by
  cases request with
  | joinGroup groupId memberId topics => exact .inl ⟨_, rfl, rfl⟩
  | leaveGroup groupId memberId => exact .inl ⟨_, rfl, rfl⟩
  | heartbeat groupId memberId => exact .inl ⟨_, rfl, rfl⟩
  | commitOffset groupId topic partition offset => exact .inr (.inl ⟨_, rfl⟩)
  | fetchOffset groupId topic partition => exact .inr (.inl ⟨s.offsets, rfl⟩)
  | _ => exact .inr (.inr rfl)

theorem groupCall_ne_update {io : ServerIo} {request : Request} {call : GroupCall}
    (h : io.groupCall request = some call) (topic : String) (count : Nat) :
    call ≠ .updateTopicPartitions topic count := by
  cases request <;> cases h <;> nofun

theorem KnowsTopics.request (h : KnowsTopics s counts) {request : Request} {io : ServerIo}
    (hframed : request.Framed) (hfits : io.Fits overflowChecks s request) :
    ∃ counts', KnowsTopics (s.processRequest K config overflowChecks os io request).2 counts' := by
  rcases processRequest_cases K config overflowChecks os s request io with
    ⟨call, hcall, heq⟩ | ⟨offsets, heq⟩ | heq
  · rw [heq]
    obtain ⟨hiter, hret⟩ := hfits.2.2 call hcall
    exact ⟨_, (h.informed request).call call (groupCall_ne_update hcall) hiter hret⟩
  · rw [heq]
    exact ⟨counts, h.owned, h.current, h.past⟩
  · rw [heq]
    exact ⟨counts, h.broker fun _ _ hhas => (processRequest_step hframed).hasPartitions hhas⟩

/-- **Every step** keeps what the coordinator knows to what is stored. -/
theorem KnowsTopics.next (h : KnowsTopics s counts) {e : BrokerServerEvent}
    (hstep : s.next K config overflowChecks os e = some t) : ∃ counts', KnowsTopics t counts' := by
  cases e with
  | request request io =>
    simp only [BrokerServer.next, Option.ite_none_right_eq_some, Option.some.injEq] at hstep
    obtain ⟨⟨hframed, -, hfits⟩, rfl⟩ := hstep
    exact h.request hframed hfits
  | checkHeartbeats now order orders =>
    simp only [BrokerServer.next, Option.ite_none_right_eq_some, Option.some.injEq] at hstep
    obtain ⟨⟨hiter, hret⟩, rfl⟩ := hstep
    exact ⟨_, h.call (.checkHeartbeats now order orders) nofun hiter hret⟩
  | checkBrokerHealth io =>
    obtain ⟨b, hb, rfl⟩ := Option.map_eq_some_iff.1 hstep
    obtain ⟨-, -, c, -, rfl⟩ := next_healthCheck hb
    exact ⟨counts, h.broker fun _ _ hhas => hhas⟩
  | pass now =>
    obtain ⟨b, hb, rfl⟩ := Option.map_eq_some_iff.1 hstep
    obtain ⟨-, rfl⟩ := next_pass hb
    exact ⟨counts, h.broker fun _ _ hhas => hhas⟩
  | restart listing offsets =>
    simp only [BrokerServer.next, Option.ite_none_right_eq_some, Option.map_eq_some_iff] at hstep
    obtain ⟨-, b, -, rfl⟩ := hstep
    exact ⟨_, knowsTopics_start⟩

/-- Members are only assigned partitions that are stored. -/
theorem KnowsTopics.serves (h : KnowsTopics s counts) {groupId id : String} {g : ConsumerGroup}
    {m : GroupMember} (hg : s.coordinator.groups.get groupId = some g)
    (hm : g.members.get id = some m) {a : PartitionAssignment} (ha : a ∈ m.assignments) :
    Serves s.broker a := by
  obtain ⟨-, count, hcount, hlt⟩ := ((h.owned groupId g hg).cover a).1 ⟨id, m, hm, ha⟩
  exact ⟨count, h.past groupId a.topic count hcount, hlt⟩

/-! ## Joining -/

/-- What the answer to a `JoinGroup` request says of the group. -/
structure Joined (t : BrokerServer) (groupId memberId : String) (topics : List String)
    (assignments : List PartitionAssignment) (g : ConsumerGroup) : Prop where
  group : t.coordinator.groups.get groupId = some g
  member : ∃ m, g.members.get memberId = some m ∧ m.topics = topics ∧ m.assignments = assignments
  covered : ∀ a : PartitionAssignment, a.topic ∈ topics →
    (Serves t.broker a ↔ ∃ id m, g.members.get id = some m ∧ a ∈ m.assignments)
  exclusive : ∀ id id' m m', g.members.get id = some m → g.members.get id' = some m' → id ≠ id' →
    ∀ a ∈ m.assignments, a ∉ m'.assignments

theorem joinGroupSuccess_eq {now : Nat} {uuid : String} {order : IterationOrder}
    {groupId group id : String} {memberId : Option String} {topics : List String}
    {c : GroupCoordinator} {assignments : List PartitionAssignment}
    (h : (processJoinGroup overflowChecks now uuid order groupId memberId topics c).1 =
      some (.joinGroupSuccess group id assignments)) :
    group = groupId ∧ (c.joinGroup overflowChecks now uuid order groupId memberId topics).1 =
      .ok (id, assignments) := by
  unfold processJoinGroup respond at h
  simp only at h
  split at h
  · rename_i r hr
    cases h
    exact ⟨rfl, hr⟩
  · cases h
  · cases h

/-- A `join_group` that succeeds returns what the member is assigned. -/
theorem joinGroup_ok {now : Nat} {uuid : String} {order : IterationOrder} {groupId id : String}
    {memberId : Option String} {topics : List String} {c : GroupCoordinator}
    {assignments : List PartitionAssignment}
    (hiter : (GroupCall.joinGroup now uuid order groupId memberId topics).Iterates c)
    (h : (c.joinGroup overflowChecks now uuid order groupId memberId topics).1 =
      .ok (id, assignments)) :
    ∃ g m, (c.joinGroup overflowChecks now uuid order groupId memberId topics).2.groups.get groupId =
        some g ∧
      g.members.get id = some m ∧ m.topics = topics ∧ m.assignments = assignments := by
  unfold GroupCoordinator.joinGroup at h ⊢
  obtain ⟨⟨⟩, hok, heq⟩ := Table.except_map_ok h
  obtain ⟨rfl, rfl⟩ := Prod.mk.inj heq
  have hmember := rebalance_spec hiter hok (GroupCoordinator.joinId uuid groupId memberId)
  have hself : (c.joined now groupId (GroupCoordinator.joinId uuid groupId memberId)
      topics).members.get (GroupCoordinator.joinId uuid groupId memberId) =
      some ⟨GroupCoordinator.joinId uuid groupId memberId, topics, now, []⟩ :=
    Table.get_insert_self ..
  rw [hself, Option.map_some] at hmember
  exact ⟨_, _, Table.get_insert_self .., hmember, rfl, by rw [hmember]; rfl⟩

/-- **A member that joins** is told of its part of the partitions that its topics have. -/
theorem KnowsTopics.join (h : KnowsTopics s counts) {io : ServerIo} {groupId group id : String}
    {memberId : Option String} {topics : List String} {assignments : List PartitionAssignment}
    (hfits : io.Fits overflowChecks s (.joinGroup groupId memberId topics))
    (hanswer : (s.processRequest K config overflowChecks os io
      (.joinGroup groupId memberId topics)).1 = some (.joinGroupSuccess group id assignments)) :
    ∃ g, Joined (s.processRequest K config overflowChecks os io
      (.joinGroup groupId memberId topics)).2 group id topics assignments g := by
  obtain ⟨rfl, hok⟩ := joinGroupSuccess_eq hanswer
  obtain ⟨hiter, hret⟩ := hfits.2.2 _ rfl
  have hinformed := h.informed (.joinGroup group memberId topics)
  have hne : ∀ topic count, GroupCall.joinGroup io.now io.uuid io.members group memberId topics ≠
      .updateTopicPartitions topic count := nofun
  have howned := (hinformed.call _ hne hiter hret).owned
  obtain ⟨g, m, hg, hm, htopics, hassigned⟩ := joinGroup_ok hiter hok
  have honce := howned group g hg
  have hcounts : countsAfter (s.informed (.joinGroup group memberId topics))
      (.joinGroup io.now io.uuid io.members group memberId topics) counts group =
      (s.informed (.joinGroup group memberId topics)).topicPartitions :=
    if_pos (decide_eq_true rfl)
  simp only [hcounts] at honce
  refine ⟨g, hg, ⟨m, hm, htopics, hassigned⟩, fun a ha => ?_, honce.disjoint⟩
  rw [honce.cover]
  constructor
  · rintro ⟨count, ⟨found, hfound, rfl⟩, hlt⟩
    exact ⟨⟨id, m, hm, htopics ▸ ha⟩, _, learnTopics_mem hfound _ (.inl ha), hlt⟩
  · rintro ⟨-, count, hcount, hlt⟩
    exact ⟨count, hinformed.current _ _ hcount, hlt⟩

end Step

/-! ## Runs -/

/-- Whatever a member of a group is assigned is found by `Produce` and `Fetch`. -/
def AssignmentsFound (s : BrokerServer) : Prop :=
  ∀ groupId g id m, s.coordinator.groups.get groupId = some g → g.members.get id = some m →
    ∀ a ∈ m.assignments, ∃ found p, s.broker.store.find a.topic a.partition = .ok (found, p)

/-- A `JoinGroup` request that is answered by success leaves a group in which each partition of the
topics that it names is assigned to one member, and says what the new member is assigned. -/
def JoinsCover (K : Crates) (config : BrokerConfig) (overflowChecks : Bool) (os : Os)
    (s : BrokerServer) (e : BrokerServerEvent) (t : BrokerServer) : Prop :=
  ∀ io groupId memberId topics group id assignments,
    e = .request (.joinGroup groupId memberId topics) io →
    (s.processRequest K config overflowChecks os io (.joinGroup groupId memberId topics)).1 =
      some (.joinGroupSuccess group id assignments) →
    ∃ g, Joined t group id topics assignments g

/-- **Assignments are real**, in every run of the whole server from any start, over every restart:
whatever a member is assigned exists, and when a member joins, each stored partition of its topics
has exactly one owner in the group. -/
theorem assignments_stored {K : Crates} {config : BrokerConfig} {overflowChecks : Bool} {os : Os}
    (broker : Broker) (files : Files) (dataDir : Location) (listing : List Name)
    {tr : List (BrokerServerEvent × BrokerServer)}
    (hrun : Run (Steps (BrokerServer.next K config overflowChecks os))
      (.start broker files dataDir listing) tr) :
    Throughout AssignmentsFound (.start broker files dataDir listing) tr ∧
      EachStep (JoinsCover K config overflowChecks os) (.start broker files dataDir listing) tr := by
  have hinit : ∃ counts, KnowsTopics (.start broker files dataDir listing) counts :=
    ⟨_, knowsTopics_start⟩
  have hnext : ∀ s e t, (∃ counts, KnowsTopics s counts) →
      Steps (BrokerServer.next K config overflowChecks os) s e t →
        ∃ counts, KnowsTopics t counts := by
    rintro s e t ⟨counts, h⟩ hstep
    exact h.next hstep
  constructor
  · refine (throughout_of_inductive hnext hinit hrun).mono ?_
    rintro s ⟨counts, h⟩ groupId g id m hg hm a ha
    exact (h.serves hg hm ha).found
  · refine eachStep_of_inductive hnext ?_ hinit hrun
    rintro s e t ⟨counts, h⟩ hstep io groupId memberId topics group id assignments rfl hanswer
    unfold Steps BrokerServer.next at hstep
    simp only [Option.ite_none_right_eq_some, Option.some.injEq] at hstep
    obtain ⟨⟨-, -, hfits⟩, rfl⟩ := hstep
    exact h.join hfits hanswer

/-- What a request meets that finds the topic `a` with two partitions, or no topic, and these members of
a group. -/
def ServerIo.plain (topics : List String) (members : List String) (now : Nat) : ServerIo :=
  ⟨RequestIo.inOrder [1] topics (topics.flatMap fun topic => [(topic, 0), (topic, 1)]) fun _ => [1],
    now, "x", ⟨topics, members⟩, false, .done, []⟩

/-- Two consumers share the partitions of a topic, until one of them is silent for too long. -/
def sharedTopic : List BrokerServerEvent :=
  [.request (.createTopic "a" 2) (.plain [] [] 0),
    .request (.joinGroup "g" (some "m") ["a"]) (.plain ["a"] ["m"] 1),
    .request (.joinGroup "g" (some "n") ["a"]) (.plain ["a"] ["n", "m"] 2),
    .checkHeartbeats (fun _ => 3) ["g"] (fun _ => ⟨["a"], ["n", "m"]⟩),
    .checkHeartbeats (fun _ => brokerTimeout + 2) ["g"] (fun _ => ⟨["a"], ["n"]⟩)]

/-- A run of the whole server on the empty data directory. -/
def serverRun (events : List BrokerServerEvent) :
    Option (Broker × List (BrokerServerEvent × BrokerServer)) :=
  match Broker.new plainCrates (localConfig 1 1) emptyListing 0 emptyDataDir with
  | .error _ => none
  | .ok b => (trace (BrokerServer.next plainCrates (localConfig 1 1) true plainOs)
      (.start b Table.empty [['d'], ['o']] []) events).map fun tr => (b, tr)

theorem assignments_stored_shared : ∃ b tr, serverRun sharedTopic = some (b, tr) ∧
    Throughout AssignmentsFound (.start b Table.empty [['d'], ['o']] []) tr := by
  obtain ⟨⟨b, tr⟩, hrun⟩ := Option.isSome_iff_exists.1
    (show (serverRun sharedTopic).isSome = true by decide +kernel)
  refine ⟨b, tr, hrun, ?_⟩
  unfold serverRun at hrun
  split at hrun
  · cases hrun
  · obtain ⟨tr', htr, heq⟩ := Option.map_eq_some_iff.1 hrun
    cases heq
    exact (assignments_stored b Table.empty [['d'], ['o']] [] (run_of_trace htr)).1

end Gaffa
