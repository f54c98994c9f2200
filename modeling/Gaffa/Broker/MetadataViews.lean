import Gaffa.Broker.SelfCheck

/-!
# Two views of the metadata

`GetMetadata` reports every partition as `PartitionMetadata::new` makes it, `GetClusterMetadata`
reports the replica states.

* `electionLoop_shown`: a health check that finds broker 0 dead elects it again, until an epoch
  overflows.
* `views_agree_iff`: the views agree throughout exactly the runs whose creations assign broker 0
  alone, whose appends do not move an offset, whose elections do not overflow and whose starts find
  no partition.
-/

set_option autoImplicit false

namespace Gaffa

open Transition TopicStore PartitionReplicaState ClusterMetadata

variable {K : Crates} {config : BrokerConfig} {overflowChecks : Bool}

/-! ## Elections of broker 0 -/

/-- A replica state that is as `PartitionMetadata::new` reports it. -/
def PartitionReplicaState.Shown (s : PartitionReplicaState) : Prop :=
  s.leader = 0 ∧ s.replicas = [0] ∧ s.isr = {0} ∧ s.highWatermark = 0

/-- The metadata are the same up to the epochs. -/
structure Renewed (c d : ClusterMetadata) : Prop where
  brokers : d.brokers = c.brokers
  brokerId : d.brokerId = c.brokerId
  brokerTimeout : d.brokerTimeout = c.brokerTimeout
  isrLagThreshold : d.isrLagThreshold = c.isrLagThreshold
  states : ∀ key, (c.partitionStates.get key = none ∧ d.partitionStates.get key = none) ∨
    ∃ state epoch, c.partitionStates.get key = some state ∧ epoch < 2 ^ 32 ∧
      d.partitionStates.get key = some { state with leaderEpoch := epoch }

section Election

variable {s : PartitionReplicaState} {c d : ClusterMetadata} {alive : List BrokerId}

/-- Broker 0 is its own successor: the state is the same, in the next epoch. -/
theorem failoverEntry_shown (overflowChecks : Bool) (first : PartitionKey → BrokerId)
    (k : PartitionKey) (h : s.Shown) :
    (∃ e, addWith overflowChecks 32 s.leaderEpoch 1 = .error e ∧
      failoverEntry overflowChecks 0 first k s = (.error e, { s with isr := ∅ })) ∨
    ∃ epoch out, addWith overflowChecks 32 s.leaderEpoch 1 = .ok epoch ∧
      failoverEntry overflowChecks 0 first k s = (.ok out, { s with leaderEpoch := epoch }) := by
  obtain ⟨topic, partition, leader, replicas, isr, offsets, highWatermark, epoch⟩ := s
  obtain ⟨hleader, hreplicas, hisr, -⟩ := h
  simp only at hleader hreplicas hisr
  subst hleader hreplicas hisr
  have herase : ({0} : Finset BrokerId).erase 0 = ∅ := by decide
  simp only [failoverEntry, failover, herase, electNewLeader, bumpEpoch, if_true]
  cases hadd : addWith overflowChecks 32 epoch 1 with
  | error e => exact .inl ⟨e, rfl, rfl⟩
  | ok next => exact .inr ⟨next, _, rfl, rfl⟩

/-- **A failure of broker 0** puts every partition into the next epoch, if none is in the last. -/
theorem failure_shown (overflowChecks : Bool)
    (hshown : ∀ key s, c.partitionStates.get key = some s → s.Shown)
    {order : List PartitionKey} (horder : c.partitionStates.Order order)
    (first : PartitionKey → BrokerId) :
    (overflowChecks = true ∧ (∃ e, (c.handleBrokerFailure overflowChecks 0 order first).1 =
        .error e) ∧
      ∃ key s, c.partitionStates.get key = some s ∧ 2 ^ 32 ≤ s.leaderEpoch + 1 ∧
        (c.handleBrokerFailure overflowChecks 0 order first).2.partitionStates.get key =
          some { s with isr := ∅ }) ∨
    ((∃ leaders, (c.handleBrokerFailure overflowChecks 0 order first).1 = .ok leaders) ∧
      (overflowChecks = true → ∀ key s, c.partitionStates.get key = some s →
        s.leaderEpoch + 1 < 2 ^ 32) ∧
      ∀ key, (c.handleBrokerFailure overflowChecks 0 order first).2.partitionStates.get key =
        (c.partitionStates.get key).map fun s =>
          { s with leaderEpoch := (s.leaderEpoch + 1) % 2 ^ 32 }) := by
  unfold handleBrokerFailure
  simp only
  cases hloop : (Table.forEachMut (failoverEntry overflowChecks 0 first) order
      c.partitionStates).1 with
  | error e =>
    left
    obtain ⟨key, -, s, hget, hbody, hstop⟩ := Table.stopped_of_forEachMut horder.nodup hloop
    rcases failoverEntry_shown overflowChecks first key (hshown key s hget) with
      ⟨e', hadd, hentry⟩ | ⟨epoch, out, -, hentry⟩
    · rw [hentry] at hstop
      obtain ⟨hchecks, hle⟩ := (addWith_error_iff overflowChecks 32 s.leaderEpoch 1).1 ⟨e', hadd⟩
      exact ⟨hchecks, ⟨e, rfl⟩, key, s, hget, hle, hstop⟩
    · rw [hentry] at hbody
      cases hbody
  | ok outs =>
    have hentries : ∀ key s, c.partitionStates.get key = some s → ∃ out,
        addWith overflowChecks 32 s.leaderEpoch 1 = .ok ((s.leaderEpoch + 1) % 2 ^ 32) ∧
        failoverEntry overflowChecks 0 first key s =
          (.ok out, { s with leaderEpoch := (s.leaderEpoch + 1) % 2 ^ 32 }) := by
      intro key s hget
      obtain ⟨out, hbody⟩ :=
        Table.body_of_ok horder.nodup hloop (horder.mem_iff.2 ⟨s, hget⟩) hget
      rcases failoverEntry_shown overflowChecks first key (hshown key s hget) with
        ⟨e', -, hentry⟩ | ⟨epoch, out', hadd, hentry⟩
      · rw [hentry] at hbody
        cases hbody
      · obtain rfl := addWith_ok_mod hadd
        exact ⟨out', hadd, hentry⟩
    refine .inr ⟨⟨_, rfl⟩, ?_, ?_⟩
    · intro hchecks key s hget
      obtain ⟨-, hadd, -⟩ := hentries key s hget
      by_contra hge
      obtain ⟨e, herror⟩ := (addWith_error_iff overflowChecks 32 s.leaderEpoch 1).2
        ⟨hchecks, Nat.le_of_not_lt hge⟩
      rw [hadd] at herror
      cases herror
    · intro key
      cases hget : c.partitionStates.get key with
      | none =>
        have hmem : key ∉ order := fun hmem => by
          obtain ⟨s, hs⟩ := horder.mem_iff.1 hmem
          rw [hget] at hs
          cases hs
        rw [Table.get_forEachMut_of_not_mem hmem, hget]
        rfl
      | some s =>
        obtain ⟨out, -, hentry⟩ := hentries key s hget
        rw [Table.get_forEachMut_of_ok horder.nodup hloop (horder.mem_iff.2 ⟨s, hget⟩), hget,
          Option.map_some, hentry]
        rfl

theorem Renewed.refl (hepoch : ∀ key s, c.partitionStates.get key = some s →
    s.leaderEpoch < 2 ^ 32) : Renewed c c := by
  refine ⟨rfl, rfl, rfl, rfl, fun key => ?_⟩
  cases hget : c.partitionStates.get key with
  | none => exact .inl ⟨rfl, rfl⟩
  | some s => exact .inr ⟨s, s.leaderEpoch, rfl, hepoch key s hget, rfl⟩

/-- Metadata that are the same as the next ones are the same. -/
theorem Renewed.after {c₁ : ClusterMetadata} (h : Renewed c₁ d)
    (hframe : c₁ = { c with partitionStates := c₁.partitionStates })
    (hstates : ∀ key, c₁.partitionStates.get key = (c.partitionStates.get key).map fun s =>
      { s with leaderEpoch := (s.leaderEpoch + 1) % 2 ^ 32 }) : Renewed c d := by
  refine ⟨by rw [h.brokers, hframe], by rw [h.brokerId, hframe], by rw [h.brokerTimeout, hframe],
    by rw [h.isrLagThreshold, hframe], fun key => ?_⟩
  rcases h.states key with ⟨hnone, hd⟩ | ⟨s₁, epoch, hsome, hlt, hd⟩
  · rw [hstates, Option.map_eq_none_iff] at hnone
    exact .inl ⟨hnone, hd⟩
  · rw [hstates, Option.map_eq_some_iff] at hsome
    obtain ⟨s, hget, rfl⟩ := hsome
    exact .inr ⟨s, epoch, hget, hlt, hd⟩

/-- **The elections of a health check** that finds broker 0 dead: one for every state that it has
read, each of all partitions. -/
theorem electionLoop_shown (halive : 0 ∉ alive) : ∀ {states : List PartitionReplicaState}
    {elections : Nat → List PartitionKey × (PartitionKey → BrokerId)} {c d : ClusterMetadata},
    (∀ s ∈ states, s.leader = 0) →
    (∀ key s, c.partitionStates.get key = some s → s.Shown ∧ s.leaderEpoch < 2 ^ 32) →
    Broker.electionLoop overflowChecks alive states elections c = some d →
    (overflowChecks = true ∧ (∃ key s, c.partitionStates.get key = some s ∧
        2 ^ 32 ≤ s.leaderEpoch + states.length) ∧
      ∃ key s s', c.partitionStates.get key = some s ∧ d.partitionStates.get key = some s' ∧
        s'.isr = ∅) ∨
    ((overflowChecks = true → ∀ key s, c.partitionStates.get key = some s →
        s.leaderEpoch + states.length < 2 ^ 32) ∧ Renewed c d)
  | [], _, c, d, _, hshown, h => by
    cases h
    exact .inr ⟨fun _ key s hget => (hshown key s hget).2,
      Renewed.refl fun key s hget => (hshown key s hget).2⟩
  | state :: states, elections, c, d, hleader, hshown, h => by
    obtain ⟨hstate, hrest⟩ := List.forall_mem_cons.1 hleader
    rw [Broker.electionLoop, hstate, if_neg halive] at h
    split at h
    · rename_i hfits
      obtain ⟨horder, -⟩ := hfits
      rcases failure_shown overflowChecks (fun key s hget => (hshown key s hget).1) horder
        (elections 0).2 with
        ⟨hchecks, ⟨e, he⟩, key, s, hget, hle, hstop⟩ | ⟨⟨leaders, hl⟩, hepochs, hstates⟩
      · left
        split at h
        · rename_i e' c₁ heq
          cases h
          rw [heq] at hstop
          refine ⟨hchecks, ⟨key, s, hget, ?_⟩, key, s, _, hget, hstop, rfl⟩
          rw [List.length_cons]
          omega
        · rename_i heq
          rw [heq] at he
          cases he
      · split at h
        · rename_i heq
          rw [heq] at hl
          cases hl
        · rename_i leaders' c₁ heq
          have hframe : c₁ = { c with partitionStates := c₁.partitionStates } := by
            obtain rfl : _ = c₁ := congrArg Prod.snd heq
            rfl
          rw [heq] at hstates
          simp only at hstates
          have hshown₁ : ∀ key s, c₁.partitionStates.get key = some s →
              s.Shown ∧ s.leaderEpoch < 2 ^ 32 := by
            intro key s₁ hget₁
            rw [hstates, Option.map_eq_some_iff] at hget₁
            obtain ⟨s, hget, rfl⟩ := hget₁
            exact ⟨(hshown key s hget).1, Nat.mod_lt _ (Nat.two_pow_pos 32)⟩
          rcases electionLoop_shown halive hrest hshown₁ h with
            ⟨hchecks, ⟨key, s₁, hget₁, hle⟩, key', s₂, s', hget₂, hget', hempty⟩ | ⟨hlt, hrenewed⟩
          · left
            rw [hstates, Option.map_eq_some_iff] at hget₁ hget₂
            obtain ⟨s, hget, rfl⟩ := hget₁
            obtain ⟨s₀, hget₀, -⟩ := hget₂
            refine ⟨hchecks, ⟨key, s, hget, ?_⟩, key', s₀, s', hget₀, hget', hempty⟩
            have hmod := Nat.mod_le (s.leaderEpoch + 1) (2 ^ 32)
            rw [List.length_cons]
            simp only at hle
            omega
          · right
            refine ⟨?_, hrenewed.after hframe hstates⟩
            intro hchecks key s hget
            have hlt₁ := hlt hchecks key _ (by rw [hstates, hget]; rfl)
            simp only [Nat.mod_eq_of_lt (hepochs hchecks key s hget)] at hlt₁
            rw [List.length_cons]
            omega
    · cases h

end Election

/-! ## Offset updates -/

section Update

variable {s : PartitionReplicaState} {id : BrokerId} {offset lag : Nat}

/-- **An offset update** that does not panic changes the ISR or moves the high watermark. -/
theorem update_shown_iff (overflowChecks : Bool) (h : s.Shown) (hpos : 0 < offset)
    (hzero : id ≠ 0 → s.replicaOffsets.get 0 = some 0) :
    (s.updateReplicaOffset overflowChecks id offset lag).2.Shown ↔
      overflowChecks = true ∧ 2 ^ 64 ≤ offset + lag := by
  obtain ⟨hleader, hreplicas, hisr, hhigh⟩ := h
  have htest := lagTest_error_iff overflowChecks offset lag (s.record id offset).leaderOffset
  rcases updateReplicaOffset_cases overflowChecks id offset lag s with
    ⟨e, herror, heq⟩ | ⟨hok, heq⟩ | ⟨hok, heq⟩
  · rw [heq]
    exact iff_of_true ⟨hleader, hreplicas, hisr, hhigh⟩ (htest.1 ⟨e, herror⟩)
  · rw [heq]
    refine iff_of_false ?_ ?_
    · rintro ⟨-, -, hisr', hhigh'⟩
      rw [updateHighWatermark_isr] at hisr'
      simp only at hisr'
      have hmem : id ∈ ({0} : Finset BrokerId) := hisr' ▸ Finset.mem_insert_self id s.isr
      obtain rfl := Finset.mem_singleton.1 hmem
      -- the watermark is the new offset of broker 0
      obtain ⟨b, hb, hoffset⟩ := exists_highWatermark
        (s := { s.record 0 offset with isr := insert 0 s.isr }) (Finset.insert_ne_empty 0 s.isr) (by
          intro b hb
          simp only at hb
          rw [hisr', Finset.mem_singleton] at hb
          exact ⟨offset, by rw [hb]; exact (record_get s 0 offset 0).trans (if_pos rfl)⟩)
      simp only at hb hoffset
      rw [hisr', Finset.mem_singleton] at hb
      rw [hhigh', hb, record_get, if_pos rfl] at hoffset
      cases hoffset
      exact Nat.lt_irrefl 0 hpos
    · intro h
      obtain ⟨e, he⟩ := htest.2 h
      rw [hok] at he
      cases he
  · rw [heq]
    refine iff_of_false ?_ ?_
    · rintro ⟨-, -, hisr', -⟩
      rw [updateHighWatermark_isr] at hisr'
      simp only [hisr] at hisr'
      have hne : id ≠ 0 := by
        rintro rfl
        exact absurd hisr' (by decide)
      -- broker 0 is at offset zero, which no broker lags behind
      have hfirst : (s.record id offset).leaderOffset = 0 := by
        have hrecord : (s.record id offset).leader = 0 := hleader
        rw [leaderOffset, hrecord, record_get, if_neg hne.symm, hzero hne]
        rfl
      rw [hfirst] at hok
      unfold lagTest at hok
      split at hok
      · cases hok
      · simp at hok
    · intro h
      obtain ⟨e, he⟩ := htest.2 h
      rw [hok] at he
      cases he

end Update

/-! ## The two views -/

/-- Every partition is reported by `GetMetadata` as it is recorded, and as `GetClusterMetadata`
reports it. -/
def ViewsAgree (b : Broker) : Prop :=
  ∀ io, io.Fits b → ∀ topics, ∀ t ∈ b.getMetadata io.topics topics, ∀ m ∈ t.partitions,
    (∃ state, b.cluster.partitionStates.get (t.name, m.id) = some state ∧
      m.leader = state.leader ∧ m.replicas = state.replicas ∧ m.isr.toFinset = state.isr ∧
      m.highWatermark = state.highWatermark) ∧
    ∃ r ∈ b.topicPartitions io, r.topic = t.name ∧ r.partition = m.id ∧ r.leader = m.leader ∧
      r.replicas = m.replicas ∧ r.isr.toFinset = m.isr.toFinset

/-- What leaves the views in agreement: new partitions are assigned to broker 0 alone, an append
that succeeds panics before it moves the high watermark, no epoch overflows in the elections of a
health check, and a restart finds no partition. -/
def KeepsViews (K : Crates) (config : BrokerConfig) (overflowChecks : Bool) (b : Broker) :
    BrokerEvent → Prop
  | .request (.createTopic name partitions) io =>
    (∃ topic, (b.store.createTopic io.create config.dataDir name partitions).1 = .ok topic) →
      ∀ id < partitions, b.cluster.assignPartitionReplicas b.now io.brokers
        config.replicationFactor id = .ok (0, [0])
  | .request (.produce topic partition messages) io =>
    (∃ state, b.cluster.partitionStates.get (topic, partition) = some state) →
      ∀ base, (b.store.append K io.append messages topic partition).1 = .ok base →
        overflowChecks = true ∧
          2 ^ 64 ≤ base + messages.length + b.cluster.isrLagThreshold
  | .healthCheck io =>
    0 ∈ (b.cluster.getAliveBrokers b.now io.brokers).map BrokerInfo.id ∨
      (overflowChecks = true → ∀ key state, b.cluster.partitionStates.get key = some state →
        state.leaderEpoch + io.states.length < 2 ^ 32)
  | .restart listing => ∀ name topic, TopicOpens K config listing b.store.tree name topic →
      topic.numPartitions = 0
  | _ => True

/-- Every partition that is served has a replica state, and every replica state is as `GetMetadata`
reports it. -/
structure Uniform (b : Broker) : Prop where
  keyed : Keyed b.cluster
  known : b.Known
  present : ∀ name topic, b.store.topics.get name = some topic → ∀ id < topic.numPartitions,
    ∃ state, b.cluster.partitionStates.get (name, id) = some state
  shown : ∀ key state, b.cluster.partitionStates.get key = some state →
    state.Shown ∧ state.leaderEpoch < 2 ^ 32
  zero : b.cluster.brokerId ≠ 0 → ∀ key state, b.cluster.partitionStates.get key = some state →
    state.replicaOffsets.get 0 = some 0

section Views

variable {b b' : Broker} {io : RequestIo}

theorem exists_fits (b : Broker) : ∃ io : RequestIo, io.Fits b := by
  obtain ⟨brokers, hbrokers⟩ := b.cluster.brokers.exists_order
  obtain ⟨topics, htopics⟩ := b.store.topics.exists_order
  obtain ⟨states, hstates⟩ := b.cluster.partitionStates.exists_order
  refine ⟨.inOrder brokers topics states fun key =>
    ((b.cluster.partitionStates.get key).map fun state => state.isr.toList).getD [],
    hbrokers, htopics, hstates, ?_⟩
  intro key _ state hstate
  simp only [RequestIo.inOrder]
  rw [Option.mem_def.1 hstate]
  exact ⟨Finset.nodup_toList _, Finset.toList_toFinset _⟩

/-- Where the views agree, every partition is recorded as `GetMetadata` reports it. -/
theorem ViewsAgree.shown (h : ViewsAgree b) {name : String} {topic : StoredTopic}
    (hget : b.store.topics.get name = some topic) {id : Nat} (hid : id < topic.numPartitions) :
    ∃ state, b.cluster.partitionStates.get (name, id) = some state ∧ state.Shown := by
  obtain ⟨io, hfits⟩ := exists_fits b
  have hlisted : TopicMetadata.new name topic.numPartitions ∈ b.getMetadata io.topics [name] := by
    unfold Broker.getMetadata
    simp [hget]
  have hmem : PartitionMetadata.new id ∈ (TopicMetadata.new name topic.numPartitions).partitions :=
    List.mem_map.2 ⟨id, List.mem_range.2 hid, rfl⟩
  obtain ⟨⟨state, hstate, hleader, hreplicas, hisr, hhigh⟩, -⟩ :=
    h io hfits [name] _ hlisted _ hmem
  exact ⟨state, hstate, hleader.symm, hreplicas.symm, hisr.symm, hhigh.symm⟩

/-- Where every state is as reported, the views agree. -/
theorem Uniform.agree (h : Uniform b) : ViewsAgree b := by
  intro io hfits topics t ht m hm
  obtain ⟨name, -, hname⟩ := List.mem_filterMap.1 ht
  obtain ⟨topic, hget, rfl⟩ := Option.map_eq_some_iff.1 hname
  obtain ⟨id, hid, rfl⟩ := List.mem_map.1 hm
  obtain ⟨state, hstate⟩ := h.present name topic hget id (List.mem_range.1 hid)
  obtain ⟨⟨hleader, hreplicas, hisr, hhigh⟩, -⟩ := h.shown _ state hstate
  obtain ⟨-, -, horder, hisrs⟩ := hfits
  have hkey : (name, id) ∈ io.states := horder.mem_iff.2 ⟨state, hstate⟩
  have hnames := h.keyed _ state hstate
  refine ⟨⟨state, hstate, hleader.symm, hreplicas.symm, hisr.symm, hhigh.symm⟩, _,
    List.mem_filterMap.2 ⟨(name, id), hkey, by rw [hstate]; rfl⟩, congrArg Prod.fst hnames,
    congrArg Prod.snd hnames, hleader, hreplicas, ?_⟩
  rw [(hisrs _ hkey state hstate).2, hisr]
  rfl

theorem append_of_find {topic : String} {partition : Nat} {found : StoredTopic}
    {p : StoredPartition} (hfind : b.store.find topic partition = .ok (found, p))
    (io : PartitionIo) (messages : List Message) :
    (b.store.append K io messages topic partition).1 =
      (appendTo K io messages b.store.tree p).1 := by
  unfold TopicStore.append
  rw [hfind]

/-- Replacing a partition keeps the number of partitions of every topic. -/
theorem get_put {name : String} {id : Nat} {found : StoredTopic} {p q : StoredPartition}
    (hfind : b.store.find name id = .ok (found, p)) (t : DirTree.Tree) {name' : String}
    {topic' : StoredTopic} (hget : (b.store.put name found id q t).topics.get name' = some topic') :
    ∃ topic, b.store.topics.get name' = some topic ∧
      topic'.numPartitions = topic.numPartitions := by
  rcases Table.get_insert_cases hget with ⟨rfl, rfl⟩ | ⟨-, hget⟩
  · refine ⟨found, (find_ok_iff.1 hfind).1, ?_⟩
    rw [StoredTopic.numPartitions, List.length_set]
    rfl
  · exact ⟨topic', hget, rfl⟩

/-- A topic whose partitions are all assigned to broker 0 alone. -/
theorem Uniform.created {now : Nat} {order : List BrokerId} {replicationFactor : Nat}
    {name : String} {partitions : Nat} {c : ClusterMetadata} (h : Uniform b)
    (hnew : b.store.topics.get name = none) (hsized : partitions < 2 ^ 32)
    (hsets : SetsStates now order replicationFactor name (List.range partitions) b.cluster
      b.cluster c) (hbroker : c.brokerId = b.cluster.brokerId)
    (hall : ∀ id < partitions, b.cluster.assignPartitionReplicas now order replicationFactor id =
      .ok (0, [0])) (dataDir : FileSystem.Location) (t : DirTree.Tree)
    (hknown : Broker.Known ⟨⟨b.store.topics.insert name (freshTopic dataDir name partitions), t⟩,
      c, b.now⟩) :
    Uniform ⟨⟨b.store.topics.insert name (freshTopic dataDir name partitions), t⟩, c, b.now⟩ := by
  have hstates : ∀ key state, c.partitionStates.get key = some state →
      state = PartitionReplicaState.new key.1 key.2 0 [0] ∨
        b.cluster.partitionStates.get key = some state := by
    intro key state hget
    rcases hsets key with ⟨hname, hmem, leader, replicas, hassign, hset⟩ | ⟨-, hkeep⟩
    · rw [hall key.2 (List.mem_range.1 hmem)] at hassign
      cases hassign
      rw [hset] at hget
      rw [hname]
      exact .inl (Option.some_inj.1 hget).symm
    · exact .inr (hkeep ▸ hget)
  refine ⟨?_, hknown, ?_, ?_, ?_⟩
  · intro key state hget
    rcases hstates key state hget with rfl | hold
    · rfl
    · exact h.keyed key state hold
  · intro name' topic hget id hid
    rcases Table.get_insert_cases hget with ⟨rfl, rfl⟩ | ⟨hne, hget⟩
    · rw [numPartitions_freshTopic _ _ hsized] at hid
      rcases hsets (name', id) with ⟨-, -, leader, replicas, -, hset⟩ | ⟨hnot, -⟩
      · exact ⟨_, hset⟩
      · exact absurd ⟨rfl, List.mem_range.2 hid⟩ hnot
    · obtain ⟨state, hstate⟩ := h.present name' topic hget id hid
      rcases hsets (name', id) with ⟨hname, -⟩ | ⟨-, hkeep⟩
      · exact absurd hname hne
      · exact ⟨state, hkeep.trans hstate⟩
  · intro key state hget
    rcases hstates key state hget with rfl | hold
    · exact ⟨⟨rfl, rfl, rfl, rfl⟩, Nat.two_pow_pos 32⟩
    · exact h.shown key state hold
  · intro hne key state hget
    rcases hstates key state hget with rfl | hold
    · exact (get_zeroOffsets [0] 0).trans (if_pos (List.mem_singleton.2 rfl))
    · exact h.zero (hbroker ▸ hne) key state hold

/-- An append that panics in the update of the leader's offset, or whose partition has no state. -/
theorem Uniform.appended {topic : String} {partition offset : Nat} {found : StoredTopic}
    {p q : StoredPartition} (h : Uniform b)
    (hfind : b.store.find topic partition = .ok (found, p)) (hpos : 0 < offset) (t : DirTree.Tree)
    (hover : (∃ state, b.cluster.partitionStates.get (topic, partition) = some state) →
      overflowChecks = true ∧ 2 ^ 64 ≤ offset + b.cluster.isrLagThreshold)
    (hknown : Broker.Known ⟨b.store.put topic found partition q t,
      (b.cluster.updateLeaderOffset overflowChecks topic partition offset).2, b.now⟩) :
    Uniform ⟨b.store.put topic found partition q t,
      (b.cluster.updateLeaderOffset overflowChecks topic partition offset).2, b.now⟩ := by
  obtain ⟨-, hbroker, -, -⟩ := updateLeaderOffset_frame overflowChecks b.cluster topic partition
    offset
  have hstates : ∀ key state, (b.cluster.updateLeaderOffset overflowChecks topic partition
      offset).2.partitionStates.get key = some state →
      b.cluster.partitionStates.get key = some state ∨ ∃ old,
        key = (topic, partition) ∧ b.cluster.partitionStates.get key = some old ∧
        state = (old.updateReplicaOffset overflowChecks b.cluster.brokerId offset
          b.cluster.isrLagThreshold).2 := by
    intro key state hget
    rw [get_updateLeaderOffset] at hget
    split at hget
    · rename_i hkey
      obtain ⟨old, hold, rfl⟩ := Option.map_eq_some_iff.1 hget
      exact .inr ⟨old, hkey, hold, rfl⟩
    · exact .inl hget
  refine ⟨?_, hknown, ?_, ?_, ?_⟩
  · intro key state hget
    rcases hstates key state hget with hold | ⟨old, -, hold, rfl⟩
    · exact h.keyed key state hold
    · obtain ⟨htopic, hpartition⟩ := updateReplicaOffset_frame overflowChecks b.cluster.brokerId
        offset b.cluster.isrLagThreshold old
      rw [htopic, hpartition]
      exact h.keyed key old hold
  · intro name topic' hget id hid
    obtain ⟨topic₀, hget₀, hcount⟩ := get_put hfind t hget
    obtain ⟨state, hstate⟩ := h.present name topic₀ hget₀ id (hcount ▸ hid)
    simp only
    rw [get_updateLeaderOffset]
    split
    · exact ⟨_, by rw [hstate]; rfl⟩
    · exact ⟨state, hstate⟩
  · intro key state hget
    rcases hstates key state hget with hold | ⟨old, rfl, hold, rfl⟩
    · exact h.shown key state hold
    · obtain ⟨hshown, hepoch⟩ := h.shown _ old hold
      refine ⟨?_, by rw [(updateReplicaOffset_epoch ..).2]; exact hepoch⟩
      exact (update_shown_iff overflowChecks hshown hpos fun hne => h.zero hne _ old hold).2
        (hover ⟨old, hold⟩)
  · intro hne key state hget
    rw [hbroker] at hne
    rcases hstates key state hget with hold | ⟨old, -, hold, rfl⟩
    · exact h.zero hne key state hold
    · rw [(updateReplicaOffset_get ..).2, if_neg hne.symm]
      exact h.zero hne key old hold

/-- Broker 0 is elected again everywhere. -/
theorem Uniform.renewed {c : ClusterMetadata} (h : Uniform b) (hrenewed : Renewed b.cluster c) :
    Uniform { b with cluster := c } := by
  have hstates : ∀ key state, c.partitionStates.get key = some state → ∃ old epoch,
      b.cluster.partitionStates.get key = some old ∧ epoch < 2 ^ 32 ∧
      state = { old with leaderEpoch := epoch } := by
    intro key state hget
    rcases hrenewed.states key with ⟨-, hnone⟩ | ⟨old, epoch, hold, hlt, hsome⟩
    · rw [hnone] at hget
      cases hget
    · rw [hsome] at hget
      exact ⟨old, epoch, hold, hlt, (Option.some_inj.1 hget).symm⟩
  refine ⟨?_, ?_, ?_, ?_, ?_⟩
  · intro key state hget
    obtain ⟨old, epoch, hold, -, rfl⟩ := hstates key state hget
    exact h.keyed key old hold
  · intro key state hget
    obtain ⟨old, epoch, hold, -, rfl⟩ := hstates key state hget
    exact h.known key old hold
  · intro name topic hget id hid
    obtain ⟨state, hstate⟩ := h.present name topic hget id hid
    rcases hrenewed.states (name, id) with ⟨hnone, -⟩ | ⟨old, epoch, -, -, hsome⟩
    · rw [hstate] at hnone
      cases hnone
    · exact ⟨_, hsome⟩
  · intro key state hget
    obtain ⟨old, epoch, hold, hlt, rfl⟩ := hstates key state hget
    exact ⟨(h.shown key old hold).1, hlt⟩
  · intro hne key state hget
    obtain ⟨old, epoch, hold, -, rfl⟩ := hstates key state hget
    exact h.zero (hrenewed.brokerId ▸ hne) key old hold

/-- **A creation** keeps the views, or ends their agreement. -/
theorem Uniform.createTopic (h : Uniform b) {name : String} {partitions : Nat} {t : DirTree.Tree}
    (hsized : partitions < 2 ^ 32) (hnew : b.store.topics.get name = none)
    (hok : b.store.createTopic io.create config.dataDir name partitions =
      (.ok (freshTopic config.dataDir name partitions),
        ⟨b.store.topics.insert name (freshTopic config.dataDir name partitions), t⟩))
    (hknown : b'.Known)
    (hb : b' = ⟨⟨b.store.topics.insert name (freshTopic config.dataDir name partitions), t⟩,
      (Broker.assignReplicas b.now io.brokers config.replicationFactor name
        (List.range partitions) b.cluster).2, b.now⟩) :
    (KeepsViews K config overflowChecks b (.request (.createTopic name partitions) io) ∧
      Uniform b') ∨
    (¬KeepsViews K config overflowChecks b (.request (.createTopic name partitions) io) ∧
      ¬ViewsAgree b') := by
  subst hb
  have hfresh := h.known.fresh hnew
  obtain ⟨-, hbroker, -, -⟩ := assignReplicas_frame b.now io.brokers config.replicationFactor
    name (List.range partitions) b.cluster
  by_cases hall : ∀ id < partitions, b.cluster.assignPartitionReplicas b.now io.brokers
      config.replicationFactor id = .ok (0, [0])
  · refine .inl ⟨fun _ => hall, ?_⟩
    rcases assignReplicas_cases hfresh b.now io.brokers config.replicationFactor partitions with
      ⟨hne, halive, hzero, -⟩ | hsets
    · obtain ⟨e, he⟩ := (assignPartitionReplicas_error_iff 0).2 ⟨halive, hzero⟩
      rw [hall 0 (Nat.pos_of_ne_zero hne)] at he
      cases he
    · exact h.created hnew hsized hsets hbroker hall config.dataDir t hknown
  · refine .inr ⟨fun hkeeps => hall (hkeeps ⟨_, congrArg Prod.fst hok⟩), fun hagree => hall ?_⟩
    intro id hid
    have hlt : id < (freshTopic config.dataDir name partitions).numPartitions := by
      rwa [numPartitions_freshTopic _ _ hsized]
    obtain ⟨state, hstate, hleader, hreplicas, -⟩ := hagree.shown (Table.get_insert_self ..) hlt
    rcases assignReplicas_cases hfresh b.now io.brokers config.replicationFactor partitions with
      ⟨-, -, -, heq⟩ | hsets
    · rw [heq, hfresh] at hstate
      cases hstate
    · rcases hsets (name, id) with ⟨-, -, leader, replicas, hassign, hset⟩ | ⟨hnot, -⟩
      · rw [hset] at hstate
        cases hstate
        obtain rfl : leader = 0 := hleader
        obtain rfl : replicas = [0] := hreplicas
        exact hassign
      · exact absurd ⟨rfl, List.mem_range.2 hid⟩ hnot

/-- **A request** keeps the views, or ends their agreement. -/
theorem Uniform.request (h : Uniform b) {request : Request} (hsized : request.Sized)
    (hstep : RequestStep K config overflowChecks io b request b') :
    (KeepsViews K config overflowChecks b (.request request io) ∧ Uniform b') ∨
      (¬KeepsViews K config overflowChecks b (.request request io) ∧ ¬ViewsAgree b') := by
  have hknown := h.known.request hsized hstep
  cases hstep with
  | reads hreads =>
    refine .inl ⟨?_, h⟩
    cases request with
    | createTopic name partitions => exact absurd hreads id
    | produce topic partition messages => exact absurd hreads id
    | _ => exact trivial
  | @notCreated name partitions e t herror =>
    refine .inl ⟨?_, ⟨h.keyed, hknown, h.present, h.shown, h.zero⟩⟩
    rintro ⟨topic, hok⟩
    rw [herror] at hok
    cases hok
  | created hnew hok => exact h.createTopic hsized hnew hok hknown rfl
  | @notFound topic partition messages e hfind =>
    refine .inl ⟨?_, h⟩
    intro _ base hbase
    unfold TopicStore.append at hbase
    rw [hfind] at hbase
    cases hbase
  | @failed topic partition messages found p e hfind herror =>
    refine .inl ⟨?_, ⟨h.keyed, hknown, ?_, h.shown, h.zero⟩⟩
    · intro _ base hbase
      rw [append_of_find hfind, herror] at hbase
      cases hbase
    · intro name topic' hget id hid
      obtain ⟨topic₀, hget₀, hcount⟩ := get_put hfind _ hget
      exact h.present name topic₀ hget₀ id (hcount ▸ hid)
  | @appended topic partition messages found p base hfind hbase =>
    obtain ⟨hne, -, -, -⟩ := appendTo_base hbase
    have hpos : 0 < base + messages.length := Nat.add_pos_right _ (List.length_pos_iff.2 hne)
    by_cases hover : (∃ state, b.cluster.partitionStates.get (topic, partition) = some state) →
        overflowChecks = true ∧ 2 ^ 64 ≤ base + messages.length + b.cluster.isrLagThreshold
    · refine .inl ⟨?_, h.appended hfind hpos _ hover hknown⟩
      intro hstate base' hbase'
      rw [append_of_find hfind, hbase] at hbase'
      cases hbase'
      exact hover hstate
    · refine .inr ⟨?_, ?_⟩
      · intro hkeeps
        refine hover fun hstate => hkeeps hstate base ?_
        rw [append_of_find hfind, hbase]
      · intro hagree
        refine hover ?_
        rintro ⟨old, hold⟩
        obtain ⟨topic', htopic', hlt⟩ := hknown (topic, partition) _ (by
          simp only
          rw [get_updateLeaderOffset, if_pos rfl, hold]
          rfl)
        obtain ⟨state, hstate, hshown⟩ := hagree.shown htopic' hlt
        simp only at hstate
        rw [get_updateLeaderOffset, if_pos rfl, hold] at hstate
        cases hstate
        exact (update_shown_iff overflowChecks (h.shown _ old hold).1 hpos
          fun hne => h.zero hne _ old hold).1 hshown
  | registered id host port => exact .inl ⟨trivial, ⟨h.keyed, hknown, h.present, h.shown, h.zero⟩⟩

/-- **A health check** keeps the views, or ends their agreement. -/
theorem Uniform.healthCheck (h : Uniform b) {io : HealthIo}
    (hstep : brokerNext K config overflowChecks b (.healthCheck io) = some b') :
    (KeepsViews K config overflowChecks b (.healthCheck io) ∧ Uniform b') ∨
      (¬KeepsViews K config overflowChecks b (.healthCheck io) ∧ ¬ViewsAgree b') := by
  obtain ⟨-, horder, c, hcheck, rfl⟩ := next_healthCheck hstep
  unfold Broker.checkBrokerHealth at hcheck
  have hleaders : ∀ s ∈ io.states.filterMap b.cluster.partitionStates.get, s.leader = 0 := by
    intro s hmem
    obtain ⟨key, -, hget⟩ := List.mem_filterMap.1 hmem
    exact (h.shown key s hget).1.1
  by_cases halive : 0 ∈ (b.cluster.getAliveBrokers b.now io.brokers).map BrokerInfo.id
  · rw [electionLoop_alive fun s hmem => (hleaders s hmem).symm ▸ halive] at hcheck
    cases hcheck
    exact .inl ⟨.inl halive, h⟩
  have hlength : (io.states.filterMap b.cluster.partitionStates.get).length = io.states.length := by
    rw [List.filterMap_length_eq_length]
    intro key hmem
    obtain ⟨s, hs⟩ := horder.mem_iff.1 hmem
    rw [hs]
    rfl
  rcases electionLoop_shown halive hleaders h.shown hcheck with
    ⟨hchecks, ⟨key, s, hget, hle⟩, key', s₁, s', hget₁, hget', hempty⟩ | ⟨hlt, hrenewed⟩
  · rw [hlength] at hle
    refine .inr ⟨?_, ?_⟩
    · rintro (h0 | hlt)
      · exact halive h0
      · exact absurd (hlt hchecks key s hget) (Nat.not_lt_of_le hle)
    · intro hagree
      obtain ⟨topic, htopic, hid⟩ := h.known key' s₁ hget₁
      obtain ⟨state, hstate, -, -, hisr, -⟩ := hagree.shown htopic hid
      simp only [Prod.mk.eta] at hstate
      rw [hget'] at hstate
      cases hstate
      rw [hempty] at hisr
      exact absurd hisr (Finset.singleton_ne_empty 0).symm
  · rw [hlength] at hlt
    refine .inl ⟨.inr hlt, h.renewed hrenewed⟩

/-- **A start** is in agreement if it finds no partition, and is not otherwise. -/
theorem uniform_new {listing : DirTree.Listing} {now : Nat} {t : DirTree.Tree}
    (hnew : Broker.new K config listing now t = .ok b) :
    ((∀ name topic, TopicOpens K config listing t name topic → topic.numPartitions = 0) ∧
      Uniform b) ∨
    ((¬∀ name topic, TopicOpens K config listing t name topic → topic.numPartitions = 0) ∧
      ¬ViewsAgree b) := by
  obtain ⟨hcluster, -, htopics⟩ := new_spec hnew
  have hnone : ∀ key, b.cluster.partitionStates.get key = none := by
    rw [hcluster]
    exact fun _ => rfl
  have hvacuous : ∀ {P : PartitionKey → PartitionReplicaState → Prop} (key : PartitionKey)
      (state : PartitionReplicaState), b.cluster.partitionStates.get key = some state →
      P key state := by
    intro P key state hget
    rw [hnone] at hget
    cases hget
  by_cases hempty : ∀ name topic, TopicOpens K config listing t name topic →
      topic.numPartitions = 0
  · refine .inl ⟨hempty, hvacuous, hvacuous, ?_, hvacuous, fun _ => hvacuous⟩
    intro name topic hget id hid
    rw [hempty name topic ((htopics name topic).1 hget)] at hid
    exact absurd hid (Nat.not_lt_zero id)
  · refine .inr ⟨hempty, fun hagree => hempty ?_⟩
    intro name topic hopens
    by_contra hne
    obtain ⟨state, hstate, -⟩ :=
      hagree.shown ((htopics name topic).2 hopens) (Nat.pos_of_ne_zero hne)
    rw [hnone] at hstate
    cases hstate

/-- **A step** keeps the views, or ends their agreement. -/
theorem Uniform.next (h : Uniform b) {e : BrokerEvent}
    (hstep : brokerNext K config overflowChecks b e = some b') :
    (KeepsViews K config overflowChecks b e ∧ Uniform b') ∨
      (¬KeepsViews K config overflowChecks b e ∧ ¬ViewsAgree b') := by
  cases e with
  | request request io =>
    obtain ⟨-, hsized, -, -, hrequest⟩ := next_request hstep
    exact h.request hsized hrequest
  | healthCheck io => exact h.healthCheck hstep
  | pass now =>
    obtain ⟨-, rfl⟩ := next_pass hstep
    exact .inl ⟨trivial, ⟨h.keyed, h.known, h.present, h.shown, h.zero⟩⟩
  | restart listing => exact uniform_new (next_restart hstep).2

end Views

/-- **The two views agree** throughout exactly the runs whose starts find no partition and whose
steps leave every replica state as `GetMetadata` reports it. -/
theorem views_agree_iff {listing : DirTree.Listing} {now : Nat} {t : DirTree.Tree} {b : Broker}
    (hnew : Broker.new K config listing now t = .ok b) {tr : List (BrokerEvent × Broker)}
    (hrun : Run (Steps (brokerNext K config overflowChecks)) b tr) :
    Throughout ViewsAgree b tr ↔
      (∀ name topic, TopicOpens K config listing t name topic → topic.numPartitions = 0) ∧
      EachStep (fun b e _ => KeepsViews K config overflowChecks b e) b tr := by
  rcases uniform_new hnew with ⟨hempty, huniform⟩ | ⟨hempty, hdisagree⟩
  · refine Iff.trans ?_ (and_iff_right hempty).symm
    refine throughout_iff (I := Uniform) ?_ (fun s h => h.agree) ?_ huniform hrun
    · intro s e s' h hstep hkeeps
      rcases h.next hstep with ⟨-, hnext⟩ | ⟨hnot, -⟩
      · exact hnext
      · exact absurd hkeeps hnot
    · intro s e s' h hstep hagree
      rcases h.next hstep with ⟨hkeeps, -⟩ | ⟨-, hdisagree⟩
      · exact hkeeps
      · exact absurd hagree hdisagree
  · exact iff_of_false (fun h => hdisagree h.first) (fun h => hempty h.1)

/-! ## Two runs -/

/-- Broker 0 makes a topic, refuses an empty batch for it, and checks itself in time. -/
def agreeingEvents : List BrokerEvent :=
  [.request (.createTopic "a" 1) (.inOrder [0] [] [] fun _ => []),
    .request (.produce "a" 0 []) (.inOrder [0] ["a"] [("a", 0)] fun _ => [0]),
    .pass (10 * 10 ^ 9), .healthCheck ⟨[0], [("a", 0)], fun _ => ([("a", 0)], fun _ => 0)⟩]

/-- A creation that assigns broker 0, an append that fails, a check that finds broker 0 alive. -/
def agreeing (b : Broker) : BrokerEvent → Bool
  | .request (.createTopic _ partitions) io => decide (∀ id < partitions,
    b.cluster.assignPartitionReplicas b.now io.brokers 1 id = .ok (0, [0]))
  | .request (.produce topic partition messages) io =>
    !(b.store.append plainCrates io.append messages topic partition).1.isOk
  | .healthCheck io => decide (0 ∈ (b.cluster.getAliveBrokers b.now io.brokers).map BrokerInfo.id)
  | .restart _ => false
  | _ => true

theorem views_agree_alone : ∃ b tr, localRun (localConfig 0 1) agreeingEvents = some (b, tr) ∧
    Throughout ViewsAgree b tr := by
  obtain ⟨⟨b, tr⟩, hlocal⟩ := Option.isSome_iff_exists.1
    (show (localRun (localConfig 0 1) agreeingEvents).isSome = true by decide +kernel)
  have hagreeing : ∀ r ∈ localRun (localConfig 0 1) agreeingEvents,
      EachStep (fun s e _ => agreeing s e = true) r.1 r.2 := by
    decide +kernel
  obtain ⟨hnew, htr⟩ := localRun_spec hlocal
  refine ⟨b, tr, hlocal, (views_agree_iff hnew (run_of_trace htr)).2 ⟨?_, ?_⟩⟩
  · rintro name topic ⟨-, hmem, -⟩
    cases hmem
  · refine (hagreeing (b, tr) hlocal).mono ?_
    intro s e s' hs
    cases e with
    | request request io =>
      cases request with
      | createTopic name partitions => exact fun _ => of_decide_eq_true hs
      | produce topic partition messages =>
        intro _ base hbase
        simp [agreeing, hbase, Except.isOk, Except.toBool] at hs
      | _ => exact trivial
    | healthCheck io => exact .inl (of_decide_eq_true hs)
    | pass now => exact trivial
    | restart listing => cases hs

/-- Broker 1 makes a topic, which `GetMetadata` reports as broker 0's. -/
theorem views_disagree : ¬ ∀ b tr,
    Broker.new plainCrates (localConfig 1 1) emptyListing 0 emptyDataDir = .ok b →
    Run (Steps (brokerNext plainCrates (localConfig 1 1) true)) b tr →
    Throughout ViewsAgree b tr := by
  intro h
  obtain ⟨⟨b, tr⟩, hlocal⟩ := Option.isSome_iff_exists.1
    (show (localRun (localConfig 1 1) [.request (.createTopic "a" 1)
      (.inOrder [1] [] [] fun _ => [])]).isSome = true by decide +kernel)
  have hlast : ∀ r ∈ localRun (localConfig 1 1) [.request (.createTopic "a" 1)
      (.inOrder [1] [] [] fun _ => [])],
      (∃ topic ∈ (last r.1 r.2).store.topics.get "a", 0 < topic.numPartitions) ∧
        ∀ state ∈ (last r.1 r.2).cluster.partitionStates.get ("a", 0), state.leader = 1 := by
    decide +kernel
  obtain ⟨hnew, htr⟩ := localRun_spec hlocal
  obtain ⟨⟨topic, htopic, hpos⟩, hleader⟩ := hlast (b, tr) hlocal
  obtain ⟨state, hstate, hshown⟩ := (h b tr hnew (run_of_trace htr)).at_last.shown htopic hpos
  exact absurd (hshown.1.symm.trans (hleader state hstate)) (by decide)

end Gaffa
