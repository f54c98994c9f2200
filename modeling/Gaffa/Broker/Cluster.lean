import Gaffa.Error
import Gaffa.Lib.Table
import Mathlib.Data.Finset.Max
import Mathlib.Data.Finset.Union
import Mathlib.Data.Finset.Option

/-!
# Cluster metadata

`broker/src/cluster.rs`.  Broker numbers, offsets and epochs are `Nat`; the two additions that can
overflow take whether the build checks for it.  A `HashSet` that is iterated for its first element
gets that element as an argument, and a loop over a `DashMap` the order in which it visits it.

* `updateReplicaOffset_cases`: what an offset update can do.
* `highWatermark_le`, `exists_highWatermark`: after an update the watermark is the least recorded
  offset of the ISR.
-/

set_option autoImplicit false

namespace Gaffa

abbrev BrokerId := Nat

/-- `BrokerInfo`; the heartbeat is a clock reading. -/
structure BrokerInfo where
  id : BrokerId
  host : String
  port : Nat
  lastHeartbeat : Option Nat
  deriving DecidableEq, Repr

/-- `BrokerInfo::new`. -/
def BrokerInfo.new (now : Nat) (id : BrokerId) (host : String) (port : Nat) : BrokerInfo :=
  ⟨id, host, port, some now⟩

/-- `BrokerInfo::is_alive`. -/
def BrokerInfo.isAlive (now timeout : Nat) (b : BrokerInfo) : Bool :=
  match b.lastHeartbeat with
  | some last => now - last < timeout
  | none => false

/-- `PartitionReplicaState`. -/
structure PartitionReplicaState where
  topic : String
  partition : Nat
  leader : BrokerId
  replicas : List BrokerId
  isr : Finset BrokerId
  replicaOffsets : Table BrokerId Nat
  highWatermark : Nat
  leaderEpoch : Nat

namespace PartitionReplicaState

/-- The offsets that `PartitionReplicaState::new` collects: zero for every replica. -/
def zeroOffsets (replicas : List BrokerId) : Table BrokerId Nat :=
  replicas.foldl (fun offsets id => offsets.insert id 0) Table.empty

/-- `PartitionReplicaState::new`. -/
def new (topic : String) (partition : Nat) (leader : BrokerId) (replicas : List BrokerId) :
    PartitionReplicaState :=
  ⟨topic, partition, leader, replicas, replicas.toFinset, zeroOffsets replicas, 0, 0⟩

/-- The recorded offsets of the ISR members that have one. -/
def isrOffsets (s : PartitionReplicaState) : Finset Nat :=
  s.isr.biUnion fun b => (s.replicaOffsets.get b).toFinset

/-- `PartitionReplicaState::update_high_watermark`. -/
def updateHighWatermark (s : PartitionReplicaState) : PartitionReplicaState :=
  if s.isr = ∅ then s else { s with highWatermark := s.isrOffsets.min.untopD 0 }

/-- The recorded offset of the leader. -/
def leaderOffset (s : PartitionReplicaState) : Nat := (s.replicaOffsets.get s.leader).getD 0

/-- The lag test of `update_replica_offset`: `offset + lag_threshold >= leader_offset`. -/
def lagTest (overflowChecks : Bool) (offset lagThreshold leaderOffset : Nat) :
    Except Fault Bool :=
  match addWith overflowChecks 64 offset lagThreshold with
  | .error e => .error e
  | .ok sum => .ok (leaderOffset ≤ sum)

/-- The first statement of `update_replica_offset`. -/
def record (brokerId : BrokerId) (offset : Nat) (s : PartitionReplicaState) :
    PartitionReplicaState :=
  { s with replicaOffsets := s.replicaOffsets.insert brokerId offset }

/-- `PartitionReplicaState::update_replica_offset`: the outcome and the state. -/
def updateReplicaOffset (overflowChecks : Bool) (brokerId : BrokerId) (offset lagThreshold : Nat)
    (s : PartitionReplicaState) : Except Fault Unit × PartitionReplicaState :=
  let s := record brokerId offset s
  match lagTest overflowChecks offset lagThreshold s.leaderOffset with
  | .error e => (.error e, s)
  | .ok true => (.ok (), updateHighWatermark { s with isr := insert brokerId s.isr })
  | .ok false => (.ok (), updateHighWatermark { s with isr := s.isr.erase brokerId })

/-- `self.leader_epoch += 1`, then the rest. -/
def bumpEpoch (overflowChecks : Bool) (s : PartitionReplicaState) :
    Except Fault PartitionReplicaState :=
  match addWith overflowChecks 32 s.leaderEpoch 1 with
  | .error e => .error e
  | .ok epoch => .ok { s with leaderEpoch := epoch }

/-- `PartitionReplicaState::elect_new_leader`; `first` is the first element that an iteration over
the ISR gives, when there is one. -/
def electNewLeader (overflowChecks : Bool) (first : BrokerId) (s : PartitionReplicaState) :
    Except Fault (Option BrokerId) × PartitionReplicaState :=
  if s.isr = ∅ then
    match s.replicas with
    | [] => (.ok none, s)
    | newLeader :: _ =>
      let s := { s with leader := newLeader }
      match bumpEpoch overflowChecks s with
      | .error e => (.error e, s)
      | .ok s => (.ok (some newLeader), { s with isr := insert newLeader s.isr })
  else
    let s := { s with leader := first }
    match bumpEpoch overflowChecks s with
    | .error e => (.error e, s)
    | .ok s => (.ok (some first), s)

end PartitionReplicaState

/-! ## The metadata of all partitions -/

/-- The key of a partition's state. -/
abbrev PartitionKey := String × Nat

/-- `ClusterMetadata`. -/
structure ClusterMetadata where
  brokers : Table BrokerId BrokerInfo
  partitionStates : Table PartitionKey PartitionReplicaState
  brokerId : BrokerId
  brokerTimeout : Nat
  isrLagThreshold : Nat

namespace ClusterMetadata

/-- `ClusterMetadata::new`. -/
def new (brokerId : BrokerId) (brokerTimeout isrLagThreshold : Nat) : ClusterMetadata :=
  ⟨Table.empty, Table.empty, brokerId, brokerTimeout, isrLagThreshold⟩

/-- `ClusterMetadata::register_broker`. -/
def registerBroker (broker : BrokerInfo) (c : ClusterMetadata) : ClusterMetadata :=
  { c with brokers := c.brokers.insert broker.id broker }

/-- `ClusterMetadata::get_alive_brokers`, for the order in which the brokers are visited. -/
def getAliveBrokers (now : Nat) (order : List BrokerId) (c : ClusterMetadata) : List BrokerInfo :=
  (order.filterMap c.brokers.get).filter (BrokerInfo.isAlive now c.brokerTimeout)

/-- `ClusterMetadata::set_partition_replicas`. -/
def setPartitionReplicas (topic : String) (partition : Nat) (leader : BrokerId)
    (replicas : List BrokerId) (c : ClusterMetadata) : ClusterMetadata :=
  let state := match c.partitionStates.get (topic, partition) with
    | some state => { state with leader := leader, replicas := replicas, isr := replicas.toFinset }
    | none => PartitionReplicaState.new topic partition leader replicas
  { c with partitionStates := c.partitionStates.insert (topic, partition) state }

/-- `ClusterMetadata::is_partition_leader`. -/
def isPartitionLeader (topic : String) (partition : Nat) (c : ClusterMetadata) : Bool :=
  match c.partitionStates.get (topic, partition) with
  | some state => state.leader == c.brokerId
  | none => false

/-- `ClusterMetadata::get_high_watermark`. -/
def getHighWatermark (topic : String) (partition : Nat) (c : ClusterMetadata) : Nat :=
  match c.partitionStates.get (topic, partition) with
  | some state => state.highWatermark
  | none => 0

/-- `ClusterMetadata::update_replica_offset`. -/
def updateReplicaOffset (overflowChecks : Bool) (topic : String) (partition : Nat)
    (brokerId : BrokerId) (offset : Nat) (c : ClusterMetadata) :
    Except Fault Unit × ClusterMetadata :=
  match c.partitionStates.get (topic, partition) with
  | none => (.ok (), c)
  | some state =>
    let r := state.updateReplicaOffset overflowChecks brokerId offset c.isrLagThreshold
    (r.1, { c with partitionStates := c.partitionStates.insert (topic, partition) r.2 })

/-- The body of the loop of `handle_broker_failure`, up to the `push`. -/
def failover (overflowChecks : Bool) (failedBrokerId first : BrokerId)
    (state : PartitionReplicaState) : Except Fault (Option BrokerId) × PartitionReplicaState :=
  let state := { state with isr := state.isr.erase failedBrokerId }
  if state.leader = failedBrokerId then state.electNewLeader overflowChecks first
  else (.ok none, state)

/-- The body of the loop, with what it pushes. -/
def failoverEntry (overflowChecks : Bool) (failedBrokerId : BrokerId)
    (first : PartitionKey → BrokerId) (k : PartitionKey) (state : PartitionReplicaState) :
    Except Fault (Option (String × Nat × BrokerId)) × PartitionReplicaState :=
  let r := failover overflowChecks failedBrokerId (first k) state
  (r.1.map (Option.map fun newLeader => (r.2.topic, r.2.partition, newLeader)), r.2)

/-- `ClusterMetadata::handle_broker_failure`, for the order in which the partitions are visited. -/
def handleBrokerFailure (overflowChecks : Bool) (failedBrokerId : BrokerId)
    (order : List PartitionKey) (first : PartitionKey → BrokerId) (c : ClusterMetadata) :
    Except Fault (List (String × Nat × BrokerId)) × ClusterMetadata :=
  let r := Table.forEachMut (failoverEntry overflowChecks failedBrokerId first) order
    c.partitionStates
  (r.1.map fun newLeaders => newLeaders.filterMap id, { c with partitionStates := r.2 })

end ClusterMetadata

/-! ## What the operations of a partition do -/

namespace PartitionReplicaState

theorem get_foldl_zero (replicas : List BrokerId) (offsets : Table BrokerId Nat) (b : BrokerId) :
    (replicas.foldl (fun offsets id => offsets.insert id 0) offsets).get b =
      if b ∈ replicas then some 0 else offsets.get b := by
  induction replicas generalizing offsets with
  | nil => simp
  | cons r rs ih =>
    rw [List.foldl_cons, ih, Table.get_insert]
    by_cases h : b ∈ rs
    · simp [h]
    · by_cases hr : b = r <;> simp [h, hr]

theorem get_zeroOffsets (replicas : List BrokerId) (b : BrokerId) :
    (zeroOffsets replicas).get b = if b ∈ replicas then some 0 else none :=
  get_foldl_zero replicas Table.empty b

theorem mem_isrOffsets {s : PartitionReplicaState} {o : Nat} :
    o ∈ s.isrOffsets ↔ ∃ b ∈ s.isr, s.replicaOffsets.get b = some o := by
  simp [isrOffsets]

/-- After the watermark is updated it is at most every recorded offset of the ISR. -/
theorem highWatermark_le {s : PartitionReplicaState} {b : BrokerId} {o : Nat} (hb : b ∈ s.isr)
    (ho : s.replicaOffsets.get b = some o) : s.updateHighWatermark.highWatermark ≤ o := by
  have hmem : o ∈ s.isrOffsets := mem_isrOffsets.2 ⟨b, hb, ho⟩
  obtain ⟨m, hm⟩ := Finset.min_of_mem hmem
  unfold updateHighWatermark
  rw [if_neg (Finset.ne_empty_of_mem hb)]
  simp only [hm, WithTop.untopD_coe]
  exact Finset.min_le_of_eq hmem hm

/-- When every ISR member has a recorded offset, the updated watermark is one of these. -/
theorem exists_highWatermark {s : PartitionReplicaState} (hne : s.isr ≠ ∅)
    (hrec : ∀ b ∈ s.isr, ∃ o, s.replicaOffsets.get b = some o) :
    ∃ b ∈ s.isr, s.replicaOffsets.get b = some s.updateHighWatermark.highWatermark := by
  obtain ⟨b, hb⟩ := Finset.nonempty_iff_ne_empty.2 hne
  obtain ⟨o, ho⟩ := hrec b hb
  obtain ⟨m, hm⟩ := Finset.min_of_mem (mem_isrOffsets.2 ⟨b, hb, ho⟩)
  obtain ⟨b', hb', hm'⟩ := mem_isrOffsets.1 (Finset.mem_of_min hm)
  refine ⟨b', hb', ?_⟩
  unfold updateHighWatermark
  rw [if_neg hne, hm']
  simp only [hm, WithTop.untopD_coe]

@[simp] theorem updateHighWatermark_isr (s : PartitionReplicaState) :
    s.updateHighWatermark.isr = s.isr := by
  unfold updateHighWatermark; split <;> rfl

@[simp] theorem updateHighWatermark_replicaOffsets (s : PartitionReplicaState) :
    s.updateHighWatermark.replicaOffsets = s.replicaOffsets := by
  unfold updateHighWatermark; split <;> rfl

@[simp] theorem updateHighWatermark_leader (s : PartitionReplicaState) :
    s.updateHighWatermark.leader = s.leader := by
  unfold updateHighWatermark; split <;> rfl

@[simp] theorem updateHighWatermark_replicas (s : PartitionReplicaState) :
    s.updateHighWatermark.replicas = s.replicas := by
  unfold updateHighWatermark; split <;> rfl

@[simp] theorem updateHighWatermark_topic (s : PartitionReplicaState) :
    s.updateHighWatermark.topic = s.topic := by
  unfold updateHighWatermark; split <;> rfl

@[simp] theorem updateHighWatermark_partition (s : PartitionReplicaState) :
    s.updateHighWatermark.partition = s.partition := by
  unfold updateHighWatermark; split <;> rfl

@[simp] theorem updateHighWatermark_leaderEpoch (s : PartitionReplicaState) :
    s.updateHighWatermark.leaderEpoch = s.leaderEpoch := by
  unfold updateHighWatermark; split <;> rfl

/-- **What an offset update can do**: record the offset and panic; admit the broker; drop it. -/
theorem updateReplicaOffset_cases (overflowChecks : Bool) (b : BrokerId) (offset lag : Nat)
    (s : PartitionReplicaState) :
    (∃ e, lagTest overflowChecks offset lag (s.record b offset).leaderOffset = .error e ∧
      (s.updateReplicaOffset overflowChecks b offset lag).2 = s.record b offset) ∨
    (lagTest overflowChecks offset lag (s.record b offset).leaderOffset = .ok true ∧
      (s.updateReplicaOffset overflowChecks b offset lag).2 =
        updateHighWatermark { s.record b offset with isr := insert b s.isr }) ∨
    (lagTest overflowChecks offset lag (s.record b offset).leaderOffset = .ok false ∧
      (s.updateReplicaOffset overflowChecks b offset lag).2 =
        updateHighWatermark { s.record b offset with isr := s.isr.erase b }) := by
  cases h : lagTest overflowChecks offset lag (s.record b offset).leaderOffset with
  | error e =>
    left
    exact ⟨e, rfl, by simp only [updateReplicaOffset, h]⟩
  | ok admitted =>
    right
    cases admitted with
    | true =>
      left
      exact ⟨rfl, by simp only [updateReplicaOffset, h]; rfl⟩
    | false =>
      right
      exact ⟨rfl, by simp only [updateReplicaOffset, h]; rfl⟩

/-! ## The watermark and the ISR -/

/-- Every ISR member has a recorded offset at or above the high watermark. -/
def Covered (s : PartitionReplicaState) : Prop :=
  ∀ b ∈ s.isr, ∃ o, s.replicaOffsets.get b = some o ∧ s.highWatermark ≤ o

theorem covered_new (topic : String) (partition : Nat) (leader : BrokerId)
    (replicas : List BrokerId) : Covered (new topic partition leader replicas) := by
  intro b hb
  refine ⟨0, ?_, Nat.le_refl 0⟩
  have hmem : b ∈ replicas := List.mem_toFinset.1 hb
  exact (get_zeroOffsets replicas b).trans (if_pos hmem)

/-- Recomputing the watermark covers any ISR whose members have recorded offsets. -/
theorem covered_updateHighWatermark {s : PartitionReplicaState}
    (hrec : ∀ b ∈ s.isr, ∃ o, s.replicaOffsets.get b = some o) : Covered s.updateHighWatermark := by
  intro b hb
  rw [updateHighWatermark_isr] at hb
  obtain ⟨o, ho⟩ := hrec b hb
  exact ⟨o, by rw [updateHighWatermark_replicaOffsets, ho], highWatermark_le hb ho⟩

theorem record_get (s : PartitionReplicaState) (b : BrokerId) (offset : Nat) (c : BrokerId) :
    (s.record b offset).replicaOffsets.get c =
      if c = b then some offset else s.replicaOffsets.get c := Table.get_insert ..

theorem leaderOffset_record (s : PartitionReplicaState) (b : BrokerId) (offset : Nat) :
    (s.record b offset).leaderOffset = if s.leader = b then offset else s.leaderOffset := by
  have hget : (s.record b offset).replicaOffsets.get s.leader =
      if s.leader = b then some offset else s.replicaOffsets.get s.leader := record_get ..
  unfold leaderOffset
  rw [show (s.record b offset).leader = s.leader from rfl, hget]
  by_cases hb : s.leader = b
  · rw [if_pos hb, if_pos hb, Option.getD_some]
  · rw [if_neg hb, if_neg hb]

theorem lagTest_error_iff (overflowChecks : Bool) (offset lag leaderOffset : Nat) :
    (∃ e, lagTest overflowChecks offset lag leaderOffset = .error e) ↔
      overflowChecks = true ∧ 2 ^ 64 ≤ offset + lag := by
  rw [← addWith_error_iff]
  unfold lagTest
  cases addWith overflowChecks 64 offset lag with
  | error e => exact iff_of_true ⟨e, rfl⟩ ⟨e, rfl⟩
  | ok sum => exact iff_of_false (fun ⟨_, h⟩ => by cases h) (fun ⟨_, h⟩ => by cases h)

/-- Without an overflow the test compares the sum itself. -/
theorem lagTest_of_lt (overflowChecks : Bool) {offset lag leaderOffset : Nat}
    (h : offset + lag < 2 ^ 64) :
    lagTest overflowChecks offset lag leaderOffset = .ok (decide (leaderOffset ≤ offset + lag)) := by
  unfold lagTest
  rw [addWith_of_lt overflowChecks h]

/-- **An offset update** keeps the ISR covered, if a panic leaves no member of it with an offset below
the watermark. -/
theorem Covered.report {s : PartitionReplicaState} (h : Covered s)
    (overflowChecks : Bool) (b : BrokerId) {offset : Nat} (lag : Nat)
    (hb : overflowChecks = true → 2 ^ 64 ≤ offset + lag → b ∈ s.isr → s.highWatermark ≤ offset) :
    Covered (s.updateReplicaOffset overflowChecks b offset lag).2 := by
  have hrec : ∀ c ∈ s.isr, ∃ o, (s.record b offset).replicaOffsets.get c = some o := by
    intro c hc
    obtain ⟨o, ho, -⟩ := h c hc
    rw [record_get]
    split
    · exact ⟨offset, rfl⟩
    · exact ⟨o, ho⟩
  rcases updateReplicaOffset_cases overflowChecks b offset lag s with
    ⟨e, hlag, heq⟩ | ⟨-, heq⟩ | ⟨-, heq⟩
  · -- a panic leaves the new offset and the old watermark
    obtain ⟨hchecks, hsum⟩ := (lagTest_error_iff _ _ _ _).1 ⟨e, hlag⟩
    rw [heq]
    intro c hc
    obtain ⟨o, ho, hle⟩ := h c hc
    rw [record_get]
    by_cases hcb : c = b
    · subst hcb
      exact ⟨offset, if_pos rfl, hb hchecks hsum hc⟩
    · exact ⟨o, by rw [if_neg hcb, ho], hle⟩
  · rw [heq]
    apply covered_updateHighWatermark
    intro c hc
    rcases Finset.mem_insert.1 hc with rfl | hc
    · exact ⟨offset, by simp [record_get]⟩
    · exact hrec c hc
  · rw [heq]
    apply covered_updateHighWatermark
    intro c hc
    exact hrec c (Finset.mem_of_mem_erase hc)

/-- An offset that does not go back leaves none below the watermark. -/
theorem Covered.updateReplicaOffset {s : PartitionReplicaState} (h : Covered s)
    (overflowChecks : Bool) (b : BrokerId) {offset : Nat} (lag : Nat)
    (hb : (s.replicaOffsets.get b).getD 0 ≤ offset) :
    Covered (s.updateReplicaOffset overflowChecks b offset lag).2 := by
  refine h.report overflowChecks b lag fun _ _ hmem => ?_
  obtain ⟨o, ho, hle⟩ := h b hmem
  rw [ho] at hb
  exact Nat.le_trans hle hb

end PartitionReplicaState

end Gaffa
