import Gaffa.Broker.Cluster
import Gaffa.Lib.Transition

/-!
# The committed offsets over replica assignments, offset updates and broker failures

* `covered_failover_iff`: what the loop of `handle_broker_failure` does to one partition keeps the
  ISR covered exactly when a fallback election, if there is one, finds a covered broker.
* `get_failoverLoop`: which partitions the loop gets to, and that it leaves the others alone.
* `committed_survives_iff`: over runs, every ISR member and every elected leader has a recorded
  offset at or above the high watermark exactly when no assignment and no fallback election brings
  in a broker without one.
-/

set_option autoImplicit false

namespace Gaffa

open Transition PartitionReplicaState ClusterMetadata

namespace PartitionReplicaState

/-- The broker has a recorded offset at or above the high watermark. -/
def HoldsCommitted (s : PartitionReplicaState) (b : BrokerId) : Prop :=
  ∃ o, s.replicaOffsets.get b = some o ∧ s.highWatermark ≤ o

instance decidableHoldsCommitted (s : PartitionReplicaState) (b : BrokerId) :
    Decidable (s.HoldsCommitted b) :=
  inferInstanceAs (Decidable (∃ o ∈ s.replicaOffsets.get b, s.highWatermark ≤ o))

/-- **What an election can do**: find no broker; panic at the last epoch with the leader already
set; fall back to the first replica; take a broker of the ISR. -/
theorem electNewLeader_cases (overflowChecks : Bool) (first : BrokerId)
    (s : PartitionReplicaState) :
    (s.isr = ∅ ∧ s.replicas = [] ∧ s.electNewLeader overflowChecks first = (.ok none, s)) ∨
    (∃ e b, addWith overflowChecks 32 s.leaderEpoch 1 = .error e ∧
      (s.isr = ∅ → s.replicas.head? = some b) ∧
      s.electNewLeader overflowChecks first = (.error e, { s with leader := b })) ∨
    (∃ b epoch, s.isr = ∅ ∧ s.replicas.head? = some b ∧
      addWith overflowChecks 32 s.leaderEpoch 1 = .ok epoch ∧
      s.electNewLeader overflowChecks first =
        (.ok (some b), { s with leader := b, leaderEpoch := epoch, isr := insert b s.isr })) ∨
    (∃ epoch, s.isr ≠ ∅ ∧ addWith overflowChecks 32 s.leaderEpoch 1 = .ok epoch ∧
      s.electNewLeader overflowChecks first =
        (.ok (some first), { s with leader := first, leaderEpoch := epoch })) := by
  unfold electNewLeader
  by_cases hisr : s.isr = ∅
  · rw [if_pos hisr]
    cases hrep : s.replicas with
    | nil =>
      left
      exact ⟨hisr, rfl, rfl⟩
    | cons b bs =>
      right
      cases hadd : addWith overflowChecks 32 s.leaderEpoch 1 with
      | error e =>
        left
        exact ⟨e, b, rfl, fun _ => rfl, by simp only [bumpEpoch, hadd]⟩
      | ok epoch =>
        right; left
        exact ⟨b, epoch, hisr, rfl, rfl, by simp only [bumpEpoch, hadd]⟩
  · rw [if_neg hisr]
    right
    cases hadd : addWith overflowChecks 32 s.leaderEpoch 1 with
    | error e =>
      left
      exact ⟨e, first, rfl, fun h => absurd h hisr, by simp only [bumpEpoch, hadd]⟩
    | ok epoch =>
      right; right
      exact ⟨epoch, hisr, rfl, by simp only [bumpEpoch, hadd]⟩

end PartitionReplicaState

/-! ## One partition -/

/-- The failure of `b` makes the loop panic at this partition: an election is due, there is a
broker to elect, and the epoch has no successor. -/
def electionPanics (overflowChecks : Bool) (b : BrokerId) (s : PartitionReplicaState) : Bool :=
  s.leader = b && !(s.isr.erase b = ∅ && s.replicas = []) &&
    !(addWith overflowChecks 32 s.leaderEpoch 1).isOk

/-- If the failure of `b` leaves the ISR of a partition that `b` leads empty, the first replica,
which is then elected, has a recorded offset at or above the high watermark. -/
def FallbackCovered (overflowChecks : Bool) (b : BrokerId) (s : PartitionReplicaState) : Prop :=
  s.leader = b → s.isr.erase b = ∅ → (addWith overflowChecks 32 s.leaderEpoch 1).isOk = true →
    ∀ r, s.replicas.head? = some r → s.HoldsCommitted r

section Partition

variable {overflowChecks : Bool} {b first : BrokerId} {s : PartitionReplicaState}

/-- **What the loop's body can do** to a partition. -/
theorem failover_cases (overflowChecks : Bool) (b first : BrokerId) (s : PartitionReplicaState) :
    (s.leader ≠ b ∧
      failover overflowChecks b first s = (.ok none, { s with isr := s.isr.erase b })) ∨
    (s.leader = b ∧ s.isr.erase b = ∅ ∧ s.replicas = [] ∧
      failover overflowChecks b first s = (.ok none, { s with isr := s.isr.erase b })) ∨
    (∃ e r, s.leader = b ∧ addWith overflowChecks 32 s.leaderEpoch 1 = .error e ∧
      (s.isr.erase b = ∅ → s.replicas.head? = some r) ∧
      failover overflowChecks b first s =
        (.error e, { s with isr := s.isr.erase b, leader := r })) ∨
    (∃ r epoch, s.leader = b ∧ s.isr.erase b = ∅ ∧ s.replicas.head? = some r ∧
      addWith overflowChecks 32 s.leaderEpoch 1 = .ok epoch ∧
      failover overflowChecks b first s =
        (.ok (some r),
          { s with isr := insert r (s.isr.erase b), leader := r, leaderEpoch := epoch })) ∨
    (∃ epoch, s.leader = b ∧ s.isr.erase b ≠ ∅ ∧
      addWith overflowChecks 32 s.leaderEpoch 1 = .ok epoch ∧
      failover overflowChecks b first s =
        (.ok (some first),
          { s with isr := s.isr.erase b, leader := first, leaderEpoch := epoch })) := by
  by_cases hlead : s.leader = b
  · have hbody : failover overflowChecks b first s =
        electNewLeader overflowChecks first { s with isr := s.isr.erase b } := if_pos hlead
    rw [hbody]
    right
    rcases electNewLeader_cases overflowChecks first { s with isr := s.isr.erase b }
      with ⟨hisr, hrep, heq⟩ | ⟨e, r, hadd, hhead, heq⟩ | ⟨r, epoch, hisr, hhead, hadd, heq⟩ |
        ⟨epoch, hisr, hadd, heq⟩
    · left
      exact ⟨hlead, hisr, hrep, heq⟩
    · right; left
      exact ⟨e, r, hlead, hadd, hhead, heq⟩
    · right; right; left
      exact ⟨r, epoch, hlead, hisr, hhead, hadd, heq⟩
    · right; right; right
      exact ⟨epoch, hlead, hisr, hadd, heq⟩
  · left
    exact ⟨hlead, if_neg hlead⟩

theorem failover_error_iff (overflowChecks : Bool) (b first : BrokerId)
    (s : PartitionReplicaState) :
    (∃ e, (failover overflowChecks b first s).1 = .error e) ↔
      electionPanics overflowChecks b s = true := by
  unfold electionPanics
  rcases failover_cases overflowChecks b first s with ⟨hlead, heq⟩ | ⟨hlead, hisr, hrep, heq⟩ |
    ⟨e, r, hlead, hadd, hhead, heq⟩ | ⟨r, epoch, hlead, hisr, hhead, hadd, heq⟩ |
    ⟨epoch, hlead, hisr, hadd, heq⟩
  · simp [heq, hlead]
  · simp [heq, hisr, hrep]
  · have hsome : ¬ s.isr.erase b = ∅ ∨ ¬ s.replicas = [] := by
      apply not_and_or.1
      rintro ⟨hisr, hrep⟩
      rw [hrep] at hhead
      cases hhead hisr
    simp [heq, hlead, hadd, hsome, Except.isOk, Except.toBool]
  · simp [heq, hadd, Except.isOk, Except.toBool]
  · simp [heq, hadd, Except.isOk, Except.toBool]

theorem failover_frame (overflowChecks : Bool) (b first : BrokerId) (s : PartitionReplicaState) :
    (failover overflowChecks b first s).2.topic = s.topic ∧
      (failover overflowChecks b first s).2.partition = s.partition ∧
      (failover overflowChecks b first s).2.replicaOffsets = s.replicaOffsets ∧
      (failover overflowChecks b first s).2.highWatermark = s.highWatermark := by
  rcases failover_cases overflowChecks b first s with ⟨-, heq⟩ | ⟨-, -, -, heq⟩ |
    ⟨e, r, -, -, -, heq⟩ | ⟨r, epoch, -, -, -, -, heq⟩ | ⟨epoch, -, -, -, heq⟩ <;>
  · rw [heq]
    exact ⟨rfl, rfl, rfl, rfl⟩

theorem holdsCommitted_failover {r : BrokerId} :
    (failover overflowChecks b first s).2.HoldsCommitted r ↔ s.HoldsCommitted r := by
  obtain ⟨-, -, hoff, hwm⟩ := failover_frame overflowChecks b first s
  unfold HoldsCommitted
  rw [hoff, hwm]

/-- **One partition**: its ISR stays covered exactly when a fallback election finds a covered
broker. -/
theorem covered_failover_iff (h : Covered s) :
    Covered (failover overflowChecks b first s).2 ↔ FallbackCovered overflowChecks b s := by
  have hshrunk : ∀ c ∈ s.isr.erase b, s.HoldsCommitted c := by
    intro c hc
    exact h c (Finset.mem_of_mem_erase hc)
  have hcov : Covered (failover overflowChecks b first s).2 ↔
      ∀ c ∈ (failover overflowChecks b first s).2.isr, s.HoldsCommitted c := by
    constructor
    · intro hc c hmem
      exact holdsCommitted_failover.1 (hc c hmem)
    · intro hc c hmem
      exact holdsCommitted_failover.2 (hc c hmem)
  rw [hcov]
  rcases failover_cases overflowChecks b first s with ⟨hlead, heq⟩ | ⟨hlead, hisr, hrep, heq⟩ |
    ⟨e, r, hlead, hadd, hhead, heq⟩ | ⟨r, epoch, hlead, hisr, hhead, hadd, heq⟩ |
    ⟨epoch, hlead, hisr, hadd, heq⟩
  · rw [heq]
    apply iff_of_true hshrunk
    intro hl
    exact absurd hl hlead
  · rw [heq]
    apply iff_of_true hshrunk
    intro _ _ _ r hr
    rw [hrep] at hr
    cases hr
  · rw [heq]
    apply iff_of_true hshrunk
    intro _ _ hok
    rw [hadd] at hok
    cases hok
  · -- the fallback: the first replica is the whole new ISR
    rw [heq]
    constructor
    · intro hc _ _ _ r' hr'
      rw [hhead] at hr'
      cases hr'
      exact hc r (Finset.mem_insert_self ..)
    · intro hf c hc
      rw [hisr, Finset.mem_insert] at hc
      rcases hc with rfl | hc
      · exact hf hlead hisr (by rw [hadd]; rfl) c hhead
      · exact absurd hc (Finset.notMem_empty c)
  · rw [heq]
    apply iff_of_true hshrunk
    intro _ hempty
    exact absurd hempty hisr

/-- A broker that the loop reports as elected leads the partition and is in its ISR. -/
theorem failover_elected (hfirst : s.isr.erase b ≠ ∅ → first ∈ s.isr.erase b) {l : BrokerId}
    (h : (failover overflowChecks b first s).1 = .ok (some l)) :
    (failover overflowChecks b first s).2.leader = l ∧
      l ∈ (failover overflowChecks b first s).2.isr := by
  rcases failover_cases overflowChecks b first s with ⟨-, heq⟩ | ⟨-, -, -, heq⟩ |
    ⟨e, r, -, -, -, heq⟩ | ⟨r, epoch, -, -, -, -, heq⟩ | ⟨epoch, -, hisr, -, heq⟩
  all_goals rw [heq] at h ⊢; cases h
  · exact ⟨rfl, Finset.mem_insert_self ..⟩
  · exact ⟨rfl, hfirst hisr⟩

end Partition

/-! ## The loop over all partitions -/

section Loop

variable {overflowChecks : Bool} {b : BrokerId} {first : PartitionKey → BrokerId}
  {order : List PartitionKey} {states : Table PartitionKey PartitionReplicaState}

/-- The partitions that the loop gets to: all, up to a panic of the election. -/
def failoverVisited (overflowChecks : Bool) (b : BrokerId)
    (states : Table PartitionKey PartitionReplicaState) (order : List PartitionKey) :
    List PartitionKey :=
  Table.visited (fun _ => electionPanics overflowChecks b) states order

theorem failoverEntry_error_iff (k : PartitionKey) (s : PartitionReplicaState) :
    (∃ e, (failoverEntry overflowChecks b first k s).1 = .error e) ↔
      electionPanics overflowChecks b s = true := by
  rw [← failover_error_iff overflowChecks b (first k) s]
  exact Table.except_map_error_iff

/-- A partition that the loop gets to went through the body once. -/
theorem get_failoverLoop (hnodup : order.Nodup) {k : PartitionKey}
    (h : k ∈ failoverVisited overflowChecks b states order) :
    (Table.forEachMut (failoverEntry overflowChecks b first) order states).2.get k =
      (states.get k).map fun s => (failover overflowChecks b (first k) s).2 :=
  Table.get_forEachMut failoverEntry_error_iff hnodup h

/-- A partition that has a state after the loop had one before, from which it came. -/
theorem get_failoverLoop_some {k : PartitionKey} {t : PartitionReplicaState}
    (hnodup : order.Nodup)
    (h : (Table.forEachMut (failoverEntry overflowChecks b first) order states).2.get k = some t) :
    ∃ s, states.get k = some s ∧
      ((k ∈ failoverVisited overflowChecks b states order ∧
          t = (failover overflowChecks b (first k) s).2) ∨
        (k ∉ failoverVisited overflowChecks b states order ∧ t = s)) := by
  by_cases hvis : k ∈ failoverVisited overflowChecks b states order
  · rw [get_failoverLoop hnodup hvis] at h
    obtain ⟨s, hs, rfl⟩ := Option.map_eq_some_iff.1 h
    exact ⟨s, hs, Or.inl ⟨hvis, rfl⟩⟩
  · rw [Table.get_forEachMut_unvisited failoverEntry_error_iff hnodup hvis] at h
    exact ⟨t, h, Or.inr ⟨hvis, rfl⟩⟩

/-- What `handle_broker_failure` reports: the leaders that the loop's body elected. -/
theorem mem_handleBrokerFailure {c : ClusterMetadata} {newLeaders : List (String × Nat × BrokerId)}
    {e : String × Nat × BrokerId} (hnodup : order.Nodup)
    (hok : (c.handleBrokerFailure overflowChecks b order first).1 = .ok newLeaders)
    (he : e ∈ newLeaders) :
    ∃ k s, k ∈ order ∧ k ∈ failoverVisited overflowChecks b c.partitionStates order ∧
      c.partitionStates.get k = some s ∧
      (failover overflowChecks b (first k) s).1 = .ok (some e.2.2) ∧
      e.1 = s.topic ∧ e.2.1 = s.partition := by
  obtain ⟨outs, houts, rfl⟩ := Table.except_map_ok hok
  obtain ⟨out, hmem, rfl⟩ := List.mem_filterMap.1 he
  obtain ⟨k, s, hk, hs, hout⟩ := Table.mem_forEachMut hnodup houts hmem
  obtain ⟨l, hl, hpush⟩ := Table.except_map_ok hout
  obtain ⟨newLeader, rfl, rfl⟩ := Option.map_eq_some_iff.1 hpush
  obtain ⟨htopic, hpart, -, -⟩ := failover_frame overflowChecks b (first k) s
  refine ⟨k, s, hk, ?_, hs, hl, htopic, hpart⟩
  unfold failoverVisited
  rw [Table.visited_of_ok failoverEntry_error_iff hnodup houts]
  exact hk

end Loop

/-! ## Runs of operations -/

/-- A call of a `ClusterMetadata` operation; a failure with the order in which its loop visits the
partitions and the first element that an iteration over each remaining ISR gives. -/
inductive ClusterOp where
  | setPartitionReplicas (topic : String) (partition : Nat) (leader : BrokerId)
      (replicas : List BrokerId)
  | updateReplicaOffset (topic : String) (partition : Nat) (brokerId : BrokerId) (offset : Nat)
  | handleBrokerFailure (failedBrokerId : BrokerId) (order : List PartitionKey)
      (first : PartitionKey → BrokerId)

/-- `first` is an element of the ISR that the failure leaves, where it leaves one. -/
def FirstOf (b : BrokerId) (first : PartitionKey → BrokerId) (c : ClusterMetadata)
    (k : PartitionKey) : Prop :=
  ∀ s ∈ c.partitionStates.get k, s.isr.erase b ≠ ∅ → first k ∈ s.isr.erase b

instance decidableFirstOf (b : BrokerId) (first : PartitionKey → BrokerId) (c : ClusterMetadata)
    (k : PartitionKey) : Decidable (FirstOf b first c k) :=
  inferInstanceAs (Decidable (∀ s ∈ c.partitionStates.get k, _))

/-- The offset that the partition has recorded for the broker, zero without one. -/
def recordedOffset (c : ClusterMetadata) (k : PartitionKey) (b : BrokerId) : Nat :=
  match c.partitionStates.get k with
  | some s => (s.replicaOffsets.get b).getD 0
  | none => 0

/-- The calls with the leader among the replicas and no offset that goes back. -/
def clusterNext (overflowChecks : Bool) (c : ClusterMetadata) : ClusterOp → Option ClusterMetadata
  | .setPartitionReplicas topic partition leader replicas =>
    if leader ∈ replicas then some (c.setPartitionReplicas topic partition leader replicas)
    else none
  | .updateReplicaOffset topic partition b offset =>
    if recordedOffset c (topic, partition) b ≤ offset then
      some (c.updateReplicaOffset overflowChecks topic partition b offset).2
    else none
  | .handleBrokerFailure b order first =>
    if c.partitionStates.Order order ∧ ∀ k ∈ order, FirstOf b first c k then
      some (c.handleBrokerFailure overflowChecks b order first).2
    else none

/-- The leaders that a call reports as elected. -/
def elected (overflowChecks : Bool) (c : ClusterMetadata) :
    ClusterOp → List (String × Nat × BrokerId)
  | .handleBrokerFailure b order first =>
    match (c.handleBrokerFailure overflowChecks b order first).1 with
    | .ok leaders => leaders
    | .error _ => []
  | _ => []

/-- After the call every ISR member, and every leader it elected, has a recorded offset at or above
the high watermark. -/
def CommittedSurvives (overflowChecks : Bool) (c : ClusterMetadata) (op : ClusterOp)
    (d : ClusterMetadata) : Prop :=
  (∀ k s, d.partitionStates.get k = some s → ∀ b ∈ s.isr, s.HoldsCommitted b) ∧
  ∀ e ∈ elected overflowChecks c op, ∃ s, d.partitionStates.get (e.1, e.2.1) = some s ∧
    s.leader = e.2.2 ∧ s.HoldsCommitted e.2.2

/-- A reassignment names only brokers that have the committed offsets, and a failure leaves no
partition it gets to with an empty ISR and a first replica that does not have them. -/
def KeepsCommitted (overflowChecks : Bool) (c : ClusterMetadata) (op : ClusterOp)
    (_ : ClusterMetadata) : Prop :=
  match op with
  | .setPartitionReplicas topic partition _ replicas =>
    ∀ s, c.partitionStates.get (topic, partition) = some s → ∀ b ∈ replicas, s.HoldsCommitted b
  | .updateReplicaOffset .. => True
  | .handleBrokerFailure b order _ =>
    ∀ k ∈ failoverVisited overflowChecks b c.partitionStates order, ∀ s,
      c.partitionStates.get k = some s → FallbackCovered overflowChecks b s

/-- Every partition's state is stored under its own key. -/
def Keyed (c : ClusterMetadata) : Prop :=
  ∀ k s, c.partitionStates.get k = some s → (s.topic, s.partition) = k

/-- Every partition's ISR is covered. -/
def AllCovered (c : ClusterMetadata) : Prop :=
  ∀ k s, c.partitionStates.get k = some s → Covered s

section Step

variable {overflowChecks : Bool} {c d : ClusterMetadata}

/-- Setting one partition's state keeps what holds of every partition exactly when it holds of the
new state. -/
theorem forall_insert_iff {P : PartitionKey → PartitionReplicaState → Prop}
    {states : Table PartitionKey PartitionReplicaState}
    (h : ∀ k s, states.get k = some s → P k s) (k : PartitionKey) (s : PartitionReplicaState) :
    (∀ k' s', (states.insert k s).get k' = some s' → P k' s') ↔ P k s := by
  constructor
  · intro h'
    exact h' k s (Table.get_insert_self ..)
  · intro hs k' s' hget
    rw [Table.get_insert] at hget
    split at hget
    · rename_i hk
      cases hget
      exact hk ▸ hs
    · exact h k' s' hget

theorem updateReplicaOffset_frame (overflowChecks : Bool) (b : BrokerId) (offset lag : Nat)
    (s : PartitionReplicaState) :
    (s.updateReplicaOffset overflowChecks b offset lag).2.topic = s.topic ∧
      (s.updateReplicaOffset overflowChecks b offset lag).2.partition = s.partition := by
  rcases PartitionReplicaState.updateReplicaOffset_cases overflowChecks b offset lag s with
    ⟨e, -, heq⟩ | ⟨-, heq⟩ | ⟨-, heq⟩ <;>
  · rw [heq]
    simp [record]

/-- The new state of a partition that is assigned replicas. -/
theorem setPartitionReplicas_states (topic : String) (partition : Nat) (leader : BrokerId)
    (replicas : List BrokerId) (c : ClusterMetadata) :
    (c.setPartitionReplicas topic partition leader replicas).partitionStates =
      c.partitionStates.insert (topic, partition)
        ((c.partitionStates.get (topic, partition)).elim
          (PartitionReplicaState.new topic partition leader replicas)
          fun s => { s with leader := leader, replicas := replicas, isr := replicas.toFinset }) := by
  unfold setPartitionReplicas
  cases c.partitionStates.get (topic, partition) <;> rfl

theorem updateReplicaOffset_states (topic : String) (partition : Nat) (b : BrokerId)
    (offset : Nat) (c : ClusterMetadata) :
    (c.updateReplicaOffset overflowChecks topic partition b offset).2.partitionStates =
      (c.partitionStates.get (topic, partition)).elim c.partitionStates fun s =>
        c.partitionStates.insert (topic, partition)
          (s.updateReplicaOffset overflowChecks b offset c.isrLagThreshold).2 := by
  unfold ClusterMetadata.updateReplicaOffset
  cases c.partitionStates.get (topic, partition) <;> rfl

/-- What holds of every partition is kept by an assignment that keeps it of the partition assigned. -/
theorem forall_setPartitionReplicas {P : PartitionKey → PartitionReplicaState → Prop}
    {topic : String} {partition : Nat} {leader : BrokerId} {replicas : List BrokerId}
    (h : ∀ k s, c.partitionStates.get k = some s → P k s)
    (hnew : P (topic, partition) (PartitionReplicaState.new topic partition leader replicas))
    (hold : ∀ s, P (topic, partition) s → P (topic, partition)
      { s with leader := leader, replicas := replicas, isr := replicas.toFinset }) :
    ∀ k s, (c.setPartitionReplicas topic partition leader replicas).partitionStates.get k = some s →
      P k s := by
  rw [setPartitionReplicas_states]
  apply (forall_insert_iff h _ _).2
  cases hget : c.partitionStates.get (topic, partition) with
  | none => exact hnew
  | some s => exact hold s (h _ s hget)

/-- The same for an offset update. -/
theorem forall_updateReplicaOffset {P : PartitionKey → PartitionReplicaState → Prop}
    {topic : String} {partition : Nat} {b : BrokerId} {offset : Nat}
    (h : ∀ k s, c.partitionStates.get k = some s → P k s)
    (hupdate : ∀ s, c.partitionStates.get (topic, partition) = some s → P (topic, partition)
      (s.updateReplicaOffset overflowChecks b offset c.isrLagThreshold).2) :
    ∀ k s, (c.updateReplicaOffset overflowChecks topic partition b offset).2.partitionStates.get k =
      some s → P k s := by
  rw [updateReplicaOffset_states]
  cases hget : c.partitionStates.get (topic, partition) with
  | none => exact h
  | some s => exact (forall_insert_iff h _ _).2 (hupdate s hget)

/-- The same for a failure, which runs its body on the partitions it gets to. -/
theorem forall_handleBrokerFailure {P : PartitionKey → PartitionReplicaState → Prop}
    {b : BrokerId} {order : List PartitionKey} {first : PartitionKey → BrokerId}
    (hnodup : order.Nodup) (h : ∀ k s, c.partitionStates.get k = some s → P k s)
    (hfail : ∀ k s, k ∈ failoverVisited overflowChecks b c.partitionStates order →
      c.partitionStates.get k = some s → P k (failover overflowChecks b (first k) s).2) :
    ∀ k s, (c.handleBrokerFailure overflowChecks b order first).2.partitionStates.get k = some s →
      P k s := by
  intro k t ht
  obtain ⟨s, hs, ⟨hvisited, rfl⟩ | ⟨-, rfl⟩⟩ := get_failoverLoop_some hnodup ht
  · exact hfail k s hvisited hs
  · exact h k t hs

/-- **What a call can do** to the states of the partitions. -/
theorem clusterNext_cases {op : ClusterOp} (h : clusterNext overflowChecks c op = some d) :
    (∃ topic partition leader replicas,
      op = .setPartitionReplicas topic partition leader replicas ∧ leader ∈ replicas ∧
      d.partitionStates = c.partitionStates.insert (topic, partition)
        ((c.partitionStates.get (topic, partition)).elim
          (PartitionReplicaState.new topic partition leader replicas)
          fun s => { s with leader := leader, replicas := replicas, isr := replicas.toFinset })) ∨
    (∃ topic partition b offset, op = .updateReplicaOffset topic partition b offset ∧
      recordedOffset c (topic, partition) b ≤ offset ∧
      d.partitionStates = (c.partitionStates.get (topic, partition)).elim c.partitionStates
        fun s => c.partitionStates.insert (topic, partition)
          (s.updateReplicaOffset overflowChecks b offset c.isrLagThreshold).2) ∨
    (∃ b order first, op = .handleBrokerFailure b order first ∧ c.partitionStates.Order order ∧
      (∀ k ∈ order, FirstOf b first c k) ∧
      d.partitionStates = (Table.forEachMut (failoverEntry overflowChecks b first) order
        c.partitionStates).2) := by
  cases op with
  | setPartitionReplicas topic partition leader replicas =>
    left
    simp only [clusterNext, Option.ite_none_right_eq_some, Option.some.injEq] at h
    obtain ⟨hmem, rfl⟩ := h
    exact ⟨topic, partition, leader, replicas, rfl, hmem, setPartitionReplicas_states ..⟩
  | updateReplicaOffset topic partition b offset =>
    right; left
    simp only [clusterNext, Option.ite_none_right_eq_some, Option.some.injEq] at h
    obtain ⟨hle, rfl⟩ := h
    exact ⟨topic, partition, b, offset, rfl, hle, updateReplicaOffset_states ..⟩
  | handleBrokerFailure b order first =>
    right; right
    simp only [clusterNext, Option.ite_none_right_eq_some, Option.some.injEq] at h
    obtain ⟨⟨horder, hfirst⟩, rfl⟩ := h
    exact ⟨b, order, first, rfl, horder, hfirst, rfl⟩

theorem Keyed.next (h : Keyed c) {op : ClusterOp}
    (hstep : clusterNext overflowChecks c op = some d) : Keyed d := by
  unfold Keyed
  rcases clusterNext_cases hstep with ⟨topic, partition, leader, replicas, -, -, heq⟩ |
    ⟨topic, partition, b, offset, -, -, heq⟩ | ⟨b, order, first, -, horder, -, heq⟩
  · rw [heq, ← setPartitionReplicas_states]
    exact forall_setPartitionReplicas h rfl fun s hs => hs
  · rw [heq, ← updateReplicaOffset_states]
    refine forall_updateReplicaOffset h fun s hs => ?_
    obtain ⟨htopic, hpart⟩ := updateReplicaOffset_frame overflowChecks b offset
      c.isrLagThreshold s
    rw [htopic, hpart]
    exact h _ s hs
  · rw [heq]
    refine forall_handleBrokerFailure horder.nodup h fun k s _ hs => ?_
    obtain ⟨htopic, hpart, -, -⟩ := failover_frame overflowChecks b (first k) s
    rw [htopic, hpart]
    exact h k s hs

/-- **One call** keeps every ISR covered exactly when the condition holds. -/
theorem allCovered_next_iff (h : AllCovered c) {op : ClusterOp}
    (hstep : clusterNext overflowChecks c op = some d) :
    AllCovered d ↔ KeepsCommitted overflowChecks c op d := by
  unfold AllCovered
  rcases clusterNext_cases hstep with ⟨topic, partition, leader, replicas, rfl, -, heq⟩ |
    ⟨topic, partition, b, offset, rfl, hle, heq⟩ | ⟨b, order, first, rfl, horder, -, heq⟩
  · rw [heq, forall_insert_iff h]
    unfold KeepsCommitted
    cases hget : c.partitionStates.get (topic, partition) with
    | none =>
      apply iff_of_true
      · exact covered_new topic partition leader replicas
      · intro s hs
        rw [hget] at hs
        cases hs
    | some s =>
      constructor
      · intro hcov s' hs' b hb
        rw [hget] at hs'
        cases hs'
        exact hcov b (List.mem_toFinset.2 hb)
      · intro hall b hb
        exact hall s hget b (List.mem_toFinset.1 hb)
  · apply iff_of_true _ trivial
    rw [heq]
    unfold recordedOffset at hle
    cases hget : c.partitionStates.get (topic, partition) with
    | none => exact h
    | some s =>
      rw [hget] at hle
      apply (forall_insert_iff h _ _).2
      exact (h _ s hget).updateReplicaOffset overflowChecks b c.isrLagThreshold hle
  · rw [heq]
    constructor
    · intro hall k hvis s hs
      have ht : (Table.forEachMut (failoverEntry overflowChecks b first) order
        c.partitionStates).2.get k =
          some (failover overflowChecks b (first k) s).2 := by
        rw [get_failoverLoop horder.nodup hvis, hs]
        rfl
      exact (covered_failover_iff (h k s hs)).1 (hall k _ ht)
    · intro hsafe k t ht
      obtain ⟨s, hs, ⟨hvis, rfl⟩ | ⟨-, rfl⟩⟩ := get_failoverLoop_some horder.nodup ht
      · exact (covered_failover_iff (h k s hs)).2 (hsafe k hvis s hs)
      · exact h k t hs

/-- An elected leader is the partition's leader and in its ISR. -/
theorem elected_mem_isr (hkeyed : Keyed c) {op : ClusterOp}
    (hstep : clusterNext overflowChecks c op = some d) {e : String × Nat × BrokerId}
    (he : e ∈ elected overflowChecks c op) :
    ∃ s, d.partitionStates.get (e.1, e.2.1) = some s ∧ s.leader = e.2.2 ∧ e.2.2 ∈ s.isr := by
  rcases clusterNext_cases hstep with ⟨topic, partition, leader, replicas, rfl, -, -⟩ |
    ⟨topic, partition, b, offset, rfl, -, -⟩ | ⟨b, order, first, rfl, horder, hfirst, heq⟩
  · cases he
  · cases he
  · unfold elected at he
    dsimp only at he
    split at he
    · rename_i leaders hok
      obtain ⟨k, s, hk, hvis, hs, hel, htopic, hpart⟩ :=
        mem_handleBrokerFailure horder.nodup hok he
      obtain ⟨hleader, hisr⟩ := failover_elected (hfirst k hk s hs) hel
      have hkey : (e.1, e.2.1) = k := by rw [htopic, hpart, hkeyed k s hs]
      rw [heq, hkey]
      refine ⟨(failover overflowChecks b (first k) s).2, ?_, hleader, hisr⟩
      rw [get_failoverLoop horder.nodup hvis, hs]
      rfl
    · cases he

theorem committedSurvives_iff (hkeyed : Keyed c) (h : AllCovered c) {op : ClusterOp}
    (hstep : clusterNext overflowChecks c op = some d) :
    CommittedSurvives overflowChecks c op d ↔ KeepsCommitted overflowChecks c op d := by
  rw [← allCovered_next_iff h hstep]
  constructor
  · intro hsurv
    exact hsurv.1
  · intro hall
    refine ⟨hall, ?_⟩
    intro e he
    obtain ⟨s, hs, hleader, hisr⟩ := elected_mem_isr hkeyed hstep he
    exact ⟨s, hs, hleader, hall _ s hs _ hisr⟩

end Step

/-- **Committed offsets over a run**: after every call each ISR member and each leader it elected
has a recorded offset at or above the high watermark, exactly when no call of the run reassigns a
partition to a broker without one or falls back to one. -/
theorem committed_survives_iff (overflowChecks : Bool) (brokerId : BrokerId)
    (brokerTimeout isrLagThreshold : Nat) {tr : List (ClusterOp × ClusterMetadata)}
    (hrun : Run (Steps (clusterNext overflowChecks))
      (ClusterMetadata.new brokerId brokerTimeout isrLagThreshold) tr) :
    EachStep (CommittedSurvives overflowChecks)
        (ClusterMetadata.new brokerId brokerTimeout isrLagThreshold) tr ↔
      EachStep (KeepsCommitted overflowChecks)
        (ClusterMetadata.new brokerId brokerTimeout isrLagThreshold) tr := by
  have hinit : Keyed (ClusterMetadata.new brokerId brokerTimeout isrLagThreshold) ∧
      AllCovered (ClusterMetadata.new brokerId brokerTimeout isrLagThreshold) := by
    constructor
    · intro k s hs
      cases hs
    · intro k s hs
      cases hs
  refine eachStep_iff (I := fun c => Keyed c ∧ AllCovered c) ?_ ?_ hinit hrun
  · intro c op d h hstep hkeeps
    exact ⟨h.1.next hstep, (allCovered_next_iff h.2 hstep).2 hkeeps⟩
  · intro c op d h hstep
    exact committedSurvives_iff h.1 h.2 hstep

/-- A leader with two followers fails when one of them has dropped out of the ISR. -/
def failureRun : List ClusterOp :=
  [.setPartitionReplicas "orders" 0 1 [1, 2, 3], .updateReplicaOffset "orders" 0 1 100,
    .updateReplicaOffset "orders" 0 2 95, .updateReplicaOffset "orders" 0 3 80,
    .handleBrokerFailure 1 [("orders", 0)] fun _ => 2]

theorem committed_survives_iff_failure :
    ∃ tr, trace (clusterNext true) (ClusterMetadata.new 0 30000 10) failureRun = some tr ∧
      (EachStep (CommittedSurvives true) (ClusterMetadata.new 0 30000 10) tr ↔
        EachStep (KeepsCommitted true) (ClusterMetadata.new 0 30000 10) tr) := by
  obtain ⟨tr, htr⟩ := Option.isSome_iff_exists.1 (show (trace (clusterNext true)
    (ClusterMetadata.new 0 30000 10) failureRun).isSome = true by decide +kernel)
  exact ⟨tr, htr, committed_survives_iff true 0 30000 10 (run_of_trace htr)⟩

/-- Broker 2 is replaced by broker 3, which has no offset, and the leader fails. -/
def reassignmentRun : List ClusterOp :=
  [.setPartitionReplicas "orders" 0 1 [1, 2], .updateReplicaOffset "orders" 0 1 100,
    .updateReplicaOffset "orders" 0 2 100, .setPartitionReplicas "orders" 0 1 [1, 3],
    .handleBrokerFailure 1 [("orders", 0)] fun _ => 3]

/-- The leader elected after a reassignment has no recorded offset, and the watermark is 100. -/
theorem committed_lost_in_failover : ¬ ∀ tr : List (ClusterOp × ClusterMetadata),
    Run (Steps (clusterNext true)) (ClusterMetadata.new 0 30000 10) tr →
    EachStep (CommittedSurvives true) (ClusterMetadata.new 0 30000 10) tr := by
  intro h
  obtain ⟨tr, htr, hbad⟩ := Option.map_eq_some_iff.1 (show (trace (clusterNext true)
    (ClusterMetadata.new 0 30000 10) reassignmentRun).map (fun tr => decide
      (EachStep (fun c op d => ∀ e ∈ elected true c op,
        ∃ s ∈ d.partitionStates.get (e.1, e.2.1), s.HoldsCommitted e.2.2)
        (ClusterMetadata.new 0 30000 10) tr)) = some false by decide +kernel)
  apply of_decide_eq_false hbad
  apply EachStep.mono _ (h tr (run_of_trace htr))
  intro c op d hsurv e he
  obtain ⟨s, hs, -, hholds⟩ := hsurv.2 e he
  exact ⟨s, hs, hholds⟩

end Gaffa
