import Gaffa.Broker.Failover

/-!
# The leader and the ISR

`broker/src/cluster.rs`.  Assignments put the leader among the replicas and these into the ISR, a
report of the leader is never behind itself, and an election takes a member of the ISR or makes one.
The fallback election sets the leader, then counts the epoch up, then fills the ISR: where the epoch
has no successor it panics in between.

* `leaderInSync_failover_iff`, `LeaderInSync.updateReplicaOffset`: what keeps the leader in the ISR.
* `leader_in_sync_iff`: over runs the leader of every partition is in its ISR, exactly when no
  fallback election panics.
-/

set_option autoImplicit false

namespace Gaffa

open Transition PartitionReplicaState ClusterMetadata

/-- Assignments of a leader among the replicas, offset updates whose sum with the threshold is a
`u64`, and failures of brokers.  A failure that panics leaves what it has changed. -/
def membershipNext (overflowChecks : Bool) (c : ClusterMetadata) :
    ClusterOp → Option ClusterMetadata
  | .setPartitionReplicas topic partition leader replicas =>
    if leader ∈ replicas then some (c.setPartitionReplicas topic partition leader replicas)
    else none
  | .updateReplicaOffset topic partition b offset =>
    if offset + c.isrLagThreshold < 2 ^ 64 then
      some (c.updateReplicaOffset overflowChecks topic partition b offset).2
    else none
  | .handleBrokerFailure b order first =>
    if c.partitionStates.Order order ∧ ∀ k ∈ order, FirstOf b first c k then
      some (c.handleBrokerFailure overflowChecks b order first).2
    else none

/-- The ISR has the leader, and the partition has replicas. -/
structure LeaderInSync (s : PartitionReplicaState) : Prop where
  leader : s.leader ∈ s.isr
  replicas : s.replicas ≠ []

/-- If the failure of `b` leaves the ISR of a partition that `b` leads empty, its epoch has a
successor. -/
def FallbackElects (overflowChecks : Bool) (b : BrokerId) (s : PartitionReplicaState) : Prop :=
  s.leader = b → s.isr.erase b = ∅ → overflowChecks = true → s.leaderEpoch + 1 < 2 ^ 32

/-- No failure gets to a partition whose fallback election would panic. -/
def KeepsInSync (overflowChecks : Bool) (c : ClusterMetadata) (op : ClusterOp)
    (_ : ClusterMetadata) : Prop :=
  match op with
  | .handleBrokerFailure b order _ =>
    ∀ k ∈ failoverVisited overflowChecks b c.partitionStates order, ∀ s,
      c.partitionStates.get k = some s → FallbackElects overflowChecks b s
  | _ => True

/-- The ISR of every partition is not empty and has the leader. -/
def AllInSync (c : ClusterMetadata) : Prop :=
  ∀ k s, c.partitionStates.get k = some s → s.isr.Nonempty ∧ s.leader ∈ s.isr

section Step

variable {overflowChecks : Bool} {s : PartitionReplicaState} {b first : BrokerId}
  {offset lag : Nat}

theorem leaderInSync_of_mem {leader : BrokerId} {replicas : List BrokerId}
    (h : leader ∈ replicas) (s : PartitionReplicaState) :
    LeaderInSync { s with leader := leader, replicas := replicas, isr := replicas.toFinset } :=
  ⟨List.mem_toFinset.2 h, List.ne_nil_of_mem h⟩

/-- **An offset update** takes no leader out of the ISR: its own report passes the lag test. -/
theorem LeaderInSync.updateReplicaOffset (h : LeaderInSync s) (hsum : offset + lag < 2 ^ 64) :
    LeaderInSync (s.updateReplicaOffset overflowChecks b offset lag).2 := by
  rcases updateReplicaOffset_cases overflowChecks b offset lag s with
    ⟨e, -, heq⟩ | ⟨-, heq⟩ | ⟨hlag, heq⟩
  · rw [heq]
    exact ⟨h.leader, h.replicas⟩
  · rw [heq]
    refine ⟨?_, by rw [updateHighWatermark_replicas]; exact h.replicas⟩
    rw [updateHighWatermark_isr, updateHighWatermark_leader]
    exact Finset.mem_insert_of_mem h.leader
  · have hne : s.leader ≠ b := by
      rintro rfl
      rw [lagTest_of_lt overflowChecks hsum, leaderOffset_record, if_pos rfl, Except.ok.injEq,
        decide_eq_false_iff_not] at hlag
      exact hlag (Nat.le_add_right ..)
    rw [heq]
    refine ⟨?_, by rw [updateHighWatermark_replicas]; exact h.replicas⟩
    rw [updateHighWatermark_isr, updateHighWatermark_leader]
    exact Finset.mem_erase.2 ⟨hne, h.leader⟩

theorem failover_replicas (overflowChecks : Bool) (b first : BrokerId)
    (s : PartitionReplicaState) : (failover overflowChecks b first s).2.replicas = s.replicas := by
  rcases failover_cases overflowChecks b first s with ⟨-, heq⟩ | ⟨-, -, -, heq⟩ |
    ⟨e, r, -, -, -, heq⟩ | ⟨r, epoch, -, -, -, -, heq⟩ | ⟨epoch, -, -, -, heq⟩ <;>
  rw [heq]

/-- Where the ISR keeps a member, the failure of the leader makes one the leader, also when it
panics behind that. -/
theorem failover_of_isr (hlead : s.leader = b) (hisr : s.isr.erase b ≠ ∅) :
    (failover overflowChecks b first s).2.leader = first ∧
      (failover overflowChecks b first s).2.isr = s.isr.erase b := by
  have hbody : failover overflowChecks b first s =
      electNewLeader overflowChecks first { s with isr := s.isr.erase b } := if_pos hlead
  rw [hbody, electNewLeader, if_neg hisr]
  cases hadd : addWith overflowChecks 32 s.leaderEpoch 1 <;>
  · simp only [bumpEpoch, hadd, and_self]

/-- **A failure** leaves the leader in the ISR, exactly when it does not panic in a fallback
election. -/
theorem leaderInSync_failover_iff (h : LeaderInSync s)
    (hfirst : s.isr.erase b ≠ ∅ → first ∈ s.isr.erase b) :
    LeaderInSync (failover overflowChecks b first s).2 ↔ FallbackElects overflowChecks b s := by
  by_cases hlead : s.leader = b
  · by_cases hisr : s.isr.erase b = ∅
    · rcases failover_cases overflowChecks b first s with ⟨hne, -⟩ | ⟨-, -, hrep, -⟩ |
        ⟨e, r, -, hadd, -, heq⟩ | ⟨r, epoch, -, -, -, hadd, heq⟩ | ⟨epoch, -, hne, -, -⟩
      · exact absurd hlead hne
      · exact absurd hrep h.replicas
      · obtain ⟨hchecks, hfull⟩ := (addWith_error_iff overflowChecks 32 s.leaderEpoch 1).1 ⟨e, hadd⟩
        refine iff_of_false ?_ fun helects => Nat.not_lt_of_le hfull (helects hlead hisr hchecks)
        rw [heq]
        intro hsync
        have hmem : r ∈ s.isr.erase b := hsync.leader
        rw [hisr] at hmem
        exact Finset.notMem_empty r hmem
      · refine iff_of_true ?_ fun _ _ hchecks => ?_
        · rw [heq]
          exact ⟨Finset.mem_insert_self .., h.replicas⟩
        · by_contra hfull
          obtain ⟨e, he⟩ := (addWith_error_iff overflowChecks 32 s.leaderEpoch 1).2
            ⟨hchecks, Nat.le_of_not_lt hfull⟩
          rw [hadd] at he
          cases he
      · exact absurd hisr hne
    · obtain ⟨hleader, hleft⟩ := failover_of_isr hlead hisr
      refine iff_of_true ⟨?_, by rw [failover_replicas]; exact h.replicas⟩
        fun _ hempty => absurd hempty hisr
      rw [hleader, hleft]
      exact hfirst hisr
  · have hbody : failover overflowChecks b first s = (.ok none, { s with isr := s.isr.erase b }) :=
      if_neg hlead
    refine iff_of_true ?_ fun hl => absurd hl hlead
    rw [hbody]
    exact ⟨Finset.mem_erase.2 ⟨hlead, h.leader⟩, h.replicas⟩

/-- **What a call can do**, as `clusterNext_cases` says it for other guards. -/
theorem membershipNext_cases {c d : ClusterMetadata} {op : ClusterOp}
    (h : membershipNext overflowChecks c op = some d) :
    (∃ topic partition leader replicas,
      op = .setPartitionReplicas topic partition leader replicas ∧ leader ∈ replicas ∧
      d = c.setPartitionReplicas topic partition leader replicas) ∨
    (∃ topic partition b offset, op = .updateReplicaOffset topic partition b offset ∧
      offset + c.isrLagThreshold < 2 ^ 64 ∧
      d = (c.updateReplicaOffset overflowChecks topic partition b offset).2) ∨
    (∃ b order first, op = .handleBrokerFailure b order first ∧ c.partitionStates.Order order ∧
      (∀ k ∈ order, FirstOf b first c k) ∧
      d = (c.handleBrokerFailure overflowChecks b order first).2) := by
  cases op with
  | setPartitionReplicas topic partition leader replicas =>
    simp only [membershipNext, Option.ite_none_right_eq_some, Option.some.injEq] at h
    exact .inl ⟨topic, partition, leader, replicas, rfl, h.1, h.2.symm⟩
  | updateReplicaOffset topic partition b offset =>
    simp only [membershipNext, Option.ite_none_right_eq_some, Option.some.injEq] at h
    exact .inr (.inl ⟨topic, partition, b, offset, rfl, h.1, h.2.symm⟩)
  | handleBrokerFailure b order first =>
    simp only [membershipNext, Option.ite_none_right_eq_some, Option.some.injEq] at h
    exact .inr (.inr ⟨b, order, first, rfl, h.1.1, h.1.2, h.2.symm⟩)

variable {c d : ClusterMetadata} {op : ClusterOp}

/-- **A call** keeps the leader of every partition in its ISR. -/
theorem LeaderInSync.next (h : ∀ k s, c.partitionStates.get k = some s → LeaderInSync s)
    (hstep : membershipNext overflowChecks c op = some d)
    (hkeeps : KeepsInSync overflowChecks c op d) :
    ∀ k s, d.partitionStates.get k = some s → LeaderInSync s := by
  rcases membershipNext_cases hstep with ⟨topic, partition, leader, replicas, rfl, hmem, rfl⟩ |
    ⟨topic, partition, b, offset, rfl, hsum, rfl⟩ | ⟨b, order, first, rfl, horder, hfirst, rfl⟩
  · exact forall_setPartitionReplicas h
      (leaderInSync_of_mem hmem (PartitionReplicaState.new topic partition leader replicas))
      fun s _ => leaderInSync_of_mem hmem s
  · exact forall_updateReplicaOffset h fun s hs => (h _ s hs).updateReplicaOffset hsum
  · refine forall_handleBrokerFailure horder.nodup h fun k s hvisited hs => ?_
    have hk : k ∈ order := horder.mem_iff.2 ⟨s, hs⟩
    exact (leaderInSync_failover_iff (h k s hs) (hfirst k hk s hs)).2 (hkeeps k hvisited s hs)

/-- A call behind which every leader is in its ISR made no fallback election panic. -/
theorem keepsInSync_of_allInSync (h : ∀ k s, c.partitionStates.get k = some s → LeaderInSync s)
    (hstep : membershipNext overflowChecks c op = some d) (hsync : AllInSync d) :
    KeepsInSync overflowChecks c op d := by
  rcases membershipNext_cases hstep with ⟨topic, partition, leader, replicas, rfl, -, -⟩ |
    ⟨topic, partition, b, offset, rfl, -, -⟩ | ⟨b, order, first, rfl, horder, hfirst, rfl⟩
  · exact trivial
  · exact trivial
  · intro k hvisited s hs
    have hk : k ∈ order := horder.mem_iff.2 ⟨s, hs⟩
    refine (leaderInSync_failover_iff (h k s hs) (hfirst k hk s hs)).1 ?_
    have hget : (c.handleBrokerFailure overflowChecks b order first).2.partitionStates.get k =
        some (failover overflowChecks b (first k) s).2 :=
      (get_failoverLoop horder.nodup hvisited).trans (by rw [hs]; rfl)
    exact ⟨(hsync k _ hget).2, by rw [failover_replicas]; exact (h k s hs).replicas⟩

end Step

/-- **The leader is always in sync**: over runs the ISR of every partition is not empty and has the
leader, exactly when no failure gets to a partition whose fallback election panics. -/
theorem leader_in_sync_iff (overflowChecks : Bool) (brokerId : BrokerId)
    (brokerTimeout isrLagThreshold : Nat) {tr : List (ClusterOp × ClusterMetadata)}
    (hrun : Run (Steps (membershipNext overflowChecks))
      (ClusterMetadata.new brokerId brokerTimeout isrLagThreshold) tr) :
    Throughout AllInSync (ClusterMetadata.new brokerId brokerTimeout isrLagThreshold) tr ↔
      EachStep (KeepsInSync overflowChecks)
        (ClusterMetadata.new brokerId brokerTimeout isrLagThreshold) tr := by
  refine throughout_iff
    (I := fun c : ClusterMetadata => ∀ k s, c.partitionStates.get k = some s → LeaderInSync s)
    (fun c op d h hstep hkeeps => LeaderInSync.next h hstep hkeeps)
    (fun c h k s hs => ⟨⟨s.leader, (h k s hs).leader⟩, (h k s hs).leader⟩)
    (fun c op d h hstep hsync => keepsInSync_of_allInSync h hstep hsync)
    (fun k s hget => by cases hget) hrun

/-- A lagging follower is left alone with a leader that fails, and a broker from outside reports. -/
def everyBranchRun : List ClusterOp :=
  [.setPartitionReplicas "orders" 0 1 [1, 2], .updateReplicaOffset "orders" 0 1 100,
    .updateReplicaOffset "orders" 0 2 50, .updateReplicaOffset "orders" 0 7 95,
    .handleBrokerFailure 1 [("orders", 0)] fun _ => 7,
    .handleBrokerFailure 7 [("orders", 0)] fun _ => 0, .setPartitionReplicas "orders" 0 3 [3, 2]]

theorem leader_in_sync_iff_branches : ∃ tr,
    trace (membershipNext true) (ClusterMetadata.new 0 30000 10) everyBranchRun = some tr ∧
      (Throughout AllInSync (ClusterMetadata.new 0 30000 10) tr ↔
        EachStep (KeepsInSync true) (ClusterMetadata.new 0 30000 10) tr) := by
  obtain ⟨tr, htr⟩ := Option.isSome_iff_exists.1 (show (trace (membershipNext true)
    (ClusterMetadata.new 0 30000 10) everyBranchRun).isSome = true by decide +kernel)
  exact ⟨tr, htr, leader_in_sync_iff true 0 30000 10 (run_of_trace htr)⟩

/-! ## The last epoch -/

/-- A partition of broker 1 alone, after `epoch` failures of it. -/
def onlyReplica (epoch : Nat) : ClusterMetadata :=
  { ClusterMetadata.new 0 30000 10 with
    partitionStates := Table.empty.insert ("orders", 0)
      { PartitionReplicaState.new "orders" 0 1 [1] with leaderEpoch := epoch } }

/-- The failure of broker 1. -/
def onlyFailure : ClusterOp := .handleBrokerFailure 1 [("orders", 0)] fun _ => 0

/-- What the failure of broker 1 leaves. -/
def afterFailure (epoch : Nat) : ClusterMetadata :=
  ((onlyReplica epoch).handleBrokerFailure true 1 [("orders", 0)] fun _ => 0).2

/-- `n` failures of broker 1 behind which there is another epoch, and one more. -/
def failures : Nat → Nat → List (ClusterOp × ClusterMetadata)
  | epoch, 0 => [(onlyFailure, afterFailure epoch)]
  | epoch, n + 1 => (onlyFailure, onlyReplica (epoch + 1)) :: failures (epoch + 1) n

theorem membershipNext_onlyFailure (epoch : Nat) :
    membershipNext true (onlyReplica epoch) onlyFailure = some (afterFailure epoch) := by
  unfold membershipNext onlyFailure
  refine if_pos ⟨⟨by simp, by simp [onlyReplica]⟩, ?_⟩
  intro k hk s hs hne
  rw [List.mem_singleton.1 hk, onlyReplica, Table.get_insert_self] at hs
  cases hs
  exact absurd rfl hne

/-- While the epoch has a successor, the failure elects broker 1 again. -/
theorem afterFailure_of_lt {epoch : Nat} (h : epoch + 1 < 2 ^ 32) :
    afterFailure epoch = onlyReplica (epoch + 1) := by
  have hadd : addWith true 32 epoch 1 = .ok (epoch + 1) := addWith_of_lt true h
  have hfail : failover true 1 0
      { PartitionReplicaState.new "orders" 0 1 [1] with leaderEpoch := epoch } =
      (.ok (some 1), { PartitionReplicaState.new "orders" 0 1 [1] with leaderEpoch := epoch + 1 }) := by
    simp [failover, electNewLeader, bumpEpoch, PartitionReplicaState.new, hadd]
  unfold afterFailure onlyReplica
  simp only [handleBrokerFailure, Table.forEachMut, Table.get_insert_self, failoverEntry, hfail,
    Except.map, Table.insert_insert]

/-- At the last epoch it leaves the ISR empty. -/
theorem not_allInSync_afterFailure {epoch : Nat} (h : epoch + 1 = 2 ^ 32) :
    ¬ AllInSync (afterFailure epoch) := by
  intro hsync
  have hkeeps := keepsInSync_of_allInSync ?_ (membershipNext_onlyFailure epoch) hsync
  · have hlt := hkeeps ("orders", 0) ?_ _ (Table.get_insert_self ..) rfl rfl rfl
    · exact absurd hlt (Nat.not_lt_of_le (Nat.le_of_eq h.symm))
    · unfold failoverVisited Table.visited
      split <;> exact List.mem_cons_self ..
  · intro k s hs
    rw [onlyReplica, Table.get_insert] at hs
    split at hs
    · cases hs
      exact ⟨List.mem_toFinset.2 (List.mem_singleton_self 1), List.cons_ne_nil 1 []⟩
    · cases hs

theorem run_failures {n : Nat} : ∀ epoch : Nat, epoch + n + 1 = 2 ^ 32 →
    Run (Steps (membershipNext true)) (onlyReplica epoch) (failures epoch n) ∧
      ¬ AllInSync (last (onlyReplica epoch) (failures epoch n)) := by
  induction n with
  | zero =>
    intro epoch h
    exact ⟨⟨membershipNext_onlyFailure epoch, trivial⟩, not_allInSync_afterFailure h⟩
  | succ n ih =>
    intro epoch h
    obtain ⟨hrun, hlast⟩ := ih (epoch + 1) (by omega)
    refine ⟨⟨?_, hrun⟩, hlast⟩
    rw [Steps, membershipNext_onlyFailure, afterFailure_of_lt (by omega)]

/-- Broker 1 is the only replica, and fails until its epoch has no successor. -/
theorem leader_left_out_of_sync : ¬ ∀ tr : List (ClusterOp × ClusterMetadata),
    Run (Steps (membershipNext true)) (ClusterMetadata.new 0 30000 10) tr →
    Throughout AllInSync (ClusterMetadata.new 0 30000 10) tr := by
  intro h
  obtain ⟨n, hn⟩ : ∃ n, 0 + n + 1 = 2 ^ 32 := ⟨2 ^ 32 - 1, by decide⟩
  obtain ⟨hrun, hlast⟩ := run_failures _ hn
  have hall := h ((.setPartitionReplicas "orders" 0 1 [1], onlyReplica 0) :: failures 0 n)
    ⟨rfl, hrun⟩
  exact hlast hall.at_last

end Gaffa
