import Gaffa.Broker.Failover
import Gaffa.Broker.Replication

/-!
# When a write can be acknowledged

`can_acknowledge_write` of `broker/src/replication.rs` lets a record be acknowledged when its offset
is at most the high watermark.  A recorded offset is the next one that a broker writes or fetches, so
that a broker has the records below it.

* `Covered.replicationNext`: assignments and updates that keep the watermark below the recorded
  offsets of the ISR.
* `acknowledged_replicated_iff`: the record is then in the logs of the whole ISR, exactly for the
  offsets other than the watermark and where no member of the ISR ends there.
-/

set_option autoImplicit false

namespace Gaffa

open Transition PartitionReplicaState ClusterMetadata

/-- The calls that assign replicas or update an offset, with any arguments.  An update that panics
has recorded the offset. -/
def replicationNext (overflowChecks : Bool) (c : ClusterMetadata) :
    ClusterOp → Option ClusterMetadata
  | .setPartitionReplicas topic partition leader replicas =>
    some (c.setPartitionReplicas topic partition leader replicas)
  | .updateReplicaOffset topic partition b offset =>
    some (c.updateReplicaOffset overflowChecks topic partition b offset).2
  | .handleBrokerFailure .. => none

/-- If the record at an offset can be acknowledged, then the partition exists and every member of its
ISR has the record. -/
def AcknowledgedReplicated (topic : String) (partition offset : Nat) (c : ClusterMetadata) : Prop :=
  c.canAcknowledgeWrite topic partition offset = true →
    ∃ s, c.partitionStates.get (topic, partition) = some s ∧
      ∀ b ∈ s.isr, ∃ o, s.replicaOffsets.get b = some o ∧ offset < o

/-- A reassignment names only brokers with a recorded offset at or above the watermark, and an update
that panics at the lag test leaves no member of the ISR with an offset below it. -/
def KeepsReplicated (overflowChecks : Bool) (c : ClusterMetadata) (op : ClusterOp)
    (_ : ClusterMetadata) : Prop :=
  match op with
  | .setPartitionReplicas topic partition _ replicas =>
    ∀ s ∈ c.partitionStates.get (topic, partition), ∀ b ∈ replicas, s.HoldsCommitted b
  | .updateReplicaOffset topic partition b offset =>
    ∀ s ∈ c.partitionStates.get (topic, partition), overflowChecks = true →
      2 ^ 64 ≤ offset + c.isrLagThreshold → b ∈ s.isr → s.highWatermark ≤ offset
  | .handleBrokerFailure .. => True

instance decidableKeepsReplicated (overflowChecks : Bool) (c : ClusterMetadata) (op : ClusterOp)
    (d : ClusterMetadata) : Decidable (KeepsReplicated overflowChecks c op d) :=
  match op with
  | .setPartitionReplicas topic partition _ replicas =>
    inferInstanceAs (Decidable (∀ s ∈ c.partitionStates.get (topic, partition),
      ∀ b ∈ replicas, s.HoldsCommitted b))
  | .updateReplicaOffset topic partition b offset =>
    inferInstanceAs (Decidable (∀ s ∈ c.partitionStates.get (topic, partition),
      overflowChecks = true → 2 ^ 64 ≤ offset + c.isrLagThreshold → b ∈ s.isr →
        s.highWatermark ≤ offset))
  | .handleBrokerFailure .. => isTrue trivial

/-- The partition exists and no member of its ISR has the watermark as its recorded offset. -/
def NoneAtWatermark (topic : String) (partition : Nat) (c : ClusterMetadata) : Prop :=
  ∃ s, c.partitionStates.get (topic, partition) = some s ∧
    ∀ b ∈ s.isr, s.replicaOffsets.get b ≠ some s.highWatermark

section Step

variable {overflowChecks : Bool} {c d : ClusterMetadata} {op : ClusterOp}

/-- **A call** that meets the condition leaves every ISR covered. -/
theorem Covered.replicationNext (h : AllCovered c)
    (hstep : replicationNext overflowChecks c op = some d)
    (hkeeps : KeepsReplicated overflowChecks c op d) : AllCovered d := by
  cases op with
  | setPartitionReplicas topic partition leader replicas =>
    cases hstep
    unfold AllCovered
    rw [setPartitionReplicas_states, forall_insert_iff h]
    cases hget : c.partitionStates.get (topic, partition) with
    | none => exact covered_new topic partition leader replicas
    | some s =>
      intro b hb
      exact hkeeps s hget b (List.mem_toFinset.1 hb)
  | updateReplicaOffset topic partition b offset =>
    cases hstep
    exact forall_updateReplicaOffset h fun s hs =>
      (h _ s hs).report overflowChecks b c.isrLagThreshold (hkeeps s hs)
  | handleBrokerFailure b order first => cases hstep

/-- Over a covered ISR the boundary is the only offset at which an acknowledged record may be
missing, and it is when a member of the ISR ends there. -/
theorem acknowledgedReplicated_iff (h : AllCovered c) (topic : String) (partition offset : Nat) :
    AcknowledgedReplicated topic partition offset c ↔
      offset ≠ c.getHighWatermark topic partition ∨ NoneAtWatermark topic partition c := by
  unfold AcknowledgedReplicated NoneAtWatermark canAcknowledgeWrite getHighWatermark
  rw [decide_eq_true_eq]
  cases hget : c.partitionStates.get (topic, partition) with
  | none =>
    simp only [Nat.le_zero, ne_eq, reduceCtorEq, false_and, exists_false, or_false]
  | some s =>
    simp only [Option.some.injEq, exists_eq_left']
    constructor
    · intro hreplicated
      by_contra hneither
      rw [not_or, not_not] at hneither
      obtain ⟨rfl, hat⟩ := hneither
      apply hat
      intro b hb hmin
      obtain ⟨o, ho, hlt⟩ := hreplicated (Nat.le_refl _) b hb
      rw [hmin] at ho
      cases ho
      exact Nat.lt_irrefl _ hlt
    · intro hcond hle b hb
      obtain ⟨o, ho, hwm⟩ := h _ s hget b hb
      refine ⟨o, ho, ?_⟩
      rcases hcond with hne | hnone
      · exact Nat.lt_of_lt_of_le (Nat.lt_of_le_of_ne hle hne) hwm
      · refine Nat.lt_of_le_of_lt hle (Nat.lt_of_le_of_ne hwm ?_)
        rintro rfl
        exact hnone b hb ho

end Step

/-- **Acknowledgement implies replication** in every state of a run whose calls meet the condition,
exactly for the offsets other than the watermark, or where no member of the ISR of an existing
partition has the watermark as its recorded offset. -/
theorem acknowledged_replicated_iff (overflowChecks : Bool) (brokerId : BrokerId)
    (brokerTimeout isrLagThreshold : Nat) {tr : List (ClusterOp × ClusterMetadata)}
    (hrun : Run (Steps (replicationNext overflowChecks))
      (ClusterMetadata.new brokerId brokerTimeout isrLagThreshold) tr)
    (hkeeps : EachStep (KeepsReplicated overflowChecks)
      (ClusterMetadata.new brokerId brokerTimeout isrLagThreshold) tr) :
    Throughout (fun c => ∀ topic partition offset,
        AcknowledgedReplicated topic partition offset c ↔
          offset ≠ c.getHighWatermark topic partition ∨ NoneAtWatermark topic partition c)
      (ClusterMetadata.new brokerId brokerTimeout isrLagThreshold) tr := by
  have hcovered := throughout_of_invariant (I := AllCovered)
    (fun c op d h hstep hcond => Covered.replicationNext h hstep hcond)
    (fun k s hget => by cases hget) hrun hkeeps
  exact hcovered.mono fun c h => acknowledgedReplicated_iff h

/-- A partition whose two replicas have five records and three. -/
def fiveAndThree : List ClusterOp :=
  [.setPartitionReplicas "orders" 0 1 [1, 2], .updateReplicaOffset "orders" 0 1 5,
    .updateReplicaOffset "orders" 0 2 3]

/-- The second replica then leads alone, and the first one comes back. -/
def backAndForth : List ClusterOp :=
  fiveAndThree ++ [.setPartitionReplicas "orders" 0 2 [2],
    .setPartitionReplicas "orders" 0 2 [2, 1]]

theorem acknowledged_replicated_iff_back : ∃ tr,
    trace (replicationNext true) (ClusterMetadata.new 0 30000 10) backAndForth = some tr ∧
      Throughout (fun c => ∀ topic partition offset,
          AcknowledgedReplicated topic partition offset c ↔
            offset ≠ c.getHighWatermark topic partition ∨ NoneAtWatermark topic partition c)
        (ClusterMetadata.new 0 30000 10) tr := by
  obtain ⟨tr, htr, hkeeps⟩ := Option.map_eq_some_iff.1 (show (trace (replicationNext true)
    (ClusterMetadata.new 0 30000 10) backAndForth).map (fun tr => decide
      (EachStep (KeepsReplicated true) (ClusterMetadata.new 0 30000 10) tr)) =
    some true by decide +kernel)
  exact ⟨tr, htr, acknowledged_replicated_iff true 0 30000 10 (run_of_trace htr)
    (of_decide_eq_true hkeeps)⟩

/-- The record at offset 3 is acknowledged, and the second replica is still to fetch it. -/
theorem unreplicated_acknowledged : ¬ ∀ (tr : List (ClusterOp × ClusterMetadata))
    (topic : String) (partition offset : Nat),
    Run (Steps (replicationNext true)) (ClusterMetadata.new 0 30000 10) tr →
    AcknowledgedReplicated topic partition offset (last (ClusterMetadata.new 0 30000 10) tr) := by
  intro h
  obtain ⟨tr, htr, hends⟩ := Option.map_eq_some_iff.1 (show (trace (replicationNext true)
    (ClusterMetadata.new 0 30000 10) fiveAndThree).map (fun tr =>
      let c := last (ClusterMetadata.new 0 30000 10) tr
      c.canAcknowledgeWrite "orders" 0 3 &&
        (c.partitionStates.get ("orders", 0)).any fun s =>
          decide (2 ∈ s.isr) && (s.replicaOffsets.get 2 == some 3)) = some true by decide +kernel)
  simp only [Bool.and_eq_true, Option.any_eq_true, decide_eq_true_eq, beq_iff_eq] at hends
  obtain ⟨hack, s, hs, hmem, hoffset⟩ := hends
  obtain ⟨s', hs', hall⟩ := h tr "orders" 0 3 (run_of_trace htr) hack
  rw [hs] at hs'
  cases hs'
  obtain ⟨o, ho, hlt⟩ := hall 2 hmem
  rw [hoffset] at ho
  cases ho
  exact Nat.lt_irrefl 3 hlt

end Gaffa
