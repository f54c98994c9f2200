import Gaffa.Broker.Cluster

/-!
# Replica assignment and the leader's offset

`broker/src/replication.rs`.

* `assignPartitionReplicas_leader`: the leader is the first of the replicas.
-/

set_option autoImplicit false

namespace Gaffa

namespace ClusterMetadata

/-- `ReplicationManager::assign_partition_replicas`, for the order in which the brokers are
visited. -/
def assignPartitionReplicas (now : Nat) (order : List BrokerId) (replicationFactor partition : Nat)
    (c : ClusterMetadata) : Except Fault (BrokerId × List BrokerId) :=
  let alive := c.getAliveBrokers now order
  let numBrokers := alive.length
  if numBrokers = 0 then .ok (c.brokerId, [c.brokerId])
  else
    let startIdx := partition % numBrokers
    let replicas := (List.range (min replicationFactor numBrokers)).filterMap fun i =>
      (alive[(startIdx + i) % numBrokers]?).map BrokerInfo.id
    match replicas with
    | [] => .error (.panic "index out of bounds: the len is 0 but the index is 0")
    | leader :: _ => .ok (leader, replicas)

/-- `ReplicationManager::update_leader_offset`. -/
def updateLeaderOffset (overflowChecks : Bool) (topic : String) (partition offset : Nat)
    (c : ClusterMetadata) : Except Fault Unit × ClusterMetadata :=
  c.updateReplicaOffset overflowChecks topic partition c.brokerId offset

/-- `ReplicationManager::can_acknowledge_write`. -/
def canAcknowledgeWrite (topic : String) (partition offset : Nat) (c : ClusterMetadata) : Bool :=
  offset ≤ c.getHighWatermark topic partition

theorem assignPartitionReplicas_leader {now : Nat} {order : List BrokerId}
    {replicationFactor partition : Nat} {c : ClusterMetadata} {leader : BrokerId}
    {replicas : List BrokerId}
    (h : c.assignPartitionReplicas now order replicationFactor partition = .ok (leader, replicas)) :
    leader ∈ replicas := by
  unfold assignPartitionReplicas at h
  simp only at h
  split at h
  · cases h
    exact List.mem_singleton.2 rfl
  · split at h
    · cases h
    · rename_i leader' rest heq
      cases h
      rw [heq]
      exact List.mem_cons_self ..

end ClusterMetadata

end Gaffa
