import Gaffa.Broker.Replication
import Gaffa.Lib.RoundRobin
import Mathlib.Data.List.GetD

/-!
# Balanced assignments

`assign_partition_replicas` of `broker/src/replication.rs` gives a partition the alive brokers from
the one that its number stands for on, as many as the replication factor asks for.

* `assignPartitionReplicas_eq`: the assignment is a window of the list of alive brokers.
* `assignment_balanced`: the replicas are distinct alive brokers with the leader first, and over many
  partitions every alive broker leads equally many, up to one, and hosts equally many.
-/

set_option autoImplicit false

namespace Gaffa

open RoundRobin

namespace ClusterMetadata

/-- The leader that a partition is assigned. -/
def assignedLeader (now : Nat) (order : List BrokerId) (replicationFactor partition : Nat)
    (c : ClusterMetadata) : Option BrokerId :=
  match c.assignPartitionReplicas now order replicationFactor partition with
  | .ok (leader, _) => some leader
  | .error _ => none

/-- The replicas that a partition is assigned. -/
def assignedReplicas (now : Nat) (order : List BrokerId) (replicationFactor partition : Nat)
    (c : ClusterMetadata) : List BrokerId :=
  match c.assignPartitionReplicas now order replicationFactor partition with
  | .ok (_, replicas) => replicas
  | .error _ => []

end ClusterMetadata

open ClusterMetadata

/-- An assignment to as many different alive brokers as the replication factor allows, the leader
first. -/
structure ValidAssignment (alive : List BrokerId) (replicationFactor : Nat) (leader : BrokerId)
    (replicas : List BrokerId) : Prop where
  leader : replicas.head? = some leader
  length : replicas.length = min replicationFactor alive.length
  nodup : replicas.Nodup
  alive : ∀ b ∈ replicas, b ∈ alive

section Assignment

variable {now : Nat} {order : List BrokerId} {replicationFactor : Nat} {c : ClusterMetadata}
  {alive : List BrokerId} {b : BrokerId}

/-- The window of a partition begins with its own place. -/
theorem window_cons {n r : Nat} (hr : 0 < r) (p : Nat) :
    ∃ rest, window n r p = p % n :: rest := by
  obtain ⟨r, rfl⟩ := Nat.exists_eq_succ_of_ne_zero (Nat.pos_iff_ne_zero.1 hr)
  unfold window
  rw [List.range_succ_eq_map, List.map_cons]
  exact ⟨_, rfl⟩

/-- **The assignment of a partition**: the brokers at the places of its window. -/
theorem assignPartitionReplicas_eq (halive : (c.getAliveBrokers now order).map BrokerInfo.id = alive)
    (hne : alive ≠ []) (hfactor : 1 ≤ replicationFactor) (partition : Nat) :
    c.assignPartitionReplicas now order replicationFactor partition =
      .ok (alive.getD (partition % alive.length) 0,
        (window alive.length (min replicationFactor alive.length) partition).map
          fun place => alive.getD place 0) := by
  have hpos : 0 < alive.length := List.length_pos_iff.2 hne
  have hlength : (c.getAliveBrokers now order).length = alive.length := by
    rw [← halive, List.length_map]
  have hreplicas : (List.range (min replicationFactor alive.length)).filterMap (fun i =>
        ((c.getAliveBrokers now order)[(partition % alive.length + i) % alive.length]?).map
          BrokerInfo.id) =
      (window alive.length (min replicationFactor alive.length) partition).map
        fun place => alive.getD place 0 := by
    unfold window
    rw [List.map_map, List.filterMap_eq_map_iff_forall_eq_some]
    intro i _
    have hplace : (partition + i) % alive.length < alive.length := Nat.mod_lt _ hpos
    rw [Nat.mod_add_mod, ← List.getElem?_map, halive, List.getElem?_eq_getElem hplace,
      Function.comp_apply, List.getD_eq_getElem _ _ hplace]
  obtain ⟨rest, hwindow⟩ := window_cons (n := alive.length)
    (Nat.lt_min.2 ⟨hfactor, hpos⟩) partition
  unfold assignPartitionReplicas
  simp only [hlength, if_neg (Nat.ne_of_gt hpos), hreplicas]
  rw [hwindow, List.map_cons]

/-- **One assignment** is valid. -/
theorem validAssignment (hids : alive.Nodup) (hne : alive ≠ []) (hfactor : 1 ≤ replicationFactor)
    (partition : Nat) :
    ValidAssignment alive replicationFactor (alive.getD (partition % alive.length) 0)
      ((window alive.length (min replicationFactor alive.length) partition).map
        fun place => alive.getD place 0) := by
  have hpos : 0 < alive.length := List.length_pos_iff.2 hne
  have hplace : ∀ {place}, place ∈ window alive.length (min replicationFactor alive.length)
      partition → place < alive.length := lt_of_mem_window hpos
  refine ⟨?_, by rw [List.length_map, length_window], ?_, ?_⟩
  · obtain ⟨rest, hwindow⟩ := window_cons (n := alive.length)
      (Nat.lt_min.2 ⟨hfactor, hpos⟩) partition
    rw [hwindow]
    rfl
  · apply (nodup_window (Nat.min_le_right ..)).map_on
    intro i hi j hj heq
    rw [List.getD_eq_getElem _ _ (hplace hi), List.getD_eq_getElem _ _ (hplace hj)] at heq
    exact (hids.getElem_inj_iff).1 heq
  · intro b hb
    obtain ⟨place, hmem, rfl⟩ := List.mem_map.1 hb
    rw [List.getD_eq_getElem _ _ (hplace hmem)]
    exact List.getElem_mem _

/-- A broker is at one place of the list. -/
theorem getD_eq_iff (hids : alive.Nodup) {place j : Nat} (hplace : place < alive.length)
    (hj : j < alive.length) : alive.getD j 0 = alive[place] ↔ j = place := by
  rw [List.getD_eq_getElem _ _ hj]
  exact hids.getElem_inj_iff

theorem assignedLeader_eq_iff
    (halive : (c.getAliveBrokers now order).map BrokerInfo.id = alive) (hids : alive.Nodup)
    (hne : alive ≠ []) (hfactor : 1 ≤ replicationFactor) {place : Nat}
    (hplace : place < alive.length) (partition : Nat) :
    c.assignedLeader now order replicationFactor partition = some alive[place] ↔
      partition % alive.length = place := by
  unfold assignedLeader
  rw [assignPartitionReplicas_eq halive hne hfactor, Option.some.injEq]
  exact getD_eq_iff hids hplace (Nat.mod_lt _ (List.length_pos_iff.2 hne))

theorem mem_assignedReplicas_iff
    (halive : (c.getAliveBrokers now order).map BrokerInfo.id = alive) (hids : alive.Nodup)
    (hne : alive ≠ []) (hfactor : 1 ≤ replicationFactor) {place : Nat}
    (hplace : place < alive.length) (partition : Nat) :
    alive[place] ∈ c.assignedReplicas now order replicationFactor partition ↔
      place ∈ window alive.length (min replicationFactor alive.length) partition := by
  unfold assignedReplicas
  rw [assignPartitionReplicas_eq halive hne hfactor, List.mem_map]
  constructor
  · rintro ⟨j, hj, heq⟩
    have hlt := lt_of_mem_window (List.length_pos_iff.2 hne) hj
    rw [← (getD_eq_iff hids hplace hlt).1 heq]
    exact hj
  · intro hmem
    exact ⟨place, hmem, List.getD_eq_getElem _ _ hplace⟩

end Assignment

/-- **Assignments are valid and balanced.**  With at least one alive broker, all of different ids,
and a positive replication factor: every partition is assigned valid replicas; the numbers of the
first partitions that any two alive brokers lead differ by at most one; and of as many consecutive
partitions as there are alive brokers, each of these hosts as many as one partition has replicas. -/
theorem assignment_balanced {now : Nat} {order : List BrokerId} {replicationFactor : Nat}
    {c : ClusterMetadata} {alive : List BrokerId}
    (halive : (c.getAliveBrokers now order).map BrokerInfo.id = alive) (hids : alive.Nodup)
    (hne : alive ≠ []) (hfactor : 1 ≤ replicationFactor) :
    (∀ partition, ∃ leader replicas,
      c.assignPartitionReplicas now order replicationFactor partition = .ok (leader, replicas) ∧
        ValidAssignment alive replicationFactor leader replicas) ∧
    (∀ partitions, ∀ a ∈ alive, ∀ b ∈ alive,
      ((Finset.range partitions).filter fun p =>
        c.assignedLeader now order replicationFactor p = some a).card ≤
      ((Finset.range partitions).filter fun p =>
        c.assignedLeader now order replicationFactor p = some b).card + 1) ∧
    ∀ start, ∀ b ∈ alive,
      ((Finset.Ico start (start + alive.length)).filter fun p =>
        b ∈ c.assignedReplicas now order replicationFactor p).card =
      min replicationFactor alive.length := by
  refine ⟨?_, ?_, ?_⟩
  · intro partition
    exact ⟨_, _, assignPartitionReplicas_eq halive hne hfactor partition,
      validAssignment hids hne hfactor partition⟩
  · intro partitions a ha b hb
    obtain ⟨i, hi, rfl⟩ := List.getElem_of_mem ha
    obtain ⟨j, hj, rfl⟩ := List.getElem_of_mem hb
    simp only [assignedLeader_eq_iff halive hids hne hfactor hi,
      assignedLeader_eq_iff halive hids hne hfactor hj, ← Nat.count_eq_card_filter_range]
    exact count_mod_le hi hj partitions
  · intro start b hb
    obtain ⟨place, hplace, rfl⟩ := List.getElem_of_mem hb
    simp only [mem_assignedReplicas_iff halive hids hne hfactor hplace]
    exact card_filter_window (Nat.min_le_right ..) hplace start

/-- Three brokers, two replicas for each partition. -/
def threeBrokers : ClusterMetadata :=
  (((ClusterMetadata.new 1 30 10).registerBroker
    (BrokerInfo.new 0 1 "localhost" 9092)).registerBroker
    (BrokerInfo.new 0 2 "localhost" 9093)).registerBroker (BrokerInfo.new 0 3 "localhost" 9094)

theorem assignment_balanced_three :
    (∀ partition, ∃ leader replicas,
      threeBrokers.assignPartitionReplicas 5 [2, 3, 1] 2 partition = .ok (leader, replicas) ∧
        ValidAssignment [2, 3, 1] 2 leader replicas) ∧
    (∀ partitions, ∀ a ∈ [2, 3, 1], ∀ b ∈ [2, 3, 1],
      ((Finset.range partitions).filter fun p =>
        threeBrokers.assignedLeader 5 [2, 3, 1] 2 p = some a).card ≤
      ((Finset.range partitions).filter fun p =>
        threeBrokers.assignedLeader 5 [2, 3, 1] 2 p = some b).card + 1) ∧
    ∀ start, ∀ b ∈ [2, 3, 1],
      ((Finset.Ico start (start + 3)).filter fun p =>
        b ∈ threeBrokers.assignedReplicas 5 [2, 3, 1] 2 p).card = 2 :=
  assignment_balanced (by decide +kernel) (by decide) (by decide) (by decide)

end Gaffa
