import Gaffa.Broker.Failover

/-!
# Leader epochs

An election takes the next epoch; `set_partition_replicas` sets the leader and leaves the epoch
alone.

* `fenced_failover_iff`: what the loop of `handle_broker_failure` does to one partition fences its
  old leader exactly when the epoch has a successor, or the old leader stays.
* `epochs_fence_iff`: over runs, the epoch of a partition never decreases and names one leader
  exactly when no assignment moves a leader and no election is at the last epoch.
-/

set_option autoImplicit false

namespace Gaffa

open Transition PartitionReplicaState ClusterMetadata

/-- The epoch does not decrease, and while it is the same the leader is. -/
def Fenced (s t : PartitionReplicaState) : Prop :=
  s.leaderEpoch ≤ t.leaderEpoch ∧ (s.leaderEpoch = t.leaderEpoch → s.leader = t.leader)

theorem Fenced.refl (s : PartitionReplicaState) : Fenced s s := ⟨Nat.le_refl _, fun _ => rfl⟩

theorem Fenced.trans {s t u : PartitionReplicaState} (h : Fenced s t) (h' : Fenced t u) :
    Fenced s u := by
  refine ⟨Nat.le_trans h.1 h'.1, ?_⟩
  intro heq
  have hst : s.leaderEpoch = t.leaderEpoch := Nat.le_antisymm h.1 (heq ▸ h'.1)
  exact (h.2 hst).trans (h'.2 (hst.symm.trans heq))

/-- Every partition of `c` is one of `d`, with its epochs fenced. -/
def Fences (c d : ClusterMetadata) : Prop :=
  ∀ k s, c.partitionStates.get k = some s → ∃ t, d.partitionStates.get k = some t ∧ Fenced s t

theorem Fences.trans (c d e : ClusterMetadata) (h : Fences c d) (h' : Fences d e) :
    Fences c e := by
  intro k s hs
  obtain ⟨t, ht, hst⟩ := h k s hs
  obtain ⟨u, hu, htu⟩ := h' k t ht
  exact ⟨u, hu, hst.trans htu⟩

/-! ## One partition -/

/-- If the failure of `b` calls for an election, the epoch has a successor, or the build panics at
the last one and `b` is elected again. -/
def ElectionFences (overflowChecks : Bool) (b : BrokerId) (s : PartitionReplicaState) : Prop :=
  s.leader = b → (s.isr.erase b ≠ ∅ ∨ s.replicas ≠ []) → s.leaderEpoch + 1 < 2 ^ 32 ∨
    (overflowChecks = true ∧ s.isr.erase b = ∅ ∧ s.replicas.head? = some b)

section Partition

variable {overflowChecks : Bool} {b first : BrokerId} {s : PartitionReplicaState}

theorem failover_leader (hlead : s.leader = b) (hne : s.isr.erase b ≠ ∅) :
    (failover overflowChecks b first s).2.leader = first := by
  unfold failover electNewLeader
  simp only [if_pos hlead, if_neg hne, bumpEpoch]
  cases addWith overflowChecks 32 s.leaderEpoch 1 <;> rfl

/-- A wrapped epoch is lower. -/
theorem wrapped_lt {n : Nat} (h : 2 ^ 32 ≤ n + 1) : (n + 1) % 2 ^ 32 < n := by
  have hmod : (n + 1) % 2 ^ 32 < 2 ^ 32 := Nat.mod_lt _ (by decide)
  rcases Nat.eq_or_lt_of_le h with heq | hlt
  · rw [← heq]
    omega
  · omega

/-- An election at an epoch with a successor fences, one that wraps does not. -/
theorem fenced_elected_iff {epoch : Nat} {isr : Finset BrokerId} {leader : BrokerId}
    (hadd : addWith overflowChecks 32 s.leaderEpoch 1 = .ok epoch) :
    Fenced s { s with isr := isr, leader := leader, leaderEpoch := epoch } ↔
      s.leaderEpoch + 1 < 2 ^ 32 := by
  rcases addWith_cases overflowChecks 32 s.leaderEpoch 1 with
    ⟨hlt, hok⟩ | ⟨-, -, e, herror⟩ | ⟨hge, -, hok⟩
  · rw [hok] at hadd
    cases hadd
    refine iff_of_true ⟨Nat.le_succ _, ?_⟩ hlt
    intro heq
    exact absurd heq (Nat.ne_of_lt (Nat.lt_succ_self _))
  · rw [herror] at hadd
    cases hadd
  · rw [hok] at hadd
    cases hadd
    refine iff_of_false ?_ (Nat.not_lt_of_le hge)
    intro h
    exact absurd (wrapped_lt hge) (Nat.not_lt_of_le h.1)

/-- **One partition**: its old leader is fenced exactly when the condition on the election holds. -/
theorem fenced_failover_iff (hfirst : s.isr.erase b ≠ ∅ → first ∈ s.isr.erase b) :
    Fenced s (failover overflowChecks b first s).2 ↔ ElectionFences overflowChecks b s := by
  rcases failover_cases overflowChecks b first s with ⟨hlead, heq⟩ | ⟨-, hisr, hrep, heq⟩ |
    ⟨e, r, hlead, hadd, hhead, heq⟩ | ⟨r, epoch, hlead, hisr, hhead, hadd, heq⟩ |
    ⟨epoch, hlead, hisr, hadd, heq⟩
  · rw [heq]
    refine iff_of_true ⟨Nat.le_refl _, fun _ => rfl⟩ ?_
    intro hl
    exact absurd hl hlead
  · rw [heq]
    refine iff_of_true ⟨Nat.le_refl _, fun _ => rfl⟩ ?_
    rintro - (hne | hne)
    · exact absurd hisr hne
    · exact absurd hrep hne
  · -- the build panics at the last epoch, with the new leader already set
    obtain ⟨hge, hchecks⟩ : 2 ^ 32 ≤ s.leaderEpoch + 1 ∧ overflowChecks = true := by
      rcases addWith_cases overflowChecks 32 s.leaderEpoch 1 with
        ⟨-, hok⟩ | ⟨hge, hchecks, -⟩ | ⟨-, -, hok⟩
      · rw [hok] at hadd
        cases hadd
      · exact ⟨hge, hchecks⟩
      · rw [hok] at hadd
        cases hadd
    have hfenced : Fenced s (failover overflowChecks b first s).2 ↔ r = b := by
      rw [heq]
      constructor
      · intro h
        exact (h.2 rfl).symm.trans hlead
      · rintro rfl
        exact ⟨Nat.le_refl _, fun _ => hlead⟩
    rw [hfenced]
    by_cases hisr : s.isr.erase b = ∅
    · have hr := hhead hisr
      constructor
      · rintro rfl - -
        exact Or.inr ⟨hchecks, hisr, hr⟩
      · intro h
        have hne : s.replicas ≠ [] := by
          rintro hnil
          rw [hnil] at hr
          cases hr
        rcases h hlead (Or.inr hne) with hlt | ⟨-, -, hb⟩
        · omega
        · rw [hr] at hb
          exact Option.some.inj hb
    · -- an ISR member is elected, which is another broker
      have hr : r = first := by
        have hl : (failover overflowChecks b first s).2.leader = first :=
          failover_leader hlead hisr
        rw [heq] at hl
        exact hl
      apply iff_of_false
      · rw [hr]
        exact Finset.ne_of_mem_erase (hfirst hisr)
      · intro h
        rcases h hlead (Or.inl hisr) with hlt | ⟨-, hempty, -⟩
        · omega
        · exact hisr hempty
  · rw [heq, fenced_elected_iff hadd]
    have hne : s.replicas ≠ [] := by
      rintro hnil
      rw [hnil] at hhead
      cases hhead
    constructor
    · intro hlt _ _
      exact Or.inl hlt
    · intro h
      rcases h hlead (Or.inr hne) with hlt | ⟨hchecks, -, -⟩
      · exact hlt
      · subst hchecks
        exact (checkedAdd_ok hadd).1 ▸ (checkedAdd_ok hadd).2
  · rw [heq, fenced_elected_iff hadd]
    constructor
    · intro hlt _ _
      exact Or.inl hlt
    · intro h
      rcases h hlead (Or.inl hisr) with hlt | ⟨-, hempty, -⟩
      · exact hlt
      · exact absurd hempty hisr

theorem fenced_updateReplicaOffset (overflowChecks : Bool) (b : BrokerId) (offset lag : Nat)
    (s : PartitionReplicaState) :
    Fenced s (s.updateReplicaOffset overflowChecks b offset lag).2 := by
  rcases updateReplicaOffset_cases overflowChecks b offset lag s with
    ⟨e, -, heq⟩ | ⟨-, heq⟩ | ⟨-, heq⟩
  all_goals
    rw [heq]
    simp [Fenced, record]

end Partition

/-! ## Runs of operations -/

/-- The calls, with any arguments. -/
def clusterApply (overflowChecks : Bool) (c : ClusterMetadata) :
    ClusterOp → Option ClusterMetadata
  | .setPartitionReplicas topic partition leader replicas =>
    some (c.setPartitionReplicas topic partition leader replicas)
  | .updateReplicaOffset topic partition b offset =>
    some (c.updateReplicaOffset overflowChecks topic partition b offset).2
  | .handleBrokerFailure b order first =>
    if c.partitionStates.Order order ∧ ∀ k ∈ order, FirstOf b first c k then
      some (c.handleBrokerFailure overflowChecks b order first).2
    else none

/-- An assignment leaves the leader of a partition that has one, and a failure of a broker calls for
no election at the last epoch. -/
def KeepsFence (overflowChecks : Bool) (c : ClusterMetadata) (op : ClusterOp)
    (_ : ClusterMetadata) : Prop :=
  match op with
  | .setPartitionReplicas topic partition leader _ =>
    ∀ s, c.partitionStates.get (topic, partition) = some s → s.leader = leader
  | .updateReplicaOffset .. => True
  | .handleBrokerFailure b order _ =>
    ∀ k ∈ failoverVisited overflowChecks b c.partitionStates order, ∀ s,
      c.partitionStates.get k = some s → ElectionFences overflowChecks b s

section Step

variable {overflowChecks : Bool} {c d : ClusterMetadata}

/-- A new state of one partition fences exactly when it fences that partition. -/
theorem fences_insert_iff {k : PartitionKey} {t : PartitionReplicaState}
    (hd : d.partitionStates = c.partitionStates.insert k t) :
    Fences c d ↔ ∀ s, c.partitionStates.get k = some s → Fenced s t := by
  unfold Fences
  rw [hd]
  constructor
  · intro h s hs
    obtain ⟨t', ht', hfenced⟩ := h k s hs
    rw [Table.get_insert_self] at ht'
    cases ht'
    exact hfenced
  · intro h k' s hs
    by_cases hk : k' = k
    · subst hk
      exact ⟨t, Table.get_insert_self .., h s hs⟩
    · exact ⟨s, (Table.get_insert_ne t hk).trans hs, Fenced.refl s⟩

theorem fences_setPartitionReplicas_iff (topic : String) (partition : Nat) (leader : BrokerId)
    (replicas : List BrokerId) :
    Fences c (c.setPartitionReplicas topic partition leader replicas) ↔
      ∀ s, c.partitionStates.get (topic, partition) = some s → s.leader = leader := by
  rw [fences_insert_iff (setPartitionReplicas_states ..)]
  apply forall_congr'
  intro s
  apply imp_congr_right
  intro hs
  rw [hs]
  constructor
  · intro h
    exact h.2 rfl
  · intro h
    exact ⟨Nat.le_refl _, fun _ => h⟩

theorem fences_updateReplicaOffset (topic : String) (partition : Nat) (b : BrokerId)
    (offset : Nat) :
    Fences c (c.updateReplicaOffset overflowChecks topic partition b offset).2 := by
  have hstates : (c.updateReplicaOffset overflowChecks topic partition b offset).2.partitionStates =
      _ := updateReplicaOffset_states topic partition b offset c
  cases hget : c.partitionStates.get (topic, partition) with
  | none =>
    rw [hget] at hstates
    intro k s hs
    exact ⟨s, hstates ▸ hs, Fenced.refl s⟩
  | some s =>
    rw [hget] at hstates
    rw [fences_insert_iff hstates]
    intro s' hs'
    rw [hget] at hs'
    cases hs'
    exact fenced_updateReplicaOffset ..

theorem fences_handleBrokerFailure_iff {b : BrokerId} {order : List PartitionKey}
    {first : PartitionKey → BrokerId} (horder : c.partitionStates.Order order)
    (hfirst : ∀ k ∈ order, FirstOf b first c k) :
    Fences c (c.handleBrokerFailure overflowChecks b order first).2 ↔
      ∀ k ∈ failoverVisited overflowChecks b c.partitionStates order, ∀ s,
        c.partitionStates.get k = some s → ElectionFences overflowChecks b s := by
  have hvisited : ∀ k s, k ∈ failoverVisited overflowChecks b c.partitionStates order →
      c.partitionStates.get k = some s →
      (c.handleBrokerFailure overflowChecks b order first).2.partitionStates.get k =
        some (failover overflowChecks b (first k) s).2 ∧
      (Fenced s (failover overflowChecks b (first k) s).2 ↔ ElectionFences overflowChecks b s) := by
    intro k s hk hs
    refine ⟨?_, fenced_failover_iff (hfirst k (Table.visited_subset hk) s hs)⟩
    exact (get_failoverLoop horder.nodup hk).trans (by rw [hs]; rfl)
  constructor
  · intro h k hk s hs
    obtain ⟨hget, hiff⟩ := hvisited k s hk hs
    obtain ⟨t, ht, hfenced⟩ := h k s hs
    rw [hget] at ht
    cases ht
    exact hiff.1 hfenced
  · intro h k s hs
    by_cases hk : k ∈ failoverVisited overflowChecks b c.partitionStates order
    · obtain ⟨hget, hiff⟩ := hvisited k s hk hs
      exact ⟨_, hget, hiff.2 (h k hk s hs)⟩
    · have hget : (c.handleBrokerFailure overflowChecks b order first).2.partitionStates.get k =
          c.partitionStates.get k :=
        Table.get_forEachMut_unvisited failoverEntry_error_iff horder.nodup hk
      exact ⟨s, hget.trans hs, Fenced.refl s⟩

/-- **One call** fences the old leaders exactly when the condition holds. -/
theorem fences_iff {op : ClusterOp} (hstep : clusterApply overflowChecks c op = some d) :
    Fences c d ↔ KeepsFence overflowChecks c op d := by
  cases op with
  | setPartitionReplicas topic partition leader replicas =>
    cases hstep
    exact fences_setPartitionReplicas_iff ..
  | updateReplicaOffset topic partition b offset =>
    cases hstep
    exact iff_of_true (fences_updateReplicaOffset topic partition b offset) trivial
  | handleBrokerFailure b order first =>
    simp only [clusterApply, Option.ite_none_right_eq_some, Option.some.injEq] at hstep
    obtain ⟨⟨horder, hfirst⟩, rfl⟩ := hstep
    exact fences_handleBrokerFailure_iff horder hfirst

end Step

/-- **Leader epochs over a run**: between any two moments the epoch of a partition does not
decrease, and names the same leader while it is the same, exactly when no call of the run moves the
leader of a partition by an assignment or elects one at the last epoch. -/
theorem epochs_fence_iff (overflowChecks : Bool) (brokerId : BrokerId)
    (brokerTimeout isrLagThreshold : Nat) {tr : List (ClusterOp × ClusterMetadata)}
    (hrun : Run (Steps (clusterApply overflowChecks))
      (ClusterMetadata.new brokerId brokerTimeout isrLagThreshold) tr) :
    (states (ClusterMetadata.new brokerId brokerTimeout isrLagThreshold) tr).Pairwise Fences ↔
      EachStep (KeepsFence overflowChecks)
        (ClusterMetadata.new brokerId brokerTimeout isrLagThreshold) tr := by
  rw [pairwise_states_iff Fences.trans]
  refine eachStep_iff (I := fun _ => True) ?_ ?_ trivial hrun
  · intro _ _ _ _ _ _
    trivial
  · intro c op d _ hstep
    exact fences_iff hstep

theorem epochs_fence_iff_failure :
    ∃ tr, trace (clusterApply true) (ClusterMetadata.new 0 30000 10) failureRun = some tr ∧
      ((states (ClusterMetadata.new 0 30000 10) tr).Pairwise Fences ↔
        EachStep (KeepsFence true) (ClusterMetadata.new 0 30000 10) tr) := by
  obtain ⟨tr, htr⟩ := Option.isSome_iff_exists.1 (show (trace (clusterApply true)
    (ClusterMetadata.new 0 30000 10) failureRun).isSome = true by decide +kernel)
  exact ⟨tr, htr, epochs_fence_iff true 0 30000 10 (run_of_trace htr)⟩

/-- The partition is assigned to broker 2, which leads it in the epoch of broker 1. -/
def handover : List ClusterOp :=
  [.setPartitionReplicas "orders" 0 1 [1, 2], .setPartitionReplicas "orders" 0 2 [2, 1]]

/-- Two leaders in epoch 0. -/
theorem handover_same_epoch : ¬ ∀ tr : List (ClusterOp × ClusterMetadata),
    Run (Steps (clusterApply true)) (ClusterMetadata.new 0 30000 10) tr →
    (states (ClusterMetadata.new 0 30000 10) tr).Pairwise Fences := by
  intro h
  obtain ⟨tr, htr, hbad⟩ := Option.map_eq_some_iff.1 (show (trace (clusterApply true)
    (ClusterMetadata.new 0 30000 10) handover).map (fun tr => decide
      (EachStep (fun c _ d => ∀ s ∈ c.partitionStates.get ("orders", 0),
        ∀ t ∈ d.partitionStates.get ("orders", 0), s.leaderEpoch = t.leaderEpoch →
          s.leader = t.leader) (ClusterMetadata.new 0 30000 10) tr)) = some false by
    decide +kernel)
  apply of_decide_eq_false hbad
  apply EachStep.mono _ ((pairwise_states_iff Fences.trans).1 (h tr (run_of_trace htr)))
  intro c op d hfences s hs t ht heq
  obtain ⟨t', ht', hfenced⟩ := hfences _ s hs
  cases ht.symm.trans ht'
  exact hfenced.2 heq

end Gaffa
