import Gaffa.Broker.Failover

/-!
# The broker that failed

`broker/src/cluster.rs`.  After `handle_broker_failure` the failed broker should lead no partition
that has another replica, and be in no ISR.  The election falls back on the first replica if the ISR
is empty, without asking whether that is the broker that failed, and takes any member of the ISR,
without asking whether it is a replica.

* `ridOf_failover_iff`: when one partition is rid of the broker, whatever broker of the ISR
  the election meets first.
* `failed_not_elected_iff`: when the call returns and leaves all of them so, for every order in which
  it visits the partitions.
-/

set_option autoImplicit false

namespace Gaffa

open Transition PartitionReplicaState ClusterMetadata

/-- A partition without the broker `b`: it is not in the ISR, and if there is another replica then
one of the others leads. -/
structure RidOf (b : BrokerId) (s : PartitionReplicaState) : Prop where
  isr : b ∉ s.isr
  leader : (∃ r ∈ s.replicas, r ≠ b) → s.leader ≠ b ∧ s.leader ∈ s.replicas

/-- The call returns, no leader that it reports is the failed broker, and every partition is left
without it. -/
def FailedNotElected (overflowChecks : Bool) (b : BrokerId) (order : List PartitionKey)
    (first : PartitionKey → BrokerId) (c : ClusterMetadata) : Prop :=
  ∃ leaders, (c.handleBrokerFailure overflowChecks b order first).1 = .ok leaders ∧
    (∀ e ∈ leaders, e.2.2 ≠ b) ∧
    ∀ k s, (c.handleBrokerFailure overflowChecks b order first).2.partitionStates.get k = some s →
      RidOf b s

/-- What makes the failure of `b` safe for a partition: an election that is due can count its epoch,
finds a first replica other than `b` if the ISR is otherwise empty, and only replicas in the ISR if
it is not; a leader that stays is a replica. -/
structure SafeFailure (overflowChecks : Bool) (b : BrokerId) (s : PartitionReplicaState) :
    Prop where
  epoch : electionPanics overflowChecks b s = false
  fallback : s.leader = b → s.isr.erase b = ∅ → s.replicas.head? ≠ some b
  isr : s.leader = b → (∃ r ∈ s.replicas, r ≠ b) → ∀ r ∈ s.isr.erase b, r ∈ s.replicas
  leader : s.leader ≠ b → (∃ r ∈ s.replicas, r ≠ b) → s.leader ∈ s.replicas

/-! ## One partition -/

section Partition

variable {overflowChecks : Bool} {b first : BrokerId} {s : PartitionReplicaState}

/-- There is a first member of the ISR that the failure leaves, if it leaves one. -/
theorem exists_first (b : BrokerId) (s : PartitionReplicaState) :
    ∃ first, s.isr.erase b ≠ ∅ → first ∈ s.isr.erase b := by
  by_cases hisr : s.isr.erase b = ∅
  · exact ⟨0, fun h => absurd hisr h⟩
  · obtain ⟨r, hr⟩ := Finset.nonempty_iff_ne_empty.2 hisr
    exact ⟨r, fun _ => hr⟩

/-- A safe failure leaves the partition without the failed broker, and elects another. -/
theorem ridOf_failover (h : SafeFailure overflowChecks b s)
    (hfirst : s.isr.erase b ≠ ∅ → first ∈ s.isr.erase b) :
    RidOf b (failover overflowChecks b first s).2 ∧
      (failover overflowChecks b first s).1 ≠ .ok (some b) := by
  have hnot : b ∉ s.isr.erase b := Finset.notMem_erase b s.isr
  rcases failover_cases overflowChecks b first s with ⟨hlead, heq⟩ | ⟨hlead, hisr, hrep, heq⟩ |
    ⟨e, r, hlead, hadd, hhead, heq⟩ | ⟨r, epoch, hlead, hisr, hhead, hadd, heq⟩ |
    ⟨epoch, hlead, hisr, hadd, heq⟩
  · rw [heq]
    exact ⟨⟨hnot, fun hother => ⟨hlead, h.leader hlead hother⟩⟩, by simp⟩
  · rw [heq]
    refine ⟨⟨hnot, ?_⟩, by simp⟩
    rintro ⟨r, hr, -⟩
    rw [hrep] at hr
    cases hr
  · have hpanics := (failover_error_iff overflowChecks b first s).1 ⟨e, by rw [heq]⟩
    rw [h.epoch] at hpanics
    cases hpanics
  · have hne : r ≠ b := by
      rintro rfl
      exact h.fallback hlead hisr hhead
    rw [heq, hisr]
    refine ⟨⟨?_, fun _ => ⟨hne, List.mem_of_mem_head? hhead⟩⟩, ?_⟩
    · simpa using hne.symm
    · simpa using hne
  · have hmem := hfirst hisr
    have hne := (Finset.mem_erase.1 hmem).1
    rw [heq]
    exact ⟨⟨hnot, fun hother => ⟨hne, h.isr hlead hother first hmem⟩⟩, by simpa using hne⟩

/-- **One partition** is left without the failed broker, whatever member of the ISR the election
meets first, exactly if the failure is safe. -/
theorem ridOf_failover_iff (hepoch : electionPanics overflowChecks b s = false) :
    (∀ first, (s.isr.erase b ≠ ∅ → first ∈ s.isr.erase b) →
      RidOf b (failover overflowChecks b first s).2) ↔ SafeFailure overflowChecks b s := by
  constructor
  · intro h
    have hok : ∀ first, ¬∃ e, (failover overflowChecks b first s).1 = .error e := by
      intro first
      rw [failover_error_iff, hepoch]
      exact Bool.false_ne_true
    obtain ⟨first, hfirst⟩ := exists_first b s
    constructor
    · exact hepoch
    · intro hlead hisr hhead
      have hleft := h first hfirst
      rcases failover_cases overflowChecks b first s with ⟨hlead', -⟩ | ⟨-, -, hrep, -⟩ |
        ⟨e, r, -, -, -, heq⟩ | ⟨r, epoch, -, -, hhead', -, heq⟩ | ⟨epoch, -, hisr', -, -⟩
      · exact hlead' hlead
      · rw [hrep] at hhead
        cases hhead
      · exact hok first ⟨e, by rw [heq]⟩
      · -- the fallback elects `b` and puts it back into the ISR
        rw [hhead, Option.some.injEq] at hhead'
        subst hhead'
        apply hleft.isr
        rw [heq]
        exact Finset.mem_insert_self ..
      · exact hisr' hisr
    · intro hlead hother r hr
      have hleft := h r fun _ => hr
      have hne := Finset.ne_empty_of_mem hr
      rcases failover_cases overflowChecks b r s with ⟨hlead', -⟩ | ⟨-, hisr, -, -⟩ |
        ⟨e, r', -, -, -, heq⟩ | ⟨r', epoch, -, hisr, -, -, -⟩ | ⟨epoch, -, -, -, heq⟩
      · exact absurd hlead hlead'
      · exact absurd hisr hne
      · exact absurd ⟨e, by rw [heq]⟩ (hok r)
      · exact absurd hisr hne
      · rw [heq] at hleft
        exact (hleft.leader hother).2
    · intro hlead hother
      have hbody : failover overflowChecks b first s =
          (.ok none, { s with isr := s.isr.erase b }) := if_neg hlead
      have hleft := h first hfirst
      rw [hbody] at hleft
      exact (hleft.leader hother).2
  · intro h first hfirst
    exact (ridOf_failover h hfirst).1

end Partition

/-! ## All partitions -/

section Loop

variable {overflowChecks : Bool} {b : BrokerId} {order : List PartitionKey}
  {first : PartitionKey → BrokerId} {c : ClusterMetadata}

/-- Failures that are safe for every partition leave all of them without the broker. -/
theorem failedNotElected_of_safe (horder : c.partitionStates.Order order)
    (hfirst : ∀ k ∈ order, FirstOf b first c k)
    (h : ∀ k s, c.partitionStates.get k = some s → SafeFailure overflowChecks b s) :
    FailedNotElected overflowChecks b order first c := by
  obtain ⟨outs, houts⟩ : ∃ outs, (Table.forEachMut (failoverEntry overflowChecks b first) order
      c.partitionStates).1 = .ok outs := by
    cases hloop : (Table.forEachMut (failoverEntry overflowChecks b first) order
        c.partitionStates).1 with
    | ok outs => exact ⟨outs, rfl⟩
    | error e =>
      obtain ⟨k, -, s, hs, hbody, -⟩ := Table.stopped_of_forEachMut horder.nodup hloop
      have hpanics := (failoverEntry_error_iff k s).1 ⟨e, hbody⟩
      rw [(h k s hs).epoch] at hpanics
      cases hpanics
  have hok : (c.handleBrokerFailure overflowChecks b order first).1 =
      .ok (outs.filterMap id) := by
    unfold handleBrokerFailure
    simp only [houts]
    rfl
  refine ⟨_, hok, ?_, ?_⟩
  · intro e he heq
    obtain ⟨k, s, hk, -, hs, hel, -, -⟩ := mem_handleBrokerFailure horder.nodup hok he
    rw [heq] at hel
    exact (ridOf_failover (h k s hs) (hfirst k hk s hs)).2 hel
  · intro k t ht
    have hk : k ∈ order := by
      obtain ⟨s, hs, -⟩ := get_failoverLoop_some horder.nodup ht
      exact horder.mem_iff.2 ⟨s, hs⟩
    have hget := Table.get_forEachMut_of_ok horder.nodup houts hk
    obtain ⟨s, hs, rfl⟩ := Option.map_eq_some_iff.1 (hget.symm.trans ht)
    exact (ridOf_failover (h k s hs) (hfirst k hk s hs)).1

/-- Some element that the failure leaves can be met first in every ISR, and any such element in one
of them. -/
theorem exists_firstOf (b : BrokerId) (c : ClusterMetadata) {k : PartitionKey}
    {s : PartitionReplicaState} (hs : c.partitionStates.get k = some s) {r : BrokerId}
    (hr : s.isr.erase b ≠ ∅ → r ∈ s.isr.erase b) :
    ∃ first : PartitionKey → BrokerId, first k = r ∧ ∀ k', FirstOf b first c k' := by
  have hexists : ∀ k', ∃ r', ∀ s' ∈ c.partitionStates.get k',
      s'.isr.erase b ≠ ∅ → r' ∈ s'.isr.erase b := by
    intro k'
    cases hs' : c.partitionStates.get k' with
    | none =>
      refine ⟨0, ?_⟩
      rintro s' ⟨⟩
    | some s' =>
      obtain ⟨r', hr'⟩ := exists_first b s'
      refine ⟨r', ?_⟩
      rintro s'' ⟨⟩
      exact hr'
  choose first hfirst using hexists
  refine ⟨Function.update first k r, Function.update_self .., ?_⟩
  intro k' s' hs'
  by_cases hk : k' = k
  · subst hk
    obtain rfl : s = s' := Option.some.inj (hs.symm.trans hs')
    rw [Function.update_self]
    exact hr
  · rw [Function.update_of_ne hk]
    exact hfirst k' s' hs'

/-- **A failed broker is not elected**, whatever the order of the partitions and of each ISR, exactly
if its failure is safe for every partition. -/
theorem failed_not_elected_iff (overflowChecks : Bool) (b : BrokerId) (c : ClusterMetadata) :
    (∀ order first, c.partitionStates.Order order → (∀ k ∈ order, FirstOf b first c k) →
      FailedNotElected overflowChecks b order first c) ↔
    ∀ k s, c.partitionStates.get k = some s → SafeFailure overflowChecks b s := by
  constructor
  · intro h k s hs
    obtain ⟨order, horder⟩ := c.partitionStates.exists_order
    have hk : k ∈ order := horder.mem_iff.2 ⟨s, hs⟩
    -- what the call leaves of this partition, if `r` is the first of its ISR
    have hleft : ∀ r, (s.isr.erase b ≠ ∅ → r ∈ s.isr.erase b) →
        electionPanics overflowChecks b s = false ∧ RidOf b (failover overflowChecks b r s).2 := by
      intro r hr
      obtain ⟨first, rfl, hfirst⟩ := exists_firstOf b c hs hr
      obtain ⟨leaders, hok, -, hall⟩ := h order first horder fun k _ => hfirst k
      obtain ⟨outs, houts, -⟩ := Table.except_map_ok hok
      have hget := Table.get_forEachMut_of_ok horder.nodup houts hk
      rw [hs, Option.map_some] at hget
      refine ⟨?_, hall k _ hget⟩
      obtain ⟨out, hbody⟩ := Table.body_of_ok horder.nodup houts hk hs
      by_contra hpanics
      obtain ⟨e, he⟩ := (@failoverEntry_error_iff overflowChecks b first k s).2
        (Bool.eq_true_of_not_eq_false hpanics)
      rw [hbody] at he
      cases he
    obtain ⟨r, hr⟩ := exists_first b s
    apply (ridOf_failover_iff (hleft r hr).1).1
    intro r' hr'
    exact (hleft r' hr').2
  · intro h order first horder hfirst
    exact failedNotElected_of_safe horder hfirst h

end Loop

/-- The leader is the only one left in the ISR when it fails, and the first of its replicas. -/
def lastInSyncRun : List ClusterOp :=
  [.setPartitionReplicas "orders" 0 1 [1, 2], .updateReplicaOffset "orders" 0 1 100,
    .updateReplicaOffset "orders" 0 2 50]

/-- The failed broker is elected and put back into the ISR, with another replica at hand. -/
theorem failed_broker_elected :
    ∃ tr, Run (Steps (clusterNext true)) (ClusterMetadata.new 0 30000 10) tr ∧
      tr.map Prod.fst = lastInSyncRun ∧
      ((last (ClusterMetadata.new 0 30000 10) tr).handleBrokerFailure true 1 [("orders", 0)]
        fun _ => 0).1.toOption = some [("orders", 0, 1)] ∧
      ¬∀ order first, (last (ClusterMetadata.new 0 30000 10) tr).partitionStates.Order order →
        (∀ k ∈ order, FirstOf 1 first (last (ClusterMetadata.new 0 30000 10) tr) k) →
        FailedNotElected true 1 order first (last (ClusterMetadata.new 0 30000 10) tr) := by
  obtain ⟨tr, htr, hends⟩ := Option.map_eq_some_iff.1
    (show (trace (clusterNext true) (ClusterMetadata.new 0 30000 10) lastInSyncRun).map (fun tr =>
        (clusterNext true (last (ClusterMetadata.new 0 30000 10) tr)
          (.handleBrokerFailure 1 [("orders", 0)] fun _ => 0)).isSome &&
        ((last (ClusterMetadata.new 0 30000 10) tr).handleBrokerFailure true 1 [("orders", 0)]
          fun _ => 0).1.toOption = some [("orders", 0, 1)]) = some true by decide +kernel)
  simp only [Bool.and_eq_true, decide_eq_true_eq, Option.isSome_iff_exists] at hends
  obtain ⟨⟨c, hstep⟩, hleaders⟩ := hends
  obtain ⟨⟨horder, hfirst⟩, -⟩ := Option.ite_none_right_eq_some.1 hstep
  refine ⟨tr, run_of_trace htr, events_of_trace htr, hleaders, ?_⟩
  intro h
  obtain ⟨leaders, hok, hne, -⟩ := h _ _ horder hfirst
  rw [hok] at hleaders
  cases hleaders
  exact hne ("orders", 0, 1) (List.mem_cons_self ..) rfl

end Gaffa
