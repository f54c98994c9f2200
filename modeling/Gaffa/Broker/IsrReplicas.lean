import Gaffa.Broker.LeaderOnly

/-!
# The ISR and the replicas

`process_request` of `broker/src/server.rs` reports the end of every batch that is appended as an
offset of this broker, whether the broker is a replica of the partition or not, and a report that
passes the lag test puts the broker into the ISR.

* `updateReplicaOffset_subset_iff`: when a report keeps the ISR to the replicas.
* `isr_subset_replicas_iff`: the ISR of every partition is made of replicas in all states of a run
  exactly when no batch is appended, and passes the lag test, on a broker that is not a replica.
-/

set_option autoImplicit false

namespace Gaffa

open Transition TopicStore PartitionReplicaState ClusterMetadata

/-- What a broker meets: an event, or the failure of any broker, with the order in which the loop
visits the partitions and the first element of each ISR that is left. -/
inductive FailureEvent where
  | event (e : BrokerEvent)
  | failure (failedBrokerId : BrokerId) (order : List PartitionKey)
      (first : PartitionKey → BrokerId)

/-- The steps of a broker that handles failures. -/
def failureNext (K : Crates) (config : BrokerConfig) (overflowChecks : Bool) (b : Broker) :
    FailureEvent → Option Broker
  | .event e => brokerNext K config overflowChecks b e
  | .failure failed order first =>
    if b.cluster.partitionStates.Order order ∧ ∀ k ∈ order, FirstOf failed first b.cluster k then
      some { b with
        cluster := (b.cluster.handleBrokerFailure overflowChecks failed order first).2 }
    else none

/-- The ISR of every partition is made of replicas. -/
def IsrWithinReplicas (b : Broker) : Prop :=
  ∀ key state, b.cluster.partitionStates.get key = some state →
    state.isr ⊆ state.replicas.toFinset

/-- No batch is appended to a partition that this broker is no replica of with an end that passes the
lag test. -/
def KeepsOut (K : Crates) (overflowChecks : Bool) (b : Broker) (e : FailureEvent) (_ : Broker) :
    Prop :=
  match e with
  | .event (.request (.produce topic partition messages) io) =>
    ∀ found p base state, b.store.find topic partition = .ok (found, p) →
      (appendTo K io.append messages b.store.tree p).1 = .ok base →
      b.cluster.partitionStates.get (topic, partition) = some state →
      b.cluster.brokerId ∉ state.replicas →
      lagTest overflowChecks (base + messages.length) b.cluster.isrLagThreshold
        (state.record b.cluster.brokerId (base + messages.length)).leaderOffset ≠ .ok true
  | _ => True

section Partition

variable {overflowChecks : Bool} {s : PartitionReplicaState} {b first : BrokerId}
  {offset lag : Nat}

/-- **A report** keeps the ISR to the replicas exactly when the broker that it puts into the ISR, if
it does, is a replica. -/
theorem updateReplicaOffset_subset_iff (h : s.isr ⊆ s.replicas.toFinset) :
    (s.updateReplicaOffset overflowChecks b offset lag).2.isr ⊆
        (s.updateReplicaOffset overflowChecks b offset lag).2.replicas.toFinset ↔
      (b ∉ s.replicas →
        lagTest overflowChecks offset lag (s.record b offset).leaderOffset ≠ .ok true) := by
  rcases updateReplicaOffset_cases overflowChecks b offset lag s with
    ⟨e, hlag, heq⟩ | ⟨hlag, heq⟩ | ⟨hlag, heq⟩
  · rw [heq, hlag]
    exact iff_of_true h fun _ habsurd => by cases habsurd
  · rw [heq, hlag, updateHighWatermark_isr, updateHighWatermark_replicas]
    constructor
    · intro hsub hnot
      exact absurd (List.mem_toFinset.1 (hsub (Finset.mem_insert_self ..))) hnot
    · intro hin
      refine Finset.insert_subset (List.mem_toFinset.2 ?_) h
      by_contra hnot
      exact hin hnot rfl
  · rw [heq, hlag, updateHighWatermark_isr, updateHighWatermark_replicas]
    exact iff_of_true ((Finset.erase_subset ..).trans h) fun _ habsurd => by cases habsurd

/-- **A failure** takes a broker out of the ISR, and can put the first replica in. -/
theorem failover_subset (h : s.isr ⊆ s.replicas.toFinset) :
    (failover overflowChecks b first s).2.isr ⊆
      (failover overflowChecks b first s).2.replicas.toFinset := by
  have herase : s.isr.erase b ⊆ s.replicas.toFinset := (Finset.erase_subset ..).trans h
  rcases failover_cases overflowChecks b first s with ⟨-, heq⟩ | ⟨-, -, -, heq⟩ |
    ⟨e, r, -, -, -, heq⟩ | ⟨r, epoch, -, -, hhead, -, heq⟩ | ⟨epoch, -, -, -, heq⟩
  · rw [heq]
    exact herase
  · rw [heq]
    exact herase
  · rw [heq]
    exact herase
  · rw [heq]
    exact Finset.insert_subset (List.mem_toFinset.2 (List.mem_of_mem_head? hhead)) herase
  · rw [heq]
    exact herase

end Partition

section Steps

variable {K : Crates} {config : BrokerConfig} {overflowChecks : Bool} {b b' : Broker}

/-- A failure keeps the ISR of every partition to its replicas. -/
theorem isr_subset_handleBrokerFailure {c : ClusterMetadata} {failed : BrokerId}
    {order : List PartitionKey} {first : PartitionKey → BrokerId}
    (horder : c.partitionStates.Order order)
    (h : ∀ key state, c.partitionStates.get key = some state →
      state.isr ⊆ state.replicas.toFinset) :
    ∀ key state, (c.handleBrokerFailure overflowChecks failed order first).2.partitionStates.get
      key = some state → state.isr ⊆ state.replicas.toFinset :=
  forall_handleBrokerFailure horder.nodup h fun key state _ hget => failover_subset (h key state hget)

/-- The loop of `CreateTopic` makes the ISR of a partition of its replicas. -/
theorem isr_subset_assignReplicas (now : Nat) (order : List BrokerId) (replicationFactor : Nat)
    (name : String) : ∀ (ids : List Nat) (c : ClusterMetadata),
      (∀ key state, c.partitionStates.get key = some state →
        state.isr ⊆ state.replicas.toFinset) →
      ∀ key state, (Broker.assignReplicas now order replicationFactor name ids
        c).2.partitionStates.get key = some state → state.isr ⊆ state.replicas.toFinset
  | [], _, h => h
  | id :: ids, c, h => by
    unfold Broker.assignReplicas
    split
    · exact h
    · exact isr_subset_assignReplicas now order replicationFactor name ids _
        (forall_setPartitionReplicas h subset_rfl fun _ _ => subset_rfl)

/-- **A request** keeps every ISR to the replicas exactly when it keeps this broker out. -/
theorem request_within_iff (h : IsrWithinReplicas b) {request : Request} {io : RequestIo}
    (hstep : RequestStep K config overflowChecks io b request b') :
    IsrWithinReplicas b' ↔ KeepsOut K overflowChecks b (.event (.request request io)) b' := by
  cases hstep with
  | reads hreads =>
    refine iff_of_true h ?_
    cases request with
    | produce topic partition messages => exact absurd hreads id
    | _ => exact trivial
  | notCreated _ => exact iff_of_true h trivial
  | created hnew _ =>
    exact iff_of_true (isr_subset_assignReplicas _ _ _ _ _ _ h) trivial
  | notFound herror =>
    refine iff_of_true h ?_
    intro found p base state hfind
    rw [herror] at hfind
    cases hfind
  | failed hfind herror =>
    refine iff_of_true h ?_
    intro found p base state hfind' hok
    rw [hfind] at hfind'
    cases hfind'
    rw [herror] at hok
    cases hok
  | @appended topic partition messages found p base hfind hbase =>
    unfold IsrWithinReplicas
    simp only [get_updateLeaderOffset]
    constructor
    · intro hwithin found' p' base' state hfind' hbase' hstate
      rw [hfind] at hfind'
      cases hfind'
      rw [hbase] at hbase'
      cases hbase'
      refine (updateReplicaOffset_subset_iff (h _ state hstate)).1 ?_
      exact hwithin (topic, partition) _ (by rw [if_pos rfl, hstate]; rfl)
    · intro hout key state hget
      split at hget
      · rename_i hkey
        obtain ⟨old, hold, rfl⟩ := Option.map_eq_some_iff.1 hget
        refine (updateReplicaOffset_subset_iff (h key old hold)).2 ?_
        exact hout found p base old hfind hbase (hkey ▸ hold)
      · exact h key state hget
  | registered id host port => exact iff_of_true h trivial

/-- **A step** keeps every ISR to the replicas exactly when it keeps this broker out. -/
theorem next_within_iff (h : IsrWithinReplicas b) {e : FailureEvent}
    (hstep : failureNext K config overflowChecks b e = some b') :
    IsrWithinReplicas b' ↔ KeepsOut K overflowChecks b e b' := by
  cases e with
  | failure failed order first =>
    obtain ⟨⟨horder, -⟩, hstep⟩ := Option.ite_none_right_eq_some.1 hstep
    cases hstep
    exact iff_of_true (isr_subset_handleBrokerFailure horder h) trivial
  | event e =>
    have hevent : brokerNext K config overflowChecks b e = some b' := hstep
    cases e with
    | request request io => exact request_within_iff h (next_request hevent).2.2.2.2
    | healthCheck io =>
      obtain ⟨-, -, c, hcheck, rfl⟩ := next_healthCheck hevent
      refine iff_of_true ?_ trivial
      exact electionLoop_induct (I := fun c => ∀ key state, c.partitionStates.get key = some state →
        state.isr ⊆ state.replicas.toFinset) (fun c failed order first hc horder _ =>
          isr_subset_handleBrokerFailure horder hc) h hcheck
    | pass now =>
      obtain ⟨-, rfl⟩ := next_pass hevent
      exact iff_of_true h trivial
    | restart listing =>
      refine iff_of_true ?_ trivial
      intro key state hget
      rw [(new_spec (next_restart hevent).2).1] at hget
      cases hget

end Steps

/-- **The ISR is made of replicas** in all states of a run exactly when no batch is appended, and
passes the lag test, on a broker that is not a replica of its partition. -/
theorem isr_subset_replicas_iff {K : Crates} {config : BrokerConfig} {overflowChecks : Bool}
    {listing : DirTree.Listing} {now : Nat} {t : DirTree.Tree} {b : Broker}
    (hnew : Broker.new K config listing now t = .ok b) {tr : List (FailureEvent × Broker)}
    (hrun : Run (Steps (failureNext K config overflowChecks)) b tr) :
    Throughout IsrWithinReplicas b tr ↔ EachStep (KeepsOut K overflowChecks) b tr := by
  refine throughout_iff (I := IsrWithinReplicas) (fun s e s' h hstep => (next_within_iff h hstep).2)
    (fun s h => h) (fun s e s' h hstep => (next_within_iff h hstep).1) ?_ hrun
  intro key state hget
  rw [(new_spec hnew).1] at hget
  cases hget

/-! ## Two runs -/

/-- A broker that starts on the empty data directory, and what it does at some events. -/
def localFailures (config : BrokerConfig) (events : List FailureEvent) :
    Option (Broker × List (FailureEvent × Broker)) :=
  match Broker.new plainCrates config emptyListing 0 emptyDataDir with
  | .error _ => none
  | .ok b => (trace (failureNext plainCrates config true) b events).map fun tr => (b, tr)

theorem localFailures_spec {config : BrokerConfig} {events : List FailureEvent} {b : Broker}
    {tr : List (FailureEvent × Broker)} (h : localFailures config events = some (b, tr)) :
    Broker.new plainCrates config emptyListing 0 emptyDataDir = .ok b ∧
      trace (failureNext plainCrates config true) b events = some tr := by
  unfold localFailures at h
  split at h
  · cases h
  · rename_i b' hnew
    obtain ⟨tr', htr, heq⟩ := Option.map_eq_some_iff.1 h
    cases heq
    exact ⟨hnew, htr⟩

/-- Broker 1 appends a batch to its own partition, and broker 2 fails. -/
def ownBatch : List FailureEvent :=
  joinedEvents.map .event ++ [.event (.request (.produce "a" 0 [⟨none, [7], 0⟩]) joinedIo),
    .failure 2 [("a", 0), ("a", 1)] fun _ => 1]

theorem isr_subset_replicas_iff_own : ∃ b tr,
    localFailures (localConfig 1 1) ownBatch = some (b, tr) ∧
      (Throughout IsrWithinReplicas b tr ↔ EachStep (KeepsOut plainCrates true) b tr) := by
  obtain ⟨⟨b, tr⟩, hlocal⟩ := Option.isSome_iff_exists.1
    (show (localFailures (localConfig 1 1) ownBatch).isSome = true by decide +kernel)
  obtain ⟨hnew, htr⟩ := localFailures_spec hlocal
  exact ⟨b, tr, hlocal, isr_subset_replicas_iff hnew (run_of_trace htr)⟩

/-- Broker 1 appends a batch to a partition whose only replica is broker 2, and is in its ISR. -/
theorem outsider_in_isr : ¬ ∀ b tr,
    Broker.new plainCrates (localConfig 1 1) emptyListing 0 emptyDataDir = .ok b →
    Run (Steps (failureNext plainCrates (localConfig 1 1) true)) b tr →
    Throughout IsrWithinReplicas b tr := by
  intro h
  obtain ⟨⟨b, tr⟩, hlocal⟩ := Option.isSome_iff_exists.1 (show (localFailures (localConfig 1 1)
    (joinedEvents.map .event ++
      [.event (.request (.produce "a" 1 [⟨none, [7], 0⟩]) joinedIo)])).isSome = true by
        decide +kernel)
  have houtside : ∀ r ∈ localFailures (localConfig 1 1) (joinedEvents.map .event ++
      [.event (.request (.produce "a" 1 [⟨none, [7], 0⟩]) joinedIo)]),
      ∃ state ∈ (last r.1 r.2).cluster.partitionStates.get ("a", 1),
        ¬ state.isr ⊆ state.replicas.toFinset := by
    decide +kernel
  obtain ⟨hnew, htr⟩ := localFailures_spec hlocal
  obtain ⟨state, hget, hnot⟩ := houtside (b, tr) hlocal
  exact hnot ((h b tr hnew (run_of_trace htr)).at_last _ state hget)

end Gaffa
