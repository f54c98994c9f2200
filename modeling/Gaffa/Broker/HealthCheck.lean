import Gaffa.Broker.Failures
import Gaffa.Broker.SelfCheck

/-!
# Health checks

`ReplicationManager::check_broker_health` of `broker/src/replication.rs` reads the states of all
partitions once, and calls `handle_broker_failure` for the leader of each that is not alive; each
call goes through all partitions.

* `electionLoop_failures` and `exists_electionLoop`: for one partition, the check is the failures of
  the leaders that it has read, one for each partition, in the order in which it has read them.
* `live_leaders_iff`: a check leaves alive leaders after at most one election each, exactly when one
  election is enough for every partition whose leader is dead.
-/

set_option autoImplicit false

namespace Gaffa

open Transition PartitionReplicaState ClusterMetadata

namespace Broker

/-- The brokers that a health check takes for alive. -/
def aliveIds (order : List BrokerId) (b : Broker) : List BrokerId :=
  (b.cluster.getAliveBrokers b.now order).map BrokerInfo.id

/-- The leader that a health check reports as failed for a partition. -/
def deadLeader (alive : List BrokerId) (state : PartitionReplicaState) : Option BrokerId :=
  if state.leader ∈ alive then none else some state.leader

/-- The leaders that a health check reports as failed, once for each of their partitions. -/
def deadLeaders (alive : List BrokerId) (states : List PartitionReplicaState) : List BrokerId :=
  states.filterMap (deadLeader alive)

/-- No election of a health check panics. -/
def electionsReturn (overflowChecks : Bool) (alive : List BrokerId) :
    List PartitionReplicaState → (Nat → List PartitionKey × (PartitionKey → BrokerId)) →
    ClusterMetadata → Bool
  | [], _, _ => true
  | state :: rest, elections, c =>
    if state.leader ∈ alive then electionsReturn overflowChecks alive rest elections c
    else
      match c.handleBrokerFailure overflowChecks state.leader (elections 0).1 (elections 0).2 with
      | (.error _, _) => false
      | (.ok _, c) => electionsReturn overflowChecks alive rest (fun i => elections (i + 1)) c

end Broker

/-! ## One failure for all partitions -/

section Failure

variable {overflowChecks : Bool} {failed : BrokerId} {order : List PartitionKey}
  {first : PartitionKey → BrokerId} {c : ClusterMetadata} {k : PartitionKey}
  {s : PartitionReplicaState}

/-- A failure that returns went through the loop's body at every partition. -/
theorem failover_of_ok (horder : c.partitionStates.Order order)
    (hs : c.partitionStates.get k = some s) {leaders : List (String × Nat × BrokerId)}
    (hok : (c.handleBrokerFailure overflowChecks failed order first).1 = .ok leaders) :
    ∃ leader t, failover overflowChecks failed (first k) s = (.ok leader, t) ∧
      (c.handleBrokerFailure overflowChecks failed order first).2.partitionStates.get k =
        some t := by
  have hk : k ∈ order := horder.mem_iff.2 ⟨s, hs⟩
  obtain ⟨outs, houts, -⟩ := Table.except_map_ok hok
  have hget := Table.get_forEachMut_of_ok horder.nodup houts hk
  rw [hs, Option.map_some] at hget
  obtain ⟨out, hbody⟩ := Table.body_of_ok horder.nodup houts hk hs
  obtain ⟨leader, hleader, -⟩ := Table.except_map_ok hbody
  exact ⟨leader, _, Prod.ext hleader rfl, hget⟩

theorem failureStep_of_ok (horder : c.partitionStates.Order order)
    (hfirst : ∀ k ∈ order, FirstOf failed first c k) (hs : c.partitionStates.get k = some s)
    {leaders : List (String × Nat × BrokerId)}
    (hok : (c.handleBrokerFailure overflowChecks failed order first).1 = .ok leaders) :
    ∃ t, (c.handleBrokerFailure overflowChecks failed order first).2.partitionStates.get k =
      some t ∧ FailureStep overflowChecks failed s (some t) := by
  obtain ⟨leader, t, hbody, hget⟩ := failover_of_ok horder hs hok
  have hk : k ∈ order := horder.mem_iff.2 ⟨s, hs⟩
  exact ⟨t, hget, failureStep_iff.2 ⟨first k, hfirst k hk s hs, Or.inl ⟨leader, t, hbody, rfl⟩⟩⟩

theorem failureStep_of_error (horder : c.partitionStates.Order order)
    (hfirst : ∀ k ∈ order, FirstOf failed first c k) {e : Fault}
    (herror : (c.handleBrokerFailure overflowChecks failed order first).1 = .error e) :
    ∃ k s, c.partitionStates.get k = some s ∧ FailureStep overflowChecks failed s none := by
  obtain ⟨e', hloop⟩ := Table.except_map_error_iff.1 ⟨e, herror⟩
  obtain ⟨k, hk, s, hs, hbody, -⟩ := Table.stopped_of_forEachMut horder.nodup hloop
  obtain ⟨e'', hfails⟩ := Table.except_map_error_iff.1 ⟨e', hbody⟩
  have hstep : failover overflowChecks failed (first k) s =
      (.error e'', (failover overflowChecks failed (first k) s).2) := Prod.ext hfails rfl
  exact ⟨k, s, hs, failureStep_iff.2 ⟨first k, hfirst k hk s hs, Or.inr ⟨e'', _, hstep, rfl⟩⟩⟩

/-- What a failure can do to a partition, some order of the partitions and of the members of each
ISR does. -/
theorem exists_handleBrokerFailure {left : Option PartitionReplicaState}
    (hs : c.partitionStates.get k = some s) (hstep : FailureStep overflowChecks failed s left) :
    ∃ order first, c.partitionStates.Order order ∧ (∀ k ∈ order, FirstOf failed first c k) ∧
      ((∃ e, (c.handleBrokerFailure overflowChecks failed order first).1 = .error e) ∨
        ∃ leaders t, (c.handleBrokerFailure overflowChecks failed order first).1 = .ok leaders ∧
          left = some t ∧
          (c.handleBrokerFailure overflowChecks failed order first).2.partitionStates.get k =
            some t) := by
  obtain ⟨r, hr, hbody⟩ := failureStep_iff.1 hstep
  obtain ⟨order, horder⟩ := c.partitionStates.exists_order
  obtain ⟨first, rfl, hfirst⟩ := exists_firstOf failed c hs hr
  refine ⟨order, first, horder, fun k _ => hfirst k, ?_⟩
  cases hresult : (c.handleBrokerFailure overflowChecks failed order first).1 with
  | error e => exact Or.inl ⟨e, rfl⟩
  | ok leaders =>
    obtain ⟨leader, t, hok, hget⟩ := failover_of_ok horder hs hresult
    rcases hbody with ⟨leader', t', heq, rfl⟩ | ⟨e, t', heq, -⟩
    · obtain ⟨-, rfl⟩ := Prod.mk.inj (hok.symm.trans heq)
      exact Or.inr ⟨leaders, t, rfl, rfl, hget⟩
    · cases (Prod.mk.inj (hok.symm.trans heq)).1

end Failure

/-! ## All failures that a check reports -/

section Loop

variable {overflowChecks : Bool} {alive : List BrokerId} {state : PartitionReplicaState}
  {states : List PartitionReplicaState} {c d : ClusterMetadata}

theorem deadLeaders_cons_alive (h : state.leader ∈ alive) :
    Broker.deadLeaders alive (state :: states) = Broker.deadLeaders alive states :=
  List.filterMap_cons_none (if_pos h)

theorem deadLeaders_cons_dead (h : state.leader ∉ alive) :
    Broker.deadLeaders alive (state :: states) =
      state.leader :: Broker.deadLeaders alive states :=
  List.filterMap_cons_some (if_neg h)

/-- **A check is the failures** of the dead leaders that it has read, for every partition; if an
election panics, then it is due at some partition. -/
theorem electionLoop_failures {elections : Nat → List PartitionKey × (PartitionKey → BrokerId)}
    (h : Broker.electionLoop overflowChecks alive states elections c = some d) :
    (Broker.electionsReturn overflowChecks alive states elections c = true ∧
      ∀ k s, c.partitionStates.get k = some s →
        Failures overflowChecks (Broker.deadLeaders alive states) s (d.partitionStates.get k)) ∨
    (Broker.electionsReturn overflowChecks alive states elections c = false ∧
      ∃ k s, c.partitionStates.get k = some s ∧
        Failures overflowChecks (Broker.deadLeaders alive states) s none) := by
  induction states generalizing c elections with
  | nil =>
    cases h
    refine Or.inl ⟨rfl, fun k s hs => ?_⟩
    rw [hs]
    exact .done
  | cons state states ih =>
    unfold Broker.electionLoop at h
    unfold Broker.electionsReturn
    by_cases hlive : state.leader ∈ alive
    · rw [if_pos hlive] at h ⊢
      rw [deadLeaders_cons_alive hlive]
      exact ih h
    · rw [if_neg hlive] at h ⊢
      rw [deadLeaders_cons_dead hlive]
      obtain ⟨⟨horder, hfirst⟩, h⟩ := Option.ite_none_right_eq_some.1 h
      have hok := fun k s => @failureStep_of_ok overflowChecks _ _ _ c k s horder hfirst
      have herror := @failureStep_of_error overflowChecks _ _ _ c horder hfirst
      rcases hresult : c.handleBrokerFailure overflowChecks state.leader (elections 0).1
        (elections 0).2 with ⟨e | leaders, c'⟩
      · rw [hresult] at herror
        obtain ⟨k, s, hs, hstep⟩ := herror rfl
        exact Or.inr ⟨rfl, k, s, hs, .stop hstep⟩
      · rw [hresult] at h hok
        rcases ih h with ⟨hreturn, hall⟩ | ⟨hreturn, k, t, ht, hnone⟩
        · refine Or.inl ⟨hreturn, fun k s hs => ?_⟩
          obtain ⟨t, ht, hstep⟩ := hok k s hs rfl
          exact .step hstep (hall k t ht)
        · have hloop : (c.handleBrokerFailure overflowChecks state.leader (elections 0).1
              (elections 0).2).2.partitionStates.get k = some t := by
            rw [hresult]
            exact ht
          obtain ⟨s, hs, -⟩ := get_failoverLoop_some horder.nodup hloop
          obtain ⟨t', ht', hstep⟩ := hok k s hs rfl
          obtain rfl := Option.some_inj.1 (ht.symm.trans ht')
          exact Or.inr ⟨hreturn, k, s, hs, .step hstep hnone⟩

/-- Whatever the failures can do to a partition, some check does, unless it panics before. -/
theorem exists_electionLoop {k : PartitionKey} {s : PartitionReplicaState}
    {left : Option PartitionReplicaState} (hs : c.partitionStates.get k = some s)
    (h : Failures overflowChecks (Broker.deadLeaders alive states) s left) :
    ∃ elections d, Broker.electionLoop overflowChecks alive states elections c = some d ∧
      (Broker.electionsReturn overflowChecks alive states elections c = true →
        left = d.partitionStates.get k) := by
  induction states generalizing c s with
  | nil =>
    cases h
    exact ⟨fun _ => ([], fun _ => 0), c, rfl, fun _ => hs.symm⟩
  | cons state states ih =>
    by_cases hlive : state.leader ∈ alive
    · rw [deadLeaders_cons_alive hlive] at h
      obtain ⟨elections, d, hloop, hleft⟩ := ih hs h
      refine ⟨elections, d, ?_, ?_⟩
      · rw [Broker.electionLoop, if_pos hlive]
        exact hloop
      · rw [Broker.electionsReturn, if_pos hlive]
        exact hleft
    · rw [deadLeaders_cons_dead hlive] at h
      obtain ⟨now, hnow, hrest⟩ : ∃ now, FailureStep overflowChecks state.leader s now ∧
          ∀ t, now = some t →
            Failures overflowChecks (Broker.deadLeaders alive states) t left := by
        cases h with
        | step hstep hrest =>
          refine ⟨_, hstep, ?_⟩
          rintro t ⟨⟩
          exact hrest
        | stop hstep =>
          refine ⟨none, hstep, ?_⟩
          rintro t ⟨⟩
      obtain ⟨order, first, horder, hfirst, ⟨e, herror⟩ | ⟨leaders, t, hok, rfl, ht⟩⟩ :=
        exists_handleBrokerFailure hs hnow
      · rcases hresult : c.handleBrokerFailure overflowChecks state.leader order first
          with ⟨_ | _, c'⟩
        · refine ⟨fun _ => (order, first), c', ?_, ?_⟩
          · rw [Broker.electionLoop, if_neg hlive, if_pos ⟨horder, hfirst⟩]
            simp only [hresult]
          · rw [Broker.electionsReturn, if_neg hlive]
            simp only [hresult, Bool.false_eq_true, false_implies]
        · rw [hresult] at herror
          cases herror
      · obtain ⟨elections, d, hloop, hleft⟩ := ih ht (hrest t rfl)
        rcases hresult : c.handleBrokerFailure overflowChecks state.leader order first
          with ⟨_ | _, c'⟩
        · rw [hresult] at hok
          cases hok
        · rw [hresult] at hloop hleft
          obtain ⟨all, hhead, htail⟩ : ∃ all : Nat → List PartitionKey × (PartitionKey → BrokerId),
              all 0 = (order, first) ∧ (fun i => all (i + 1)) = elections :=
            ⟨fun i => Nat.casesOn i (order, first) elections, rfl, rfl⟩
          refine ⟨all, d, ?_, ?_⟩
          · rw [Broker.electionLoop, if_neg hlive, hhead, if_pos ⟨horder, hfirst⟩, htail]
            simp only [hresult]
            exact hloop
          · rw [Broker.electionsReturn, if_neg hlive, hhead, htail]
            simp only [hresult]
            exact hleft

end Loop

/-! ## Alive leaders -/

/-- A health check leaves alive leaders: it returns, and every partition with an alive broker in its
ISR then has an alive leader, in the same epoch or the next, whatever the order in which the check
visits the brokers, the partitions and the members of each ISR. -/
def LeavesLiveLeaders (overflowChecks : Bool) (b : Broker) : Prop :=
  ∀ io c, b.cluster.brokers.Order io.brokers → b.cluster.partitionStates.Order io.states →
    b.checkBrokerHealth overflowChecks io = some c →
    Broker.electionsReturn overflowChecks (b.aliveIds io.brokers)
      (io.states.filterMap b.cluster.partitionStates.get) io.elections b.cluster = true ∧
    ∀ k s, b.cluster.partitionStates.get k = some s →
      LiveLeader (b.aliveIds io.brokers) s (c.partitionStates.get k)

section Leaders

variable {overflowChecks : Bool} {alive : List BrokerId} {b : Broker} {c : ClusterMetadata}
  {states : List PartitionKey} {k : PartitionKey} {s : PartitionReplicaState}

theorem not_alive_of_deadLeaders {states : List PartitionReplicaState} {r : BrokerId}
    (h : r ∈ Broker.deadLeaders alive states) : r ∉ alive := by
  obtain ⟨state, -, hstate⟩ := List.mem_filterMap.1 h
  unfold Broker.deadLeader at hstate
  split at hstate
  · cases hstate
  · rename_i hdead
    cases hstate
    exact hdead

theorem leader_mem_deadLeaders (horder : c.partitionStates.Order states)
    (hs : c.partitionStates.get k = some s) (hdead : s.leader ∉ alive) :
    s.leader ∈ Broker.deadLeaders alive (states.filterMap c.partitionStates.get) :=
  List.mem_filterMap.2 ⟨s, List.mem_filterMap.2 ⟨k, horder.mem_iff.2 ⟨s, hs⟩, hs⟩, if_neg hdead⟩

/-- Any order of the failures is that of some order of the partitions. -/
theorem exists_order_deadLeaders (horder : c.partitionStates.Order states) {xs : List BrokerId}
    (hperm : xs.Perm (Broker.deadLeaders alive (states.filterMap c.partitionStates.get))) :
    ∃ states', c.partitionStates.Order states' ∧
      Broker.deadLeaders alive (states'.filterMap c.partitionStates.get) = xs := by
  unfold Broker.deadLeaders at hperm ⊢
  rw [List.filterMap_filterMap] at hperm
  obtain ⟨states', hstates, hxs⟩ := Table.exists_perm_filterMap hperm
  refine ⟨states', horder.perm hstates, ?_⟩
  rw [List.filterMap_filterMap]
  exact hxs

/-- **One partition**: one election is enough for it exactly if every check leaves it an alive
leader. -/
theorem live_leader_iff (horder : c.partitionStates.Order states)
    (hs : c.partitionStates.get k = some s) :
    LiveInAnyOrder overflowChecks alive
        (Broker.deadLeaders alive (states.filterMap c.partitionStates.get)) s ↔
      (s.leader ∉ alive → ElectsOnce overflowChecks alive
        (Broker.deadLeaders alive (states.filterMap c.partitionStates.get)) s) := by
  have hmem : s.leader ∈ Broker.deadLeaders alive (states.filterMap c.partitionStates.get) ↔
      s.leader ∉ alive := ⟨not_alive_of_deadLeaders, leader_mem_deadLeaders horder hs⟩
  rw [liveInAnyOrder_iff (fun _ => not_alive_of_deadLeaders)
    (fun hnot => not_not.1 fun hdead => hnot (hmem.2 hdead)), hmem]

end Leaders

/-- **A health check leaves alive leaders** exactly if one election is enough for every partition
whose leader is dead. -/
theorem live_leaders_iff (overflowChecks : Bool) (b : Broker) :
    LeavesLiveLeaders overflowChecks b ↔
      ∀ brokers states, b.cluster.brokers.Order brokers → b.cluster.partitionStates.Order states →
        ∀ k s, b.cluster.partitionStates.get k = some s → s.leader ∉ b.aliveIds brokers →
          ElectsOnce overflowChecks (b.aliveIds brokers)
            (Broker.deadLeaders (b.aliveIds brokers)
              (states.filterMap b.cluster.partitionStates.get)) s := by
  constructor
  · intro h brokers states hbrokers hstates k s hs
    apply (live_leader_iff hstates hs).1
    intro xs hperm left hleft
    obtain ⟨states', hstates', rfl⟩ := exists_order_deadLeaders hstates hperm
    obtain ⟨elections, d, hloop, hd⟩ := exists_electionLoop hs hleft
    obtain ⟨hreturn, hall⟩ := h ⟨brokers, states', elections⟩ d hbrokers hstates' hloop
    rw [hd hreturn]
    exact hall k s hs
  · intro h io c hbrokers hstates hcheck
    have hlive : ∀ k s, b.cluster.partitionStates.get k = some s → ∀ left,
        Failures overflowChecks (Broker.deadLeaders (b.aliveIds io.brokers)
          (io.states.filterMap b.cluster.partitionStates.get)) s left →
        LiveLeader (b.aliveIds io.brokers) s left := by
      intro k s hs
      exact (live_leader_iff hstates hs).2 (h _ _ hbrokers hstates k s hs) _ (List.Perm.refl _)
    rcases electionLoop_failures hcheck with ⟨hreturn, hall⟩ | ⟨-, k, s, hs, hnone⟩
    · exact ⟨hreturn, fun k s hs => hlive k s hs _ (hall k s hs)⟩
    · obtain ⟨t, heq, -⟩ := hlive k s hs none hnone
      cases heq

/-! ## Two brokers that die at once -/

/-- Brokers 1 and 2 join broker 3, which makes a topic of one partition; after 30 seconds only
broker 3 is registered again. -/
def twoDead : List BrokerEvent :=
  [.request (.registerBroker 1 "localhost" 9093) (.inOrder [3] [] [] fun _ => []),
    .request (.registerBroker 2 "localhost" 9094) (.inOrder [1, 3] [] [] fun _ => []),
    .request (.createTopic "a" 1) (.inOrder [1, 2, 3] [] [] fun _ => []),
    .pass brokerTimeout,
    .request (.registerBroker 3 "localhost" 9092)
      (.inOrder [1, 2, 3] ["a"] [("a", 0)] fun _ => [1, 2, 3])]

/-- A check that meets broker 2 first in the ISR. -/
def twoFirst : HealthIo :=
  ⟨[1, 2, 3], [("a", 0)], fun _ => ([("a", 0)], fun _ => 2)⟩

/-- Broker 1 led the partition, and broker 2, which is dead as well, is elected. -/
theorem dead_leader_elected : ¬ ∀ b tr,
    Broker.new plainCrates (localConfig 3 3) emptyListing 0 emptyDataDir = .ok b →
    Run (Steps (brokerNext plainCrates (localConfig 3 3) true)) b tr →
    LeavesLiveLeaders true (last b tr) := by
  intro h
  obtain ⟨⟨b, tr⟩, hlocal⟩ := Option.isSome_iff_exists.1
    (show (localRun (localConfig 3 3) twoDead).isSome = true by decide +kernel)
  have hdead : ∀ r ∈ localRun (localConfig 3 3) twoDead,
      (last r.1 r.2).cluster.brokers.Order twoFirst.brokers ∧
      (last r.1 r.2).cluster.partitionStates.Order twoFirst.states ∧
      ∃ c ∈ (last r.1 r.2).checkBrokerHealth true twoFirst,
        ∃ s ∈ (last r.1 r.2).cluster.partitionStates.get ("a", 0),
        ∃ t ∈ c.partitionStates.get ("a", 0),
          3 ∈ t.isr ∧ 3 ∈ (last r.1 r.2).aliveIds twoFirst.brokers ∧
            t.leader ∉ (last r.1 r.2).aliveIds twoFirst.brokers := by
    decide +kernel
  obtain ⟨hnew, htr⟩ := localRun_spec hlocal
  obtain ⟨hbrokers, hstates, c, hcheck, s, hs, t, ht, hisr, halive, hleader⟩ :=
    hdead (b, tr) hlocal
  obtain ⟨-, hall⟩ := h b tr hnew (run_of_trace htr) twoFirst c hbrokers hstates hcheck
  obtain ⟨t', ht', hlive, -⟩ := hall ("a", 0) s hs
  obtain rfl := Option.some_inj.1 (ht.symm.trans ht')
  exact hleader (hlive ⟨3, hisr, halive⟩)

end Gaffa
