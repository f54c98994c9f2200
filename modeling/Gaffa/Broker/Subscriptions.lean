import Gaffa.Broker.Ownership

/-!
# Subscriptions of group members

`broker/src/coordinator.rs`.  A rebalance pools the topics of all members and deals the partitions
out by position, so what a member gets does not depend on its own topics.

* `served_rebalance`: if every member subscribes to every topic that has partitions, members get
  only partitions of their own topics.
* `alike_of_served`: otherwise some order of the topics and the members gives a member a partition
  of a topic it did not subscribe to.
* `own_topics_iff`: the same for every call of a run.
-/

set_option autoImplicit false

namespace Gaffa

open Transition RoundRobin ConsumerGroup

/-- Members have partitions of their own topics only, and every known partition of a subscribed
topic is assigned. -/
structure Served (counts : Table String Nat) (g : ConsumerGroup) : Prop where
  own : ∀ id m, g.members.get id = some m → ∀ a ∈ m.assignments, a.topic ∈ m.topics
  assigned : ∀ a, Subscribed g a.topic → Known counts a →
    ∃ id m, g.members.get id = some m ∧ a ∈ m.assignments

/-- Every member subscribes to every topic of the group that is known to have partitions. -/
def Alike (counts : Table String Nat) (g : ConsumerGroup) : Prop :=
  ∀ topic ∈ g.allTopics, 0 < (counts.get topic).getD 0 →
    ∀ id ∈ g.members.keys, ∀ m ∈ g.members.get id, topic ∈ m.topics

instance decidableAlike (counts : Table String Nat) (g : ConsumerGroup) :
    Decidable (Alike counts g) :=
  inferInstanceAs (Decidable (∀ topic ∈ g.allTopics, 0 < (counts.get topic).getD 0 →
    ∀ id ∈ g.members.keys, ∀ m ∈ g.members.get id, topic ∈ m.topics))

section Rebalance

variable {overflowChecks : Bool} {counts : Table String Nat} {order : IterationOrder}
  {g : ConsumerGroup}

theorem Served.of_sameMembers {g' : ConsumerGroup} (h : Served counts g)
    (howned : ExactlyOnce counts g') (hsame : SameMembers g g') : Served counts g' := by
  constructor
  · intro id m' hget' a ha
    obtain ⟨m, hget, -, htopics, hassign⟩ := hsame.get hget'
    rw [htopics]
    exact h.own id m hget a (hassign ▸ ha)
  · intro a hsub hknown
    exact (howned.cover a).2 ⟨hsub, hknown⟩

/-- **Members that subscribe alike** get partitions of their own topics only. -/
theorem own_rebalance (halike : Alike counts g) (horder : g.Iterates order)
    (hok : (g.rebalance overflowChecks counts order).1 = .ok ()) {id : String} {m' : GroupMember}
    (hget' : (g.rebalance overflowChecks counts order).2.members.get id = some m')
    {a : PartitionAssignment} (ha : a ∈ m'.assignments) : a.topic ∈ m'.topics := by
  obtain ⟨m, hget, -, htopics, -, hshare⟩ := get_rebalance_some horder hok hget'
  rw [hshare] at ha
  obtain ⟨htopic, count, hcount, hlt⟩ := mem_allPartitions.1 ((share_sublist ..).mem ha)
  rw [htopics]
  apply halike a.topic ?_ ?_ id (Table.mem_keys_iff.2 ⟨m, hget⟩) m hget
  · rw [← horder.topics]
    exact List.mem_toFinset.2 htopic
  · rw [hcount, Option.getD_some]
    omega

/-- Some order of a group has a given topic and a given member first. -/
theorem exists_iterates {topic id : String} (htopic : topic ∈ g.allTopics)
    (hid : id ∈ g.members.keys) :
    ∃ topics members, g.Iterates ⟨topic :: topics, id :: members⟩ := by
  obtain ⟨topics, hnodup, htopics⟩ := Table.exists_order_from (List.nodup_singleton topic)
    (fun t ht => List.mem_singleton.1 ht ▸ htopic)
  obtain ⟨members, hmembers, hkeys⟩ := Table.exists_order_from (List.nodup_singleton id)
    (fun i hi => List.mem_singleton.1 hi ▸ hid)
  exact ⟨topics, members, hnodup, htopics, Table.order_iff.2 ⟨hmembers, hkeys⟩⟩

/-- The first partition of the first topic goes to the first member. -/
theorem first_assigned {topic id : String} {topics members : List String} {m : GroupMember}
    (horder : g.Iterates ⟨topic :: topics, id :: members⟩)
    (hok : (g.rebalance overflowChecks counts ⟨topic :: topics, id :: members⟩).1 = .ok ())
    (hcount : 0 < (counts.get topic).getD 0) (hget : g.members.get id = some m) :
    ∃ m', (g.rebalance overflowChecks counts ⟨topic :: topics, id :: members⟩).2.members.get id =
      some m' ∧ m'.topics = m.topics ∧ ⟨topic, 0⟩ ∈ m'.assignments := by
  rw [rebalance_spec horder hok, hget]
  refine ⟨_, rfl, rfl, ?_⟩
  cases hcounts : counts.get topic with
  | none => simp [hcounts] at hcount
  | some count =>
    rw [hcounts, Option.getD_some] at hcount
    obtain ⟨rest, hfirst⟩ : ∃ rest, allPartitions counts (topic :: topics) =
        ⟨topic, 0⟩ :: rest := by
      cases count with
      | zero => omega
      | succ n =>
        simp only [allPartitions, List.flatMap_cons, hcounts, Option.elim_some,
          List.range_succ_eq_map, List.map_cons, List.cons_append]
        exact ⟨_, rfl⟩
    simp only [hfirst, List.idxOf_cons_self, share, Nat.zero_mod, if_true]
    exact List.mem_cons_self ..

/-- **Members that do not subscribe alike** are not served in every order. -/
theorem alike_of_served
    (hok : ∀ order, g.Iterates order → (g.rebalance overflowChecks counts order).1 = .ok ())
    (h : ∀ order, g.Iterates order →
      Served counts (g.rebalance overflowChecks counts order).2) : Alike counts g := by
  intro topic htopic hcount id hid m hget
  obtain ⟨topics, members, horder⟩ := exists_iterates htopic hid
  obtain ⟨m', hget', htopics, hfirst⟩ := first_assigned horder (hok _ horder) hcount hget
  rw [← htopics]
  exact (h _ horder).own id m' hget' _ hfirst

end Rebalance

/-! ## Calls, whatever the orders -/

namespace GroupCall

/-- The same call, if the maps and sets that rebalances iterate are in other orders. -/
def withOrders (orders : String → IterationOrder) : GroupCall → GroupCall
  | joinGroup now uuid _ groupId memberId topics =>
    joinGroup now uuid (orders groupId) groupId memberId topics
  | leaveGroup _ groupId memberId => leaveGroup (orders groupId) groupId memberId
  | checkHeartbeats now order _ => checkHeartbeats now order orders
  | call => call

/-- The groups that the call may rebalance. -/
def groupIds (c : GroupCoordinator) : GroupCall → Finset String
  | joinGroup _ _ _ groupId _ _ => {groupId}
  | leaveGroup _ groupId _ => {groupId}
  | checkHeartbeats .. => c.groups.keys
  | _ => ∅

/-- Each group that the call rebalances has members that subscribe alike. -/
def Alike (c : GroupCoordinator) (call : GroupCall) : Prop :=
  ∀ id ∈ call.groupIds c, ∀ g ∈ call.regrouped c id, Gaffa.Alike c.topicPartitions g

instance decidableAlike (c : GroupCoordinator) (call : GroupCall) : Decidable (call.Alike c) :=
  inferInstanceAs (Decidable (∀ id ∈ call.groupIds c, ∀ g ∈ call.regrouped c id,
    Gaffa.Alike c.topicPartitions g))

variable {c : GroupCoordinator} {call : GroupCall} {id : String} {g : ConsumerGroup}

theorem mem_groupIds (h : call.regrouped c id = some g) : id ∈ call.groupIds c := by
  cases call with
  | updateTopicPartitions topic partitionCount => cases h
  | joinGroup now uuid order groupId memberId topics =>
    exact Finset.mem_singleton.2 (Option.ite_none_right_eq_some.1 h).1
  | leaveGroup order groupId memberId =>
    exact Finset.mem_singleton.2 (Option.ite_none_right_eq_some.1 h).1
  | heartbeat now groupId memberId => cases h
  | checkHeartbeats now order orders =>
    obtain ⟨g₀, hg₀, -⟩ := Option.bind_eq_some_iff.1 h
    exact Table.mem_keys_iff.2 ⟨g₀, hg₀⟩

@[simp] theorem regrouped_withOrders (c : GroupCoordinator) (orders : String → IterationOrder)
    (call : GroupCall) (id : String) :
    (call.withOrders orders).regrouped c id = call.regrouped c id := by
  cases call <;> rfl

theorem orderOf_withOrders (orders : String → IterationOrder)
    (h : call.regrouped c id = some g) : (call.withOrders orders).orderOf id = orders id := by
  cases call with
  | updateTopicPartitions topic partitionCount => cases h
  | joinGroup now uuid order groupId memberId topics =>
    obtain ⟨rfl, -⟩ := Option.ite_none_right_eq_some.1 h
    rfl
  | leaveGroup order groupId memberId =>
    obtain ⟨rfl, -⟩ := Option.ite_none_right_eq_some.1 h
    rfl
  | heartbeat now groupId memberId => cases h
  | checkHeartbeats now order orders => rfl

/-- The order of one group may be replaced by any other. -/
theorem iterates_update (hiter : call.Iterates c) (hg : call.regrouped c id = some g)
    {order : IterationOrder} (horder : g.Iterates order) :
    (call.withOrders (Function.update (fun id => call.orderOf id) id order)).Iterates c := by
  cases call with
  | updateTopicPartitions topic partitionCount => exact trivial
  | joinGroup now uuid order' groupId memberId topics =>
    obtain ⟨rfl, hg⟩ := Option.ite_none_right_eq_some.1 hg
    cases hg
    simpa only [withOrders, Iterates, Function.update_self] using horder
  | leaveGroup order' groupId memberId =>
    obtain ⟨rfl, hgroup⟩ := Option.ite_none_right_eq_some.1 hg
    obtain ⟨g₀, hg₀, hleft⟩ := Option.bind_eq_some_iff.1 hgroup
    obtain ⟨-, hleft⟩ := Option.ite_none_right_eq_some.1 hleft
    cases hleft
    intro g₁ hg₁
    obtain rfl : g₀ = g₁ := Option.some.inj (hg₀.symm.trans hg₁)
    simpa only [Function.update_self] using horder
  | heartbeat now groupId memberId => exact trivial
  | checkHeartbeats now order' orders =>
    obtain ⟨g₀, hg₀, hleft⟩ := Option.bind_eq_some_iff.1 hg
    obtain ⟨-, hleft⟩ := Option.ite_none_right_eq_some.1 hleft
    cases hleft
    refine ⟨hiter.1, ?_⟩
    intro id' hid' g₁ hg₁
    by_cases heq : id' = id
    · subst heq
      obtain rfl : g₀ = g₁ := Option.some.inj (hg₀.symm.trans hg₁)
      simpa only [Function.update_self] using horder
    · rw [Function.update_of_ne heq]
      exact hiter.2 id' hid' g₁ hg₁

/-- Whether a call returns does not depend on the orders. -/
theorem returns_withOrders {overflowChecks : Bool} (orders : String → IterationOrder)
    (hiter : call.Iterates c)
    (h : panicked (call.perform overflowChecks c).1 = false) :
    panicked ((call.withOrders orders).perform overflowChecks c).1 = false := by
  have hreturns : ∀ {g : ConsumerGroup} {order order' : IterationOrder},
      (g.rebalance overflowChecks c.topicPartitions order).1 = .ok () →
        (g.rebalance overflowChecks c.topicPartitions order').1 = .ok () := by
    intro g order order' hok
    exact rebalance_ok_iff.2 (rebalance_ok_iff.1 hok)
  cases call with
  | updateTopicPartitions topic partitionCount => rfl
  | joinGroup now uuid order groupId memberId topics =>
    simp only [withOrders, perform, GroupCoordinator.joinGroup, panicked_map] at h ⊢
    rw [hreturns (rebalance_ok_of_not_panicked h)]
    rfl
  | leaveGroup order groupId memberId =>
    simp only [withOrders, perform, GroupCoordinator.leaveGroup] at h ⊢
    split
    · rfl
    · rename_i g hg
      simp only [hg] at h
      split
      · rfl
      · rename_i g' hg'
        simp only [hg'] at h
        split
        · rfl
        · rename_i hsome
          rw [if_neg hsome] at h
          rw [hreturns (rebalance_ok_of_not_panicked h)]
          rfl
  | heartbeat now groupId memberId => exact h
  | checkHeartbeats now order orders' =>
    have hok := GroupCoordinator.checkHeartbeats_ok_of_not_panicked hiter.1 h
    have hok' : (c.checkHeartbeats overflowChecks now order orders).1 = .ok () := by
      apply GroupCoordinator.checkHeartbeats_ok hiter.1
      intro id g hg hdead hsome
      exact hreturns (GroupCoordinator.rebalance_of_checkHeartbeats_ok hiter.1 hok hg hdead hsome)
    simp only [withOrders, perform, hok']
    rfl

end GroupCall

/-! ## Runs -/

/-- Every group is served, as far as its latest rebalance knew the partitions. -/
def EveryGroupServed (s : GroupState) : Prop :=
  ∀ id g, s.coordinator.groups.get id = some g → Served (s.counts id) g

section Step

variable {overflowChecks : Bool} {s t : GroupState} {call : GroupCall}

/-- A step that is possible is possible in any orders. -/
theorem exists_groupNext (hstep : groupNext overflowChecks s call = some t)
    {orders : String → IterationOrder}
    (hiter : (call.withOrders orders).Iterates s.coordinator) :
    ∃ t', groupNext overflowChecks s (call.withOrders orders) = some t' := by
  obtain ⟨hiter₀, hret, -⟩ := groupNext_some hstep
  have hret' := GroupCall.returns_withOrders orders hiter₀ hret
  exact ⟨_, if_pos ⟨hiter, hret'⟩⟩

/-- A group that a step rebalances knows the partition counts of that moment. -/
theorem counts_regrouped {id : String} {g : ConsumerGroup}
    (hstep : groupNext overflowChecks s call = some t)
    (hg : call.regrouped s.coordinator id = some g) :
    t.counts id = s.coordinator.topicPartitions := by
  rw [groupNext_counts hstep, rebalances_eq_isSome, hg]
  rfl

/-- **One step**: if the groups it rebalances subscribe alike, every group stays served. -/
theorem EveryGroupServed.next (h : EveryGroupServed s) (howned : EveryGroupOwned s)
    (hstep : groupNext overflowChecks s call = some t) (halike : call.Alike s.coordinator) :
    EveryGroupServed t := by
  intro id g' hget
  have howned' := howned.next hstep id g' hget
  cases hg : call.regrouped s.coordinator id with
  | none =>
    obtain ⟨g, hold, hsame⟩ := groupNext_kept hstep hg hget
    have hcounts : t.counts id = s.counts id := by
      rw [groupNext_counts hstep, rebalances_eq_isSome, hg]
      rfl
    rw [hcounts] at howned' ⊢
    exact (h id g hold).of_sameMembers howned' hsame
  | some g =>
    obtain ⟨hok, hnew⟩ := groupNext_regrouped hstep hg
    obtain ⟨hiter, -⟩ := iterates_regrouped (groupNext_some hstep).1 hg
    rw [hnew, Option.some.injEq] at hget
    subst hget
    constructor
    · intro id' m hm a ha
      exact own_rebalance (halike id (GroupCall.mem_groupIds hg) g hg) hiter hok hm ha
    · intro a hsub hknown
      exact (howned'.cover a).2 ⟨hsub, hknown⟩

/-- If a step leaves every group served in all orders, the groups it rebalances subscribe alike. -/
theorem alike_of_next (hstep : groupNext overflowChecks s call = some t)
    (h : ∀ orders t', groupNext overflowChecks s (call.withOrders orders) = some t' →
      EveryGroupServed t') : call.Alike s.coordinator := by
  intro id _ g hg
  have hiter := (groupNext_some hstep).1
  have hok : ∀ order, g.Iterates order →
      (g.rebalance overflowChecks s.coordinator.topicPartitions order).1 = .ok () := by
    intro order _
    exact rebalance_ok_iff.2 (rebalance_ok_iff.1 (groupNext_regrouped hstep hg).1)
  apply alike_of_served hok
  intro order horder
  obtain ⟨t', hstep'⟩ := exists_groupNext hstep (GroupCall.iterates_update hiter hg horder)
  have hg' := (GroupCall.regrouped_withOrders s.coordinator
    (Function.update (fun id => call.orderOf id) id order) call id).trans hg
  obtain ⟨-, hget⟩ := groupNext_regrouped hstep' hg'
  have hserved := h _ t' hstep' id _ hget
  rw [counts_regrouped hstep' hg', GroupCall.orderOf_withOrders _ hg, Function.update_self]
    at hserved
  exact hserved

end Step

theorem EveryGroupServed.new (heartbeatTimeout : Nat) :
    EveryGroupOwned (GroupState.new heartbeatTimeout) ∧
      EveryGroupServed (GroupState.new heartbeatTimeout) := by
  refine ⟨everyGroupOwned_new heartbeatTimeout, ?_⟩
  intro id g hget
  cases hget

/-- **Members get partitions of their own topics**, whatever the orders in which calls iterate,
exactly if each call rebalances only groups whose members subscribe alike; in a run of such calls
every group is served in every state. -/
theorem own_topics_iff (overflowChecks : Bool) (heartbeatTimeout : Nat)
    {tr : List (GroupCall × GroupState)}
    (hrun : Run (Steps (groupNext overflowChecks)) (GroupState.new heartbeatTimeout) tr) :
    (EachStep (fun s call _ => ∀ orders t,
        groupNext overflowChecks s (call.withOrders orders) = some t → EveryGroupServed t)
      (GroupState.new heartbeatTimeout) tr ↔
    EachStep (fun s call _ => call.Alike s.coordinator) (GroupState.new heartbeatTimeout) tr) ∧
    (EachStep (fun s call _ => call.Alike s.coordinator) (GroupState.new heartbeatTimeout) tr →
      Throughout EveryGroupServed (GroupState.new heartbeatTimeout) tr) := by
  have hinv : ∀ (s : GroupState) (call : GroupCall) (t : GroupState),
      EveryGroupOwned s ∧ EveryGroupServed s → Steps (groupNext overflowChecks) s call t →
        call.Alike s.coordinator → EveryGroupOwned t ∧ EveryGroupServed t := by
    rintro s call t ⟨howned, hserved⟩ hstep halike
    exact ⟨howned.next hstep, hserved.next howned hstep halike⟩
  have hinit := EveryGroupServed.new heartbeatTimeout
  constructor
  · apply eachStep_iff hinv ?_ hinit hrun
    rintro s call t ⟨howned, hserved⟩ hstep
    constructor
    · exact alike_of_next hstep
    · intro halike orders t' hstep'
      apply hserved.next howned hstep'
      intro id hid g hg
      rw [GroupCall.regrouped_withOrders] at hg
      exact halike id (GroupCall.mem_groupIds hg) g hg
  · intro halike
    exact (throughout_of_invariant hinv hinit hrun halike).mono fun s h => h.2

/-- Two members of one group subscribe to different topics. -/
def mixedRun : List GroupCall :=
  [.updateTopicPartitions "orders" 1, .updateTopicPartitions "events" 1,
    .joinGroup 0 "1f0c" ⟨["orders"], ["a"]⟩ "g" (some "a") ["orders"],
    .joinGroup 5 "77aa" ⟨["orders", "events"], ["b", "a"]⟩ "g" (some "b") ["events"]]

/-- Each of them is given the topic of the other. -/
theorem foreign_topic_assigned :
    ∃ tr, Run (Steps (groupNext true)) (GroupState.new 30) tr ∧ tr.map Prod.fst = mixedRun ∧
      ¬Throughout EveryGroupServed (GroupState.new 30) tr := by
  obtain ⟨tr, htr, hforeign⟩ := Option.map_eq_some_iff.1
    (show (trace (groupNext true) (GroupState.new 30) mixedRun).map (fun tr =>
        ((last (GroupState.new 30) tr).coordinator.groups.get "g").any fun g =>
          (g.members.get "b").any fun m =>
            m.topics = ["events"] ∧ m.assignments = [⟨"orders", 0⟩]) = some true by decide +kernel)
  refine ⟨tr, run_of_trace htr, events_of_trace htr, ?_⟩
  intro hserved
  obtain ⟨g, hg, hg'⟩ := (Option.any_eq_true _ _).1 hforeign
  obtain ⟨m, hm, hm'⟩ := (Option.any_eq_true _ _).1 hg'
  obtain ⟨htopics, hassign⟩ := of_decide_eq_true hm'
  have hown := (hserved.at_last "g" g hg).own "b" m hm ⟨"orders", 0⟩
    (hassign ▸ List.mem_cons_self ..)
  rw [htopics] at hown
  revert hown
  decide

/-- Members that subscribe alike, but for a topic without partitions. -/
theorem own_topics_iff_small :
    ∃ tr, trace (groupNext true) (GroupState.new 30)
        [.updateTopicPartitions "orders" 3, .updateTopicPartitions "empty" 0,
          .joinGroup 0 "1f0c" ⟨["orders"], ["a"]⟩ "g" (some "a") ["orders"],
          .joinGroup 5 "77aa" ⟨["empty", "orders"], ["b", "a"]⟩ "g" (some "b")
            ["orders", "empty"]] = some tr ∧
      EachStep (fun s call _ => ∀ orders t,
        groupNext true s (call.withOrders orders) = some t → EveryGroupServed t)
        (GroupState.new 30) tr ∧ Throughout EveryGroupServed (GroupState.new 30) tr := by
  obtain ⟨tr, htr, halike⟩ := Option.map_eq_some_iff.1
    (show (trace (groupNext true) (GroupState.new 30)
        [.updateTopicPartitions "orders" 3, .updateTopicPartitions "empty" 0,
          .joinGroup 0 "1f0c" ⟨["orders"], ["a"]⟩ "g" (some "a") ["orders"],
          .joinGroup 5 "77aa" ⟨["empty", "orders"], ["b", "a"]⟩ "g" (some "b")
            ["orders", "empty"]]).map (fun tr =>
        decide (EachStep (fun s call _ => call.Alike s.coordinator) (GroupState.new 30) tr)) =
      some true by decide +kernel)
  obtain ⟨hiff, hthroughout⟩ := own_topics_iff true 30 (run_of_trace htr)
  have hsteps := of_decide_eq_true halike
  exact ⟨tr, htr, hiff.2 hsteps, hthroughout hsteps⟩

end Gaffa
