import Gaffa.Broker.Subscriptions

/-!
# Two rebalances in a row

`broker/src/coordinator.rs`.  `rebalance` numbers the partitions in the order in which a new
`HashSet` iterates the topics, so the same members with the same topics and the same partition
counts need not be given the same partitions again.

* `mem_assigned_iff`: where the order of the topics does not matter, a member's partitions are those
  with its number modulo the number of members.
* `stable_iff`: it does not matter exactly if, next to a topic with partitions, every other topic has
  a multiple of as many partitions as the group has members.
-/

set_option autoImplicit false

namespace Gaffa

open Transition RoundRobin ConsumerGroup

/-- The same members, with the same topics. -/
def SameSubscriptions (g g' : ConsumerGroup) : Prop :=
  ∀ id, (g'.members.get id).map GroupMember.topics = (g.members.get id).map GroupMember.topics

/-- The second of two rebalances gives every member what the first gave it, whatever the orders of
the topics; the members are iterated in one order, as the map of members stays as it is. -/
def Stable (overflowChecks : Bool) (counts : Table String Nat) (g : ConsumerGroup) : Prop :=
  ∀ order order' g', g.Iterates order →
    SameSubscriptions (g.rebalance overflowChecks counts order).2 g' →
    g'.generation = (g.rebalance overflowChecks counts order).2.generation →
    g'.Iterates order' → order'.members = order.members →
    ∀ id m m', (g.rebalance overflowChecks counts order).2.members.get id = some m →
      (g'.rebalance overflowChecks counts order').2.members.get id = some m' →
      ∀ a, a ∈ m'.assignments ↔ a ∈ m.assignments

/-- Beside a topic with partitions, every other topic of the group has a multiple of as many
partitions as the group has members. -/
def Aligned (counts : Table String Nat) (g : ConsumerGroup) : Prop :=
  ∀ topic ∈ g.allTopics, 0 < (counts.get topic).getD 0 → ∀ other ∈ g.allTopics, other ≠ topic →
    g.members.keys.card ∣ (counts.get other).getD 0

instance decidableAligned (counts : Table String Nat) (g : ConsumerGroup) :
    Decidable (Aligned counts g) :=
  inferInstanceAs (Decidable (∀ topic ∈ g.allTopics, 0 < (counts.get topic).getD 0 →
    ∀ other ∈ g.allTopics, other ≠ topic → g.members.keys.card ∣ (counts.get other).getD 0))

/-! ## Where a partition stands in the list -/

section Position

variable {counts : Table String Nat} {topics before rest : List String} {topic : String}

theorem allPartitions_append (counts : Table String Nat) (topics rest : List String) :
    allPartitions counts (topics ++ rest) =
      allPartitions counts topics ++ allPartitions counts rest :=
  List.flatMap_append ..

theorem length_allPartitions_cons (counts : Table String Nat) (topic : String)
    (rest : List String) : (allPartitions counts (topic :: rest)).length =
      (counts.get topic).getD 0 + (allPartitions counts rest).length := by
  cases hcount : counts.get topic <;> simp [allPartitions, hcount]

/-- A partition stands after those of the topics before its own. -/
theorem getElem?_allPartitions {partition : Nat} (h : partition < (counts.get topic).getD 0) :
    (allPartitions counts (before ++ topic :: rest))[
        (allPartitions counts before).length + partition]? = some ⟨topic, partition⟩ := by
  cases hcount : counts.get topic with
  | none => simp [hcount] at h
  | some count =>
    rw [hcount, Option.getD_some] at h
    rw [allPartitions_append, List.getElem?_append_right (by omega), Nat.add_sub_cancel_left,
      allPartitions, List.flatMap_cons, hcount, Option.elim_some,
      List.getElem?_append_left (by simpa using h)]
    simp [h]

/-- The topics before one another fill whole rounds. -/
theorem dvd_length_allPartitions {n : Nat}
    (h : ∀ other ∈ topics, n ∣ (counts.get other).getD 0) :
    n ∣ (allPartitions counts topics).length := by
  induction topics with
  | nil => exact Nat.dvd_zero n
  | cons topic rest ih =>
    rw [length_allPartitions_cons]
    apply Nat.dvd_add (h topic (List.mem_cons_self ..))
    apply ih
    intro other hother
    exact h other (List.mem_cons_of_mem _ hother)

/-- A partition of a list of topics is found at one position only. -/
theorem position_unique (hnodup : topics.Nodup) {a : PartitionAssignment} {i j : Nat}
    (hi : (allPartitions counts topics)[i]? = some a)
    (hj : (allPartitions counts topics)[j]? = some a) : i = j := by
  have hlt : i < (allPartitions counts topics).length := (List.getElem?_eq_some_iff.1 hi).1
  exact (List.getElem?_inj hlt (nodup_allPartitions counts hnodup)).1 (hi.trans hj.symm)

end Position

/-! ## One rebalance -/

section Rebalance

variable {overflowChecks : Bool} {counts : Table String Nat} {order : IterationOrder}
  {g g' : ConsumerGroup}

theorem length_members (horder : g.Iterates order) :
    order.members.length = g.members.keys.card := by
  obtain ⟨hnodup, hkeys⟩ := Table.order_iff.1 horder.members
  rw [← hkeys, List.toFinset_card_of_nodup hnodup]

/-- A member has the partitions whose position is its own number, up to whole rounds. -/
theorem mem_assignments_iff (horder : g.Iterates order)
    (hok : (g.rebalance overflowChecks counts order).1 = .ok ()) {id : String} {m : GroupMember}
    (hget : (g.rebalance overflowChecks counts order).2.members.get id = some m)
    (a : PartitionAssignment) :
    a ∈ m.assignments ↔ ∃ j, (allPartitions counts order.topics)[j]? = some a ∧
      j % g.members.keys.card = order.members.idxOf id := by
  obtain ⟨-, -, -, -, -, hshare⟩ := get_rebalance_some horder hok hget
  rw [hshare, mem_share_iff, length_members horder]
  simp only [Nat.zero_add]

/-- **If the topics are aligned** a member has the partitions whose number in their topic is its
own, up to whole rounds, whatever the order of the topics. -/
theorem mem_assigned_iff (haligned : Aligned counts g) (horder : g.Iterates order)
    (hok : (g.rebalance overflowChecks counts order).1 = .ok ()) {id : String} {m : GroupMember}
    (hget : (g.rebalance overflowChecks counts order).2.members.get id = some m)
    (a : PartitionAssignment) :
    a ∈ m.assignments ↔ a.topic ∈ g.allTopics ∧ a.partition < (counts.get a.topic).getD 0 ∧
      a.partition % g.members.keys.card = order.members.idxOf id := by
  have hposition : a.topic ∈ g.allTopics → a.partition < (counts.get a.topic).getD 0 →
      ∃ j, (allPartitions counts order.topics)[j]? = some a ∧
        j % g.members.keys.card = a.partition % g.members.keys.card := by
    intro htopic hlt
    have hmem : a.topic ∈ order.topics := List.mem_toFinset.1 (horder.topics ▸ htopic)
    obtain ⟨before, rest, hsplit⟩ := List.append_of_mem hmem
    have hnodup := horder.topics_nodup
    rw [hsplit] at hnodup
    have hdvd : g.members.keys.card ∣ (allPartitions counts before).length := by
      apply dvd_length_allPartitions
      intro other hother
      have hne : other ≠ a.topic := by
        rintro rfl
        exact List.disjoint_of_nodup_append hnodup hother (List.mem_cons_self ..)
      apply haligned a.topic htopic (by omega) other ?_ hne
      rw [← horder.topics, List.mem_toFinset, hsplit]
      exact List.mem_append_left _ hother
    refine ⟨(allPartitions counts before).length + a.partition, ?_, ?_⟩
    · rw [hsplit]
      exact getElem?_allPartitions hlt
    · rw [Nat.add_mod, Nat.mod_eq_zero_of_dvd hdvd, Nat.zero_add, Nat.mod_mod]
  rw [mem_assignments_iff horder hok hget]
  constructor
  · rintro ⟨j, hj, hmod⟩
    obtain ⟨htopic, count, hcount, hlt⟩ := mem_allPartitions.1 (List.mem_of_getElem? hj)
    have htopic' : a.topic ∈ g.allTopics := horder.topics ▸ List.mem_toFinset.2 htopic
    have hlt' : a.partition < (counts.get a.topic).getD 0 := by rwa [hcount, Option.getD_some]
    obtain ⟨k, hk, hkmod⟩ := hposition htopic' hlt'
    obtain rfl := position_unique horder.topics_nodup hj hk
    exact ⟨htopic', hlt', hkmod.symm.trans hmod⟩
  · rintro ⟨htopic, hlt, hmod⟩
    obtain ⟨j, hj, hjmod⟩ := hposition htopic hlt
    exact ⟨j, hj, hjmod.trans hmod⟩

/-! ## The same members again -/

theorem SameSubscriptions.mem_keys_iff (h : SameSubscriptions g g') {id : String} :
    id ∈ g'.members.keys ↔ id ∈ g.members.keys := by
  have hid := h id
  rw [← not_iff_not, Table.not_mem_keys_iff, Table.not_mem_keys_iff]
  rw [← Option.map_eq_none_iff (f := GroupMember.topics), hid, Option.map_eq_none_iff]

theorem SameSubscriptions.keys (h : SameSubscriptions g g') :
    g'.members.keys = g.members.keys := by
  ext id
  exact h.mem_keys_iff

theorem SameSubscriptions.symm (h : SameSubscriptions g g') : SameSubscriptions g' g := by
  intro id
  exact (h id).symm

theorem SameSubscriptions.subscribed (h : SameSubscriptions g g') {topic : String}
    (hsub : Subscribed g topic) : Subscribed g' topic := by
  obtain ⟨id, m, hget, htopic⟩ := hsub
  have hid := h id
  rw [hget, Option.map_some] at hid
  obtain ⟨m', hget', htopics⟩ := Option.map_eq_some_iff.1 hid
  exact ⟨id, m', hget', htopics ▸ htopic⟩

theorem SameSubscriptions.allTopics (h : SameSubscriptions g g') :
    g'.allTopics = g.allTopics := by
  ext topic
  rw [mem_allTopics, mem_allTopics]
  exact ⟨h.symm.subscribed, h.subscribed⟩

theorem SameSubscriptions.iterates (h : SameSubscriptions g g') :
    g'.Iterates order ↔ g.Iterates order := by
  rw [iterates_iff, iterates_iff, h.allTopics, Table.order_iff, Table.order_iff, h.keys]

theorem SameSubscriptions.aligned (h : SameSubscriptions g g') (haligned : Aligned counts g) :
    Aligned counts g' := by
  unfold Aligned
  rw [h.allTopics, h.keys]
  exact haligned

theorem sameSubscriptions_rebalance (horder : g.Iterates order)
    (hok : (g.rebalance overflowChecks counts order).1 = .ok ()) :
    SameSubscriptions g (g.rebalance overflowChecks counts order).2 := by
  intro id
  rw [rebalance_spec horder hok, Option.map_map]
  rfl

variable {n n' : Nat}

/-- **Aligned topics** are dealt out the same way again. -/
theorem stable_of_aligned (hfirst : addWith overflowChecks 32 g.generation 1 = .ok n)
    (hsecond : addWith overflowChecks 32 n 1 = .ok n') (haligned : Aligned counts g) :
    Stable overflowChecks counts g := by
  intro order order' g' horder hsame hgen horder' hmembers id m m' hget hget' a
  have hok : (g.rebalance overflowChecks counts order).1 = .ok () :=
    rebalance_ok_iff.2 ⟨n, hfirst⟩
  rw [generation_rebalance hfirst] at hgen
  have hok' : (g'.rebalance overflowChecks counts order').1 = .ok () :=
    rebalance_ok_iff.2 ⟨n', hgen ▸ hsecond⟩
  have hsame' : SameSubscriptions g g' := by
    intro id
    exact (hsame id).trans (sameSubscriptions_rebalance horder hok id)
  rw [mem_assigned_iff haligned horder hok hget,
    mem_assigned_iff (hsame'.aligned haligned) horder' hok' hget', hsame'.allTopics, hsame'.keys,
    hmembers]

/-- **Topics that are not aligned** can be dealt out in two ways. -/
theorem aligned_of_stable (hfirst : addWith overflowChecks 32 g.generation 1 = .ok n)
    (hsecond : addWith overflowChecks 32 n 1 = .ok n') (h : Stable overflowChecks counts g) :
    Aligned counts g := by
  intro topic htopic hcount other hother hne
  obtain ⟨id, m, hm, -⟩ := mem_allTopics.1 htopic
  obtain ⟨members, hnodup, hkeys⟩ := Table.exists_order_from (List.nodup_singleton id)
    (fun i hi => List.mem_singleton.1 hi ▸ Table.mem_keys_iff.2 ⟨m, hm⟩)
  have hmembers : g.members.Order (id :: members) := Table.order_iff.2 ⟨hnodup, hkeys⟩
  -- the first run lists `topic` first, the second one `other` and then `topic`
  obtain ⟨topics, hnodup₁, htopics₁⟩ := Table.exists_order_from (List.nodup_singleton topic)
    (fun t ht => List.mem_singleton.1 ht ▸ htopic)
  obtain ⟨topics', hnodup₂, htopics₂⟩ : ∃ rest, ([other, topic] ++ rest).Nodup ∧
      ([other, topic] ++ rest).toFinset = g.allTopics := by
    apply Table.exists_order_from (by simpa using hne)
    intro t ht
    rcases List.mem_cons.1 ht with rfl | ht
    · exact hother
    · exact List.mem_singleton.1 ht ▸ htopic
  have horder : g.Iterates ⟨topic :: topics, id :: members⟩ := ⟨hnodup₁, htopics₁, hmembers⟩
  have horder' : g.Iterates ⟨other :: topic :: topics', id :: members⟩ :=
    ⟨hnodup₂, htopics₂, hmembers⟩
  have hok : (g.rebalance overflowChecks counts ⟨topic :: topics, id :: members⟩).1 = .ok () :=
    rebalance_ok_iff.2 ⟨n, hfirst⟩
  obtain ⟨m₁, hget₁, -, hmem₁⟩ := first_assigned horder hok hcount hm
  have hsame := sameSubscriptions_rebalance horder hok
  have hok' : ((g.rebalance overflowChecks counts ⟨topic :: topics, id :: members⟩).2.rebalance
      overflowChecks counts ⟨other :: topic :: topics', id :: members⟩).1 = .ok () :=
    rebalance_ok_iff.2 ⟨n', generation_rebalance hfirst ▸ hsecond⟩
  have horder₂ := hsame.iterates.2 horder'
  have hget₂ := rebalance_spec horder₂ hok' id
  rw [hget₁, Option.map_some] at hget₂
  have hmem₂ := (h _ _ _ horder (fun _ => rfl) rfl horder₂ rfl id _ _ hget₁ hget₂
    ⟨topic, 0⟩).2 hmem₁
  obtain ⟨j, hj, hmod⟩ := (mem_assignments_iff horder₂ hok' hget₂ _).1 hmem₂
  have hposition : (allPartitions counts ([other] ++ topic :: topics'))[
      (allPartitions counts [other]).length + 0]? = some ⟨topic, 0⟩ :=
    getElem?_allPartitions hcount
  obtain rfl := position_unique hnodup₂ hj hposition
  rw [length_allPartitions_cons, List.idxOf_cons_self, hsame.keys] at hmod
  exact Nat.dvd_of_mod_eq_zero hmod

/-- **A rebalance that follows another** gives every member the same partitions, whatever the
orders of the topics, exactly if the topics are aligned. -/
theorem stable_iff (hfirst : addWith overflowChecks 32 g.generation 1 = .ok n)
    (hsecond : addWith overflowChecks 32 n 1 = .ok n') :
    Stable overflowChecks counts g ↔ Aligned counts g :=
  ⟨aligned_of_stable hfirst hsecond, stable_of_aligned hfirst hsecond⟩

end Rebalance

/-- Two members that subscribe to two topics. -/
def pairedGroup : ConsumerGroup :=
  ((ConsumerGroup.new "g").addMember ⟨"a", ["orders", "events"], 0, []⟩).addMember
    ⟨"b", ["orders", "events"], 5, []⟩

theorem stable_iff_two :
    Stable true ((Table.empty.insert "orders" 2).insert "events" 4) pairedGroup := by
  have hfirst : addWith true 32 pairedGroup.generation 1 = .ok 1 := rfl
  have hsecond : addWith true 32 1 1 = .ok 2 := rfl
  exact (stable_iff hfirst hsecond).2 (by decide +kernel)

/-- Both join, and one of them joins again; the new set lists the topics the other way round. -/
def rejoinRun : List GroupCall :=
  [.updateTopicPartitions "orders" 1, .updateTopicPartitions "events" 1,
    .joinGroup 0 "1f0c" ⟨["orders", "events"], ["a"]⟩ "g" (some "a") ["orders", "events"],
    .joinGroup 5 "77aa" ⟨["orders", "events"], ["a", "b"]⟩ "g" (some "b") ["orders", "events"],
    .joinGroup 9 "c3d4" ⟨["events", "orders"], ["a", "b"]⟩ "g" (some "b") ["orders", "events"]]

/-- What a member of the group `g` is assigned. -/
def assignedTo (id : String) (s : GroupState) : Option (List PartitionAssignment) :=
  (s.coordinator.groups.get "g").bind fun g => (g.members.get id).map GroupMember.assignments

theorem rejoin_moves_partitions :
    ∃ tr tr', trace (groupNext true) (GroupState.new 30) (rejoinRun.take 4) = some tr ∧
      trace (groupNext true) (GroupState.new 30) rejoinRun = some tr' ∧
      assignedTo "a" (last (GroupState.new 30) tr) = some [⟨"orders", 0⟩] ∧
      assignedTo "a" (last (GroupState.new 30) tr') = some [⟨"events", 0⟩] ∧
      ∃ g, (last (GroupState.new 30) tr).coordinator.groups.get "g" = some g ∧
        ¬Stable true (last (GroupState.new 30) tr).coordinator.topicPartitions g := by
  obtain ⟨tr, htr, hbefore⟩ := Option.map_eq_some_iff.1
    (show (trace (groupNext true) (GroupState.new 30) (rejoinRun.take 4)).map (fun tr =>
        decide (assignedTo "a" (last (GroupState.new 30) tr) = some [⟨"orders", 0⟩]) &&
          ((last (GroupState.new 30) tr).coordinator.groups.get "g").any fun g =>
            g.generation = 2 &&
              !decide (Aligned (last (GroupState.new 30) tr).coordinator.topicPartitions g)) =
      some true by decide +kernel)
  obtain ⟨tr', htr', hafter⟩ := Option.map_eq_some_iff.1
    (show (trace (groupNext true) (GroupState.new 30) rejoinRun).map (fun tr =>
        assignedTo "a" (last (GroupState.new 30) tr)) = some (some [⟨"events", 0⟩]) by
      decide +kernel)
  rw [Bool.and_eq_true, Option.any_eq_true] at hbefore
  obtain ⟨hassigned, g, hg, hskew⟩ := hbefore
  rw [Bool.and_eq_true, decide_eq_true_eq, Bool.not_eq_true', decide_eq_false_iff_not] at hskew
  refine ⟨tr, tr', htr, htr', of_decide_eq_true hassigned, hafter, g, hg, ?_⟩
  intro hstable
  have hfirst : addWith true 32 g.generation 1 = .ok 3 := by rw [hskew.1]; rfl
  have hsecond : addWith true 32 3 1 = .ok 4 := rfl
  exact hskew.2 (aligned_of_stable hfirst hsecond hstable)

end Gaffa
