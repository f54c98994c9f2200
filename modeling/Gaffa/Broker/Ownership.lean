import Gaffa.Broker.Coordinator
import Gaffa.Lib.Transition

/-!
# Ownership of partitions inside the coordinator

* `exactlyOnce_rebalance`: after a rebalance the members' assignments are disjoint, balanced, and
  together all partitions of the subscribed topics.
* `groupNext_cases`: what one call can do to a group.
* `owned_exactly_once`: every group of every reachable state is as its latest rebalance left it.
-/

set_option autoImplicit false

namespace Gaffa

open Transition RoundRobin ConsumerGroup

/-- A topic that some member subscribes to. -/
def Subscribed (g : ConsumerGroup) (topic : String) : Prop :=
  ∃ id m, g.members.get id = some m ∧ topic ∈ m.topics

/-- A partition of a topic, as far as `counts` knows it. -/
def Known (counts : Table String Nat) (a : PartitionAssignment) : Prop :=
  ∃ count, counts.get a.topic = some count ∧ a.partition < count

/-- The members of a group own the partitions of its topics exactly once, in equal parts. -/
structure ExactlyOnce (counts : Table String Nat) (g : ConsumerGroup) : Prop where
  nonempty : ∃ id m, g.members.get id = some m
  own_id : ∀ id m, g.members.get id = some m → m.memberId = id
  nodup : ∀ id m, g.members.get id = some m → m.assignments.Nodup
  disjoint : ∀ id id' m m', g.members.get id = some m → g.members.get id' = some m' → id ≠ id' →
    ∀ a ∈ m.assignments, a ∉ m'.assignments
  cover : ∀ a, (∃ id m, g.members.get id = some m ∧ a ∈ m.assignments) ↔
    Subscribed g a.topic ∧ Known counts a
  balanced : ∀ id id' m m', g.members.get id = some m → g.members.get id' = some m' →
    m.assignments.length ≤ m'.assignments.length + 1

/-! ## The partitions that a rebalance deals out -/

theorem mem_allTopics {g : ConsumerGroup} {topic : String} :
    topic ∈ g.allTopics ↔ Subscribed g topic := by
  unfold allTopics Subscribed
  rw [Finset.mem_biUnion]
  constructor
  · rintro ⟨id, -, htopic⟩
    cases hget : g.members.get id with
    | none => simp [hget] at htopic
    | some m => exact ⟨id, m, hget, by simpa [hget] using htopic⟩
  · rintro ⟨id, m, hget, htopic⟩
    exact ⟨id, Table.mem_keys_iff.2 ⟨m, hget⟩, by simpa [hget] using htopic⟩

theorem mem_allPartitions {counts : Table String Nat} {topics : List String}
    {a : PartitionAssignment} :
    a ∈ allPartitions counts topics ↔ a.topic ∈ topics ∧ Known counts a := by
  unfold allPartitions Known
  rw [List.mem_flatMap]
  constructor
  · rintro ⟨topic, htopic, ha⟩
    cases hcount : counts.get topic with
    | none => simp [hcount] at ha
    | some count =>
      simp only [hcount, Option.elim_some, List.mem_map, List.mem_range] at ha
      obtain ⟨partition, hlt, rfl⟩ := ha
      exact ⟨htopic, count, hcount, hlt⟩
  · rintro ⟨htopic, count, hcount, hlt⟩
    refine ⟨a.topic, htopic, ?_⟩
    simp only [hcount, Option.elim_some, List.mem_map, List.mem_range]
    exact ⟨a.partition, hlt, rfl⟩

theorem nodup_allPartitions (counts : Table String Nat) {topics : List String}
    (h : topics.Nodup) : (allPartitions counts topics).Nodup := by
  unfold allPartitions
  rw [List.nodup_flatMap]
  constructor
  · intro topic _
    cases counts.get topic with
    | none => exact List.nodup_nil
    | some count =>
      apply List.Nodup.map _ List.nodup_range
      intro i j hij
      cases hij
      rfl
  · apply h.imp
    intro t t' hne a ha ha'
    apply hne
    have htopic : ∀ {t : String}, a ∈ (counts.get t).elim []
        (fun count => (List.range count).map fun p => ⟨t, p⟩) → a.topic = t := by
      intro t ha
      cases hcount : counts.get t with
      | none => simp [hcount] at ha
      | some count =>
        simp only [hcount, Option.elim_some, List.mem_map] at ha
        obtain ⟨p, -, rfl⟩ := ha
        rfl
    rw [← htopic ha, htopic ha']

section Rebalance

variable {overflowChecks : Bool} {counts : Table String Nat} {order : IterationOrder}
  {g : ConsumerGroup}

/-- A member after a rebalance was one before, and has its share. -/
theorem get_rebalance_some (horder : g.Iterates order)
    (hok : (g.rebalance overflowChecks counts order).1 = .ok ()) {id : String} {m' : GroupMember}
    (h : (g.rebalance overflowChecks counts order).2.members.get id = some m') :
    ∃ m, g.members.get id = some m ∧ m'.memberId = m.memberId ∧ m'.topics = m.topics ∧
      order.members.idxOf id < order.members.length ∧
      m'.assignments = share order.members.length (order.members.idxOf id) 0
        (allPartitions counts order.topics) := by
  rw [rebalance_spec horder hok] at h
  obtain ⟨m, hget, rfl⟩ := Option.map_eq_some_iff.1 h
  have hmem : id ∈ order.members := horder.members.mem_iff.2 ⟨m, hget⟩
  exact ⟨m, hget, rfl, rfl, List.idxOf_lt_length_iff.2 hmem, rfl⟩

/-- **After a rebalance** every known partition of a subscribed topic is owned exactly once. -/
theorem exactlyOnce_rebalance (horder : g.Iterates order)
    (hok : (g.rebalance overflowChecks counts order).1 = .ok ())
    (hne : ∃ id m, g.members.get id = some m)
    (hown : ∀ id m, g.members.get id = some m → m.memberId = id) :
    ExactlyOnce counts (g.rebalance overflowChecks counts order).2 := by
  have hnodup := nodup_allPartitions counts horder.topics_nodup
  have hpos : 0 < order.members.length := by
    obtain ⟨id, m, hget⟩ := hne
    exact List.length_pos_of_mem (horder.members.mem_iff.2 ⟨m, hget⟩)
  have hsub : ∀ topic, Subscribed (g.rebalance overflowChecks counts order).2 topic ↔
      Subscribed g topic := by
    intro topic
    unfold Subscribed
    simp only [rebalance_spec horder hok, Option.map_eq_some_iff]
    constructor
    · rintro ⟨id, -, ⟨m, hget, rfl⟩, htopic⟩
      exact ⟨id, m, hget, htopic⟩
    · rintro ⟨id, m, hget, htopic⟩
      exact ⟨id, _, ⟨m, hget, rfl⟩, htopic⟩
  constructor
  · obtain ⟨id, m, hget⟩ := hne
    exact ⟨id, _, by rw [rebalance_spec horder hok, hget]; rfl⟩
  · intro id m' hget'
    obtain ⟨m, hget, hid, -⟩ := get_rebalance_some horder hok hget'
    rw [hid]
    exact hown id m hget
  · intro id m' hget'
    obtain ⟨m, -, -, -, -, hshare⟩ := get_rebalance_some horder hok hget'
    rw [hshare]
    exact (share_sublist ..).nodup hnodup
  · intro id id' m m' hget hget' hid a ha
    obtain ⟨-, -, -, -, hlt, hshare⟩ := get_rebalance_some horder hok hget
    obtain ⟨-, -, -, -, -, hshare'⟩ := get_rebalance_some horder hok hget'
    rw [hshare] at ha
    rw [hshare']
    apply share_disjoint hnodup _ ha
    intro heq
    exact hid (List.idxOf_inj (List.idxOf_lt_length_iff.1 hlt) |>.1 heq)
  · intro a
    rw [hsub]
    constructor
    · rintro ⟨id, m', hget', ha⟩
      obtain ⟨-, -, -, -, -, hshare⟩ := get_rebalance_some horder hok hget'
      rw [hshare] at ha
      obtain ⟨htopic, hknown⟩ := mem_allPartitions.1 ((share_sublist ..).mem ha)
      rw [← List.mem_toFinset, horder.topics, mem_allTopics] at htopic
      exact ⟨htopic, hknown⟩
    · rintro ⟨htopic, hknown⟩
      rw [← mem_allTopics, ← horder.topics, List.mem_toFinset] at htopic
      obtain ⟨i, hi, ha⟩ := exists_mem_share (k := 0) hpos (mem_allPartitions.2 ⟨htopic, hknown⟩)
      obtain ⟨m, hget⟩ := horder.members.mem_iff.1 (List.getElem_mem hi)
      refine ⟨order.members[i], _, by rw [rebalance_spec horder hok, hget]; rfl, ?_⟩
      have hidx : order.members.idxOf order.members[i] = i :=
        List.get_idxOf horder.members.nodup ⟨i, hi⟩
      rw [hidx]
      exact ha
  · intro id id' m m' hget hget'
    obtain ⟨-, -, -, -, hlt, hshare⟩ := get_rebalance_some horder hok hget
    obtain ⟨-, -, -, -, hlt', hshare'⟩ := get_rebalance_some horder hok hget'
    rw [hshare, hshare']
    exact length_share_le hlt hlt' _

end Rebalance

/-! ## Calls -/

/-- A call of the coordinator, with the clock readings, the fresh identifier and the iteration
orders that it meets. -/
inductive GroupCall where
  | updateTopicPartitions (topic : String) (partitionCount : Nat)
  | joinGroup (now : Nat) (uuid : String) (order : IterationOrder) (groupId : String)
      (memberId : Option String) (topics : List String)
  | leaveGroup (order : IterationOrder) (groupId memberId : String)
  | heartbeat (now : Nat) (groupId memberId : String)
  | checkHeartbeats (now : String → Nat) (order : List String) (orders : String → IterationOrder)

namespace GroupCall

/-- The iteration orders of the call are orders of what it iterates. -/
def Iterates (c : GroupCoordinator) : GroupCall → Prop
  | updateTopicPartitions .. => True
  | joinGroup now uuid order groupId memberId topics =>
    (c.joined now groupId (GroupCoordinator.joinId uuid groupId memberId) topics).Iterates order
  | leaveGroup order groupId memberId =>
    ∀ g ∈ c.groups.get groupId, (g.removeMember memberId).2.Iterates order
  | heartbeat .. => True
  | checkHeartbeats now order orders => c.groups.Order order ∧
    ∀ id ∈ order, ∀ g ∈ c.groups.get id,
      (GroupCoordinator.evict (now id) c.heartbeatTimeout g).Iterates (orders id)

instance decidableIterates (c : GroupCoordinator) : ∀ call, Decidable (Iterates c call)
  | updateTopicPartitions .. => inferInstanceAs (Decidable True)
  | joinGroup .. => inferInstanceAs (Decidable (ConsumerGroup.Iterates _ _))
  | leaveGroup _ groupId _ => inferInstanceAs (Decidable (∀ g ∈ c.groups.get groupId, _))
  | heartbeat .. => inferInstanceAs (Decidable True)
  | checkHeartbeats .. => inferInstanceAs (Decidable (_ ∧ _))

/-- The call's outcome, without its value, and the coordinator it leaves. -/
def perform (overflowChecks : Bool) (c : GroupCoordinator) :
    GroupCall → Except Fault Unit × GroupCoordinator
  | updateTopicPartitions topic partitionCount =>
    (.ok (), c.updateTopicPartitions topic partitionCount)
  | joinGroup now uuid order groupId memberId topics =>
    let r := c.joinGroup overflowChecks now uuid order groupId memberId topics
    (r.1.map fun _ => (), r.2)
  | leaveGroup order groupId memberId => c.leaveGroup overflowChecks order groupId memberId
  | heartbeat now groupId memberId =>
    let r := c.heartbeat now groupId memberId
    (match r.1 with
      | .ok _ => .ok ()
      | .error e => .error (.error e), r.2)
  | checkHeartbeats now order orders => c.checkHeartbeats overflowChecks now order orders

/-- The call rebalances the group `id`. -/
def rebalances (c : GroupCoordinator) (id : String) : GroupCall → Bool
  | updateTopicPartitions .. => false
  | joinGroup _ _ _ groupId _ _ => id = groupId
  | leaveGroup _ groupId memberId => id = groupId && (c.groups.get id).any fun g =>
    (g.members.get memberId).isSome && !(g.members.remove memberId).isEmpty
  | heartbeat .. => false
  | checkHeartbeats now _ _ => (c.groups.get id).any fun g =>
    g.getDeadMembers (now id) c.heartbeatTimeout ≠ ∅ &&
      !(GroupCoordinator.evict (now id) c.heartbeatTimeout g).members.isEmpty

/-- The group `id` as the call is about to rebalance it, if it does. -/
def regrouped (c : GroupCoordinator) (id : String) : GroupCall → Option ConsumerGroup
  | updateTopicPartitions .. => none
  | joinGroup now uuid _ groupId memberId topics =>
    if id = groupId then
      some (c.joined now groupId (GroupCoordinator.joinId uuid groupId memberId) topics)
    else none
  | leaveGroup _ groupId memberId =>
    if id = groupId then
      (c.groups.get id).bind fun g =>
        if (g.members.get memberId).isSome && !(g.members.remove memberId).isEmpty then
          some (g.removeMember memberId).2
        else none
    else none
  | heartbeat .. => none
  | checkHeartbeats now _ _ => (c.groups.get id).bind fun g =>
    if g.getDeadMembers (now id) c.heartbeatTimeout ≠ ∅ &&
        !(GroupCoordinator.evict (now id) c.heartbeatTimeout g).members.isEmpty then
      some (GroupCoordinator.evict (now id) c.heartbeatTimeout g)
    else none

/-- The order in which the call iterates the group `id`. -/
def orderOf (id : String) : GroupCall → IterationOrder
  | joinGroup _ _ order _ _ _ => order
  | leaveGroup order _ _ => order
  | checkHeartbeats _ _ orders => orders id
  | _ => ⟨[], []⟩

end GroupCall

/-- The coordinator, with the partition counts that each group's latest rebalance knew. -/
structure GroupState where
  coordinator : GroupCoordinator
  counts : String → Table String Nat

/-- The state of a new coordinator. -/
def GroupState.new (heartbeatTimeout : Nat) : GroupState :=
  ⟨GroupCoordinator.new heartbeatTimeout, fun _ => Table.empty⟩

/-- A call that returns.  One that panics, where the generation has no successor, leaves its group
with other members and the old assignments: ownership is what returned calls have settled, so a run
ends there, unlike the runs of `clusterNext`, whose states outlive a panic. -/
def groupNext (overflowChecks : Bool) (s : GroupState) (call : GroupCall) : Option GroupState :=
  if call.Iterates s.coordinator ∧ panicked (call.perform overflowChecks s.coordinator).1 = false
  then some
    { coordinator := (call.perform overflowChecks s.coordinator).2
      counts := fun id =>
        if call.rebalances s.coordinator id then s.coordinator.topicPartitions else s.counts id }
  else none

/-! ## What a call does to a group -/

/-- Every member is stored under its own id. -/
def OwnIds (g : ConsumerGroup) : Prop := ∀ id m, g.members.get id = some m → m.memberId = id

/-- What ownership depends on of a member. -/
def GroupMember.owned (m : GroupMember) : String × List String × List PartitionAssignment :=
  (m.memberId, m.topics, m.assignments)

/-- Two groups with the same members, up to their heartbeats. -/
def SameMembers (g g' : ConsumerGroup) : Prop :=
  ∀ id, (g'.members.get id).map GroupMember.owned = (g.members.get id).map GroupMember.owned

theorem SameMembers.get {g g' : ConsumerGroup} (h : SameMembers g g') {id : String}
    {m' : GroupMember} (hget : g'.members.get id = some m') :
    ∃ m, g.members.get id = some m ∧ m'.memberId = m.memberId ∧ m'.topics = m.topics ∧
      m'.assignments = m.assignments := by
  have hid := h id
  rw [hget, Option.map_some] at hid
  obtain ⟨m, hm, howned⟩ := Option.map_eq_some_iff.1 hid.symm
  simp only [GroupMember.owned, Prod.mk.injEq] at howned
  exact ⟨m, hm, howned.1.symm, howned.2.1.symm, howned.2.2.symm⟩

theorem SameMembers.symm {g g' : ConsumerGroup} (h : SameMembers g g') : SameMembers g' g := by
  intro id
  exact (h id).symm

theorem ExactlyOnce.of_sameMembers {counts : Table String Nat} {g g' : ConsumerGroup}
    (h : ExactlyOnce counts g) (hsame : SameMembers g g') : ExactlyOnce counts g' := by
  constructor
  · obtain ⟨id, m, hget⟩ := h.nonempty
    obtain ⟨m', hget', -⟩ := hsame.symm.get hget
    exact ⟨id, m', hget'⟩
  · intro id m' hget'
    obtain ⟨m, hget, hid, -⟩ := hsame.get hget'
    rw [hid]
    exact h.own_id id m hget
  · intro id m' hget'
    obtain ⟨m, hget, -, -, hassign⟩ := hsame.get hget'
    rw [hassign]
    exact h.nodup id m hget
  · intro id id' m m' hget hget' hne
    obtain ⟨n, hn, -, -, hassign⟩ := hsame.get hget
    obtain ⟨n', hn', -, -, hassign'⟩ := hsame.get hget'
    rw [hassign, hassign']
    exact h.disjoint id id' n n' hn hn' hne
  · intro a
    have hsub : Subscribed g' a.topic ↔ Subscribed g a.topic := by
      constructor
      · rintro ⟨id, m', hget', htopic⟩
        obtain ⟨m, hget, -, htopics, -⟩ := hsame.get hget'
        exact ⟨id, m, hget, htopics ▸ htopic⟩
      · rintro ⟨id, m, hget, htopic⟩
        obtain ⟨m', hget', -, htopics, -⟩ := hsame.symm.get hget
        exact ⟨id, m', hget', htopics ▸ htopic⟩
    rw [hsub, ← h.cover]
    constructor
    · rintro ⟨id, m', hget', ha⟩
      obtain ⟨m, hget, -, -, hassign⟩ := hsame.get hget'
      exact ⟨id, m, hget, hassign ▸ ha⟩
    · rintro ⟨id, m, hget, ha⟩
      obtain ⟨m', hget', -, -, hassign⟩ := hsame.symm.get hget
      exact ⟨id, m', hget', hassign ▸ ha⟩
  · intro id id' m m' hget hget'
    obtain ⟨n, hn, -, -, hassign⟩ := hsame.get hget
    obtain ⟨n', hn', -, -, hassign'⟩ := hsame.get hget'
    rw [hassign, hassign']
    exact h.balanced id id' n n' hn hn'

theorem sameMembers_heartbeat (now : Nat) (memberId : String) (g : ConsumerGroup) :
    SameMembers g (g.heartbeat now memberId).2 := by
  intro id
  unfold ConsumerGroup.heartbeat
  cases hget : g.members.get memberId with
  | none => rfl
  | some m =>
    by_cases hid : id = memberId
    · subst hid
      simp [hget, GroupMember.owned]
    · simp [Table.get_insert_ne _ hid]

/-- The group's members are what a rebalance leaves of a non-empty group with the given counts. -/
def Rebalanced (overflowChecks : Bool) (counts : Table String Nat) (g' : ConsumerGroup) : Prop :=
  ∃ g order, g.Iterates order ∧ (∃ id m, g.members.get id = some m) ∧ OwnIds g ∧
    (g.rebalance overflowChecks counts order).1 = .ok () ∧
    g' = (g.rebalance overflowChecks counts order).2

section Step

variable {overflowChecks : Bool} {s t : GroupState} {call : GroupCall} {id : String}
  {g' : ConsumerGroup}

theorem ownIds_joined {c : GroupCoordinator} {now : Nat} {groupId memberId : String}
    {topics : List String} (hown : ∀ g, c.groups.get groupId = some g → OwnIds g) :
    OwnIds (c.joined now groupId memberId topics) := by
  intro id m hget
  unfold GroupCoordinator.joined addMember at hget
  simp only at hget
  rw [Table.get_insert] at hget
  split at hget
  · rename_i hid
    cases hget
    exact hid.symm
  · cases hg : c.groups.get groupId with
    | none =>
      rw [hg] at hget
      cases hget
    | some g =>
      rw [hg] at hget
      exact hown g hg id m hget

theorem ownIds_remove {g : ConsumerGroup} (hown : OwnIds g) (memberId : String) :
    OwnIds (g.removeMember memberId).2 := by
  intro id m hget
  exact hown id m (Table.get_remove_cases hget).2

theorem ownIds_evict {g : ConsumerGroup} (hown : OwnIds g) (now timeout : Nat) :
    OwnIds (GroupCoordinator.evict now timeout g) := by
  intro id m hget
  obtain ⟨hget, -⟩ := Option.filter_eq_some_iff.1 hget
  exact hown id m hget

omit g' in
theorem rebalances_eq_isSome (c : GroupCoordinator) (call : GroupCall) (id : String) :
    call.rebalances c id = (call.regrouped c id).isSome := by
  cases call with
  | updateTopicPartitions topic partitionCount => rfl
  | joinGroup now uuid order groupId memberId topics =>
    by_cases hid : id = groupId <;> simp [GroupCall.rebalances, GroupCall.regrouped, hid]
  | leaveGroup order groupId memberId =>
    by_cases hid : id = groupId
    · subst hid
      cases hg : c.groups.get id with
      | none => simp [GroupCall.rebalances, GroupCall.regrouped, hg]
      | some g =>
        simp only [GroupCall.rebalances, GroupCall.regrouped, hg, decide_true, Bool.true_and,
          Option.any_some, if_true, Option.bind_some]
        split <;> simp_all
    · simp [GroupCall.rebalances, GroupCall.regrouped, hid]
  | heartbeat now groupId memberId => rfl
  | checkHeartbeats now order orders =>
    cases hg : c.groups.get id with
    | none => simp [GroupCall.rebalances, GroupCall.regrouped, hg]
    | some g =>
      simp only [GroupCall.rebalances, GroupCall.regrouped, hg, Option.any_some, Option.bind_some]
      split <;> simp_all

/-- What is known of a step: the orders are orders of what the call iterates, and it returns. -/
theorem groupNext_some (hstep : groupNext overflowChecks s call = some t) :
    call.Iterates s.coordinator ∧
      panicked (call.perform overflowChecks s.coordinator).1 = false ∧
      t.coordinator = (call.perform overflowChecks s.coordinator).2 := by
  unfold groupNext at hstep
  simp only [Option.ite_none_right_eq_some, Option.some.injEq] at hstep
  obtain ⟨⟨hiter, hret⟩, rfl⟩ := hstep
  exact ⟨hiter, hret, rfl⟩

/-- A group that the call is about to rebalance has members, and the call iterates it. -/
theorem iterates_regrouped {c : GroupCoordinator} {g : ConsumerGroup} (hiter : call.Iterates c)
    (h : call.regrouped c id = some g) :
    g.Iterates (call.orderOf id) ∧ ∃ id m, g.members.get id = some m := by
  cases call with
  | updateTopicPartitions topic partitionCount => cases h
  | joinGroup now uuid order groupId memberId topics =>
    obtain ⟨rfl, hg⟩ := Option.ite_none_right_eq_some.1 h
    cases hg
    exact ⟨hiter, _, _, Table.get_insert_self ..⟩
  | leaveGroup order groupId memberId =>
    obtain ⟨rfl, hg⟩ := Option.ite_none_right_eq_some.1 h
    obtain ⟨g₀, hg₀, hg⟩ := Option.bind_eq_some_iff.1 hg
    obtain ⟨hsome, hg⟩ := Option.ite_none_right_eq_some.1 hg
    cases hg
    rw [Bool.and_eq_true, Bool.not_eq_true'] at hsome
    exact ⟨hiter g₀ hg₀, Table.isEmpty_eq_false_iff.1 hsome.2⟩
  | heartbeat now groupId memberId => cases h
  | checkHeartbeats now order orders =>
    obtain ⟨g₀, hg₀, hg⟩ := Option.bind_eq_some_iff.1 h
    obtain ⟨hdead, hg⟩ := Option.ite_none_right_eq_some.1 hg
    cases hg
    rw [Bool.and_eq_true, Bool.not_eq_true'] at hdead
    exact ⟨hiter.2 id (hiter.1.mem_iff.2 ⟨g₀, hg₀⟩) g₀ hg₀, Table.isEmpty_eq_false_iff.1 hdead.2⟩

theorem ownIds_regrouped {c : GroupCoordinator} {g : ConsumerGroup}
    (hown : ∀ g, c.groups.get id = some g → OwnIds g) (h : call.regrouped c id = some g) :
    OwnIds g := by
  cases call with
  | updateTopicPartitions topic partitionCount => cases h
  | joinGroup now uuid order groupId memberId topics =>
    obtain ⟨rfl, hg⟩ := Option.ite_none_right_eq_some.1 h
    cases hg
    exact ownIds_joined hown
  | leaveGroup order groupId memberId =>
    obtain ⟨rfl, hg⟩ := Option.ite_none_right_eq_some.1 h
    obtain ⟨g₀, hg₀, hg⟩ := Option.bind_eq_some_iff.1 hg
    obtain ⟨-, hg⟩ := Option.ite_none_right_eq_some.1 hg
    cases hg
    exact ownIds_remove (hown g₀ hg₀) memberId
  | heartbeat now groupId memberId => cases h
  | checkHeartbeats now order orders =>
    obtain ⟨g₀, hg₀, hg⟩ := Option.bind_eq_some_iff.1 h
    obtain ⟨-, hg⟩ := Option.ite_none_right_eq_some.1 hg
    cases hg
    exact ownIds_evict (hown g₀ hg₀) _ _

/-- **A group that a call rebalances** is there afterwards, rebalanced. -/
theorem groupNext_regrouped {g : ConsumerGroup}
    (hstep : groupNext overflowChecks s call = some t)
    (h : call.regrouped s.coordinator id = some g) :
    (g.rebalance overflowChecks s.coordinator.topicPartitions (call.orderOf id)).1 = .ok () ∧
      t.coordinator.groups.get id = some
        (g.rebalance overflowChecks s.coordinator.topicPartitions (call.orderOf id)).2 := by
  obtain ⟨hiter, hret, hcoord⟩ := groupNext_some hstep
  rw [hcoord]
  cases call with
  | updateTopicPartitions topic partitionCount => cases h
  | joinGroup now uuid order groupId memberId topics =>
    obtain ⟨rfl, hg⟩ := Option.ite_none_right_eq_some.1 h
    cases hg
    simp only [GroupCall.perform, GroupCoordinator.joinGroup, panicked_map] at hret ⊢
    exact ⟨rebalance_ok_of_not_panicked hret, Table.get_insert_self ..⟩
  | leaveGroup order groupId memberId =>
    obtain ⟨rfl, hg⟩ := Option.ite_none_right_eq_some.1 h
    obtain ⟨g₀, hg₀, hg⟩ := Option.bind_eq_some_iff.1 hg
    obtain ⟨hsome, hg⟩ := Option.ite_none_right_eq_some.1 hg
    cases hg
    rw [Bool.and_eq_true, Bool.not_eq_true', Option.isSome_iff_exists] at hsome
    obtain ⟨⟨m, hm⟩, hsome⟩ := hsome
    simp only [GroupCall.perform, GroupCoordinator.leaveGroup, removeMember, hg₀, hm, hsome,
      Bool.false_eq_true, if_false] at hret ⊢
    exact ⟨rebalance_ok_of_not_panicked hret, Table.get_insert_self ..⟩
  | heartbeat now groupId memberId => cases h
  | checkHeartbeats now order orders =>
    obtain ⟨g₀, hg₀, hg⟩ := Option.bind_eq_some_iff.1 h
    obtain ⟨hdead, hg⟩ := Option.ite_none_right_eq_some.1 hg
    cases hg
    rw [Bool.and_eq_true, Bool.not_eq_true', decide_eq_true_eq] at hdead
    obtain ⟨hdead, hsome⟩ := hdead
    have hok := GroupCoordinator.checkHeartbeats_ok_of_not_panicked hiter.1 hret
    refine ⟨GroupCoordinator.rebalance_of_checkHeartbeats_ok hiter.1 hok hg₀ hdead hsome, ?_⟩
    simp only [GroupCall.perform]
    rw [GroupCoordinator.get_checkHeartbeats hiter.1 hiter.2 hok, hg₀, Option.bind_some,
      if_neg (by simp [hsome]), if_neg hdead]
    rfl

/-- **A group that a call does not rebalance** was there before, with the same members up to their
heartbeats. -/
theorem groupNext_kept (hstep : groupNext overflowChecks s call = some t)
    (h : call.regrouped s.coordinator id = none)
    (hget : t.coordinator.groups.get id = some g') :
    ∃ g, s.coordinator.groups.get id = some g ∧ SameMembers g g' := by
  obtain ⟨hiter, hret, hcoord⟩ := groupNext_some hstep
  rw [hcoord] at hget
  cases call with
  | updateTopicPartitions topic partitionCount => exact ⟨g', hget, fun _ => rfl⟩
  | joinGroup now uuid order groupId memberId topics =>
    have hid : id ≠ groupId := by
      rintro rfl
      simp [GroupCall.regrouped] at h
    simp only [GroupCall.perform, GroupCoordinator.joinGroup] at hget
    rw [Table.get_insert_ne _ hid] at hget
    exact ⟨g', hget, fun _ => rfl⟩
  | leaveGroup order groupId memberId =>
    by_cases hid : id = groupId
    · subst hid
      simp only [GroupCall.perform, GroupCoordinator.leaveGroup, removeMember] at hget
      cases hg : s.coordinator.groups.get id with
      | none =>
        simp only [hg] at hget
        cases hget
      | some g =>
        cases hm : g.members.get memberId with
        | none =>
          simp only [hg, hm, Option.some.injEq] at hget
          exact ⟨g, rfl, hget ▸ fun _ => rfl⟩
        | some m =>
          have hempty : (g.members.remove memberId).isEmpty = true := by
            simpa [GroupCall.regrouped, hg, hm] using h
          simp only [hg, hm, hempty, if_true, Table.get_remove_self] at hget
          cases hget
    · rw [← GroupCoordinator.leaveGroup_get_ne overflowChecks order memberId s.coordinator hid]
      exact ⟨g', hget, fun _ => rfl⟩
  | heartbeat now groupId memberId =>
    simp only [GroupCall.perform, GroupCoordinator.heartbeat] at hget
    cases hg : s.coordinator.groups.get groupId with
    | none =>
      simp only [hg] at hget
      exact ⟨g', hget, fun _ => rfl⟩
    | some g =>
      simp only [hg] at hget
      rcases Table.get_insert_cases hget with ⟨rfl, rfl⟩ | ⟨-, hget⟩
      · exact ⟨g, hg, sameMembers_heartbeat now memberId g⟩
      · exact ⟨g', hget, fun _ => rfl⟩
  | checkHeartbeats now order orders =>
    have hok := GroupCoordinator.checkHeartbeats_ok_of_not_panicked hiter.1 hret
    simp only [GroupCall.perform] at hget
    rw [GroupCoordinator.get_checkHeartbeats hiter.1 hiter.2 hok] at hget
    obtain ⟨g, hg, hget⟩ := Option.bind_eq_some_iff.1 hget
    obtain ⟨hsome, hget⟩ := Option.ite_none_left_eq_some.1 hget
    split at hget
    · cases hget
      exact ⟨g', hg, fun _ => rfl⟩
    · rename_i hdead
      simp [GroupCall.regrouped, hg, hdead, hsome] at h

/-- **What a call can do to a group** that is there after it: leave it as it was, up to its
heartbeats, or rebalance it. -/
theorem groupNext_cases (hown : ∀ g, s.coordinator.groups.get id = some g → OwnIds g)
    (hstep : groupNext overflowChecks s call = some t)
    (h : t.coordinator.groups.get id = some g') :
    (call.rebalances s.coordinator id = false ∧
      ∃ g, s.coordinator.groups.get id = some g ∧ SameMembers g g') ∨
    (call.rebalances s.coordinator id = true ∧
      Rebalanced overflowChecks s.coordinator.topicPartitions g') := by
  rw [rebalances_eq_isSome]
  cases hregrouped : call.regrouped s.coordinator id with
  | none => exact Or.inl ⟨rfl, groupNext_kept hstep hregrouped h⟩
  | some g =>
    obtain ⟨hok, hget⟩ := groupNext_regrouped hstep hregrouped
    obtain ⟨hiter, hne⟩ := iterates_regrouped (groupNext_some hstep).1 hregrouped
    rw [hget, Option.some.injEq] at h
    exact Or.inr ⟨rfl, g, call.orderOf id, hiter, hne, ownIds_regrouped hown hregrouped, hok,
      h.symm⟩

end Step

/-! ## Runs -/

/-- Every group is as its latest rebalance left it. -/
def EveryGroupOwned (s : GroupState) : Prop :=
  ∀ id g, s.coordinator.groups.get id = some g → ExactlyOnce (s.counts id) g

theorem groupNext_counts {overflowChecks : Bool} {s t : GroupState} {call : GroupCall}
    (hstep : groupNext overflowChecks s call = some t) (id : String) :
    t.counts id =
      if call.rebalances s.coordinator id then s.coordinator.topicPartitions else s.counts id := by
  unfold groupNext at hstep
  simp only [Option.ite_none_right_eq_some, Option.some.injEq] at hstep
  obtain ⟨-, rfl⟩ := hstep
  rfl

theorem Rebalanced.exactlyOnce {overflowChecks : Bool} {counts : Table String Nat}
    {g' : ConsumerGroup} (h : Rebalanced overflowChecks counts g') : ExactlyOnce counts g' := by
  obtain ⟨g, order, horder, hne, hown, hok, rfl⟩ := h
  exact exactlyOnce_rebalance horder hok hne hown

theorem EveryGroupOwned.next {overflowChecks : Bool} {s t : GroupState} {call : GroupCall}
    (h : EveryGroupOwned s) (hstep : groupNext overflowChecks s call = some t) :
    EveryGroupOwned t := by
  intro id g' hget
  have hown : ∀ g, s.coordinator.groups.get id = some g → OwnIds g := by
    intro g hg
    exact (h id g hg).own_id
  rw [groupNext_counts hstep]
  rcases groupNext_cases hown hstep hget with ⟨hkept, g, hg, hsame⟩ | ⟨hreb, hrebalanced⟩
  · rw [if_neg (by simp [hkept])]
    exact (h id g hg).of_sameMembers hsame
  · rw [if_pos hreb]
    exact hrebalanced.exactlyOnce

theorem everyGroupOwned_new (heartbeatTimeout : Nat) :
    EveryGroupOwned (GroupState.new heartbeatTimeout) := by
  intro id g hget
  cases hget

theorem everyGroupOwned_throughout {overflowChecks : Bool} {heartbeatTimeout : Nat}
    {tr : List (GroupCall × GroupState)}
    (hrun : Run (Steps (groupNext overflowChecks)) (GroupState.new heartbeatTimeout) tr) :
    Throughout EveryGroupOwned (GroupState.new heartbeatTimeout) tr := by
  apply throughout_of_inductive _ (everyGroupOwned_new heartbeatTimeout) hrun
  intro s call t h hstep
  exact h.next hstep

/-- **Exactly one owner**: in every state that calls of the coordinator reach, every group has a
member, every member is stored under its id, and the members own the known partitions of their
topics exactly once, in parts that differ by at most one. -/
theorem owned_exactly_once (overflowChecks : Bool) (heartbeatTimeout : Nat)
    {tr : List (GroupCall × GroupState)}
    (hrun : Run (Steps (groupNext overflowChecks)) (GroupState.new heartbeatTimeout) tr) :
    Throughout EveryGroupOwned (GroupState.new heartbeatTimeout) tr :=
  everyGroupOwned_throughout hrun

/-- Two members join, one of them is evicted. -/
def evictionRun : List GroupCall :=
  [.updateTopicPartitions "orders" 3,
    .joinGroup 0 "1f0c" ⟨["orders"], ["a"]⟩ "g" (some "a") ["orders"],
    .joinGroup 20 "77aa" ⟨["orders"], ["b", "a"]⟩ "g" (some "b") ["orders", "orders"],
    .heartbeat 25 "g" "a",
    .checkHeartbeats (fun _ => 52) ["g"] fun _ => ⟨["orders"], ["a"]⟩]

theorem owned_exactly_once_eviction :
    ∃ tr, trace (groupNext true) (GroupState.new 30) evictionRun = some tr ∧
      Throughout EveryGroupOwned (GroupState.new 30) tr := by
  obtain ⟨tr, htr⟩ := Option.isSome_iff_exists.1 (show (trace (groupNext true)
    (GroupState.new 30) evictionRun).isSome = true by decide +kernel)
  exact ⟨tr, htr, owned_exactly_once true 30 (run_of_trace htr)⟩

end Gaffa
