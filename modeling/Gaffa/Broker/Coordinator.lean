import Gaffa.Protocol.Messages
import Gaffa.Lib.Table
import Gaffa.Lib.RoundRobin
import Mathlib.Data.Finset.Union

/-!
# The group coordinator

`broker/src/coordinator.rs`.  Clock readings are `Nat`.  A function that iterates a hash map or set
takes the order in which it does so; the addition that can overflow takes whether the build checks
for it.

* `rebalance_spec`: what a rebalance leaves each member with.
* `get_checkHeartbeats`: what a heartbeat check leaves of each group.
-/

set_option autoImplicit false

namespace Gaffa

open RoundRobin

/-- `GroupMember`. -/
structure GroupMember where
  memberId : String
  topics : List String
  lastHeartbeat : Nat
  assignments : List PartitionAssignment

/-- `ConsumerGroup`. -/
structure ConsumerGroup where
  groupId : String
  members : Table String GroupMember
  generation : Nat

/-- The orders in which a rebalance iterates the collected topics and the members. -/
structure IterationOrder where
  topics : List String
  members : List String

namespace ConsumerGroup

/-- `ConsumerGroup::new`. -/
def new (groupId : String) : ConsumerGroup := ⟨groupId, Table.empty, 0⟩

/-- `ConsumerGroup::add_member`. -/
def addMember (member : GroupMember) (g : ConsumerGroup) : ConsumerGroup :=
  { g with members := g.members.insert member.memberId member }

/-- `ConsumerGroup::remove_member`. -/
def removeMember (memberId : String) (g : ConsumerGroup) : Option GroupMember × ConsumerGroup :=
  (g.members.get memberId, { g with members := g.members.remove memberId })

/-- `ConsumerGroup::heartbeat`. -/
def heartbeat (now : Nat) (memberId : String) (g : ConsumerGroup) :
    Except GaffaError Unit × ConsumerGroup :=
  match g.members.get memberId with
  | some member =>
    (.ok (), { g with members := g.members.insert memberId { member with lastHeartbeat := now } })
  | none => (.error (.consumerNotFound memberId), g)

/-- The filter of `ConsumerGroup::get_dead_members`. -/
def isDead (now timeout : Nat) (member : GroupMember) : Bool := timeout < now - member.lastHeartbeat

/-- `ConsumerGroup::get_dead_members`. -/
def getDeadMembers (now timeout : Nat) (g : ConsumerGroup) : Finset String :=
  g.members.keys.filter fun id => (g.members.get id).any (isDead now timeout)

/-- The topics that `rebalance` collects. -/
def allTopics (g : ConsumerGroup) : Finset String :=
  g.members.keys.biUnion fun id => (g.members.get id).elim ∅ fun member => member.topics.toFinset

/-- The partitions that `rebalance` lists, for an order of the topics. -/
def allPartitions (topicPartitions : Table String Nat) (topics : List String) :
    List PartitionAssignment :=
  topics.flatMap fun topic =>
    (topicPartitions.get topic).elim [] fun count =>
      (List.range count).map fun partition => ⟨topic, partition⟩

/-- The last loop of `rebalance`, from index `idx` on. -/
def assignFrom (memberIds : List String) :
    Nat → List PartitionAssignment → Table String GroupMember → Table String GroupMember
  | _, [], members => members
  | idx, partition :: rest, members =>
    assignFrom memberIds (idx + 1) rest <|
      match memberIds[idx % memberIds.length]? with
      | none => members
      | some id =>
        match members.get id with
        | none => members
        | some member =>
          members.insert id { member with assignments := member.assignments ++ [partition] }

/-- `ConsumerGroup::rebalance`. -/
def rebalance (overflowChecks : Bool) (topicPartitions : Table String Nat) (order : IterationOrder)
    (g : ConsumerGroup) : Except Fault Unit × ConsumerGroup :=
  match addWith overflowChecks 32 g.generation 1 with
  | .error e => (.error e, g)
  | .ok generation =>
    let g := { g with generation := generation }
    if order.members.isEmpty then (.ok (), g)
    else
      let cleared := g.members.mapValues fun _ member => { member with assignments := [] }
      (.ok (), { g with
        members := assignFrom order.members 0 (allPartitions topicPartitions order.topics) cleared })

/-- An order in which a rebalance of the group may iterate. -/
structure Iterates (g : ConsumerGroup) (order : IterationOrder) : Prop where
  topics_nodup : order.topics.Nodup
  topics : order.topics.toFinset = g.allTopics
  members : g.members.Order order.members

theorem iterates_iff {g : ConsumerGroup} {order : IterationOrder} :
    g.Iterates order ↔ (order.topics.Nodup ∧ order.topics.toFinset = g.allTopics) ∧
      g.members.Order order.members := by
  constructor
  · intro h
    exact ⟨⟨h.topics_nodup, h.topics⟩, h.members⟩
  · rintro ⟨⟨h1, h2⟩, h3⟩
    exact ⟨h1, h2, h3⟩

instance decidableIterates (g : ConsumerGroup) (order : IterationOrder) :
    Decidable (g.Iterates order) :=
  decidable_of_iff _ iterates_iff.symm

end ConsumerGroup

/-! ## The coordinator -/

/-- `GroupCoordinator`. -/
structure GroupCoordinator where
  groups : Table String ConsumerGroup
  heartbeatTimeout : Nat
  topicPartitions : Table String Nat

namespace GroupCoordinator

/-- `GroupCoordinator::new`. -/
def new (heartbeatTimeout : Nat) : GroupCoordinator := ⟨Table.empty, heartbeatTimeout, Table.empty⟩

/-- `GroupCoordinator::update_topic_partitions`. -/
def updateTopicPartitions (topic : String) (partitionCount : Nat) (c : GroupCoordinator) :
    GroupCoordinator :=
  { c with topicPartitions := c.topicPartitions.insert topic partitionCount }

/-- The member id that `join_group` uses; `uuid` is the part of a fresh identifier it takes. -/
def joinId (uuid groupId : String) (memberId : Option String) : String :=
  memberId.getD (groupId ++ "-" ++ uuid)

/-- The group after `add_member` in `join_group`. -/
def joined (now : Nat) (groupId memberId : String) (topics : List String) (c : GroupCoordinator) :
    ConsumerGroup :=
  ((c.groups.get groupId).getD (ConsumerGroup.new groupId)).addMember ⟨memberId, topics, now, []⟩

/-- `GroupCoordinator::join_group`. -/
def joinGroup (overflowChecks : Bool) (now : Nat) (uuid : String) (order : IterationOrder)
    (groupId : String) (memberId : Option String) (topics : List String) (c : GroupCoordinator) :
    Except Fault (String × List PartitionAssignment) × GroupCoordinator :=
  let id := joinId uuid groupId memberId
  let r := (joined now groupId id topics c).rebalance overflowChecks c.topicPartitions order
  (r.1.map fun _ => (id, ((r.2.members.get id).map GroupMember.assignments).getD []),
    { c with groups := c.groups.insert groupId r.2 })

/-- `GroupCoordinator::leave_group`. -/
def leaveGroup (overflowChecks : Bool) (order : IterationOrder) (groupId memberId : String)
    (c : GroupCoordinator) : Except Fault Unit × GroupCoordinator :=
  match c.groups.get groupId with
  | none => (.error (.error (.groupNotFound groupId)), c)
  | some g =>
    match g.removeMember memberId with
    | (none, _) => (.error (.error (.consumerNotFound memberId)), c)
    | (some _, g) =>
      if g.members.isEmpty then (.ok (), { c with groups := c.groups.remove groupId })
      else
        let r := g.rebalance overflowChecks c.topicPartitions order
        (r.1, { c with groups := c.groups.insert groupId r.2 })

/-- `GroupCoordinator::heartbeat`. -/
def heartbeat (now : Nat) (groupId memberId : String) (c : GroupCoordinator) :
    Except GaffaError Bool × GroupCoordinator :=
  match c.groups.get groupId with
  | none => (.error (.groupNotFound groupId), c)
  | some g =>
    let r := g.heartbeat now memberId
    (r.1.map fun _ => false, { c with groups := c.groups.insert groupId r.2 })

/-- The body of the first loop of `check_heartbeats`: the dead members are removed. -/
def evict (now timeout : Nat) (g : ConsumerGroup) : ConsumerGroup :=
  { g with members := g.members.retain fun id _ => id ∉ g.getDeadMembers now timeout }

/-- The groups that the first loop of `check_heartbeats` collects, in its order. -/
def groupsToRebalance (now : String → Nat) (order : List String) (c : GroupCoordinator) :
    List String :=
  order.filter fun id =>
    (c.groups.get id).any fun g => g.getDeadMembers (now id) c.heartbeatTimeout ≠ ∅

/-- The body of the second loop of `check_heartbeats`. -/
def rebalanceNonempty (overflowChecks : Bool) (topicPartitions : Table String Nat)
    (orders : String → IterationOrder) (id : String) (g : ConsumerGroup) :
    Except Fault Unit × ConsumerGroup :=
  if g.members.isEmpty then (.ok (), g)
  else g.rebalance overflowChecks topicPartitions (orders id)

/-- `GroupCoordinator::check_heartbeats`: the clock is read at each group; `order` is the order of
the groups, `orders` that of each group's rebalance. -/
def checkHeartbeats (overflowChecks : Bool) (now : String → Nat) (order : List String)
    (orders : String → IterationOrder) (c : GroupCoordinator) : Except Fault Unit × GroupCoordinator :=
  let evicted := c.groups.mapValues fun id g => evict (now id) c.heartbeatTimeout g
  let r := Table.forEachMut (rebalanceNonempty overflowChecks c.topicPartitions orders)
    (c.groupsToRebalance now order) evicted
  match r.1 with
  | .error e => (.error e, { c with groups := r.2 })
  | .ok _ => (.ok (), { c with groups := r.2.retain fun _ g => !g.members.isEmpty })

end GroupCoordinator

/-! ## What a rebalance does -/

namespace ConsumerGroup

/-- `id` is the receiver with number `j` of a list without repetitions. -/
theorem getElem?_eq_some_iff_idxOf {ids : List String} (hnodup : ids.Nodup) {j : Nat}
    (hj : j < ids.length) (id : String) : ids[j]? = some id ↔ j = ids.idxOf id := by
  constructor
  · intro h
    obtain ⟨hlt, rfl⟩ := List.getElem?_eq_some_iff.1 h
    exact (List.get_idxOf hnodup ⟨j, hlt⟩).symm
  · intro h
    subst h
    exact List.getElem?_idxOf (List.idxOf_lt_length_iff.1 hj)

/-- Each member gets its share appended. -/
theorem get_assignFrom {ids : List String} (hnodup : ids.Nodup) (hne : 0 < ids.length)
    (k : Nat) (ps : List PartitionAssignment) (members : Table String GroupMember) (id : String) :
    (assignFrom ids k ps members).get id = (members.get id).map fun m =>
      { m with assignments := m.assignments ++ share ids.length (ids.idxOf id) k ps } := by
  induction ps generalizing k members with
  | nil =>
    cases hget : members.get id with
    | none => simp [assignFrom, hget]
    | some m => simp [assignFrom, share, hget]
  | cons p ps ih =>
    have hlt : k % ids.length < ids.length := Nat.mod_lt k hne
    unfold assignFrom share
    rw [ih]
    obtain ⟨id', hid'⟩ : ∃ id', ids[k % ids.length]? = some id' :=
      ⟨_, List.getElem?_eq_getElem hlt⟩
    have hiff := getElem?_eq_some_iff_idxOf hnodup hlt id
    rw [hid', Option.some.injEq] at hiff
    simp only [hid']
    by_cases hid : id' = id
    · subst hid
      rw [if_pos (hiff.1 rfl)]
      cases hget : members.get id' with
      | none => simp [hget]
      | some m => simp [List.append_assoc]
    · rw [if_neg (fun h => hid (hiff.2 h))]
      cases members.get id' with
      | none => rfl
      | some m => rw [Table.get_insert_ne _ (Ne.symm hid)]

/-- A rebalance returns or panics. -/
theorem rebalance_ok_of_not_panicked {overflowChecks : Bool} {topicPartitions : Table String Nat}
    {order : IterationOrder} {g : ConsumerGroup}
    (h : panicked (g.rebalance overflowChecks topicPartitions order).1 = false) :
    (g.rebalance overflowChecks topicPartitions order).1 = .ok () := by
  unfold rebalance at h ⊢
  rcases addWith_ok_or_panicked overflowChecks 32 g.generation 1 with ⟨c, hc⟩ | ⟨message, hm⟩
  · simp only [hc]
    split <;> rfl
  · simp only [hm] at h
    cases h

/-- Whether a rebalance returns is up to the generation. -/
theorem rebalance_ok_iff {overflowChecks : Bool} {topicPartitions : Table String Nat}
    {order : IterationOrder} {g : ConsumerGroup} :
    (g.rebalance overflowChecks topicPartitions order).1 = .ok () ↔
      ∃ generation, addWith overflowChecks 32 g.generation 1 = .ok generation := by
  unfold rebalance
  cases hadd : addWith overflowChecks 32 g.generation 1 with
  | error e => simp
  | ok generation =>
    simp only [Except.ok.injEq, exists_eq', iff_true]
    split <;> rfl

theorem generation_rebalance {overflowChecks : Bool} {topicPartitions : Table String Nat}
    {order : IterationOrder} {g : ConsumerGroup} {generation : Nat}
    (h : addWith overflowChecks 32 g.generation 1 = .ok generation) :
    (g.rebalance overflowChecks topicPartitions order).2.generation = generation := by
  unfold rebalance
  simp only [h]
  split <;> rfl

/-- **A rebalance** that does not panic leaves each member with its share of the partitions. -/
theorem rebalance_spec {overflowChecks : Bool} {topicPartitions : Table String Nat}
    {order : IterationOrder} {g : ConsumerGroup} (horder : g.Iterates order)
    (hok : (g.rebalance overflowChecks topicPartitions order).1 = .ok ()) (id : String) :
    (g.rebalance overflowChecks topicPartitions order).2.members.get id =
      (g.members.get id).map fun m =>
        { m with
          assignments := share order.members.length (order.members.idxOf id) 0
            (allPartitions topicPartitions order.topics) } := by
  unfold rebalance at hok ⊢
  split at hok
  · cases hok
  · rename_i generation hadd
    simp only
    cases hids : order.members with
    | nil =>
      have hnone : g.members.get id = none := by
        apply Table.not_mem_keys_iff.1
        rw [← horder.members.mem, hids]
        exact List.not_mem_nil
      simp [hnone]
    | cons i is =>
      rw [if_neg (by simp), ← hids, get_assignFrom horder.members.nodup (by simp [hids])]
      simp only [Table.get_mapValues, Option.map_map]
      congr 1

/-- A rebalance neither adds nor removes members. -/
theorem isEmpty_rebalance {overflowChecks : Bool} {topicPartitions : Table String Nat}
    {order : IterationOrder} {g : ConsumerGroup} (horder : g.Iterates order)
    (hok : (g.rebalance overflowChecks topicPartitions order).1 = .ok ()) :
    (g.rebalance overflowChecks topicPartitions order).2.members.isEmpty = g.members.isEmpty := by
  rw [Bool.eq_iff_iff, Table.isEmpty_iff, Table.isEmpty_iff]
  simp only [rebalance_spec horder hok, Option.map_eq_none_iff]

end ConsumerGroup

/-! ## What a heartbeat and a heartbeat check do -/

namespace GroupCoordinator

/-- A heartbeat that is accepted is a member's, and asks for no rejoin. -/
theorem heartbeat_ok {now : Nat} {groupId memberId : String} {c : GroupCoordinator} {b : Bool}
    (h : (c.heartbeat now groupId memberId).1 = .ok b) :
    b = false ∧ ∃ g m, c.groups.get groupId = some g ∧ g.members.get memberId = some m := by
  unfold heartbeat at h
  cases hg : c.groups.get groupId with
  | none =>
    simp only [hg] at h
    cases h
  | some g =>
    simp only [hg, ConsumerGroup.heartbeat] at h
    cases hm : g.members.get memberId with
    | none =>
      simp only [hm] at h
      cases h
    | some m =>
      simp only [hm] at h
      cases h
      exact ⟨rfl, g, m, rfl, hm⟩

theorem evict_of_none_dead {now timeout : Nat} {g : ConsumerGroup}
    (h : g.getDeadMembers now timeout = ∅) : evict now timeout g = g := by
  have hmembers : (g.members.retain fun id _ => id ∉ g.getDeadMembers now timeout) = g.members := by
    apply Table.ext
    intro id
    rw [Table.get_retain, h]
    cases g.members.get id <;> simp
  unfold evict
  rw [hmembers]

/-- A departure touches only the group it names. -/
theorem leaveGroup_get_ne (overflowChecks : Bool) (order : IterationOrder) {id groupId : String}
    (memberId : String) (c : GroupCoordinator) (h : id ≠ groupId) :
    (c.leaveGroup overflowChecks order groupId memberId).2.groups.get id = c.groups.get id := by
  unfold leaveGroup
  split
  · rfl
  · split
    · rfl
    · split
      · exact Table.get_remove_ne h
      · exact Table.get_insert_ne _ h

section Check

variable {overflowChecks : Bool} {now : String → Nat} {order : List String}
  {orders : String → IterationOrder} {c : GroupCoordinator} {id : String} {g : ConsumerGroup}

/-- The groups that lose members. -/
theorem mem_groupsToRebalance (horder : c.groups.Order order) :
    id ∈ c.groupsToRebalance now order ↔ ∃ g, c.groups.get id = some g ∧
      g.getDeadMembers (now id) c.heartbeatTimeout ≠ ∅ := by
  unfold groupsToRebalance
  rw [List.mem_filter, Option.any_eq_true]
  constructor
  · rintro ⟨-, g, hg, hdead⟩
    exact ⟨g, hg, of_decide_eq_true hdead⟩
  · rintro ⟨g, hg, hdead⟩
    exact ⟨horder.mem_iff.2 ⟨g, hg⟩, g, hg, decide_eq_true hdead⟩

/-- A check that returns has rebalanced the groups that lost members and have some left. -/
theorem rebalance_of_checkHeartbeats_ok (horder : c.groups.Order order)
    (hok : (c.checkHeartbeats overflowChecks now order orders).1 = .ok ())
    (hg : c.groups.get id = some g) (hdead : g.getDeadMembers (now id) c.heartbeatTimeout ≠ ∅)
    (hsome : (evict (now id) c.heartbeatTimeout g).members.isEmpty = false) :
    ((evict (now id) c.heartbeatTimeout g).rebalance overflowChecks c.topicPartitions
      (orders id)).1 = .ok () := by
  unfold checkHeartbeats at hok
  simp only at hok
  split at hok
  · cases hok
  · rename_i outs houts
    have hevicted : (c.groups.mapValues fun id g => evict (now id) c.heartbeatTimeout g).get id =
        some (evict (now id) c.heartbeatTimeout g) := by
      rw [Table.get_mapValues, hg]
      rfl
    obtain ⟨⟨⟩, hbody⟩ := Table.body_of_ok (horder.nodup.filter _) houts
      ((mem_groupsToRebalance horder).2 ⟨g, hg, hdead⟩) hevicted
    unfold rebalanceNonempty at hbody
    rw [if_neg (by simp [hsome])] at hbody
    exact hbody

/-- A heartbeat check returns or panics. -/
theorem checkHeartbeats_ok_of_not_panicked (horder : c.groups.Order order)
    (h : panicked (c.checkHeartbeats overflowChecks now order orders).1 = false) :
    (c.checkHeartbeats overflowChecks now order orders).1 = .ok () := by
  unfold checkHeartbeats at h ⊢
  simp only at h ⊢
  split at h
  · rename_i e he
    obtain ⟨id, -, g, -, hbody, -⟩ := Table.stopped_of_forEachMut (horder.nodup.filter _) he
    unfold rebalanceNonempty at hbody
    split at hbody
    · cases hbody
    · rw [← hbody] at h
      rw [ConsumerGroup.rebalance_ok_of_not_panicked h] at hbody
      cases hbody
  · rfl

/-- A check returns if each rebalance that it makes does. -/
theorem checkHeartbeats_ok (horder : c.groups.Order order)
    (h : ∀ id g, c.groups.get id = some g → g.getDeadMembers (now id) c.heartbeatTimeout ≠ ∅ →
      (evict (now id) c.heartbeatTimeout g).members.isEmpty = false →
      ((evict (now id) c.heartbeatTimeout g).rebalance overflowChecks c.topicPartitions
        (orders id)).1 = .ok ()) :
    (c.checkHeartbeats overflowChecks now order orders).1 = .ok () := by
  unfold checkHeartbeats
  simp only
  split
  · rename_i e he
    obtain ⟨id, hmem, g', hg', hbody, -⟩ := Table.stopped_of_forEachMut (horder.nodup.filter _) he
    obtain ⟨g, hg, hdead⟩ := (mem_groupsToRebalance horder).1 hmem
    rw [Table.get_mapValues, hg, Option.map_some, Option.some.injEq] at hg'
    subst hg'
    unfold rebalanceNonempty at hbody
    split at hbody
    · cases hbody
    · rename_i hsome
      rw [h id g hg hdead (Bool.eq_false_of_not_eq_true hsome)] at hbody
      cases hbody
  · rfl

/-- **A heartbeat check** that returns: a group none of whose members is dead stays as it was, one
that has members left is rebalanced without the dead, and one without members is gone. -/
theorem get_checkHeartbeats (horder : c.groups.Order order)
    (horders : ∀ id ∈ order, ∀ g ∈ c.groups.get id,
      (evict (now id) c.heartbeatTimeout g).Iterates (orders id))
    (hok : (c.checkHeartbeats overflowChecks now order orders).1 = .ok ()) (id : String) :
    (c.checkHeartbeats overflowChecks now order orders).2.groups.get id =
      (c.groups.get id).bind fun g =>
        if (evict (now id) c.heartbeatTimeout g).members.isEmpty = true then none
        else if g.getDeadMembers (now id) c.heartbeatTimeout = ∅ then some g
        else some ((evict (now id) c.heartbeatTimeout g).rebalance overflowChecks
          c.topicPartitions (orders id)).2 := by
  have hreturned := fun g => @rebalance_of_checkHeartbeats_ok overflowChecks now order orders c id g
    horder hok
  unfold checkHeartbeats at hok ⊢
  simp only at hok ⊢
  split at hok
  · cases hok
  · rename_i outs houts
    simp only [Table.get_retain]
    have hnodup : (c.groupsToRebalance now order).Nodup := horder.nodup.filter _
    cases hg : c.groups.get id with
    | none =>
      have hmem : id ∉ c.groupsToRebalance now order := by
        intro hmem
        obtain ⟨g, hg', -⟩ := (mem_groupsToRebalance horder).1 hmem
        rw [hg] at hg'
        cases hg'
      rw [Table.get_forEachMut_of_not_mem hmem, Table.get_mapValues, hg]
      rfl
    | some g =>
      by_cases hdead : g.getDeadMembers (now id) c.heartbeatTimeout = ∅
      · have hmem : id ∉ c.groupsToRebalance now order := by
          intro hmem
          obtain ⟨g', hg', hdead'⟩ := (mem_groupsToRebalance horder).1 hmem
          rw [hg] at hg'
          cases hg'
          exact hdead' hdead
        rw [Table.get_forEachMut_of_not_mem hmem, Table.get_mapValues, hg, Option.map_some,
          evict_of_none_dead hdead, Option.bind_some, if_pos hdead, evict_of_none_dead hdead]
        cases hempty : g.members.isEmpty <;> simp [hempty]
      · have hmem := (mem_groupsToRebalance horder).2 ⟨g, hg, hdead⟩
        rw [Table.get_forEachMut_of_ok hnodup houts hmem, Table.get_mapValues, hg, Option.map_some,
          Option.map_some, Option.bind_some, if_neg hdead]
        unfold rebalanceNonempty
        cases hempty : (evict (now id) c.heartbeatTimeout g).members.isEmpty with
        | true => simp [hempty]
        | false =>
          have hiter := horders id (horder.mem_iff.2 ⟨g, hg⟩) g hg
          have hkept := ConsumerGroup.isEmpty_rebalance hiter (hreturned g hg hdead hempty)
          simp [hkept, hempty]

end Check

end GroupCoordinator

end Gaffa
