import Gaffa.Broker.Eviction

/-!
# How long a member stays in its group

A member leaves a group by its own request, or when a heartbeat check finds that it has not been heard
of for longer than the timeout.  What the other members do, the rebalances and the other groups do not
matter.

* `membership_next`: what a call does to the membership of one member.
* `membership_iff`: a member stays throughout a run of calls exactly when its heartbeats keep up.
-/

set_option autoImplicit false

namespace Gaffa

open Transition ConsumerGroup

/-- The member is in the group, and was last heard of at the time `last`. -/
def HeardOf (c : GroupCoordinator) (groupId id : String) (last : Nat) : Prop :=
  ∃ g m, c.groups.get groupId = some g ∧ g.members.get id = some m ∧ m.lastHeartbeat = last

def IsMember (c : GroupCoordinator) (groupId id : String) : Prop :=
  ∃ g m, c.groups.get groupId = some g ∧ g.members.get id = some m

namespace GroupCall

/-- The time at which the call hears of the member. -/
def heard (groupId id : String) : GroupCall → Option Nat
  | joinGroup now uuid _ group memberId _ =>
    if group = groupId ∧ GroupCoordinator.joinId uuid group memberId = id then some now else none
  | heartbeat now group memberId => if group = groupId ∧ memberId = id then some now else none
  | _ => none

/-- The call is a request of the member to leave, or a check that finds the member dead. -/
def loses (timeout : Nat) (groupId id : String) (last : Nat) : GroupCall → Bool
  | leaveGroup _ group memberId => group = groupId ∧ memberId = id
  | checkHeartbeats now _ _ => timeout < now groupId - last
  | _ => false

end GroupCall

/-- None of the calls loses the member. -/
def keepsUp (timeout : Nat) (groupId id : String) : Nat → List GroupCall → Bool
  | _, [] => true
  | last, call :: calls => !call.loses timeout groupId id last &&
    keepsUp timeout groupId id ((call.heard groupId id).getD last) calls

section Step

variable {overflowChecks : Bool} {s t : GroupState} {call : GroupCall} {groupId id : String}
  {last : Nat}

theorem HeardOf.isMember {c : GroupCoordinator} (h : HeardOf c groupId id last) :
    IsMember c groupId id := by
  obtain ⟨g, m, hg, hm, -⟩ := h
  exact ⟨g, m, hg, hm⟩

/-- A group that is not touched keeps its members. -/
theorem HeardOf.congr {c c' : GroupCoordinator} (h : HeardOf c groupId id last)
    (hsame : c'.groups.get groupId = c.groups.get groupId) : HeardOf c' groupId id last := by
  obtain ⟨g, m, hg, hm, hlast⟩ := h
  exact ⟨g, m, hsame.trans hg, hm, hlast⟩

/-- A member that is in the group when it is rebalanced stays in it. -/
theorem heardOf_regrouped {g : ConsumerGroup} {m : GroupMember}
    (hstep : groupNext overflowChecks s call = some t)
    (hgroup : call.regrouped s.coordinator groupId = some g) (hm : g.members.get id = some m) :
    HeardOf t.coordinator groupId id m.lastHeartbeat := by
  obtain ⟨hok, hget⟩ := groupNext_regrouped hstep hgroup
  obtain ⟨hiter, -⟩ := iterates_regrouped (groupNext_some hstep).1 hgroup
  have hmember := rebalance_spec hiter hok id
  rw [hm, Option.map_some] at hmember
  exact ⟨_, _, hget, hmember, rfl⟩

/-- A member that is not in the group when it is rebalanced is not in it afterwards. -/
theorem not_isMember_regrouped {g : ConsumerGroup}
    (hstep : groupNext overflowChecks s call = some t)
    (hgroup : call.regrouped s.coordinator groupId = some g) (hm : g.members.get id = none) :
    ¬IsMember t.coordinator groupId id := by
  obtain ⟨hok, hget⟩ := groupNext_regrouped hstep hgroup
  obtain ⟨hiter, -⟩ := iterates_regrouped (groupNext_some hstep).1 hgroup
  rintro ⟨g', m', hg', hm'⟩
  rw [hget, Option.some.injEq] at hg'
  subst hg'
  rw [rebalance_spec hiter hok, hm] at hm'
  cases hm'

theorem membership_join {now : Nat} {uuid : String} {order : IterationOrder} {group : String}
    {memberId : Option String} {topics : List String} (h : HeardOf s.coordinator groupId id last)
    (hstep : groupNext overflowChecks s (.joinGroup now uuid order group memberId topics) = some t) :
    HeardOf t.coordinator groupId id
      (((GroupCall.joinGroup now uuid order group memberId topics).heard groupId id).getD last) := by
  by_cases hgroup : groupId = group
  · subst hgroup
    obtain ⟨g, m, hg, hm, hlast⟩ := h
    by_cases hid : GroupCoordinator.joinId uuid groupId memberId = id
    · have hjoined : (s.coordinator.joined now groupId (GroupCoordinator.joinId uuid groupId memberId)
          topics).members.get id = some ⟨id, topics, now, []⟩ := by
        unfold GroupCoordinator.joined addMember
        rw [hid]
        exact Table.get_insert_self ..
      simp only [GroupCall.heard, hid, and_self, if_true, Option.getD_some]
      exact heardOf_regrouped hstep (if_pos rfl) hjoined
    · have hjoined : (s.coordinator.joined now groupId (GroupCoordinator.joinId uuid groupId memberId)
          topics).members.get id = some m := by
        unfold GroupCoordinator.joined addMember
        rw [hg, Option.getD_some]
        exact (Table.get_insert_ne _ (Ne.symm hid)).trans hm
      simp only [GroupCall.heard, hid, and_false, if_false, Option.getD_none, ← hlast]
      exact heardOf_regrouped hstep (if_pos rfl) hjoined
  · obtain ⟨-, -, hcoord⟩ := groupNext_some hstep
    simp only [GroupCall.heard, Ne.symm hgroup, false_and, if_false, Option.getD_none, hcoord]
    exact h.congr (Table.get_insert_ne _ hgroup)

theorem membership_heartbeat {now : Nat} {group memberId : String}
    (h : HeardOf s.coordinator groupId id last)
    (hstep : groupNext overflowChecks s (.heartbeat now group memberId) = some t) :
    HeardOf t.coordinator groupId id
      (((GroupCall.heartbeat now group memberId).heard groupId id).getD last) := by
  obtain ⟨-, -, hcoord⟩ := groupNext_some hstep
  rw [hcoord]
  simp only [GroupCall.perform, GroupCoordinator.heartbeat, GroupCall.heard]
  by_cases hgroup : groupId = group
  · subst hgroup
    obtain ⟨g, m, hg, hm, hlast⟩ := h
    simp only [hg, ConsumerGroup.heartbeat, true_and]
    by_cases hid : memberId = id
    · subst hid
      simp only [hm, if_true, Option.getD_some]
      exact ⟨_, _, Table.get_insert_self .., Table.get_insert_self .., rfl⟩
    · simp only [hid, if_false, Option.getD_none]
      cases hother : g.members.get memberId with
      | none => exact ⟨_, m, Table.get_insert_self .., hm, hlast⟩
      | some m' =>
        refine ⟨_, m, Table.get_insert_self .., ?_, hlast⟩
        exact (Table.get_insert_ne _ (Ne.symm hid)).trans hm
  · simp only [Ne.symm hgroup, false_and, if_false, Option.getD_none]
    cases hother : s.coordinator.groups.get group with
    | none => exact h
    | some g => exact h.congr (Table.get_insert_ne _ hgroup)

theorem membership_leave {order : IterationOrder} {group memberId : String}
    (h : HeardOf s.coordinator groupId id last)
    (hstep : groupNext overflowChecks s (.leaveGroup order group memberId) = some t) :
    (¬(group = groupId ∧ memberId = id) → HeardOf t.coordinator groupId id last) ∧
      (group = groupId ∧ memberId = id → ¬IsMember t.coordinator groupId id) := by
  obtain ⟨-, -, hcoord⟩ := groupNext_some hstep
  by_cases hgroup : groupId = group
  · subst hgroup
    obtain ⟨g, m, hg, hm, hlast⟩ := h
    constructor
    · intro hother
      have hid : id ≠ memberId := by
        rintro rfl
        exact hother ⟨rfl, rfl⟩
      have hkept : (g.removeMember memberId).2.members.get id = some m :=
        (Table.get_remove_ne hid).trans hm
      cases hleaves : g.members.get memberId with
      | none =>
        refine ⟨g, m, ?_, hm, hlast⟩
        rw [hcoord]
        simp only [GroupCall.perform, GroupCoordinator.leaveGroup, hg, removeMember, hleaves]
      | some m' =>
        rw [← hlast]
        refine heardOf_regrouped hstep ?_ hkept
        have hsome : (g.members.remove memberId).isEmpty = false :=
          Table.isEmpty_eq_false_iff.2 ⟨id, m, hkept⟩
        simp [GroupCall.regrouped, hg, hleaves, hsome]
    · rintro ⟨-, rfl⟩
      cases hempty : (g.members.remove memberId).isEmpty with
      | true =>
        rw [hcoord]
        simp only [GroupCall.perform, GroupCoordinator.leaveGroup, hg, removeMember, hm, hempty,
          if_true]
        rintro ⟨g', m', hg', -⟩
        rw [Table.get_remove_self] at hg'
        cases hg'
      | false =>
        refine not_isMember_regrouped hstep (g := (g.removeMember memberId).2) ?_
          (Table.get_remove_self ..)
        simp [GroupCall.regrouped, hg, hm, hempty]
  · refine ⟨fun _ => ?_, fun hself => absurd hself.1.symm hgroup⟩
    rw [hcoord]
    exact h.congr (GroupCoordinator.leaveGroup_get_ne overflowChecks order memberId s.coordinator
      hgroup)

theorem membership_check {now : String → Nat} {order : List String}
    {orders : String → IterationOrder} (h : HeardOf s.coordinator groupId id last)
    (hstep : groupNext overflowChecks s (.checkHeartbeats now order orders) = some t) :
    (now groupId - last ≤ s.coordinator.heartbeatTimeout → HeardOf t.coordinator groupId id last) ∧
      (s.coordinator.heartbeatTimeout < now groupId - last →
        ¬IsMember t.coordinator groupId id) := by
  obtain ⟨hiter, hret, hcoord⟩ := groupNext_some hstep
  have hok := GroupCoordinator.checkHeartbeats_ok_of_not_panicked hiter.1 hret
  have hget := GroupCoordinator.get_checkHeartbeats hiter.1 hiter.2 hok groupId
  obtain ⟨g, m, hg, hm, rfl⟩ := h
  simp only [GroupCall.perform] at hcoord
  rw [hg, Option.bind_some] at hget
  constructor
  · intro halive
    have hkept : (GroupCoordinator.evict (now groupId) s.coordinator.heartbeatTimeout
        g).members.get id = some m := get_evict.2 ⟨hm, halive⟩
    have hsome := Table.isEmpty_eq_false_iff.2 ⟨id, m, hkept⟩
    by_cases hdead : g.getDeadMembers (now groupId) s.coordinator.heartbeatTimeout = ∅
    · rw [hsome, hdead] at hget
      rw [hcoord]
      exact ⟨g, m, hget, hm, rfl⟩
    · refine heardOf_regrouped hstep ?_ hkept
      simp [GroupCall.regrouped, hg, hdead, hsome]
  · intro hlate
    have hgone : (GroupCoordinator.evict (now groupId) s.coordinator.heartbeatTimeout
        g).members.get id = none := by
      rw [Option.eq_none_iff_forall_ne_some]
      intro m' hm'
      obtain ⟨hm', halive⟩ := get_evict.1 hm'
      rw [hm, Option.some.injEq] at hm'
      subst hm'
      exact absurd halive (Nat.not_le.2 hlate)
    have hdead : g.getDeadMembers (now groupId) s.coordinator.heartbeatTimeout ≠ ∅ :=
      getDeadMembers_ne_empty_iff.2 ⟨id, m, hm, Nat.not_le.2 hlate⟩
    cases hempty : (GroupCoordinator.evict (now groupId) s.coordinator.heartbeatTimeout
        g).members.isEmpty with
    | true =>
      rw [hempty, if_pos rfl] at hget
      rintro ⟨g', m', hg', -⟩
      rw [hcoord, hget] at hg'
      cases hg'
    | false =>
      refine not_isMember_regrouped hstep ?_ hgone
      simp [GroupCall.regrouped, hg, hdead, hempty]

/-- **What a call does** to the membership of one member. -/
theorem membership_next (h : HeardOf s.coordinator groupId id last)
    (hstep : groupNext overflowChecks s call = some t) :
    (call.loses s.coordinator.heartbeatTimeout groupId id last = false →
        HeardOf t.coordinator groupId id ((call.heard groupId id).getD last)) ∧
      (call.loses s.coordinator.heartbeatTimeout groupId id last = true →
        ¬IsMember t.coordinator groupId id) := by
  cases call with
  | updateTopicPartitions topic partitionCount =>
    obtain ⟨-, -, hcoord⟩ := groupNext_some hstep
    refine ⟨fun _ => ?_, nofun⟩
    rw [hcoord]
    exact h.congr rfl
  | joinGroup now uuid order group memberId topics =>
    exact ⟨fun _ => membership_join h hstep, nofun⟩
  | leaveGroup order group memberId =>
    obtain ⟨hstays, hleaves⟩ := membership_leave h hstep
    exact ⟨fun hkeeps => hstays (of_decide_eq_false hkeeps),
      fun hloses => hleaves (of_decide_eq_true hloses)⟩
  | heartbeat now group memberId => exact ⟨fun _ => membership_heartbeat h hstep, nofun⟩
  | checkHeartbeats now order orders =>
    obtain ⟨halive, hdead⟩ := membership_check h hstep
    exact ⟨fun hkeeps => halive (Nat.not_lt.1 (of_decide_eq_false hkeeps)),
      fun hloses => hdead (of_decide_eq_true hloses)⟩

theorem heartbeatTimeout_next (hstep : groupNext overflowChecks s call = some t) :
    t.coordinator.heartbeatTimeout = s.coordinator.heartbeatTimeout := by
  obtain ⟨-, -, hcoord⟩ := groupNext_some hstep
  rw [hcoord]
  cases call with
  | updateTopicPartitions topic partitionCount => rfl
  | joinGroup now uuid order groupId memberId topics => rfl
  | leaveGroup order groupId memberId =>
    simp only [GroupCall.perform, GroupCoordinator.leaveGroup]
    repeat' split
    all_goals rfl
  | heartbeat now groupId memberId =>
    simp only [GroupCall.perform, GroupCoordinator.heartbeat]
    split <;> rfl
  | checkHeartbeats now order orders =>
    simp only [GroupCall.perform, GroupCoordinator.checkHeartbeats]
    split <;> rfl

end Step

/-- **Heartbeats keep a member**: from any state in which it is in its group, and for all calls of all
members of all groups in any order, a member is in the group throughout exactly when it does not ask to
leave, and every heartbeat check finds that it was heard of within the timeout. -/
theorem membership_iff {overflowChecks : Bool} {groupId id : String} :
    ∀ {tr : List (GroupCall × GroupState)} {s : GroupState} {last : Nat},
      HeardOf s.coordinator groupId id last → Run (Steps (groupNext overflowChecks)) s tr →
      (Throughout (fun s => IsMember s.coordinator groupId id) s tr ↔
        keepsUp s.coordinator.heartbeatTimeout groupId id last (tr.map Prod.fst) = true)
  | [], _, _, h, _ => iff_of_true h.isMember rfl
  | (call, t) :: tr, s, last, h, hrun => by
    obtain ⟨hstays, hloses⟩ := membership_next h hrun.1
    simp only [Throughout, List.map_cons, keepsUp, Bool.and_eq_true, Bool.not_eq_true']
    rw [and_iff_right h.isMember]
    cases hcall : call.loses s.coordinator.heartbeatTimeout groupId id last with
    | true =>
      refine iff_of_false (fun hrest => hloses hcall hrest.first) ?_
      simp
    | false =>
      rw [membership_iff (hstays hcall) hrun.2, heartbeatTimeout_next hrun.1]
      simp

/-- The orders of a check that leaves only the member `b`. -/
def silentOrders (id : String) : IterationOrder :=
  if id = "g" then ⟨["orders"], ["b"]⟩ else ⟨[], []⟩

/-- One member sends a heartbeat before a check, the other does not. -/
def silentMember : List GroupCall :=
  [.heartbeat 40 "g" "b", .checkHeartbeats (fun _ => 60) ["h", "g"] silentOrders]

theorem membership_iff_silent : ∃ s tr, trace (groupNext true) s silentMember = some tr ∧
    Throughout (fun s => IsMember s.coordinator "g" "b") s tr ∧
    ¬Throughout (fun s => IsMember s.coordinator "g" "a") s tr := by
  obtain ⟨before, hbefore, hsome⟩ := Option.map_eq_some_iff.1
    (show (trace (groupNext true) (GroupState.new 30) twoGroups).map (fun before =>
        let s := last (GroupState.new 30) before
        (trace (groupNext true) s silentMember).isSome && s.coordinator.heartbeatTimeout == 30 &&
          (s.coordinator.groups.get "g").any fun g =>
            (g.members.get "a").any (fun m => decide (m.lastHeartbeat = 25)) &&
            (g.members.get "b").any fun m => decide (m.lastHeartbeat = 20)) =
      some true by decide +kernel)
  simp only [Bool.and_eq_true, beq_iff_eq, Option.any_eq_true, decide_eq_true_eq] at hsome
  obtain ⟨⟨hrun, htimeout⟩, g, hg, ⟨m, hm, ha⟩, m', hm', hb⟩ := hsome
  obtain ⟨tr, htr⟩ := Option.isSome_iff_exists.1 hrun
  have hcalls := events_of_trace htr
  refine ⟨_, tr, htr, ?_, ?_⟩
  · rw [membership_iff ⟨g, m', hg, hm', hb⟩ (run_of_trace htr), hcalls, htimeout]
    decide
  · rw [membership_iff ⟨g, m, hg, hm, ha⟩ (run_of_trace htr), hcalls, htimeout]
    decide

end Gaffa
