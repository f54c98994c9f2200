import Gaffa.Broker.Ownership

/-!
# What the members of a group have been told

The coordinator's calls with the responses of `process_request` in `broker/src/server.rs`: for each
member the assignments of its latest `JoinGroupSuccess`, and whether its latest heartbeat since the
group's latest rebalance was answered by `HeartbeatSuccess`.

* `processHeartbeat_needsRejoin`: no response asks a member to rejoin.
* `views_exclusive_iff`: over runs, members with a stale assignment are told to rejoin, and
  confirmed members hold disjoint assignments, exactly when no stale member sends a heartbeat.
-/

set_option autoImplicit false

namespace Gaffa

open Transition ConsumerGroup

/-! ## Responses -/

/-- `process_request`, after the partition counts of a `JoinGroup` request are updated. -/
def processJoinGroup (overflowChecks : Bool) (now : Nat) (uuid : String) (order : IterationOrder)
    (groupId : String) (memberId : Option String) (topics : List String) (c : GroupCoordinator) :
    Option Response × GroupCoordinator :=
  let r := c.joinGroup overflowChecks now uuid order groupId memberId topics
  (respond (fun (memberId, assignments) => .joinGroupSuccess groupId memberId assignments)
    .joinGroupError r.1, r.2)

/-- `process_request` for a `Heartbeat` request. -/
def processHeartbeat (now : Nat) (groupId memberId : String) (c : GroupCoordinator) :
    Response × GroupCoordinator :=
  let r := c.heartbeat now groupId memberId
  (match r.1 with
    | .ok true => .heartbeatError "Rebalance in progress" true
    | .ok false => .heartbeatSuccess
    | .error e => .heartbeatError e.display false, r.2)

/-- A `JoinGroupSuccess` names the group of the request. -/
theorem processJoinGroup_group {overflowChecks : Bool} {now : Nat} {uuid : String}
    {order : IterationOrder} {groupId : String} {memberId : Option String} {topics : List String}
    {c : GroupCoordinator} {group id : String} {assignments : List PartitionAssignment}
    (h : (processJoinGroup overflowChecks now uuid order groupId memberId topics c).1 =
      some (.joinGroupSuccess group id assignments)) : group = groupId := by
  unfold processJoinGroup respond at h
  simp only at h
  split at h
  · cases h
    rfl
  · cases h
  · cases h

/-- A heartbeat is answered by success or by an error that does not ask for a rejoin. -/
theorem processHeartbeat_needsRejoin (now : Nat) (groupId memberId : String)
    (c : GroupCoordinator) (error : String) :
    (processHeartbeat now groupId memberId c).1 ≠ .heartbeatError error true := by
  intro h
  unfold processHeartbeat at h
  simp only at h
  split at h
  · rename_i hok
    cases (GroupCoordinator.heartbeat_ok hok).1
  · cases h
  · cases h

/-- Only a member of the group gets a heartbeat confirmed. -/
theorem processHeartbeat_success {now : Nat} {groupId memberId : String} {c : GroupCoordinator}
    (h : (processHeartbeat now groupId memberId c).1 = .heartbeatSuccess) :
    ∃ g m, c.groups.get groupId = some g ∧ g.members.get memberId = some m := by
  unfold processHeartbeat at h
  simp only at h
  split at h
  · cases h
  · rename_i hok
    exact (GroupCoordinator.heartbeat_ok hok).2
  · cases h

/-! ## The members' views -/

/-- The coordinator with what the members have been told; a member is named by its group and id. -/
structure ViewState where
  group : GroupState
  held : String × String → Option (List PartitionAssignment)
  confirmed : String × String → Bool

/-- A new coordinator, with nobody told anything. -/
def ViewState.new (heartbeatTimeout : Nat) : ViewState :=
  ⟨GroupState.new heartbeatTimeout, fun _ => none, fun _ => false⟩

/-- The assignments that the call tells a member, if it is answered by `JoinGroupSuccess`. -/
def told (overflowChecks : Bool) (c : GroupCoordinator) :
    GroupCall → Option ((String × String) × List PartitionAssignment)
  | .joinGroup now uuid order groupId memberId topics =>
    match (processJoinGroup overflowChecks now uuid order groupId memberId topics c).1 with
    | some (.joinGroupSuccess groupId memberId assignments) =>
      some ((groupId, memberId), assignments)
    | _ => none
  | _ => none

/-- Whether the member counts as confirmed after the call. -/
def confirmedAfter (s : ViewState) (call : GroupCall) (member : String × String) : Bool :=
  match call with
  | .heartbeat now groupId memberId =>
    if member = (groupId, memberId) then
      (processHeartbeat now groupId memberId s.group.coordinator).1 = .heartbeatSuccess
    else s.confirmed member
  | _ => !call.rebalances s.group.coordinator member.1 && s.confirmed member

/-- A call that returns, with what it tells the members. -/
def viewNext (overflowChecks : Bool) (s : ViewState) (call : GroupCall) : Option ViewState :=
  (groupNext overflowChecks s.group call).map fun group =>
    { group := group
      held := fun member =>
        match told overflowChecks s.group.coordinator call with
        | some (joined, assignments) => if member = joined then some assignments else s.held member
        | none => s.held member
      confirmed := confirmedAfter s call }

/-- The coordinator's current assignment of a member, if it is one. -/
def assigned (c : GroupCoordinator) (member : String × String) : Option (List PartitionAssignment) :=
  (c.groups.get member.1).bind fun g => (g.members.get member.2).map GroupMember.assignments

/-- The member's assignment or membership is not what its latest `JoinGroupSuccess` told it. -/
def Stale (s : ViewState) (member : String × String) : Prop :=
  ∃ held ∈ s.held member,
    (assigned s.group.coordinator member).map List.toFinset ≠ some held.toFinset

instance decidableStale (s : ViewState) (member : String × String) : Decidable (Stale s member) :=
  inferInstanceAs (Decidable (∃ held ∈ s.held member, _))

/-- Two confirmed members of a group hold no partition in common. -/
def ConfirmedDisjoint (s : ViewState) : Prop :=
  ∀ groupId id id', id ≠ id' → s.confirmed (groupId, id) = true →
    s.confirmed (groupId, id') = true → ∀ held ∈ s.held (groupId, id),
      ∀ held' ∈ s.held (groupId, id'), ∀ a ∈ held, a ∉ held'

/-- A stale member's heartbeat is answered by a request to rejoin, and after the call confirmed
members hold disjoint assignments. -/
def ViewsExclusive (s : ViewState) (call : GroupCall) (t : ViewState) : Prop :=
  (∀ now groupId memberId, call = .heartbeat now groupId memberId → Stale s (groupId, memberId) →
    ∃ error, (processHeartbeat now groupId memberId s.group.coordinator).1 =
      .heartbeatError error true) ∧
  ConfirmedDisjoint t

/-- The call is not a heartbeat of a stale member. -/
def NoStaleHeartbeat (s : ViewState) (call : GroupCall) (_ : ViewState) : Prop :=
  match call with
  | .heartbeat _ groupId memberId => ¬ Stale s (groupId, memberId)
  | _ => True

/-! ## The invariant -/

/-- A confirmed member of a group that still exists holds what the coordinator assigns it. -/
def ConfirmedFresh (s : ViewState) : Prop :=
  ∀ groupId g id, s.group.coordinator.groups.get groupId = some g →
    s.confirmed (groupId, id) = true → ¬ Stale s (groupId, id)

/-- What a run without stale heartbeats keeps. -/
structure ViewInvariant (s : ViewState) : Prop where
  owned : EveryGroupOwned s.group
  fresh : ConfirmedFresh s
  disjoint : ConfirmedDisjoint s

section Step

variable {overflowChecks : Bool} {s t : ViewState} {call : GroupCall}

theorem mem_of_not_stale {held : List PartitionAssignment} {member : String × String}
    (h : ¬ Stale s member) (hheld : s.held member = some held) :
    ∃ g m, s.group.coordinator.groups.get member.1 = some g ∧ g.members.get member.2 = some m ∧
      ∀ a ∈ held, a ∈ m.assignments := by
  have heq : (assigned s.group.coordinator member).map List.toFinset = some held.toFinset := by
    by_contra hne
    exact h ⟨held, hheld, hne⟩
  obtain ⟨current, hcurrent, hset⟩ := Option.map_eq_some_iff.1 heq
  obtain ⟨g, hg, hmember⟩ := Option.bind_eq_some_iff.1 hcurrent
  obtain ⟨m, hm, rfl⟩ := Option.map_eq_some_iff.1 hmember
  refine ⟨g, m, hg, hm, ?_⟩
  intro a ha
  rw [← List.mem_toFinset, hset, List.mem_toFinset]
  exact ha

/-- Fresh views of one group are disjoint, because the coordinator's assignments are. -/
theorem disjoint_of_fresh (howned : EveryGroupOwned s.group) {groupId id id' : String}
    (hne : id ≠ id') (h : ¬ Stale s (groupId, id)) (h' : ¬ Stale s (groupId, id'))
    {held held' : List PartitionAssignment} (hheld : s.held (groupId, id) = some held)
    (hheld' : s.held (groupId, id') = some held') : ∀ a ∈ held, a ∉ held' := by
  intro a ha ha'
  obtain ⟨g, m, hg, hm, hsub⟩ := mem_of_not_stale h hheld
  obtain ⟨g', m', hg', hm', hsub'⟩ := mem_of_not_stale h' hheld'
  simp only at hg hg' hm hm'
  rw [hg] at hg'
  cases hg'
  exact (howned groupId g hg).disjoint id id' m m' hm hm' hne a (hsub a ha) (hsub' a ha')

theorem assigned_of_sameMembers {c d : GroupCoordinator} {groupId : String} {g g' : ConsumerGroup}
    (hg : c.groups.get groupId = some g) (hg' : d.groups.get groupId = some g')
    (h : SameMembers g g') (id : String) : assigned d (groupId, id) = assigned c (groupId, id) := by
  unfold assigned
  simp only [hg, hg', Option.bind_some]
  have hid := congrArg (Option.map fun v => v.2.2) (h id)
  simp only [Option.map_map] at hid
  exact hid

theorem viewNext_group (hstep : viewNext overflowChecks s call = some t) :
    groupNext overflowChecks s.group call = some t.group := by
  obtain ⟨group, hgroup, rfl⟩ := Option.map_eq_some_iff.1 hstep
  exact hgroup

theorem viewNext_confirmed (hstep : viewNext overflowChecks s call = some t) :
    t.confirmed = confirmedAfter s call := by
  obtain ⟨group, -, rfl⟩ := Option.map_eq_some_iff.1 hstep
  rfl

/-- Only a member that joins is told anything new, and its group is rebalanced. -/
theorem viewNext_held (hstep : viewNext overflowChecks s call = some t) {member : String × String}
    (hreb : call.rebalances s.group.coordinator member.1 = false) :
    t.held member = s.held member := by
  obtain ⟨group, -, rfl⟩ := Option.map_eq_some_iff.1 hstep
  simp only
  cases htold : told overflowChecks s.group.coordinator call with
  | none => rfl
  | some joined =>
    obtain ⟨joined, assignments⟩ := joined
    simp only
    rw [if_neg]
    rintro rfl
    unfold told at htold
    split at htold
    · rename_i now uuid order groupId memberId topics
      split at htold
      · rename_i hresponse
        cases htold
        rw [processJoinGroup_group hresponse] at hreb
        simp [GroupCall.rebalances] at hreb
      · cases htold
    · cases htold

/-- A member that is confirmed after a call was so before, or the call is its heartbeat; its group
was not rebalanced. -/
theorem confirmed_cases (hstep : viewNext overflowChecks s call = some t)
    {member : String × String} (h : t.confirmed member = true) :
    call.rebalances s.group.coordinator member.1 = false ∧
      (s.confirmed member = true ∨ ∃ now g m, call = .heartbeat now member.1 member.2 ∧
        s.group.coordinator.groups.get member.1 = some g ∧ g.members.get member.2 = some m) := by
  rw [viewNext_confirmed hstep] at h
  unfold confirmedAfter at h
  split at h
  · rename_i now groupId memberId
    refine ⟨rfl, ?_⟩
    split at h
    · rename_i hmember
      subst hmember
      right
      obtain ⟨g, m, hg, hm⟩ := processHeartbeat_success (of_decide_eq_true h)
      exact ⟨now, g, m, rfl, hg, hm⟩
    · exact Or.inl h
  · obtain ⟨hreb, hconf⟩ := Bool.and_eq_true_iff.1 h
    exact ⟨by simpa using hreb, Or.inl hconf⟩

/-- A heartbeat leaves the groups that exist. -/
theorem heartbeat_groups (now : Nat) (groupId memberId : String) {c : GroupCoordinator}
    {id : String} {g : ConsumerGroup} (h : c.groups.get id = some g) :
    ∃ g', (c.heartbeat now groupId memberId).2.groups.get id = some g' := by
  unfold GroupCoordinator.heartbeat
  cases hg : c.groups.get groupId with
  | none => exact ⟨g, h⟩
  | some g0 =>
    simp only [Table.get_insert]
    split
    · exact ⟨_, rfl⟩
    · exact ⟨g, h⟩

theorem ViewInvariant.fresh_next (h : ViewInvariant s)
    (hstep : viewNext overflowChecks s call = some t) (hcond : NoStaleHeartbeat s call t) :
    ConfirmedFresh t := by
  intro groupId g' id hg' hconf
  obtain ⟨hreb, hwas⟩ := confirmed_cases hstep hconf
  have hown : ∀ g, s.group.coordinator.groups.get groupId = some g → OwnIds g := by
    intro g hg
    exact (h.owned groupId g hg).own_id
  rcases groupNext_cases hown (viewNext_group hstep) hg' with ⟨-, g, hg, hsame⟩ | ⟨hreb', -⟩
  · have hstale : ¬ Stale s (groupId, id) := by
      rcases hwas with hwas | ⟨now, -, -, rfl, -, -⟩
      · exact h.fresh groupId g id hg hwas
      · exact hcond
    unfold Stale at hstale ⊢
    rw [viewNext_held hstep hreb, assigned_of_sameMembers hg hg' hsame]
    exact hstale
  · rw [hreb] at hreb'
    cases hreb'

theorem ViewInvariant.disjoint_next (h : ViewInvariant s)
    (hstep : viewNext overflowChecks s call = some t) (hcond : NoStaleHeartbeat s call t) :
    ConfirmedDisjoint t := by
  intro groupId id id' hne hconf hconf' held hheld held' hheld'
  have howned : EveryGroupOwned t.group := h.owned.next (viewNext_group hstep)
  obtain ⟨hreb, hwas⟩ := confirmed_cases hstep hconf
  obtain ⟨-, hwas'⟩ := confirmed_cases hstep hconf'
  cases hg : t.group.coordinator.groups.get groupId with
  | some g =>
    have hfresh := h.fresh_next hstep hcond
    exact disjoint_of_fresh howned hne (hfresh groupId g id hg hconf)
      (hfresh groupId g id' hg hconf') hheld hheld'
  | none =>
    -- a group that is gone confirms nobody new
    have hold : ∀ i, (s.confirmed (groupId, i) = true ∨ ∃ now g m,
        call = .heartbeat now groupId i ∧ s.group.coordinator.groups.get groupId = some g ∧
          g.members.get i = some m) → s.confirmed (groupId, i) = true := by
      rintro i (hc | ⟨now, g, m, rfl, hgs, -⟩)
      · exact hc
      · have hgroup := viewNext_group hstep
        unfold groupNext at hgroup
        simp only [Option.ite_none_right_eq_some, Option.some.injEq] at hgroup
        obtain ⟨-, heq⟩ := hgroup
        obtain ⟨g', hg'⟩ := heartbeat_groups now groupId i hgs
        rw [← heq] at hg
        simp only [GroupCall.perform] at hg
        rw [hg'] at hg
        cases hg
    rw [viewNext_held hstep hreb] at hheld
    rw [viewNext_held hstep (show call.rebalances s.group.coordinator (groupId, id').1 = false
      from hreb)] at hheld'
    exact h.disjoint groupId id id' hne (hold id hwas) (hold id' hwas') held hheld held' hheld'

/-- **One call** keeps the views exclusive exactly when it is not a heartbeat of a stale member. -/
theorem ViewInvariant.exclusive_iff (h : ViewInvariant s)
    (hstep : viewNext overflowChecks s call = some t) :
    ViewsExclusive s call t ↔ NoStaleHeartbeat s call t := by
  constructor
  · rintro ⟨hrejoin, -⟩
    unfold NoStaleHeartbeat
    split
    · rename_i now groupId memberId
      intro hstale
      obtain ⟨error, herror⟩ := hrejoin now groupId memberId rfl hstale
      exact processHeartbeat_needsRejoin now groupId memberId _ error herror
    · trivial
  · intro hcond
    refine ⟨?_, h.disjoint_next hstep hcond⟩
    rintro now groupId memberId rfl hstale
    exact absurd hstale hcond

end Step

/-- **The members' views over a run**: every heartbeat of a member whose assignment has changed is
answered by a request to rejoin, and confirmed members never hold a partition in common, exactly
when no member whose assignment has changed sends a heartbeat. -/
theorem views_exclusive_iff (overflowChecks : Bool) (heartbeatTimeout : Nat)
    {tr : List (GroupCall × ViewState)}
    (hrun : Run (Steps (viewNext overflowChecks)) (ViewState.new heartbeatTimeout) tr) :
    EachStep ViewsExclusive (ViewState.new heartbeatTimeout) tr ↔
      EachStep NoStaleHeartbeat (ViewState.new heartbeatTimeout) tr := by
  have hinit : ViewInvariant (ViewState.new heartbeatTimeout) := by
    constructor
    · intro id g hget
      cases hget
    · intro groupId g id hget
      cases hget
    · intro groupId id id' _ hconf
      cases hconf
  refine eachStep_iff (I := ViewInvariant) ?_ ?_ hinit hrun
  · intro s call t h hstep hcond
    exact ⟨h.owned.next (viewNext_group hstep), h.fresh_next hstep hcond,
      h.disjoint_next hstep hcond⟩
  · intro s call t h hstep
    exact h.exclusive_iff hstep

/-- The first of two members sends a heartbeat after the second one took over some partitions. -/
def takeoverRun : List GroupCall :=
  [.updateTopicPartitions "orders" 2,
    .joinGroup 0 "1f0c" ⟨["orders"], ["a"]⟩ "g" (some "a") ["orders"],
    .joinGroup 1 "77aa" ⟨["orders"], ["a", "b"]⟩ "g" (some "b") ["orders"],
    .heartbeat 2 "g" "b", .heartbeat 3 "g" "a"]

theorem views_exclusive_iff_takeover :
    ∃ tr, trace (viewNext true) (ViewState.new 30) takeoverRun = some tr ∧
      (EachStep ViewsExclusive (ViewState.new 30) tr ↔
        EachStep NoStaleHeartbeat (ViewState.new 30) tr) := by
  obtain ⟨tr, htr⟩ := Option.isSome_iff_exists.1 (show (trace (viewNext true)
    (ViewState.new 30) takeoverRun).isSome = true by decide +kernel)
  exact ⟨tr, htr, views_exclusive_iff true 30 (run_of_trace htr)⟩

/-- Both heartbeats are answered by success, and both members hold partition 1 of the topic. -/
theorem views_overlap : ¬ ∀ tr : List (GroupCall × ViewState),
    Run (Steps (viewNext true)) (ViewState.new 30) tr →
    EachStep ViewsExclusive (ViewState.new 30) tr := by
  intro h
  obtain ⟨tr, htr, hbad⟩ := Option.map_eq_some_iff.1 (show (trace (viewNext true)
    (ViewState.new 30) takeoverRun).map (fun tr => decide (EachStep (fun _ _ t =>
      t.confirmed ("g", "a") = true → t.confirmed ("g", "b") = true →
        ∀ held ∈ t.held ("g", "a"), ∀ held' ∈ t.held ("g", "b"), ∀ a ∈ held, a ∉ held')
        (ViewState.new 30) tr)) = some false by decide +kernel)
  apply of_decide_eq_false hbad
  apply EachStep.mono _ (h tr (run_of_trace htr))
  intro s call t hexcl
  exact hexcl.2 "g" "a" "b" (by decide)

end Gaffa
