import Gaffa.Broker.Ownership

/-!
# What a heartbeat check does to every group

`broker/src/coordinator.rs`.  `check_heartbeats` removes the dead members of every group, rebalances
the groups it took members from, and drops the groups that are left without members.

* `evicted_of_checkHeartbeats`: what becomes of one group.
* `check_heartbeats_evicts`: what becomes of every group of a reachable coordinator, and when the
  check returns.
-/

set_option autoImplicit false

namespace Gaffa

open Transition ConsumerGroup

/-- The last heartbeat is not older than the timeout. -/
def Alive (now timeout : Nat) (m : GroupMember) : Prop := now - m.lastHeartbeat ≤ timeout

instance decidableAlive (now timeout : Nat) (m : GroupMember) : Decidable (Alive now timeout m) :=
  inferInstanceAs (Decidable (now - m.lastHeartbeat ≤ timeout))

/-- Some member of the group is dead. -/
def LosesMember (now timeout : Nat) (g : ConsumerGroup) : Prop :=
  ∃ id m, g.members.get id = some m ∧ ¬Alive now timeout m

/-- What a heartbeat check makes of the group `g`. -/
structure Evicted (now timeout : Nat) (counts : Table String Nat) (g : ConsumerGroup)
    (after : Option ConsumerGroup) : Prop where
  gone : after = none ↔ ∀ id m, g.members.get id = some m → ¬Alive now timeout m
  unchanged : (∀ id m, g.members.get id = some m → Alive now timeout m) → after = some g
  survivors : ∀ g' ∈ after, ∀ id, (∃ m', g'.members.get id = some m') ↔
    ∃ m, g.members.get id = some m ∧ Alive now timeout m
  kept : ∀ g' ∈ after, ∀ id m', g'.members.get id = some m' → ∃ m, g.members.get id = some m ∧
    m' = { m with assignments := m'.assignments }
  generation : ∀ g' ∈ after, LosesMember now timeout g →
    g'.generation = (g.generation + 1) % 2 ^ 32 ∧
      (g.generation + 1 < 2 ^ 32 → g'.generation = g.generation + 1)
  reassigned : ∀ g' ∈ after, LosesMember now timeout g →
    ∀ a, Subscribed g' a.topic → Known counts a →
      ∃! id, ∃ m, g'.members.get id = some m ∧ a ∈ m.assignments

section Evict

variable {now timeout : Nat} {g : ConsumerGroup}

theorem isDead_iff {m : GroupMember} : isDead now timeout m = true ↔ ¬Alive now timeout m := by
  simp only [isDead, Alive, decide_eq_true_eq, Nat.not_le]

theorem mem_getDeadMembers {id : String} :
    id ∈ g.getDeadMembers now timeout ↔
      ∃ m, g.members.get id = some m ∧ ¬Alive now timeout m := by
  unfold getDeadMembers
  rw [Finset.mem_filter, Option.any_eq_true, Table.mem_keys_iff]
  constructor
  · rintro ⟨-, m, hm, hdead⟩
    exact ⟨m, hm, isDead_iff.1 hdead⟩
  · rintro ⟨m, hm, hdead⟩
    exact ⟨⟨m, hm⟩, m, hm, isDead_iff.2 hdead⟩

theorem getDeadMembers_ne_empty_iff :
    g.getDeadMembers now timeout ≠ ∅ ↔ LosesMember now timeout g := by
  rw [← Finset.nonempty_iff_ne_empty]
  unfold Finset.Nonempty LosesMember
  simp only [mem_getDeadMembers]

/-- The members that stay. -/
theorem get_evict {id : String} {m : GroupMember} :
    (GroupCoordinator.evict now timeout g).members.get id = some m ↔
      g.members.get id = some m ∧ Alive now timeout m := by
  unfold GroupCoordinator.evict
  simp only [Table.get_retain, Option.filter_eq_some_iff, decide_eq_true_eq, mem_getDeadMembers]
  constructor
  · rintro ⟨hm, hstays⟩
    refine ⟨hm, ?_⟩
    by_contra hdead
    exact hstays ⟨m, hm, hdead⟩
  · rintro ⟨hm, halive⟩
    refine ⟨hm, ?_⟩
    rintro ⟨m', hm', hdead⟩
    rw [hm, Option.some.injEq] at hm'
    exact hdead (hm' ▸ halive)

theorem isEmpty_evict : (GroupCoordinator.evict now timeout g).members.isEmpty = true ↔
    ∀ id m, g.members.get id = some m → ¬Alive now timeout m := by
  rw [Table.isEmpty_iff]
  constructor
  · intro h id m hm halive
    have hnone := h id
    rw [get_evict.2 ⟨hm, halive⟩] at hnone
    cases hnone
  · intro h id
    by_contra hsome
    obtain ⟨m, hm⟩ := Option.ne_none_iff_exists'.1 hsome
    obtain ⟨hm, halive⟩ := get_evict.1 hm
    exact h id m hm halive

theorem not_losesMember_iff :
    ¬LosesMember now timeout g ↔ ∀ id m, g.members.get id = some m → Alive now timeout m := by
  simp [LosesMember]

end Evict

/-! ## The three things that can become of a group -/

section Group

variable {overflowChecks : Bool} {now timeout : Nat} {counts : Table String Nat}
  {order : IterationOrder} {g : ConsumerGroup}

theorem evicted_none (hne : ∃ id m, g.members.get id = some m)
    (hdead : ∀ id m, g.members.get id = some m → ¬Alive now timeout m) :
    Evicted now timeout counts g none := by
  obtain ⟨id, m, hm⟩ := hne
  constructor
  · exact iff_of_true rfl hdead
  · intro halive
    exact absurd (halive id m hm) (hdead id m hm)
  all_goals
    intro g' hg'
    cases hg'

theorem evicted_same (hne : ∃ id m, g.members.get id = some m)
    (halive : ∀ id m, g.members.get id = some m → Alive now timeout m) :
    Evicted now timeout counts g (some g) := by
  obtain ⟨id, m, hm⟩ := hne
  constructor
  · refine iff_of_false (fun h => by cases h) ?_
    intro hdead
    exact hdead id m hm (halive id m hm)
  · intro _
    rfl
  · rintro g' ⟨⟩ id
    constructor
    · rintro ⟨m, hm⟩
      exact ⟨m, hm, halive id m hm⟩
    · rintro ⟨m, hm, -⟩
      exact ⟨m, hm⟩
  · rintro g' ⟨⟩ id m hm
    exact ⟨m, hm, rfl⟩
  · rintro g' - hloses
    exact absurd halive (not_losesMember_iff.not_right.1 hloses)
  · rintro g' - hloses
    exact absurd halive (not_losesMember_iff.not_right.1 hloses)

/-- A group that lost members, after its rebalance. -/
theorem evicted_rebalanced (hown : OwnIds g) (hloses : LosesMember now timeout g)
    (hsome : (GroupCoordinator.evict now timeout g).members.isEmpty = false)
    (horder : (GroupCoordinator.evict now timeout g).Iterates order)
    (hok : ((GroupCoordinator.evict now timeout g).rebalance overflowChecks counts order).1 =
      .ok ()) :
    Evicted now timeout counts g
      (some ((GroupCoordinator.evict now timeout g).rebalance overflowChecks counts order).2) := by
  have hne := Table.isEmpty_eq_false_iff.1 hsome
  have hexact := exactlyOnce_rebalance horder hok hne (ownIds_evict hown now timeout)
  have hspec := rebalance_spec horder hok
  constructor
  · refine iff_of_false (fun h => by cases h) ?_
    intro hdead
    rw [isEmpty_evict.2 hdead] at hsome
    cases hsome
  · intro halive
    exact absurd hloses (not_losesMember_iff.2 halive)
  · rintro g' ⟨⟩ id
    simp only [hspec, Option.map_eq_some_iff, get_evict]
    constructor
    · rintro ⟨-, m, hm, -⟩
      exact ⟨m, hm⟩
    · rintro ⟨m, hm⟩
      exact ⟨_, m, hm, rfl⟩
  · rintro g' ⟨⟩ id m' hm'
    rw [hspec, Option.map_eq_some_iff] at hm'
    obtain ⟨m, hm, rfl⟩ := hm'
    exact ⟨m, (get_evict.1 hm).1, rfl⟩
  · rintro g' ⟨⟩ -
    obtain ⟨generation, hadd⟩ := rebalance_ok_iff.1 hok
    rw [generation_rebalance hadd]
    have hmod : generation = (g.generation + 1) % 2 ^ 32 := addWith_ok_mod hadd
    exact ⟨hmod, fun hlt => hmod.trans (Nat.mod_eq_of_lt hlt)⟩
  · rintro g' ⟨⟩ - a hsub hknown
    obtain ⟨id, m, hm, ha⟩ := (hexact.cover a).2 ⟨hsub, hknown⟩
    refine ⟨id, ⟨m, hm, ha⟩, ?_⟩
    rintro id' ⟨m', hm', ha'⟩
    by_contra hid
    exact hexact.disjoint id' id m' m hm' hm hid a ha' ha

end Group

section Check

variable {overflowChecks : Bool} {now : String → Nat} {order : List String}
  {orders : String → IterationOrder} {c : GroupCoordinator} {id : String} {g : ConsumerGroup}

/-- **What becomes of a group** in a check that returns. -/
theorem evicted_of_checkHeartbeats
    (hiter : (GroupCall.checkHeartbeats now order orders).Iterates c)
    (hok : (c.checkHeartbeats overflowChecks now order orders).1 = .ok ())
    (hg : c.groups.get id = some g) (hne : ∃ id m, g.members.get id = some m) (hown : OwnIds g) :
    Evicted (now id) c.heartbeatTimeout c.topicPartitions g
      ((c.checkHeartbeats overflowChecks now order orders).2.groups.get id) := by
  rw [GroupCoordinator.get_checkHeartbeats hiter.1 hiter.2 hok, hg, Option.bind_some]
  split
  · rename_i hempty
    exact evicted_none hne (isEmpty_evict.1 hempty)
  · rename_i hsome
    have hsome' := Bool.eq_false_of_not_eq_true hsome
    split
    · rename_i hdead
      apply evicted_same hne
      rw [← not_losesMember_iff, ← getDeadMembers_ne_empty_iff, not_not]
      exact hdead
    · rename_i hdead
      exact evicted_rebalanced hown (getDeadMembers_ne_empty_iff.1 hdead) hsome'
        (hiter.2 id (hiter.1.mem_iff.2 ⟨g, hg⟩) g hg)
        (GroupCoordinator.rebalance_of_checkHeartbeats_ok hiter.1 hok hg hdead hsome')

end Check

/-- **A heartbeat check evicts exactly the dead**, in every reachable state and for every reading of
the clock and order of iteration: it returns unless a build that checks for overflow meets a group
that loses some of its members and cannot raise its generation, and then `Evicted` says what becomes
of every group. -/
theorem check_heartbeats_evicts (overflowChecks : Bool) (heartbeatTimeout : Nat)
    {tr : List (GroupCall × GroupState)}
    (hrun : Run (Steps (groupNext overflowChecks)) (GroupState.new heartbeatTimeout) tr)
    {c : GroupCoordinator} (hc : c = (last (GroupState.new heartbeatTimeout) tr).coordinator)
    {now : String → Nat} {order : List String} {orders : String → IterationOrder}
    (hiter : (GroupCall.checkHeartbeats now order orders).Iterates c) :
    ((∀ id g, c.groups.get id = some g → LosesMember (now id) c.heartbeatTimeout g →
        (∃ id' m, g.members.get id' = some m ∧ Alive (now id) c.heartbeatTimeout m) →
        overflowChecks = true → g.generation + 1 < 2 ^ 32) →
      (c.checkHeartbeats overflowChecks now order orders).1 = .ok ()) ∧
    ((c.checkHeartbeats overflowChecks now order orders).1 = .ok () → ∀ id,
      (∀ g', (c.checkHeartbeats overflowChecks now order orders).2.groups.get id = some g' →
        ∃ g, c.groups.get id = some g) ∧
      ∀ g, c.groups.get id = some g →
        Evicted (now id) c.heartbeatTimeout c.topicPartitions g
          ((c.checkHeartbeats overflowChecks now order orders).2.groups.get id)) := by
  have howned := (everyGroupOwned_throughout hrun).at_last
  rw [EveryGroupOwned, ← hc] at howned
  constructor
  · intro hfits
    apply GroupCoordinator.checkHeartbeats_ok hiter.1
    intro id g hg hdead hsome
    obtain ⟨id', m, hm⟩ := Table.isEmpty_eq_false_iff.1 hsome
    apply rebalance_ok_iff.2
    rcases addWith_cases overflowChecks 32 g.generation 1 with
      ⟨-, hadd⟩ | ⟨hle, hchecks, -⟩ | ⟨-, -, hadd⟩
    · exact ⟨_, hadd⟩
    · have hlt := hfits id g hg (getDeadMembers_ne_empty_iff.1 hdead) ⟨id', m, get_evict.1 hm⟩
        hchecks
      omega
    · exact ⟨_, hadd⟩
  · intro hok id
    constructor
    · intro g' hg'
      rw [GroupCoordinator.get_checkHeartbeats hiter.1 hiter.2 hok] at hg'
      obtain ⟨g, hg, -⟩ := Option.bind_eq_some_iff.1 hg'
      exact ⟨g, hg⟩
    · intro g hg
      have hexact := howned id g hg
      exact evicted_of_checkHeartbeats hiter hok hg hexact.nonempty hexact.own_id

/-- Two members in the group `g`, one of which sends a heartbeat, and one in the group `h`. -/
def twoGroups : List GroupCall :=
  [.updateTopicPartitions "orders" 3,
    .joinGroup 0 "1f0c" ⟨["orders"], ["a"]⟩ "g" (some "a") ["orders"],
    .joinGroup 20 "77aa" ⟨["orders"], ["b", "a"]⟩ "g" (some "b") ["orders"],
    .joinGroup 21 "05ee" ⟨["orders"], ["c"]⟩ "h" (some "c") ["orders"],
    .heartbeat 25 "g" "a"]

/-- The orders of a check that leaves only the member `a`. -/
def leftOrders (id : String) : IterationOrder :=
  if id = "g" then ⟨["orders"], ["a"]⟩ else ⟨[], []⟩

theorem check_heartbeats_evicts_two :
    ∃ tr c g, trace (groupNext true) (GroupState.new 30) twoGroups = some tr ∧
      c = (last (GroupState.new 30) tr).coordinator ∧ c.groups.get "g" = some g ∧
      LosesMember 52 c.heartbeatTimeout g ∧ Evicted 52 c.heartbeatTimeout c.topicPartitions g
        ((c.checkHeartbeats true (fun _ => 52) ["h", "g"] leftOrders).2.groups.get "g") := by
  obtain ⟨tr, htr, hsome⟩ := Option.map_eq_some_iff.1
    (show (trace (groupNext true) (GroupState.new 30) twoGroups).map (fun tr =>
        let c := (last (GroupState.new 30) tr).coordinator
        decide ((GroupCall.checkHeartbeats (fun _ => 52) ["h", "g"] leftOrders).Iterates c) &&
          !panicked (c.checkHeartbeats true (fun _ => 52) ["h", "g"] leftOrders).1 &&
          (c.groups.get "g").any fun g =>
            (g.members.get "b").any fun m => !decide (Alive 52 c.heartbeatTimeout m)) =
      some true by decide +kernel)
  simp only [Bool.and_eq_true, decide_eq_true_eq, Bool.not_eq_true', Option.any_eq_true,
    decide_eq_false_iff_not] at hsome
  obtain ⟨⟨hiter, hret⟩, g, hg, m, hm, hdead⟩ := hsome
  have hok := GroupCoordinator.checkHeartbeats_ok_of_not_panicked hiter.1 hret
  have hall := (check_heartbeats_evicts true 30 (run_of_trace htr) rfl hiter).2 hok "g"
  exact ⟨tr, _, g, htr, rfl, hg, ⟨"b", m, hm, hdead⟩, hall.2 g hg⟩

end Gaffa
