import Gaffa.Broker.FailedBroker

/-!
# Failures of several brokers

What `handle_broker_failure` of `broker/src/cluster.rs`, called for one broker after the other,
does to one partition.  An election asks neither whether the broker that it takes is alive, nor
whether it is about to be reported as failed itself.

* `failureStep_iff`: one failure, whatever member of the ISR an election meets first.
* `liveInAnyOrder_iff`: whatever the order of the failures, the partition is left with an alive
  leader if it can be, after at most one election, exactly when the members of its ISR and its first
  replica allow it.
-/

set_option autoImplicit false

namespace Gaffa

open PartitionReplicaState ClusterMetadata

/-- The broker that an election after a failure can take: a member of the ISR, or the first replica
if there is none. -/
structure Eligible (failed : BrokerId) (s : PartitionReplicaState) (b : BrokerId) : Prop where
  isr : s.isr.erase failed ≠ ∅ → b ∈ s.isr.erase failed
  fallback : s.isr.erase failed = ∅ → s.replicas.head? = some b

/-- What the failure of a broker leaves of a partition, nothing if the election panics. -/
inductive FailureStep (overflowChecks : Bool) (failed : BrokerId) (s : PartitionReplicaState) :
    Option PartitionReplicaState → Prop
  | stays (hlead : s.leader ≠ failed) :
      FailureStep overflowChecks failed s (some { s with isr := s.isr.erase failed })
  | orphans (hlead : s.leader = failed) (hisr : s.isr.erase failed = ∅) (hrep : s.replicas = []) :
      FailureStep overflowChecks failed s (some { s with isr := s.isr.erase failed })
  | elects {b : BrokerId} {epoch : Nat} (hlead : s.leader = failed) (hb : Eligible failed s b)
      (hadd : addWith overflowChecks 32 s.leaderEpoch 1 = .ok epoch) :
      FailureStep overflowChecks failed s
        (some { s with isr := insert b (s.isr.erase failed), leader := b, leaderEpoch := epoch })
  | panics {e : Fault} {b : BrokerId} (hlead : s.leader = failed) (hb : Eligible failed s b)
      (hadd : addWith overflowChecks 32 s.leaderEpoch 1 = .error e) :
      FailureStep overflowChecks failed s none

/-- What the failures of some brokers leave of a partition; a panic ends them. -/
inductive Failures (overflowChecks : Bool) :
    List BrokerId → PartitionReplicaState → Option PartitionReplicaState → Prop
  | done {s : PartitionReplicaState} : Failures overflowChecks [] s (some s)
  | step {failed : BrokerId} {rest : List BrokerId} {s t : PartitionReplicaState}
      {left : Option PartitionReplicaState} (hstep : FailureStep overflowChecks failed s (some t))
      (hrest : Failures overflowChecks rest t left) :
      Failures overflowChecks (failed :: rest) s left
  | stop {failed : BrokerId} {rest : List BrokerId} {s : PartitionReplicaState}
      (hstep : FailureStep overflowChecks failed s none) :
      Failures overflowChecks (failed :: rest) s none

/-! ## One failure -/

section Step

variable {overflowChecks : Bool} {failed b : BrokerId} {s t : PartitionReplicaState}

theorem eligible_of_mem (hb : b ∈ s.isr.erase failed) : Eligible failed s b :=
  ⟨fun _ => hb, fun hempty => absurd hempty (Finset.ne_empty_of_mem hb)⟩

theorem eligible_of_head (hisr : s.isr.erase failed = ∅) (hhead : s.replicas.head? = some b) :
    Eligible failed s b :=
  ⟨fun hne => absurd hisr hne, fun _ => hhead⟩

/-- Some broker can be taken, if there is any. -/
theorem exists_eligible (failed : BrokerId) (s : PartitionReplicaState) :
    (∃ b, Eligible failed s b) ∨ (s.isr.erase failed = ∅ ∧ s.replicas = []) := by
  by_cases hisr : s.isr.erase failed = ∅
  · cases hrep : s.replicas with
    | nil => exact Or.inr ⟨hisr, rfl⟩
    | cons b bs => exact Or.inl ⟨b, eligible_of_head hisr (by rw [hrep]; rfl)⟩
  · obtain ⟨b, hb⟩ := Finset.nonempty_iff_ne_empty.2 hisr
    exact Or.inl ⟨b, eligible_of_mem hb⟩

theorem Eligible.not_orphan (h : Eligible failed s b) :
    ¬ (s.isr.erase failed = ∅ ∧ s.replicas = []) := by
  rintro ⟨hisr, hrep⟩
  have hhead := h.fallback hisr
  rw [hrep] at hhead
  cases hhead

/-- **One failure** does what the loop's body does, with some member of the ISR met first. -/
theorem failureStep_iff {left : Option PartitionReplicaState} :
    FailureStep overflowChecks failed s left ↔
      ∃ first, (s.isr.erase failed ≠ ∅ → first ∈ s.isr.erase failed) ∧
        ((∃ leader t, failover overflowChecks failed first s = (.ok leader, t) ∧ left = some t) ∨
          ∃ e t, failover overflowChecks failed first s = (.error e, t) ∧ left = none) := by
  constructor
  · rintro (hlead | ⟨hlead, hisr, hrep⟩ | ⟨hlead, hb, hadd⟩ | ⟨hlead, hb, hadd⟩)
    · obtain ⟨first, hfirst⟩ := exists_first failed s
      exact ⟨first, hfirst, Or.inl ⟨none, _, if_neg hlead, rfl⟩⟩
    · refine ⟨0, fun hne => absurd hisr hne, Or.inl ⟨none, _, ?_, rfl⟩⟩
      rcases failover_cases overflowChecks failed 0 s with ⟨hne, -⟩ | ⟨-, -, -, heq⟩ |
        ⟨e, r, -, -, hhead, -⟩ | ⟨r, epoch, -, -, hhead, -, -⟩ | ⟨epoch, -, hne, -, -⟩
      · exact absurd hlead hne
      · exact heq
      · have hhead := hhead hisr
        rw [hrep] at hhead
        cases hhead
      · rw [hrep] at hhead
        cases hhead
      · exact absurd hisr hne
    · rename_i b epoch
      refine ⟨b, hb.isr, Or.inl ⟨some b, _, ?_, rfl⟩⟩
      rcases failover_cases overflowChecks failed b s with ⟨hne, -⟩ | ⟨-, hisr, hrep, -⟩ |
        ⟨e, r, -, herr, -, -⟩ | ⟨r, epoch', -, hisr, hhead, hok, heq⟩ | ⟨epoch', -, hne, hok, heq⟩
      · exact absurd hlead hne
      · exact absurd ⟨hisr, hrep⟩ hb.not_orphan
      · rw [hadd] at herr
        cases herr
      · obtain rfl := Option.some_inj.1 ((hb.fallback hisr).symm.trans hhead)
        obtain rfl := Except.ok.inj (hadd.symm.trans hok)
        exact heq
      · obtain rfl := Except.ok.inj (hadd.symm.trans hok)
        rw [Finset.insert_eq_of_mem (hb.isr hne)]
        exact heq
    · rename_i e b
      have hpanics : electionPanics overflowChecks failed s = true := by
        have hsome := not_and_or.1 hb.not_orphan
        simp [electionPanics, hlead, hadd, hsome, Except.isOk, Except.toBool]
      obtain ⟨e', he'⟩ := (failover_error_iff overflowChecks failed b s).2 hpanics
      exact ⟨b, hb.isr, Or.inr ⟨e', _, Prod.ext he' rfl, rfl⟩⟩
  · rintro ⟨first, hfirst, ⟨leader, t, hbody, rfl⟩ | ⟨e, t, hbody, rfl⟩⟩
    · rcases failover_cases overflowChecks failed first s with ⟨hlead, heq⟩ |
        ⟨hlead, hisr, hrep, heq⟩ | ⟨e, r, -, -, -, heq⟩ | ⟨r, epoch, hlead, hisr, hhead, hadd, heq⟩ |
        ⟨epoch, hlead, hisr, hadd, heq⟩
      · obtain rfl := (Prod.mk.inj (hbody.symm.trans heq)).2
        exact .stays hlead
      · obtain rfl := (Prod.mk.inj (hbody.symm.trans heq)).2
        exact .orphans hlead hisr hrep
      · cases (Prod.mk.inj (hbody.symm.trans heq)).1
      · obtain rfl := (Prod.mk.inj (hbody.symm.trans heq)).2
        exact .elects hlead (eligible_of_head hisr hhead) hadd
      · obtain rfl := (Prod.mk.inj (hbody.symm.trans heq)).2
        have helects := FailureStep.elects hlead (eligible_of_mem (hfirst hisr)) hadd
        rw [Finset.insert_eq_of_mem (hfirst hisr)] at helects
        exact helects
    · rcases failover_cases overflowChecks failed first s with ⟨-, heq⟩ | ⟨-, -, -, heq⟩ |
        ⟨e', r, hlead, hadd, hhead, heq⟩ | ⟨r, epoch, -, -, -, -, heq⟩ | ⟨epoch, -, -, -, heq⟩
      · cases (Prod.mk.inj (hbody.symm.trans heq)).1
      · cases (Prod.mk.inj (hbody.symm.trans heq)).1
      · by_cases hisr : s.isr.erase failed = ∅
        · exact .panics hlead (eligible_of_head hisr (hhead hisr)) hadd
        · exact .panics hlead (eligible_of_mem (hfirst hisr)) hadd
      · cases (Prod.mk.inj (hbody.symm.trans heq)).1
      · cases (Prod.mk.inj (hbody.symm.trans heq)).1

/-- Something is left of every partition. -/
theorem exists_failureStep (overflowChecks : Bool) (failed : BrokerId)
    (s : PartitionReplicaState) : ∃ left, FailureStep overflowChecks failed s left := by
  by_cases hlead : s.leader = failed
  · rcases exists_eligible failed s with ⟨b, hb⟩ | ⟨hisr, hrep⟩
    · rcases addWith_ok_or_panicked overflowChecks 32 s.leaderEpoch 1 with ⟨epoch, hadd⟩ |
        ⟨message, hadd⟩
      · exact ⟨_, .elects hlead hb hadd⟩
      · exact ⟨_, .panics hlead hb hadd⟩
    · exact ⟨_, .orphans hlead hisr hrep⟩
  · exact ⟨_, .stays hlead⟩

/-- An election of a broker that can be taken, or a panic. -/
theorem Eligible.step (overflowChecks : Bool) (hlead : s.leader = failed)
    (hb : Eligible failed s b) : FailureStep overflowChecks failed s none ∨
      FailureStep overflowChecks failed s (some { s with
        isr := insert b (s.isr.erase failed)
        leader := b
        leaderEpoch := (s.leaderEpoch + 1) % 2 ^ 32 }) := by
  rcases addWith_ok_or_panicked overflowChecks 32 s.leaderEpoch 1 with ⟨epoch, hadd⟩ |
    ⟨message, hadd⟩
  · rw [← addWith_ok_mod hadd]
    exact Or.inr (.elects hlead hb hadd)
  · exact Or.inl (.panics hlead hb hadd)

end Step

/-! ## Several failures -/

section Run

variable {overflowChecks : Bool} {d b : BrokerId} {xs ys : List BrokerId}
  {s t : PartitionReplicaState} {left : Option PartitionReplicaState}

theorem exists_failures (overflowChecks : Bool) (xs : List BrokerId)
    (s : PartitionReplicaState) : ∃ left, Failures overflowChecks xs s left := by
  induction xs generalizing s with
  | nil => exact ⟨_, .done⟩
  | cons x xs ih =>
    obtain ⟨left, hstep⟩ := exists_failureStep overflowChecks x s
    cases left with
    | none => exact ⟨none, .stop hstep⟩
    | some t =>
      obtain ⟨left, hrest⟩ := ih t
      exact ⟨left, .step hstep hrest⟩

theorem Failures.append (h : Failures overflowChecks xs s (some t))
    (hrest : Failures overflowChecks ys t left) : Failures overflowChecks (xs ++ ys) s left := by
  induction xs generalizing s with
  | nil =>
    cases h
    exact hrest
  | cons x xs ih =>
    cases h with
    | step hstep h => exact .step hstep (ih h)

theorem Failures.append_none (h : Failures overflowChecks xs s none) (ys : List BrokerId) :
    Failures overflowChecks (xs ++ ys) s none := by
  induction xs generalizing s with
  | nil => cases h
  | cons x xs ih =>
    cases h with
    | step hstep h => exact .step hstep (ih h)
    | stop hstep => exact .stop hstep

theorem Failures.split (h : Failures overflowChecks (xs ++ ys) s left) :
    (∃ t, Failures overflowChecks xs s (some t) ∧ Failures overflowChecks ys t left) ∨
      Failures overflowChecks xs s none := by
  induction xs generalizing s with
  | nil => exact Or.inl ⟨s, .done, h⟩
  | cons x xs ih =>
    cases h with
    | step hstep h =>
      rcases ih h with ⟨t, hxs, hys⟩ | hnone
      · exact Or.inl ⟨t, .step hstep hxs, hys⟩
      · exact Or.inr (.step hstep hnone)
    | stop hstep => exact Or.inr (.stop hstep)

theorem erase_sdiff (isr : Finset BrokerId) (x : BrokerId) (xs : List BrokerId) :
    isr.erase x \ xs.toFinset = isr \ (x :: xs).toFinset := by
  ext b
  simp only [Finset.mem_sdiff, Finset.mem_erase, List.mem_toFinset, List.mem_cons, not_or]
  constructor
  · rintro ⟨⟨hne, hb⟩, hxs⟩
    exact ⟨hb, hne, hxs⟩
  · rintro ⟨hb, hne, hxs⟩
    exact ⟨⟨hne, hb⟩, hxs⟩

/-- **Failures of others** than the leader only shrink the ISR. -/
theorem Failures.of_not_mem (h : Failures overflowChecks xs s left) (hlead : s.leader ∉ xs) :
    left = some { s with isr := s.isr \ xs.toFinset } := by
  induction xs generalizing s with
  | nil =>
    cases h
    rw [List.toFinset_nil, Finset.sdiff_empty]
  | cons x xs ih =>
    obtain ⟨hne, hrest⟩ : s.leader ≠ x ∧ s.leader ∉ xs := by
      simpa only [List.mem_cons, not_or] using hlead
    cases h with
    | step hstep h =>
      cases hstep with
      | stays _ =>
        rw [ih h hrest]
        simp only [erase_sdiff]
      | orphans heq _ _ => exact absurd heq hne
      | elects heq _ _ => exact absurd heq hne
    | stop hstep =>
      cases hstep with
      | panics heq _ _ => exact absurd heq hne

/-- Up to the first failure of the leader, only the ISR shrinks. -/
theorem Failures.of_leader (h : Failures overflowChecks xs s left) (hlead : s.leader ∈ xs) :
    ∃ before after, xs = before ++ s.leader :: after ∧
      Failures overflowChecks (s.leader :: after)
        { s with isr := s.isr \ before.toFinset } left := by
  obtain ⟨before, after, rfl, hbefore⟩ := List.eq_append_cons_of_mem hlead
  refine ⟨before, after, rfl, ?_⟩
  rcases h.split with ⟨t, hpre, hpost⟩ | hnone
  · obtain rfl := Option.some_inj.1 (hpre.of_not_mem hbefore)
    exact hpost
  · cases hnone.of_not_mem hbefore

/-- A leader that is alone in the ISR stays alone when a broker leaves it. -/
theorem erase_leader_eq_empty (h : s.isr.erase s.leader = ∅) (x : BrokerId) :
    (s.isr.erase x).erase s.leader = ∅ := by
  rw [Finset.erase_right_comm, h, Finset.erase_empty]

/-- A leader without another replica stays when it fails. -/
theorem Failures.of_orphan (h : Failures overflowChecks xs s left)
    (hisr : s.isr.erase s.leader = ∅) (hrep : s.replicas = []) :
    ∃ t, left = some t ∧ t.leader = s.leader ∧ t.leaderEpoch = s.leaderEpoch ∧
      t.isr ⊆ s.isr := by
  induction xs generalizing s with
  | nil =>
    cases h
    exact ⟨s, rfl, rfl, rfl, Finset.Subset.refl _⟩
  | cons x xs ih =>
    have hshrunk := erase_leader_eq_empty hisr x
    cases h with
    | step hstep h =>
      cases hstep with
      | stays hne =>
        obtain ⟨t, rfl, hlead, hepoch, hsub⟩ := ih h hshrunk hrep
        exact ⟨t, rfl, hlead, hepoch, hsub.trans (Finset.erase_subset ..)⟩
      | orphans _ _ _ =>
        obtain ⟨t, rfl, hlead, hepoch, hsub⟩ := ih h hshrunk hrep
        exact ⟨t, rfl, hlead, hepoch, hsub.trans (Finset.erase_subset ..)⟩
      | elects heq hb _ => exact absurd ⟨heq ▸ hisr, hrep⟩ hb.not_orphan
    | stop hstep =>
      cases hstep with
      | panics heq hb _ => exact absurd ⟨heq ▸ hisr, hrep⟩ hb.not_orphan

/-- The epoch, counted up some times. -/
def countUp (overflowChecks : Bool) : Nat → Nat → Except Fault Nat
  | 0, epoch => .ok epoch
  | n + 1, epoch =>
    match addWith overflowChecks 32 epoch 1 with
    | .error e => .error e
    | .ok epoch => countUp overflowChecks n epoch

/-- A leader that is the first replica and alone in the ISR is elected again each time it fails. -/
theorem Failures.of_alone (h : Failures overflowChecks xs s left)
    (hisr : s.isr.erase s.leader = ∅) (hhead : s.replicas.head? = some s.leader) :
    (∃ t, left = some t ∧ t.leader = s.leader ∧ t.isr.erase s.leader = ∅ ∧
        countUp overflowChecks (xs.count s.leader) s.leaderEpoch = .ok t.leaderEpoch) ∨
      (left = none ∧ ∃ e, countUp overflowChecks (xs.count s.leader) s.leaderEpoch = .error e) := by
  induction xs generalizing s with
  | nil =>
    cases h
    exact Or.inl ⟨s, rfl, rfl, hisr, rfl⟩
  | cons x xs ih =>
    have hshrunk := erase_leader_eq_empty hisr x
    cases h with
    | step hstep h =>
      cases hstep with
      | stays hne =>
        rw [List.count_cons_of_ne (Ne.symm hne)]
        have hrest := ih h hshrunk hhead
        exact hrest
      | orphans _ _ hrep =>
        rw [hrep] at hhead
        cases hhead
      | elects heq hb hadd =>
        subst heq
        obtain rfl := Option.some_inj.1 ((hb.fallback hisr).symm.trans hhead)
        rw [List.count_cons_self, countUp, hadd]
        exact ih h (by simp [hisr]) hhead
    | stop hstep =>
      cases hstep with
      | panics heq hb hadd =>
        subst heq
        rw [List.count_cons_self, countUp, hadd]
        exact Or.inr ⟨rfl, _, rfl⟩

end Run

/-! ## At most one election -/

/-- The failures end, the partition has an alive leader if there is an alive broker in the ISR, and
its epoch is at most one higher. -/
def LiveLeader (alive : List BrokerId) (s : PartitionReplicaState)
    (left : Option PartitionReplicaState) : Prop :=
  ∃ t, left = some t ∧ ((∃ b ∈ t.isr, b ∈ alive) → t.leader ∈ alive) ∧
    (t.leaderEpoch = s.leaderEpoch ∨ t.leaderEpoch = (s.leaderEpoch + 1) % 2 ^ 32)

/-- The epoch, counted up `n` times, is at most one higher. -/
def RisesOnce (overflowChecks : Bool) (n epoch : Nat) : Prop :=
  ∃ epoch', countUp overflowChecks n epoch = .ok epoch' ∧
    (epoch' = epoch ∨ epoch' = (epoch + 1) % 2 ^ 32)

/-- What makes one election enough for a partition whose leader fails with the others: the epoch can
be counted up; a dead member of the ISR does not fail as well, unless it is the only one and there
are no replicas, and if it does not then no member is alive; a dead first replica that is elected
because the ISR is empty does not fail, and if it is the leader itself then its failures count the
epoch up only once. -/
structure ElectsOnce (overflowChecks : Bool) (alive failed : List BrokerId)
    (s : PartitionReplicaState) : Prop where
  epoch : electionPanics overflowChecks s.leader s = false
  failing : ∀ b ∈ s.isr.erase s.leader, b ∈ failed →
    s.replicas = [] ∧ s.isr.erase s.leader = {b}
  dead : ∀ b ∈ s.isr.erase s.leader, b ∉ alive → b ∉ failed → ∀ b' ∈ s.isr, b' ∉ alive
  alone : s.isr.erase s.leader = ∅ → s.replicas.head? = some s.leader →
    RisesOnce overflowChecks (failed.count s.leader) s.leaderEpoch
  fallback : s.isr.erase s.leader = ∅ → ∀ b, s.replicas.head? = some b → b ≠ s.leader → b ∉ failed

section Sufficient

variable {overflowChecks : Bool} {alive failed before after : List BrokerId} {b : BrokerId}
  {s : PartitionReplicaState} {left : Option PartitionReplicaState}

/-- A leader that does not fail any more stays, and is alive if it has to be. -/
theorem Failures.liveLeader {t : PartitionReplicaState}
    (hleft : Failures overflowChecks failed t left) (hlead : t.leader ∉ failed)
    (halive : t.leader ∈ alive ∨ ∀ b ∈ t.isr, b ∉ alive)
    (hepoch : t.leaderEpoch = (s.leaderEpoch + 1) % 2 ^ 32) : LiveLeader alive s left := by
  refine ⟨_, hleft.of_not_mem hlead, ?_, Or.inr hepoch⟩
  rintro ⟨b, hb, hlive⟩
  exact halive.resolve_right fun hnone => hnone b (Finset.mem_sdiff.1 hb).1 hlive

/-- A leader that is the first replica and alone in the ISR is elected again each time. -/
theorem ElectsOnce.of_alone (h : ElectsOnce overflowChecks alive failed s)
    (hdead : s.leader ∉ alive) (hisr : s.isr.erase s.leader = ∅)
    (hhead : s.replicas.head? = some s.leader) (hleft : Failures overflowChecks failed s left) :
    LiveLeader alive s left := by
  obtain ⟨epoch, hcount, hepoch⟩ := h.alone hisr hhead
  rcases hleft.of_alone hisr hhead with ⟨t, rfl, ht, hisr, hok⟩ | ⟨-, e, herr⟩
  · obtain rfl := Except.ok.inj (hok.symm.trans hcount)
    refine ⟨t, rfl, ?_, hepoch⟩
    rintro ⟨b, hb, halive⟩
    have hbs : b = s.leader := by
      by_contra hne
      exact absurd (Finset.mem_erase.2 ⟨hne, hb⟩) (by rw [hisr]; exact Finset.notMem_empty b)
    exact absurd halive (hbs ▸ hdead)
  · rw [hcount] at herr
    cases herr

/-- What is elected after the failures of others is a member of the ISR as it was before, if there
was another one. -/
theorem ElectsOnce.mem_of_eligible (h : ElectsOnce overflowChecks alive failed s)
    (hbefore : ∀ x ∈ before, x ∈ failed)
    (hb : Eligible s.leader { s with isr := s.isr \ before.toFinset } b)
    (hisr : s.isr.erase s.leader ≠ ∅) : b ∈ s.isr.erase s.leader := by
  by_cases hempty : (s.isr \ before.toFinset).erase s.leader = ∅
  · -- a member that has failed before was the only one, and there is no replica
    obtain ⟨x, hx⟩ := Finset.nonempty_iff_ne_empty.2 hisr
    have hxfailed : x ∈ failed := by
      by_contra hnot
      have hmem : x ∈ (s.isr \ before.toFinset).erase s.leader :=
        Finset.mem_erase.2 ⟨(Finset.mem_erase.1 hx).1, Finset.mem_sdiff.2
          ⟨Finset.mem_of_mem_erase hx, fun hmem => hnot (hbefore x (List.mem_toFinset.1 hmem))⟩⟩
      rw [hempty] at hmem
      exact absurd hmem (Finset.notMem_empty x)
    have hhead := hb.fallback hempty
    rw [(h.failing x hx hxfailed).1] at hhead
    cases hhead
  · exact Finset.erase_subset_erase _ Finset.sdiff_subset (hb.isr hempty)

/-- **The election** of a broker that is alive, or that does not fail and leaves no alive member in
the ISR, or that can have no successor. -/
theorem ElectsOnce.of_elected (h : ElectsOnce overflowChecks alive failed s)
    (hdead : ∀ b ∈ failed, b ∉ alive) (hbefore : ∀ x ∈ before, x ∈ failed)
    (hafter : ∀ x ∈ after, x ∈ failed)
    (halone : ¬ (s.isr.erase s.leader = ∅ ∧ s.replicas.head? = some s.leader))
    (hb : Eligible s.leader { s with isr := s.isr \ before.toFinset } b)
    (hleft : Failures overflowChecks after { s with
      isr := insert b ((s.isr \ before.toFinset).erase s.leader)
      leader := b
      leaderEpoch := (s.leaderEpoch + 1) % 2 ^ 32 } left) : LiveLeader alive s left := by
  have hsub : (s.isr \ before.toFinset).erase s.leader ⊆ s.isr.erase s.leader :=
    Finset.erase_subset_erase _ Finset.sdiff_subset
  by_cases halive : b ∈ alive
  · exact hleft.liveLeader (fun hmem => hdead b (hafter b hmem) halive) (Or.inl halive) rfl
  by_cases hisr : s.isr.erase s.leader = ∅
  · -- the first replica is the whole new ISR
    have hempty := Finset.subset_empty.1 (hisr ▸ hsub)
    have hhead : s.replicas.head? = some b := hb.fallback hempty
    have hne : b ≠ s.leader := by
      rintro rfl
      exact halone ⟨hisr, hhead⟩
    have hnot := h.fallback hisr b hhead hne
    refine hleft.liveLeader (fun hmem => hnot (hafter b hmem)) (Or.inr ?_) rfl
    intro b' hb'
    rw [hempty] at hb'
    rw [Finset.mem_singleton.1 hb']
    exact halive
  have hmem := h.mem_of_eligible hbefore hb hisr
  by_cases hfailed : b ∈ failed
  · -- the only member of the ISR, and no replica to fall back on
    obtain ⟨hrep, honly⟩ := h.failing b hmem hfailed
    have hsingle : insert b ((s.isr \ before.toFinset).erase s.leader) ⊆ {b} :=
      Finset.insert_subset (Finset.mem_singleton_self b) (honly ▸ hsub)
    have hempty : (insert b ((s.isr \ before.toFinset).erase s.leader)).erase b = ∅ := by
      rw [Finset.eq_empty_iff_forall_notMem]
      intro b' hb'
      obtain ⟨hne, hb'⟩ := Finset.mem_erase.1 hb'
      exact hne (Finset.mem_singleton.1 (hsingle hb'))
    obtain ⟨t, rfl, -, hepoch, hsubset⟩ := hleft.of_orphan hempty hrep
    refine ⟨t, rfl, ?_, Or.inr hepoch⟩
    rintro ⟨b', hb', hlive⟩
    rw [Finset.mem_singleton.1 (hsingle (hsubset hb'))] at hlive
    exact absurd hlive halive
  · refine hleft.liveLeader (fun hmem' => hfailed (hafter b hmem')) (Or.inr ?_) rfl
    intro b' hb'
    rcases Finset.mem_insert.1 hb' with rfl | hb'
    · exact halive
    · exact h.dead b hmem halive hfailed b' (Finset.mem_of_mem_erase (hsub hb'))

/-- **If one election is enough**, the partition is left with an alive leader, if it can be. -/
theorem ElectsOnce.liveLeader (h : ElectsOnce overflowChecks alive failed s)
    (hdead : ∀ b ∈ failed, b ∉ alive) (hlead : s.leader ∈ failed)
    (hleft : Failures overflowChecks failed s left) : LiveLeader alive s left := by
  by_cases halone : s.isr.erase s.leader = ∅ ∧ s.replicas.head? = some s.leader
  · exact h.of_alone (hdead _ hlead) halone.1 halone.2 hleft
  obtain ⟨before, after, hsplit, hleft⟩ := hleft.of_leader hlead
  have hbefore : ∀ x ∈ before, x ∈ failed := by
    intro x hx
    rw [hsplit]
    exact List.mem_append_left _ hx
  have hafter : ∀ x ∈ after, x ∈ failed := by
    intro x hx
    rw [hsplit]
    exact List.mem_append_right _ (List.mem_cons_of_mem _ hx)
  cases hleft with
  | stop hstep =>
    cases hstep with
    | panics _ hb hadd =>
      have hnot : ¬ (s.isr.erase s.leader = ∅ ∧ s.replicas = []) := by
        rintro ⟨hisr, hrep⟩
        have hshrunk : (s.isr \ before.toFinset).erase s.leader = ∅ :=
          Finset.subset_empty.1 (hisr ▸ Finset.erase_subset_erase _ Finset.sdiff_subset)
        exact hb.not_orphan ⟨hshrunk, hrep⟩
      have hepoch := h.epoch
      simp only [electionPanics, hadd, Except.isOk, Except.toBool, decide_true, Bool.true_and,
        Bool.not_false, Bool.and_true, Bool.not_eq_false', Bool.and_eq_true,
        decide_eq_true_eq] at hepoch
      exact absurd hepoch hnot
  | step hstep hleft =>
    cases hstep with
    | stays hne => exact absurd rfl hne
    | orphans _ hisr hrep =>
      -- there is nobody to elect, and no member is left
      obtain ⟨t, rfl, -, hepoch, hsubset⟩ := hleft.of_orphan (by simp [hisr]) hrep
      refine ⟨t, rfl, ?_, Or.inl hepoch⟩
      rintro ⟨b, hb, -⟩
      have hmem := hsubset hb
      rw [hisr] at hmem
      exact absurd hmem (Finset.notMem_empty b)
    | elects _ hb hadd =>
      rw [addWith_ok_mod hadd] at hleft
      exact h.of_elected hdead hbefore hafter halone hb hleft

end Sufficient

/-! ## The worst order -/

/-- The failures panic, or may leave a state with the property. -/
def Reaches (overflowChecks : Bool) (xs : List BrokerId) (s : PartitionReplicaState)
    (P : PartitionReplicaState → Prop) : Prop :=
  Failures overflowChecks xs s none ∨ ∃ t, Failures overflowChecks xs s (some t) ∧ P t

/-- The epoch after two elections. -/
def nextTwice (epoch : Nat) : Nat :=
  ((epoch + 1) % 2 ^ 32 + 1) % 2 ^ 32

theorem nextTwice_ne (epoch : Nat) :
    nextTwice epoch ≠ epoch ∧ nextTwice epoch ≠ (epoch + 1) % 2 ^ 32 := by
  unfold nextTwice
  omega

section Worst

variable {overflowChecks : Bool} {alive failed xs ys : List BrokerId} {b c d : BrokerId}
  {s : PartitionReplicaState} {P Q : PartitionReplicaState → Prop}

theorem Reaches.append (h : Reaches overflowChecks xs s P)
    (hrest : ∀ t, P t → Reaches overflowChecks ys t Q) :
    Reaches overflowChecks (xs ++ ys) s Q := by
  rcases h with hnone | ⟨t, ht, hP⟩
  · exact Or.inl (hnone.append_none ys)
  · rcases hrest t hP with hnone | ⟨t', ht', hQ⟩
    · exact Or.inl (ht.append hnone)
    · exact Or.inr ⟨t', ht.append ht', hQ⟩

theorem reaches_of_not_mem (overflowChecks : Bool) (hlead : s.leader ∉ xs) :
    Reaches overflowChecks xs s (· = { s with isr := s.isr \ xs.toFinset }) := by
  obtain ⟨left, hleft⟩ := exists_failures overflowChecks xs s
  obtain rfl := hleft.of_not_mem hlead
  exact Or.inr ⟨_, hleft, rfl⟩

/-- All failures of the leader in a row elect once, if another broker can be taken. -/
theorem reaches_elected (overflowChecks : Bool) (n : Nat) (hlead : s.leader = d)
    (hb : Eligible d s b) (hne : b ≠ d) :
    Reaches overflowChecks (List.replicate (n + 1) d) s (· = { s with
      isr := insert b (s.isr.erase d)
      leader := b
      leaderEpoch := (s.leaderEpoch + 1) % 2 ^ 32 }) := by
  rw [List.replicate_succ]
  rcases hb.step overflowChecks hlead with hpanics | hstep
  · exact Or.inl (.stop hpanics)
  · obtain ⟨left, hleft⟩ := exists_failures overflowChecks (List.replicate n d) { s with
      isr := insert b (s.isr.erase d)
      leader := b
      leaderEpoch := (s.leaderEpoch + 1) % 2 ^ 32 }
    have hnot : b ∉ List.replicate n d := fun hmem => hne (List.eq_of_mem_replicate hmem)
    obtain rfl := hleft.of_not_mem hnot
    refine Or.inr ⟨_, .step hstep hleft, ?_⟩
    -- the failed broker is no member any more
    have hsame : insert b (s.isr.erase d) \ (List.replicate n d).toFinset =
        insert b (s.isr.erase d) := by
      rw [Finset.sdiff_eq_self_iff_disjoint, Finset.disjoint_left]
      intro x hx hmem
      rw [List.eq_of_mem_replicate (List.mem_toFinset.1 hmem), Finset.mem_insert] at hx
      rcases hx with heq | hx
      · exact hne heq.symm
      · exact Finset.notMem_erase d s.isr hx
    rw [hsame]

/-- A leader and the member of the ISR that is elected in its place fail one after the other. -/
theorem reaches_twice (overflowChecks : Bool) (m n : Nat) (hlead : s.leader = d) (hd : d ∉ xs)
    (hbxs : b ∉ xs) (hb : b ∈ s.isr.erase d)
    (hc : Eligible b { s with isr := (s.isr \ xs.toFinset).erase d } c) (hne : c ≠ b) :
    Reaches overflowChecks (xs ++ (List.replicate (m + 1) d ++ List.replicate (n + 1) b)) s
      (· = { s with
        isr := insert c (((s.isr \ xs.toFinset).erase d).erase b)
        leader := c
        leaderEpoch := nextTwice s.leaderEpoch }) := by
  have hmem : b ∈ (s.isr \ xs.toFinset).erase d := by
    refine Finset.mem_erase.2 ⟨(Finset.mem_erase.1 hb).1, Finset.mem_sdiff.2
      ⟨Finset.mem_of_mem_erase hb, fun hmem => hbxs (List.mem_toFinset.1 hmem)⟩⟩
  refine (reaches_of_not_mem overflowChecks (hlead ▸ hd)).append ?_
  rintro t rfl
  have helected := reaches_elected (s := { s with isr := s.isr \ xs.toFinset }) overflowChecks m
    hlead (eligible_of_mem hmem) (Finset.mem_erase.1 hb).1
  refine helected.append ?_
  rintro t rfl
  simp only [Finset.insert_eq_of_mem hmem]
  have hagain : Eligible b { s with
      isr := (s.isr \ xs.toFinset).erase d
      leader := b
      leaderEpoch := (s.leaderEpoch + 1) % 2 ^ 32 } c := ⟨hc.isr, hc.fallback⟩
  exact reaches_elected overflowChecks n rfl hagain hne

/-- A leader that is the first replica and alone in the ISR is elected again when it fails. -/
theorem reaches_again (overflowChecks : Bool)
    (hisr : s.isr.erase s.leader = ∅) (hhead : s.replicas.head? = some s.leader) :
    Reaches overflowChecks [s.leader] s (·.leaderEpoch = (s.leaderEpoch + 1) % 2 ^ 32) := by
  rcases (eligible_of_head hisr hhead).step overflowChecks rfl with hpanics | hstep
  · exact Or.inl (.stop hpanics)
  · exact Or.inr ⟨_, .step hstep .done, rfl⟩

/-- Two elections are more than one. -/
theorem not_liveLeader_of_twice {t : PartitionReplicaState}
    (hepoch : t.leaderEpoch = nextTwice s.leaderEpoch) : ¬ LiveLeader alive s (some t) := by
  rintro ⟨t', heq, -, h⟩
  obtain rfl := Option.some_inj.1 heq
  rw [hepoch] at h
  rcases h with h | h
  · exact (nextTwice_ne s.leaderEpoch).1 h
  · exact (nextTwice_ne s.leaderEpoch).2 h

theorem perm_swap_last (xs ys zs : List BrokerId) :
    (xs ++ ys ++ zs).Perm (xs ++ zs ++ ys) := by
  rw [List.append_assoc, List.append_assoc]
  exact List.perm_append_comm.append_left xs

/-- The failures of a broker can all be put last. -/
theorem exists_perm_last (h : d ∈ xs) : ∃ ys n, (ys ++ List.replicate (n + 1) d).Perm xs ∧
    ∀ x, x ∈ ys ↔ x ∈ xs ∧ x ≠ d := by
  obtain ⟨n, hn⟩ := Nat.exists_eq_add_of_lt (List.count_pos_iff.2 h)
  refine ⟨xs.filter fun x => x ≠ d, n, ?_, fun x => by simp⟩
  have heq : xs.filter (fun x => !decide (x ≠ d)) = List.replicate (n + 1) d := by
    rw [← Nat.zero_add n, ← hn, ← List.filter_eq]
    simp
  rw [← heq]
  exact List.filter_append_perm _ xs

theorem exists_perm_last_two (hd : d ∈ xs) (hb : b ∈ xs) (hne : b ≠ d) : ∃ ys m n,
    (ys ++ (List.replicate (m + 1) d ++ List.replicate (n + 1) b)).Perm xs ∧
      ∀ x, x ∈ ys ↔ x ∈ xs ∧ x ≠ d ∧ x ≠ b := by
  obtain ⟨zs, m, hperm, hzs⟩ := exists_perm_last hd
  obtain ⟨ys, n, hperm', hys⟩ := exists_perm_last ((hzs b).2 ⟨hb, hne⟩)
  refine ⟨ys, m, n, ?_, fun x => by rw [hys, hzs, and_assoc]⟩
  rw [← List.append_assoc]
  exact (perm_swap_last ..).trans ((hperm'.append_right _).trans hperm)

/-- Whatever the order of the failures, the partition has an alive leader if it can, after at most
one election. -/
def LiveInAnyOrder (overflowChecks : Bool) (alive failed : List BrokerId)
    (s : PartitionReplicaState) : Prop :=
  ∀ xs, xs.Perm failed → ∀ left, Failures overflowChecks xs s left → LiveLeader alive s left

theorem LiveInAnyOrder.exists_reached (h : LiveInAnyOrder overflowChecks alive failed s)
    (hperm : xs.Perm failed) (hreach : Reaches overflowChecks xs s P) :
    ∃ t, P t ∧ LiveLeader alive s (some t) := by
  rcases hreach with hnone | ⟨t, ht, hPt⟩
  · obtain ⟨t, heq, -⟩ := h xs hperm none hnone
    cases heq
  · exact ⟨t, hPt, h xs hperm _ ht⟩

/-- The leader fails first, and the epoch cannot be counted up. -/
theorem LiveInAnyOrder.epoch (h : LiveInAnyOrder overflowChecks alive failed s)
    (hlead : s.leader ∈ failed) : electionPanics overflowChecks s.leader s = false := by
  by_contra hpanics
  have hnot : ¬ (s.isr.erase s.leader = ∅ ∧ s.replicas = []) := by
    rintro ⟨hisr, hrep⟩
    simp [electionPanics, hisr, hrep] at hpanics
  obtain ⟨b, hb⟩ := (exists_eligible s.leader s).resolve_right hnot
  rcases addWith_ok_or_panicked overflowChecks 32 s.leaderEpoch 1 with ⟨epoch, hadd⟩ |
    ⟨message, hadd⟩
  · simp [electionPanics, hadd, Except.isOk, Except.toBool] at hpanics
  · have hstop : Failures overflowChecks (s.leader :: failed.erase s.leader) s none :=
      .stop (.panics rfl hb hadd)
    obtain ⟨t, heq, -⟩ := h _ (List.perm_cons_erase hlead).symm none hstop
    cases heq

/-- The leader fails first, and a dead broker that nobody reports is elected. -/
theorem LiveInAnyOrder.dead (h : LiveInAnyOrder overflowChecks alive failed s)
    (hdead : ∀ b ∈ failed, b ∉ alive) (hlead : s.leader ∈ failed) (hb : b ∈ s.isr.erase s.leader)
    (hbdead : b ∉ alive) (hbfailed : b ∉ failed) : ∀ b' ∈ s.isr, b' ∉ alive := by
  intro b' hb' halive
  have helected := (reaches_elected overflowChecks 0 rfl (eligible_of_mem hb)
    (Finset.mem_erase.1 hb).1).append
    (Q := (· = { s with
      isr := insert b (s.isr.erase s.leader) \ (failed.erase s.leader).toFinset
      leader := b
      leaderEpoch := (s.leaderEpoch + 1) % 2 ^ 32 })) (by
    rintro t rfl
    exact reaches_of_not_mem overflowChecks fun hmem => hbfailed (List.mem_of_mem_erase hmem))
  obtain ⟨t, rfl, t', heq, hlive, -⟩ := h.exists_reached (List.perm_cons_erase hlead).symm helected
  obtain rfl := Option.some_inj.1 heq
  have hne : b' ≠ s.leader := by
    rintro rfl
    exact hdead _ hlead halive
  refine hbdead (hlive ⟨b', Finset.mem_sdiff.2 ⟨Finset.mem_insert_of_mem
    (Finset.mem_erase.2 ⟨hne, hb'⟩), fun hmem => ?_⟩, halive⟩)
  exact hdead b' (List.mem_of_mem_erase (List.mem_toFinset.1 hmem)) halive

/-- The leader fails last but one, and the first replica is elected twice. -/
theorem LiveInAnyOrder.fallback (h : LiveInAnyOrder overflowChecks alive failed s)
    (hlead : s.leader ∈ failed) (hall : ∀ x ∈ s.isr.erase s.leader, x ∈ failed)
    (hhead : s.replicas.head? = some b) (hne : b ≠ s.leader) : b ∉ failed := by
  intro hb
  have hmem : s.leader ∈ failed.erase b := (List.mem_erase_of_ne hne.symm).2 hlead
  obtain ⟨others, n, hperm, hothers⟩ := exists_perm_last hmem
  have hlast : (others ++ (List.replicate (n + 1) s.leader ++ [b])).Perm failed := by
    rw [← List.append_assoc]
    exact (List.perm_append_singleton _ _).trans
      ((hperm.cons b).trans (List.perm_cons_erase hb).symm)
  have hleader : s.leader ∉ others := fun hmem => ((hothers _).1 hmem).2 rfl
  obtain ⟨s₁, hs₁⟩ : ∃ s₁, s₁ = { s with isr := s.isr \ others.toFinset } := ⟨_, rfl⟩
  -- the others have failed before, but for `b` itself
  have honly : ∀ x ∈ s₁.isr.erase s.leader, x = b := by
    intro x hx
    rw [hs₁] at hx
    obtain ⟨hxl, hx⟩ := Finset.mem_erase.1 hx
    obtain ⟨hx, hxothers⟩ := Finset.mem_sdiff.1 hx
    by_contra hxb
    exact hxothers (List.mem_toFinset.2 ((hothers x).2 ⟨(List.mem_erase_of_ne hxb).2
      (hall x (Finset.mem_erase.2 ⟨hxl, hx⟩)), hxl⟩))
  have helig : Eligible s.leader s₁ b := by
    refine ⟨fun hnonempty => ?_, fun _ => by rw [hs₁]; exact hhead⟩
    obtain ⟨x, hx⟩ := Finset.nonempty_iff_ne_empty.2 hnonempty
    exact honly x hx ▸ hx
  have hstart : Reaches overflowChecks others s (· = s₁) :=
    hs₁ ▸ reaches_of_not_mem overflowChecks hleader
  have hlead₁ : s₁.leader = s.leader := by rw [hs₁]
  have hreach : Reaches overflowChecks (others ++ (List.replicate (n + 1) s.leader ++ [b])) s
      (·.leaderEpoch = nextTwice s.leaderEpoch) := by
    refine hstart.append ?_
    rintro t rfl
    refine (reaches_elected overflowChecks n hlead₁ helig hne).append ?_
    rintro t' rfl
    have hagain := reaches_again (s := { t with
      isr := insert b (t.isr.erase s.leader)
      leader := b
      leaderEpoch := (t.leaderEpoch + 1) % 2 ^ 32 }) overflowChecks
      (by
        rw [Finset.eq_empty_iff_forall_notMem]
        intro x hx
        obtain ⟨hxb, hx⟩ := Finset.mem_erase.1 hx
        rcases Finset.mem_insert.1 hx with heq | hx
        · exact hxb heq
        · exact hxb (honly x hx))
      (by rw [hs₁]; exact hhead)
    have hepoch : t.leaderEpoch = s.leaderEpoch := by rw [hs₁]
    unfold nextTwice
    rw [← hepoch]
    exact hagain
  obtain ⟨t, ht, hlive⟩ := h.exists_reached hlast hreach
  exact not_liveLeader_of_twice ht hlive

/-- The leader fails, and then the member of the ISR elected in its place; all others have failed
before. -/
theorem LiveInAnyOrder.failing_all (h : LiveInAnyOrder overflowChecks alive failed s)
    (hlead : s.leader ∈ failed) (hb : b ∈ s.isr.erase s.leader) (hbfailed : b ∈ failed) :
    s.replicas = [] ∧ ∀ x ∈ s.isr.erase s.leader, x ∈ failed := by
  have hne := (Finset.mem_erase.1 hb).1
  obtain ⟨others, m, n, hperm, hothers⟩ := exists_perm_last_two hlead hbfailed hne
  have hd : s.leader ∉ others := fun hmem => ((hothers _).1 hmem).2.1 rfl
  have hbo : b ∉ others := fun hmem => ((hothers _).1 hmem).2.2 rfl
  have hnone : ∀ c, c ≠ b →
      ¬ Eligible b { s with isr := (s.isr \ others.toFinset).erase s.leader } c := by
    intro c hc helig
    obtain ⟨t, rfl, hlive⟩ := h.exists_reached hperm
      (reaches_twice overflowChecks m n rfl hd hbo hb helig hc)
    exact not_liveLeader_of_twice rfl hlive
  have hmem : ∀ x, x ∈ ((s.isr \ others.toFinset).erase s.leader).erase b ↔
      x ∈ s.isr.erase s.leader ∧ x ≠ b ∧ x ∉ failed := by
    intro x
    simp only [Finset.mem_erase, Finset.mem_sdiff, List.mem_toFinset, hothers]
    tauto
  have hall : ∀ x ∈ s.isr.erase s.leader, x ∈ failed := by
    intro x hx
    by_contra hnot
    have hxb : x ≠ b := by
      rintro rfl
      exact hnot hbfailed
    exact hnone x hxb (eligible_of_mem ((hmem x).2 ⟨hx, hxb, hnot⟩))
  have hempty : ((s.isr \ others.toFinset).erase s.leader).erase b = ∅ := by
    rw [Finset.eq_empty_iff_forall_notMem]
    intro x hx
    obtain ⟨hx, -, hnot⟩ := (hmem x).1 hx
    exact hnot (hall x hx)
  refine ⟨?_, hall⟩
  cases hrep : s.replicas with
  | nil => rfl
  | cons r rs =>
    have hhead : s.replicas.head? = some r := by rw [hrep]; rfl
    by_cases hr : r = b
    · exact absurd hbfailed (h.fallback hlead hall (hr ▸ hhead) hne)
    · exact (hnone r hr (eligible_of_head hempty hhead)).elim

/-- A third member would fail last, and would be left without a replica. -/
theorem LiveInAnyOrder.failing_only (h : LiveInAnyOrder overflowChecks alive failed s)
    (hlead : s.leader ∈ failed) (hb : b ∈ s.isr.erase s.leader) (hrep : s.replicas = [])
    (hall : ∀ x ∈ s.isr.erase s.leader, x ∈ failed) : ∀ y ∈ s.isr.erase s.leader, y = b := by
  intro y hy
  by_contra hyb
  have hyl := (Finset.mem_erase.1 hy).1
  obtain ⟨others, m, n, hperm, hothers⟩ :=
    exists_perm_last_two hlead (hall b hb) (Finset.mem_erase.1 hb).1
  obtain ⟨rest, k, hlast, hrest⟩ := exists_perm_last ((hothers y).2 ⟨hall y hy, hyl, hyb⟩)
  have hylast : (rest ++ (List.replicate (m + 1) s.leader ++ List.replicate (n + 1) b) ++
      List.replicate (k + 1) y).Perm failed :=
    (perm_swap_last ..).trans ((hlast.append_right _).trans hperm)
  have hd : s.leader ∉ rest := fun hmem => ((hothers _).1 ((hrest _).1 hmem).1).2.1 rfl
  have hbo : b ∉ rest := fun hmem => ((hothers _).1 ((hrest _).1 hmem).1).2.2 rfl
  have hmem : y ∈ ((s.isr \ rest.toFinset).erase s.leader).erase b := by
    simp only [Finset.mem_erase, Finset.mem_sdiff, List.mem_toFinset, hrest]
    exact ⟨hyb, hyl, Finset.mem_of_mem_erase hy, fun hmem => hmem.2 rfl⟩
  have helig : Eligible b { s with isr := (s.isr \ rest.toFinset).erase s.leader } y :=
    eligible_of_mem hmem
  have hempty : (insert y (((s.isr \ rest.toFinset).erase s.leader).erase b)).erase y = ∅ := by
    rw [Finset.eq_empty_iff_forall_notMem]
    intro x hx
    simp only [Finset.mem_erase, Finset.mem_insert, Finset.mem_sdiff, List.mem_toFinset,
      hrest, hothers] at hx hall
    tauto
  have hreach : Reaches overflowChecks (rest ++ (List.replicate (m + 1) s.leader ++
      List.replicate (n + 1) b) ++ List.replicate (k + 1) y) s
      (·.leaderEpoch = nextTwice s.leaderEpoch) := by
    refine (reaches_twice overflowChecks m n rfl hd hbo hb helig hyb).append ?_
    rintro t rfl
    obtain ⟨left, hleft⟩ := exists_failures overflowChecks (List.replicate (k + 1) y) { s with
      isr := insert y (((s.isr \ rest.toFinset).erase s.leader).erase b)
      leader := y
      leaderEpoch := nextTwice s.leaderEpoch }
    obtain ⟨t, rfl, -, hepoch, -⟩ := hleft.of_orphan hempty hrep
    exact Or.inr ⟨t, hleft, hepoch⟩
  obtain ⟨t, ht, hlive⟩ := h.exists_reached hylast hreach
  exact not_liveLeader_of_twice ht hlive

/-- A leader that is elected again each time it fails. -/
theorem LiveInAnyOrder.alone (h : LiveInAnyOrder overflowChecks alive failed s)
    (hisr : s.isr.erase s.leader = ∅) (hhead : s.replicas.head? = some s.leader) :
    RisesOnce overflowChecks (failed.count s.leader) s.leaderEpoch := by
  obtain ⟨left, hleft⟩ := exists_failures overflowChecks failed s
  obtain ⟨t, rfl, -, hepoch⟩ := h failed (List.Perm.refl _) left hleft
  rcases hleft.of_alone hisr hhead with ⟨t', heq, -, -, hcount⟩ | ⟨hnone, -⟩
  · obtain rfl := Option.some_inj.1 heq
    exact ⟨t.leaderEpoch, hcount, hepoch⟩
  · cases hnone

theorem ElectsOnce.perm (h : ElectsOnce overflowChecks alive failed s) (hperm : xs.Perm failed) :
    ElectsOnce overflowChecks alive xs s where
  epoch := h.epoch
  failing b hb hmem := h.failing b hb (hperm.mem_iff.1 hmem)
  dead b hb hdead hmem := h.dead b hb hdead fun hfailed => hmem (hperm.mem_iff.2 hfailed)
  alone hisr hhead := by
    rw [hperm.count_eq]
    exact h.alone hisr hhead
  fallback hisr b hhead hne hmem := h.fallback hisr b hhead hne (hperm.mem_iff.1 hmem)

/-- **One partition** is left with an alive leader if it can be, after at most one election and
whatever the order of the failures, exactly if one election is enough for it. -/
theorem liveInAnyOrder_iff (hdead : ∀ b ∈ failed, b ∉ alive)
    (halive : s.leader ∉ failed → s.leader ∈ alive) :
    LiveInAnyOrder overflowChecks alive failed s ↔
      (s.leader ∈ failed → ElectsOnce overflowChecks alive failed s) := by
  constructor
  · intro h hlead
    exact {
      epoch := h.epoch hlead
      failing := by
        intro b hb hfailed
        obtain ⟨hrep, hall⟩ := h.failing_all hlead hb hfailed
        refine ⟨hrep, Finset.eq_singleton_iff_unique_mem.2 ⟨hb, ?_⟩⟩
        exact h.failing_only hlead hb hrep hall
      dead := fun b hb hbdead hbfailed => h.dead hdead hlead hb hbdead hbfailed
      alone := h.alone
      fallback := by
        intro hisr b hhead hne
        refine h.fallback hlead (fun x hx => ?_) hhead hne
        rw [hisr] at hx
        exact absurd hx (Finset.notMem_empty x) }
  · intro h xs hperm left hleft
    by_cases hlead : s.leader ∈ failed
    · exact ((h hlead).perm hperm).liveLeader (fun b hb => hdead b (hperm.mem_iff.1 hb))
        (hperm.mem_iff.2 hlead) hleft
    · refine ⟨_, hleft.of_not_mem fun hmem => hlead (hperm.mem_iff.1 hmem), ?_, Or.inl rfl⟩
      exact fun _ => halive hlead

end Worst

end Gaffa
