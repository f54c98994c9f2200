import Gaffa.Broker.HighWatermark
import Gaffa.Broker.LeaderEpoch

/-!
# The lag test

`update_replica_offset` of `broker/src/cluster.rs` puts the broker that reports into the ISR, or
takes it out, by a comparison with the leader.  It looks at no other broker, and the sum that it
compares can overflow.

* `caught_up_iff`: after every report of a run all members of the ISR are within the threshold of
  the leader exactly when no report of the leader runs ahead of another member by more.
* `lag_exact_iff`: when the test decides as it would over the integers.
-/

set_option autoImplicit false

namespace Gaffa

open Transition PartitionReplicaState ClusterMetadata

/-! ## Members that have caught up -/

/-- Every member of the ISR has a recorded offset within the threshold of the leader's. -/
def WithinLag (lagThreshold : Nat) (s : PartitionReplicaState) : Prop :=
  ∀ b ∈ s.isr, ∃ o, s.replicaOffsets.get b = some o ∧ s.leaderOffset ≤ o + lagThreshold

/-- A report of the leader is within the threshold of every other member of the ISR. -/
def StaysNear (lagThreshold : Nat) (s : PartitionReplicaState) (r : Report)
    (_ : PartitionReplicaState) : Prop :=
  r.broker = s.leader → ∀ b ∈ s.isr, b ≠ s.leader → ∀ o ∈ s.replicaOffsets.get b,
    r.offset ≤ o + lagThreshold

instance decidableWithinLag (lagThreshold : Nat) (s : PartitionReplicaState) :
    Decidable (WithinLag lagThreshold s) :=
  inferInstanceAs (Decidable (∀ b ∈ s.isr, ∃ o ∈ s.replicaOffsets.get b, _))

/-- The sum of the report does not overflow. -/
def SumFits (lagThreshold : Nat) (r : Report) : Prop := r.offset + lagThreshold < 2 ^ 64

section WithinLag

variable {overflowChecks : Bool} {lagThreshold : Nat} {s t : PartitionReplicaState} {r : Report}

theorem withinLag_new (lagThreshold : Nat) (topic : String) (partition : Nat) (leader : BrokerId)
    (replicas : List BrokerId) : WithinLag lagThreshold (new topic partition leader replicas) := by
  intro b hb
  have hmem : b ∈ replicas := List.mem_toFinset.1 hb
  refine ⟨0, (get_zeroOffsets replicas b).trans (if_pos hmem), ?_⟩
  have hzero : (new topic partition leader replicas).leaderOffset = 0 := by
    unfold leaderOffset
    rw [show (new topic partition leader replicas).replicaOffsets = zeroOffsets replicas from rfl,
      get_zeroOffsets]
    split <;> rfl
  rw [hzero]
  exact Nat.zero_le _

/-- What the other members are after a report: nearer to the leader or further away with it. -/
theorem others_withinLag_iff (h : WithinLag lagThreshold s) :
    (∀ b ∈ s.isr, b ≠ r.broker → ∃ o, (s.record r.broker r.offset).replicaOffsets.get b = some o ∧
      (s.record r.broker r.offset).leaderOffset ≤ o + lagThreshold) ↔
    StaysNear lagThreshold s r t := by
  rw [leaderOffset_record]
  constructor
  · intro hothers hleader b hb hne o ho
    rw [← hleader] at hne
    obtain ⟨o', ho', hle⟩ := hothers b hb hne
    rw [record_get, if_neg hne, Option.mem_def.1 ho, Option.some.injEq] at ho'
    rw [if_pos hleader.symm, ← ho'] at hle
    exact hle
  · intro hnear b hb hne
    obtain ⟨o, ho, hle⟩ := h b hb
    refine ⟨o, by rw [record_get, if_neg hne, ho], ?_⟩
    split
    · rename_i hleader
      exact hnear hleader.symm b hb (hleader ▸ hne) o ho
    · exact hle

/-- **One report** leaves all members of the ISR near the leader exactly when the leader does not
run ahead of one. -/
theorem withinLag_next_iff (h : WithinLag lagThreshold s) (hsum : SumFits lagThreshold r)
    (hstep : reportNext overflowChecks lagThreshold s r = some t) :
    WithinLag lagThreshold t ↔ StaysNear lagThreshold s r t := by
  obtain ⟨-, rfl⟩ := reportNext_some hstep
  have hself : (s.record r.broker r.offset).replicaOffsets.get r.broker = some r.offset := by
    rw [record_get, if_pos rfl]
  rw [← others_withinLag_iff h]
  rcases updateReplicaOffset_cases overflowChecks r.broker r.offset lagThreshold s with
    ⟨e, hlag, -⟩ | ⟨hlag, heq⟩ | ⟨-, heq⟩
  · rw [lagTest_of_lt overflowChecks hsum] at hlag
    cases hlag
  · rw [lagTest_of_lt overflowChecks hsum, Except.ok.injEq, decide_eq_true_eq] at hlag
    rw [heq]
    unfold WithinLag leaderOffset
    simp only [updateHighWatermark_isr, updateHighWatermark_replicaOffsets,
      updateHighWatermark_leader]
    constructor
    · intro hall b hb hne
      exact hall b (Finset.mem_insert_of_mem hb)
    · intro hothers b hb
      by_cases hne : b = r.broker
      · exact ⟨r.offset, hne ▸ hself, hlag⟩
      · exact hothers b (Finset.mem_of_mem_insert_of_ne hb hne) hne
  · rw [heq]
    unfold WithinLag leaderOffset
    simp only [updateHighWatermark_isr, updateHighWatermark_replicaOffsets,
      updateHighWatermark_leader]
    constructor
    · intro hall b hb hne
      exact hall b (Finset.mem_erase.2 ⟨hne, hb⟩)
    · intro hothers b hb
      obtain ⟨hne, hb⟩ := Finset.mem_erase.1 hb
      exact hothers b hb hne

end WithinLag

/-- **The ISR has caught up** after every report of a run exactly when no report of the leader runs
ahead of another member of the ISR by more than the threshold. -/
theorem caught_up_iff (overflowChecks : Bool) (lagThreshold : Nat) (topic : String)
    (partition : Nat) (leader : BrokerId) (replicas : List BrokerId)
    {tr : List (Report × PartitionReplicaState)}
    (hrun : Run (Steps (reportNext overflowChecks lagThreshold))
      (new topic partition leader replicas) tr)
    (hsums : EachStep (fun _ r _ => SumFits lagThreshold r)
      (new topic partition leader replicas) tr) :
    EachStep (fun _ _ t => WithinLag lagThreshold t) (new topic partition leader replicas) tr ↔
      EachStep (StaysNear lagThreshold) (new topic partition leader replicas) tr := by
  refine eachStep_iff (I := WithinLag lagThreshold) ?_ ?_
    (withinLag_new lagThreshold topic partition leader replicas) (hrun.and hsums)
  · intro s r t h hstep hnear
    exact (withinLag_next_iff h hstep.2 hstep.1).2 hnear
  · intro s r t h hstep
    exact withinLag_next_iff h hstep.2 hstep.1

/-- The follower reports before the leader does, and again after it. -/
def followerFirst : List Report := [⟨2, 95⟩, ⟨1, 100⟩, ⟨2, 100⟩]

theorem caught_up_iff_follower :
    ∃ tr, trace (reportNext true 10) (new "orders" 0 1 [1, 2]) followerFirst = some tr ∧
      (EachStep (fun _ _ t => WithinLag 10 t) (new "orders" 0 1 [1, 2]) tr ↔
        EachStep (StaysNear 10) (new "orders" 0 1 [1, 2]) tr) := by
  obtain ⟨tr, htr⟩ := Option.isSome_iff_exists.1 (show (trace (reportNext true 10)
    (new "orders" 0 1 [1, 2]) followerFirst).isSome = true by decide +kernel)
  refine ⟨tr, htr, caught_up_iff true 10 "orders" 0 1 [1, 2] (run_of_trace htr)
    (eachStep_of_trace htr ?_)⟩
  simp [followerFirst, SumFits]

/-- The leader alone reports: its follower stays in the ISR, a hundred messages behind. -/
theorem leader_runs_ahead : ¬ ∀ tr : List (Report × PartitionReplicaState),
    Run (Steps (reportNext true 10)) (new "orders" 0 1 [1, 2]) tr →
    EachStep (fun _ r _ => SumFits 10 r) (new "orders" 0 1 [1, 2]) tr →
    EachStep (fun _ _ t => WithinLag 10 t) (new "orders" 0 1 [1, 2]) tr := by
  intro h
  obtain ⟨tr, htr, hbad⟩ := Option.map_eq_some_iff.1 (show (trace (reportNext true 10)
    (new "orders" 0 1 [1, 2]) [⟨1, 100⟩]).map (fun tr => decide
      (EachStep (fun _ _ t => WithinLag 10 t) (new "orders" 0 1 [1, 2]) tr)) =
    some false by decide +kernel)
  refine of_decide_eq_false hbad (h tr (run_of_trace htr) (eachStep_of_trace htr ?_))
  simp [SumFits]

/-! ## The test over the integers -/

/-- The recorded offsets are of their type. -/
def OffsetsFit (s : PartitionReplicaState) : Prop :=
  ∀ b o, s.replicaOffsets.get b = some o → o < 2 ^ 64

/-- A reported offset is a `u64`. -/
def ClusterOp.Sized : ClusterOp → Prop
  | .updateReplicaOffset _ _ _ offset => offset < 2 ^ 64
  | _ => True

/-- The report is made, and the broker is in the ISR afterwards exactly when the leader's offset less
the reported one is at most the threshold. -/
def ExactLag (overflowChecks : Bool) (b : BrokerId) (offset lagThreshold : Nat)
    (s : PartitionReplicaState) : Prop :=
  (s.updateReplicaOffset overflowChecks b offset lagThreshold).1 = .ok () ∧
    (b ∈ (s.updateReplicaOffset overflowChecks b offset lagThreshold).2.isr ↔
      ((s.updateReplicaOffset overflowChecks b offset lagThreshold).2.leaderOffset : Int) - offset ≤
        lagThreshold)

section Exact

variable {overflowChecks : Bool} {lagThreshold offset : Nat} {b : BrokerId}
  {s : PartitionReplicaState}

theorem OffsetsFit.record (h : OffsetsFit s) (hoffset : offset < 2 ^ 64) :
    OffsetsFit (s.record b offset) := by
  intro c o ho
  rw [record_get] at ho
  split at ho
  · cases ho
    exact hoffset
  · exact h c o ho

theorem OffsetsFit.leaderOffset_lt (h : OffsetsFit s) : s.leaderOffset < 2 ^ 64 := by
  unfold leaderOffset
  cases hget : s.replicaOffsets.get s.leader with
  | none => exact Nat.two_pow_pos 64
  | some o => exact h _ o hget

theorem replicaOffsets_updateReplicaOffset (overflowChecks : Bool) (b : BrokerId)
    (offset lag : Nat) (s : PartitionReplicaState) :
    (s.updateReplicaOffset overflowChecks b offset lag).2.replicaOffsets =
      (s.record b offset).replicaOffsets := by
  rcases updateReplicaOffset_cases overflowChecks b offset lag s with
    ⟨e, -, heq⟩ | ⟨-, heq⟩ | ⟨-, heq⟩
  · rw [heq]
  · rw [heq, updateHighWatermark_replicaOffsets]
  · rw [heq, updateHighWatermark_replicaOffsets]

theorem leaderOffset_updateReplicaOffset (overflowChecks : Bool) (b : BrokerId)
    (offset lag : Nat) (s : PartitionReplicaState) :
    (s.updateReplicaOffset overflowChecks b offset lag).2.leaderOffset =
      (s.record b offset).leaderOffset := by
  have hleader : (s.updateReplicaOffset overflowChecks b offset lag).2.leader = s.leader := by
    rcases updateReplicaOffset_cases overflowChecks b offset lag s with
      ⟨e, -, heq⟩ | ⟨-, heq⟩ | ⟨-, heq⟩
    · rw [heq]
      rfl
    · rw [heq, updateHighWatermark_leader]
      rfl
    · rw [heq, updateHighWatermark_leader]
      rfl
  unfold leaderOffset
  rw [hleader, replicaOffsets_updateReplicaOffset]
  rfl

/-- **What decides** about the broker: the test returns, and its answer is the new membership. -/
theorem updateReplicaOffset_isr (overflowChecks : Bool) (b : BrokerId) (offset lag : Nat)
    (s : PartitionReplicaState) :
    (∃ e, lagTest overflowChecks offset lag (s.record b offset).leaderOffset = .error e ∧
      (s.updateReplicaOffset overflowChecks b offset lag).1 = .error e) ∨
    ∃ inSync, lagTest overflowChecks offset lag (s.record b offset).leaderOffset = .ok inSync ∧
      (s.updateReplicaOffset overflowChecks b offset lag).1 = .ok () ∧
      (b ∈ (s.updateReplicaOffset overflowChecks b offset lag).2.isr ↔ inSync = true) := by
  cases h : lagTest overflowChecks offset lag (s.record b offset).leaderOffset with
  | error e =>
    left
    exact ⟨e, rfl, by simp only [PartitionReplicaState.updateReplicaOffset, h]⟩
  | ok inSync =>
    right
    refine ⟨inSync, rfl, ?_⟩
    cases inSync with
    | true => simp [PartitionReplicaState.updateReplicaOffset, h]
    | false => simp [PartitionReplicaState.updateReplicaOffset, h]

/-- **One report** is judged as over the integers exactly when the sum does not overflow, or wraps to
a sum that is still not below the leader's offset. -/
theorem exactLag_iff (h : OffsetsFit s) (hoffset : offset < 2 ^ 64) :
    ExactLag overflowChecks b offset lagThreshold s ↔ offset + lagThreshold < 2 ^ 64 ∨
      (overflowChecks = false ∧
        (if s.leader = b then offset else s.leaderOffset) ≤ (offset + lagThreshold) % 2 ^ 64) := by
  have hleader := (h.record hoffset (b := b)).leaderOffset_lt
  unfold ExactLag
  rw [leaderOffset_updateReplicaOffset, ← leaderOffset_record]
  generalize hlead : (s.record b offset).leaderOffset = leader at hleader
  have hcases := updateReplicaOffset_isr overflowChecks b offset lagThreshold s
  rw [hlead] at hcases
  unfold lagTest at hcases
  rcases addWith_cases overflowChecks 64 offset lagThreshold with
    ⟨hlt, hadd⟩ | ⟨hge, hchecks, e, hadd⟩ | ⟨hge, hchecks, hadd⟩
  · rw [hadd] at hcases
    obtain ⟨e, herror, -⟩ | ⟨inSync, hin, hok, hmem⟩ := hcases
    · cases herror
    · cases hin
      refine iff_of_true ⟨hok, ?_⟩ (Or.inl hlt)
      rw [hmem, decide_eq_true_eq]
      omega
  · rw [hadd] at hcases
    obtain ⟨e', -, herror⟩ | ⟨inSync, hin, -⟩ := hcases
    · rw [herror]
      refine iff_of_false (fun hok => by cases hok.1) ?_
      rintro (hlt | ⟨hoff, -⟩)
      · omega
      · rw [hchecks] at hoff
        cases hoff
    · cases hin
  · -- the sum wraps, although no leader is that far ahead
    rw [hadd] at hcases
    obtain ⟨e, herror, -⟩ | ⟨inSync, hin, hok, hmem⟩ := hcases
    · cases herror
    · cases hin
      rw [hmem, decide_eq_true_eq, and_iff_right hok, and_iff_right hchecks]
      have hnear : (leader : Int) - offset ≤ lagThreshold := by omega
      constructor
      · intro hexact
        exact Or.inr (hexact.2 hnear)
      · rintro (hlt | hle)
        · omega
        · exact iff_of_true hle hnear

theorem offsetsFit_new (topic : String) (partition : Nat) (leader : BrokerId)
    (replicas : List BrokerId) : OffsetsFit (new topic partition leader replicas) := by
  intro b o ho
  have hget := (get_zeroOffsets replicas b).symm.trans ho
  split at hget
  · cases hget
    exact Nat.two_pow_pos 64
  · cases hget

/-- **A call** keeps the recorded offsets in their type. -/
theorem offsetsFit_next {c d : ClusterMetadata} {op : ClusterOp}
    (h : ∀ k s, c.partitionStates.get k = some s → OffsetsFit s) (hsized : op.Sized)
    (hstep : clusterApply overflowChecks c op = some d) :
    ∀ k s, d.partitionStates.get k = some s → OffsetsFit s := by
  cases op with
  | setPartitionReplicas topic partition leader replicas =>
    cases hstep
    exact forall_setPartitionReplicas h (offsetsFit_new topic partition leader replicas)
      fun _ hs => hs
  | updateReplicaOffset topic partition b offset =>
    cases hstep
    refine forall_updateReplicaOffset h fun s hs c o ho => ?_
    rw [replicaOffsets_updateReplicaOffset] at ho
    exact (h _ s hs).record hsized c o ho
  | handleBrokerFailure b order first =>
    simp only [clusterApply, Option.ite_none_right_eq_some, Option.some.injEq] at hstep
    obtain ⟨⟨horder, -⟩, rfl⟩ := hstep
    refine forall_handleBrokerFailure horder.nodup h fun k s _ hs c o ho => ?_
    rw [(failover_frame overflowChecks b (first k) s).2.2.1] at ho
    exact h k s hs c o ho

end Exact

/-- **The lag test is exact** in every state that calls with `u64` offsets reach, for every report,
exactly when the sum of the report and the threshold does not overflow, or wraps and is still not
below the leader's offset. -/
theorem lag_exact_iff (overflowChecks : Bool) (brokerId : BrokerId)
    (brokerTimeout isrLagThreshold : Nat) {tr : List (ClusterOp × ClusterMetadata)}
    (hrun : Run (Steps (clusterApply overflowChecks))
      (ClusterMetadata.new brokerId brokerTimeout isrLagThreshold) tr)
    (hsized : EachStep (fun _ op _ => op.Sized)
      (ClusterMetadata.new brokerId brokerTimeout isrLagThreshold) tr)
    {k : PartitionKey} {s : PartitionReplicaState}
    (hs : (last (ClusterMetadata.new brokerId brokerTimeout isrLagThreshold)
      tr).partitionStates.get k = some s)
    (b : BrokerId) {offset : Nat} (hoffset : offset < 2 ^ 64) (lagThreshold : Nat) :
    ExactLag overflowChecks b offset lagThreshold s ↔ offset + lagThreshold < 2 ^ 64 ∨
      (overflowChecks = false ∧
        (if s.leader = b then offset else s.leaderOffset) ≤
          (offset + lagThreshold) % 2 ^ 64) := by
  have hfit := throughout_of_invariant
    (I := fun c : ClusterMetadata => ∀ k s, c.partitionStates.get k = some s → OffsetsFit s)
    (fun c op d h hstep hop => offsetsFit_next h hop hstep)
    (fun k s hget => by cases hget) hrun hsized
  exact exactLag_iff (hfit.at_last k s hs) hoffset

/-- A new partition. -/
def oneTopic : List ClusterOp := [.setPartitionReplicas "orders" 0 1 [1, 2]]

theorem lag_exact_iff_near : ExactLag true 2 5 10 (new "orders" 0 1 [1, 2]) ↔
    5 + 10 < 2 ^ 64 ∨ (true = false ∧
      (if (new "orders" 0 1 [1, 2]).leader = 2 then 5
        else (new "orders" 0 1 [1, 2]).leaderOffset) ≤ (5 + 10) % 2 ^ 64) := by
  obtain ⟨tr, htr⟩ := Option.isSome_iff_exists.1 (show (trace (clusterApply true)
    (ClusterMetadata.new 0 30000 10) oneTopic).isSome = true by decide +kernel)
  refine lag_exact_iff true 0 30000 10 (run_of_trace htr) (eachStep_of_trace htr ?_)
    (k := ("orders", 0)) ?_ 2 (by decide) 10
  · simp [oneTopic, ClusterOp.Sized]
  · cases htr
    rfl

/-- With the largest threshold, and without overflow checks, a leader's own report takes it out of
the ISR. -/
theorem leader_drops_itself : ¬ ∀ (tr : List (ClusterOp × ClusterMetadata))
    (s : PartitionReplicaState),
    Run (Steps (clusterApply false)) (ClusterMetadata.new 0 30000 10) tr →
    EachStep (fun _ op _ => op.Sized) (ClusterMetadata.new 0 30000 10) tr →
    (last (ClusterMetadata.new 0 30000 10) tr).partitionStates.get ("orders", 0) = some s →
    ∀ b offset lagThreshold : Nat, offset < 2 ^ 64 → lagThreshold < 2 ^ 64 →
      ExactLag false b offset lagThreshold s := by
  intro h
  obtain ⟨tr, htr⟩ := Option.isSome_iff_exists.1 (show (trace (clusterApply false)
    (ClusterMetadata.new 0 30000 10) oneTopic).isSome = true by decide +kernel)
  have hexact := h tr (new "orders" 0 1 [1, 2]) (run_of_trace htr)
    (eachStep_of_trace htr (by simp [oneTopic, ClusterOp.Sized])) (by cases htr; rfl)
    1 1 (2 ^ 64 - 1) (by decide) (by decide)
  have hout : 1 ∉ ((new "orders" 0 1 [1, 2]).updateReplicaOffset false 1 1 (2 ^ 64 - 1)).2.isr := by
    decide +kernel
  apply hout
  rw [hexact.2, leaderOffset_updateReplicaOffset, leaderOffset_record]
  decide

end Gaffa
