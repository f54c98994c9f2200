import Gaffa.Broker.Cluster
import Gaffa.Lib.Transition

/-!
# The high watermark over runs of offset updates

* `highWatermark_le_iff`: an update keeps the watermark from falling exactly when it does not
  admit a broker from outside the ISR whose offset is below the watermark.
* `highWatermark_monotone_iff`: the same for runs from `PartitionReplicaState::new`.
-/

set_option autoImplicit false

namespace Gaffa

open Transition PartitionReplicaState

/-- One call of `update_replica_offset`. -/
structure Report where
  broker : BrokerId
  offset : Nat
  deriving DecidableEq, Repr

/-- The calls in which no broker's offset goes back. -/
def reportNext (overflowChecks : Bool) (lagThreshold : Nat) (s : PartitionReplicaState)
    (r : Report) : Option PartitionReplicaState :=
  if (s.replicaOffsets.get r.broker).getD 0 ≤ r.offset then
    some (s.updateReplicaOffset overflowChecks r.broker r.offset lagThreshold).2
  else none

/-- The lag test lets the reporting broker into the ISR. -/
def Admits (overflowChecks : Bool) (lagThreshold : Nat) (s : PartitionReplicaState)
    (r : Report) : Prop :=
  lagTest overflowChecks r.offset lagThreshold (s.record r.broker r.offset).leaderOffset = .ok true

/-- An update that admits no broker from outside the ISR with an offset below the watermark. -/
def AdmitsCovered (overflowChecks : Bool) (lagThreshold : Nat) (s : PartitionReplicaState)
    (r : Report) (_ : PartitionReplicaState) : Prop :=
  r.broker ∈ s.isr ∨ ¬ Admits overflowChecks lagThreshold s r ∨ s.highWatermark ≤ r.offset

section Step

variable {overflowChecks : Bool} {lagThreshold : Nat} {s t : PartitionReplicaState} {r : Report}

theorem reportNext_some (h : reportNext overflowChecks lagThreshold s r = some t) :
    (s.replicaOffsets.get r.broker).getD 0 ≤ r.offset ∧
      t = (s.updateReplicaOffset overflowChecks r.broker r.offset lagThreshold).2 := by
  unfold reportNext at h
  split at h
  · rename_i hle
    exact ⟨hle, (Option.some.inj h).symm⟩
  · cases h

/-- A watermark below which no member of the new ISR has its offset does not fall. -/
theorem le_updateHighWatermark {w : Nat}
    (hw : s.highWatermark = w)
    (hrec : ∀ b ∈ s.isr, ∃ o, s.replicaOffsets.get b = some o ∧ w ≤ o) :
    w ≤ s.updateHighWatermark.highWatermark := by
  by_cases hne : s.isr = ∅
  · rw [updateHighWatermark, if_pos hne, hw]
  · obtain ⟨b, hb, hmin⟩ := exists_highWatermark hne fun b hb => by
      obtain ⟨o, ho, -⟩ := hrec b hb
      exact ⟨o, ho⟩
    obtain ⟨o, ho, hle⟩ := hrec b hb
    rw [hmin] at ho
    cases ho
    exact hle

/-- **One update**: the watermark does not fall exactly when the condition holds. -/
theorem highWatermark_le_iff (h : Covered s)
    (hstep : reportNext overflowChecks lagThreshold s r = some t) :
    s.highWatermark ≤ t.highWatermark ↔ AdmitsCovered overflowChecks lagThreshold s r t := by
  obtain ⟨hle, rfl⟩ := reportNext_some hstep
  have hrec : ∀ c ∈ s.isr, c ≠ r.broker → ∃ o,
      (s.record r.broker r.offset).replicaOffsets.get c = some o ∧ s.highWatermark ≤ o := by
    intro c hc hne
    obtain ⟨o, ho, hw⟩ := h c hc
    exact ⟨o, by rw [record_get, if_neg hne, ho], hw⟩
  have hself : (s.record r.broker r.offset).replicaOffsets.get r.broker = some r.offset := by
    rw [record_get, if_pos rfl]
  rcases updateReplicaOffset_cases overflowChecks r.broker r.offset lagThreshold s with
    ⟨e, hlag, heq⟩ | ⟨hlag, heq⟩ | ⟨hlag, heq⟩
  · rw [heq]
    apply iff_of_true
    · exact Nat.le_refl _
    · right; left
      unfold Admits
      rw [hlag]
      intro hc
      cases hc
  · rw [heq]
    constructor
    · -- the broker is in the new ISR, so the new watermark is at most its offset
      intro hmono
      right; right
      have hmin := highWatermark_le
        (s := { s.record r.broker r.offset with isr := insert r.broker s.isr })
        (Finset.mem_insert_self ..) hself
      exact Nat.le_trans hmono hmin
    · intro hcond
      have hself_le : s.highWatermark ≤ r.offset := by
        rcases hcond with hin | hadm | hge
        · obtain ⟨o, ho, hw⟩ := h _ hin
          rw [ho] at hle
          exact Nat.le_trans hw hle
        · exact absurd hlag hadm
        · exact hge
      apply le_updateHighWatermark
      · rfl
      · intro c hc
        by_cases hcb : c = r.broker
        · subst hcb
          exact ⟨_, hself, hself_le⟩
        · exact hrec c (Finset.mem_of_mem_insert_of_ne hc hcb) hcb
  · rw [heq]
    apply iff_of_true
    · apply le_updateHighWatermark
      · rfl
      · intro c hc
        exact hrec c (Finset.mem_of_mem_erase hc) (Finset.ne_of_mem_erase hc)
    · right; left
      unfold Admits
      rw [hlag]
      intro hc
      cases hc

theorem covered_reportNext (h : Covered s)
    (hstep : reportNext overflowChecks lagThreshold s r = some t) : Covered t := by
  obtain ⟨hle, rfl⟩ := reportNext_some hstep
  exact h.updateReplicaOffset overflowChecks r.broker lagThreshold hle

end Step

/-- **The high watermark over a run** never decreases exactly when no update of the run admits a
broker from outside the ISR whose offset is below the watermark. -/
theorem highWatermark_monotone_iff (overflowChecks : Bool) (lagThreshold : Nat) (topic : String)
    (partition : Nat) (leader : BrokerId) (replicas : List BrokerId)
    {tr : List (Report × PartitionReplicaState)}
    (hrun : Run (Steps (reportNext overflowChecks lagThreshold))
      (new topic partition leader replicas) tr) :
    EachStep (fun s _ t => s.highWatermark ≤ t.highWatermark)
        (new topic partition leader replicas) tr ↔
      EachStep (AdmitsCovered overflowChecks lagThreshold)
        (new topic partition leader replicas) tr := by
  refine eachStep_iff (I := Covered) ?_ ?_ (covered_new topic partition leader replicas) hrun
  · intro s r t h hstep _
    exact covered_reportNext h hstep
  · intro s r t h hstep
    exact highWatermark_le_iff h hstep

/-- A follower falls behind, the watermark passes it, and it is let in again. -/
def readmission : List Report := [⟨1, 100⟩, ⟨2, 95⟩, ⟨1, 200⟩, ⟨2, 96⟩, ⟨2, 191⟩]

theorem highWatermark_monotone_iff_readmission :
    ∃ tr, trace (reportNext true 10) (new "orders" 0 1 [1, 2]) readmission = some tr ∧
      (EachStep (fun s _ t => s.highWatermark ≤ t.highWatermark) (new "orders" 0 1 [1, 2]) tr ↔
        EachStep (AdmitsCovered true 10) (new "orders" 0 1 [1, 2]) tr) := by
  obtain ⟨tr, htr⟩ := Option.isSome_iff_exists.1 (show (trace (reportNext true 10)
    (new "orders" 0 1 [1, 2]) readmission).isSome = true by decide +kernel)
  exact ⟨tr, htr, highWatermark_monotone_iff true 10 "orders" 0 1 [1, 2] (run_of_trace htr)⟩

/-- The watermark falls from 200 to 191 when the follower is let in again. -/
theorem highWatermark_falls : ¬ ∀ tr : List (Report × PartitionReplicaState),
    Run (Steps (reportNext true 10)) (new "orders" 0 1 [1, 2]) tr →
    EachStep (fun s _ t => s.highWatermark ≤ t.highWatermark) (new "orders" 0 1 [1, 2]) tr := by
  intro h
  obtain ⟨tr, htr, hbad⟩ := Option.map_eq_some_iff.1 (show (trace (reportNext true 10)
    (new "orders" 0 1 [1, 2]) readmission).map (fun tr => decide
      (EachStep (fun s _ t => s.highWatermark ≤ t.highWatermark) (new "orders" 0 1 [1, 2]) tr)) =
    some false by decide +kernel)
  exact of_decide_eq_false hbad (h tr (run_of_trace htr))

end Gaffa
