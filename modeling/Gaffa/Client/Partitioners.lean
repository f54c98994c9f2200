import Gaffa.Client.Producer
import Gaffa.Lib.Transition

/-!
# The partitioners

`client/src/partitioner.rs`, with `KeyHashPartitioner` as in the producer.  `RoundRobinPartitioner`
and `StickyPartitioner` keep atomic counters from call to call, which wrap; the number of partitions
is that of the topic of the call.

* `partitioners_in_range_iff`: along a run of calls each returns a partition of its topic exactly
  when a `StickyPartitioner` is not asked to go by a batch size of zero, nor to stay at a partition
  that the topic does not have.
-/

set_option autoImplicit false

namespace Gaffa

open ByteString Transition

/-! ## The model -/

/-- `RoundRobinPartitioner`. -/
structure RoundRobinPartitioner where
  counter : Nat
  deriving DecidableEq, Repr

namespace RoundRobinPartitioner

/-- `RoundRobinPartitioner::new`. -/
def new : RoundRobinPartitioner := ⟨0⟩

/-- `RoundRobinPartitioner::partition`. -/
def partition (numPartitions : Nat) (p : RoundRobinPartitioner) : Nat × RoundRobinPartitioner :=
  if numPartitions = 0 then (0, p)
  else (p.counter % numPartitions, ⟨(p.counter + 1) % 2 ^ 32⟩)

end RoundRobinPartitioner

/-- `StickyPartitioner`. -/
structure StickyPartitioner where
  currentPartition : Nat
  messageCount : Nat
  batchSize : Nat
  deriving DecidableEq, Repr

namespace StickyPartitioner

/-- `StickyPartitioner::new`. -/
def new (batchSize : Nat) : StickyPartitioner := ⟨0, 0, batchSize⟩

/-- `StickyPartitioner::with_default_batch`. -/
def withDefaultBatch : StickyPartitioner := new 100

/-- `count % self.batch_size`. -/
def placeInBatch (p : StickyPartitioner) : Except Fault Nat :=
  if p.batchSize = 0 then
    .error (.panic "attempt to calculate the remainder with a divisor of zero")
  else .ok (p.messageCount % p.batchSize)

/-- "Switch partition every batch_size messages". -/
def switch (overflowChecks : Bool) (numPartitions : Nat) (p : StickyPartitioner) :
    Except Fault StickyPartitioner := do
  let next ← addWith overflowChecks 32 p.currentPartition 1
  return { p with currentPartition := next % numPartitions }

/-- The condition and the switch: nothing is divided for the first message. -/
def advance (overflowChecks : Bool) (numPartitions : Nat) (p : StickyPartitioner) :
    Except Fault StickyPartitioner :=
  if 0 < p.messageCount then do
    let place ← p.placeInBatch
    if place = 0 then p.switch overflowChecks numPartitions else return p
  else return p

/-- `fetch_add` on the count of messages. -/
def counted (p : StickyPartitioner) : StickyPartitioner :=
  { p with messageCount := (p.messageCount + 1) % 2 ^ 32 }

/-- `StickyPartitioner::partition`: the result and the partitioner, also where the call panics. -/
def partition (overflowChecks : Bool) (numPartitions : Nat) (p : StickyPartitioner) :
    Except Fault Nat × StickyPartitioner :=
  if numPartitions = 0 then (.ok 0, p)
  else
    match p.advance overflowChecks numPartitions with
    | .error e => (.error e, p.counted)
    | .ok p => (.ok p.currentPartition, p.counted)

end StickyPartitioner

/-- `dyn Partitioner`. -/
inductive Partitioner where
  | roundRobin (p : RoundRobinPartitioner)
  | keyHash
  | sticky (p : StickyPartitioner)
  deriving DecidableEq, Repr

/-- `Partitioner::partition`. -/
def Partitioner.partition (overflowChecks : Bool) (finish : Bytes → UInt64) (key : Option Bytes)
    (numPartitions : Nat) : Partitioner → Except Fault Nat × Partitioner
  | .roundRobin p => (.ok (p.partition numPartitions).1, .roundRobin (p.partition numPartitions).2)
  | .keyHash => (.ok (KeyHashPartitioner.partition finish key numPartitions), .keyHash)
  | .sticky p => ((p.partition overflowChecks numPartitions).1,
      .sticky (p.partition overflowChecks numPartitions).2)

/-- A partitioner as its constructors build it. -/
inductive Partitioner.Built : Partitioner → Prop
  | roundRobin : Built (.roundRobin .new)
  | keyHash : Built .keyHash
  | sticky (batchSize : Nat) : Built (.sticky (.new batchSize))

/-! ## Calls -/

/-- The arguments of a call. -/
structure PartitionerCall where
  key : Option Bytes
  numPartitions : Nat
  deriving DecidableEq, Repr

section Calls

variable (overflowChecks : Bool) (finish : Bytes → UInt64)

/-- A call for a topic that has partitions, as a step of the partitioner. -/
def Calls (p : Partitioner) (c : PartitionerCall) (q : Partitioner) : Prop :=
  0 < c.numPartitions ∧ c.numPartitions < 2 ^ 32 ∧
    q = (p.partition overflowChecks finish c.key c.numPartitions).2

/-- The call returns a partition of the topic. -/
def InRange (p : Partitioner) (c : PartitionerCall) (_ : Partitioner) : Prop :=
  ∃ partition, (p.partition overflowChecks finish c.key c.numPartitions).1 = .ok partition ∧
    partition < c.numPartitions

end Calls

/-- A call behind a full batch goes on to the next partition. -/
def StickyPartitioner.Switches (p : StickyPartitioner) : Prop :=
  0 < p.messageCount ∧ p.messageCount % p.batchSize = 0

/-- A `StickyPartitioner` has a batch size to divide by, if it divides, and where it does not switch
its partition is one that the topic has. -/
def Partitioner.Suits (p : Partitioner) (c : PartitionerCall) (_ : Partitioner) : Prop :=
  match p with
  | .roundRobin _ => True
  | .keyHash => True
  | .sticky p => (p.messageCount = 0 ∨ p.batchSize ≠ 0) ∧
      (p.Switches ∨ p.currentPartition < c.numPartitions)

/-- The current partition is one of a topic that there can be. -/
def Partitioner.Sound : Partitioner → Prop
  | .roundRobin _ => True
  | .keyHash => True
  | .sticky p => p.currentPartition + 1 < 2 ^ 32

theorem Partitioner.Built.sound {p : Partitioner} (h : p.Built) : p.Sound := by
  cases h with
  | roundRobin => trivial
  | keyHash => trivial
  | sticky batchSize => exact Nat.one_lt_two_pow (by decide)

/-! ## One call -/

section Step

variable {overflowChecks : Bool} {finish : Bytes → UInt64} {n : Nat}

theorem RoundRobinPartitioner.partition_lt (p : RoundRobinPartitioner) (hn : 0 < n) :
    (p.partition n).1 < n := by
  rw [partition, if_neg (Nat.ne_of_gt hn)]
  exact Nat.mod_lt _ hn

theorem KeyHashPartitioner.partition_lt (finish : Bytes → UInt64) (key : Option Bytes)
    (hn : 0 < n) : partition finish key n < n := by
  unfold partition
  rw [if_neg (Nat.ne_of_gt hn)]
  cases key with
  | none => exact hn
  | some k =>
    simp only
    split
    · exact Nat.mod_lt _ hn
    · exact hn

/-- **What a call of a `StickyPartitioner` does**: it panics, goes on to the next partition, or
stays. -/
theorem StickyPartitioner.partition_cases (overflowChecks : Bool) {p : StickyPartitioner}
    (hn : 0 < n) (hcurrent : p.currentPartition + 1 < 2 ^ 32) :
    (0 < p.messageCount ∧ p.batchSize = 0 ∧ ∃ message,
      p.partition overflowChecks n = (.error (.panic message), p.counted)) ∨
    (p.Switches ∧ p.batchSize ≠ 0 ∧ p.partition overflowChecks n =
      (.ok ((p.currentPartition + 1) % n),
        { p with currentPartition := (p.currentPartition + 1) % n }.counted)) ∨
    (¬ p.Switches ∧ (p.messageCount = 0 ∨ p.batchSize ≠ 0) ∧
      p.partition overflowChecks n = (.ok p.currentPartition, p.counted)) := by
  unfold partition
  rw [if_neg (Nat.ne_of_gt hn)]
  by_cases hcount : 0 < p.messageCount
  · by_cases hbatch : p.batchSize = 0
    · left
      refine ⟨hcount, hbatch, ?_⟩
      rw [advance, if_pos hcount, placeInBatch, if_pos hbatch]
      exact ⟨_, rfl⟩
    · right
      by_cases hplace : p.messageCount % p.batchSize = 0
      · left
        refine ⟨⟨hcount, hplace⟩, hbatch, ?_⟩
        rw [advance, if_pos hcount, placeInBatch, if_neg hbatch, ok_bind, if_pos hplace, switch,
          addWith_of_lt overflowChecks hcurrent]
        rfl
      · right
        refine ⟨fun h => hplace h.2, Or.inr hbatch, ?_⟩
        rw [advance, if_pos hcount, placeInBatch, if_neg hbatch, ok_bind, if_neg hplace]
        rfl
  · right
    right
    refine ⟨fun h => hcount h.1, Or.inl (Nat.eq_zero_of_not_pos hcount), ?_⟩
    rw [advance, if_neg hcount]
    rfl

variable {p q : Partitioner} {c : PartitionerCall}

/-- Every call keeps the current partition in range, also one that panics. -/
theorem Calls.sound (hp : p.Sound) (h : Calls overflowChecks finish p c q) : q.Sound := by
  obtain ⟨hn, hlt, rfl⟩ := h
  cases p with
  | roundRobin p => trivial
  | keyHash => trivial
  | sticky p =>
    change (p.partition overflowChecks c.numPartitions).2.currentPartition + 1 < 2 ^ 32
    rcases p.partition_cases overflowChecks hn hp with
      ⟨-, -, message, hcall⟩ | ⟨-, -, hcall⟩ | ⟨-, -, hcall⟩
    · rw [hcall]
      exact hp
    · rw [hcall]
      exact Nat.lt_of_le_of_lt (Nat.mod_lt _ hn) hlt
    · rw [hcall]
      exact hp

/-- **One call** is in range exactly when it suits the partitioner. -/
theorem Calls.inRange_iff (hp : p.Sound) (h : Calls overflowChecks finish p c q) :
    InRange overflowChecks finish p c q ↔ p.Suits c q := by
  obtain ⟨hn, -, -⟩ := h
  cases p with
  | roundRobin p => exact iff_of_true ⟨_, rfl, p.partition_lt hn⟩ trivial
  | keyHash => exact iff_of_true ⟨_, rfl, KeyHashPartitioner.partition_lt finish c.key hn⟩ trivial
  | sticky p =>
    change (∃ partition, (p.partition overflowChecks c.numPartitions).1 = .ok partition ∧
      partition < c.numPartitions) ↔ (p.messageCount = 0 ∨ p.batchSize ≠ 0) ∧
        (p.Switches ∨ p.currentPartition < c.numPartitions)
    rcases p.partition_cases overflowChecks hn hp with
      ⟨hcount, hbatch, message, hcall⟩ | ⟨hswitches, hbatch, hcall⟩ | ⟨hstays, hbatch, hcall⟩
    · rw [hcall]
      refine iff_of_false ?_ ?_
      · rintro ⟨partition, herror, -⟩
        cases herror
      · rintro ⟨hzero | hne, -⟩
        · exact Nat.ne_of_gt hcount hzero
        · exact hne hbatch
    · rw [hcall]
      exact iff_of_true ⟨_, rfl, Nat.mod_lt _ hn⟩ ⟨Or.inr hbatch, Or.inl hswitches⟩
    · rw [hcall]
      constructor
      · rintro ⟨partition, hok, hlt⟩
        cases hok
        exact ⟨hbatch, Or.inr hlt⟩
      · rintro ⟨-, hswitches | hlt⟩
        · exact absurd hswitches hstays
        · exact ⟨_, rfl, hlt⟩

end Step

/-! ## Runs -/

/-- **Partitioners stay in range**: along a run of calls, for topics with any numbers of partitions,
each call returns a partition of its topic exactly when each suits the partitioner as it is then. -/
theorem partitioners_in_range_iff (overflowChecks : Bool) (finish : Bytes → UInt64)
    (p : Partitioner) (hbuilt : p.Built) (tr : List (PartitionerCall × Partitioner))
    (hrun : Run (Calls overflowChecks finish) p tr) :
    EachStep (InRange overflowChecks finish) p tr ↔ EachStep Partitioner.Suits p tr :=
  eachStep_iff (I := Partitioner.Sound) (fun _ _ _ hp hcall _ => hcall.sound hp)
    (fun _ _ _ hp hcall => hcall.inRange_iff hp) hbuilt.sound hrun

/-- The run of some calls. -/
def callsFrom (p : Partitioner) : List PartitionerCall → List (PartitionerCall × Partitioner)
  | [] => []
  | c :: cs =>
    let q := (p.partition true (fun _ => 0) c.key c.numPartitions).2
    (c, q) :: callsFrom q cs

/-- Three messages to a topic with two partitions, the third of which is for its second one. -/
theorem partitioners_in_range_sticky :
    EachStep (InRange true fun _ => 0) (.sticky (.new 2))
      (callsFrom (.sticky (.new 2)) [⟨none, 2⟩, ⟨none, 2⟩, ⟨none, 2⟩]) :=
  (partitioners_in_range_iff true (fun _ => 0) (.sticky (.new 2)) (.sticky 2)
    (callsFrom (.sticky (.new 2)) [⟨none, 2⟩, ⟨none, 2⟩, ⟨none, 2⟩])
    ⟨⟨by decide, by decide, rfl⟩, ⟨by decide, by decide, rfl⟩, ⟨by decide, by decide, rfl⟩,
      trivial⟩).2 (by
    refine ⟨⟨Or.inl rfl, Or.inr ?_⟩, ⟨Or.inr ?_, Or.inr ?_⟩, ⟨Or.inr ?_, Or.inr ?_⟩, trivial⟩ <;>
      decide)

/-- A fourth message, to a topic with one partition, is sent to the partition of the third. -/
theorem sticky_out_of_range :
    ¬ ∀ (overflowChecks : Bool) (finish : Bytes → UInt64) (p : Partitioner)
      (tr : List (PartitionerCall × Partitioner)), p.Built →
        Run (Calls overflowChecks finish) p tr →
          EachStep (InRange overflowChecks finish) p tr := by
  intro h
  have hall := h true (fun _ => 0) (.sticky (.new 2))
    (callsFrom (.sticky (.new 2)) [⟨none, 2⟩, ⟨none, 2⟩, ⟨none, 2⟩, ⟨none, 1⟩]) (.sticky 2)
    ⟨⟨by decide, by decide, rfl⟩, ⟨by decide, by decide, rfl⟩, ⟨by decide, by decide, rfl⟩,
      ⟨by decide, by decide, rfl⟩, trivial⟩
  obtain ⟨-, -, -, ⟨partition, hok, hlt⟩, -⟩ := hall
  cases hok
  exact absurd hlt (by decide)

end Gaffa
