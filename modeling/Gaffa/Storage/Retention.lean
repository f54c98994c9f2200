import Gaffa.Error
import Mathlib.Algebra.Order.BigOperators.Group.List
import Mathlib.Algebra.Order.Group.Nat
import Mathlib.Data.List.Nodup

/-!
# Retention

`storage/src/retention.rs`: which segments of a log, oldest first, are to be deleted.  The loop
keeps the total size of the segments from the current one on, and stops at the first that it keeps.

* `deletes_due_segments`: it deletes the longest prefix of segments that are due.
* `active_segment_kept_iff`: the last segment is kept unless no segment has to be kept and each
  meets the condition of the policy.
-/

set_option autoImplicit false

namespace Gaffa

/-! ## The model -/

/-- `Duration`, in nanoseconds. -/
abbrev Duration := Nat

/-- `Duration::from_secs`. -/
def Duration.fromSecs (secs : Nat) : Duration := secs * 10 ^ 9

/-- `RetentionPolicy`. -/
inductive RetentionPolicy where
  | time (maxAge : Duration)
  | size (maxSize : Nat)
  | both (maxAge : Duration) (maxSize : Nat)
  | unlimited
  deriving DecidableEq, Repr

/-- `RetentionConfig`; its fields are public. -/
structure RetentionConfig where
  policy : RetentionPolicy
  minSegments : Nat
  deriving DecidableEq, Repr

namespace RetentionConfig

/-- `RetentionConfig::default`: seven days. -/
def default : RetentionConfig := ⟨.time (Duration.fromSecs (7 * 24 * 60 * 60)), 1⟩

/-- `RetentionConfig::time`. -/
def time (maxAge : Duration) : RetentionConfig := ⟨.time maxAge, 1⟩

/-- `RetentionConfig::size`. -/
def size (maxSize : Nat) : RetentionConfig := ⟨.size maxSize, 1⟩

/-- `RetentionConfig::both`. -/
def both (maxAge : Duration) (maxSize : Nat) : RetentionConfig := ⟨.both maxAge maxSize, 1⟩

/-- `RetentionConfig::unlimited`. -/
def unlimited : RetentionConfig := ⟨.unlimited, 1⟩

/-- `RetentionConfig::with_min_segments`. -/
def withMinSegments (config : RetentionConfig) (min : Nat) : RetentionConfig :=
  { config with minSegments := min }

/-- `RetentionConfig::should_delete_segment`. -/
def shouldDeleteSegment (config : RetentionConfig) (segmentAge : Duration)
    (totalSize segmentCount : Nat) : Bool :=
  if segmentCount ≤ config.minSegments then false
  else
    match config.policy with
    | .unlimited => false
    | .time maxAge => decide (maxAge < segmentAge)
    | .size maxSize => decide (maxSize < totalSize)
    | .both maxAge maxSize => decide (maxAge < segmentAge) || decide (maxSize < totalSize)

end RetentionConfig

/-- `SegmentMetadata`; the creation time is in seconds since the Unix epoch. -/
structure SegmentMetadata where
  baseOffset : Nat
  size : Nat
  createdAt : Nat
  deriving DecidableEq, Repr

/-- `SegmentMetadata::age` when `SystemTime::now` is `now`, in seconds since the Unix epoch; the
`unwrap` is of a clock that is set to a time before it. -/
def SegmentMetadata.age (segment : SegmentMetadata) (now : Int) : Except Fault Duration :=
  if now < 0 then
    .error (.panic "called `Result::unwrap()` on an `Err` value: SystemTimeError")
  else .ok (Duration.fromSecs (now.toNat - segment.createdAt))

/-- `RetentionManager`. -/
structure RetentionManager where
  config : RetentionConfig

namespace RetentionManager

/-- `segments.iter().map(|s| s.size).sum()`. -/
def totalSize (overflowChecks : Bool) (segments : List SegmentMetadata) : Except Fault Nat :=
  segments.foldlM (fun total segment => addWith overflowChecks 64 total segment.size) 0

/-- The loop of `segments_to_delete` from the `idx`-th segment on, which gives what it still adds to
`to_delete`; `clock idx` is what the clock reads when the age of that segment is asked for. -/
def loop (overflowChecks : Bool) (config : RetentionConfig) (clock : Nat → Int)
    (segmentCount : Nat) : Nat → Nat → List SegmentMetadata → Except Fault (List Nat)
  | _, _, [] => .ok []
  | idx, cumulativeSize, segment :: segments => do
    let age ← segment.age (clock idx)
    if config.shouldDeleteSegment age cumulativeSize (segmentCount - idx) then
      let cumulativeSize ← subWith overflowChecks 64 cumulativeSize segment.size
      let toDelete ← loop overflowChecks config clock segmentCount (idx + 1) cumulativeSize segments
      return segment.baseOffset :: toDelete
    else return []

/-- `RetentionManager::segments_to_delete`. -/
def segmentsToDelete (overflowChecks : Bool) (manager : RetentionManager) (clock : Nat → Int)
    (segments : List SegmentMetadata) : Except Fault (List Nat) :=
  if segments.isEmpty then .ok []
  else do
    let total ← totalSize overflowChecks segments
    loop overflowChecks manager.config clock segments.length 0 total segments

end RetentionManager

/-! ## What retention is for -/

/-- The condition of a policy on a segment, by its age and the total size from it on. -/
def RetentionPolicy.Met : RetentionPolicy → Duration → Nat → Prop
  | .time maxAge, age, _ => maxAge < age
  | .size maxSize, _, total => maxSize < total
  | .both maxAge maxSize, age, total => maxAge < age ∨ maxSize < total
  | .unlimited, _, _ => False

/-- The total size of the segments from the `i`-th on. -/
def sizeFrom (segments : List SegmentMetadata) (i : Nat) : Nat :=
  ((segments.drop i).map SegmentMetadata.size).sum

/-- The age of a segment, by a clock that is not set before the epoch. -/
def SegmentMetadata.ageAt (segment : SegmentMetadata) (now : Nat) : Duration :=
  Duration.fromSecs (now - segment.createdAt)

/-- The `i`-th segment is due at its turn: the count of those from it on is over the minimum, and it
meets the policy by the total that is kept for them. -/
structure Due (config : RetentionConfig) (clock total : Nat → Nat)
    (segments : List SegmentMetadata) (i : Nat) : Prop where
  count : config.minSegments < segments.length - i
  met : ∃ segment, segments[i]? = some segment ∧
    config.policy.Met (segment.ageAt (clock i)) (total i)

/-- The first `n` of `len` places are the longest prefix of places with `P`. -/
structure LongestPrefix (P : Nat → Prop) (len n : Nat) : Prop where
  le : n ≤ len
  each : ∀ i, i < n → P i
  stops : n < len → ¬ P n

/-! ## One segment -/

theorem shouldDeleteSegment_iff {config : RetentionConfig} {age : Duration} {total count : Nat} :
    config.shouldDeleteSegment age total count = true ↔
      config.minSegments < count ∧ config.policy.Met age total := by
  unfold RetentionConfig.shouldDeleteSegment
  split
  · rename_i hle
    exact iff_of_false Bool.false_ne_true fun h => Nat.not_lt_of_le hle h.1
  · rename_i hlt
    rw [and_iff_right (Nat.lt_of_not_le hlt)]
    cases config.policy with
    | time maxAge => exact decide_eq_true_iff
    | size maxSize => exact decide_eq_true_iff
    | both maxAge maxSize => simp [RetentionPolicy.Met]
    | unlimited => simp [RetentionPolicy.Met]

theorem age_of_since (segment : SegmentMetadata) (now : Nat) :
    segment.age (now : Int) = .ok (segment.ageAt now) := if_neg (by omega)

/-! ## The total -/

theorem foldlM_size_cases (overflowChecks : Bool) (segments : List SegmentMetadata) (total : Nat)
    (h : overflowChecks = true → total < 2 ^ 64) :
    (overflowChecks = true ∧ 2 ^ 64 ≤ total + (segments.map SegmentMetadata.size).sum ∧
      ∃ message, segments.foldlM (fun total segment => addWith overflowChecks 64 total segment.size)
        (total % 2 ^ 64) = .error (.panic message)) ∨
    ((overflowChecks = true → total + (segments.map SegmentMetadata.size).sum < 2 ^ 64) ∧
      segments.foldlM (fun total segment => addWith overflowChecks 64 total segment.size)
        (total % 2 ^ 64) = .ok ((total + (segments.map SegmentMetadata.size).sum) % 2 ^ 64)) := by
  induction segments generalizing total with
  | nil => exact Or.inr ⟨h, rfl⟩
  | cons segment segments ih =>
    rw [List.map_cons, List.sum_cons, ← Nat.add_assoc, List.foldlM_cons]
    rcases addWith_mod segment.size h with ⟨hchecks, hge, message, hpanic⟩ | ⟨hlt, hok⟩
    · left
      rw [hpanic]
      exact ⟨hchecks, Nat.le_trans hge (Nat.le_add_right ..), message, rfl⟩
    · rw [hok]
      exact ih (total + segment.size) hlt

/-- With overflow checks the sum is exact or the call panics, without them it wraps. -/
theorem totalSize_cases (overflowChecks : Bool) (segments : List SegmentMetadata) :
    (overflowChecks = true ∧ 2 ^ 64 ≤ sizeFrom segments 0 ∧
      ∃ message, RetentionManager.totalSize overflowChecks segments = .error (.panic message)) ∨
    ((overflowChecks = true → sizeFrom segments 0 < 2 ^ 64) ∧
      RetentionManager.totalSize overflowChecks segments = .ok (sizeFrom segments 0 % 2 ^ 64)) := by
  have hcases := foldlM_size_cases overflowChecks segments 0 (fun _ => Nat.two_pow_pos 64)
  rw [Nat.zero_add, Nat.zero_mod] at hcases
  exact hcases

/-! ## The loop -/

theorem sizeFrom_of_drop {segments rest : List SegmentMetadata} {segment : SegmentMetadata}
    {i : Nat} (h : segments.drop i = segment :: rest) :
    sizeFrom segments i = segment.size + sizeFrom segments (i + 1) := by
  have hrest : segments.drop (i + 1) = rest := by
    rw [← List.tail_drop, h, List.tail_cons]
  rw [sizeFrom, h, sizeFrom, hrest, List.map_cons, List.sum_cons]

theorem sizeFrom_le (segments : List SegmentMetadata) {i j : Nat} (h : i ≤ j) :
    sizeFrom segments j ≤ sizeFrom segments i := by
  have hsublist : ((segments.drop j).map SegmentMetadata.size).Sublist
      ((segments.drop i).map SegmentMetadata.size) := (List.drop_sublist_drop_left segments h).map _
  exact hsublist.sum_le_sum (fun _ _ => Nat.zero_le _)

/-- **The loop** from the `idx`-th segment on deletes the segments that are due, up to the first
that is not. -/
theorem loop_spec {overflowChecks : Bool} (config : RetentionConfig) (clock : Nat → Nat)
    {segments : List SegmentMetadata}
    (hchecks : overflowChecks = true → sizeFrom segments 0 < 2 ^ 64) {idx : Nat}
    {rest : List SegmentMetadata} (hrest : segments.drop idx = rest) :
    ∃ n, n ≤ rest.length ∧
      (∀ i, i < n → Due config clock (fun i => sizeFrom segments i % 2 ^ 64) segments (idx + i)) ∧
      (n < rest.length →
        ¬ Due config clock (fun i => sizeFrom segments i % 2 ^ 64) segments (idx + n)) ∧
      RetentionManager.loop overflowChecks config (fun i => clock i) segments.length idx
        (sizeFrom segments idx % 2 ^ 64) rest =
          .ok ((rest.take n).map SegmentMetadata.baseOffset) := by
  induction rest generalizing idx with
  | nil =>
    exact ⟨0, Nat.le_refl 0, fun i hi => absurd hi (Nat.not_lt_zero i),
      fun h => absurd h (Nat.lt_irrefl 0), rfl⟩
  | cons segment rest ih =>
    have hget : segments[idx]? = some segment := by
      rw [← List.head?_drop, hrest, List.head?_cons]
    have hdrop : segments.drop (idx + 1) = rest := by
      rw [← List.tail_drop, hrest, List.tail_cons]
    unfold RetentionManager.loop
    rw [age_of_since, ok_bind]
    split
    · rename_i hdelete
      have hdue : Due config clock (fun i => sizeFrom segments i % 2 ^ 64) segments idx := by
        obtain ⟨hcount, hmet⟩ := shouldDeleteSegment_iff.1 hdelete
        exact ⟨hcount, segment, hget, hmet⟩
      have hfits : overflowChecks = true →
          segment.size + sizeFrom segments (idx + 1) < 2 ^ 64 := by
        intro hoverflow
        rw [← sizeFrom_of_drop hrest]
        exact Nat.lt_of_le_of_lt (sizeFrom_le segments (Nat.zero_le idx)) (hchecks hoverflow)
      obtain ⟨n, hle, heach, hstops, hloop⟩ := ih hdrop
      refine ⟨n + 1, Nat.succ_le_succ hle, ?_, ?_, ?_⟩
      · intro i hi
        cases i with
        | zero => exact hdue
        | succ i =>
          have hi' := heach i (Nat.lt_of_succ_lt_succ hi)
          rwa [Nat.add_right_comm] at hi'
      · intro hlt
        have hstop := hstops (Nat.lt_of_succ_lt_succ hlt)
        rwa [Nat.add_right_comm] at hstop
      · rw [sizeFrom_of_drop hrest, subWith_add hfits, ok_bind, hloop]
        rfl
    · rename_i hkeep
      refine ⟨0, Nat.zero_le _, fun i hi => absurd hi (Nat.not_lt_zero i), ?_, rfl⟩
      rintro - ⟨hcount, segment', hget', hmet⟩
      obtain rfl : segment = segment' := Option.some.inj (hget.symm.trans hget')
      exact hkeep (shouldDeleteSegment_iff.2 ⟨hcount, hmet⟩)

/-- The call, where it does not panic on the sum: `cumulative_size` is known modulo `2 ^ 64`. -/
theorem segmentsToDelete_spec {overflowChecks : Bool} (manager : RetentionManager)
    (clock : Nat → Nat) {segments : List SegmentMetadata}
    (hchecks : overflowChecks = true → sizeFrom segments 0 < 2 ^ 64) :
    ∃ n, LongestPrefix
        (Due manager.config clock (fun i => sizeFrom segments i % 2 ^ 64) segments)
        segments.length n ∧
      manager.segmentsToDelete overflowChecks (fun i => clock i) segments =
        .ok ((segments.take n).map SegmentMetadata.baseOffset) := by
  obtain ⟨n, hle, heach, hstops, hloop⟩ := loop_spec manager.config clock hchecks
    (List.drop_zero (l := segments))
  simp only [Nat.zero_add] at heach hstops
  refine ⟨n, ⟨hle, heach, hstops⟩, ?_⟩
  unfold RetentionManager.segmentsToDelete
  split
  · rename_i hempty
    rw [List.isEmpty_iff.1 hempty, List.take_nil]
    rfl
  · rcases totalSize_cases overflowChecks segments with ⟨hoverflow, hge, -⟩ | ⟨-, htotal⟩
    · exact absurd (hchecks hoverflow) (Nat.not_lt_of_le hge)
    · rw [htotal, ok_bind]
      exact hloop

/-- With overflow checks a sum that does not fit ends the call. -/
theorem segmentsToDelete_overflow (manager : RetentionManager) (clock : Nat → Int)
    {segments : List SegmentMetadata} (h : 2 ^ 64 ≤ sizeFrom segments 0) :
    ∃ message, manager.segmentsToDelete true clock segments = .error (.panic message) := by
  unfold RetentionManager.segmentsToDelete
  split
  · rename_i hempty
    rw [List.isEmpty_iff.1 hempty] at h
    exact absurd h (Nat.not_le_of_lt (Nat.two_pow_pos 64))
  · rcases totalSize_cases true segments with ⟨-, -, message, hpanic⟩ | ⟨hlt, -⟩
    · rw [hpanic]
      exact ⟨message, rfl⟩
    · exact absurd h (Nat.not_le_of_lt (hlt rfl))

/-- **Retention deletes the right prefix.**  Where the sizes fit 64 bits, each segment's turn comes
with the total of the sizes from it on, also with overflow checks, so that `cumulative_size` never
goes below zero; and the minimum count and, by size, the limit are what stops the deletion. -/
theorem deletes_due_segments (overflowChecks : Bool) (manager : RetentionManager)
    (clock : Nat → Nat) (segments : List SegmentMetadata)
    (hsizes : (segments.map SegmentMetadata.size).sum < 2 ^ 64) :
    ∃ n, LongestPrefix (Due manager.config clock (sizeFrom segments) segments) segments.length n ∧
      manager.segmentsToDelete overflowChecks (fun i => clock i) segments =
        .ok ((segments.take n).map SegmentMetadata.baseOffset) ∧
      min segments.length manager.config.minSegments ≤ segments.length - n ∧
      ∀ maxSize, manager.config.policy = .size maxSize →
        (sizeFrom segments n ≤ maxSize ∨
          segments.length - n ≤ manager.config.minSegments) ∧
        (0 < n → maxSize < sizeFrom segments (n - 1)) := by
  have htotal : (fun i => sizeFrom segments i % 2 ^ 64) = sizeFrom segments := by
    funext i
    exact Nat.mod_eq_of_lt (Nat.lt_of_le_of_lt (sizeFrom_le segments (Nat.zero_le i)) hsizes)
  obtain ⟨n, hlongest, hdelete⟩ := segmentsToDelete_spec manager clock
    (fun _ => hsizes : overflowChecks = true → sizeFrom segments 0 < 2 ^ 64)
  rw [htotal] at hlongest
  refine ⟨n, hlongest, hdelete, ?_, ?_⟩
  · cases n with
    | zero => exact Nat.min_le_left ..
    | succ n =>
      have hcount := (hlongest.each n (Nat.lt_succ_self n)).count
      omega
  · intro maxSize hpolicy
    constructor
    · by_cases hlt : n < segments.length
      · have hstops := hlongest.stops hlt
        by_contra hover
        obtain ⟨hsize, hcount⟩ := not_or.1 hover
        refine hstops ⟨Nat.lt_of_not_le hcount, segments[n], List.getElem?_eq_getElem hlt, ?_⟩
        rw [hpolicy]
        exact Nat.lt_of_not_le hsize
      · right
        omega
    · intro hpos
      obtain ⟨-, segment, -, hmet⟩ := hlongest.each (n - 1) (Nat.sub_lt hpos Nat.one_pos)
      rw [hpolicy] at hmet
      exact hmet

/-- Four segments of 1000, 1000, 1000 and 500 bytes, with a limit of 2500: the first is deleted. -/
theorem deletes_due_segments_four :
    ∃ n, LongestPrefix
        (Due (.size 2500) (fun _ => 3600)
          (sizeFrom [⟨0, 1000, 0⟩, ⟨100, 1000, 1800⟩, ⟨200, 1000, 2700⟩, ⟨300, 500, 3300⟩])
          [⟨0, 1000, 0⟩, ⟨100, 1000, 1800⟩, ⟨200, 1000, 2700⟩, ⟨300, 500, 3300⟩]) 4 n ∧
      RetentionManager.segmentsToDelete true ⟨.size 2500⟩ (fun _ => 3600)
          [⟨0, 1000, 0⟩, ⟨100, 1000, 1800⟩, ⟨200, 1000, 2700⟩, ⟨300, 500, 3300⟩] = .ok [0] := by
  obtain ⟨n, hlongest, hdelete, -⟩ := deletes_due_segments true ⟨.size 2500⟩ (fun _ => 3600)
    [⟨0, 1000, 0⟩, ⟨100, 1000, 1800⟩, ⟨200, 1000, 2700⟩, ⟨300, 500, 3300⟩] (by decide)
  exact ⟨n, hlongest, by decide⟩

/-! ## The active segment -/

/-- The last segment is among the first `n` only if these are all. -/
theorem mem_take_iff {segments : List SegmentMetadata} {active : SegmentMetadata}
    (hlast : segments.getLast? = some active)
    (hdistinct : (segments.map SegmentMetadata.baseOffset).Nodup) {n : Nat}
    (hn : n ≤ segments.length) :
    active.baseOffset ∈ (segments.take n).map SegmentMetadata.baseOffset ↔
      n = segments.length := by
  constructor
  · intro hmem
    obtain ⟨segment, hsegment, hbase⟩ := List.mem_map.1 hmem
    obtain ⟨i, hi⟩ := List.mem_iff_getElem?.1 hsegment
    have hlt : i < n := by
      have hlength := (List.getElem?_eq_some_iff.1 hi).1
      rw [List.length_take] at hlength
      omega
    rw [List.getElem?_take_of_lt hlt] at hi
    have hactive : segments[segments.length - 1]? = some active := by
      rw [← List.getLast?_eq_getElem?, hlast]
    have hsame : (segments.map SegmentMetadata.baseOffset)[i]? =
        (segments.map SegmentMetadata.baseOffset)[segments.length - 1]? := by
      rw [List.getElem?_map, List.getElem?_map, hi, hactive]
      exact congrArg some hbase
    have hindex := (List.getElem?_inj (by rw [List.length_map]; omega) hdistinct).1 hsame
    omega
  · rintro rfl
    rw [List.take_length]
    exact List.mem_map_of_mem (List.mem_of_getLast? hlast)

/-- Every segment is due when none has to be kept and each meets the policy. -/
theorem longestPrefix_all_iff {config : RetentionConfig} {clock total : Nat → Nat}
    {segments : List SegmentMetadata} (hne : segments ≠ []) {n : Nat}
    (h : LongestPrefix (Due config clock total segments) segments.length n) :
    n = segments.length ↔ config.minSegments = 0 ∧
      ∀ i segment, segments[i]? = some segment →
        config.policy.Met (segment.ageAt (clock i)) (total i) := by
  have hpos : 0 < segments.length := List.length_pos_iff.2 hne
  constructor
  · rintro rfl
    constructor
    · have hcount := (h.each (segments.length - 1) (Nat.sub_lt hpos Nat.one_pos)).count
      omega
    · intro i segment hget
      obtain ⟨hlt, -⟩ := List.getElem?_eq_some_iff.1 hget
      obtain ⟨-, segment', hget', hmet⟩ := h.each i hlt
      obtain rfl : segment = segment' := Option.some.inj (hget.symm.trans hget')
      exact hmet
  · rintro ⟨hmin, hmet⟩
    by_contra hne'
    have hlt : n < segments.length := Nat.lt_of_le_of_ne h.le hne'
    refine h.stops hlt ⟨?_, segments[n], List.getElem?_eq_getElem hlt, ?_⟩
    · rw [hmin]
      exact Nat.sub_pos_of_lt hlt
    · exact hmet n _ (List.getElem?_eq_getElem hlt)

/-- One manager never lists the active segment for deletion. -/
def KeepsActive (overflowChecks : Bool) (manager : RetentionManager) (clock : Nat → Nat)
    (segments : List SegmentMetadata) (active : SegmentMetadata) : Prop :=
  ∀ toDelete, manager.segmentsToDelete overflowChecks (fun i => clock i) segments = .ok toDelete →
    active.baseOffset ∉ toDelete

/-- **The active segment** is kept unless no segment has to be kept and each meets the policy, by
the total as the loop has it, which wraps without overflow checks and with them ends the call. -/
theorem active_segment_kept_iff (overflowChecks : Bool) (manager : RetentionManager)
    (clock : Nat → Nat) (segments : List SegmentMetadata) (active : SegmentMetadata)
    (hlast : segments.getLast? = some active)
    (hdistinct : (segments.map SegmentMetadata.baseOffset).Nodup) :
    KeepsActive overflowChecks manager clock segments active ↔
      0 < manager.config.minSegments ∨
      (overflowChecks = true ∧ 2 ^ 64 ≤ sizeFrom segments 0) ∨
      ∃ i segment, segments[i]? = some segment ∧
        ¬ manager.config.policy.Met (segment.ageAt (clock i)) (sizeFrom segments i % 2 ^ 64) := by
  by_cases hpanic : overflowChecks = true ∧ 2 ^ 64 ≤ sizeFrom segments 0
  · obtain ⟨rfl, hge⟩ := hpanic
    refine iff_of_true ?_ (Or.inr (Or.inl ⟨rfl, hge⟩))
    obtain ⟨message, herror⟩ := segmentsToDelete_overflow manager (fun i => clock i) hge
    intro toDelete hok
    rw [herror] at hok
    cases hok
  · have hchecks : overflowChecks = true → sizeFrom segments 0 < 2 ^ 64 :=
      fun hoverflow => Nat.lt_of_not_le fun hge => hpanic ⟨hoverflow, hge⟩
    obtain ⟨n, hlongest, hdelete⟩ := segmentsToDelete_spec manager clock hchecks
    have hne : segments ≠ [] := by
      rintro rfl
      cases hlast
    have hkeeps : KeepsActive overflowChecks manager clock segments active ↔
        n ≠ segments.length := by
      unfold KeepsActive
      rw [hdelete, Ne, ← mem_take_iff hlast hdistinct hlongest.le]
      constructor
      · intro h
        exact h _ rfl
      · intro h toDelete hok
        cases hok
        exact h
    rw [hkeeps, Ne, longestPrefix_all_iff hne hlongest, not_and_or, or_iff_right hpanic,
      Nat.pos_iff_ne_zero]
    simp only [not_forall, exists_prop, Ne]

/-- Two segments that are over an hour old, and no segment that has to be kept. -/
theorem active_segment_kept_not_always :
    ¬ ∀ (overflowChecks : Bool) (manager : RetentionManager) (clock : Nat → Nat)
      (segments : List SegmentMetadata) (active : SegmentMetadata),
      segments.getLast? = some active → (segments.map SegmentMetadata.baseOffset).Nodup →
        KeepsActive overflowChecks manager clock segments active := by
  intro h
  have hkeeps := h true ⟨(RetentionConfig.time (Duration.fromSecs 3600)).withMinSegments 0⟩
    (fun _ => 8000) [⟨0, 1000, 0⟩, ⟨100, 500, 1000⟩] ⟨100, 500, 1000⟩ rfl (by decide)
  exact hkeeps [0, 100] (by decide) (by decide)

/-- With a minimum of one segment, of one segment that is over an hour old none is deleted. -/
theorem active_segment_kept_one :
    KeepsActive true ⟨.time (Duration.fromSecs 3600)⟩ (fun _ => 8000) [⟨0, 1000, 0⟩]
      ⟨0, 1000, 0⟩ :=
  (active_segment_kept_iff true ⟨.time (Duration.fromSecs 3600)⟩ (fun _ => 8000) [⟨0, 1000, 0⟩]
    ⟨0, 1000, 0⟩ rfl (by decide)).2 (Or.inl Nat.one_pos)

end Gaffa
