import Gaffa.Lib.Locks

/-!
# The locks of a segment

`storage/src/segment.rs`.  Every field of a `LogSegment` that changes is behind a readers-writer
lock of its own.  Here the calls on one segment are the order in which they take and give up these
locks; what they do with the fields is in `Gaffa.Storage.Segment`.

`append` gives `log_file` up before `remap` and locks it again there while it still has `index`, and
`read` locks `index` while it has `mmap`, so waiting is not ordered:

* `mutual_iff`: two calls wait for each other exactly at two pairs of places.
* `segment_deadlock_iff`: a run is free of deadlocks exactly when no call comes to one of these
  places while another call is at the place that crosses it.
* `segment_goes_on`: until then some call can make its next step.
* `guarded_never_deadlocks`: an append that runs while no other call does, as `Partition` has it
  with its list of segments locked, cannot deadlock.
-/

set_option autoImplicit false

namespace Gaffa

open Locks Transition

/-- The fields of `LogSegment` that are behind a lock. -/
inductive SegmentField where
  | logFile
  | mmap
  | index
  | size
  | nextOffset
  | recordsSinceIndex
  deriving DecidableEq, Repr

inductive SegmentCall where
  | append
  | read
  | readBatch
  | flush
  deriving DecidableEq, Repr

/-- `LogSegment::remap`; the file's length and the new map may be refused. -/
def remapOps : List (Op SegmentField) :=
  [.take .logFile .read, .work, .take .mmap .write, .work, .drop .mmap, .drop .logFile]

/-- `LogSegment::append`: it returns at once if there are no messages, and gives up `log_file`
before it calls `remap`. -/
def appendOps : List (Op SegmentField) :=
  [.work, .take .logFile .write, .take .index .write, .take .size .write,
    .take .nextOffset .write, .take .recordsSinceIndex .write, .work, .drop .logFile] ++ remapOps

/-- `LogSegment::read`: it may return before each lock and, with `mmap`, while it decodes. -/
def readOps : List (Op SegmentField) :=
  [.work, .take .nextOffset .read, .drop .nextOffset, .work, .take .mmap .read, .work,
    .take .index .read, .work, .drop .index, .work]

/-- `LogSegment::read_batch` takes the locks in the same order. -/
def readBatchOps : List (Op SegmentField) :=
  [.work, .take .nextOffset .read, .drop .nextOffset, .work, .take .mmap .read, .work,
    .take .index .read, .work, .drop .index, .work]

/-- `LogSegment::flush`. -/
def flushOps : List (Op SegmentField) :=
  [.take .logFile .write, .work, .take .index .write, .work]

namespace SegmentCall

def program : SegmentCall → List (Op SegmentField)
  | .append => appendOps
  | .read => readOps
  | .readBatch => readBatchOps
  | .flush => flushOps

/-- The points of a call; none takes twenty steps. -/
def points (c : SegmentCall) : List (Task SegmentCall SegmentField) :=
  (Task.ahead 20 ⟨c, [], c.program⟩).dedup

def all : List SegmentCall := [.append, .read, .readBatch, .flush]

theorem mem_all (c : SegmentCall) : c ∈ all := by
  cases c <;> decide

end SegmentCall

open SegmentCall

/-- The calls on a segment, by caller. -/
abbrev SegmentCalls (ι : Type) := Table ι (Task SegmentCall SegmentField)

/-- The places at which two calls wait for each other: the first waits for `index` with `log_file`
locked (`append`, `flush`) and the second for `log_file` in `remap` with `index` locked; or the
first waits for `mmap` in `remap` and the second, with `mmap` locked, for `index` (`read`,
`read_batch`). -/
def blocks (t u : Task SegmentCall SegmentField) : Bool :=
  match t.wants, u.wants with
  | some (.index, .write), some (.logFile, .read) => true
  | some (.mmap, .write), some (.index, .read) => true
  | _, _ => false

def crosses (t u : Task SegmentCall SegmentField) : Bool := blocks t u || blocks u t

/-- Waiting leads upwards: a call that has nothing locked, one that reads the index, the others. -/
def rank (t : Task SegmentCall SegmentField) : Nat :=
  if t.held = [] then 0 else if t.wants = some (.index, .read) then 1 else 2

theorem points_program : Points program points := by
  constructor
  · intro c
    have h : ∀ c ∈ all, ⟨c, [], c.program⟩ ∈ c.points := by decide +kernel
    exact h c (mem_all c)
  · intro c
    have h : ∀ c ∈ all, ∀ t ∈ c.points, ∀ t' ∈ t.after, t'.call = c ∧ t' ∈ c.points := by
      decide +kernel
    exact h c (mem_all c)
  · intro c
    have h : ∀ c ∈ all, ∀ t ∈ c.points, ∀ t' ∈ t.failed, t'.call = c ∧ t' ∈ c.points := by
      decide +kernel
    exact h c (mem_all c)

theorem ranked_points : Ranked points rank := by
  have h : ∀ c ∈ all, ∀ d ∈ all, ∀ t ∈ c.points, ∀ u ∈ d.points, t.compatible u = true →
      t.asksFor u = true → u.wants.isSome = true →
        (t.waitsFor u = true ∧ u.waitsFor t = true) ∨ rank t < rank u := by decide +kernel
  intro t u ht hu
  exact h t.call (mem_all _) u.call (mem_all _) t ht u hu

/-- Two calls wait for each other exactly where they cross. -/
theorem mutual_iff {t u : Task SegmentCall SegmentField} (ht : t ∈ t.call.points)
    (hu : u ∈ u.call.points) (hcomp : t.compatible u = true) :
    (t.waitsFor u = true ∧ u.waitsFor t = true) ↔ crosses t u = true := by
  have h : ∀ c ∈ all, ∀ d ∈ all, ∀ t ∈ c.points, ∀ u ∈ d.points, t.compatible u = true →
      ((t.waitsFor u = true ∧ u.waitsFor t = true) ↔ crosses t u = true) := by decide +kernel
  exact h t.call (mem_all _) u.call (mem_all _) t ht u hu hcomp

section Runs

variable {ι : Type} [DecidableEq ι]

/-- The next step of a call does not bring it to a place that crosses the one where another call
is. -/
def Careful (s : SegmentCalls ι) : Event ι SegmentCall → Prop
  | .step i => ∀ t ∈ s.get i, ∀ t' ∈ t.after, ∀ j ∈ s.keys, j ≠ i → ∀ u ∈ s.get j,
    crosses t' u = false
  | _ => True

instance decidableCareful (s : SegmentCalls ι) : ∀ e, Decidable (Careful s e)
  | .step i => inferInstanceAs (Decidable (∀ t ∈ s.get i, ∀ t' ∈ t.after, ∀ j ∈ s.keys, j ≠ i →
      ∀ u ∈ s.get j, crosses t' u = false))
  | .call .. => isTrue trivial
  | .fail _ => isTrue trivial

/-- No two calls are at places that cross. -/
def Uncrossed (s : SegmentCalls ι) : Prop :=
  ∀ i j t u, i ≠ j → s.get i = some t → s.get j = some u → crosses t u = false

theorem crosses_comm (t u : Task SegmentCall SegmentField) : crosses t u = crosses u t :=
  Bool.or_comm ..

/-- A call that takes no lock next crosses no other. -/
theorem crosses_of_wants_none {t : Task SegmentCall SegmentField} (h : t.wants = none)
    (u : Task SegmentCall SegmentField) : crosses t u = false := by
  cases hu : u.wants <;> simp [crosses, blocks, h, hu]

/-- No call starts where it could cross another. -/
theorem crosses_start (c : SegmentCall) (u : Task SegmentCall SegmentField) :
    crosses ⟨c, [], c.program⟩ u = false := by
  cases c with
  | flush =>
    have hwants : (⟨.flush, [], SegmentCall.flush.program⟩ : Task SegmentCall SegmentField).wants =
        some (.logFile, .write) := rfl
    cases hu : u.wants <;> simp [crosses, blocks, hwants, hu]
  | append => exact crosses_of_wants_none rfl u
  | read => exact crosses_of_wants_none rfl u
  | readBatch => exact crosses_of_wants_none rfl u

variable {s t : SegmentCalls ι} {e : Event ι SegmentCall}

/-- A task that crosses no other may be put in the place of the one of `i`. -/
theorem Uncrossed.insert (h : Uncrossed s) {i : ι} {x : Task SegmentCall SegmentField}
    (hx : ∀ j u, j ≠ i → s.get j = some u → crosses x u = false) : Uncrossed (s.insert i x) := by
  intro j k u v hjk hj hk
  rcases Table.get_insert_cases hj with ⟨rfl, rfl⟩ | ⟨hji, hj'⟩
  · exact hx k v hjk.symm ((Table.get_insert_ne _ hjk.symm).symm.trans hk)
  · rcases Table.get_insert_cases hk with ⟨rfl, rfl⟩ | ⟨-, hk'⟩
    · rw [crosses_comm]
      exact hx j u hji hj'
    · exact h j k u v hjk hj' hk'

/-- **One step**: no two calls cross afterwards exactly if the step was careful. -/
theorem uncrossed_next_iff (h : Uncrossed s) (hstep : next program s e = some t) :
    Uncrossed t ↔ Careful s e := by
  rcases next_cases hstep with ⟨i, c, rfl, -, rfl⟩ | ⟨i, x, y, rfl, hi, -, hx, rfl⟩ |
    ⟨i, x, rfl, hi, hx, rfl⟩ | ⟨i, x, y, rfl, -, hx, rfl⟩
  · refine iff_of_true (h.insert ?_) trivial
    intro j u _ _
    exact crosses_start c u
  · constructor
    · intro ht x' hx' y' hy' j hj hji u hu
      obtain rfl : x = x' := Option.some.inj (hi.symm.trans hx')
      obtain rfl : y = y' := Option.some.inj (hx.symm.trans hy')
      exact ht i j y u hji.symm (Table.get_insert_self ..) ((Table.get_insert_ne _ hji).trans hu)
    · intro hcareful
      apply h.insert
      intro j u hji hj
      exact hcareful x hi y hx j (Table.mem_keys_iff.2 ⟨u, hj⟩) hji u hj
  · refine iff_of_true ?_ ?_
    · intro j k u v hjk hj hk
      have hj' := (Table.get_remove_cases hj).2
      have hk' := (Table.get_remove_cases hk).2
      exact h j k u v hjk hj' hk'
    · intro x' hx' y' hy'
      obtain rfl : x = x' := Option.some.inj (hi.symm.trans hx')
      rw [hx] at hy'
      cases hy'
  · refine iff_of_true (h.insert ?_) trivial
    intro j u _ _
    have hwants : y.wants = none := by
      unfold Task.failed at hx
      split at hx <;> cases hx
      rfl
    exact crosses_of_wants_none hwants u

/-- In a settled state the calls are deadlocked exactly when two of them cross. -/
theorem deadlocked_iff_crossed (h : Settled points s) : Deadlocked s ↔ ¬Uncrossed s := by
  rw [deadlocked_iff ranked_points h]
  constructor
  · rintro ⟨i, j, ⟨hij, x, y, hx, hy, hxy⟩, -, y', x', hy', hx', hyx⟩ huncrossed
    obtain rfl : x = x' := Option.some.inj (hx.symm.trans hx')
    obtain rfl : y = y' := Option.some.inj (hy.symm.trans hy')
    have hcross := (mutual_iff (h.located i x hx) (h.located j y hy)
      (h.exclusive i j x y hij hx hy)).1 ⟨hxy, hyx⟩
    rw [huncrossed i j x y hij hx hy] at hcross
    cases hcross
  · intro hcrossed
    simp only [Uncrossed, not_forall, Bool.not_eq_false] at hcrossed
    obtain ⟨i, j, x, y, hij, hx, hy, hcross⟩ := hcrossed
    obtain ⟨hxy, hyx⟩ := (mutual_iff (h.located i x hx) (h.located j y hy)
      (h.exclusive i j x y hij hx hy)).2 hcross
    exact ⟨i, j, ⟨hij, x, y, hx, hy, hxy⟩, hij.symm, y, x, hy, hx, hyx⟩

omit [DecidableEq ι] in
theorem uncrossed_empty : Uncrossed (Table.empty : SegmentCalls ι) := by
  intro i j x y _ hx
  cases hx

/-- **Deadlocks on a segment**: in every run of any number of calls, no state is deadlocked exactly
when every step is careful. -/
theorem segment_deadlock_iff {tr : List (Event ι SegmentCall × SegmentCalls ι)}
    (h : Run (Steps (next program)) Table.empty tr) :
    Throughout (fun s => ¬Deadlocked s) Table.empty tr ↔
      EachStep (fun s e _ => Careful s e) Table.empty tr := by
  refine throughout_iff (I := fun s => Settled points s ∧ Uncrossed s) ?_ ?_ ?_
    ⟨settled_empty, uncrossed_empty⟩ h
  · rintro s e t ⟨hsettled, huncrossed⟩ hstep hcareful
    exact ⟨hsettled.next points_program hstep, (uncrossed_next_iff huncrossed hstep).2 hcareful⟩
  · rintro s ⟨hsettled, huncrossed⟩ hdead
    exact (deadlocked_iff_crossed hsettled).1 hdead huncrossed
  · rintro s e t ⟨hsettled, huncrossed⟩ hstep hfree
    have hsettled' := hsettled.next points_program hstep
    rw [deadlocked_iff_crossed hsettled', not_not] at hfree
    exact (uncrossed_next_iff huncrossed hstep).1 hfree

/-- Two appends: the second takes `log_file` when the first has given it up. -/
def twoAppends : List (Event Nat SegmentCall) :=
  .call 0 .append :: List.replicate 8 (.step 0) ++ .call 1 .append :: List.replicate 2 (.step 1)

theorem two_appends_deadlock :
    ∃ tr : List (Event Nat SegmentCall × SegmentCalls Nat),
      Run (Steps (next program)) Table.empty tr ∧ tr.map Prod.fst = twoAppends ∧
        ¬Throughout (fun s => ¬Deadlocked s) Table.empty tr := by
  obtain ⟨tr, htr, hends⟩ := Option.map_eq_some_iff.1
    (show (trace (next program) Table.empty twoAppends).map
        (fun tr => ((last Table.empty tr).get 0, (last Table.empty tr).get 1)) =
      some (some ⟨.append, [(.recordsSinceIndex, .write), (.nextOffset, .write), (.size, .write),
          (.index, .write)], remapOps⟩,
        some ⟨.append, [(.logFile, .write)], appendOps.drop 2⟩) by decide +kernel)
  obtain ⟨hfirst, hsecond⟩ := Prod.mk.inj hends
  refine ⟨tr, run_of_trace htr, events_of_trace htr, ?_⟩
  intro hfree
  apply hfree.at_last
  exact deadlocked_of_mutual
    ⟨Nat.zero_ne_one, _, _, hfirst, hsecond, by decide⟩
    ⟨Nat.one_ne_zero, _, _, hsecond, hfirst, by decide⟩

/-- An append that waits for the map, a read that is past the index, and a flush after both. -/
theorem segment_deadlock_iff_small :
    ∃ tr : List (Event Nat SegmentCall × SegmentCalls Nat),
      Run (Steps (next program)) Table.empty tr ∧
      (last Table.empty tr).get 2 = some ⟨.flush, [(.index, .write), (.logFile, .write)], [.work]⟩ ∧
        Throughout (fun s => ¬Deadlocked s) Table.empty tr := by
  obtain ⟨tr, htr, hsteps⟩ := Option.map_eq_some_iff.1
    (show (trace (next program) Table.empty
        (.call 1 .read :: List.replicate 9 (.step 1) ++
          .call 0 .append :: List.replicate 10 (.step 0) ++
          List.replicate 3 (.step 1) ++ List.replicate 9 (.step 0) ++
          .call 2 .flush :: List.replicate 3 (.step 2))).map
        (fun tr => decide ((last Table.empty tr).get 2 =
            some ⟨.flush, [(.index, .write), (.logFile, .write)], [.work]⟩ ∧
          EachStep (fun s e _ => Careful s e) Table.empty tr)) = some true by decide +kernel)
  obtain ⟨hflush, hcareful⟩ := of_decide_eq_true hsteps
  have hrun := run_of_trace htr
  exact ⟨tr, hrun, hflush, (segment_deadlock_iff hrun).2 hcareful⟩

/-- Calls that are not deadlocked go on. -/
theorem segment_goes_on {i : ι} {x : Task SegmentCall SegmentField} (hi : s.get i = some x)
    (h : ¬Deadlocked s) : ∃ j t, next program s (.step j) = some t :=
  exists_step program ⟨i, x, hi⟩ h

/-- Under locks with queues a call may also wait behind others for a lock that is only being read;
this adds no deadlock. -/
theorem queues_add_no_deadlock (h : Settled points s) {S : Finset ι} (hne : S.Nonempty)
    (hS : ∀ i ∈ S, ∃ j ∈ S, i ≠ j ∧ ∃ t u, s.get i = some t ∧ s.get j = some u ∧
      t.asksFor u = true) : Deadlocked s :=
  deadlocked_of_asking ranked_points h hne hS

/-! ## Appends that run alone -/

/-- An append is made while no other call runs, and no call while an append runs. -/
def Guarded (s : SegmentCalls ι) : Event ι SegmentCall → Prop
  | .call _ c => ∀ j u, s.get j = some u → c ≠ .append ∧ u.call ≠ .append
  | _ => True

def AppendsAlone (s : SegmentCalls ι) : Prop :=
  ∀ i j t u, i ≠ j → s.get i = some t → s.get j = some u → t.call ≠ .append

/-- Two calls cross only if one of them is an append. -/
theorem append_of_crosses {t u : Task SegmentCall SegmentField} (ht : t ∈ t.call.points)
    (hu : u ∈ u.call.points) (h : crosses t u = true) : t.call = .append ∨ u.call = .append := by
  have hall : ∀ c ∈ all, ∀ d ∈ all, ∀ t ∈ c.points, ∀ u ∈ d.points, crosses t u = true →
      c = .append ∨ d = .append := by decide +kernel
  exact hall t.call (mem_all _) u.call (mem_all _) t ht u hu h

/-- The call of a task stays the same, so appends that are alone stay alone. -/
theorem AppendsAlone.insert (h : AppendsAlone s) {i : ι} {x y : Task SegmentCall SegmentField}
    (hi : s.get i = some x) (hcall : y.call = x.call) : AppendsAlone (s.insert i y) := by
  have hold : ∀ j u, (s.insert i y).get j = some u → ∃ v, s.get j = some v ∧ u.call = v.call := by
    intro j u hj
    rcases Table.get_insert_cases hj with ⟨rfl, rfl⟩ | ⟨-, hj'⟩
    · exact ⟨x, hi, hcall⟩
    · exact ⟨u, hj', rfl⟩
  intro j k u v hjk hj hk
  obtain ⟨u', hu', hcallu⟩ := hold j u hj
  obtain ⟨v', hv', -⟩ := hold k v hk
  rw [hcallu]
  exact h j k u' v' hjk hu' hv'

theorem AppendsAlone.next (hsettled : Settled points s) (h : AppendsAlone s)
    (hstep : next program s e = some t) (hguard : Guarded s e) : AppendsAlone t := by
  rcases next_cases hstep with ⟨i, c, rfl, hnone, rfl⟩ | ⟨i, x, y, rfl, hi, -, hx, rfl⟩ |
    ⟨i, x, rfl, -, -, rfl⟩ | ⟨i, x, y, rfl, hi, hx, rfl⟩
  · intro j k u v hjk hj hk
    rcases Table.get_insert_cases hj with ⟨rfl, rfl⟩ | ⟨hji, hj'⟩
    · exact (hguard k v ((Table.get_insert_ne _ hjk.symm).symm.trans hk)).1
    · exact (hguard j u hj').2
  · exact h.insert hi (points_program.after x.call x (hsettled.located i x hi) y hx).1
  · intro j k u v hjk hj hk
    have hj' := (Table.get_remove_cases hj).2
    have hk' := (Table.get_remove_cases hk).2
    exact h j k u v hjk hj' hk'
  · exact h.insert hi (points_program.failed x.call x (hsettled.located i x hi) y hx).1

/-- **Appends that run alone do not deadlock**, whatever reads and flushes there are. -/
theorem guarded_never_deadlocks {tr : List (Event ι SegmentCall × SegmentCalls ι)}
    (h : Run (Steps (next program)) Table.empty tr)
    (hguard : EachStep (fun s e _ => Guarded s e) Table.empty tr) :
    Throughout (fun s => ¬Deadlocked s) Table.empty tr := by
  have hinv : Throughout (fun s => Settled points s ∧ AppendsAlone s) Table.empty tr := by
    refine throughout_of_invariant ?_ ⟨settled_empty, ?_⟩ h hguard
    · rintro s e t ⟨hsettled, halone⟩ hstep hguard
      exact ⟨hsettled.next points_program hstep, halone.next hsettled hstep hguard⟩
    · intro i j x y _ hx
      cases hx
  refine hinv.mono ?_
  rintro s ⟨hsettled, halone⟩ hdead
  apply (deadlocked_iff_crossed hsettled).1 hdead
  intro i j x y hij hx hy
  by_contra hcross
  rw [Bool.not_eq_false] at hcross
  rcases append_of_crosses (hsettled.located i x hx) (hsettled.located j y hy) hcross with
    happend | happend
  · exact halone i j x y hij hx hy happend
  · exact halone j i y x hij.symm hy hx happend

end Runs

end Gaffa
