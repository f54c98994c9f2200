import Mathlib.Order.CompletePartialOrder
import Mathlib.Data.Set.Lattice
import Gaffa.Client.Obligations
import Gaffa.Client.Pairing

/-!
# One heartbeat task

`client/src/consumer.rs`.  A consumer keeps the handle of one heartbeat task.  `leave_group` and the
drop of the consumer abort the task of that handle; `join_group` puts the handle of a new task into
the place of the old one, whose task goes on.

* `use_leaves`: what is done with a consumer keeps the handle of the task that is running, and
  `leave_group` and drop leave none running.
* `one_heartbeat_iff`: at most one task is running in all states of a run, and none once the consumer
  has left, exactly when no task is started while another one is running.
-/

set_option autoImplicit false

namespace Gaffa

open Dialogue Transition

/-- `Drop for Consumer`. -/
def Consumer.drop (c : Consumer) : Client Consumer :=
  match c.heartbeatTask with
  | none => .done c
  | some task => do
    abort task
    return { c with heartbeatTask := none }

/-- What is done with a consumer. -/
inductive Use where
  | operation (op : Consumer.Operation)
  | drop
  deriving DecidableEq, Repr

/-- What a use runs. -/
def Use.client (overflowChecks : Bool) (c : Consumer) : Use → Client Consumer
  | .operation op => op.client overflowChecks c
  | .drop => c.drop

/-- Whether the consumer has left after a use, if it had before or not. -/
def Use.departs (departed : Bool) : Use → Bool
  | .operation (.joinGroup _) => false
  | .operation .leaveGroup => true
  | .operation _ => departed
  | .drop => true

/-- A consumer in use: whether it has left its group or been dropped since it last joined, and whether
it has been dropped. -/
structure UsedConsumer where
  state : ConsumerState
  departed : Bool
  dropped : Bool

/-- A consumer that has just connected. -/
def UsedConsumer.new (groupId : Option String) (autoCommit : Bool) : UsedConsumer :=
  ⟨ConsumerState.new groupId autoCommit, false, false⟩

/-- A use begins, or one that is in progress, a heartbeat task or the peer takes a step. -/
inductive UseEvent where
  | use (u : Use)
  | step (e : ConsumerEvent)
  deriving DecidableEq, Repr

/-- The steps of a consumer in use.  A use begins when the one before has returned, and none follows
the drop. -/
def UsedConsumer.next (overflowChecks : Bool) (s : UsedConsumer) : UseEvent → Option UsedConsumer
  | .use u =>
    match s.state.foreground with
    | some _ => none
    | none =>
      if s.dropped = true then none
      else some ⟨{ s.state with foreground := some (u.client overflowChecks s.state.consumer) },
        u.departs s.departed, decide (u = .drop)⟩
  | .step (.call _) => none
  | .step e => (s.state.next overflowChecks e).map fun state => { s with state := state }

/-- The heartbeat tasks that are running: they have not ended and were not aborted. -/
def ConsumerState.running (s : ConsumerState) : Set Nat :=
  {i | ∃ task ∈ s.heartbeats.get i, task.aborted = false}

instance decidableMemRunning (s : ConsumerState) (i : Nat) : Decidable (i ∈ s.running) :=
  inferInstanceAs (Decidable (∃ task ∈ s.heartbeats.get i, task.aborted = false))

/-- At most one heartbeat task is running, and none after `leave_group` or drop. -/
structure OneHeartbeat (s : UsedConsumer) : Prop where
  atMostOne : s.state.running.Subsingleton
  departed : s.state.foreground = none → s.departed = true → s.state.running = ∅

/-- A heartbeat task is started only when none is running. -/
def StartsAlone (s : UsedConsumer) (e : UseEvent) (_ : UsedConsumer) : Prop :=
  e = .step .effect → ∀ groupId memberId next,
    s.state.foreground = some (.ask (.spawn groupId memberId) next) → s.state.running = ∅

/-! ## What the operations do with the handle -/

/-- The tasks that may be running after an answer. -/
def runningAfter (k : Set Nat) : (e : Effect) → e.Answer → Set Nat
  | .exchange _, _ => k
  | .spawn _ _, task => {task}
  | .abort task, _ => k \ {task}

/-- Programs that are followed by the tasks that may be running. -/
def heartbeatContract : Contract Effect Effect.Answer (Set Nat) where
  respects _ _ := True
  expects _ _ := True
  after := runningAfter
  respects_anti _ h := h
  after_mono := by
    intro k k' e r hk
    cases e with
    | exchange request => exact hk
    | spawn groupId memberId => exact le_rfl
    | abort task => exact Set.sdiff_subset_sdiff_left hk

/-- The consumer has the handle of every running task, and with a handle it is a member. -/
structure KeepsHandle (k : Set Nat) (c : Consumer) : Prop where
  handle : ∀ task ∈ k, c.heartbeatTask = some task
  member : c.heartbeatTask ≠ none → c.groupId ≠ none ∧ c.memberId ≠ none

section Operations

variable {overflowChecks : Bool} {k k' : Set Nat} {c c' : Consumer}

theorem KeepsHandle.anti (hk : k' ⊆ k) (h : KeepsHandle k c) : KeepsHandle k' c :=
  ⟨fun task htask => h.handle task (hk htask), h.member⟩

theorem KeepsHandle.setOffset (h : KeepsHandle k c) (key : TopicPartition) (offset : Nat) :
    KeepsHandle k (c.setOffset key offset) :=
  ⟨h.handle, h.member⟩

theorem KeepsHandle.advance (h : KeepsHandle k c) {key : TopicPartition} {records : List Record}
    (hadvance : c.advance overflowChecks key records = .ok c') : KeepsHandle k c' := by
  unfold Consumer.advance at hadvance
  split at hadvance
  · cases hadvance
    exact h
  · obtain ⟨offset, -, rfl⟩ := Table.except_map_ok hadvance
    exact h.setOffset key offset

/-- Without a handle nothing is running. -/
theorem KeepsHandle.eq_empty (h : KeepsHandle k c) (hnone : c.heartbeatTask = none) : k = ∅ := by
  rw [Set.eq_empty_iff_forall_notMem]
  intro task htask
  rw [h.handle task htask] at hnone
  cases hnone

theorem fetchAll_keepsHandle {maxMessages : Nat} {keys : List TopicPartition}
    {allRecords : List Record} (h : KeepsHandle k c) :
    Meets heartbeatContract (fun k' r => KeepsHandle k' r.2 ∧ k' ⊆ k) k
      (Consumer.fetchAll overflowChecks maxMessages keys allRecords c) := by
  induction keys generalizing allRecords c with
  | nil => exact ⟨h, subset_rfl⟩
  | cons key keys ih =>
    rw [fetchAll_cons]
    refine ⟨trivial, fun reply _ => ?_⟩
    beta_reduce
    cases Consumer.fetched reply with
    | error f => exact ⟨h, subset_rfl⟩
    | ok records =>
      cases hadvance : c.advance overflowChecks key records with
      | error f =>
        simp only [hadvance]
        exact ⟨h, subset_rfl⟩
      | ok c' =>
        simp only [hadvance]
        exact ih (h.advance hadvance)

theorem commitAll_keepsHandle {group : String} {entries : List (TopicPartition × Nat)} :
    Meets heartbeatContract (fun k' _ => k' = k) k (Consumer.commitAll group entries) := by
  induction entries with
  | nil => rfl
  | cons entry entries ih =>
    obtain ⟨key, offset⟩ := entry
    rw [commitAll_cons]
    refine ⟨trivial, fun reply _ => ?_⟩
    beta_reduce
    cases Consumer.committed reply with
    | error e => rfl
    | ok _ => exact ih

theorem commitOffsets_keepsHandle (order : List TopicPartition) :
    Meets heartbeatContract (fun k' _ => k' = k) k (c.commitOffsets order) := by
  unfold Consumer.commitOffsets
  split
  · rfl
  · exact commitAll_keepsHandle

theorem pollGroup_keepsHandle (maxMessages : Nat) (order : List TopicPartition)
    (h : KeepsHandle k c) : Meets heartbeatContract (fun k' r => KeepsHandle k' r.2 ∧ k' ⊆ k) k
      (c.pollGroup overflowChecks maxMessages order) := by
  unfold Consumer.pollGroup
  split
  · exact ⟨h, subset_rfl⟩
  · refine Meets.bind ((fetchAll_keepsHandle h).mono ?_)
    rintro k' ⟨result, c'⟩ hholds
    cases result with
    | error e => exact hholds
    | ok allRecords =>
      simp only
      split
      · refine Meets.bind ((commitOffsets_keepsHandle order).mono ?_)
        rintro k'' - rfl
        exact hholds
      · exact hholds

/-- The end of `join_group` puts the handle of the new task into the place of the old one. -/
theorem initOffsets_keepsHandle {group memberId : String} {assignments : List PartitionAssignment}
    (h : KeepsHandle k c) (hgroup : c.groupId ≠ none) (hmember : c.memberId ≠ none) :
    Meets heartbeatContract (fun k' r => KeepsHandle k' r.2) k
      (Consumer.initOffsets group memberId assignments c) := by
  induction assignments generalizing c with
  | nil =>
    refine ⟨trivial, fun task _ => ⟨fun task' htask' => ?_, fun _ => ⟨hgroup, hmember⟩⟩⟩
    obtain rfl : task' = task := htask'
    rfl
  | cons a assignments ih =>
    rw [initOffsets_cons]
    refine ⟨trivial, fun reply _ => ?_⟩
    beta_reduce
    cases Consumer.fetchedOffset reply with
    | error e => exact h
    | ok offset => exact ih (h.setOffset _ offset) hgroup hmember

theorem joinGroup_keepsHandle (topics : List String) (h : KeepsHandle k c) :
    Meets heartbeatContract (fun k' r => KeepsHandle k' r.2) k (c.joinGroup topics) := by
  unfold Consumer.joinGroup
  split
  · exact h
  · rename_i groupId hgroup
    refine ⟨trivial, fun reply _ => ?_⟩
    cases reply with
    | error e => exact h
    | ok response =>
      cases response with
      | joinGroupSuccess _ memberId assignments =>
        have hsome : c.groupId ≠ none := by
          rw [hgroup]
          exact Option.some_ne_none groupId
        exact initOffsets_keepsHandle ⟨h.handle, fun _ => ⟨hsome, Option.some_ne_none memberId⟩⟩ hsome
          (Option.some_ne_none memberId)
      | _ => exact h

/-- From its request on `leave_group` has no handle. -/
theorem sendLeave_keepsHandle {groupId memberId : String} (hnone : c.heartbeatTask = none) :
    Meets heartbeatContract (fun k' r => KeepsHandle k' r.2 ∧ k' = ∅) ∅
      (c.sendLeave groupId memberId) := by
  have hholds : ∀ {d : Consumer}, d.heartbeatTask = none → KeepsHandle ∅ d ∧ (∅ : Set Nat) = ∅ := by
    intro d hd
    exact ⟨⟨fun task htask => absurd htask (Set.notMem_empty task), fun hsome => absurd hd hsome⟩,
      rfl⟩
  refine ⟨trivial, fun reply _ => ?_⟩
  cases reply with
  | error e => exact hholds hnone
  | ok response =>
    cases response with
    | _ => exact hholds hnone

/-- The abort of the handle's task leaves nothing running. -/
theorem KeepsHandle.diff_eq_empty (h : KeepsHandle k c) {task : Nat}
    (hsome : c.heartbeatTask = some task) : k \ {task} = ∅ := by
  rw [Set.sdiff_eq_empty]
  intro task' htask'
  exact Option.some.inj ((h.handle task' htask').symm.trans hsome)

theorem leaveGroup_keepsHandle (h : KeepsHandle k c) :
    Meets heartbeatContract (fun k' r => KeepsHandle k' r.2 ∧ k' = ∅) k c.leaveGroup := by
  unfold Consumer.leaveGroup
  split
  · rename_i hgroup
    have hnone : c.heartbeatTask = none := by
      by_contra hsome
      exact (h.member hsome).1 hgroup
    exact ⟨h, h.eq_empty hnone⟩
  · rename_i hmember
    have hnone : c.heartbeatTask = none := by
      by_contra hsome
      exact (h.member hsome).2 hmember
    exact ⟨h, h.eq_empty hnone⟩
  · split
    · rename_i hnone
      rw [h.eq_empty hnone]
      exact sendLeave_keepsHandle hnone
    · rename_i task hsome
      refine ⟨trivial, fun _ _ => ?_⟩
      rw [show heartbeatContract.after k (.abort task) _ = ∅ from h.diff_eq_empty hsome]
      exact sendLeave_keepsHandle rfl

theorem drop_keepsHandle (h : KeepsHandle k c) :
    Meets heartbeatContract (fun k' c' => KeepsHandle k' c' ∧ k' = ∅) k c.drop := by
  unfold Consumer.drop
  split
  · rename_i hnone
    exact ⟨h, h.eq_empty hnone⟩
  · rename_i task hsome
    refine ⟨trivial, fun answer _ => ?_⟩
    have hempty : heartbeatContract.after k (.abort task) answer = ∅ := h.diff_eq_empty hsome
    exact ⟨⟨fun task' htask' => absurd (hempty ▸ htask') (Set.notMem_empty task'),
      fun habsurd => absurd rfl habsurd⟩, hempty⟩

/-- What a use leaves: the handle of the running task, and no such task once the consumer has
left. -/
def Leaves (departed : Bool) (k : Set Nat) (c : Consumer) : Prop :=
  KeepsHandle k c ∧ (departed = true → k = ∅)

theorem Leaves.anti {departed : Bool} (hk : k' ⊆ k) (h : Leaves departed k c) :
    Leaves departed k' c :=
  ⟨h.1.anti hk, fun hdeparted => Set.subset_eq_empty hk (h.2 hdeparted)⟩

/-- **Every use** keeps the handle of the running task, and one that departs leaves none running. -/
theorem use_leaves {departed : Bool} (u : Use) (h : Leaves departed k c) :
    Meets heartbeatContract (Leaves (u.departs departed)) k (u.client overflowChecks c) := by
  cases u with
  | drop => exact (drop_keepsHandle h.1).mono fun k' c' hc => ⟨hc.1, fun _ => hc.2⟩
  | operation op =>
    cases op with
    | joinGroup topics =>
      refine Meets.bind ((joinGroup_keepsHandle topics h.1).mono fun k' r hr => ?_)
      exact ⟨hr, fun habsurd => by cases habsurd⟩
    | leaveGroup =>
      exact Meets.bind ((leaveGroup_keepsHandle h.1).mono fun k' r hr => ⟨hr.1, fun _ => hr.2⟩)
    | pollGroup maxMessages order =>
      refine Meets.bind ((pollGroup_keepsHandle maxMessages order h.1).mono fun k' r hr => ?_)
      exact ⟨hr.1, fun hdeparted => Set.subset_eq_empty hr.2 (h.2 hdeparted)⟩
    | commitOffsets order =>
      refine Meets.bind ((commitOffsets_keepsHandle order).mono ?_)
      rintro k' - rfl
      exact h

end Operations

/-! ## What a step does to the tasks -/

section Step

variable {overflowChecks : Bool} {s t : ConsumerState} {e : ConsumerEvent}

/-- What a step does to the operation in progress and to the tasks that are running. -/
inductive HeartbeatStep (s : ConsumerState) : ConsumerEvent → ConsumerState → Prop where
  | quiet {e : ConsumerEvent} {t : ConsumerState} (hforeground : t.foreground = s.foreground)
      (hconsumer : t.consumer = s.consumer) (hspawned : t.spawned = s.spawned)
      (hrunning : t.running ⊆ s.running)
      (hkeys : ∀ i, t.heartbeats.get i ≠ none → s.heartbeats.get i ≠ none) : HeartbeatStep s e t
  | answer {e : ConsumerEvent} {t : ConsumerState} (request : Request) (reply : Reply)
      (next : Reply → Client Consumer)
      (hforeground : s.foreground = some (.ask (.exchange request) next))
      (hnext : t.foreground = some (next reply)) (hspawned : t.spawned = s.spawned)
      (hheartbeats : t.heartbeats = s.heartbeats) : HeartbeatStep s e t
  | spawn {t : ConsumerState} (groupId memberId : String) (next : Nat → Client Consumer)
      (hforeground : s.foreground = some (.ask (.spawn groupId memberId) next))
      (hnext : t.foreground = some (next s.spawned)) (hspawned : t.spawned = s.spawned + 1)
      (hheartbeats : t.heartbeats =
        s.heartbeats.insert s.spawned ⟨groupId, memberId, true, false⟩) : HeartbeatStep s .effect t
  | abort {t : ConsumerState} (task : Nat) (next : Unit → Client Consumer)
      (hforeground : s.foreground = some (.ask (.abort task) next))
      (hnext : t.foreground = some (next ())) (hspawned : t.spawned = s.spawned)
      (hheartbeats : t.heartbeats =
        s.heartbeats.mapValues fun k task' => { task' with aborted := task'.aborted || k == task }) :
      HeartbeatStep s .effect t
  | done {t : ConsumerState} (hforeground : s.foreground = some (.done t.consumer))
      (hnext : t.foreground = none) (hspawned : t.spawned = s.spawned)
      (hheartbeats : t.heartbeats = s.heartbeats) : HeartbeatStep s .effect t

/-- A task that goes on runs as before. -/
theorem HeartbeatStep.goesOn {task : Nat} {before : HeartbeatTask} (after : HeartbeatTask)
    (hbefore : s.heartbeats.get task = some before) (hforeground : t.foreground = s.foreground)
    (hconsumer : t.consumer = s.consumer) (hspawned : t.spawned = s.spawned)
    (hheartbeats : t.heartbeats = s.heartbeats.insert task after)
    (haborted : after.aborted = before.aborted) : HeartbeatStep s e t := by
  refine .quiet hforeground hconsumer hspawned ?_ fun i hi => ?_
  · rintro i ⟨found, hfound, hrunning⟩
    rw [Option.mem_def, hheartbeats, Table.get_insert] at hfound
    split at hfound
    · rename_i heq
      cases hfound
      rw [haborted] at hrunning
      exact ⟨before, heq ▸ hbefore, hrunning⟩
    · exact ⟨found, hfound, hrunning⟩
  · rw [hheartbeats, Table.get_insert] at hi
    split at hi
    · rename_i heq
      rw [heq, hbefore]
      exact Option.some_ne_none before
    · exact hi

theorem HeartbeatStep.ends (task : Nat) : HeartbeatStep s e (s.endHeartbeat task) := by
  have hget : ∀ i found, (s.endHeartbeat task).heartbeats.get i = some found →
      s.heartbeats.get i = some found := fun i found hfound => (Table.get_remove_cases hfound).2
  refine .quiet rfl rfl rfl ?_ fun i hi => ?_
  · rintro i ⟨found, hfound, hrunning⟩
    exact ⟨found, hget i found hfound, hrunning⟩
  · obtain ⟨found, hfound⟩ := Option.ne_none_iff_exists'.1 hi
    rw [hget i found hfound]
    exact Option.some_ne_none found

/-- **What a step does**, event by event. -/
theorem heartbeatStep_of_next (hcall : ∀ operation, e ≠ .call operation)
    (h : s.next overflowChecks e = some t) : HeartbeatStep s e t := by
  -- a step that touches no heartbeat task and no operation
  have hsame : ∀ {turns closed}, t = { s with turns := turns, closed := closed } →
      HeartbeatStep s e t := by
    rintro turns closed rfl
    exact .quiet rfl rfl rfl subset_rfl fun i hi => hi
  cases e with
  | call operation => exact absurd rfl (hcall operation)
  | effect =>
    simp only [ConsumerState.next, ConsumerState.effect] at h
    split at h
    · rename_i groupId memberId next hforeground
      cases h
      exact .spawn groupId memberId next hforeground rfl rfl rfl
    · rename_i task next hforeground
      cases h
      exact .abort task next hforeground rfl rfl rfl
    · rename_i c hforeground
      cases h
      exact .done hforeground rfl rfl rfl
    · cases h
  | lock =>
    obtain ⟨x, -, h⟩ := Option.bind_eq_some_iff.1 h
    obtain ⟨turns, -, h⟩ := Option.bind_eq_some_iff.1 h
    cases h
    exact hsame rfl
  | send =>
    obtain ⟨x, -, h⟩ := Option.bind_eq_some_iff.1 h
    obtain ⟨turns, -, h⟩ := Option.bind_eq_some_iff.1 h
    obtain ⟨-, h⟩ := Option.ite_none_left_eq_some.1 h
    cases h
    exact hsame rfl
  | sendFails error =>
    obtain ⟨x, hx, h⟩ := Option.bind_eq_some_iff.1 h
    obtain ⟨-, h⟩ := Option.ite_none_right_eq_some.1 h
    cases h
    exact .answer x.1 (.error error) x.2 (exchanging_eq_some hx) rfl rfl rfl
  | read =>
    obtain ⟨x, hx, h⟩ := Option.bind_eq_some_iff.1 h
    obtain ⟨y, -, h⟩ := Option.bind_eq_some_iff.1 h
    obtain ⟨-, h⟩ := Option.ite_none_left_eq_some.1 h
    cases h
    exact .answer x.1 (.ok y.1) x.2 (exchanging_eq_some hx) rfl rfl rfl
  | readFails error =>
    obtain ⟨x, hx, h⟩ := Option.bind_eq_some_iff.1 h
    obtain ⟨-, h⟩ := Option.ite_none_right_eq_some.1 h
    cases h
    exact .answer x.1 (.error error) x.2 (exchanging_eq_some hx) rfl rfl rfl
  | tick task =>
    obtain ⟨before, hbefore, rfl⟩ := Option.map_eq_some_iff.1 h
    exact .goesOn { before with ticking := false } hbefore rfl rfl rfl rfl rfl
  | lockHeartbeat task =>
    obtain ⟨x, -, h⟩ := Option.bind_eq_some_iff.1 h
    obtain ⟨turns, -, h⟩ := Option.bind_eq_some_iff.1 h
    cases h
    exact hsame rfl
  | sendHeartbeat task =>
    obtain ⟨x, -, h⟩ := Option.bind_eq_some_iff.1 h
    obtain ⟨turns, -, h⟩ := Option.bind_eq_some_iff.1 h
    obtain ⟨-, h⟩ := Option.ite_none_left_eq_some.1 h
    cases h
    exact hsame rfl
  | sendHeartbeatFails task =>
    obtain ⟨x, -, h⟩ := Option.bind_eq_some_iff.1 h
    obtain ⟨-, h⟩ := Option.ite_none_right_eq_some.1 h
    cases h
    exact .ends task
  | readHeartbeat task =>
    obtain ⟨before, hbefore, h⟩ := Option.bind_eq_some_iff.1 h
    obtain ⟨y, -, h⟩ := Option.bind_eq_some_iff.1 h
    obtain ⟨-, h⟩ := Option.ite_none_left_eq_some.1 h
    cases h
    exact .goesOn { before with ticking := true } (Option.filter_eq_some_iff.1 hbefore).1 rfl rfl
      rfl rfl rfl
  | readHeartbeatFails task =>
    obtain ⟨x, -, h⟩ := Option.bind_eq_some_iff.1 h
    obtain ⟨-, h⟩ := Option.ite_none_right_eq_some.1 h
    cases h
    exact .ends task
  | cancel task =>
    obtain ⟨x, -, h⟩ := Option.bind_eq_some_iff.1 h
    obtain ⟨-, h⟩ := Option.ite_none_right_eq_some.1 h
    cases h
    exact .ends task
  | respond response =>
    obtain ⟨turns, -, rfl⟩ := Option.map_eq_some_iff.1 h
    exact hsame rfl
  | close =>
    cases h
    exact hsame rfl

end Step

/-! ## Runs -/

/-- At most one task is running, every task has a number below the next one, and the operation in
progress, or the consumer, keeps the handle of the running one. -/
structure Controlled (s : UsedConsumer) : Prop where
  fresh : ∀ i, s.state.heartbeats.get i ≠ none → i < s.state.spawned
  atMostOne : s.state.running.Subsingleton
  operation : ∀ d, s.state.foreground = some d →
    Meets heartbeatContract (Leaves s.departed) s.state.running d
  consumer : s.state.foreground = none → Leaves s.departed s.state.running s.state.consumer

section Run

variable {overflowChecks : Bool} {s t : UsedConsumer} {e : UseEvent}

theorem controlled_new (groupId : Option String) (autoCommit : Bool) :
    Controlled (UsedConsumer.new groupId autoCommit) := by
  have hempty : (ConsumerState.new groupId autoCommit).running = ∅ := by
    rw [Set.eq_empty_iff_forall_notMem]
    rintro i ⟨task, habsurd, -⟩
    cases habsurd
  refine ⟨fun i hi => absurd rfl hi, ?_, fun d habsurd => (by cases habsurd), fun _ => ?_⟩
  · exact hempty ▸ Set.subsingleton_empty
  · refine ⟨⟨fun task htask => ?_, fun hsome => absurd rfl hsome⟩, fun _ => hempty⟩
    exact absurd (hempty ▸ htask) (Set.notMem_empty task)

theorem running_spawn {s t : ConsumerState} {groupId memberId : String}
    (hheartbeats : t.heartbeats =
      s.heartbeats.insert s.spawned ⟨groupId, memberId, true, false⟩) :
    t.running = insert s.spawned s.running := by
  ext i
  unfold ConsumerState.running
  rw [hheartbeats, Set.mem_insert_iff, Set.mem_ofPred_eq, Set.mem_ofPred_eq, Table.get_insert]
  split
  · rename_i heq
    exact iff_of_true ⟨_, rfl, rfl⟩ (Or.inl heq)
  · rename_i hne
    exact (or_iff_right hne).symm

theorem running_abort {s t : ConsumerState} {task : Nat}
    (hheartbeats : t.heartbeats =
      s.heartbeats.mapValues fun k task' => { task' with aborted := task'.aborted || k == task }) :
    t.running = s.running \ {task} := by
  ext i
  unfold ConsumerState.running
  rw [hheartbeats, Set.mem_sdiff, Set.mem_ofPred_eq, Set.mem_ofPred_eq, Table.get_mapValues]
  cases s.heartbeats.get i with
  | none => simp
  | some found => simp

theorem running_congr {s t : ConsumerState} (hheartbeats : t.heartbeats = s.heartbeats) :
    t.running = s.running := by
  unfold ConsumerState.running
  rw [hheartbeats]

/-- **One step** keeps to one task, if it starts none while another one is running. -/
theorem Controlled.step {e' : ConsumerEvent} {state : ConsumerState} (h : Controlled s)
    (hstep : HeartbeatStep s.state e' state)
    (halone : StartsAlone s (.step e') { s with state := state }) :
    Controlled { s with state := state } := by
  cases hstep with
  | quiet hforeground hconsumer hspawned hrunning hkeys =>
    refine ⟨fun i hi => ?_, h.atMostOne.anti hrunning, fun d hd => ?_, fun hnone => ?_⟩
    · rw [hspawned]
      exact h.fresh i (hkeys i hi)
    · exact (h.operation d (hforeground ▸ hd)).anti Leaves.anti hrunning
    · rw [hconsumer]
      exact (h.consumer (hforeground ▸ hnone)).anti hrunning
  | answer request reply next hforeground hnext hspawned hheartbeats =>
    have hrunning := running_congr hheartbeats
    refine ⟨fun i hi => ?_, hrunning ▸ h.atMostOne, fun d hd => ?_, fun hnone => ?_⟩
    · rw [hspawned]
      exact h.fresh i (hheartbeats ▸ hi)
    · cases hnext.symm.trans hd
      rw [hrunning]
      exact (h.operation _ hforeground).2 reply trivial
    · rw [hnext] at hnone
      cases hnone
  | spawn groupId memberId next hforeground hnext hspawned hheartbeats =>
    have hrunning : state.running = {s.state.spawned} := by
      rw [running_spawn hheartbeats, halone rfl groupId memberId next hforeground]
      exact insert_empty_eq _
    refine ⟨fun i hi => ?_, ?_, fun d hd => ?_, fun hnone => ?_⟩
    · rw [hspawned]
      rw [hheartbeats, Table.get_insert] at hi
      split at hi
      · omega
      · exact Nat.lt_succ_of_lt (h.fresh i hi)
    · rw [hrunning]
      exact Set.subsingleton_singleton
    · cases hnext.symm.trans hd
      rw [hrunning]
      exact (h.operation _ hforeground).2 s.state.spawned trivial
    · rw [hnext] at hnone
      cases hnone
  | abort task next hforeground hnext hspawned hheartbeats =>
    have hrunning := running_abort hheartbeats
    refine ⟨fun i hi => ?_, ?_, fun d hd => ?_, fun hnone => ?_⟩
    · rw [hspawned]
      refine h.fresh i fun hnone => hi ?_
      rw [hheartbeats, Table.get_mapValues, hnone]
      rfl
    · rw [hrunning]
      exact h.atMostOne.anti Set.sdiff_subset
    · cases hnext.symm.trans hd
      rw [hrunning]
      exact (h.operation _ hforeground).2 () trivial
    · rw [hnext] at hnone
      cases hnone
  | done hforeground hnext hspawned hheartbeats =>
    have hrunning := running_congr hheartbeats
    refine ⟨fun i hi => ?_, hrunning ▸ h.atMostOne, fun d hd => ?_, fun _ => ?_⟩
    · rw [hspawned]
      exact h.fresh i (hheartbeats ▸ hi)
    · rw [hnext] at hd
      cases hd
    · rw [hrunning]
      exact h.operation _ hforeground

/-- A use begins with the handle of the running task. -/
theorem Controlled.use (h : Controlled s) (hnone : s.state.foreground = none) (u : Use)
    (dropped : Bool) :
    Controlled ⟨{ s.state with foreground := some (u.client overflowChecks s.state.consumer) },
      u.departs s.departed, dropped⟩ := by
  refine ⟨h.fresh, h.atMostOne, ?_, fun habsurd => by cases habsurd⟩
  rintro d ⟨⟩
  exact use_leaves u (h.consumer hnone)

theorem use_or_step (hstep : s.next overflowChecks e = some t) :
    (∃ u, e = .use u ∧ s.state.foreground = none ∧ t = ⟨{ s.state with
      foreground := some (u.client overflowChecks s.state.consumer) }, u.departs s.departed,
        decide (u = .drop)⟩) ∨
    ∃ e' state, e = .step e' ∧ HeartbeatStep s.state e' state ∧ t = { s with state := state } := by
  cases e with
  | use u =>
    left
    simp only [UsedConsumer.next] at hstep
    split at hstep
    · cases hstep
    · rename_i hnone
      obtain ⟨-, hstep⟩ := Option.ite_none_left_eq_some.1 hstep
      exact ⟨u, rfl, hnone, (Option.some.inj hstep).symm⟩
  | step e' =>
    right
    have hcall : ∀ operation, e' ≠ .call operation := by
      rintro operation rfl
      cases hstep
    have hmap : (s.state.next overflowChecks e').map (fun state => { s with state := state }) =
        some t := by
      cases e' with
      | call operation => cases hstep
      | _ => exact hstep
    obtain ⟨state, hstate, rfl⟩ := Option.map_eq_some_iff.1 hmap
    exact ⟨e', state, rfl, heartbeatStep_of_next hcall hstate, rfl⟩

theorem Controlled.next (h : Controlled s) (hstep : s.next overflowChecks e = some t)
    (halone : StartsAlone s e t) : Controlled t := by
  rcases use_or_step hstep with ⟨u, rfl, hnone, rfl⟩ | ⟨e', state, rfl, hstate, rfl⟩
  · exact h.use hnone u _
  · exact h.step hstate halone

/-- A second task would be running beside the first. -/
theorem Controlled.startsAlone (h : Controlled s) (hstep : s.next overflowChecks e = some t)
    (hone : OneHeartbeat t) : StartsAlone s e t := by
  rintro rfl groupId memberId next hforeground
  rcases use_or_step hstep with ⟨u, habsurd, -⟩ | ⟨e', state, heq, hstate, rfl⟩
  · cases habsurd
  · cases heq
    have hheartbeats : state.running = insert s.state.spawned s.state.running := by
      simp only [UsedConsumer.next, ConsumerState.next, ConsumerState.effect, hforeground,
        Option.map_some, Option.some.injEq] at hstep
      cases hstep
      exact running_spawn rfl
    have hsub := hone.atMostOne
    rw [show ({ s with state := state } : UsedConsumer).state.running = _ from hheartbeats] at hsub
    rw [Set.eq_empty_iff_forall_notMem]
    intro i hi
    have heq : i = s.state.spawned := hsub (Set.mem_insert_of_mem _ hi) (Set.mem_insert ..)
    obtain ⟨task, htask, -⟩ := hi
    have hlt := h.fresh i (by rw [Option.mem_def.1 htask]; exact Option.some_ne_none task)
    omega

theorem Controlled.oneHeartbeat (h : Controlled s) : OneHeartbeat s :=
  ⟨h.atMostOne, fun hnone => (h.consumer hnone).2⟩

end Run

/-- **At most one heartbeat task** is running in every state of a run, and none after `leave_group`
or drop, exactly when no task is started while another one is running. -/
theorem one_heartbeat_iff (overflowChecks : Bool) (groupId : Option String) (autoCommit : Bool)
    {tr : List (UseEvent × UsedConsumer)}
    (hrun : Run (Steps (UsedConsumer.next overflowChecks)) (UsedConsumer.new groupId autoCommit) tr) :
    Throughout OneHeartbeat (UsedConsumer.new groupId autoCommit) tr ↔
      EachStep StartsAlone (UsedConsumer.new groupId autoCommit) tr :=
  throughout_iff (I := Controlled) (fun _ _ _ h hstep halone => h.next hstep halone)
    (fun _ h => h.oneHeartbeat) (fun _ _ _ h hstep hone => h.startsAlone hstep hone)
    (controlled_new groupId autoCommit) hrun

/-- A consumer joins without assignments, and its heartbeat task is started. -/
def joinsGroup : List UseEvent :=
  [.use (.operation (.joinGroup ["orders"])), .step .lock, .step .send,
    .step (.respond (.joinGroupSuccess "g" "m" [])), .step .read, .step .effect, .step .effect]

/-- A consumer leaves. -/
def leavesGroup : List UseEvent :=
  [.use (.operation .leaveGroup), .step .effect, .step .lock, .step .send,
    .step (.respond (.leaveGroupSuccess "g")), .step .read, .step .effect]

theorem one_heartbeat_iff_leave :
    ∃ tr, trace (UsedConsumer.next true) (UsedConsumer.new (some "g") false)
        (joinsGroup ++ leavesGroup ++ joinsGroup ++ [.use .drop, .step .effect, .step .effect]) =
          some tr ∧
      (Throughout OneHeartbeat (UsedConsumer.new (some "g") false) tr ↔
        EachStep StartsAlone (UsedConsumer.new (some "g") false) tr) := by
  obtain ⟨tr, htr⟩ := Option.isSome_iff_exists.1 (show (trace (UsedConsumer.next true)
    (UsedConsumer.new (some "g") false)
      (joinsGroup ++ leavesGroup ++ joinsGroup ++
        [.use .drop, .step .effect, .step .effect])).isSome = true by decide +kernel)
  exact ⟨tr, htr, one_heartbeat_iff true (some "g") false (run_of_trace htr)⟩

/-- A consumer that joins again has two heartbeat tasks, and one of them goes on after it has left
and has been dropped. -/
theorem rejoin_leaks_task : ¬ ∀ tr : List (UseEvent × UsedConsumer),
    Run (Steps (UsedConsumer.next true)) (UsedConsumer.new (some "g") false) tr →
    Throughout OneHeartbeat (UsedConsumer.new (some "g") false) tr := by
  intro h
  obtain ⟨tr, htr, hleaked⟩ := Option.map_eq_some_iff.1 (show (trace (UsedConsumer.next true)
    (UsedConsumer.new (some "g") false)
      (joinsGroup ++ joinsGroup ++ leavesGroup ++ [.use .drop, .step .effect])).map (fun tr =>
        let s := last (UsedConsumer.new (some "g") false) tr
        s.state.foreground.isNone && s.departed && decide (0 ∈ s.state.running)) = some true by
    decide +kernel)
  simp only [Bool.and_eq_true, Option.isNone_iff_eq_none, decide_eq_true_eq] at hleaked
  obtain ⟨⟨hnone, hdeparted⟩, hrunning⟩ := hleaked
  have hempty := (h tr (run_of_trace htr)).at_last.departed hnone hdeparted
  exact Set.notMem_empty 0 (hempty ▸ hrunning)

end Gaffa
