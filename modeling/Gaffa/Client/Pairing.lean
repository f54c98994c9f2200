import Gaffa.Client.Consumer
import Gaffa.Lib.Transition
import Gaffa.Lib.Wire

/-!
# One connection for two kinds of tasks

A consumer's operations and its heartbeat tasks share one connection.  Each of them holds a lock from
the request to the response, but a heartbeat task can be aborted while it waits for its response, and
then the lock is free and the response is still to come.

* `paired_iff`: the operations read the responses to their own requests if and only if none of them
  reads a response after a heartbeat was given up that way.
-/

set_option autoImplicit false

namespace Gaffa

open Transition

/-- Who uses the connection. -/
inductive Party where
  | foreground
  | heartbeat (task : Nat)
  deriving DecidableEq, Repr

/-- A heartbeat task: it waits for the next tick, or for the lock, and with the lock for its
request to be sent and for the response. -/
structure HeartbeatTask where
  groupId : String
  memberId : String
  ticking : Bool
  aborted : Bool
  deriving DecidableEq, Repr

/-- A consumer with its tasks and its connection: the operation in progress, the heartbeat tasks that
have not ended and how many were started, and whether the connection has failed. -/
structure ConsumerState where
  consumer : Consumer
  foreground : Option (Client Consumer)
  heartbeats : Table Nat HeartbeatTask
  spawned : Nat
  turns : Turns Party Request Response
  closed : Bool

/-- A consumer that has just connected. -/
def ConsumerState.new (groupId : Option String) (autoCommit : Bool) : ConsumerState :=
  ⟨Consumer.new groupId autoCommit, none, Table.empty, 0, Turns.new, false⟩

/-- The steps of the operations, of the heartbeat tasks and of the peer. -/
inductive ConsumerEvent where
  | call (operation : Consumer.Operation)
  | effect
  | lock
  | send
  | sendFails (e : GaffaError)
  | read
  | readFails (e : GaffaError)
  | tick (task : Nat)
  | lockHeartbeat (task : Nat)
  | sendHeartbeat (task : Nat)
  | sendHeartbeatFails (task : Nat)
  | readHeartbeat (task : Nat)
  | readHeartbeatFails (task : Nat)
  | cancel (task : Nat)
  | respond (response : Response)
  | close
  deriving DecidableEq, Repr

namespace ConsumerState

/-- The request that the operation in progress exchanges, and what it does with the reply. -/
def exchanging (s : ConsumerState) : Option (Request × (Reply → Client Consumer)) :=
  match s.foreground with
  | some (.ask (.exchange request) next) => some (request, next)
  | _ => none

/-- The operation starts a heartbeat task, aborts one, or returns. -/
def effect (s : ConsumerState) : Option ConsumerState :=
  match s.foreground with
  | some (.ask (.spawn groupId memberId) next) =>
    some { s with
      foreground := some (next s.spawned)
      heartbeats := s.heartbeats.insert s.spawned ⟨groupId, memberId, true, false⟩
      spawned := s.spawned + 1 }
  | some (.ask (.abort task) next) =>
    some { s with
      foreground := some (next ())
      heartbeats := s.heartbeats.mapValues fun k t => { t with aborted := t.aborted || k == task } }
  | some (.done c) => some { s with consumer := c, foreground := none }
  | _ => none

/-- The heartbeat task that is past its tick. -/
def beating (s : ConsumerState) (task : Nat) : Option HeartbeatTask :=
  (s.heartbeats.get task).filter fun t => !t.ticking

/-- The end of a heartbeat task; a lock that it holds is released. -/
def endHeartbeat (s : ConsumerState) (task : Nat) : ConsumerState :=
  { s with heartbeats := s.heartbeats.remove task, turns := s.turns.giveUp (.heartbeat task) }

/-- The steps of a consumer.  Nothing is sent or read once the connection has failed, but a request
that was sent before may still be answered. -/
def next (overflowChecks : Bool) (s : ConsumerState) : ConsumerEvent → Option ConsumerState
  | .call operation =>
    match s.foreground with
    | none => some { s with foreground := some (operation.client overflowChecks s.consumer) }
    | some _ => none
  | .effect => s.effect
  | .lock => do
    let _ ← s.exchanging
    let turns ← s.turns.acquire .foreground
    return { s with turns := turns }
  | .send => do
    let (request, _) ← s.exchanging
    let turns ← s.turns.send .foreground request
    if s.closed then none else some { s with turns := turns }
  | .sendFails e => do
    let (_, next) ← s.exchanging
    if s.turns.holder = some (.foreground, none) then
      some { s with foreground := some (next (.error e)), turns := s.turns.giveUp .foreground }
    else none
  | .read => do
    let (_, next) ← s.exchanging
    let (response, turns) ← s.turns.read .foreground
    if s.closed then none
    else some { s with foreground := some (next (.ok response)), turns := turns }
  | .readFails e => do
    let (_, next) ← s.exchanging
    if s.turns.waits .foreground ∧ s.closed then
      some { s with foreground := some (next (.error e)), turns := s.turns.giveUp .foreground }
    else none
  | .tick task =>
    (s.heartbeats.get task).map fun t =>
      { s with heartbeats := s.heartbeats.insert task { t with ticking := false } }
  | .lockHeartbeat task => do
    let _ ← s.beating task
    let turns ← s.turns.acquire (.heartbeat task)
    return { s with turns := turns }
  | .sendHeartbeat task => do
    let t ← s.beating task
    let turns ← s.turns.send (.heartbeat task) (.heartbeat t.groupId t.memberId)
    if s.closed then none else some { s with turns := turns }
  | .sendHeartbeatFails task => do
    let _ ← s.beating task
    if s.turns.holder = some (.heartbeat task, none) then some (s.endHeartbeat task) else none
  | .readHeartbeat task => do
    let t ← s.beating task
    let (_, turns) ← s.turns.read (.heartbeat task)
    if s.closed then none
    else some { s with
      heartbeats := s.heartbeats.insert task { t with ticking := true }, turns := turns }
  | .readHeartbeatFails task => do
    let _ ← s.beating task
    if s.turns.waits (.heartbeat task) ∧ s.closed then some (s.endHeartbeat task) else none
  | .cancel task => do
    let t ← s.heartbeats.get task
    if t.aborted then some (s.endHeartbeat task) else none
  | .respond response => (s.turns.answer response).map fun turns => { s with turns := turns }
  | .close => some { s with closed := true }

end ConsumerState

theorem exchanging_eq_some {c : ConsumerState} {x : Request × (Reply → Client Consumer)}
    (h : c.exchanging = some x) :
    c.foreground = some (.ask (.exchange x.1) x.2) := by
  unfold ConsumerState.exchanging at h
  split at h
  · rename_i request next hforeground
    cases h
    exact hforeground
  · cases h

/-! ## Whose response an operation reads -/

/-- A response that an operation reads is the one to the request that it has sent. -/
def Paired (s : ConsumerState) (e : ConsumerEvent) (_ : ConsumerState) : Prop :=
  e = .read → s.turns.Answers .foreground

/-- No operation reads a response when a request was given up before. -/
def Undisturbed (s : ConsumerState) (e : ConsumerEvent) (_ : ConsumerState) : Prop :=
  e = .read → s.turns.orphans = 0

instance decidablePaired (s : ConsumerState) (e : ConsumerEvent) (t : ConsumerState) :
    Decidable (Paired s e t) := inferInstanceAs (Decidable (_ → _))

instance decidableUndisturbed (s : ConsumerState) (e : ConsumerEvent) (t : ConsumerState) :
    Decidable (Undisturbed s e t) := inferInstanceAs (Decidable (_ → _))

/-- A heartbeat task is cancelled between its request and the response. -/
def Disturbs (s : ConsumerState) (e : ConsumerEvent) : Prop :=
  ∃ task, e = .cancel task ∧ s.turns.waits (.heartbeat task) = true

/-- No operation reads a response after such a cancellation. -/
def NoReadAfterCancel : ConsumerState → List (ConsumerEvent × ConsumerState) → Prop
  | _, [] => True
  | s, (e, t) :: tr => (Disturbs s e → ∀ x ∈ tr, x.1 ≠ .read) ∧ NoReadAfterCancel t tr

section Step

variable {overflowChecks : Bool} {s t : ConsumerState} {e : ConsumerEvent}

/-- What a step does to the connection. -/
inductive TurnStep (s : ConsumerState) : ConsumerEvent → Turns Party Request Response → Prop where
  | same {e : ConsumerEvent} : TurnStep s e s.turns
  | acquire {e : ConsumerEvent} (p : Party) (turns : Turns Party Request Response)
      (h : s.turns.acquire p = some turns) : TurnStep s e turns
  | send {e : ConsumerEvent} (p : Party) (request : Request)
      (turns : Turns Party Request Response) (hopen : ¬ s.closed = true)
      (h : s.turns.send p request = some turns) : TurnStep s e turns
  | read {e : ConsumerEvent} (p : Party) (response : Response)
      (turns : Turns Party Request Response) (hopen : ¬ s.closed = true)
      (h : s.turns.read p = some (response, turns)) : TurnStep s e turns
  | giveUp {e : ConsumerEvent} (p : Party)
      (h : s.turns.waits p = true →
        s.closed = true ∨ ∃ task, e = .cancel task ∧ p = .heartbeat task) :
      TurnStep s e (s.turns.giveUp p)
  | answer (response : Response) (turns : Turns Party Request Response)
      (h : s.turns.answer response = some turns) : TurnStep s (.respond response) turns

/-- **What a step does to the connection**, event by event. -/
theorem turnStep_of_next (h : s.next overflowChecks e = some t) : TurnStep s e t.turns ∧
    (s.closed = true → t.closed = true) := by
  cases e with
  | call operation =>
    simp only [ConsumerState.next] at h
    split at h
    · cases h
      exact ⟨.same, id⟩
    · cases h
  | effect =>
    simp only [ConsumerState.next, ConsumerState.effect] at h
    split at h
    · cases h
      exact ⟨.same, id⟩
    · cases h
      exact ⟨.same, id⟩
    · cases h
      exact ⟨.same, id⟩
    · cases h
  | lock =>
    obtain ⟨x, -, h⟩ := Option.bind_eq_some_iff.1 h
    obtain ⟨turns, hturns, h⟩ := Option.bind_eq_some_iff.1 h
    cases h
    exact ⟨.acquire .foreground turns hturns, id⟩
  | send =>
    obtain ⟨x, -, h⟩ := Option.bind_eq_some_iff.1 h
    obtain ⟨turns, hturns, h⟩ := Option.bind_eq_some_iff.1 h
    obtain ⟨hopen, h⟩ := Option.ite_none_left_eq_some.1 h
    cases h
    exact ⟨.send .foreground x.1 turns hopen hturns, id⟩
  | sendFails error =>
    obtain ⟨x, -, h⟩ := Option.bind_eq_some_iff.1 h
    obtain ⟨hholder, h⟩ := Option.ite_none_right_eq_some.1 h
    cases h
    exact ⟨.giveUp .foreground fun hwaits => absurd hwaits (by simp [Turns.waits, hholder]), id⟩
  | read =>
    obtain ⟨x, -, h⟩ := Option.bind_eq_some_iff.1 h
    obtain ⟨y, hturns, h⟩ := Option.bind_eq_some_iff.1 h
    obtain ⟨hopen, h⟩ := Option.ite_none_left_eq_some.1 h
    cases h
    exact ⟨.read .foreground y.1 y.2 hopen hturns, id⟩
  | readFails error =>
    obtain ⟨x, -, h⟩ := Option.bind_eq_some_iff.1 h
    obtain ⟨⟨-, hclosed⟩, h⟩ := Option.ite_none_right_eq_some.1 h
    cases h
    exact ⟨.giveUp .foreground fun _ => Or.inl hclosed, id⟩
  | tick task =>
    obtain ⟨x, -, rfl⟩ := Option.map_eq_some_iff.1 h
    exact ⟨.same, id⟩
  | lockHeartbeat task =>
    obtain ⟨x, -, h⟩ := Option.bind_eq_some_iff.1 h
    obtain ⟨turns, hturns, h⟩ := Option.bind_eq_some_iff.1 h
    cases h
    exact ⟨.acquire (.heartbeat task) turns hturns, id⟩
  | sendHeartbeat task =>
    obtain ⟨x, -, h⟩ := Option.bind_eq_some_iff.1 h
    obtain ⟨turns, hturns, h⟩ := Option.bind_eq_some_iff.1 h
    obtain ⟨hopen, h⟩ := Option.ite_none_left_eq_some.1 h
    cases h
    exact ⟨.send (.heartbeat task) _ turns hopen hturns, id⟩
  | sendHeartbeatFails task =>
    obtain ⟨x, -, h⟩ := Option.bind_eq_some_iff.1 h
    obtain ⟨hholder, h⟩ := Option.ite_none_right_eq_some.1 h
    cases h
    exact ⟨.giveUp (.heartbeat task) fun hwaits => absurd hwaits (by simp [Turns.waits, hholder]), id⟩
  | readHeartbeat task =>
    obtain ⟨x, -, h⟩ := Option.bind_eq_some_iff.1 h
    obtain ⟨y, hturns, h⟩ := Option.bind_eq_some_iff.1 h
    obtain ⟨hopen, h⟩ := Option.ite_none_left_eq_some.1 h
    cases h
    exact ⟨.read (.heartbeat task) y.1 y.2 hopen hturns, id⟩
  | readHeartbeatFails task =>
    obtain ⟨x, -, h⟩ := Option.bind_eq_some_iff.1 h
    obtain ⟨⟨-, hclosed⟩, h⟩ := Option.ite_none_right_eq_some.1 h
    cases h
    exact ⟨.giveUp (.heartbeat task) fun _ => Or.inl hclosed, id⟩
  | cancel task =>
    obtain ⟨x, -, h⟩ := Option.bind_eq_some_iff.1 h
    obtain ⟨-, h⟩ := Option.ite_none_right_eq_some.1 h
    cases h
    exact ⟨.giveUp (.heartbeat task) fun _ => Or.inr ⟨task, rfl, rfl⟩, id⟩
  | respond response =>
    obtain ⟨turns, hturns, rfl⟩ := Option.map_eq_some_iff.1 h
    exact ⟨.answer response turns hturns, id⟩
  | close =>
    cases h
    exact ⟨.same, fun _ => rfl⟩

theorem sound_next (hs : s.turns.Sound) (h : s.next overflowChecks e = some t) : t.turns.Sound := by
  have hstep := (turnStep_of_next h).1
  generalize t.turns = turns at hstep
  cases hstep with
  | same => exact hs
  | acquire p turns hturns => exact hs.acquire hturns
  | send p request turns hopen hturns => exact hs.send hturns
  | read p response turns hopen hturns => exact hs.read hturns
  | giveUp p hwaits => exact hs.giveUp p
  | answer response turns hturns => exact hs.answer hturns

/-- **When a request is given up**: a heartbeat task is cancelled between its request and the
response, or the connection has failed. -/
theorem orphans_of_next (h : s.next overflowChecks e = some t) :
    (t.turns.orphans = s.turns.orphans ∧ ¬ Disturbs s e) ∨ s.closed = true ∨
      (t.turns.orphans = s.turns.orphans + 1 ∧ Disturbs s e) := by
  have hcancel : Disturbs s e → t.turns.orphans = s.turns.orphans + 1 := by
    rintro ⟨task, rfl, hwaits⟩
    obtain ⟨x, -, h⟩ := Option.bind_eq_some_iff.1 h
    obtain ⟨-, h⟩ := Option.ite_none_right_eq_some.1 h
    cases h
    exact Turns.orphans_giveUp_waits hwaits
  have hkept : t.turns.orphans = s.turns.orphans ∨ s.closed = true ∨ Disturbs s e := by
    have hstep := (turnStep_of_next h).1
    generalize t.turns = turns at hstep
    cases hstep with
    | same => exact Or.inl rfl
    | acquire p turns hturns => exact Or.inl (Turns.orphans_acquire hturns)
    | send p request turns hopen hturns => exact Or.inl (Turns.orphans_send hturns)
    | read p response turns hopen hturns => exact Or.inl (Turns.orphans_read hturns)
    | giveUp p hwaits =>
      by_cases hp : s.turns.waits p = true
      · rcases hwaits hp with hclosed | ⟨task, rfl, rfl⟩
        · exact Or.inr (Or.inl hclosed)
        · exact Or.inr (Or.inr ⟨task, rfl, hp⟩)
      · exact Or.inl (Turns.orphans_giveUp hp)
    | answer response turns hturns => exact Or.inl (Turns.orphans_answer hturns)
  rcases hkept with heq | hclosed | hdisturbs
  · refine Or.inl ⟨heq, fun hdisturbs => ?_⟩
    have := hcancel hdisturbs
    omega
  · exact Or.inr (Or.inl hclosed)
  · exact Or.inr (Or.inr ⟨hcancel hdisturbs, hdisturbs⟩)

theorem open_of_read (h : s.next overflowChecks .read = some t) : ¬ s.closed = true := by
  obtain ⟨x, -, h⟩ := Option.bind_eq_some_iff.1 h
  obtain ⟨y, -, h⟩ := Option.bind_eq_some_iff.1 h
  exact (Option.ite_none_left_eq_some.1 h).1

theorem paired_step_iff (hs : s.turns.Sound) (h : s.next overflowChecks e = some t) :
    Paired s e t ↔ Undisturbed s e t := by
  refine forall_congr' ?_
  rintro rfl
  obtain ⟨x, -, h⟩ := Option.bind_eq_some_iff.1 h
  obtain ⟨y, hturns, -⟩ := Option.bind_eq_some_iff.1 h
  exact hs.answers_iff hturns

end Step

/-! ## Runs -/

section Run

variable {overflowChecks : Bool} {s : ConsumerState} {tr : List (ConsumerEvent × ConsumerState)}

theorem paired_run_iff (hs : s.turns.Sound)
    (hrun : Run (Steps (ConsumerState.next overflowChecks)) s tr) :
    EachStep Paired s tr ↔ EachStep Undisturbed s tr :=
  eachStep_iff (I := fun s => s.turns.Sound) (fun _ _ _ hs h _ => sound_next hs h)
    (fun _ _ _ hs h => paired_step_iff hs h) hs hrun

theorem no_read_of_closed (hs : s.closed = true)
    (hrun : Run (Steps (ConsumerState.next overflowChecks)) s tr) : ∀ x ∈ tr, x.1 ≠ .read := by
  induction tr generalizing s with
  | nil => exact fun x hx => absurd hx List.not_mem_nil
  | cons step tr ih =>
    obtain ⟨e, t⟩ := step
    refine List.forall_mem_cons.2 ⟨?_, ih ((turnStep_of_next hrun.1).2 hs) hrun.2⟩
    rintro rfl
    exact open_of_read hrun.1 hs

theorem undisturbed_of_no_read (h : ∀ x ∈ tr, x.1 ≠ .read) : EachStep Undisturbed s tr := by
  induction tr generalizing s with
  | nil => exact trivial
  | cons step tr ih =>
    obtain ⟨hfirst, hrest⟩ := List.forall_mem_cons.1 h
    exact ⟨fun he => absurd he hfirst, ih hrest⟩

theorem noReadAfterCancel_of_no_read (h : ∀ x ∈ tr, x.1 ≠ .read) : NoReadAfterCancel s tr := by
  induction tr generalizing s with
  | nil => exact trivial
  | cons step tr ih =>
    obtain ⟨-, hrest⟩ := List.forall_mem_cons.1 h
    exact ⟨fun _ => hrest, ih hrest⟩

/-- Once a request was given up, every read of an operation gets another request's response. -/
theorem undisturbed_iff_of_orphans (hs : 0 < s.turns.orphans)
    (hrun : Run (Steps (ConsumerState.next overflowChecks)) s tr) :
    EachStep Undisturbed s tr ↔ ∀ x ∈ tr, x.1 ≠ .read := by
  refine ⟨fun h => ?_, undisturbed_of_no_read⟩
  induction tr generalizing s with
  | nil => exact fun x hx => absurd hx List.not_mem_nil
  | cons step tr ih =>
    obtain ⟨e, t⟩ := step
    refine List.forall_mem_cons.2 ⟨?_, ?_⟩
    · rintro rfl
      have := h.1 rfl
      omega
    · rcases orphans_of_next hrun.1 with ⟨heq, -⟩ | hclosed | ⟨heq, -⟩
      · exact ih (by omega) hrun.2 h.2
      · exact no_read_of_closed ((turnStep_of_next hrun.1).2 hclosed) hrun.2
      · exact ih (by omega) hrun.2 h.2

theorem undisturbed_iff (hs : s.turns.orphans = 0)
    (hrun : Run (Steps (ConsumerState.next overflowChecks)) s tr) :
    EachStep Undisturbed s tr ↔ NoReadAfterCancel s tr := by
  induction tr generalizing s with
  | nil => exact Iff.rfl
  | cons step tr ih =>
    obtain ⟨e, t⟩ := step
    have hfirst : Undisturbed s e t := fun _ => hs
    rw [EachStep, NoReadAfterCancel, and_iff_right hfirst]
    rcases orphans_of_next hrun.1 with ⟨heq, hquiet⟩ | hclosed | ⟨heq, hdisturbs⟩
    · rw [ih (heq.trans hs) hrun.2]
      exact (and_iff_right fun h => absurd h hquiet).symm
    · have hnone := no_read_of_closed ((turnStep_of_next hrun.1).2 hclosed) hrun.2
      exact iff_of_true (undisturbed_of_no_read hnone)
        ⟨fun _ => hnone, noReadAfterCancel_of_no_read hnone⟩
    · rw [undisturbed_iff_of_orphans (by omega) hrun.2]
      constructor
      · intro hnone
        exact ⟨fun _ => hnone, noReadAfterCancel_of_no_read hnone⟩
      · intro h
        exact h.1 hdisturbs

end Run

/-- **Responses are paired** with requests if and only if no operation reads a response after a
heartbeat task was cancelled between its request and the response: on every run of the operations,
the heartbeat tasks and their cancellations, and a peer that answers requests in order. -/
theorem paired_iff {overflowChecks : Bool} (groupId : Option String) (autoCommit : Bool)
    {tr : List (ConsumerEvent × ConsumerState)}
    (hrun : Run (Steps (ConsumerState.next overflowChecks)) (ConsumerState.new groupId autoCommit) tr) :
    EachStep Paired (ConsumerState.new groupId autoCommit) tr ↔
      NoReadAfterCancel (ConsumerState.new groupId autoCommit) tr :=
  (paired_run_iff Turns.sound_new hrun).trans (undisturbed_iff rfl hrun)

/-- A member joins, its heartbeat task sends a request, and the member leaves. -/
def joinAndBeat : List ConsumerEvent :=
  [.call (.joinGroup ["orders"]), .lock, .send,
    .respond (.joinGroupSuccess "g" "m" [⟨"orders", 0⟩]), .read, .lock, .send,
    .respond (.fetchOffsetSuccess "g" "orders" 0 0), .read, .effect, .effect, .tick 0,
    .lockHeartbeat 0, .sendHeartbeat 0, .call .leaveGroup, .effect]

/-- The heartbeat task is cancelled after it has read its response. -/
def cancelAfterRead : List ConsumerEvent :=
  joinAndBeat ++ [.respond .heartbeatSuccess, .readHeartbeat 0, .cancel 0, .lock, .send,
    .respond (.leaveGroupSuccess "g"), .read, .effect]

theorem paired_iff_cancel_after_read :
    ∃ tr, trace (ConsumerState.next true) (ConsumerState.new (some "g") false) cancelAfterRead =
        some tr ∧
      (EachStep Paired (ConsumerState.new (some "g") false) tr ↔
        NoReadAfterCancel (ConsumerState.new (some "g") false) tr) := by
  obtain ⟨tr, htr⟩ := Option.isSome_iff_exists.1 (show (trace (ConsumerState.next true)
    (ConsumerState.new (some "g") false) cancelAfterRead).isSome = true by decide +kernel)
  exact ⟨tr, htr, paired_iff (some "g") false (run_of_trace htr)⟩

/-- The heartbeat task is cancelled while it waits for its response, which `leave_group` reads. -/
def cancelInFlight : List ConsumerEvent :=
  joinAndBeat ++ [.cancel 0, .lock, .send, .respond .heartbeatSuccess, .read, .effect]

theorem cancelled_heartbeat_unpairs :
    ∃ tr, trace (ConsumerState.next true) (ConsumerState.new (some "g") false) cancelInFlight =
        some tr ∧
      ¬ EachStep Paired (ConsumerState.new (some "g") false) tr := by
  obtain ⟨tr, htr⟩ := Option.isSome_iff_exists.1 (show (trace (ConsumerState.next true)
    (ConsumerState.new (some "g") false) cancelInFlight).isSome = true by decide +kernel)
  have hbad : ∀ tr ∈ trace (ConsumerState.next true) (ConsumerState.new (some "g") false)
      cancelInFlight, ¬ EachStep Paired (ConsumerState.new (some "g") false) tr := by decide +kernel
  exact ⟨tr, htr, hbad tr htr⟩

end Gaffa
