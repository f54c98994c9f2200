import Gaffa.Client.EndToEnd
import Gaffa.Client.Pairing
import Gaffa.Client.Reading

/-!
# A group member on its connection

The operations of a member keep to the contract of a group member over a connection that they share
with the heartbeat tasks.  As long as no heartbeat is given up between its request and its response, an
operation reads the response to its own request, and what that told when the broker sent it is still so.

* `memberStep_of_next`: what a step of a member does.
* `InHand.own`, `InHand.read`: a step of a member keeps what is known of it.
* `InHand.respond`: so does a response of the broker.
-/

set_option autoImplicit false

namespace Gaffa

open Transition Dialogue

variable {overflowChecks : Bool} {group : String} {m m' : ConsumerState} {e : ConsumerEvent}

/-- The oldest request on the connection that has no answer. -/
def ConsumerState.oldest (m : ConsumerState) : Option Request :=
  m.turns.wire.unanswered.head?.map Prod.snd

/-- The step is the consumer's, and not its peer's. -/
def ConsumerEvent.own : ConsumerEvent → Bool
  | .respond _ => false
  | _ => true

/-- The records of a response to a fetch. -/
def recordsOf : Request → Response → List Record
  | .fetch .., .fetchSuccess _ _ records => records
  | _, _ => []

/-- The records that an operation gets by a step. -/
def ConsumerState.taken (m : ConsumerState) : ConsumerEvent → List Record
  | .read =>
    match m.exchanging, m.turns.read .foreground with
    | some (request, _), some (response, _) => recordsOf request response
    | _, _ => []
  | _ => []

/-! ## What a step does -/

/-- What each step of a member does, to the operation in progress and to the connection. -/
inductive MemberStep (overflowChecks : Bool) (m : ConsumerState) : ConsumerEvent → ConsumerState → Prop
  | call (operation : Consumer.Operation) (hidle : m.foreground = none) :
      MemberStep overflowChecks m (.call operation)
        { m with foreground := some (operation.client overflowChecks m.consumer) }
  | spawn {groupId memberId : String} {next : Nat → Client Consumer}
      (hforeground : m.foreground = some (.ask (.spawn groupId memberId) next))
      (heartbeats : Table Nat HeartbeatTask) : MemberStep overflowChecks m .effect { m with
        foreground := some (next m.spawned), heartbeats := heartbeats, spawned := m.spawned + 1 }
  | abort {task : Nat} {next : Unit → Client Consumer}
      (hforeground : m.foreground = some (.ask (.abort task) next))
      (heartbeats : Table Nat HeartbeatTask) : MemberStep overflowChecks m .effect
        { m with foreground := some (next ()), heartbeats := heartbeats }
  | returns {c : Consumer} (hforeground : m.foreground = some (.done c)) :
      MemberStep overflowChecks m .effect { m with consumer := c, foreground := none }
  | lock {turns : Turns Party Request Response} (hturns : m.turns.acquire .foreground = some turns) :
      MemberStep overflowChecks m .lock { m with turns := turns }
  | send {x : Request × (Reply → Client Consumer)} {turns : Turns Party Request Response}
      (hasked : m.exchanging = some x) (hopen : m.closed = false)
      (hturns : m.turns.send .foreground x.1 = some turns) :
      MemberStep overflowChecks m .send { m with turns := turns }
  | fails {e : ConsumerEvent} {x : Request × (Reply → Client Consumer)} (error : GaffaError)
      (hevent : e ≠ .read) (hasked : m.exchanging = some x) : MemberStep overflowChecks m e { m with
        foreground := some (x.2 (.error error)), turns := m.turns.giveUp .foreground }
  | read {x : Request × (Reply → Client Consumer)} {response : Response}
      {turns : Turns Party Request Response} (hasked : m.exchanging = some x)
      (hopen : m.closed = false) (hturns : m.turns.read .foreground = some (response, turns)) :
      MemberStep overflowChecks m .read
        { m with foreground := some (x.2 (.ok response)), turns := turns }
  | heartbeat {e : ConsumerEvent} {turns : Turns Party Request Response} (hevent : e ≠ .read)
      (heartbeats : Table Nat HeartbeatTask) (hothers : Turns.Others .foreground m.turns turns)
      {ys : List (Nat × Request)} (hsent : turns.wire.unanswered = m.turns.wire.unanswered ++ ys)
      (hbeats : ∀ y ∈ ys, ∃ groupId memberId, y.2 = .heartbeat groupId memberId) :
      MemberStep overflowChecks m e { m with heartbeats := heartbeats, turns := turns }
  | close : MemberStep overflowChecks m .close { m with closed := true }

/-- The end of a heartbeat task leaves the operation and its turn alone. -/
theorem memberStep_endHeartbeat (overflowChecks : Bool) (m : ConsumerState) (hevent : e ≠ .read)
    (task : Nat) : MemberStep overflowChecks m e (m.endHeartbeat task) :=
  .heartbeat hevent _ (Turns.others_giveUp (by simp) m.turns)
    (by rw [Turns.wire_giveUp, List.append_nil]) (List.forall_mem_nil _)

/-- **What a step does**, for each event of the consumer. -/
theorem memberStep_of_next (hown : e.own = true) (h : m.next overflowChecks e = some m') :
    MemberStep overflowChecks m e m' := by
  cases e with
  | call operation =>
    simp only [ConsumerState.next] at h
    split at h
    · rename_i hidle
      cases h
      exact .call operation hidle
    · cases h
  | effect =>
    simp only [ConsumerState.next, ConsumerState.effect] at h
    split at h
    · rename_i groupId memberId next hforeground
      cases h
      exact .spawn hforeground _
    · rename_i task next hforeground
      cases h
      exact .abort hforeground _
    · rename_i c hforeground
      cases h
      exact .returns hforeground
    · cases h
  | lock =>
    obtain ⟨x, -, h⟩ := Option.bind_eq_some_iff.1 h
    obtain ⟨turns, hturns, h⟩ := Option.bind_eq_some_iff.1 h
    cases h
    exact .lock hturns
  | send =>
    obtain ⟨x, hasked, h⟩ := Option.bind_eq_some_iff.1 h
    obtain ⟨turns, hturns, h⟩ := Option.bind_eq_some_iff.1 h
    obtain ⟨hopen, h⟩ := Option.ite_none_left_eq_some.1 h
    cases h
    exact .send hasked (Bool.eq_false_iff.2 hopen) hturns
  | sendFails error =>
    obtain ⟨x, hasked, h⟩ := Option.bind_eq_some_iff.1 h
    obtain ⟨-, h⟩ := Option.ite_none_right_eq_some.1 h
    cases h
    exact .fails error (by simp) hasked
  | read =>
    obtain ⟨x, hasked, h⟩ := Option.bind_eq_some_iff.1 h
    obtain ⟨y, hturns, h⟩ := Option.bind_eq_some_iff.1 h
    obtain ⟨hopen, h⟩ := Option.ite_none_left_eq_some.1 h
    cases h
    exact .read hasked (Bool.eq_false_iff.2 hopen) hturns
  | readFails error =>
    obtain ⟨x, hasked, h⟩ := Option.bind_eq_some_iff.1 h
    obtain ⟨-, h⟩ := Option.ite_none_right_eq_some.1 h
    cases h
    exact .fails error (by simp) hasked
  | tick task =>
    obtain ⟨t, -, rfl⟩ := Option.map_eq_some_iff.1 h
    exact .heartbeat (by simp) _ (Turns.Others.refl _ _) (List.append_nil _).symm
      (List.forall_mem_nil _)
  | lockHeartbeat task =>
    obtain ⟨t, -, h⟩ := Option.bind_eq_some_iff.1 h
    obtain ⟨turns, hturns, h⟩ := Option.bind_eq_some_iff.1 h
    cases h
    exact .heartbeat (by simp) m.heartbeats (Turns.others_acquire (by simp) hturns)
      (by rw [Turns.wire_acquire hturns, List.append_nil]) (List.forall_mem_nil _)
  | sendHeartbeat task =>
    obtain ⟨t, -, h⟩ := Option.bind_eq_some_iff.1 h
    obtain ⟨turns, hturns, h⟩ := Option.bind_eq_some_iff.1 h
    obtain ⟨-, h⟩ := Option.ite_none_left_eq_some.1 h
    cases h
    exact .heartbeat (by simp) m.heartbeats (Turns.others_send (by simp) hturns)
      (Turns.unanswered_send hturns) (List.forall_mem_singleton.2 ⟨_, _, rfl⟩)
  | sendHeartbeatFails task =>
    obtain ⟨t, -, h⟩ := Option.bind_eq_some_iff.1 h
    obtain ⟨-, h⟩ := Option.ite_none_right_eq_some.1 h
    cases h
    exact memberStep_endHeartbeat overflowChecks m (by simp) task
  | readHeartbeat task =>
    obtain ⟨t, -, h⟩ := Option.bind_eq_some_iff.1 h
    obtain ⟨y, hturns, h⟩ := Option.bind_eq_some_iff.1 h
    obtain ⟨-, h⟩ := Option.ite_none_left_eq_some.1 h
    cases h
    exact .heartbeat (by simp) _ (Turns.others_read (by simp) hturns)
      ((Turns.unanswered_read hturns).trans (List.append_nil _).symm) (List.forall_mem_nil _)
  | readHeartbeatFails task =>
    obtain ⟨t, -, h⟩ := Option.bind_eq_some_iff.1 h
    obtain ⟨-, h⟩ := Option.ite_none_right_eq_some.1 h
    cases h
    exact memberStep_endHeartbeat overflowChecks m (by simp) task
  | cancel task =>
    obtain ⟨t, -, h⟩ := Option.bind_eq_some_iff.1 h
    obtain ⟨-, h⟩ := Option.ite_none_right_eq_some.1 h
    cases h
    exact memberStep_endHeartbeat overflowChecks m (by simp) task
  | respond response => cases hown
  | close =>
    cases h
    exact .close

/-! ## What is known of a member -/

/-- What a response tells is so: the records of a fetch are those in the logs from its offset on, and
nothing unread is below a committed offset. -/
def Tells (logged : Record → Prop) (k : Unread) : Request → Response → Prop
  | .fetch topic partition offset _, .fetchSuccess _ _ records =>
    Follows topic partition offset records ∧ ∀ r ∈ records, logged r
  | .fetchOffset _ topic partition, .fetchOffsetSuccess _ _ _ offset =>
    k (topic, partition) ⊆ Set.Ici offset
  | _, _ => True

/-- A member leaves nothing unread behind, whatever its operation is about to do; its requests that the
broker has still to answer keep to the contract; a response that its operation is about to read is to
its request and tells what is so, unless the connection has failed; and what the server works on for it
is its oldest request. -/
structure InHand (group : String) (logged : Record → Prop) (k : Unread) (tasks : Table Nat Task)
    (i : Nat) (m : ConsumerState) : Prop where
  idle : m.foreground = none → Behind group k m.consumer
  running : ∀ d, m.foreground = some d → Meets (readingContract group) (Behind group) k d
  sound : m.turns.Sound
  kept : m.closed = false → m.turns.orphans = 0
  passes : ∀ y ∈ m.turns.wire.unanswered, Passes group k (.exchange y.2)
  asked : m.closed = false → ∀ n, m.turns.holder = some (.foreground, some n) →
    ∃ x, m.exchanging = some x ∧ (∀ y ∈ m.turns.wire.unanswered, y.2 = x.1) ∧
      ∀ y ∈ m.turns.wire.unread, Tells logged k x.1 y.2
  working : ∀ task, tasks.get i = some task → ∃ request, m.oldest = some request ∧
    Answering request task

section Member

variable {logged logged' : Record → Prop} {k k' : Unread} {tasks tasks' : Table Nat Task} {i : Nat}
  {request : Request} {response : Response}

theorem Tells.honest (h : Tells logged k request response) :
    HonestFetch (.exchange request) (.ok response) := by
  cases request with
  | fetch topic partition offset maxMessages =>
    cases response with
    | fetchSuccess _ _ records => exact h.1
    | _ => exact trivial
  | _ => exact trivial

theorem Tells.mono (h : Tells logged k request response) (hlogged : ∀ r, logged r → logged' r)
    (hk : k' ≤ k) : Tells logged' k' request response := by
  unfold Tells at h ⊢
  split
  · exact ⟨h.1, fun r hr => hlogged r (h.2 r hr)⟩
  · exact (hk _).trans h
  · exact trivial

theorem Passes.anti {effect : Effect} (h : Passes group k effect) (hk : k' ≤ k) :
    Passes group k' effect :=
  (readingContract group).respects_anti hk h

/-- An answer leaves no more unread. -/
theorem unreadAfter_le (k : Unread) (effect : Effect) (answer : effect.Answer) :
    unreadAfter k effect answer ≤ k := by
  unfold unreadAfter
  split
  · exact update_le_iff.2 ⟨Set.sdiff_subset, fun _ _ => le_rfl⟩
  · exact update_le_iff.2 ⟨Set.inter_subset_left, fun _ _ => le_rfl⟩
  · exact le_rfl

theorem inHand_new (logged : Record → Prop) (k : Unread) (autoCommit : Bool)
    (hidle : tasks.get i = none) :
    InHand group logged k tasks i (.new (some group) autoCommit) where
  idle _ := behind_new group autoCommit k
  running _ hd := nomatch hd
  sound := Turns.sound_new
  kept _ := rfl
  passes := List.forall_mem_nil _
  asked _ _ hholder := nomatch hholder
  working _ htask := nomatch hidle.symm.trans htask

theorem InHand.mono (h : InHand group logged k tasks i m) (hlogged : ∀ r, logged r → logged' r)
    (hk : k' ≤ k) : InHand group logged' k' tasks i m where
  idle hnone := (h.idle hnone).anti hk
  running d hd := (h.running d hd).anti Behind.anti hk
  sound := h.sound
  kept := h.kept
  passes y hy := (h.passes y hy).anti hk
  asked hopen n hholder := by
    obtain ⟨x, hasked, hsent, htells⟩ := h.asked hopen n hholder
    exact ⟨x, hasked, hsent, fun y hy => (htells y hy).mono hlogged hk⟩
  working := h.working

/-- The server's tasks matter only for the connection. -/
theorem InHand.withTasks (h : InHand group logged k tasks i m)
    (hworking : ∀ task, tasks'.get i = some task → ∃ request, m.oldest = some request ∧
      Answering request task) : InHand group logged k tasks' i m :=
  ⟨h.idle, h.running, h.sound, h.kept, h.passes, h.asked, hworking⟩

/-- The request of a member keeps to the contract. -/
theorem InHand.exchange_passes (h : InHand group logged k tasks i m)
    {x : Request × (Reply → Client Consumer)} (hasked : m.exchanging = some x) :
    Passes group k (.exchange x.1) :=
  (h.running _ (exchanging_eq_some hasked)).1

/-- No heartbeat is given up between its request and its response, so nothing is pending that
nobody waits for. -/
theorem InHand.kept_next (h : InHand group logged k tasks i m)
    (hcut : m.closed = false → ¬ Disturbs m e) (hstep : m.next overflowChecks e = some m')
    (hopen : m'.closed = false) : m'.turns.orphans = 0 := by
  have hbefore : m.closed = false := by
    by_contra hclosed
    have hstill := (turnStep_of_next hstep).2 (Bool.eq_true_of_not_eq_false hclosed)
    rw [hopen] at hstill
    cases hstill
  rcases orphans_of_next hstep with ⟨heq, -⟩ | hclosed | ⟨-, hdisturbs⟩
  · exact heq.trans (h.kept hbefore)
  · rw [hbefore] at hclosed
    cases hclosed
  · exact absurd hdisturbs (hcut hbefore)

/-- While nobody has sent a request, nothing is pending on the connection. -/
theorem InHand.pending_nil (h : InHand group logged k tasks i m) (hopen : m.closed = false)
    (hawaited : m.turns.awaited = none) :
    m.turns.wire.unread = [] ∧ m.turns.wire.unanswered = [] := by
  have hlength := h.sound.length
  rw [h.kept hopen, hawaited] at hlength
  have hnil := List.length_eq_zero_iff.1 hlength
  obtain ⟨hunread, hunanswered⟩ := List.append_eq_nil_iff.1 hnil
  exact ⟨List.map_eq_nil_iff.1 hunread, List.map_eq_nil_iff.1 hunanswered⟩

/-- The oldest request stays the oldest one when others are sent. -/
theorem InHand.working_append (h : InHand group logged k tasks i m) {ys : List (Nat × Request)}
    (hsent : m'.turns.wire.unanswered = m.turns.wire.unanswered ++ ys) {task : Task}
    (htask : tasks.get i = some task) :
    ∃ request, m'.oldest = some request ∧ Answering request task := by
  obtain ⟨request, hold, hanswering⟩ := h.working task htask
  refine ⟨request, ?_, hanswering⟩
  obtain ⟨y, hy, rfl⟩ := Option.map_eq_some_iff.1 hold
  obtain ⟨rest, hrest⟩ := List.head?_eq_some_iff.1 hy
  rw [ConsumerState.oldest, hsent, hrest]
  rfl

theorem InHand.working_same (h : InHand group logged k tasks i m)
    (hsame : m'.turns.wire.unanswered = m.turns.wire.unanswered) {task : Task}
    (htask : tasks.get i = some task) :
    ∃ request, m'.oldest = some request ∧ Answering request task :=
  h.working_append (hsame.trans (List.append_nil _).symm) htask

theorem InHand.passes_append (h : InHand group logged k tasks i m) {ys : List (Nat × Request)}
    (hsent : m'.turns.wire.unanswered = m.turns.wire.unanswered ++ ys)
    (hys : ∀ y ∈ ys, Passes group k (.exchange y.2)) :
    ∀ y ∈ m'.turns.wire.unanswered, Passes group k (.exchange y.2) := by
  rw [hsent]
  exact List.forall_mem_append.2 ⟨h.passes, hys⟩

/-- An operation that asks for nothing has no turn on the connection. -/
theorem InHand.not_waiting (h : InHand group logged k tasks i m) (hopen : m.closed = false)
    (hasked : m.exchanging = none) (n : Nat) : m.turns.holder ≠ some (.foreground, some n) := by
  intro hholder
  obtain ⟨x, hx, -⟩ := h.asked hopen n hholder
  rw [hasked] at hx
  cases hx

/-- The operation goes on without the connection. -/
theorem InHand.moves (h : InHand group logged k tasks i m) (hasked : m.exchanging = none)
    {c : Consumer} {foreground : Option (Client Consumer)} (heartbeats : Table Nat HeartbeatTask)
    (spawned : Nat) (hidle : foreground = none → Behind group k c)
    (hrunning : ∀ d, foreground = some d → Meets (readingContract group) (Behind group) k d) :
    InHand group logged k tasks i ⟨c, foreground, heartbeats, spawned, m.turns, m.closed⟩ :=
  ⟨hidle, hrunning, h.sound, h.kept, h.passes,
    fun hopen n hholder => absurd hholder (h.not_waiting hopen hasked n), h.working⟩

/-- **Every step of a member** but the reading of a response keeps what is known of it. -/
theorem InHand.own (h : InHand group logged k tasks i m) (hown : e.own = true) (hread : e ≠ .read)
    (hcut : m.closed = false → ¬ Disturbs m e) (hstep : m.next overflowChecks e = some m') :
    InHand group logged k tasks i m' := by
  have hsound := sound_next h.sound hstep
  have hkept := h.kept_next hcut hstep
  cases memberStep_of_next hown hstep with
  | call operation hidle =>
    refine h.moves (by rw [ConsumerState.exchanging, hidle]) _ _ (fun hnone => (by cases hnone)) ?_
    rintro d ⟨⟩
    exact operation_passes overflowChecks operation (h.idle hidle)
  | spawn hforeground heartbeats =>
    refine h.moves (by rw [ConsumerState.exchanging, hforeground]) _ _ (fun hnone => (by cases hnone)) ?_
    rintro d ⟨⟩
    exact (h.running _ hforeground).2 m.spawned trivial
  | abort hforeground heartbeats =>
    refine h.moves (by rw [ConsumerState.exchanging, hforeground]) _ _ (fun hnone => (by cases hnone)) ?_
    rintro d ⟨⟩
    exact (h.running _ hforeground).2 () trivial
  | returns hforeground =>
    refine h.moves (by rw [ConsumerState.exchanging, hforeground]) _ _
      (fun _ => h.running _ hforeground) ?_
    exact fun d hd => by cases hd
  | lock hturns =>
    have hwire := Turns.wire_acquire hturns
    refine ⟨h.idle, h.running, hsound, hkept, ?_, fun _ n hholder => ?_,
      fun task => h.working_same (congrArg Wire.unanswered hwire)⟩
    · rw [hwire]
      exact h.passes
    · rw [(Turns.holder_acquire hturns).2] at hholder
      cases hholder
  | @send x turns hasked hopen hturns =>
    have hsent := Turns.unanswered_send hturns
    obtain ⟨hunread, hunanswered⟩ := h.pending_nil hopen (Turns.awaited_of_send hturns)
    refine ⟨h.idle, h.running, hsound, hkept,
      h.passes_append hsent (List.forall_mem_singleton.2 (h.exchange_passes hasked)),
      fun _ n _ => ⟨x, hasked, ?_, ?_⟩, fun task => h.working_append hsent⟩
    · rw [hsent, hunanswered]
      exact List.forall_mem_singleton.2 rfl
    · rw [Turns.unread_send hturns, hunread]
      exact List.forall_mem_nil _
  | @fails _ x error _ hasked =>
    have hwire := Turns.wire_giveUp Party.foreground m.turns
    have hsilent : HonestFetch (.exchange x.1) (Except.error error : Reply) ∧
        unreadAfter k (.exchange x.1) (Except.error error : Reply) = k := by
      cases x.1 <;> exact ⟨trivial, rfl⟩
    refine ⟨fun hnone => (by cases hnone), ?_, hsound, hkept, ?_, fun _ n hholder => ?_,
      fun task => h.working_same (congrArg Wire.unanswered hwire)⟩
    · rintro d ⟨⟩
      exact ((h.running _ (exchanging_eq_some hasked)).2 (.error error) hsilent.1).anti Behind.anti
        (le_of_eq hsilent.2.symm)
    · rw [hwire]
      exact h.passes
    · exact absurd hholder (Turns.holder_giveUp _ _ _)
  | read => exact absurd rfl hread
  | heartbeat _ heartbeats hothers hsent hbeats =>
    refine ⟨h.idle, h.running, hsound, hkept, h.passes_append hsent fun y hy => ?_,
      fun hopen n hholder => ?_, fun task => h.working_append hsent⟩
    · obtain ⟨groupId, memberId, heq⟩ := hbeats y hy
      rw [heq]
      exact trivial
    · have hholder' := (hothers.holder _).1 hholder
      rw [hothers.wire _ hholder']
      exact h.asked hopen n hholder'
  | close =>
    exact ⟨h.idle, h.running, h.sound, fun hopen => (by cases hopen), h.passes,
      fun hopen => (by cases hopen), h.working⟩

/-- **An operation reads a response**, which is to its own request and tells what is so. -/
theorem InHand.read (h : InHand group logged k tasks i m)
    (hstep : m.next overflowChecks .read = some m') : ∃ x response, m.exchanging = some x ∧
      m.taken .read = recordsOf x.1 response ∧ Passes group k (.exchange x.1) ∧
      Tells logged k x.1 response ∧ ∀ k', k' ≤ unreadAfter k (.exchange x.1) (.ok response) →
        InHand group logged k' tasks i m' := by
  have hsound := sound_next h.sound hstep
  have hkept := h.kept_next (fun _ ⟨task, he, _⟩ => by cases he) hstep
  cases memberStep_of_next rfl hstep with
  | @read x response turns hasked hopen hturns =>
    obtain ⟨n, n', wire, hholder, hwire, rfl⟩ := Turns.read_eq_some hturns
    obtain ⟨x', hx', hsent, htells⟩ := h.asked hopen n hholder
    cases hasked.symm.trans hx'
    have hunanswered := (Wire.read_eq_some hwire).2
    have htold : Tells logged k x.1 response := by
      refine htells (n', response) ?_
      rw [(Wire.read_eq_some hwire).1]
      exact List.mem_cons_self ..
    refine ⟨x, response, hasked, ?_, h.exchange_passes hasked, htold, fun k' hk => ?_⟩
    · simp only [ConsumerState.taken, hasked, hturns]
    · have hle : k' ≤ k := hk.trans (unreadAfter_le k _ _)
      refine ⟨fun hnone => (by cases hnone), ?_, hsound, hkept, ?_,
        fun _ _ hholder => (by cases hholder), fun task => h.working_same hunanswered⟩
      · rintro d ⟨⟩
        exact ((h.running _ (exchanging_eq_some hasked)).2 (.ok response) htold.honest).anti
          Behind.anti hk
      · rw [hunanswered]
        exact fun y hy => (h.passes y hy).anti hle
  | fails _ hevent => exact absurd rfl hevent
  | heartbeat hevent => exact absurd rfl hevent

/-- **The broker responds** to the oldest request of a member. -/
theorem InHand.respond (h : InHand group logged k tasks i m)
    (hstep : m.next overflowChecks (.respond response) = some m')
    (htells : ∀ request, m.oldest = some request → Tells logged k request response)
    (hidle : tasks'.get i = none) : InHand group logged k tasks' i m' := by
  have hsound := sound_next h.sound hstep
  have hkept := h.kept_next (fun _ ⟨task, he, _⟩ => by cases he) hstep
  obtain ⟨turns, hturns, rfl⟩ := Option.map_eq_some_iff.1 hstep
  obtain ⟨wire, hwire, rfl⟩ := Option.map_eq_some_iff.1 hturns
  obtain ⟨n, request, hunanswered, hunread⟩ := Wire.answer_eq_some hwire
  have hold : m.oldest = some request := by
    rw [ConsumerState.oldest, hunanswered]
    rfl
  refine ⟨h.idle, h.running, hsound, hkept, fun y hy => h.passes y ?_, fun hopen n' hholder => ?_,
    fun task htask => ?_⟩
  · rw [hunanswered]
    exact List.mem_cons_of_mem _ hy
  · obtain ⟨x, hasked, hsent, hread⟩ := h.asked hopen n' hholder
    rw [hunanswered] at hsent
    obtain ⟨hown, hrest⟩ := List.forall_mem_cons.1 hsent
    refine ⟨x, hasked, hrest, ?_⟩
    rw [hunread]
    refine List.forall_mem_append.2 ⟨hread, List.forall_mem_singleton.2 ?_⟩
    have hown : request = x.1 := hown
    rw [← hown]
    exact htells request hold
  · rw [hidle] at htask
    cases htask

end Member

end Gaffa
