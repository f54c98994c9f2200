import Gaffa.Client.Obligations
import Gaffa.Client.Pairing
import Gaffa.Broker.GroupViews
import Gaffa.Broker.OffsetManager
import Gaffa.Broker.Server
import Gaffa.Storage.PartitionSpec

/-!
# The members of a group and the broker

Any number of consumers of one group, each with its connection and its heartbeat tasks, and the broker
that answers them: the offset manager, the group coordinator, and a storage that may hold anything.
A consumer keeps the offset of every partition that it was ever assigned, and commits them all.

* `commits_never_decrease`: on runs in which every commit of a partition that has a committed offset
  comes from the member that was the last to hear of it, committed offsets never decrease.
-/

set_option autoImplicit false

namespace Gaffa

open Transition Dialogue

variable {ι : Type} [DecidableEq ι] {K : Crates} {overflowChecks : Bool} {group : String}

/-! ## The broker -/

/-- What the processing of a request meets: clock, fresh identifier and iteration order for the
coordinator, the outcome of `persist_group`, and for a fetch the topic that was found and the
storage. -/
structure ServeIo where
  now : Nat
  uuid : String
  order : IterationOrder
  persisted : Except GaffaError Unit
  found : Except GaffaError Topic
  server : Server

/-- The call of the coordinator that a request makes. -/
def ServeIo.groupCall (io : ServeIo) : Request → Option GroupCall
  | .joinGroup groupId memberId topics =>
    some (.joinGroup io.now io.uuid io.order groupId memberId topics)
  | .leaveGroup groupId memberId => some (.leaveGroup io.order groupId memberId)
  | .heartbeat groupId memberId => some (.heartbeat io.now groupId memberId)
  | _ => none

/-- The offset manager and the coordinator. -/
structure GroupBroker where
  offsetManager : OffsetManager
  coordinator : GroupCoordinator

/-- `process_request` for `CommitOffset`. -/
def processCommitOffset (persisted : Except GaffaError Unit) (groupId topic : String)
    (partition offset : Nat) (m : OffsetManager) : Response × OffsetManager :=
  (match persisted with
    | .ok _ => .commitOffsetSuccess groupId topic partition offset
    | .error e => .commitOffsetError e.display,
    m.insertOffset ⟨groupId, topic, partition⟩ offset)

/-- `process_request` for `FetchOffset`. -/
def processFetchOffset (groupId topic : String) (partition : Nat) (m : OffsetManager) : Response :=
  .fetchOffsetSuccess groupId topic partition
    ((m.fetchOffset ⟨groupId, topic, partition⟩).getD 0)

/-- `process_request` for `LeaveGroup`. -/
def processLeaveGroup (overflowChecks : Bool) (order : IterationOrder) (groupId memberId : String)
    (c : GroupCoordinator) : Option Response × GroupCoordinator :=
  let r := c.leaveGroup overflowChecks order groupId memberId
  (respond (fun _ => .leaveGroupSuccess groupId) .leaveGroupError r.1, r.2)

/-- `process_request` for `Fetch`, with the topic that `get_topic` returned. -/
def processFetch (K : Crates) (found : Except GaffaError Topic) (srv : Server) (topic : String)
    (partition offset maxMessages : Nat) : Option Response :=
  match found with
  | .error e => some (.fetchError e.display)
  | .ok handle => Task.read K handle topic partition offset maxMessages srv

/-- The response to a request of a group member, unless the processing panics. -/
def GroupBroker.process (K : Crates) (overflowChecks : Bool) (io : ServeIo) (b : GroupBroker) :
    Request → Option Response × GroupBroker
  | .joinGroup groupId memberId topics =>
    let r := processJoinGroup overflowChecks io.now io.uuid io.order groupId memberId topics
      b.coordinator
    (r.1, { b with coordinator := r.2 })
  | .leaveGroup groupId memberId =>
    let r := processLeaveGroup overflowChecks io.order groupId memberId b.coordinator
    (r.1, { b with coordinator := r.2 })
  | .heartbeat groupId memberId =>
    let r := processHeartbeat io.now groupId memberId b.coordinator
    (some r.1, { b with coordinator := r.2 })
  | .commitOffset groupId topic partition offset =>
    let r := processCommitOffset io.persisted groupId topic partition offset b.offsetManager
    (some r.1, { b with offsetManager := r.2 })
  | .fetchOffset groupId topic partition =>
    (some (processFetchOffset groupId topic partition b.offsetManager), b)
  | .fetch topic partition offset maxMessages =>
    (processFetch K io.found io.server topic partition offset maxMessages, b)
  | _ => (none, b)

/-! ## The system -/

/-- The members of a group with the broker, and which member has heard of which committed offset since
anybody else committed one. -/
structure GroupSystem (ι : Type) where
  broker : GroupBroker
  consumers : ι → ConsumerState
  heard : ι → TopicPartition → Bool

/-- The steps of the members, of the broker, and of what else calls the coordinator: the update of the
partition counts before a `JoinGroup`, and the eviction of dead members. -/
inductive GroupEvent (ι : Type) where
  | consumer (i : ι) (e : ConsumerEvent)
  | serve (i : ι) (io : ServeIo)
  | coordinate (call : GroupCall)

/-- Who has heard of the committed offsets after a request of `i`. -/
def heardAfter (i : ι) (heard : ι → TopicPartition → Bool) : Request → ι → TopicPartition → Bool
  | .commitOffset _ topic partition _ =>
    fun j key => if key = (topic, partition) then j = i else heard j key
  | .fetchOffset _ topic partition =>
    fun j key => if key = (topic, partition) ∧ j = i then true else heard j key
  | _ => heard

namespace GroupSystem

/-- Consumers that have just connected, with a broker that may have committed offsets. -/
def new (group : String) (autoCommit : ι → Bool) (broker : GroupBroker) : GroupSystem ι :=
  ⟨broker, fun i => ConsumerState.new (some group) (autoCommit i), fun _ _ => false⟩

/-- The oldest request of a member that is not answered. -/
def request (s : GroupSystem ι) (i : ι) : Option Request :=
  (s.consumers i).turns.wire.unanswered.head?.map Prod.snd

/-- The steps of the system. -/
def next (K : Crates) (overflowChecks : Bool) (s : GroupSystem ι) :
    GroupEvent ι → Option (GroupSystem ι)
  | .consumer _ (.respond _) => none
  | .consumer i e => ((s.consumers i).next overflowChecks e).map fun c =>
    { s with consumers := Function.update s.consumers i c }
  | .serve i io => do
    let request ← s.request i
    if ∀ call ∈ io.groupCall request, call.Iterates s.broker.coordinator then
      let r := s.broker.process K overflowChecks io request
      let response ← r.1
      let c ← (s.consumers i).next overflowChecks (.respond response)
      return {
        broker := r.2
        consumers := Function.update s.consumers i c
        heard := heardAfter i s.heard request }
    else none
  | .coordinate call =>
    if call.Iterates s.broker.coordinator then
      some { s with broker := { s.broker with
        coordinator := (call.perform overflowChecks s.broker.coordinator).2 } }
    else none

end GroupSystem

/-! ## What a run without stale commits keeps -/

/-- The committed offset of a partition. -/
def GroupBroker.stored (group : String) (b : GroupBroker) (key : TopicPartition) : Option Nat :=
  b.offsetManager.offsets.get ⟨group, key.1, key.2⟩

/-- No committed offset is replaced by a smaller one. -/
def NeverFalls (s : GroupSystem ι) (_ : GroupEvent ι) (t : GroupSystem ι) : Prop :=
  ∀ key offset, s.broker.offsetManager.offsets.get key = some offset →
    ∃ offset', t.broker.offsetManager.offsets.get key = some offset' ∧ offset ≤ offset'

/-- A commit of a partition that has a committed offset comes from a member that has heard of it since
anybody else committed the partition. -/
def HeardCommits (group : String) (s : GroupSystem ι) (e : GroupEvent ι) (_ : GroupSystem ι) : Prop :=
  ∀ i io groupId topic partition offset, e = .serve i io →
    s.request i = some (.commitOffset groupId topic partition offset) →
    s.broker.stored group (topic, partition) = none ∨ s.heard i (topic, partition) = true

/-- No operation reads a response after a request of its consumer was given up. -/
def OwnResponses (s : GroupSystem ι) (e : GroupEvent ι) (_ : GroupSystem ι) : Prop :=
  ∀ i, e = .consumer i .read → (s.consumers i).turns.orphans = 0

/-- The committed offsets that a member has heard of. -/
def GroupSystem.bounds (group : String) (s : GroupSystem ι) (i : ι) : Bounds := fun key =>
  if s.heard i key = true then
    (s.broker.stored group key).elim ⊥ fun offset => (offset : WithBot Nat)
  else ⊥

/-- The request is that of a heartbeat task. -/
def Request.IsHeartbeat (request : Request) : Prop :=
  ∃ groupId memberId, request = .heartbeat groupId memberId

/-- The operation in progress waits for the response to its request, which is on its way or to be
answered. -/
def Awaiting (group : String) (k : Bounds) (c : ConsumerState) (n : Nat) : Prop :=
  ∃ request next, c.foreground = some (.ask (.exchange request) next) ∧
    (((n, request) ∈ c.turns.wire.unanswered ∧
        Meets (groupContract group) (Ahead group) k (.ask (.exchange request) next)) ∨
      ∃ response, (n, response) ∈ c.turns.wire.unread ∧
        Meets (groupContract group) (Ahead group) k (next (.ok response)))

/-- A member keeps to the bounds: in the operation in progress, in its positions when there is none,
and in the request that the broker has not answered. -/
structure Keeps (group : String) (k : Bounds) (c : ConsumerState) : Prop where
  sound : c.turns.Sound
  idle : c.closed = false → c.foreground = none → Ahead group k c.consumer
  running : c.closed = false → (∀ n, c.turns.holder ≠ some (.foreground, some n)) →
    ∀ d, c.foreground = some d → Meets (groupContract group) (Ahead group) k d
  waiting : c.closed = false → ∀ n, c.turns.holder = some (.foreground, some n) →
    Awaiting group k c n
  requests : ∀ n request, (n, request) ∈ c.turns.wire.unanswered → ¬ request.IsHeartbeat →
    Respects group k (.exchange request) ∧
      (c.closed = false → c.turns.holder = some (.foreground, some n))
  one : ∀ n n' request request', (n, request) ∈ c.turns.wire.unanswered →
    (n', request') ∈ c.turns.wire.unanswered → ¬ request.IsHeartbeat → ¬ request'.IsHeartbeat →
    n = n'

section Member

variable {k k' : Bounds} {c c' : ConsumerState} {e : ConsumerEvent}

theorem Keeps.anti (h : Keeps group k c) (hk : k' ≤ k) : Keeps group k' c where
  sound := h.sound
  idle hopen hnone := (h.idle hopen hnone).anti hk
  running hopen hholder d hd := (h.running hopen hholder d hd).anti Ahead.anti hk
  waiting hopen n hholder := by
    obtain ⟨request, next, hforeground, ⟨hmem, hmeets⟩ | ⟨response, hmem, hmeets⟩⟩ :=
      h.waiting hopen n hholder
    · exact ⟨request, next, hforeground, Or.inl ⟨hmem, hmeets.anti Ahead.anti hk⟩⟩
    · exact ⟨request, next, hforeground, Or.inr ⟨response, hmem, hmeets.anti Ahead.anti hk⟩⟩
  requests n request hmem hrequest :=
    ⟨(groupContract group).respects_anti hk (h.requests n request hmem hrequest).1,
      (h.requests n request hmem hrequest).2⟩
  one := h.one

theorem keeps_new (group : String) (k : Bounds) (hk : ∀ key, k key = ⊥) (autoCommit : Bool) :
    Keeps group k (ConsumerState.new (some group) autoCommit) where
  sound := Turns.sound_new
  idle _ _ := ⟨rfl, fun key => hk key ▸ bot_le⟩
  running _ _ _ hd := nomatch hd
  waiting _ _ hn := nomatch hn
  requests _ _ hmem := absurd hmem List.not_mem_nil
  one _ _ _ _ hmem := absurd hmem List.not_mem_nil

/-- **Steps of a heartbeat task** do not concern the operation in progress. -/
theorem Keeps.others (h : Keeps group k c) (hsound : c'.turns.Sound)
    (hconsumer : c'.consumer = c.consumer) (hforeground : c'.foreground = c.foreground)
    (hclosed : c'.closed = c.closed) (hothers : Turns.Others .foreground c.turns c'.turns)
    (hrequests : ∀ x ∈ c'.turns.wire.unanswered, x ∈ c.turns.wire.unanswered ∨ x.2.IsHeartbeat) :
    Keeps group k c' := by
  have hold : ∀ n request, (n, request) ∈ c'.turns.wire.unanswered → ¬ request.IsHeartbeat →
      (n, request) ∈ c.turns.wire.unanswered :=
    fun n request hmem hnot => (hrequests _ hmem).resolve_right hnot
  constructor
  · exact hsound
  · rw [hclosed, hforeground, hconsumer]
    exact h.idle
  · intro hopen hholder d hd
    rw [hclosed] at hopen
    rw [hforeground] at hd
    exact h.running hopen (fun n hn => hholder n ((hothers.holder _).2 hn)) d hd
  · intro hopen n hholder
    rw [hclosed] at hopen
    have hn := (hothers.holder _).1 hholder
    obtain ⟨request, next, heq, hcase⟩ := h.waiting hopen n hn
    refine ⟨request, next, hforeground.trans heq, ?_⟩
    rw [hothers.wire _ hn]
    exact hcase
  · intro n request hmem hnot
    obtain ⟨hrespects, hholder⟩ := h.requests n request (hold n request hmem hnot) hnot
    refine ⟨hrespects, fun hopen => (hothers.holder _).2 (hholder ?_)⟩
    rw [← hclosed]
    exact hopen
  · intro n n' request request' hmem hmem' hnot hnot'
    exact h.one n n' request request' (hold n request hmem hnot) (hold n' request' hmem' hnot') hnot
      hnot'

/-- On a connection that has failed only the request that was sent before matters. -/
theorem Keeps.of_closed (h : Keeps group k c) (hsound : c'.turns.Sound) (hclosed : c'.closed = true)
    (hrequests : c'.turns.wire.unanswered = c.turns.wire.unanswered) : Keeps group k c' := by
  have hnot : ¬ c'.closed = false := by simp [hclosed]
  refine ⟨hsound, fun hopen => absurd hopen hnot, fun hopen => absurd hopen hnot,
    fun hopen => absurd hopen hnot, ?_, ?_⟩
  · rw [hrequests]
    intro n request hmem hrequest
    exact ⟨(h.requests n request hmem hrequest).1, fun hopen => absurd hopen hnot⟩
  · rw [hrequests]
    exact h.one

/-- While the operation in progress waits for no response, only heartbeats are to be answered. -/
theorem Keeps.isHeartbeat (h : Keeps group k c) (hopen : c.closed = false)
    (hholder : ∀ n, c.turns.holder ≠ some (.foreground, some n)) {n : Nat} {request : Request}
    (hmem : (n, request) ∈ c.turns.wire.unanswered) : request.IsHeartbeat := by
  by_contra hnot
  exact hholder n ((h.requests n request hmem hnot).2 hopen)

/-- **Steps of the operation in progress** after which it waits for no response. -/
theorem Keeps.foreground (h : ∀ n request, (n, request) ∈ c.turns.wire.unanswered →
      request.IsHeartbeat) (hsound : c'.turns.Sound)
    (hrequests : c'.turns.wire.unanswered = c.turns.wire.unanswered)
    (hholder : ∀ n, c'.turns.holder ≠ some (.foreground, some n))
    (hidle : c'.foreground = none → Ahead group k c'.consumer)
    (hrunning : ∀ d, c'.foreground = some d → Meets (groupContract group) (Ahead group) k d) :
    Keeps group k c' := by
  refine ⟨hsound, fun _ => hidle, fun _ _ => hrunning, fun _ n hn => absurd hn (hholder n), ?_, ?_⟩
  · rw [hrequests]
    exact fun n request hmem hnot => absurd (h n request hmem) hnot
  · rw [hrequests]
    exact fun n _ request _ hmem _ hnot => absurd (h n request hmem) hnot

/-- While the operation has another effect to take, or none, it waits for no response. -/
theorem Keeps.not_waiting (h : Keeps group k c) (hopen : c.closed = false)
    (hexchange : c.exchanging = none) (n : Nat) : c.turns.holder ≠ some (.foreground, some n) := by
  intro hholder
  obtain ⟨request, next, hforeground, -⟩ := h.waiting hopen n hholder
  rw [ConsumerState.exchanging, hforeground] at hexchange
  cases hexchange

theorem Keeps.call (h : Keeps group k c) {operation : Consumer.Operation}
    (hstep : c.next overflowChecks (.call operation) = some c') : Keeps group k c' := by
  have hsound := sound_next h.sound hstep
  simp only [ConsumerState.next] at hstep
  split at hstep
  · rename_i hnone
    cases hstep
    by_cases hclosed : c.closed = true
    · exact h.of_closed hsound hclosed rfl
    · have hopen := Bool.eq_false_iff.2 hclosed
      have hfree := h.not_waiting hopen (by simp [ConsumerState.exchanging, hnone])
      refine Keeps.foreground (fun n request => h.isHeartbeat hopen hfree) hsound rfl hfree ?_ ?_
      · rintro ⟨⟩
      · rintro d ⟨⟩
        exact operation_meets overflowChecks operation (h.idle hopen hnone)
  · cases hstep

theorem Keeps.effect (h : Keeps group k c) (hstep : c.next overflowChecks .effect = some c') :
    Keeps group k c' := by
  have hsound := sound_next h.sound hstep
  have hkept : ∀ d, c.foreground = some d → c.exchanging = none → c'.closed = c.closed →
      c'.turns = c.turns → (Meets (groupContract group) (Ahead group) k d →
        (c'.foreground = none → Ahead group k c'.consumer) ∧
        ∀ d', c'.foreground = some d' → Meets (groupContract group) (Ahead group) k d') →
      Keeps group k c' := by
    intro d hd hexchange hclosed hturns hgoal
    by_cases hc : c.closed = true
    · exact h.of_closed hsound (hclosed.trans hc) (by rw [hturns])
    · have hopen := Bool.eq_false_iff.2 hc
      have hfree := h.not_waiting hopen hexchange
      obtain ⟨hidle, hrunning⟩ := hgoal (h.running hopen hfree d hd)
      exact Keeps.foreground (fun n request => h.isHeartbeat hopen hfree) hsound (by rw [hturns])
        (by rw [hturns]; exact hfree) hidle hrunning
  simp only [ConsumerState.next, ConsumerState.effect] at hstep
  split at hstep
  · rename_i groupId memberId next hforeground
    cases hstep
    refine hkept _ hforeground (by simp [ConsumerState.exchanging, hforeground]) rfl rfl ?_
    intro hmeets
    refine ⟨fun hnone => (by cases hnone), ?_⟩
    rintro d' ⟨⟩
    exact hmeets.2 c.spawned trivial
  · rename_i task next hforeground
    cases hstep
    refine hkept _ hforeground (by simp [ConsumerState.exchanging, hforeground]) rfl rfl ?_
    intro hmeets
    refine ⟨fun hnone => (by cases hnone), ?_⟩
    rintro d' ⟨⟩
    exact hmeets.2 () trivial
  · rename_i consumer hforeground
    cases hstep
    refine hkept _ hforeground (by simp [ConsumerState.exchanging, hforeground]) rfl rfl ?_
    intro hmeets
    exact ⟨fun _ => hmeets, fun d' hd' => (by cases hd')⟩
  · cases hstep

theorem Keeps.lock (h : Keeps group k c) (hstep : c.next overflowChecks .lock = some c') :
    Keeps group k c' := by
  have hsound := sound_next h.sound hstep
  obtain ⟨x, hx, hstep⟩ := Option.bind_eq_some_iff.1 hstep
  obtain ⟨turns, hturns, hstep⟩ := Option.bind_eq_some_iff.1 hstep
  cases hstep
  have hwire := Turns.wire_acquire hturns
  by_cases hclosed : c.closed = true
  · exact h.of_closed hsound hclosed (by rw [hwire])
  · have hopen := Bool.eq_false_iff.2 hclosed
    obtain ⟨hbefore, hafter⟩ := Turns.holder_acquire hturns
    have hfree : ∀ n, c.turns.holder ≠ some (.foreground, some n) := by simp [hbefore]
    have hforeground := exchanging_eq_some hx
    refine Keeps.foreground (fun n request => h.isHeartbeat hopen hfree) hsound (by rw [hwire])
      (by simp [hafter]) ?_ (h.running hopen hfree)
    intro hnone
    rw [hforeground] at hnone
    cases hnone

theorem Keeps.send (h : Keeps group k c) (hstep : c.next overflowChecks .send = some c') :
    Keeps group k c' := by
  have hsound := sound_next h.sound hstep
  obtain ⟨⟨request, next⟩, hx, hstep⟩ := Option.bind_eq_some_iff.1 hstep
  obtain ⟨turns, hturns, hstep⟩ := Option.bind_eq_some_iff.1 hstep
  obtain ⟨hclosed, hstep⟩ := Option.ite_none_left_eq_some.1 hstep
  cases hstep
  have hopen := Bool.eq_false_iff.2 hclosed
  obtain ⟨hbefore, hturns⟩ := Option.ite_none_right_eq_some.1 hturns
  cases hturns
  have hfree : ∀ n, c.turns.holder ≠ some (.foreground, some n) := by simp [hbefore]
  have hforeground := exchanging_eq_some hx
  have hmeets := h.running hopen hfree _ hforeground
  -- only the new request is not a heartbeat
  have hnew : ∀ n request', (n, request') ∈ c.turns.wire.unanswered ++ [(c.turns.wire.sent, request)] →
      ¬ request'.IsHeartbeat → n = c.turns.wire.sent ∧ request' = request := by
    intro n request' hmem hnot
    rcases List.mem_append.1 hmem with hmem | hmem
    · exact absurd (h.isHeartbeat hopen hfree hmem) hnot
    · cases List.mem_singleton.1 hmem
      exact ⟨rfl, rfl⟩
  refine ⟨hsound, ?_, ?_, ?_, ?_, ?_⟩
  · intro _ hnone
    rw [hforeground] at hnone
    cases hnone
  · intro _ hholder
    exact absurd rfl (hholder c.turns.wire.sent)
  · rintro - n ⟨⟩
    exact ⟨request, next, hforeground,
      Or.inl ⟨List.mem_append_right _ (List.mem_singleton_self _), hmeets⟩⟩
  · intro n request' hmem hnot
    obtain ⟨rfl, rfl⟩ := hnew n request' hmem hnot
    exact ⟨hmeets.1, fun _ => rfl⟩
  · intro n n' request₁ request₂ hmem hmem' hnot hnot'
    rw [(hnew n request₁ hmem hnot).1, (hnew n' request₂ hmem' hnot').1]

/-- An error tells a member nothing. -/
theorem le_boundsAfter_error {request : Request} (h : Respects group k (.exchange request))
    (error : GaffaError) : k ≤ boundsAfter k (.exchange request) (.error error) := by
  cases request with
  | commitOffset groupId topic partition offset =>
    exact le_update_iff.2 ⟨h.2, fun key _ => le_rfl⟩
  | _ => exact le_rfl

theorem Keeps.sendFails (h : Keeps group k c) {error : GaffaError}
    (hstep : c.next overflowChecks (.sendFails error) = some c') : Keeps group k c' := by
  have hsound := sound_next h.sound hstep
  obtain ⟨⟨request, next⟩, hx, hstep⟩ := Option.bind_eq_some_iff.1 hstep
  obtain ⟨hbefore, hstep⟩ := Option.ite_none_right_eq_some.1 hstep
  cases hstep
  by_cases hclosed : c.closed = true
  · exact h.of_closed hsound hclosed (by rw [Turns.wire_giveUp])
  · have hopen := Bool.eq_false_iff.2 hclosed
    have hfree : ∀ n, c.turns.holder ≠ some (.foreground, some n) := by simp [hbefore]
    have hmeets := h.running hopen hfree _ (exchanging_eq_some hx)
    refine Keeps.foreground (fun n request => h.isHeartbeat hopen hfree) hsound
      (by rw [Turns.wire_giveUp]) ?_ (fun hnone => (by cases hnone)) ?_
    · intro n
      simp [Turns.giveUp, hbefore]
    · rintro d ⟨⟩
      have hexpects : Expects (.exchange request) (.error error) := by
        cases request <;> exact trivial
      exact (hmeets.2 (.error error) hexpects).anti Ahead.anti (le_boundsAfter_error hmeets.1 error)

theorem Keeps.read (h : Keeps group k c) (horphans : c.turns.orphans = 0)
    (hstep : c.next overflowChecks .read = some c') : Keeps group k c' := by
  have hsound := sound_next h.sound hstep
  obtain ⟨⟨request, next⟩, hx, hstep⟩ := Option.bind_eq_some_iff.1 hstep
  obtain ⟨⟨response, turns⟩, hturns, hstep⟩ := Option.bind_eq_some_iff.1 hstep
  obtain ⟨hclosed, hstep⟩ := Option.ite_none_left_eq_some.1 hstep
  cases hstep
  have hopen := Bool.eq_false_iff.2 hclosed
  have hown := (h.sound.answers_iff hturns).2 horphans
  obtain ⟨m, n, wire, hholder, hread, rfl⟩ := Turns.read_eq_some hturns
  obtain rfl : n = m := hown m n response wire hholder hread
  obtain ⟨hunread, hunanswered⟩ := Wire.read_eq_some hread
  have hmem : (n, response) ∈ c.turns.wire.unread := by
    rw [hunread]
    exact List.mem_cons_self ..
  obtain ⟨request', next', hforeground, hcase⟩ := h.waiting hopen n hholder
  cases (exchanging_eq_some hx).symm.trans hforeground
  -- the response that was read is the one that the operation waits for
  have hmeets : Meets (groupContract group) (Ahead group) k (next (.ok response)) := by
    rcases hcase with ⟨hwaits, -⟩ | ⟨response', hmem', hmeets⟩
    · exact absurd hwaits (h.sound.inOrder.not_unanswered hmem)
    · rw [h.sound.inOrder.unread_unique hmem hmem']
      exact hmeets
  refine Keeps.foreground ?_ hsound hunanswered (by simp) (fun hnone => (by cases hnone)) ?_
  · intro n' request' hmem'
    by_contra hnot
    have hn := (h.requests n' request' hmem' hnot).2 hopen
    rw [hholder] at hn
    cases hn
    exact h.sound.inOrder.not_unanswered hmem hmem'
  · rintro d ⟨⟩
    exact hmeets

theorem Keeps.readFails (h : Keeps group k c) {error : GaffaError}
    (hstep : c.next overflowChecks (.readFails error) = some c') : Keeps group k c' := by
  have hsound := sound_next h.sound hstep
  obtain ⟨x, hx, hstep⟩ := Option.bind_eq_some_iff.1 hstep
  obtain ⟨⟨-, hclosed⟩, hstep⟩ := Option.ite_none_right_eq_some.1 hstep
  cases hstep
  exact h.of_closed hsound hclosed (by rw [Turns.wire_giveUp])

theorem Keeps.endHeartbeat (h : Keeps group k c) (task : Nat) :
    Keeps group k (c.endHeartbeat task) := by
  refine h.others (h.sound.giveUp _) rfl rfl rfl (Turns.others_giveUp (by simp) _) ?_
  intro x hx
  rw [ConsumerState.endHeartbeat, Turns.wire_giveUp] at hx
  exact Or.inl hx

/-- **Every step of a member** but the broker's answer. -/
theorem Keeps.next (h : Keeps group k c) (hown : e = .read → c.turns.orphans = 0)
    (hrespond : ∀ response, e ≠ .respond response)
    (hstep : c.next overflowChecks e = some c') : Keeps group k c' := by
  have hsound := sound_next h.sound hstep
  have hne : ∀ task : Nat, Party.heartbeat task ≠ .foreground := fun _ => by simp
  cases e with
  | call operation => exact h.call hstep
  | effect => exact h.effect hstep
  | lock => exact h.lock hstep
  | send => exact h.send hstep
  | sendFails error => exact h.sendFails hstep
  | read => exact h.read (hown rfl) hstep
  | readFails error => exact h.readFails hstep
  | tick task =>
    obtain ⟨x, -, rfl⟩ := Option.map_eq_some_iff.1 hstep
    exact h.others hsound rfl rfl rfl (Turns.Others.refl _ _) fun x hx => Or.inl hx
  | lockHeartbeat task =>
    obtain ⟨x, -, hstep⟩ := Option.bind_eq_some_iff.1 hstep
    obtain ⟨turns, hturns, hstep⟩ := Option.bind_eq_some_iff.1 hstep
    cases hstep
    refine h.others hsound rfl rfl rfl (Turns.others_acquire (hne task) hturns) fun x hx => Or.inl ?_
    rw [← Turns.wire_acquire hturns]
    exact hx
  | sendHeartbeat task =>
    obtain ⟨x, -, hstep⟩ := Option.bind_eq_some_iff.1 hstep
    obtain ⟨turns, hturns, hstep⟩ := Option.bind_eq_some_iff.1 hstep
    obtain ⟨hopen, hstep⟩ := Option.ite_none_left_eq_some.1 hstep
    cases hstep
    refine h.others hsound rfl rfl rfl (Turns.others_send (hne task) hturns) fun y hy => ?_
    rw [Turns.unanswered_send hturns] at hy
    rcases List.mem_append.1 hy with hy | hy
    · exact Or.inl hy
    · rw [List.mem_singleton.1 hy]
      exact Or.inr ⟨x.groupId, x.memberId, rfl⟩
  | sendHeartbeatFails task =>
    obtain ⟨x, -, hstep⟩ := Option.bind_eq_some_iff.1 hstep
    obtain ⟨-, hstep⟩ := Option.ite_none_right_eq_some.1 hstep
    cases hstep
    exact h.endHeartbeat task
  | readHeartbeat task =>
    obtain ⟨x, -, hstep⟩ := Option.bind_eq_some_iff.1 hstep
    obtain ⟨y, hturns, hstep⟩ := Option.bind_eq_some_iff.1 hstep
    obtain ⟨hopen, hstep⟩ := Option.ite_none_left_eq_some.1 hstep
    cases hstep
    refine h.others hsound rfl rfl rfl (Turns.others_read (hne task) hturns) fun x hx => Or.inl ?_
    rw [← Turns.unanswered_read hturns]
    exact hx
  | readHeartbeatFails task =>
    obtain ⟨x, -, hstep⟩ := Option.bind_eq_some_iff.1 hstep
    obtain ⟨-, hstep⟩ := Option.ite_none_right_eq_some.1 hstep
    cases hstep
    exact h.endHeartbeat task
  | cancel task =>
    obtain ⟨x, -, hstep⟩ := Option.bind_eq_some_iff.1 hstep
    obtain ⟨-, hstep⟩ := Option.ite_none_right_eq_some.1 hstep
    cases hstep
    exact h.endHeartbeat task
  | respond response => exact absurd rfl (hrespond response)
  | close =>
    cases hstep
    exact h.of_closed hsound rfl rfl

theorem boundsAfter_heartbeat (k : Bounds) {request : Request} (h : request.IsHeartbeat)
    (reply : Reply) : boundsAfter k (.exchange request) reply = k := by
  obtain ⟨groupId, memberId, rfl⟩ := h
  rfl

/-- **An answer of the broker**: what the member has heard of afterwards is what the answer tells it. -/
theorem Keeps.respond (h : Keeps group k c) {n : Nat} {request : Request}
    {rest : List (Nat × Request)} {response : Response}
    (hhead : c.turns.wire.unanswered = (n, request) :: rest)
    (hexpects : Expects (.exchange request) (.ok response))
    (hk : k' ≤ boundsAfter k (.exchange request) (.ok response))
    (hstep : c.next overflowChecks (.respond response) = some c') : Keeps group k' c' := by
  have hsound := sound_next h.sound hstep
  obtain ⟨turns, hturns, rfl⟩ := Option.map_eq_some_iff.1 hstep
  obtain ⟨wire, hwire, rfl⟩ := Option.map_eq_some_iff.1 hturns
  obtain ⟨n₀, request₀, hhead', hunread⟩ := Wire.answer_eq_some hwire
  rw [hhead] at hhead'
  cases hhead'
  have hin : (n, request) ∈ c.turns.wire.unanswered := by
    rw [hhead]
    exact List.mem_cons_self ..
  have hold : ∀ x ∈ wire.unanswered, x ∈ c.turns.wire.unanswered := by
    intro x hx
    rw [hhead]
    exact List.mem_cons_of_mem _ hx
  have hlt : ∀ x ∈ wire.unanswered, n < x.1 := by
    intro x hx
    have hsorted := (List.pairwise_append.1 h.sound.inOrder.sorted).2.1
    rw [hhead, List.map_cons, List.pairwise_cons] at hsorted
    exact hsorted.1 x.1 (List.mem_map_of_mem hx)
  -- a heartbeat, or the request of the operation in progress
  have hless : request.IsHeartbeat → k' ≤ k := by
    intro hbeat
    rwa [boundsAfter_heartbeat k hbeat] at hk
  have hbeat : c.closed = false → (∀ m, c.turns.holder = some (.foreground, some m) → m ≠ n) →
      request.IsHeartbeat := by
    intro hopen hne
    by_contra hnot
    exact hne n ((h.requests n request hin hnot).2 hopen) rfl
  constructor
  · exact hsound
  · intro hopen hnone
    have hfree : ∀ m, c.turns.holder ≠ some (.foreground, some m) := h.not_waiting hopen (by
      rw [ConsumerState.exchanging]
      simp only at hnone
      rw [hnone])
    exact (h.idle hopen hnone).anti (hless (hbeat hopen fun m hm => absurd hm (hfree m)))
  · intro hopen hfree d hd
    have hk' := hless (hbeat hopen fun m hm => absurd hm (hfree m))
    exact (h.running hopen hfree d hd).anti Ahead.anti hk'
  · intro hopen m hholder
    obtain ⟨request', next, hforeground, hcase⟩ := h.waiting hopen m hholder
    refine ⟨request', next, hforeground, ?_⟩
    have hother : m ≠ n → k' ≤ k := by
      intro hne
      refine hless (hbeat hopen fun m' hm' => ?_)
      rw [hholder] at hm'
      cases hm'
      exact hne
    rcases hcase with ⟨hmem, hmeets⟩ | ⟨response', hmem, hmeets⟩
    · by_cases hm : m = n
      · subst hm
        obtain rfl := h.sound.inOrder.unanswered_unique hin hmem
        refine Or.inr ⟨response, ?_, (hmeets.2 (.ok response) hexpects).anti Ahead.anti hk⟩
        rw [hunread]
        exact List.mem_append_right _ (List.mem_singleton_self _)
      · refine Or.inl ⟨?_, hmeets.anti Ahead.anti (hother hm)⟩
        rw [hhead] at hmem
        rcases List.mem_cons.1 hmem with heq | hmem
        · cases heq
          exact absurd rfl hm
        · exact hmem
    · refine Or.inr ⟨response', ?_, hmeets.anti Ahead.anti (hother ?_)⟩
      · rw [hunread]
        exact List.mem_append_left _ hmem
      · rintro rfl
        exact h.sound.inOrder.not_unanswered hmem hin
  · intro m request' hmem hnot
    obtain ⟨hrespects, hholder⟩ := h.requests m request' (hold _ hmem) hnot
    refine ⟨(groupContract group).respects_anti (hless ?_) hrespects, hholder⟩
    by_contra hrequest
    have heq := h.one n m request request' hin (hold _ hmem) hrequest hnot
    exact absurd (hlt _ hmem) (by simp [heq])
  · intro m m' request₁ request₂ hmem hmem'
    exact h.one m m' request₁ request₂ (hold _ hmem) (hold _ hmem')

end Member

/-! ## Runs -/

section System

variable {s t : GroupSystem ι} {e : GroupEvent ι} {i j : ι} {io : ServeIo} {b : GroupBroker}
  {request : Request} {response : Response}

/-- The storage may hold anything: a fetch does not go back. -/
theorem expects_process (h : (b.process K overflowChecks io request).1 = some response) :
    Expects (.exchange request) (.ok response) := by
  cases request with
  | fetch topic partition offset maxMessages =>
    cases response with
    | fetchSuccess topic' partition' records =>
      simp only [GroupBroker.process, processFetch] at h
      split at h
      · cases h
      · unfold Task.read at h
        split at h
        · cases h
        · split at h
          · cases h
          · unfold respond at h
            split at h
            · rename_i records' hfetch
              cases h
              exact fetch_from hfetch
            · cases h
            · cases h
    | _ => exact trivial
  | _ => exact trivial

theorem offsets_process (h : ∀ groupId topic partition offset,
    request ≠ .commitOffset groupId topic partition offset) :
    (b.process K overflowChecks io request).2.offsetManager = b.offsetManager := by
  cases request with
  | commitOffset groupId topic partition offset => exact absurd rfl (h _ _ _ _)
  | _ => rfl

theorem stored_commit (b : GroupBroker) (topic : String) (partition offset : Nat)
    (key : TopicPartition) :
    (b.process K overflowChecks io (.commitOffset group topic partition offset)).2.stored group key =
      if key = (topic, partition) then some offset else b.stored group key := by
  have hkey : (⟨group, key.1, key.2⟩ : OffsetKey) = ⟨group, topic, partition⟩ ↔
      key = (topic, partition) := by
    rw [OffsetKey.mk.injEq, Prod.ext_iff]
    exact and_iff_right rfl
  simp only [GroupBroker.stored, GroupBroker.process, processCommitOffset,
    OffsetManager.insertOffset, Table.get_insert, hkey]

/-- **What a request tells its member**, and what it takes from the others. -/
theorem bounds_process (hrespects : Respects group (s.bounds group i) (.exchange request))
    (hresponse : (s.broker.process K overflowChecks io request).1 = some response)
    (hbroker : t.broker = (s.broker.process K overflowChecks io request).2)
    (hheard : t.heard = heardAfter i s.heard request) :
    t.bounds group i ≤ boundsAfter (s.bounds group i) (.exchange request) (.ok response) ∧
      ∀ j, j ≠ i → t.bounds group j ≤ s.bounds group j := by
  have hsame : (∀ groupId topic partition offset,
      request ≠ .commitOffset groupId topic partition offset) → ∀ j key,
      t.heard j key = s.heard j key → t.bounds group j key = s.bounds group j key := by
    intro hne j key hkey
    simp only [GroupSystem.bounds, GroupBroker.stored, hbroker, offsets_process hne, hkey]
  cases request with
  | commitOffset groupId topic partition offset =>
    obtain rfl : groupId = group := hrespects.1
    have hother : ∀ j key, key ≠ (topic, partition) →
        t.bounds groupId j key = s.bounds groupId j key := by
      intro j key hkey
      simp only [GroupSystem.bounds, hbroker, hheard, stored_commit, heardAfter, if_neg hkey]
    constructor
    · intro key
      by_cases hkey : key = (topic, partition)
      · rw [boundsAfter_commit, hkey, Function.update_self]
        simp [GroupSystem.bounds, hbroker, hheard, stored_commit, heardAfter]
      · rw [boundsAfter_commit, Function.update_of_ne hkey, hother i key hkey]
    · intro j hj key
      by_cases hkey : key = (topic, partition)
      · rw [GroupSystem.bounds, if_neg]
        · exact bot_le
        · simp [hheard, heardAfter, hkey, hj]
      · rw [hother j key hkey]
  | fetchOffset groupId topic partition =>
    obtain rfl : groupId = group := hrespects
    cases hresponse
    constructor
    · intro key
      by_cases hkey : key = (topic, partition)
      · rw [processFetchOffset, boundsAfter, hkey, Function.update_self, GroupSystem.bounds,
          if_pos (by simp [hheard, heardAfter]), hbroker]
        change ((s.broker.stored groupId (topic, partition)).elim ⊥ fun offset => (offset : WithBot Nat))
          ≤ (((s.broker.stored groupId (topic, partition)).getD 0 : Nat) : WithBot Nat)
        cases s.broker.stored groupId (topic, partition) with
        | none => exact bot_le
        | some offset => exact le_rfl
      · rw [processFetchOffset, boundsAfter, Function.update_of_ne hkey]
        exact le_of_eq (hsame (by simp) i key (by simp [hheard, heardAfter, hkey]))
    · intro j hj key
      exact le_of_eq (hsame (by simp) j key (by simp [hheard, heardAfter, hj]))
  | _ =>
    exact ⟨fun key => le_of_eq (hsame (by simp) i key (by rw [hheard]; rfl)),
      fun j _ key => le_of_eq (hsame (by simp) j key (by rw [hheard]; rfl))⟩

/-- What an event of the system is. -/
theorem next_serve (h : s.next K overflowChecks (.serve i io) = some t) :
    ∃ n request rest response c, (s.consumers i).turns.wire.unanswered = (n, request) :: rest ∧
      s.request i = some request ∧
      (s.broker.process K overflowChecks io request).1 = some response ∧
      (s.consumers i).next overflowChecks (.respond response) = some c ∧
      t.broker = (s.broker.process K overflowChecks io request).2 ∧
      t.consumers = Function.update s.consumers i c ∧ t.heard = heardAfter i s.heard request := by
  obtain ⟨request, hrequest, h⟩ := Option.bind_eq_some_iff.1 h
  obtain ⟨-, h⟩ := Option.ite_none_right_eq_some.1 h
  obtain ⟨response, hresponse, h⟩ := Option.bind_eq_some_iff.1 h
  obtain ⟨c, hc, h⟩ := Option.bind_eq_some_iff.1 h
  cases h
  obtain ⟨⟨n, request'⟩, hhead, heq⟩ := Option.map_eq_some_iff.1 hrequest
  obtain ⟨rest, hrest⟩ := List.head?_eq_some_iff.1 hhead
  cases heq
  exact ⟨n, request', rest, response, c, hrest, hrequest, hresponse, hc, rfl, rfl, rfl⟩

theorem next_consumer {e : ConsumerEvent} (h : s.next K overflowChecks (.consumer i e) = some t) :
    (∀ response, e ≠ .respond response) ∧ ∃ c, (s.consumers i).next overflowChecks e = some c ∧
      t = { s with consumers := Function.update s.consumers i c } := by
  unfold GroupSystem.next at h
  split at h
  · cases h
  · rename_i i' e' hne heq
    cases heq
    obtain ⟨c, hc, rfl⟩ := Option.map_eq_some_iff.1 h
    exact ⟨fun response he => hne response he, c, hc, rfl⟩
  · rename_i heq
    cases heq
  · rename_i heq
    cases heq

/-- Every member keeps to the committed offsets that it has heard of. -/
def EveryoneKeeps (group : String) (s : GroupSystem ι) : Prop :=
  ∀ i, Keeps group (s.bounds group i) (s.consumers i)

omit [DecidableEq ι] in
/-- The request that the broker processes respects what its member has heard of. -/
theorem EveryoneKeeps.respects (h : EveryoneKeeps group s) {n : Nat}
    (hmem : (n, request) ∈ (s.consumers i).turns.wire.unanswered) :
    Respects group (s.bounds group i) (.exchange request) := by
  by_cases hbeat : request.IsHeartbeat
  · obtain ⟨groupId, memberId, rfl⟩ := hbeat
    exact trivial
  · exact ((h i).requests n request hmem hbeat).1

/-- **Every event** keeps that. -/
theorem EveryoneKeeps.next (h : EveryoneKeeps group s)
    (hstep : s.next K overflowChecks e = some t) (hown : OwnResponses s e t) :
    EveryoneKeeps group t := by
  cases e with
  | consumer i e =>
    obtain ⟨hrespond, c, hc, rfl⟩ := next_consumer hstep
    intro j
    change Keeps group (s.bounds group j) (Function.update s.consumers i c j)
    by_cases hj : j = i
    · subst hj
      rw [Function.update_self]
      exact (h j).next (fun he => hown j (by rw [he])) hrespond hc
    · rw [Function.update_of_ne hj]
      exact h j
  | serve i io =>
    obtain ⟨n, request, rest, response, c, hhead, -, hresponse, hc, hbroker, hconsumers, hheard⟩ :=
      next_serve hstep
    have hmem : (n, request) ∈ (s.consumers i).turns.wire.unanswered := by
      rw [hhead]
      exact List.mem_cons_self ..
    obtain ⟨htold, hothers⟩ := bounds_process (h.respects hmem) hresponse hbroker hheard
    intro j
    rw [hconsumers]
    by_cases hj : j = i
    · subst hj
      rw [Function.update_self]
      exact (h j).respond hhead (expects_process hresponse) htold hc
    · rw [Function.update_of_ne hj]
      exact (h j).anti (hothers j hj)
  | coordinate call =>
    obtain ⟨-, hstep⟩ := Option.ite_none_right_eq_some.1 hstep
    cases hstep
    exact h

omit [DecidableEq ι] in
theorem neverFalls_of_eq
    (h : t.broker.offsetManager.offsets = s.broker.offsetManager.offsets) : NeverFalls s e t := by
  intro key offset hget
  exact ⟨offset, h ▸ hget, Nat.le_refl _⟩

/-- **A commit of a member that has heard** of the committed offset does not decrease it. -/
theorem EveryoneKeeps.neverFalls (h : EveryoneKeeps group s)
    (hstep : s.next K overflowChecks e = some t) (hheard : HeardCommits group s e t) :
    NeverFalls s e t := by
  cases e with
  | consumer i e =>
    obtain ⟨-, c, -, rfl⟩ := next_consumer hstep
    exact neverFalls_of_eq rfl
  | coordinate call =>
    obtain ⟨-, hstep⟩ := Option.ite_none_right_eq_some.1 hstep
    cases hstep
    exact neverFalls_of_eq rfl
  | serve i io =>
    obtain ⟨n, request, rest, response, c, hhead, hrequest, -, -, hbroker, -, -⟩ := next_serve hstep
    by_cases hcommit : ∃ groupId topic partition offset,
        request = .commitOffset groupId topic partition offset
    · obtain ⟨groupId, topic, partition, offset, rfl⟩ := hcommit
      obtain ⟨rfl, hle⟩ := h.respects (i := i) (by rw [hhead]; exact List.mem_cons_self ..)
      intro key old hold
      have hnew : t.broker.offsetManager.offsets.get key =
          if key = ⟨groupId, topic, partition⟩ then some offset
          else s.broker.offsetManager.offsets.get key := by
        rw [hbroker]
        exact Table.get_insert ..
      rw [hnew]
      split
      · rename_i hkey
        subst hkey
        refine ⟨offset, rfl, ?_⟩
        rcases hheard i io groupId topic partition offset rfl hrequest with hnone | htrue
        · cases hold.symm.trans hnone
        · rw [GroupSystem.bounds, if_pos htrue] at hle
          change (s.broker.stored groupId (topic, partition)).elim ⊥ _ ≤ _ at hle
          rw [show s.broker.stored groupId (topic, partition) = some old from hold] at hle
          exact WithBot.coe_le_coe.1 hle
      · exact ⟨old, hold, Nat.le_refl _⟩
    · apply neverFalls_of_eq
      rw [hbroker, offsets_process]
      rintro groupId topic partition offset rfl
      exact hcommit ⟨groupId, topic, partition, offset, rfl⟩

end System

omit [DecidableEq ι] in
theorem everyoneKeeps_new (group : String) (autoCommit : ι → Bool) (broker : GroupBroker) :
    EveryoneKeeps group (GroupSystem.new group autoCommit broker) :=
  fun i => keeps_new group _ (fun _ => rfl) (autoCommit i)

/-- **Committed offsets never decrease** on runs in which every commit of a partition that has a
committed offset comes from a member that has heard of it since anybody else committed the partition,
and no operation reads a response after a heartbeat was cancelled in flight: for any number of
members, whatever they call and however their steps, their requests and the broker are interleaved. -/
theorem commits_never_decrease (group : String) (autoCommit : ι → Bool) (broker : GroupBroker)
    {tr : List (GroupEvent ι × GroupSystem ι)}
    (hrun : Run (Steps (GroupSystem.next K overflowChecks))
      (GroupSystem.new group autoCommit broker) tr)
    (hheard : EachStep (HeardCommits group) (GroupSystem.new group autoCommit broker) tr)
    (hown : EachStep OwnResponses (GroupSystem.new group autoCommit broker) tr) :
    EachStep NeverFalls (GroupSystem.new group autoCommit broker) tr :=
  eachStep_of_invariant (I := EveryoneKeeps group)
    (fun _ _ _ h hstep hcond => h.next hstep hcond.2)
    (fun _ _ _ h hstep hcond => h.neverFalls hstep hcond.1)
    (everyoneKeeps_new group autoCommit broker) hrun (hheard.and hown)

/-! ## Two members -/

/-- The partition that a request commits. -/
def Request.commits : Request → Option TopicPartition
  | .commitOffset _ topic partition _ => some (topic, partition)
  | _ => none

theorem commits_eq_some {request : Request} {topic : String} {partition : Nat} :
    request.commits = some (topic, partition) ↔
      ∃ groupId offset, request = .commitOffset groupId topic partition offset := by
  cases request <;> simp [Request.commits]

instance decidableHeardCommits (group : String) (s : GroupSystem ι) :
    ∀ (e : GroupEvent ι) (t : GroupSystem ι), Decidable (HeardCommits group s e t)
  | .serve i io, t =>
    decidable_of_iff (∀ request ∈ s.request i, ∀ key ∈ request.commits,
        s.broker.stored group key = none ∨ s.heard i key = true) (by
      constructor
      · rintro h i' io' groupId topic partition offset he hrequest
        cases he
        exact h _ hrequest (topic, partition) (commits_eq_some.2 ⟨groupId, offset, rfl⟩)
      · rintro h request hrequest ⟨topic, partition⟩ hkey
        obtain ⟨groupId, offset, rfl⟩ := commits_eq_some.1 hkey
        exact h i io groupId topic partition offset rfl hrequest)
  | .consumer .., _ => isTrue fun _ _ _ _ _ _ he => nomatch he
  | .coordinate .., _ => isTrue fun _ _ _ _ _ _ he => nomatch he

instance decidableOwnResponses (s : GroupSystem ι) :
    ∀ (e : GroupEvent ι) (t : GroupSystem ι), Decidable (OwnResponses s e t)
  | .consumer i e, t =>
    decidable_of_iff (e = .read → (s.consumers i).turns.orphans = 0) (by
      constructor
      · rintro h j he
        cases he
        exact h rfl
      · rintro h rfl
        exact h i rfl)
  | .serve .., _ => isTrue fun _ he => nomatch he
  | .coordinate .., _ => isTrue fun _ he => nomatch he

instance decidableNeverFalls (s : GroupSystem ι) (e : GroupEvent ι) (t : GroupSystem ι) :
    Decidable (NeverFalls s e t) :=
  decidable_of_iff (∀ key ∈ s.broker.offsetManager.offsets.keys,
    ∀ offset ∈ s.broker.offsetManager.offsets.get key,
      ∃ offset' ∈ t.broker.offsetManager.offsets.get key, offset ≤ offset') (by
    constructor
    · intro h key offset hget
      exact h key (Table.mem_keys_iff.2 ⟨offset, hget⟩) offset hget
    · intro h key _ offset hget
      exact h key offset hget)

/-- A topic with one partition that has two messages. -/
def twoMessages : TopicManager :=
  let tm := (TopicManager.new.createTopic plainDir (fun _ => .done) "orders" 1).2
  match tm.objects.get 0 with
  | some o => (tm.appendTo plainCrates .done [⟨none, [7], 0⟩, ⟨none, [8], 0⟩] 0 o).2
  | none => tm

/-- A request and its response, with the fresh identifier and the order of a rebalance. -/
def exchanged (i : Bool) (uuid : String) (order : IterationOrder) : List (GroupEvent Bool) :=
  [.consumer i .lock, .consumer i .send,
    .serve i ⟨0, uuid, order, .ok (), twoMessages.getTopic "orders",
      ⟨twoMessages, ClusterMetadata.new 0 30000 10, 1⟩⟩,
    .consumer i .read]

/-- A member joins and is assigned the partition. -/
def joins (i : Bool) (uuid : String) (members : List String) : List (GroupEvent Bool) :=
  .consumer i (.call (.joinGroup ["orders"])) :: exchanged i uuid ⟨["orders"], members⟩ ++
    exchanged i "" ⟨[], []⟩ ++ [.consumer i .effect, .consumer i .effect]

/-- A member polls one record and commits. -/
def pollsAndCommits (i : Bool) : List (GroupEvent Bool) :=
  .consumer i (.call (.pollGroup 1 [("orders", 0)])) :: exchanged i "" ⟨[], []⟩ ++
    exchanged i "" ⟨[], []⟩ ++ [.consumer i .effect]

/-- A member leaves. -/
def leaves (i : Bool) : List (GroupEvent Bool) :=
  [.consumer i (.call .leaveGroup), .consumer i .effect] ++ exchanged i "" ⟨[], []⟩ ++
    [.consumer i .effect]

/-- Two consumers with auto-commit, and a broker without committed offsets. -/
def twoMembers : GroupSystem Bool :=
  .new "g" (fun _ => true) ⟨OffsetManager.new [], GroupCoordinator.new 30⟩

/-- The first member leaves before the second one joins. -/
def handedOver : List (GroupEvent Bool) :=
  .coordinate (.updateTopicPartitions "orders" 1) :: joins false "1f0c" ["g-1f0c"] ++
    pollsAndCommits false ++ leaves false ++ joins true "77aa" ["g-77aa"] ++ pollsAndCommits true

theorem commits_never_decrease_handed_over :
    ∃ tr, trace (GroupSystem.next plainCrates true) twoMembers handedOver = some tr ∧
      EachStep NeverFalls twoMembers tr := by
  obtain ⟨tr, htr⟩ := Option.isSome_iff_exists.1 (show (trace
    (GroupSystem.next plainCrates true) twoMembers handedOver).isSome = true by decide +kernel)
  have hsteps : ∀ tr ∈ trace (GroupSystem.next plainCrates true) twoMembers handedOver,
      EachStep (HeardCommits "g") twoMembers tr ∧ EachStep OwnResponses twoMembers tr := by
    decide +kernel
  obtain ⟨hheard, hown⟩ := hsteps tr htr
  exact ⟨tr, htr, commits_never_decrease "g" (fun _ => true)
    ⟨OffsetManager.new [], GroupCoordinator.new 30⟩ (run_of_trace htr) hheard hown⟩

/-- The second member takes the partition over, and the first one commits its offset again. -/
def takenOver : List (GroupEvent Bool) :=
  .coordinate (.updateTopicPartitions "orders" 1) :: joins false "1f0c" ["g-1f0c"] ++
    pollsAndCommits false ++ joins true "77aa" ["g-77aa", "g-1f0c"] ++ pollsAndCommits true ++
    .consumer false (.call (.commitOffsets [("orders", 0)])) :: exchanged false "" ⟨[], []⟩

/-- The committed offset goes from 2 back to 1. -/
theorem stale_commit_decreases :
    ∃ tr, trace (GroupSystem.next plainCrates true) twoMembers takenOver = some tr ∧
      EachStep OwnResponses twoMembers tr ∧ ¬ EachStep NeverFalls twoMembers tr ∧
      (last twoMembers tr).broker.stored "g" ("orders", 0) = some 1 := by
  obtain ⟨tr, htr⟩ := Option.isSome_iff_exists.1 (show (trace
    (GroupSystem.next plainCrates true) twoMembers takenOver).isSome = true by decide +kernel)
  have hsteps : ∀ tr ∈ trace (GroupSystem.next plainCrates true) twoMembers takenOver,
      EachStep OwnResponses twoMembers tr ∧ ¬ EachStep NeverFalls twoMembers tr ∧
      (last twoMembers tr).broker.stored "g" ("orders", 0) = some 1 := by
    decide +kernel
  exact ⟨tr, htr, hsteps tr htr⟩

end Gaffa
