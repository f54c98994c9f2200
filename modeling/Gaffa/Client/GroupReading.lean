import Gaffa.Client.Commits
import Gaffa.Client.GroupMember
import Mathlib.Order.UpperLower.Basic

/-!
# What a group reads

Any number of consumers of one group, and the server with its topics, its coordinator and its offset
manager.  Members join, leave, poll and commit as they like, on connections that they share with their
heartbeat tasks and that may fail, and other clients create topics and produce meanwhile.

* `nothing_passed_over`: the members read each partition from the committed offset on without a gap,
  all that was acknowledged there, and never commit more than they have read, as long as no heartbeat is
  cut off between its request and its response.
-/

set_option autoImplicit false

namespace Gaffa

open Transition Dialogue

variable {K : Crates} {dirOf : String → Nat → Path} {overflowChecks : Bool} {names : Set String}
  {group : String} {P : PartitionKey → Message → Prop}

/-! ## The system -/

/-- The request commits an offset of the group. -/
def Request.commitsIn (group : String) : Request → Bool
  | .commitOffset groupId _ _ _ => groupId = group
  | _ => false

/-- The server, its offset manager and its coordinator, the members by their connections, the
connections that the server has left after a panic, and the records that the members have read. -/
structure GroupReading where
  observed : Observed
  broker : GroupBroker
  members : Nat → Option ConsumerState
  left : List Nat
  read : List Record

/-- A step of the server's tasks; of a member, of its heartbeat tasks or of its connection; the
processing of a member's request to the coordinator or the offset manager; a request of somebody else;
and what the server does with the coordinator on its own. -/
inductive ReadingEvent where
  | server (e : ServerEvent)
  | member (i : Nat) (e : ConsumerEvent)
  | serve (i : Nat) (io : ServeIo)
  | other (io : ServeIo) (request : Request)
  | coordinate (call : GroupCall)

namespace GroupReading

/-- Consumers that have just connected to a server, which may have committed offsets. -/
def new (observed : Observed) (broker : GroupBroker) (group : String)
    (autoCommit : Nat → Option Bool) : GroupReading :=
  ⟨observed, broker, fun i => (autoCommit i).map (ConsumerState.new (some group)), [], []⟩

/-- What the server receives on a member's connection is the oldest request there. -/
def Permits (s : GroupReading) : ServerEvent → Prop
  | .receive id request => ∀ m ∈ s.members id, id ∉ s.left ∧ m.oldest = some request
  | _ => True

instance decidablePermits (s : GroupReading) : ∀ e, Decidable (s.Permits e)
  | .receive .. => inferInstanceAs (Decidable (∀ m ∈ _, _))
  | .advance .. => isTrue trivial
  | .registerBroker .. => isTrue trivial
  | .updateReplicaOffset .. => isTrue trivial

/-- A request of a connection has been processed: its response is sent, or the task has panicked. -/
def respond (overflowChecks : Bool) (i : Nat) (response : Option Response) (s : GroupReading) :
    GroupReading :=
  match response with
  | none => { s with left := i :: s.left }
  | some r =>
    match (s.members i).bind fun m => m.next overflowChecks (.respond r) with
    | none => s
    | some m => { s with members := Function.update s.members i (some m) }

/-- The connections after a step of the server's tasks, by which one of them may have ended. -/
def hear (overflowChecks : Bool) (response : Option Response) (s : GroupReading) :
    ServerEvent → GroupReading
  | .advance id _ =>
    if s.observed.state.tasks.get id = none then s.respond overflowChecks id response else s
  | _ => s

/-- The oldest request of a member, if it is not for the tasks of the server. -/
def asks (s : GroupReading) (i : Nat) (io : ServeIo) : Option Request := do
  let m ← s.members i
  let request ← m.oldest
  if i ∉ s.left ∧ start request = none ∧
      ∀ call ∈ io.groupCall request, call.Iterates s.broker.coordinator then some request
  else none

/-- The steps of the system. -/
def next (K : Crates) (dirOf : String → Nat → Path) (overflowChecks : Bool) (group : String)
    (s : GroupReading) : ReadingEvent → Option GroupReading
  | .server e =>
    if s.Permits e then
      (Observed.next K dirOf overflowChecks s.observed e).map fun t =>
        { s with observed := t }.hear overflowChecks
          (answer K dirOf overflowChecks s.observed.state e) e
    else none
  | .member i e => do
    let m ← s.members i
    let m' ← m.next overflowChecks e
    if e.own then some { s with
      members := Function.update s.members i (some m')
      read := s.read ++ m.taken e }
    else none
  | .serve i io => do
    let request ← s.asks i io
    let r := s.broker.process K overflowChecks io request
    return { s with broker := r.2 }.respond overflowChecks i r.1
  | .other io request =>
    if request.commitsIn group = false ∧
        ∀ call ∈ io.groupCall request, call.Iterates s.broker.coordinator then
      some { s with broker := (s.broker.process K overflowChecks io request).2 }
    else none
  | .coordinate call =>
    if call.Iterates s.broker.coordinator then
      some { s with broker := { s.broker with
        coordinator := (call.perform overflowChecks s.broker.coordinator).2 } }
    else none

/-- The offsets of a partition that were committed before, or that members have read. -/
def readSet (base : TopicPartition → Nat) (s : GroupReading) (key : TopicPartition) : Set Nat :=
  {offset | offset < base key ∨ ∃ r ∈ s.read, (r.topic, r.partition) = key ∧ r.offset = offset}

/-- The offsets that nobody has read. -/
def unread (base : TopicPartition → Nat) (s : GroupReading) : Unread := fun key =>
  (s.readSet base key)ᶜ

end GroupReading

/-! ## What has been read -/

section Reading

variable {base : TopicPartition → Nat} {s t : GroupReading} {key : TopicPartition} {records : List Record}

/-- The records of one fetch are the offsets from its offset on. -/
theorem readSet_append (base : TopicPartition → Nat) {topic : String} {partition offset : Nat}
    (hfollows : Follows topic partition offset records) (hread : t.read = s.read ++ records)
    (key : TopicPartition) : t.readSet base key =
      if key = (topic, partition) then
        s.readSet base key ∪ Set.Ico offset (offset + records.length)
      else s.readSet base key := by
  have hnew : ∀ o, (∃ r ∈ records, (r.topic, r.partition) = key ∧ r.offset = o) ↔
      key = (topic, partition) ∧ o ∈ Set.Ico offset (offset + records.length) := by
    rw [follows_iff] at hfollows
    intro o
    constructor
    · rintro ⟨r, hr, rfl, rfl⟩
      obtain ⟨i, hget⟩ := List.mem_iff_getElem?.1 hr
      obtain ⟨htopic, hpartition, hoffset, -⟩ := hfollows i r hget
      have hlt := (List.getElem?_eq_some_iff.1 hget).1
      rw [htopic, hpartition, hoffset, Set.mem_Ico]
      exact ⟨rfl, Nat.le_add_right _ _, Nat.add_lt_add_left hlt _⟩
    · rintro ⟨rfl, hle, hend⟩
      have hlt : o - offset < records.length := by omega
      have hget : records[o - offset]? = some records[o - offset] := List.getElem?_eq_getElem hlt
      obtain ⟨htopic, hpartition, hoffset, -⟩ := hfollows _ _ hget
      exact ⟨_, List.mem_of_getElem? hget, by rw [htopic, hpartition], by omega⟩
  ext o
  have hold := hnew o
  simp only [GroupReading.readSet, hread, Set.mem_ofPred_eq, List.mem_append, or_and_right, exists_or,
    hold]
  split
  · rename_i hkey
    simp only [hkey, true_and, Set.mem_union, Set.mem_ofPred_eq, or_assoc]
  · rename_i hkey
    simp only [hkey, false_and, or_false, Set.mem_ofPred_eq]

theorem readSet_congr (hread : t.read = s.read) : t.readSet base = s.readSet base := by
  unfold GroupReading.readSet
  rw [hread]

theorem unread_congr (hread : t.read = s.read) : t.unread base = s.unread base := by
  unfold GroupReading.unread
  rw [readSet_congr hread]

/-- Nothing unread is below an offset if all offsets below it have been read. -/
theorem unread_subset_Ici {n : Nat} :
    s.unread base key ⊆ Set.Ici n ↔ Set.Iio n ⊆ s.readSet base key := by
  unfold GroupReading.unread
  rw [Set.compl_subset_comm, Set.compl_Ici]

/-- There are always offsets that nobody has read. -/
theorem readSet_finite (base : TopicPartition → Nat) (s : GroupReading) (key : TopicPartition) :
    (s.readSet base key).Finite := by
  refine ((Set.finite_Iio (base key)).union
    (s.read.map Record.offset).finite_toSet).subset ?_
  rintro o (hlt | ⟨r, hr, -, rfl⟩)
  · exact Or.inl hlt
  · exact Or.inr (List.mem_map_of_mem hr)

/-- What has been read without gaps ends somewhere. -/
theorem exists_readSet_eq (hlower : IsLowerSet (s.readSet base key)) :
    ∃ m, s.readSet base key = Set.Iio m := by
  refine hlower.eq_univ_or_Iio.resolve_left fun huniv => ?_
  have hfinite := readSet_finite base s key
  rw [huniv] at hfinite
  exact Set.infinite_univ hfinite

end Reading

/-! ## Runs -/

/-- The record is in the log of its partition. -/
def Logged (K : Crates) (state : ServerState) (r : Record) : Prop :=
  ∃ log, HoldsAt K state (r.topic, r.partition) log ∧ log[r.offset]? = some r.message

/-- What all steps keep: each member leaves nothing unread behind, each partition has been read without
gaps and nothing beyond is committed, and what has been read is in the logs. -/
structure NoGaps (K : Crates) (dirOf : String → Nat → Path) (names : Set String) (group : String)
    (P : PartitionKey → Message → Prop) (base : TopicPartition → Nat) (s : GroupReading) : Prop where
  orderly : Orderly K dirOf names P s.observed
  members : ∀ i m, s.members i = some m →
    InHand group (Logged K s.observed.state) (s.unread base) s.observed.state.tasks i m
  lower : ∀ key, IsLowerSet (s.readSet base key)
  committed : ∀ key n, s.broker.stored group key = some n → Set.Iio n ⊆ s.readSet base key
  logged : ∀ r ∈ s.read, Logged K s.observed.state r

section Step

variable {base : TopicPartition → Nat} {s t : GroupReading} {i : Nat} {io : ServeIo} {k : Unread}
  {logged : Record → Prop} {m m' : ConsumerState} {request : Request} {response : Response}

theorem asks_eq_some (h : s.asks i io = some request) :
    ∃ m, s.members i = some m ∧ m.oldest = some request ∧ start request = none := by
  obtain ⟨m, hm, h⟩ := Option.bind_eq_some_iff.1 h
  obtain ⟨request', hold, h⟩ := Option.bind_eq_some_iff.1 h
  obtain ⟨⟨-, hstart, -⟩, h⟩ := Option.ite_none_right_eq_some.1 h
  cases h
  exact ⟨m, hm, hold, hstart⟩

/-- One of the members changes. -/
theorem forall_update_member {members : Nat → Option ConsumerState} {p : Nat → ConsumerState → Prop}
    (h : ∀ j m, members j = some m → p j m) (hthis : p i m') :
    ∀ j m, Function.update members i (some m') j = some m → p j m := by
  intro j m hm
  by_cases hj : j = i
  · subst hj
    rw [Function.update_self] at hm
    cases hm
    exact hthis
  · rw [Function.update_of_ne hj] at hm
    exact h j m hm

/-- What a processed request means for the members: one of them is sent a response, or none. -/
theorem respond_cases (overflowChecks : Bool) (i : Nat) (answered : Option Response)
    (s : GroupReading) : (∃ left, s.respond overflowChecks i answered = { s with left := left }) ∨
      ∃ m m' r, s.members i = some m ∧ answered = some r ∧
        m.next overflowChecks (.respond r) = some m' ∧ s.respond overflowChecks i answered =
          { s with members := Function.update s.members i (some m') } := by
  unfold GroupReading.respond
  split
  · exact Or.inl ⟨_, rfl⟩
  · rename_i r
    split
    · exact Or.inl ⟨s.left, rfl⟩
    · rename_i m' hsent
      obtain ⟨m, hm, hsent⟩ := Option.bind_eq_some_iff.1 hsent
      exact Or.inr ⟨m, m', r, hm, rfl, hsent, rfl⟩

/-- **A request has been processed**: the member that is sent the response goes on as the others do. -/
theorem NoGaps.respond (h : NoGaps K dirOf names group P base s) (overflowChecks : Bool) (i : Nat)
    (answered : Option Response)
    (hsent : ∀ m m' r, s.members i = some m → answered = some r →
      m.next overflowChecks (.respond r) = some m' →
      InHand group (Logged K s.observed.state) (s.unread base) s.observed.state.tasks i m') :
    NoGaps K dirOf names group P base (s.respond overflowChecks i answered) := by
  rcases respond_cases overflowChecks i answered s with ⟨left, heq⟩ | ⟨m, m', r, hm, hr, hnext, heq⟩
  · rw [heq]
    exact ⟨h.orderly, h.members, h.lower, h.committed, h.logged⟩
  · rw [heq]
    exact ⟨h.orderly, forall_update_member h.members (hsent m m' r hm hr hnext), h.lower,
      h.committed, h.logged⟩

/-- **The broker processes a request** that commits nothing unread. -/
theorem NoGaps.processed (h : NoGaps K dirOf names group P base s)
    (hpasses : ∀ topic partition offset, request = .commitOffset group topic partition offset →
      s.unread base (topic, partition) ⊆ Set.Ici offset) :
    NoGaps K dirOf names group P base
      { s with broker := (s.broker.process K overflowChecks io request).2 } := by
  refine ⟨h.orderly, h.members, h.lower, fun key n hstored => ?_, h.logged⟩
  by_cases hcommit : ∃ topic partition offset, request = .commitOffset group topic partition offset
  · obtain ⟨topic, partition, offset, rfl⟩ := hcommit
    simp only [stored_commit] at hstored
    split at hstored
    · rename_i hkey
      subst hkey
      cases hstored
      exact unread_subset_Ici.1 (hpasses topic partition n rfl)
    · exact h.committed key n hstored
  · refine h.committed key n ?_
    have hsame : (s.broker.process K overflowChecks io request).2.stored group key =
        s.broker.stored group key := by
      cases request with
      | commitOffset groupId topic partition offset =>
        have hne : (⟨group, key.1, key.2⟩ : OffsetKey) ≠ ⟨groupId, topic, partition⟩ := by
          rintro ⟨⟩
          exact hcommit ⟨_, _, offset, rfl⟩
        exact Table.get_insert_ne _ hne
      | _ => rfl
    exact hsame.symm.trans hstored

/-- What the broker tells of the offsets is so. -/
theorem NoGaps.answered (h : NoGaps K dirOf names group P base s) (hstart : start request = none)
    (hpasses : Passes group (s.unread base) (.exchange request))
    (hresponse : (s.broker.process K overflowChecks io request).1 = some response) :
    Tells logged (s.unread base) request response := by
  cases request with
  | fetchOffset groupId topic partition =>
    obtain rfl : groupId = group := hpasses
    cases hresponse
    refine unread_subset_Ici.2 ?_
    change Set.Iio ((s.broker.stored groupId (topic, partition)).getD 0) ⊆ _
    cases hstored : s.broker.stored groupId (topic, partition) with
    | none => exact fun o ho => absurd ho (Nat.not_lt_zero o)
    | some n => exact h.committed _ n hstored
  | fetch topic partition offset maxMessages => cases hstart
  | _ => exact trivial

/-- What the server works on for a member stays its oldest request. -/
theorem InHand.server (h : InHand group logged k s.observed.state.tasks i m)
    (hm : s.members i = some m) {e : ServerEvent} (hpermits : s.Permits e) {state : ServerState}
    (hstate : serverNext K dirOf overflowChecks s.observed.state e = some state) :
    InHand group logged k state.tasks i m := by
  refine h.withTasks fun task htask => ?_
  cases e with
  | receive id request =>
    obtain ⟨task', -, -, hstart, rfl⟩ := serverNext_receive hstate
    rcases Table.get_insert_cases htask with ⟨rfl, rfl⟩ | ⟨-, hold⟩
    · exact ⟨request, (hpermits m hm).2, .start hstart⟩
    · exact h.working task hold
  | advance id io =>
    obtain ⟨task', htask', -, -, htasks⟩ := serverNext_advance hstate
    rw [htasks] at htask
    rcases get_settle htask with ⟨rfl, hwaits⟩ | ⟨-, hold⟩
    · obtain ⟨request, hold, hanswering⟩ := h.working task' htask'
      have hadvance : TaskStep K dirOf overflowChecks io s.observed.state.server task' _ _ :=
        advance_step io s.observed.state.server task'
      rw [hwaits] at hadvance
      exact ⟨request, hold, hanswering.advance hadvance⟩
    · exact h.working task hold
  | registerBroker now brokerId host port =>
    cases hstate
    exact h.working task htask
  | updateReplicaOffset topic partition brokerId offset =>
    cases hstate
    exact h.working task htask

/-- **One fetch** from an offset that has been reached. -/
theorem NoGaps.fetched (h : NoGaps K dirOf names group P base s) {topic : String}
    {partition offset : Nat} {records : List Record}
    (hpasses : s.unread base (topic, partition) ⊆ Set.Ici offset)
    (hfollows : Follows topic partition offset records) (hread : t.read = s.read ++ records) :
    t.unread base = Function.update (s.unread base) (topic, partition)
        (s.unread base (topic, partition) \ Set.Ico offset (offset + records.length)) ∧
      ∀ key, IsLowerSet (t.readSet base key) := by
  have happend := readSet_append base hfollows hread
  constructor
  · funext key
    by_cases hkey : key = (topic, partition)
    · subst hkey
      rw [Function.update_self, GroupReading.unread, happend, if_pos rfl, Set.compl_union]
      rfl
    · rw [Function.update_of_ne hkey, GroupReading.unread, happend, if_neg hkey]
      rfl
  · intro key
    rw [happend]
    split
    · rename_i hkey
      subst hkey
      have hbelow := unread_subset_Ici.1 hpasses
      rintro b a hle (hb | ⟨hlo, hhi⟩)
      · exact Or.inl (h.lower _ hle hb)
      · rcases Nat.lt_or_ge a offset with hlt | hge
        · exact Or.inl (hbelow hlt)
        · exact Or.inr ⟨hge, lt_of_le_of_lt hle hhi⟩
    · exact h.lower key

theorem readSet_mono (base : TopicPartition → Nat) {more : List Record}
    (hread : t.read = s.read ++ more) (key : TopicPartition) :
    s.readSet base key ⊆ t.readSet base key := by
  rintro o (hlt | ⟨r, hr, hkey⟩)
  · exact Or.inl hlt
  · exact Or.inr ⟨r, by rw [hread]; exact List.mem_append_left _ hr, hkey⟩

/-- What the server's tasks tell of a partition is in its log. -/
theorem Answering.tells {state : ServerState} (h : Separate K dirOf names state) {id : Nat}
    {io : StepIo} {task : Task} (htask : state.tasks.get id = some task)
    (hanswering : Answering request task)
    (hanswer : answer K dirOf overflowChecks state (.advance id io) = some response) :
    Tells (Logged K state) k request response := by
  obtain ⟨v, hshows⟩ := exists_shows h
  have hreplies := hanswering.replies hshows h htask hanswer
  cases request with
  | fetch topic partition offset maxMessages =>
    cases response with
    | fetchSuccess topic' partition' records =>
      obtain ⟨log, hlog⟩ := hanswering.found hshows h htask hanswer
      cases hreplies log hlog
      refine ⟨LogService.follows_records (topic, partition) offset maxMessages (v.fits _ log hlog),
        fun r hr => ?_⟩
      obtain ⟨i, hget⟩ := List.mem_iff_getElem?.1 hr
      obtain ⟨m, hm, rfl⟩ := LogService.getElem?_records hget
      exact ⟨log, (hshows.logs _ _).1 hlog, hm⟩
    | _ => exact trivial
  | fetchOffset groupId topic partition => exact absurd rfl hanswering.1
  | _ => exact trivial

/-- What is in the logs stays there. -/
theorem Logged.next (hK : K.Lawful) {o o' : Observed} (h : Orderly K dirOf names P o)
    (hdirs : DirsApart dirOf names) {e : ServerEvent}
    (hstep : Observed.next K dirOf overflowChecks o e = some o')
    (hcalm : CalmServer K dirOf names P o e o') {r : Record} (hr : Logged K o.state r) :
    Logged K o'.state r := by
  obtain ⟨v, hshows⟩ := exists_shows h.separate
  obtain ⟨w, hshows'⟩ := exists_shows (h.next hK hdirs hstep hcalm).separate
  have hle : v ≤ w :=
    hshows.next hK hshows' h.separate hdirs (Observed.next_state hstep) hcalm.1.2.2
  obtain ⟨log, hlog, hget⟩ := hr
  obtain ⟨more, hmore⟩ := hle.2 _ log ((hshows.logs _ _).2 hlog)
  refine ⟨log ++ more, (hshows'.logs _ _).1 hmore, ?_⟩
  rw [List.getElem?_append_left (List.getElem?_eq_some_iff.1 hget).1, hget]

/-- **A step of the server**, by which a member may be sent a response. -/
theorem NoGaps.server (hK : K.Lawful) (h : NoGaps K dirOf names group P base s)
    (hdirs : DirsApart dirOf names) {e : ServerEvent} (hpermits : s.Permits e) {o : Observed}
    (hstep : Observed.next K dirOf overflowChecks s.observed e = some o)
    (hcalm : CalmServer K dirOf names P s.observed e o) :
    NoGaps K dirOf names group P base ({ s with observed := o }.hear overflowChecks
      (answer K dirOf overflowChecks s.observed.state e) e) := by
  have hstate := Observed.next_state hstep
  have hstays : ∀ r, Logged K s.observed.state r → Logged K o.state r :=
    fun r => Logged.next hK h.orderly hdirs hstep hcalm
  have hserved : NoGaps K dirOf names group P base { s with observed := o } :=
    ⟨h.orderly.next hK hdirs hstep hcalm,
      fun i m hm => ((h.members i m hm).server hm hpermits hstate).mono hstays le_rfl,
      h.lower, h.committed, fun r hr => hstays r (h.logged r hr)⟩
  cases e with
  | advance id io =>
    simp only [GroupReading.hear]
    split
    · rename_i hidle
      refine hserved.respond overflowChecks id _ fun m m' r hm hr hnext => ?_
      obtain ⟨task, htask, -⟩ := serverNext_advance hstate
      have hmember := h.members id m hm
      obtain ⟨request, hold, hanswering⟩ := hmember.working task htask
      refine (hmember.respond hnext (fun request' hrequest' => ?_) hidle).mono hstays le_rfl
      cases hold.symm.trans hrequest'
      exact hanswering.tells h.orderly.separate htask hr
    · exact hserved
  | _ => exact hserved

/-- **What a member reads** in the response to its request. -/
theorem NoGaps.reads (h : NoGaps K dirOf names group P base s)
    (hpasses : Passes group (s.unread base) (.exchange request))
    (htells : Tells logged (s.unread base) request response)
    (hread : t.read = s.read ++ recordsOf request response) :
    t.unread base ≤ unreadAfter (s.unread base) (.exchange request) (.ok response) ∧
      (∀ key, IsLowerSet (t.readSet base key)) ∧ ∀ r ∈ recordsOf request response, logged r := by
  have hnothing : recordsOf request response = [] →
      s.unread base ≤ unreadAfter (s.unread base) (.exchange request) (.ok response) →
      t.unread base ≤ unreadAfter (s.unread base) (.exchange request) (.ok response) ∧
      (∀ key, IsLowerSet (t.readSet base key)) ∧ ∀ r ∈ recordsOf request response, logged r := by
    intro hnil hafter
    rw [hnil, List.append_nil] at hread
    rw [unread_congr hread, readSet_congr hread, hnil]
    exact ⟨hafter, h.lower, List.forall_mem_nil _⟩
  cases request with
  | fetch topic partition offset maxMessages =>
    cases response with
    | fetchSuccess topic' partition' records =>
      obtain ⟨hunread, hlower⟩ := h.fetched hpasses htells.1 hread
      exact ⟨le_of_eq hunread, hlower, htells.2⟩
    | _ => exact hnothing rfl le_rfl
  | fetchOffset groupId topic partition =>
    cases response with
    | fetchOffsetSuccess groupId' topic' partition' offset =>
      exact hnothing rfl (le_update_iff.2 ⟨Set.subset_inter le_rfl htells, fun key _ => le_rfl⟩)
    | _ => exact hnothing rfl le_rfl
  | _ => exact hnothing rfl le_rfl

/-- **A step of a member**, which may read the response to a request. -/
theorem NoGaps.member (h : NoGaps K dirOf names group P base s) (hm : s.members i = some m)
    {e : ConsumerEvent} (hown : e.own = true) (hcut : m.closed = false → ¬ Disturbs m e)
    (hstep : m.next overflowChecks e = some m') :
    NoGaps K dirOf names group P base { s with
      members := Function.update s.members i (some m')
      read := s.read ++ m.taken e } := by
  generalize ht : { s with
    members := Function.update s.members i (some m')
    read := s.read ++ m.taken e } = t
  have hread : t.read = s.read ++ m.taken e := by rw [← ht]
  have hmono := readSet_mono base hread
  obtain ⟨hmember, hlower, hlogged⟩ : InHand group (Logged K s.observed.state) (t.unread base)
      s.observed.state.tasks i m' ∧ (∀ key, IsLowerSet (t.readSet base key)) ∧
      ∀ r ∈ m.taken e, Logged K s.observed.state r := by
    by_cases hreads : e = .read
    · subst hreads
      obtain ⟨x, response, hasked, htaken, hpasses, htells, hnext⟩ := (h.members i m hm).read hstep
      rw [htaken] at hread ⊢
      obtain ⟨hunread, hlower, hlogged⟩ := h.reads hpasses htells hread
      exact ⟨hnext _ hunread, hlower, hlogged⟩
    · have htaken : m.taken e = [] := by
        cases e with
        | read => exact absurd rfl hreads
        | _ => rfl
      rw [htaken, List.append_nil] at hread
      rw [unread_congr hread, readSet_congr hread, htaken]
      exact ⟨(h.members i m hm).own hown hreads hcut hstep, h.lower, List.forall_mem_nil _⟩
  subst ht
  have hothers : ∀ j m, s.members j = some m → InHand group (Logged K s.observed.state)
      (GroupReading.unread base _) s.observed.state.tasks j m := fun j m hm =>
    (h.members j m hm).mono (fun _ => id) fun key => Set.compl_subset_compl.2 (hmono key)
  exact ⟨h.orderly, forall_update_member hothers hmember, hlower,
    fun key n hn => (h.committed key n hn).trans (hmono key),
    List.forall_mem_append.2 ⟨h.logged, hlogged⟩⟩

/-- The conditions on a step: those on the server's steps, and that no member's heartbeat is cut off
between its request and its response while the connection is open. -/
def CalmReading (K : Crates) (dirOf : String → Nat → Path) (names : Set String)
    (P : PartitionKey → Message → Prop) (s : GroupReading) : ReadingEvent → GroupReading → Prop
  | .server e, t => CalmServer K dirOf names P s.observed e t.observed
  | .member i e, _ => ∀ m ∈ s.members i, m.closed = false → ¬ Disturbs m e
  | _, _ => True

theorem GroupReading.hear_observed (overflowChecks : Bool) (answered : Option Response) (s : GroupReading)
    (e : ServerEvent) : (s.hear overflowChecks answered e).observed = s.observed := by
  cases e with
  | advance id io =>
    simp only [GroupReading.hear]
    split
    · rcases respond_cases overflowChecks id answered s with ⟨left, heq⟩ | ⟨m, m', r, -, -, -, heq⟩ <;>
        rw [heq]
    · rfl
  | _ => rfl

/-- **Every step of the system.** -/
theorem NoGaps.next (hK : K.Lawful) (h : NoGaps K dirOf names group P base s)
    (hdirs : DirsApart dirOf names) {e : ReadingEvent}
    (hstep : s.next K dirOf overflowChecks group e = some t)
    (hcalm : CalmReading K dirOf names P s e t) : NoGaps K dirOf names group P base t := by
  cases e with
  | server e =>
    obtain ⟨hpermits, hstep⟩ := Option.ite_none_right_eq_some.1 hstep
    obtain ⟨o, ho, rfl⟩ := Option.map_eq_some_iff.1 hstep
    refine h.server hK hdirs hpermits ho ?_
    simp only [CalmReading, GroupReading.hear_observed] at hcalm
    exact hcalm
  | member i e =>
    obtain ⟨m, hm, hstep⟩ := Option.bind_eq_some_iff.1 hstep
    obtain ⟨m', hm', hstep⟩ := Option.bind_eq_some_iff.1 hstep
    obtain ⟨hown, hstep⟩ := Option.ite_none_right_eq_some.1 hstep
    cases hstep
    exact h.member hm hown (hcalm m hm) hm'
  | serve i io =>
    obtain ⟨request, hasks, hstep⟩ := Option.bind_eq_some_iff.1 hstep
    cases hstep
    obtain ⟨m, hm, hold, hstart⟩ := asks_eq_some hasks
    have hmember := h.members i m hm
    obtain ⟨y, hy, rfl⟩ := Option.map_eq_some_iff.1 hold
    have hpasses : Passes group (s.unread base) (.exchange y.2) :=
      hmember.passes y (List.mem_of_mem_head? hy)
    have hserved : NoGaps K dirOf names group P base
        { s with broker := (s.broker.process K overflowChecks io y.2).2 } := by
      refine h.processed fun topic partition offset hrequest => ?_
      rw [hrequest] at hpasses
      exact hpasses.2
    refine hserved.respond overflowChecks i _ fun m₁ m' r hm₁ hr hnext => ?_
    cases hm.symm.trans hm₁
    refine hmember.respond hnext (fun request' hrequest' => ?_) ?_
    · cases hold.symm.trans hrequest'
      exact h.answered hstart hpasses hr
    · -- the server's tasks have nothing to do with such a request
      by_contra hne
      obtain ⟨task, htask⟩ := Option.ne_none_iff_exists'.1 hne
      obtain ⟨request', hrequest', hanswering⟩ := hmember.working task htask
      cases hold.symm.trans hrequest'
      exact hanswering.1 hstart
  | other io request =>
    obtain ⟨⟨hother, -⟩, hstep⟩ := Option.ite_none_right_eq_some.1 hstep
    cases hstep
    refine h.processed ?_
    rintro topic partition offset rfl
    simp [Request.commitsIn] at hother
  | coordinate call =>
    obtain ⟨-, hstep⟩ := Option.ite_none_right_eq_some.1 hstep
    cases hstep
    exact ⟨h.orderly, h.members, h.lower, h.committed, h.logged⟩

/-- **The beginning.** -/
theorem noGaps_new {observed : Observed} (h : Orderly K dirOf names P observed) (broker : GroupBroker)
    {autoCommit : Nat → Option Bool}
    (hidle : ∀ i, autoCommit i ≠ none → observed.state.tasks.get i = none)
    (hbase : ∀ key n, broker.stored group key = some n → n ≤ base key) :
    NoGaps K dirOf names group P base (.new observed broker group autoCommit) := by
  refine ⟨h, fun i m hm => ?_, fun key => ?_, fun key n hn => ?_, List.forall_mem_nil _⟩
  · obtain ⟨a, ha, rfl⟩ := Option.map_eq_some_iff.1 hm
    exact inHand_new _ _ a (hidle i (by rw [ha]; exact Option.some_ne_none a))
  · rintro b a hle (hlt | ⟨r, hr, -⟩)
    · exact Or.inl (lt_of_le_of_lt hle hlt)
    · cases hr
  · exact fun o ho => Or.inl (lt_of_lt_of_le ho (hbase key n hn))

end Step

/-! ## What the group has read -/

/-- The group has read the partition up to `m`: from what had been committed before, without gaps, all
that was acknowledged there and nothing that was not sent there; and it has committed no more. -/
structure ReadUpTo (group : String) (P : PartitionKey → Message → Prop) (base : TopicPartition → Nat)
    (s : GroupReading) (key : TopicPartition) (m : Nat) : Prop where
  read : s.readSet base key = Set.Iio m
  committed : ∀ n, s.broker.stored group key = some n → n ≤ m
  sent : ∀ r ∈ s.read, (r.topic, r.partition) = key → P key r.message
  acknowledged : ∀ a ∈ s.observed.acked, (a.topic, a.partition) = key → ∀ i message,
    a.messages[i]? = some message → base key ≤ a.base + i → a.base + i < m →
    ⟨key.1, key.2, a.base + i, message⟩ ∈ s.read

theorem NoGaps.readUpTo {base : TopicPartition → Nat} {s : GroupReading}
    (h : NoGaps K dirOf names group P base s) (key : TopicPartition) :
    ∃ m, ReadUpTo group P base s key m := by
  obtain ⟨m, hread⟩ := exists_readSet_eq (h.lower key)
  refine ⟨m, hread, fun n hn => ?_, ?_, ?_⟩
  · have hsubset := h.committed key n hn
    rw [hread] at hsubset
    exact Set.Iio_subset_Iio_iff.1 hsubset
  · rintro r hr rfl
    obtain ⟨log, hlog, hget⟩ := h.logged r hr
    exact h.orderly.vouched.stored _ log hlog _ (List.mem_of_getElem? hget)
  · rintro a ha rfl i message hmessage hbase hlt
    have hin : a.base + i ∈ s.readSet base (a.topic, a.partition) := hread ▸ hlt
    rcases hin with hbelow | ⟨r, hr, hkey, hoffset⟩
    · exact absurd hbelow (not_lt.2 hbase)
    · obtain ⟨log, hlog, hget⟩ := h.logged r hr
      obtain ⟨handle, ref, o, front, back, htopic, hpart, hobject, hacked, hfront⟩ :=
        h.orderly.observes.acked a ha
      rw [hkey] at hlog
      obtain rfl := hlog.unique ⟨handle, ref, o, htopic, hpart, hobject, hacked⟩
      have hi := (List.getElem?_eq_some_iff.1 hmessage).1
      rw [hoffset, List.append_assoc, List.getElem?_append_right (by omega),
        List.getElem?_append_left (by omega), ← hfront, Nat.add_sub_cancel_left, hmessage] at hget
      obtain ⟨topic, partition, offset, message'⟩ := r
      cases hkey
      cases hoffset
      cases hget
      exact hr

instance decidableDisturbs (m : ConsumerState) (e : ConsumerEvent) : Decidable (Disturbs m e) :=
  match e with
  | .cancel task => decidable_of_iff (m.turns.waits (.heartbeat task) = true)
      ⟨fun h => ⟨task, rfl, h⟩, fun ⟨_, he, h⟩ => by cases he; exact h⟩
  | .call _ | .effect | .lock | .send | .sendFails _ | .read | .readFails _ | .tick _
  | .lockHeartbeat _ | .sendHeartbeat _ | .sendHeartbeatFails _ | .readHeartbeat _
  | .readHeartbeatFails _ | .respond _ | .close => isFalse fun ⟨_, he, _⟩ => by cases he

instance decidableCalmReading [∀ name, Decidable (name ∈ names)] [∀ key m, Decidable (P key m)]
    (s : GroupReading) : ∀ e t, Decidable (CalmReading K dirOf names P s e t)
  | .server e, t => decidableCalmServer s.observed e t.observed
  | .member i _, _ => inferInstanceAs (Decidable (∀ m ∈ s.members i, _ → _))
  | .serve .., _ => isTrue trivial
  | .other .., _ => isTrue trivial
  | .coordinate .., _ => isTrue trivial

/-- What a request to the coordinator or to the offset manager meets. -/
def served (i : Nat) (uuid : String) (order : IterationOrder) : ReadingEvent :=
  .serve i ⟨0, uuid, order, .ok (), .error (.topicNotFound "orders"), freshServer.state.server⟩

/-- An operation of a member sends a request, these steps answer it, and it reads the response. -/
def roundTrip (i : Nat) (between : List ReadingEvent) : List ReadingEvent :=
  .member i .lock :: .member i .send :: between ++ [.member i .read]

/-- A member joins, polls the partition from this offset on, has a heartbeat and leaves. -/
def takesTurn (i : Nat) (uuid : String) (offset maxMessages : Nat) : List ReadingEvent :=
  .member i (.call (.joinGroup ["orders"])) ::
    roundTrip i [served i uuid ⟨["orders"], ["g-" ++ uuid]⟩] ++
    roundTrip i [served i "" ⟨[], []⟩] ++ [.member i .effect, .member i .effect,
    .member i (.call (.pollGroup maxMessages [("orders", 0)]))] ++
    roundTrip i [.server (.receive i (.fetch "orders" 0 offset maxMessages)),
      .server (plainStep i []), .server (plainStep i [])] ++
    roundTrip i [served i "" ⟨[], []⟩] ++ [.member i .effect, .member i (.tick 0),
    .member i (.lockHeartbeat 0), .member i (.sendHeartbeat 0), served i "" ⟨[], []⟩,
    .member i (.readHeartbeat 0), .member i (.call .leaveGroup), .member i .effect,
    .member i (.cancel 0)] ++ roundTrip i [served i "" ⟨[], []⟩] ++ [.member i .effect]

/-- Two messages are sent to a topic, and two members of a group take turns with it. -/
def twoTurns : List ReadingEvent :=
  (oneSent ++ .receive 1 (.produce "orders" 0 [oneByte 8]) :: List.replicate 3 (plainStep 1 [])).map
    .server ++ .coordinate (.updateTopicPartitions "orders" 1) :: takesTurn 8 "1f0c" 0 1 ++
  takesTurn 9 "77aa" 1 10

/-- The members on the connections 8 and 9, before anything happens. -/
def twoReaders : GroupReading :=
  .new freshServer ⟨OffsetManager.new [], GroupCoordinator.new 30⟩ "g"
    fun i => if i = 8 ∨ i = 9 then some true else none

end Gaffa
