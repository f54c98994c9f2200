import Gaffa.Client.Subscriber

/-!
# From producers to a subscriber

The server with any number of clients, one of which has a session on a connection of its own: it
subscribes to topics, seeks, and polls.  Between its requests, and while they are processed, the others
create topics, produce and fetch.

* `Serving.next`: what a session ensures of its result is kept by the steps of all of them.
* `session_delivers`: a session that ends returns of every partition what was sent there, in the order
  of the offsets, without gaps; and all that was acknowledged before it began, if its polls allow.
-/

set_option autoImplicit false

namespace Gaffa

open Transition Dialogue

variable {K : Crates} {dirOf : String → Nat → Path} {overflowChecks : Bool} {names : Set String}

/-! ## The system -/

/-- The server, what is left of the session, and whether the subscriber's connection has failed. -/
structure Subscription where
  observed : Observed
  session : Client (Except Fault (List Record) × Consumer)
  broken : Bool

/-- A step of the server, the answer to a `GetMetadata` of the subscriber, or the failure of its
connection. -/
inductive SubscriptionEvent where
  | server (e : ServerEvent)
  | describe
  | disconnect (e : GaffaError)

namespace Subscription

/-- A subscriber that begins its session on the server. -/
def begin (observed : Observed) (session : Client (Except Fault (List Record) × Consumer)) :
    Subscription := ⟨observed, session, false⟩

/-- The request that the session exchanges, and what it does with the reply. -/
def asked (s : Subscription) :
    Option (Request × (Reply → Client (Except Fault (List Record) × Consumer))) :=
  match s.session with
  | .ask (.exchange request) next => some (request, next)
  | _ => none

/-- What arrives on the connection `me` is the request of the session. -/
def Permits (me : Nat) (s : Subscription) : ServerEvent → Prop
  | .receive id request => id = me → s.broken = false ∧ s.asked.map Prod.fst = some request
  | _ => True

instance decidablePermits (me : Nat) (s : Subscription) : ∀ e, Decidable (s.Permits me e)
  | .receive .. => inferInstanceAs (Decidable (_ → _))
  | .advance .. => isTrue trivial
  | .registerBroker .. => isTrue trivial
  | .updateReplicaOffset .. => isTrue trivial

/-- The session goes on when the response to its request is sent. -/
def heard (me : Nat) (s : Subscription) (response : Option Response) :
    ServerEvent → Client (Except Fault (List Record) × Consumer)
  | .advance id _ =>
    if id = me ∧ s.broken = false then
      ((s.asked.bind fun x => response.map fun r => x.2 (.ok r)).getD s.session)
    else s.session
  | _ => s.session

/-- The steps of the server and the subscriber; the server processes the requests of a connection one
after the other. -/
def next (K : Crates) (dirOf : String → Nat → Path) (overflowChecks : Bool) (me : Nat)
    (s : Subscription) : SubscriptionEvent → Option Subscription
  | .server e =>
    if s.Permits me e then
      (Observed.next K dirOf overflowChecks s.observed e).map fun t =>
        { s with
          observed := t
          session := s.heard me (answer K dirOf overflowChecks s.observed.state e) e }
    else none
  | .describe =>
    match s.asked with
    | some (.getMetadata topics, next) =>
      if s.broken = false ∧ s.observed.state.tasks.get me = none then
        let described := s.observed.state.server.topicManager.metadata topics
        some { s with session := next (.ok (.metadata described)) }
      else none
    | _ => none
  | .disconnect e => s.asked.map fun x => { s with session := x.2 (.error e), broken := true }

end Subscription

/-! ## What a step keeps -/

/-- A task of the server that answers the request. -/
def Answering (request : Request) (task : Task) : Prop :=
  start request ≠ none ∧ ∀ topic partition offset maxMessages,
    request = .fetch topic partition offset maxMessages →
    task = .findFetched topic partition offset maxMessages ∨
      ∃ handle, task = .fetch handle topic partition offset maxMessages

/-- What the steps of the server keep. -/
structure Orderly (K : Crates) (dirOf : String → Nat → Path) (names : Set String)
    (P : PartitionKey → Message → Prop) (s : Observed) : Prop where
  separate : Separate K dirOf names s.state
  observes : Observes K s
  narrow : Narrow s.state
  vouched : Vouched K P s.state

/-- What all steps keep: the server shows a service from which the session goes on to a result with
the property, and works on the request of the session, if on any on that connection. -/
structure Serving (K : Crates) (dirOf : String → Nat → Path) (names : Set String) (me : Nat)
    (P : PartitionKey → Message → Prop)
    (post : LogService × Bool → Except Fault (List Record) × Consumer → Prop) (s : Subscription) :
    Prop where
  orderly : Orderly K dirOf names P s.observed
  ensures : ∃ v, Shows K s.observed.state v ∧ Ensures AnsweredBy post (v, s.broken) s.session
  waiting : s.broken = false → ∀ task, s.observed.state.tasks.get me = some task →
    ∃ request next, s.session = .ask (.exchange request) next ∧ Answering request task

/-- The conditions on a step of the server. -/
def CalmServer (K : Crates) (dirOf : String → Nat → Path) (names : Set String)
    (P : PartitionKey → Message → Prop) (s : Observed) (e : ServerEvent) (t : Observed) : Prop :=
  Calm K dirOf names s.state e t.state ∧ Sends P e

/-- The same of a step of the system. -/
def CalmStep (K : Crates) (dirOf : String → Nat → Path) (names : Set String)
    (P : PartitionKey → Message → Prop) (s : Subscription) :
    SubscriptionEvent → Subscription → Prop
  | .server e, t => CalmServer K dirOf names P s.observed e t.observed
  | _, _ => True

section Step

variable {me : Nat} {P : PartitionKey → Message → Prop}
  {post : LogService × Bool → Except Fault (List Record) × Consumer → Prop} {s t : Subscription}
  {e : SubscriptionEvent}

theorem session_of_asked {x : Request × (Reply → Client (Except Fault (List Record) × Consumer))}
    (h : s.asked = some x) : s.session = .ask (.exchange x.1) x.2 := by
  unfold Subscription.asked at h
  split at h
  · rename_i request next hsession
    cases h
    exact hsession
  · cases h

theorem asked_of_session {request : Request}
    {next : Reply → Client (Except Fault (List Record) × Consumer)}
    (h : s.session = .ask (.exchange request) next) : s.asked = some (request, next) := by
  unfold Subscription.asked
  rw [h]

theorem Answering.start {request : Request} {task : Task} (h : Gaffa.start request = some task) :
    Answering request task := by
  refine ⟨by rw [h]; exact Option.some_ne_none task, ?_⟩
  rintro topic partition offset maxMessages rfl
  cases h
  exact Or.inl rfl

theorem Answering.advance {srv srv' : Server} {io : StepIo} {request : Request} {task task' : Task}
    (h : Answering request task)
    (hstep : TaskStep K dirOf overflowChecks io srv task (.waits task') srv') :
    Answering request task' := by
  refine ⟨h.1, fun topic partition offset maxMessages hrequest => ?_⟩
  rcases h.2 topic partition offset maxMessages hrequest with rfl | ⟨handle, rfl⟩
  · cases hstep with
    | fetching _ _ _ _ handle hget => exact Or.inr ⟨handle, rfl⟩
  · cases hstep

/-- **A response of the server** to the request of the session is one of the service. -/
theorem Answering.replies {state : ServerState} {v : LogService} (hshows : Shows K state v)
    (h : Separate K dirOf names state) {io : StepIo} {request : Request} {response : Response}
    {task : Task} (htask : state.tasks.get me = some task) (hanswering : Answering request task)
    (hanswer : answer K dirOf overflowChecks state (.advance me io) = some response) :
    v.Replies request response := by
  cases request with
  | fetch topic partition offset maxMessages =>
    refine hshows.fetched h ?_ hanswer
    rcases hanswering.2 topic partition offset maxMessages rfl with rfl | ⟨handle, rfl⟩
    · exact Or.inl htask
    · exact Or.inr ⟨handle, htask⟩
  | getMetadata topics => exact absurd rfl hanswering.1
  | _ => exact trivial

/-- A fetch is answered by records only if its partition exists. -/
theorem Answering.found {state : ServerState} {v : LogService} (hshows : Shows K state v)
    (h : Separate K dirOf names state) {io : StepIo} {topic topic' : String}
    {partition partition' offset maxMessages : Nat} {records : List Record} {task : Task}
    (htask : state.tasks.get me = some task)
    (hanswering : Answering (.fetch topic partition offset maxMessages) task)
    (hanswer : answer K dirOf overflowChecks state (.advance me io) =
      some (.fetchSuccess topic' partition' records)) : ∃ log, v.logs (topic, partition) = some log := by
  rcases hanswering.2 topic partition offset maxMessages rfl with rfl | ⟨handle, rfl⟩
  · exact hshows.found h (Or.inl htask) hanswer
  · exact hshows.found h (Or.inr ⟨handle, htask⟩) hanswer

theorem Observed.next_state {s t : Observed} {e : ServerEvent}
    (h : Observed.next K dirOf overflowChecks s e = some t) :
    serverNext K dirOf overflowChecks s.state e = some t.state := by
  obtain ⟨state, hstate, rfl⟩ := Option.map_eq_some_iff.1 h
  exact hstate

theorem orderly_new (cluster : ClusterMetadata) (replicationFactor : Nat) :
    Orderly K dirOf names P (Observed.new cluster replicationFactor) :=
  ⟨separate_new names cluster replicationFactor, observes_new cluster replicationFactor,
    narrow_new cluster replicationFactor, vouched_new cluster replicationFactor⟩

theorem Orderly.next (hK : K.Lawful) {s t : Observed} {e : ServerEvent}
    (h : Orderly K dirOf names P s) (hdirs : DirsApart dirOf names)
    (hstep : Observed.next K dirOf overflowChecks s e = some t)
    (hcalm : CalmServer K dirOf names P s e t) : Orderly K dirOf names P t := by
  obtain ⟨⟨hsized, hnames, hrace⟩, hsends⟩ := hcalm
  have hstate := Observed.next_state hstep
  exact ⟨h.separate.next hK hdirs hstate hnames hrace,
    h.observes.next hK h.separate hdirs hstep hrace,
    h.narrow.next h.separate.exclusive hstate hsized,
    h.vouched.next hK h.separate hdirs hstate hrace hsends⟩

/-- **A step of the server.** -/
theorem Serving.server (hK : K.Lawful) (h : Serving K dirOf names me P post s)
    (hdirs : DirsApart dirOf names) {e : ServerEvent} (hpermits : s.Permits me e) {o : Observed}
    (hstep : Observed.next K dirOf overflowChecks s.observed e = some o)
    (hcalm : CalmServer K dirOf names P s.observed e o) :
    Serving K dirOf names me P post { s with
      observed := o
      session := s.heard me (answer K dirOf overflowChecks s.observed.state e) e } := by
  have hseparate := h.orderly.separate
  have hstate := Observed.next_state hstep
  have horderly := h.orderly.next hK hdirs hstep hcalm
  obtain ⟨v, hshows, hensures⟩ := h.ensures
  obtain ⟨w, hshows'⟩ := exists_shows horderly.separate
  have hle : (v, s.broken) ≤ (w, s.broken) :=
    ⟨hshows.next hK hshows' hseparate hdirs hstate hcalm.1.2.2, le_rfl⟩
  refine ⟨horderly, ⟨w, hshows', ?_⟩, ?_⟩
  · cases e with
    | advance id io =>
      simp only [Subscription.heard]
      split
      · rename_i hmine
        obtain ⟨rfl, hopen⟩ := hmine
        obtain ⟨task, progress, htask, -⟩ := serverNext_step hstate
        obtain ⟨request, next, hsession, hanswering⟩ := h.waiting hopen task htask
        rw [asked_of_session hsession, Option.bind_some]
        cases hanswer : answer K dirOf overflowChecks s.observed.state (.advance id io) with
        | none => exact hensures.later hle
        | some response =>
          rw [hsession] at hensures
          have hreplies : AnsweredBy (v, s.broken) (.exchange request) (.ok response) :=
            hanswering.replies hshows hseparate htask hanswer
          exact (hensures.answer hreplies).later hle
      · exact hensures.later hle
    | _ => exact hensures.later hle
  · intro hopen task htask
    have hsame : o.state.tasks = s.observed.state.tasks → s.heard me
        (answer K dirOf overflowChecks s.observed.state e) e = s.session →
        ∃ request next, s.heard me (answer K dirOf overflowChecks s.observed.state e) e =
          .ask (.exchange request) next ∧ Answering request task := by
      intro htasks hheard
      simp only at htask
      rw [htasks] at htask
      rw [hheard]
      exact h.waiting hopen task htask
    cases e with
    | receive id request =>
      obtain ⟨task', hnone, -, hstart, hreceived⟩ := serverNext_receive hstate
      simp only at htask
      rw [hreceived] at htask
      rcases Table.get_insert_cases htask with ⟨rfl, rfl⟩ | ⟨-, hold⟩
      · obtain ⟨x, hx, rfl⟩ := Option.map_eq_some_iff.1 (hpermits rfl).2
        exact ⟨x.1, x.2, session_of_asked hx, .start hstart⟩
      · exact h.waiting hopen task hold
    | advance id io =>
      obtain ⟨task', htask', -, -, htasks⟩ := serverNext_advance hstate
      simp only at htask
      rw [htasks] at htask
      rcases get_settle htask with ⟨rfl, hwaits⟩ | ⟨hne, hold⟩
      · obtain ⟨request, next, hsession, hanswering⟩ := h.waiting hopen task' htask'
        have hadvance : TaskStep K dirOf overflowChecks io s.observed.state.server task' _ _ :=
          advance_step io s.observed.state.server task'
        rw [hwaits] at hadvance
        refine ⟨request, next, ?_, hanswering.advance hadvance⟩
        rw [answer_advance htask', hwaits, Subscription.heard, asked_of_session hsession]
        exact (ite_self _).trans hsession
      · obtain ⟨request, next, hsession, hanswering⟩ := h.waiting hopen task hold
        refine ⟨request, next, ?_, hanswering⟩
        simp only [Subscription.heard]
        rw [if_neg fun hmine => hne hmine.1.symm]
        exact hsession
    | registerBroker now brokerId host port =>
      exact hsame (congrArg ServerState.tasks (Option.some_inj.1 hstate)).symm rfl
    | updateReplicaOffset topic partition brokerId offset =>
      exact hsame (congrArg ServerState.tasks (Option.some_inj.1 hstate)).symm rfl

/-- **Every step of the system.** -/
theorem Serving.next (hK : K.Lawful) (h : Serving K dirOf names me P post s)
    (hdirs : DirsApart dirOf names) (hstep : s.next K dirOf overflowChecks me e = some t)
    (hcalm : CalmStep K dirOf names P s e t) : Serving K dirOf names me P post t := by
  cases e with
  | server e =>
    obtain ⟨hpermits, hstep⟩ := Option.ite_none_right_eq_some.1 hstep
    obtain ⟨o, ho, rfl⟩ := Option.map_eq_some_iff.1 hstep
    exact h.server hK hdirs hpermits ho hcalm
  | describe =>
    obtain ⟨v, hshows, hensures⟩ := h.ensures
    simp only [Subscription.next] at hstep
    split at hstep
    · rename_i topics next hasked
      obtain ⟨⟨-, hidle⟩, hstep⟩ := Option.ite_none_right_eq_some.1 hstep
      cases hstep
      rw [session_of_asked hasked] at hensures
      have hreplies : AnsweredBy (v, s.broken) (.exchange (.getMetadata topics)) (.ok (.metadata
          (s.observed.state.server.topicManager.metadata topics))) := hshows.described topics
      refine ⟨h.orderly, ⟨v, hshows, hensures.answer hreplies⟩, ?_⟩
      intro _ task htask
      simp only at htask
      rw [hidle] at htask
      cases htask
    · cases hstep
  | disconnect error =>
    obtain ⟨v, hshows, hensures⟩ := h.ensures
    obtain ⟨x, hasked, rfl⟩ := Option.map_eq_some_iff.1 hstep
    rw [session_of_asked hasked] at hensures
    have hbroken : (v, s.broken) ≤ (v, true) := ⟨le_rfl, Bool.le_true _⟩
    have hreplies : AnsweredBy (v, true) (.exchange x.1) (.error error) := rfl
    refine ⟨h.orderly, ⟨v, hshows, (hensures.later hbroken).answer hreplies⟩, fun hopen => ?_⟩
    cases hopen

/-- **A whole run.** -/
theorem Serving.run (hK : K.Lawful) (h : Serving K dirOf names me P post s)
    (hdirs : DirsApart dirOf names) {tr : List (SubscriptionEvent × Subscription)}
    (hrun : Run (Steps (Subscription.next K dirOf overflowChecks me)) s tr)
    (hcalm : EachStep (CalmStep K dirOf names P) s tr) :
    Serving K dirOf names me P post (last s tr) :=
  (throughout_of_invariant (fun _ _ _ h hstep hcalm => h.next hK hdirs hstep hcalm) h hrun
    hcalm).at_last

/-- **The beginning.** -/
theorem Orderly.serving {observed : Observed} (h : Orderly K dirOf names P observed)
    (hidle : observed.state.tasks.get me = none) {v : LogService} (hshows : Shows K observed.state v)
    {session : Client (Except Fault (List Record) × Consumer)}
    (hensures : Ensures AnsweredBy post (v, false) session) :
    Serving K dirOf names me P post (.begin observed session) := by
  refine ⟨h, ⟨v, hshows, hensures⟩, fun _ task htask => ?_⟩
  cases hidle.symm.trans htask

end Step

/-! ## What is delivered -/

/-- The records of a partition, from the offset `start` on: they follow one another, were sent to the
partition, and are those of the batches that were acknowledged. -/
structure Transmitted (P : PartitionKey → Message → Prop) (acked : List Acknowledged)
    (key : TopicPartition) (start : Nat) (records : List Record) : Prop where
  follows : Follows key.1 key.2 start records
  sent : ∀ r ∈ records, P key r.message
  batches : ∀ a ∈ acked, a.topic = key.1 → a.partition = key.2 → ∀ i m, a.messages[i]? = some m →
    start ≤ a.base + i → a.base + i < start + records.length →
    records[a.base + i - start]? = some ⟨key.1, key.2, a.base + i, m⟩

section Delivery

variable {P : PartitionKey → Message → Prop} {s : Observed} {v : LogService} {key : TopicPartition}
  {c c' : Consumer} {records : List Record} {parts : Set TopicPartition}

/-- A batch that was acknowledged is in the log that the service shows. -/
theorem Acknowledged.InLog.shown {state : ServerState} (hshows : Shows K state v) {a : Acknowledged}
    (ha : a.InLog K state) : ∃ front back,
      v.logs (a.topic, a.partition) = some (front ++ a.messages ++ back) ∧ front.length = a.base := by
  obtain ⟨handle, ref, o, front, back, htopic, hpart, hget, hlog, hbase⟩ := ha
  exact ⟨front, back, (hshows.logs _ _).2 ⟨handle, ref, o, htopic, hpart, hget, hlog⟩, hbase⟩

/-- The service counts the partitions that have a log. -/
theorem Shows.mem_partitionsOf {state : ServerState} (hshows : Shows K state v)
    (hnarrow : Narrow state) {topics : List String} {log : List Message}
    (hlog : v.logs key = some log) (hkey : key.1 ∈ topics) : key ∈ v.partitionsOf topics := by
  obtain ⟨handle, ref, o, htopic, hpart, -⟩ := (hshows.logs _ _).1 hlog
  refine ⟨hkey, handle.partitions.length, ?_, (List.getElem?_eq_some_iff.1 hpart).1⟩
  rw [hshows.counts, htopic, Option.map_some, Topic.numPartitions,
    Nat.mod_eq_of_lt (hnarrow.topics key.1 handle htopic)]

/-- **What a consumer takes** from the logs that the server shows. -/
theorem Took.delivered (htook : Took v parts c records c') (hshows : Shows K s.state v)
    (h : Orderly K dirOf names P s) (key : TopicPartition) :
    Transmitted P s.acked key (c.position key) (records.filter (·.isOf key)) := by
  -- a record of the partition has the message that the log has at its offset
  have hlogged : ∀ r ∈ records.filter (·.isOf key), ∃ log, v.logs key = some log ∧
      log[r.offset]? = some r.message := by
    intro r hr
    obtain ⟨hr, hof⟩ := List.mem_filter.1 hr
    simp only [Record.isOf, decide_eq_true_eq] at hof
    have hlog := htook.logged r hr
    rwa [hof.1, hof.2] at hlog
  refine ⟨htook.polled.follows key, fun r hr => ?_, ?_⟩
  · obtain ⟨log, hlog, hget⟩ := hlogged r hr
    exact h.vouched.stored key log ((hshows.logs key log).1 hlog) _ (List.mem_of_getElem? hget)
  · intro a ha htopic hpartition i m hm hlo hhi
    obtain ⟨front, back, hlog, hbase⟩ := (h.observes.acked a ha).shown hshows
    rw [htopic, hpartition] at hlog
    have hi := (List.getElem?_eq_some_iff.1 hm).1
    have hlt : a.base + i - c.position key < (records.filter (·.isOf key)).length := by omega
    obtain ⟨r, hr⟩ : ∃ r, (records.filter (·.isOf key))[a.base + i - c.position key]? = some r :=
      ⟨_, List.getElem?_eq_getElem hlt⟩
    obtain ⟨hrtopic, hrpartition, hroffset, -⟩ :=
      follows_iff.1 (htook.polled.follows key) _ r hr
    obtain ⟨log, hlog', hget⟩ := hlogged r (List.mem_of_getElem? hr)
    cases hlog.symm.trans hlog'
    have hoffset : r.offset = a.base + i := by omega
    rw [hoffset, List.append_assoc, List.getElem?_append_right (by omega),
      List.getElem?_append_left (by omega), ← hbase, Nat.add_sub_cancel_left, hm] at hget
    rw [hr]
    obtain ⟨topic, partition, offset, message⟩ := r
    cases hrtopic
    cases hrpartition
    cases hoffset
    cases hget
    rfl

end Delivery

/-- **From producers to a subscriber**: in every run in which topics are created one at a time and
appends succeed, a session of a subscriber on topics whose creation was reported succeeds unless its
connection fails.  Of every partition of these topics it returns records that follow one another from
where it starts, that were sent to the partition, and that agree with every acknowledgement; and it
returns all that was acknowledged before it began, as far as its polls allow. -/
theorem session_delivers (hK : K.Lawful) (cluster : ClusterMetadata) (replicationFactor : Nat)
    (hdirs : DirsApart dirOf names) {P : PartitionKey → Message → Prop}
    {before : List (ServerEvent × Observed)}
    (hbefore : Run (Steps (Observed.next K dirOf overflowChecks))
      (Observed.new cluster replicationFactor) before)
    (hcalm₀ : EachStep (CalmServer K dirOf names P) (Observed.new cluster replicationFactor) before)
    {observed : Observed} (hobserved : last (Observed.new cluster replicationFactor) before = observed)
    {me : Nat} (hidle : observed.state.tasks.get me = none) {topics : List String}
    (htopics : ∀ topic ∈ topics, topic ∈ observed.created) (seeks : List (TopicPartition × Nat))
    (polls : List (Nat × List String))
    (horders : ∀ poll ∈ polls, ∀ topic, topic ∈ poll.2 ↔ topic ∈ topics) {start : Subscription}
    (hstart : start = .begin observed
      ((Consumer.new none false).session overflowChecks topics seeks polls))
    {tr : List (SubscriptionEvent × Subscription)}
    (hrun : Run (Steps (Subscription.next K dirOf overflowChecks me)) start tr)
    (hcalm : EachStep (CalmStep K dirOf names P) start tr)
    {result : Except Fault (List Record)} {c : Consumer}
    (hend : (last start tr).session = .done (result, c)) :
    ((last start tr).broken = false → ∃ records, result = .ok records) ∧
    ∀ records, result = .ok records → (∀ r ∈ records, r.topic ∈ topics) ∧
      ∀ key : TopicPartition, key.1 ∈ topics →
        Transmitted P (last start tr).observed.acked key (startAt seeks key)
          (records.filter (·.isOf key)) ∧
        ∀ a ∈ observed.acked, a.topic = key.1 → a.partition = key.2 →
          min (startAt seeks key + (polls.map Prod.fst).sum) (a.base + a.messages.length) ≤
            startAt seeks key + (records.filter (·.isOf key)).length := by
  have horderly := (throughout_of_invariant (I := Orderly K dirOf names P)
    (fun _ _ _ h hstep hcalm => h.next hK hdirs hstep hcalm)
    (orderly_new cluster replicationFactor) hbefore hcalm₀).at_last
  rw [hobserved] at horderly
  obtain ⟨v₀, hshows₀⟩ := exists_shows horderly.separate
  have hcounts : ∀ topic ∈ topics, ∃ n, v₀.counts topic = some n := by
    intro topic htopic
    obtain ⟨handle, hget⟩ := horderly.observes.existing topic (htopics topic htopic)
    exact ⟨_, by rw [hshows₀.counts, hget, Option.map_some]⟩
  have hensures := ensures_session (s := (v₀, false)) (c := Consumer.new none false) overflowChecks
    seeks le_rfl (fun _ => rfl) hcounts horders
  subst hstart
  have hlast := (horderly.serving hidle hshows₀ hensures).run hK hdirs hrun hcalm
  obtain ⟨v, hshows, hensured⟩ := hlast.ensures
  rw [hend] at hensured
  rcases hensured.result with ⟨records', rfl, c₁, hposition, htook, hreaches⟩ |
    ⟨⟨e, rfl⟩, hbroken⟩
  · refine ⟨fun _ => ⟨records', rfl⟩, ?_⟩
    rintro records ⟨⟩
    refine ⟨fun r hr => (htook.only r hr).1, fun key hkey => ?_⟩
    have hdelivered := htook.delivered hshows hlast.orderly key
    rw [hposition] at hdelivered
    refine ⟨hdelivered, fun a ha htopic hpartition => ?_⟩
    obtain ⟨front, back, hlog, hbase⟩ := (horderly.observes.acked a ha).shown hshows₀
    rw [htopic, hpartition] at hlog
    have hreach := hreaches key (hshows₀.mem_partitionsOf horderly.narrow hlog hkey) _ hlog
    rw [hposition, htook.polled.position, hposition, List.length_append, List.length_append,
      hbase] at hreach
    omega
  · refine ⟨fun hopen => ?_, ?_⟩
    · cases hbroken.symm.trans hopen
    · rintro records ⟨⟩

/-! ## A session -/

/-- The name of the topic that the request asks for. -/
def Request.creates : Request → Option String
  | .createTopic name _ => some name
  | _ => none

instance decidableCalmServer [∀ name, Decidable (name ∈ names)] {P : PartitionKey → Message → Prop}
    [∀ key m, Decidable (P key m)] (s : Observed) (e : ServerEvent) (t : Observed) :
    Decidable (CalmServer K dirOf names P s e t) :=
  have : Decidable (CreatesOnly names e) :=
    decidable_of_iff (∀ request ∈ e.request, ∀ name ∈ request.creates, name ∈ names) (by
      constructor
      · rintro h id name partitions rfl
        exact h _ rfl name rfl
      · intro h request hrequest name hname
        cases e with
        | receive id request' =>
          cases hrequest
          cases request with
          | createTopic name' partitions =>
            cases hname
            exact h id name partitions rfl
          | _ => cases hname
        | _ => cases hrequest)
  inferInstanceAs (Decidable (((∀ request ∈ e.request, request.Sized) ∧ CreatesOnly names e ∧
    NoRace K dirOf s.state e t.state) ∧ ∀ request ∈ e.request, ∀ x ∈ request.sent, P x.1 x.2))

instance decidableCalmStep [∀ name, Decidable (name ∈ names)] {P : PartitionKey → Message → Prop}
    [∀ key m, Decidable (P key m)] (s : Subscription) :
    ∀ e t, Decidable (CalmStep K dirOf names P s e t)
  | .server e, t => decidableCalmServer s.observed e t.observed
  | .describe, _ => isTrue trivial
  | .disconnect _, _ => isTrue trivial

/-- A topic is created, and a message is sent to it. -/
def oneSent : List ServerEvent :=
  .receive 0 (.createTopic "orders" 1) :: List.replicate 5 (plainStep 0 []) ++
  .receive 1 (.produce "orders" 0 [oneByte 7]) :: List.replicate 3 (plainStep 1 [])

/-- Two polls of the topic; another message arrives while the second one is processed. -/
def subscribed : List SubscriptionEvent :=
  .describe ::
  ([.receive 9 (.fetch "orders" 0 0 1), plainStep 9 [], plainStep 9 [],
    .receive 9 (.fetch "orders" 0 1 10), plainStep 9 [],
    .receive 2 (.produce "orders" 0 [oneByte 8]), plainStep 2 [], plainStep 2 [],
    plainStep 9 [], plainStep 2 []] : List ServerEvent).map .server

def twoPolls : Client (Except Fault (List Record) × Consumer) :=
  (Consumer.new none false).session true ["orders"] [] [(1, ["orders"]), (10, ["orders"])]

/-- The messages that are sent to the topic. -/
def BothSent (_ : PartitionKey) (m : Message) : Prop := m ∈ [oneByte 7, oneByte 8]

instance decidableBothSent (key : PartitionKey) (m : Message) : Decidable (BothSent key m) :=
  inferInstanceAs (Decidable (_ ∈ _))

/-- The result of the session. -/
def Subscription.result (s : Subscription) : Option (Except Fault (List Record) × Consumer) :=
  match s.session with
  | .done r => some r
  | .ask _ _ => none

theorem session_delivers_twoPolls :
    ∃ before tr records c,
      trace (Observed.next plainCrates plainDir true) freshServer oneSent = some before ∧
      trace (Subscription.next plainCrates plainDir true 9)
        (.begin (last freshServer before) twoPolls) subscribed = some tr ∧
      (last (.begin (last freshServer before) twoPolls) tr).session = .done (.ok records, c) ∧
      ∀ key : TopicPartition, key.1 ∈ ["orders"] →
        Transmitted BothSent (last (.begin (last freshServer before) twoPolls) tr).observed.acked key 0
          (records.filter (·.isOf key)) ∧
        ∀ a ∈ (last freshServer before).acked, a.topic = key.1 → a.partition = key.2 →
          min 11 (a.base + a.messages.length) ≤ (records.filter (·.isOf key)).length := by
  obtain ⟨before, hbefore⟩ := Option.isSome_iff_exists.1 (show (trace
    (Observed.next plainCrates plainDir true) freshServer oneSent).isSome = true by decide +kernel)
  have hfirst : ∀ before ∈ trace (Observed.next plainCrates plainDir true) freshServer oneSent,
      EachStep (CalmServer plainCrates plainDir {name | name = "orders"} BothSent) freshServer before ∧
      (last freshServer before).state.tasks.get 9 = none ∧
      (∀ topic ∈ ["orders"], topic ∈ (last freshServer before).created) ∧
      (trace (Subscription.next plainCrates plainDir true 9)
        (.begin (last freshServer before) twoPolls) subscribed).isSome = true ∧
      ∀ tr ∈ trace (Subscription.next plainCrates plainDir true 9)
          (.begin (last freshServer before) twoPolls) subscribed,
        EachStep (CalmStep plainCrates plainDir {name | name = "orders"} BothSent)
          (.begin (last freshServer before) twoPolls) tr ∧
        (last (.begin (last freshServer before) twoPolls) tr).result.isSome = true ∧
        (last (.begin (last freshServer before) twoPolls) tr).broken = false := by
    decide +kernel
  obtain ⟨hcalm₀, hidle, hcreated, hsome, hrest⟩ := hfirst before hbefore
  obtain ⟨tr, htr⟩ := Option.isSome_iff_exists.1 hsome
  obtain ⟨hcalm, hresult, hopen⟩ := hrest tr htr
  obtain ⟨⟨result, c⟩, hresult⟩ := Option.isSome_iff_exists.1 hresult
  have hend : (last (.begin (last freshServer before) twoPolls) tr).session = .done (result, c) := by
    unfold Subscription.result at hresult
    split at hresult
    · rename_i r hsession
      cases hresult
      exact hsession
    · cases hresult
  have hdelivers := session_delivers plainCrates_lawful (ClusterMetadata.new 0 30000 10) 1
    dirsApart_orders (run_of_trace hbefore) hcalm₀ rfl hidle hcreated []
    [(1, ["orders"]), (10, ["orders"])] (by simp) rfl (run_of_trace htr) hcalm hend
  obtain ⟨records, rfl⟩ := hdelivers.1 hopen
  refine ⟨before, tr, records, c, hbefore, htr, hend, fun key hkey => ?_⟩
  obtain ⟨hdelivered, hreached⟩ := (hdelivers.2 records rfl).2 key hkey
  refine ⟨hdelivered, fun a ha htopic hpartition => ?_⟩
  simpa [startAt] using hreached a ha htopic hpartition

end Gaffa
