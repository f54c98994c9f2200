import Gaffa.Client.EndToEnd
import Gaffa.Client.Publishing

/-!
# From a producer to the logs

The server with any number of clients, one of which is a producer that sends batches with its
partitioner, on a connection of its own.  Its messages can be told from those of the others.

* `OnCourse.next`: what each step keeps: how the logs, the producer's account and its request in
  progress fit together.
* `published_in_order`: at every moment each log has the producer's messages in the order in which they
  were given, each at most once and none left out before another; and when the calls end, all of them.
-/

set_option autoImplicit false

namespace Gaffa

open Transition Grouping Dialogue

variable {K : Crates} {dirOf : String → Nat → Path} {overflowChecks : Bool} {names : Set String}

/-! ## The system -/

/-- The server, what is left of the producer's calls, how many partitions its partitioner was told with
what it chose, and whether the producer's connection has failed. -/
structure Publication where
  observed : Observed
  session : Sending (Except Fault Unit × Producer)
  choices : List (Nat × Except Fault Nat)
  broken : Bool

/-- A step of the server, the answer to a `GetPartitions` of the producer, a choice of its partitioner,
the start of the loop over its batches, or the failure of its connection. -/
inductive PublicationEvent where
  | server (e : ServerEvent)
  | count
  | choose (choice : Except Fault Nat)
  | iterate (order : List Nat)
  | disconnect (e : GaffaError)

namespace Publication

/-- A producer that begins its calls on the server. -/
def begin (observed : Observed) (session : Sending (Except Fault Unit × Producer)) : Publication :=
  ⟨observed, session, [], false⟩

/-- The request that the producer exchanges, and what it does with the reply. -/
def asked (s : Publication) :
    Option (Request × (Reply → Sending (Except Fault Unit × Producer))) :=
  match s.session with
  | .ask (.exchange request) next => some (request, next)
  | _ => none

/-- The partitions that were chosen. -/
def chosen (s : Publication) : List Nat := s.choices.filterMap fun c => c.2.toOption

/-- The partitioner chose a partition that the topic has. -/
def inRange : Nat × Except Fault Nat → Bool
  | (n, .ok partition) => partition < n
  | (_, .error _) => false

/-- The producer may fail. -/
def excused (s : Publication) : Bool := s.broken || !s.choices.all inRange

/-- What arrives on the connection `me` is the request of the producer. -/
def Permits (me : Nat) (s : Publication) : ServerEvent → Prop
  | .receive id request => id = me → s.broken = false ∧ s.asked.map Prod.fst = some request
  | _ => True

instance decidablePermits (me : Nat) (s : Publication) : ∀ e, Decidable (s.Permits me e)
  | .receive .. => inferInstanceAs (Decidable (_ → _))
  | .advance .. => isTrue trivial
  | .registerBroker .. => isTrue trivial
  | .updateReplicaOffset .. => isTrue trivial

/-- The producer goes on when the response to its request is sent; a task that ends without a response
closes its connection. -/
def hear (me : Nat) (response : Option Response) (t : Observed) (s : Publication) :
    ServerEvent → Publication
  | .advance id _ =>
    if id = me ∧ s.broken = false then
      match response, s.asked with
      | some r, some x => { s with observed := t, session := x.2 (.ok r) }
      | _, _ => { s with observed := t, broken := (t.state.tasks.get me).isNone }
    else { s with observed := t }
  | _ => { s with observed := t }

/-- The steps of the server and the producer; the server processes the requests of a connection one
after the other. -/
def next (K : Crates) (dirOf : String → Nat → Path) (overflowChecks : Bool) (me : Nat)
    (s : Publication) : PublicationEvent → Option Publication
  | .server e =>
    if s.Permits me e then
      (Observed.next K dirOf overflowChecks s.observed e).map fun t =>
        s.hear me (answer K dirOf overflowChecks s.observed.state e) t e
    else none
  | .count =>
    match s.asked with
    | some (.getPartitions topic, next) =>
      if s.broken = false ∧ s.observed.state.tasks.get me = none then
        let response := s.observed.state.server.topicManager.describePartitions topic
        some { s with session := next (.ok response) }
      else none
    | _ => none
  | .choose choice =>
    match s.session with
    | .ask (.partition _ n) next =>
      some { s with session := next choice, choices := s.choices ++ [(n, choice)] }
    | _ => none
  | .iterate order =>
    match s.session with
    | .ask (.iterate batches) next =>
      if h : batches.Order order then some { s with session := next ⟨order, h⟩ } else none
    | _ => none
  | .disconnect e => s.asked.map fun x => { s with session := x.2 (.error e), broken := true }

end Publication

/-! ## What a step keeps -/

/-- The messages of a partition that are the producer's. -/
def LogService.ownIn (mine : Message → Bool) (v : LogService) (key : PartitionKey) : List Message :=
  ((v.logs key).getD []).filter mine

/-- The messages that a task is going to append. -/
def Task.carried : Task → Option (PartitionKey × List Message)
  | .findTopic topic partition messages => some ((topic, partition), messages)
  | .append _ topic partition messages => some ((topic, partition), messages)
  | _ => none

/-- A task of a `Produce` request, and what it has appended. -/
inductive Producing (topic : String) (partition : Nat) (messages : List Message) :
    Task → List Message → Prop
  | finding : Producing topic partition messages (.findTopic topic partition messages) []
  | appending (handle : Topic) :
    Producing topic partition messages (.append handle topic partition messages) []
  | updating (base count : Nat) :
    Producing topic partition messages (.updateLeader topic partition base count) messages

/-- How the logs, the producer's account and its request in progress fit together. -/
structure Accounted (K : Crates) (mine : Message → Bool) (calls : List (String × List Message))
    (me : Nat) (s : Publication) (v : LogService) (a : Account) : Prop where
  shows : Shows K s.observed.state v
  chosen : a.chosen = s.chosen
  meets : Meets (publishingContract calls) (fun a r => r.1 = .ok () → SentUpTo calls calls a) a
    s.session
  ensures : Ensures PublishedBy (Excused fun _ r => r.1 = .ok ()) (v, s.excused) s.session
  due : ∀ key, v.ownIn mine key <+: destinedFor calls s.chosen key
  pending : ∀ task, s.observed.state.tasks.get me = some task → ∀ x ∈ task.carried,
    v.ownIn mine x.1 ++ x.2 <+: destinedFor calls s.chosen x.1
  idle : s.broken = false → s.observed.state.tasks.get me = none →
    ∀ key, v.ownIn mine key = a.sent key
  busy : s.broken = false → ∀ task, s.observed.state.tasks.get me = some task →
    ∃ topic partition messages appended next,
      s.session = .ask (.exchange (.produce topic partition messages)) next ∧
      Producing topic partition messages task appended ∧
      ∀ key, v.ownIn mine key = a.sent key ++ if key = (topic, partition) then appended else []
  closed : s.broken = true → a.isOpen = false ∨ s.asked ≠ none

/-- What all steps keep. -/
structure OnCourse (K : Crates) (dirOf : String → Nat → Path) (names : Set String)
    (mine : Message → Bool) (calls : List (String × List Message)) (me : Nat) (s : Publication) :
    Prop where
  orderly : Orderly K dirOf names (fun _ _ => True) s.observed
  foreign : ∀ id, id ≠ me → ∀ task, s.observed.state.tasks.get id = some task →
    ∀ x ∈ task.carried, ∀ m ∈ x.2, mine m = false
  account : ∃ v a, Accounted K mine calls me s v a

/-- The conditions on a step of the system: others do not send messages of the producer. -/
def CalmPublication (K : Crates) (dirOf : String → Nat → Path) (names : Set String)
    (mine : Message → Bool) (me : Nat) (s : Publication) : PublicationEvent → Publication → Prop
  | .server e, t => Calm K dirOf names s.observed.state e t.observed.state ∧
      ∀ id request, e = .receive id request → id ≠ me → ∀ x ∈ request.sent, mine x.2 = false
  | _, _ => True

/-! ## Tasks of `Produce` -/

section Tasks

variable {io : StepIo} {srv srv' : Server} {task task' : Task} {progress : Progress}
  {key : PartitionKey} {topic : String} {partition : Nat} {messages appended : List Message}

/-- A task carries what it has carried before. -/
theorem TaskStep.carried (hstep : TaskStep K dirOf overflowChecks io srv task (.waits task') srv')
    {x : PartitionKey × List Message} (hx : x ∈ task'.carried) : x ∈ task.carried := by
  cases hstep with
  | found topic partition messages handle h => exact hx
  | _ => cases hx

/-- What a task appends is what it carries. -/
theorem TaskStep.added (hstep : TaskStep K dirOf overflowChecks io srv task progress srv')
    (hne : task.added key progress ≠ []) : (key, task.added key progress) ∈ task.carried := by
  cases hstep with
  | appended handle topic partition messages ref o base hpart hget happ =>
    have hkey : key = (topic, partition) := by
      by_contra hkey
      exact hne (if_neg hkey)
    subst hkey
    rw [Task.added, if_pos rfl]
    exact rfl
  | _ => exact absurd rfl hne

/-- A task that goes on carrying has appended nothing. -/
theorem TaskStep.added_of_carried
    (hstep : TaskStep K dirOf overflowChecks io srv task (.waits task') srv')
    {x : PartitionKey × List Message} (hx : x ∈ task'.carried) :
    task.added key (.waits task') = [] := by
  cases hstep with
  | found topic partition messages handle h => rfl
  | _ => cases hx

/-- **A step of a `Produce`** that goes on. -/
theorem Producing.goesOn (h : Producing topic partition messages task appended)
    (hstep : TaskStep K dirOf overflowChecks io srv task (.waits task') srv') :
    ∃ appended', Producing topic partition messages task' appended' ∧ ∀ key,
      (if key = (topic, partition) then appended else []) ++ task.added key (.waits task') =
        if key = (topic, partition) then appended' else [] := by
  cases h with
  | finding =>
    cases hstep with
    | found _ _ _ handle h => exact ⟨[], .appending handle, fun key => by simp [Task.added]⟩
  | appending handle =>
    cases hstep with
    | appended _ _ _ _ ref o base hpart hget happ =>
      exact ⟨messages, .updating .., fun key => by simp [Task.added]⟩
  | updating base count => cases hstep

/-- **The last step of a `Produce`** reports success exactly if it has appended its messages. -/
theorem Producing.ends {response : Response} (h : Producing topic partition messages task appended)
    (hstep : TaskStep K dirOf overflowChecks io srv task (.ends (some response)) srv') :
    (appended = messages ∧ ∃ base count,
      response = .produceSuccess topic partition base count) ∨
    (appended = [] ∧ ∃ e, response = .produceError e) := by
  cases h with
  | finding =>
    cases hstep with
    | notFound _ _ _ e h => exact Or.inr ⟨rfl, _, rfl⟩
  | appending handle =>
    cases hstep with
    | noPartition _ _ _ _ _ hnone h =>
      obtain h | ⟨e, he⟩ := h
      · cases h
      · exact Or.inr ⟨rfl, e, Option.some_inj.1 he⟩
    | notAppended _ _ _ _ _ ref o hpart hget happ h =>
      obtain h | ⟨e, he⟩ := h
      · cases h
      · exact Or.inr ⟨rfl, e, Option.some_inj.1 he⟩
  | updating base count =>
    cases hstep with
    | updated _ _ _ _ finalOffset _ hsum hresponse =>
      obtain h | h := hresponse
      · cases h
      · exact Or.inl ⟨rfl, base, count, Option.some_inj.1 h⟩

/-- A `Produce` to a partition that exists does not report an error. -/
theorem Producing.replies {s : ServerState} {v : LogService} {id : Nat} (hshows : Shows K s v)
    (hseparate : Separate K dirOf names s) (htask : s.tasks.get id = some task)
    (h : Producing topic partition messages task appended) {response : Response}
    (hstep : TaskStep K dirOf overflowChecks io s.server task (.ends (some response)) srv')
    (happends : task.Appends K dirOf io s) (hne : messages ≠ []) {log : List Message}
    (hlog : v.logs (topic, partition) = some log) :
    ∃ base count, response = .produceSuccess topic partition base count := by
  obtain ⟨handle, ref, o, htopic, hpart, hget, -⟩ := (hshows.logs _ _).1 hlog
  cases h with
  | finding =>
    cases hstep with
    | notFound _ _ _ e hnone => cases hnone.symm.trans htopic
  | appending handle' =>
    cases (hseparate.exclusive.appending id handle' topic partition messages htask).symm.trans htopic
    cases hstep with
    | noPartition _ _ _ _ _ hnone h => cases (hnone ref hpart).symm.trans hget
    | notAppended _ _ _ _ _ ref' o' hpart' hget' hfail h =>
      obtain ⟨n, hn⟩ := happends hne ref' hpart' o' hget'
      exact absurd hn (hfail n)
  | updating base count =>
    cases hstep with
    | updated _ _ _ _ finalOffset _ hsum hresponse =>
      obtain h | h := hresponse
      · cases h
      · exact ⟨base, count, Option.some_inj.1 h⟩

end Tasks

/-! ## Steps -/

section Steps

variable {mine : Message → Bool} {calls : List (String × List Message)} {me : Nat}
  {s t : Publication} {v w : LogService} {a : Account} {key : PartitionKey}

theorem publication_session {x : Request × (Reply → Sending (Except Fault Unit × Producer))}
    (h : s.asked = some x) : s.session = .ask (.exchange x.1) x.2 := by
  unfold Publication.asked at h
  split at h
  · rename_i request next hsession
    cases h
    exact hsession
  · cases h

theorem publication_asked {request : Request}
    {next : Reply → Sending (Except Fault Unit × Producer)}
    (h : s.session = .ask (.exchange request) next) : s.asked = some (request, next) := by
  unfold Publication.asked
  rw [h]

/-- What is to go to a partition is the producer's. -/
theorem filter_mine (hmine : ∀ call ∈ calls, ∀ m ∈ call.2, mine m = true) {before messages : List Message}
    {chosen : List Nat} (h : before ++ messages <+: destinedFor calls chosen key) :
    messages.filter mine = messages := by
  rw [List.filter_eq_self]
  intro m hm
  obtain ⟨call, hcall, hm⟩ := exists_call_of_mem (h.subset (List.mem_append_right _ hm))
  exact hmine call hcall m hm

theorem excused_mono (hbroken : s.broken = true → t.broken = true)
    (hchoices : t.choices = s.choices) : s.excused ≤ t.excused := by
  unfold Publication.excused
  rw [hchoices]
  cases hs : s.broken with
  | false => exact Bool.right_le_or _ _
  | true => rw [hbroken hs]

/-- **Steps of others.** -/
theorem Accounted.others (h : Accounted K mine calls me s v a) {t : Observed}
    (hshows : Shows K t.state w) (hle : v ≤ w)
    (hsame : t.state.tasks.get me = s.observed.state.tasks.get me)
    (hown : ∀ key, w.ownIn mine key = v.ownIn mine key) :
    Accounted K mine calls me { s with observed := t } w a where
  shows := hshows
  chosen := h.chosen
  meets := h.meets
  ensures := h.ensures.later ⟨hle, le_rfl⟩
  due key := by
    rw [hown]
    exact h.due key
  pending task htask x hx := by
    rw [hown]
    exact h.pending task (hsame.symm.trans htask) x hx
  idle hopen hnone key := by
    rw [hown]
    exact h.idle hopen (hsame.symm.trans hnone) key
  busy hopen task htask := by
    obtain ⟨topic, partition, messages, appended, next, hsession, hproducing, hsent⟩ :=
      h.busy hopen task (hsame.symm.trans htask)
    exact ⟨topic, partition, messages, appended, next, hsession, hproducing,
      fun key => (hown key).trans (hsent key)⟩
  closed := h.closed

/-- **The producer's request arrives.** -/
theorem Accounted.receive (h : Accounted K mine calls me s v a) {t : Observed} {request : Request}
    {task : Task} (hopen : s.broken = false) (hasked : s.asked.map Prod.fst = some request)
    (hnone : s.observed.state.tasks.get me = none) (hstart : start request = some task)
    (hshows : Shows K t.state v) (htask : t.state.tasks.get me = some task) :
    Accounted K mine calls me { s with observed := t } v a := by
  obtain ⟨x, hx, rfl⟩ := Option.map_eq_some_iff.1 hasked
  have hsession := publication_session hx
  have hmeets := h.meets
  rw [hsession] at hmeets
  obtain ⟨request, next⟩ := x
  -- a producer asks nothing else that starts a task
  obtain ⟨topic, partition, messages, rfl, rfl⟩ : ∃ topic partition messages,
      request = .produce topic partition messages ∧ task = .findTopic topic partition messages := by
    rcases start_cases hstart with ⟨name, n, rfl, rfl⟩ | ⟨topic, partition, messages, rfl, rfl⟩ |
      ⟨topic, partition, offset, maxMessages, rfl, rfl⟩
    · exact absurd hmeets.1 id
    · exact ⟨topic, partition, messages, rfl, rfl⟩
    · exact absurd hmeets.1 id
  obtain ⟨⟨-, -, hdue⟩, -⟩ := hmeets
  rw [h.chosen, ← h.idle hopen hnone] at hdue
  refine ⟨hshows, h.chosen, h.meets, h.ensures, h.due, ?_, ?_, ?_, h.closed⟩
  · intro task' htask' x hx
    cases htask.symm.trans htask'
    cases hx
    exact hdue
  · intro _ hnone'
    cases htask.symm.trans hnone'
  · intro _ task' htask'
    cases htask.symm.trans htask'
    refine ⟨topic, partition, messages, [], next, hsession, .finding, fun key => ?_⟩
    rw [h.idle hopen hnone, ite_self, List.append_nil]

/-- **What the producer's request appends** was due. -/
theorem Accounted.appends (hK : K.Lawful) (h : Accounted K mine calls me s v a)
    (hmine : ∀ call ∈ calls, ∀ m ∈ call.2, mine m = true)
    (hseparate : Separate K dirOf names s.observed.state) (hdirs : DirsApart dirOf names)
    {io : StepIo} {task : Task} {progress : Progress} {t : ServerState}
    (htask : s.observed.state.tasks.get me = some task)
    (hstep : TaskStep K dirOf overflowChecks io s.observed.state.server task progress t.server)
    (happends : task.Appends K dirOf io s.observed.state) (hshows : Shows K t w) :
    (∀ key, w.ownIn mine key = v.ownIn mine key ++ task.added key progress) ∧
    (∀ key, w.ownIn mine key <+: destinedFor calls s.chosen key) ∧
    ∀ task', progress = .waits task' → ∀ x ∈ task'.carried,
      w.ownIn mine x.1 ++ x.2 <+: destinedFor calls s.chosen x.1 := by
  have hdue : ∀ key, v.ownIn mine key ++ task.added key progress <+:
      destinedFor calls s.chosen key := by
    intro key
    by_cases hne : task.added key progress = []
    · rw [hne, List.append_nil]
      exact h.due key
    · exact h.pending task htask _ (hstep.added hne)
  have hown : ∀ key, w.ownIn mine key = v.ownIn mine key ++ task.added key progress := by
    intro key
    rw [LogService.ownIn, h.shows.advance hK hshows hseparate hdirs htask hstep happends,
      List.filter_append, filter_mine hmine (hdue key)]
    rfl
  refine ⟨hown, fun key => ?_, ?_⟩
  · rw [hown]
    exact hdue key
  · rintro task' rfl x hx
    rw [hown, hstep.added_of_carried hx, List.append_nil]
    exact h.pending task htask x (hstep.carried hx)

/-- **The producer's request takes a step.** -/
theorem Accounted.advance (hK : K.Lawful) (h : Accounted K mine calls me s v a)
    (hmine : ∀ call ∈ calls, ∀ m ∈ call.2, mine m = true)
    (hseparate : Separate K dirOf names s.observed.state) (hdirs : DirsApart dirOf names)
    {io : StepIo} {task : Task} {progress : Progress} {t : Observed}
    (htask : s.observed.state.tasks.get me = some task)
    (hstep : TaskStep K dirOf overflowChecks io s.observed.state.server task progress t.state.server)
    (htasks : t.state.tasks = settle me progress s.observed.state.tasks)
    (happends : task.Appends K dirOf io s.observed.state) (hshows : Shows K t.state w) (hle : v ≤ w) :
    ∃ a', Accounted K mine calls me (s.hear me progress.response t (.advance me io)) w a' := by
  obtain ⟨hown, hdue, hpending⟩ :=
    h.appends hK hmine hseparate hdirs htask hstep happends hshows
  have hpending' : ∀ task', t.state.tasks.get me = some task' → ∀ x ∈ task'.carried,
      w.ownIn mine x.1 ++ x.2 <+: destinedFor calls s.chosen x.1 := by
    intro task' htask' x hx
    rw [htasks] at htask'
    rcases get_settle htask' with ⟨-, hwaits⟩ | ⟨hne, -⟩
    · exact hpending task' hwaits x hx
    · exact absurd rfl hne
  by_cases hopen : s.broken = false
  · obtain ⟨topic, partition, messages, appended, next, hsession, hproducing, hsent⟩ :=
      h.busy hopen task htask
    have hasked := publication_asked hsession
    cases progress with
    | waits task' =>
      obtain ⟨appended', hproducing', happended⟩ := hproducing.goesOn hstep
      have hget : t.state.tasks.get me = some task' := by
        rw [htasks]
        exact Table.get_insert_self ..
      have hhear : s.hear me (Progress.waits task').response t (.advance me io) =
          { s with observed := t } := by
        simp only [Publication.hear]
        rw [if_pos ⟨trivial, hopen⟩]
        simp only [Progress.response, hget, Option.isNone_some, ← hopen]
      rw [hhear]
      refine ⟨a, hshows, h.chosen, h.meets, h.ensures.later ⟨hle, le_rfl⟩, hdue, hpending', ?_, ?_,
        h.closed⟩
      · intro _ hnone
        cases hget.symm.trans hnone
      · intro _ task'' htask''
        cases hget.symm.trans htask''
        refine ⟨topic, partition, messages, appended', next, hsession, hproducing', fun key => ?_⟩
        rw [hown, hsent, List.append_assoc, happended]
    | ends response =>
      have hget : t.state.tasks.get me = none := by
        rw [htasks]
        exact Table.get_remove_self ..
      cases response with
      | none =>
        have hhear : s.hear me (Progress.ends none).response t (.advance me io) =
            { s with observed := t, broken := true } := by
          simp only [Publication.hear]
          rw [if_pos ⟨trivial, hopen⟩]
          simp only [Progress.response, hget, Option.isNone_none]
        rw [hhear]
        have hexcused : s.excused ≤ ({ s with observed := t, broken := true } : Publication).excused :=
          excused_mono (fun _ => rfl) rfl
        refine ⟨a, hshows, h.chosen, h.meets, h.ensures.later ⟨hle, hexcused⟩,
          hdue, hpending', ?_, ?_, ?_⟩
        · rintro ⟨⟩
        · rintro ⟨⟩
        · intro _
          right
          change s.asked ≠ none
          rw [hasked]
          exact Option.some_ne_none _
      | some response =>
        have hhear : s.hear me (Progress.ends (some response)).response t (.advance me io) =
            { s with observed := t, session := next (.ok response) } := by
          simp only [Publication.hear]
          rw [if_pos ⟨trivial, hopen⟩]
          simp only [Progress.response, hasked]
        rw [hhear]
        have hmeets := h.meets
        have hensures := h.ensures
        rw [hsession] at hmeets hensures
        have hanswered : PublishedBy (v, s.excused)
            (.exchange (.produce topic partition messages)) (.ok response) :=
          fun hne log hlog => hproducing.replies h.shows hseparate htask hstep happends hne hlog
        -- the account after the response has what has been appended
        have hafter : ((publishingContract calls).after a
            (.exchange (.produce topic partition messages)) (.ok response)).chosen = a.chosen ∧
            ((publishingContract calls).after a
              (.exchange (.produce topic partition messages)) (.ok response)).isOpen = a.isOpen ∧
            ∀ key, ((publishingContract calls).after a
              (.exchange (.produce topic partition messages)) (.ok response)).sent key =
                a.sent key ++ if key = (topic, partition) then appended else [] := by
          rcases hproducing.ends hstep with ⟨rfl, base, count, rfl⟩ | ⟨rfl, e, rfl⟩
          · refine ⟨rfl, rfl, fun key => ?_⟩
            change Function.update a.sent (topic, partition) _ key = _
            by_cases hkey : key = (topic, partition)
            · subst hkey
              rw [Function.update_self, if_pos rfl]
            · rw [Function.update_of_ne hkey, if_neg hkey, List.append_nil]
          · refine ⟨rfl, rfl, fun key => ?_⟩
            rw [ite_self, List.append_nil]
            rfl
        have hadded : ∀ key, task.added key (.ends (some response)) = [] := by
          intro key
          cases task <;> rfl
        refine ⟨_, hshows, hafter.1.trans h.chosen, hmeets.2 _ trivial,
          (hensures.answer hanswered).later ⟨hle, le_rfl⟩, hdue, hpending', ?_, ?_, ?_⟩
        · intro _ _ key
          rw [hown, hadded, List.append_nil, hsent, hafter.2.2]
        · intro _ task' htask'
          cases hget.symm.trans htask'
        · intro hbroken
          cases hopen.symm.trans hbroken
  · have hhear : s.hear me progress.response t (.advance me io) = { s with observed := t } := by
      simp only [Publication.hear]
      rw [if_neg fun hboth => hopen hboth.2]
    rw [hhear]
    exact ⟨a, hshows, h.chosen, h.meets, h.ensures.later ⟨hle, le_rfl⟩, hdue, hpending',
      fun hclosed => absurd hclosed hopen, fun hclosed => absurd hclosed hopen, h.closed⟩

/-- **The partitions of a topic** are counted. -/
theorem Accounted.count (h : Accounted K mine calls me s v a) {topic : String}
    {next : Reply → Sending (Except Fault Unit × Producer)}
    (hasked : s.asked = some (.getPartitions topic, next)) (hopen : s.broken = false)
    (hidle : s.observed.state.tasks.get me = none) :
    Accounted K mine calls me { s with session := next (.ok
      (s.observed.state.server.topicManager.describePartitions topic)) } v a := by
  have hmeets := h.meets
  have hensures := h.ensures
  rw [publication_session hasked] at hmeets hensures
  have hanswered : PublishedBy (v, s.excused) (.exchange (.getPartitions topic)) (.ok
      (s.observed.state.server.topicManager.describePartitions topic)) := by
    intro n hcount
    rw [h.shows.counts] at hcount
    obtain ⟨handle, hget, rfl⟩ := Option.map_eq_some_iff.1 hcount
    simp only [TopicManager.describePartitions, TopicManager.getTopic, hget]
  refine ⟨h.shows, h.chosen, hmeets.2 (.ok _) trivial, hensures.answer hanswered, h.due, h.pending,
    h.idle, ?_, ?_⟩
  · intro _ task htask
    cases hidle.symm.trans htask
  · intro hbroken
    cases hopen.symm.trans hbroken

/-- While the producer exchanges no request, the server works on none of an open connection. -/
theorem Accounted.no_task (h : Accounted K mine calls me s v a) (hasked : s.asked = none)
    (hopen : s.broken = false) : s.observed.state.tasks.get me = none := by
  by_contra hne
  obtain ⟨task, htask⟩ := Option.ne_none_iff_exists'.1 hne
  obtain ⟨topic, partition, messages, appended, next, hsession, -⟩ := h.busy hopen task htask
  cases hasked.symm.trans (publication_asked hsession)

/-- **A partition is chosen.** -/
theorem Accounted.choose (h : Accounted K mine calls me s v a) {k : Option ByteString.Bytes} {n : Nat}
    {next : Except Fault Nat → Sending (Except Fault Unit × Producer)}
    (hsession : s.session = .ask (.partition k n) next) (choice : Except Fault Nat) :
    ∃ a', Accounted K mine calls me { s with
      session := next choice, choices := s.choices ++ [(n, choice)] } v a' := by
  have hmeets := h.meets
  have hensures := h.ensures
  rw [hsession] at hmeets hensures
  have hasked : s.asked = none := by
    unfold Publication.asked
    rw [hsession]
  have hchosen : ({ s with session := next choice, choices := s.choices ++ [(n, choice)] } :
      Publication).chosen = s.chosen ++ choice.toOption.toList := by
    unfold Publication.chosen
    rw [List.filterMap_append]
    cases choice <;> rfl
  have hafter : (publishingContract calls).after a (.partition k n) choice =
      { a with chosen := a.chosen ++ choice.toOption.toList } := by
    cases choice with
    | error e => exact congrArg (fun chosen => { a with chosen := chosen }) (List.append_nil _).symm
    | ok partition => rfl
  have hmore : ∀ key, destinedFor calls s.chosen key <+:
      destinedFor calls (s.chosen ++ choice.toOption.toList) key :=
    destinedFor_isPrefix calls s.chosen _
  have hexcused : s.excused ≤ ({ s with
      session := next choice, choices := s.choices ++ [(n, choice)] } : Publication).excused := by
    unfold Publication.excused
    rw [List.all_append, Bool.not_and, ← Bool.or_assoc]
    exact Bool.left_le_or _ _
  have hanswered : PublishedBy (v, ({ s with
      session := next choice, choices := s.choices ++ [(n, choice)] } : Publication).excused)
      (.partition k n) choice := by
    by_cases hrange : Publication.inRange (n, choice) = true
    · right
      cases choice with
      | error e => cases hrange
      | ok partition => exact ⟨partition, rfl, of_decide_eq_true hrange⟩
    · left
      simp [Publication.excused, hrange]
  have hle : (v, s.excused) ≤ (v, ({ s with
      session := next choice, choices := s.choices ++ [(n, choice)] } : Publication).excused) :=
    ⟨le_rfl, hexcused⟩
  refine ⟨_, h.shows, ?_, hmeets.2 _ trivial, (hensures.later hle).answer hanswered, ?_, ?_, ?_, ?_,
    ?_⟩
  · rw [hafter, hchosen, h.chosen]
  · intro key
    rw [hchosen]
    exact (h.due key).trans (hmore key)
  · intro task htask x hx
    rw [hchosen]
    exact (h.pending task htask x hx).trans (hmore x.1)
  · intro hopen hnone key
    rw [hafter]
    exact h.idle hopen hnone key
  · intro hopen task htask
    cases (h.no_task hasked hopen).symm.trans htask
  · intro hbroken
    rw [hafter]
    exact Or.inl ((h.closed hbroken).resolve_right fun hne => hne hasked)

/-- **The batches** are ordered. -/
theorem Accounted.iterate (h : Accounted K mine calls me s v a) {batches : Table Nat (List Message)}
    {next : { order : List Nat // batches.Order order } → Sending (Except Fault Unit × Producer)}
    (hsession : s.session = .ask (.iterate batches) next)
    (order : { order : List Nat // batches.Order order }) :
    Accounted K mine calls me { s with session := next order } v a := by
  have hmeets := h.meets
  have hensures := h.ensures
  rw [hsession] at hmeets hensures
  have hasked : s.asked = none := by
    unfold Publication.asked
    rw [hsession]
  refine ⟨h.shows, h.chosen, hmeets.2 _ trivial, hensures.answer trivial, h.due, h.pending, h.idle,
    ?_, ?_⟩
  · intro hopen task htask
    cases (h.no_task hasked hopen).symm.trans htask
  · intro hbroken
    exact Or.inl ((h.closed hbroken).resolve_right fun hne => hne hasked)

/-- **The connection fails.** -/
theorem Accounted.disconnect (h : Accounted K mine calls me s v a)
    {x : Request × (Reply → Sending (Except Fault Unit × Producer))} (hasked : s.asked = some x)
    (e : GaffaError) : ∃ a', Accounted K mine calls me
      { s with session := x.2 (.error e), broken := true } v a' := by
  have hmeets := h.meets
  have hensures := h.ensures
  rw [publication_session hasked] at hmeets hensures
  have hafter : (publishingContract calls).after a (.exchange x.1) (.error e) =
      { a with isOpen := false } := by
    cases x.1 <;> rfl
  have hexcused : s.excused ≤ ({ s with
      session := x.2 (.error e), broken := true } : Publication).excused :=
    excused_mono (fun _ => rfl) rfl
  have hanswered : PublishedBy (v, ({ s with
      session := x.2 (.error e), broken := true } : Publication).excused) (.exchange x.1)
      (.error e) := by
    cases x.1 <;> rfl
  have hle : (v, s.excused) ≤ (v, ({ s with
      session := x.2 (.error e), broken := true } : Publication).excused) := ⟨le_rfl, hexcused⟩
  refine ⟨_, h.shows, ?_, hmeets.2 _ trivial, (hensures.later hle).answer hanswered, h.due,
    h.pending, ?_, ?_, ?_⟩
  · rw [hafter]
    exact h.chosen
  · rintro ⟨⟩
  · rintro ⟨⟩
  · intro _
    left
    rw [hafter]

theorem hear_observed (response : Option Response) (t : Observed) (s : Publication)
    (e : ServerEvent) : (s.hear me response t e).observed = t := by
  cases e with
  | advance id io =>
    simp only [Publication.hear]
    split
    · split <;> rfl
    · rfl
  | _ => rfl

/-- Others carry messages of others. -/
theorem foreign_next {s t : ServerState} {e : ServerEvent}
    (h : ∀ id, id ≠ me → ∀ task, s.tasks.get id = some task →
      ∀ x ∈ task.carried, ∀ m ∈ x.2, mine m = false)
    (hstep : serverNext K dirOf overflowChecks s e = some t)
    (hforeign : ∀ id request, e = .receive id request → id ≠ me → ∀ x ∈ request.sent,
      mine x.2 = false) :
    ∀ id, id ≠ me → ∀ task, t.tasks.get id = some task →
      ∀ x ∈ task.carried, ∀ m ∈ x.2, mine m = false := by
  intro k hk task htask x hx m hm
  cases e with
  | receive id request =>
    obtain ⟨task', hnone, -, hstart, rfl⟩ := serverNext_receive hstep
    rcases Table.get_insert_cases htask with ⟨rfl, rfl⟩ | ⟨-, htask⟩
    · rcases start_cases hstart with ⟨name, n, rfl, rfl⟩ | ⟨topic, partition, messages, rfl, rfl⟩ |
        ⟨topic, partition, offset, maxMessages, rfl, rfl⟩
      · cases hx
      · cases hx
        exact hforeign k _ rfl hk _ (List.mem_map_of_mem hm)
      · cases hx
    · exact h k hk task htask x hx m hm
  | advance id io =>
    obtain ⟨task', progress, htask', -, hadvance, htasks⟩ := serverNext_step hstep
    rw [htasks] at htask
    rcases get_settle htask with ⟨rfl, rfl⟩ | ⟨-, htask⟩
    · exact h k hk task' htask' x (hadvance.carried hx) m hm
    · exact h k hk task htask x hx m hm
  | registerBroker now brokerId host port =>
    cases hstep
    exact h k hk task htask x hx m hm
  | updateReplicaOffset topic partition brokerId offset =>
    cases hstep
    exact h k hk task htask x hx m hm

/-- **A step of the server.** -/
theorem OnCourse.server (hK : K.Lawful) (h : OnCourse K dirOf names mine calls me s)
    (hmine : ∀ call ∈ calls, ∀ m ∈ call.2, mine m = true) (hdirs : DirsApart dirOf names)
    {e : ServerEvent} (hpermits : s.Permits me e) {o : Observed}
    (hstep : Observed.next K dirOf overflowChecks s.observed e = some o)
    (hcalm : Calm K dirOf names s.observed.state e o.state)
    (hforeign : ∀ id request, e = .receive id request → id ≠ me → ∀ x ∈ request.sent,
      mine x.2 = false) :
    OnCourse K dirOf names mine calls me
      (s.hear me (answer K dirOf overflowChecks s.observed.state e) o e) := by
  have hseparate := h.orderly.separate
  have hstate := Observed.next_state hstep
  have horderly := h.orderly.next hK hdirs hstep ⟨hcalm, fun _ _ _ _ => trivial⟩
  obtain ⟨v, a, haccount⟩ := h.account
  refine ⟨?_, ?_, ?_⟩
  · rw [hear_observed]
    exact horderly
  · rw [hear_observed]
    exact foreign_next h.foreign hstate hforeign
  cases e with
  | receive id request =>
    obtain ⟨task, hnone, -, hstart, hreceived⟩ := serverNext_receive hstate
    have hshows : Shows K o.state v := by
      rw [hreceived]
      exact ⟨haccount.shows.counts, haccount.shows.logs⟩
    by_cases hid : id = me
    · subst hid
      obtain ⟨hopen, hasked⟩ := hpermits rfl
      refine ⟨v, a, haccount.receive hopen hasked hnone hstart hshows ?_⟩
      rw [hreceived]
      exact Table.get_insert_self ..
    · refine ⟨v, a, haccount.others hshows le_rfl ?_ fun _ => rfl⟩
      rw [hreceived]
      exact Table.get_insert_ne _ (Ne.symm hid)
  | advance id io =>
    obtain ⟨task, htask, -, hserver, htasks⟩ := serverNext_advance hstate
    have hadvance : TaskStep K dirOf overflowChecks io s.observed.state.server task _ _ :=
      advance_step io s.observed.state.server task
    rw [← hserver] at hadvance
    rw [answer_advance htask]
    generalize (task.advance K dirOf overflowChecks io s.observed.state.server).1 = progress
      at hadvance htasks ⊢
    have happends := hcalm.2.2.2 id io rfl task htask
    obtain ⟨w, hshows⟩ := exists_shows horderly.separate
    have hle := haccount.shows.next hK hshows hseparate hdirs hstate hcalm.2.2
    by_cases hid : id = me
    · subst hid
      obtain ⟨a', haccount'⟩ := haccount.advance hK hmine hseparate hdirs htask hadvance htasks
        happends hshows hle
      exact ⟨w, a', haccount'⟩
    · have hhear : s.hear me progress.response o (.advance id io) = { s with observed := o } := by
        simp only [Publication.hear]
        rw [if_neg fun hboth => hid hboth.1]
      rw [hhear]
      refine ⟨w, a, haccount.others hshows hle ?_ fun key => ?_⟩
      · rw [htasks]
        unfold settle
        split
        · exact Table.get_insert_ne _ (Ne.symm hid)
        · exact Table.get_remove_ne (Ne.symm hid)
      · -- what others append is not the producer's
        have hnone : (task.added key progress).filter mine = [] := by
          rw [List.filter_eq_nil_iff]
          intro m hm
          have hne : task.added key progress ≠ [] := List.ne_nil_of_mem hm
          rw [h.foreign id hid task htask _ (hadvance.added hne) m hm]
          exact Bool.false_ne_true
        rw [LogService.ownIn, haccount.shows.advance hK hshows hseparate hdirs htask hadvance happends,
          List.filter_append, hnone, List.append_nil]
        rfl
  | registerBroker now brokerId host port =>
    have hreceived := Option.some_inj.1 hstate
    refine ⟨v, a, haccount.others ?_ le_rfl ?_ fun _ => rfl⟩
    · rw [← hreceived]
      exact ⟨haccount.shows.counts, haccount.shows.logs⟩
    · rw [← hreceived]
  | updateReplicaOffset topic partition brokerId offset =>
    have hreceived := Option.some_inj.1 hstate
    refine ⟨v, a, haccount.others ?_ le_rfl ?_ fun _ => rfl⟩
    · rw [← hreceived]
      exact ⟨haccount.shows.counts, haccount.shows.logs⟩
    · rw [← hreceived]

/-- **Every step of the system.** -/
theorem OnCourse.next (hK : K.Lawful) (h : OnCourse K dirOf names mine calls me s)
    (hmine : ∀ call ∈ calls, ∀ m ∈ call.2, mine m = true) (hdirs : DirsApart dirOf names)
    {e : PublicationEvent} (hstep : s.next K dirOf overflowChecks me e = some t)
    (hcalm : CalmPublication K dirOf names mine me s e t) :
    OnCourse K dirOf names mine calls me t := by
  obtain ⟨v, a, haccount⟩ := h.account
  cases e with
  | server e =>
    obtain ⟨hpermits, hstep⟩ := Option.ite_none_right_eq_some.1 hstep
    obtain ⟨o, ho, rfl⟩ := Option.map_eq_some_iff.1 hstep
    obtain ⟨hcalm, hforeign⟩ := hcalm
    rw [hear_observed] at hcalm
    exact h.server hK hmine hdirs hpermits ho hcalm hforeign
  | count =>
    simp only [Publication.next] at hstep
    split at hstep
    · rename_i topic next hasked
      obtain ⟨⟨hopen, hidle⟩, hstep⟩ := Option.ite_none_right_eq_some.1 hstep
      cases hstep
      exact ⟨h.orderly, h.foreign, v, a, haccount.count hasked hopen hidle⟩
    · cases hstep
  | choose choice =>
    simp only [Publication.next] at hstep
    split at hstep
    · rename_i key n next hsession
      cases hstep
      obtain ⟨a', haccount'⟩ := haccount.choose hsession choice
      exact ⟨h.orderly, h.foreign, v, a', haccount'⟩
    · cases hstep
  | iterate order =>
    simp only [Publication.next] at hstep
    split at hstep
    · rename_i batches next hsession
      split at hstep
      · cases hstep
        exact ⟨h.orderly, h.foreign, v, a, haccount.iterate hsession _⟩
      · cases hstep
    · cases hstep
  | disconnect error =>
    obtain ⟨x, hasked, rfl⟩ := Option.map_eq_some_iff.1 hstep
    obtain ⟨a', haccount'⟩ := haccount.disconnect hasked error
    exact ⟨h.orderly, h.foreign, v, a', haccount'⟩

/-- **The beginning.** -/
theorem OnCourse.begin {observed : Observed}
    (h : Orderly K dirOf names (fun _ m => mine m = false) observed)
    (hidle : observed.state.tasks.get me = none) (hcreated : ∀ call ∈ calls, call.1 ∈ observed.created) :
    OnCourse K dirOf names mine calls me (.begin observed (Producer.sendCalls calls .new)) := by
  obtain ⟨v, hshows⟩ := exists_shows h.separate
  have hnone : ∀ key, v.ownIn mine key = [] := by
    intro key
    rw [LogService.ownIn, List.filter_eq_nil_iff]
    intro m hm
    cases hlog : v.logs key with
    | none =>
      rw [hlog] at hm
      cases hm
    | some log =>
      rw [hlog] at hm
      rw [h.vouched.stored key log ((hshows.logs key log).1 hlog) m hm]
      exact Bool.false_ne_true
  have hstart : ∀ key, destinedFor calls [] key = [] := by
    intro key
    rw [destinedFor, destined, List.zipWith_nil_right, valuesFor_nil]
  refine ⟨⟨h.separate, h.observes, h.narrow, ⟨fun _ _ _ _ _ _ _ => trivial,
    fun _ _ _ _ _ _ _ _ => trivial, fun _ _ _ _ _ => trivial⟩⟩, ?_, v, ⟨fun _ => [], [], true⟩, ?_⟩
  · intro id _ task htask x hx m hm
    cases task with
    | findTopic topic partition messages =>
      cases hx
      exact h.vouched.finding id topic partition messages htask m hm
    | append handle topic partition messages =>
      cases hx
      exact h.vouched.appending id handle topic partition messages htask m hm
    | _ => cases hx
  · refine ⟨hshows, rfl, ?_, ?_, ?_, ?_, ?_, ?_, ?_⟩
    · exact meets_sendCalls (List.nil_append _).symm ⟨rfl, rfl, fun key => (hstart key).symm⟩
    · refine ensures_sendCalls (fun call hcall => ?_) fun topic n hget => ?_
      · obtain ⟨handle, hget⟩ := h.observes.existing call.1 (hcreated call hcall)
        exact ⟨_, by rw [hshows.counts, hget, Option.map_some]⟩
      · cases hget
    · intro key
      rw [hnone]
      exact List.nil_prefix
    · intro task htask
      cases hidle.symm.trans htask
    · exact fun _ _ key => hnone key
    · intro _ task htask
      cases hidle.symm.trans htask
    · rintro ⟨⟩

end Steps

/-- **From a producer to the logs**: in every run in which topics are created one at a time and appends
succeed, whatever others send meanwhile, each partition has the producer's messages in the order in which
they were given, each once, up to one that is not there yet.  If the calls end without an error, they are
all there; and on topics whose creation was reported they do, unless the connection fails or the
partitioner panics or leaves the range of the topic. -/
theorem published_in_order (hK : K.Lawful) (cluster : ClusterMetadata) (replicationFactor : Nat)
    (hdirs : DirsApart dirOf names) {mine : Message → Bool} {before : List (ServerEvent × Observed)}
    (hbefore : Run (Steps (Observed.next K dirOf overflowChecks))
      (Observed.new cluster replicationFactor) before)
    (hcalm₀ : EachStep (CalmServer K dirOf names fun _ m => mine m = false)
      (Observed.new cluster replicationFactor) before)
    {observed : Observed} (hobserved : last (Observed.new cluster replicationFactor) before = observed)
    {me : Nat} (hidle : observed.state.tasks.get me = none) {calls : List (String × List Message)}
    (hcreated : ∀ call ∈ calls, call.1 ∈ observed.created)
    (hmine : ∀ call ∈ calls, ∀ m ∈ call.2, mine m = true) {start : Publication}
    (hstart : start = .begin observed (Producer.sendCalls calls .new))
    {tr : List (PublicationEvent × Publication)}
    (hrun : Run (Steps (Publication.next K dirOf overflowChecks me)) start tr)
    (hcalm : EachStep (CalmPublication K dirOf names mine me) start tr) :
    ∃ v, Shows K (last start tr).observed.state v ∧
      (∀ key, v.ownIn mine key <+: destinedFor calls (last start tr).chosen key) ∧
      ∀ result p, (last start tr).session = .done (result, p) →
        (result = .ok () → (last start tr).chosen.length = (given calls).length ∧
          ∀ key, v.ownIn mine key = destinedFor calls (last start tr).chosen key) ∧
        ((last start tr).excused = false → result = .ok ()) := by
  have horderly := (throughout_of_invariant (I := Orderly K dirOf names fun _ m => mine m = false)
    (fun _ _ _ h hstep hcalm => h.next hK hdirs hstep hcalm)
    (orderly_new cluster replicationFactor) hbefore hcalm₀).at_last
  rw [hobserved] at horderly
  subst hstart
  have hlast := (throughout_of_invariant (I := OnCourse K dirOf names mine calls me)
    (fun _ _ _ h hstep hcalm => h.next hK hmine hdirs hstep hcalm)
    (OnCourse.begin horderly hidle hcreated) hrun hcalm).at_last
  generalize last (.begin observed (Producer.sendCalls calls .new)) tr = s at hlast ⊢
  obtain ⟨v, a, h⟩ := hlast.account
  refine ⟨v, h.shows, h.due, fun result p hsession => ⟨?_, fun hexcused => ?_⟩⟩
  · rintro rfl
    have hasked : s.asked = none := by
      unfold Publication.asked
      rw [hsession]
    have hmeets := h.meets
    rw [hsession] at hmeets
    have hsent := hmeets rfl
    have hopen : s.broken = false := by
      rw [← Bool.not_eq_true]
      intro hbroken
      rcases h.closed hbroken with hclosed | hne
      · cases hclosed.symm.trans hsent.isOpen
      · exact hne hasked
    rw [← h.chosen]
    exact ⟨hsent.chosen, fun key =>
      (h.idle hopen (h.no_task hasked hopen) key).trans (hsent.sent key)⟩
  · have hensures := h.ensures
    rw [hsession] at hensures
    rcases hensures.result with hexcused' | hok
    · cases hexcused.symm.trans hexcused'
    · exact hok

/-! ## A run -/

instance decidableCalmPublication [∀ name, Decidable (name ∈ names)] (mine : Message → Bool) (me : Nat)
    (s : Publication) : ∀ e t, Decidable (CalmPublication K dirOf names mine me s e t)
  | .server e, t =>
    have : Decidable (Calm K dirOf names s.observed.state e t.observed.state) :=
      decidable_of_iff (CalmServer K dirOf names (fun _ _ => True) s.observed e t.observed)
        ⟨fun h => h.1, fun h => ⟨h, fun _ _ _ _ => trivial⟩⟩
    have : Decidable (∀ id request, e = .receive id request → id ≠ me → ∀ x ∈ request.sent,
        mine x.2 = false) :=
      match e with
      | .receive id request => decidable_of_iff (id ≠ me → ∀ x ∈ request.sent, mine x.2 = false)
          ⟨fun h _ _ heq => (by cases heq; exact h), fun h => h id request rfl⟩
      | .advance .. => isTrue fun _ _ heq => nomatch heq
      | .registerBroker .. => isTrue fun _ _ heq => nomatch heq
      | .updateReplicaOffset .. => isTrue fun _ _ heq => nomatch heq
    inferInstanceAs (Decidable (_ ∧ _))
  | .count, _ => isTrue trivial
  | .choose _, _ => isTrue trivial
  | .iterate _, _ => isTrue trivial
  | .disconnect _, _ => isTrue trivial

/-- A topic with two partitions is created. -/
def ordersCreated : List ServerEvent :=
  .receive 0 (.createTopic "orders" 2) :: List.replicate 7 (plainStep 0 [])

/-- A message of the producer. -/
def keyed (b : UInt8) : Message := ⟨some [1], [b], 0⟩

/-- Two of its messages go to partition 1, another one to partition 0. -/
def threeKeyed : List (String × List Message) := [("orders", [keyed 10, keyed 20, keyed 30])]

/-- While they are sent, another client sends a message to partition 1. -/
def publishing : List PublicationEvent :=
  [.count, .choose (.ok 1), .choose (.ok 0), .choose (.ok 1), .iterate [1, 0]] ++
  ([.receive 9 (.produce "orders" 1 [keyed 10, keyed 30]), .receive 2 (.produce "orders" 1 [oneByte 7]),
    plainStep 9 [], plainStep 2 [], plainStep 2 [], plainStep 9 [], plainStep 2 [], plainStep 9 [],
    .receive 9 (.produce "orders" 0 [keyed 20]), plainStep 9 [], plainStep 9 [], plainStep 9 []] :
      List ServerEvent).map .server

/-- The result of the calls. -/
def Publication.result (s : Publication) : Option (Except Fault Unit × Producer) :=
  match s.session with
  | .done r => some r
  | .ask _ _ => none

/-- The producer before its calls. -/
def publisher (before : List (ServerEvent × Observed)) : Publication :=
  .begin (last freshServer before) (Producer.sendCalls threeKeyed .new)

theorem published_in_order_twoPartitions :
    ∃ before tr p v,
      trace (Observed.next plainCrates plainDir true) freshServer ordersCreated = some before ∧
      trace (Publication.next plainCrates plainDir true 9) (publisher before) publishing = some tr ∧
      (last (publisher before) tr).session = .done (.ok (), p) ∧
      Shows plainCrates (last (publisher before) tr).observed.state v ∧
      ∀ key, v.ownIn (fun m => m.key.isSome) key = destinedFor threeKeyed [1, 0, 1] key := by
  obtain ⟨before, hbefore⟩ := Option.isSome_iff_exists.1 (show (trace
    (Observed.next plainCrates plainDir true) freshServer ordersCreated).isSome = true by decide +kernel)
  have hfirst : ∀ before ∈ trace (Observed.next plainCrates plainDir true) freshServer ordersCreated,
      EachStep (CalmServer plainCrates plainDir {name | name = "orders"}
        fun _ m => m.key.isSome = false) freshServer before ∧
      (last freshServer before).state.tasks.get 9 = none ∧
      (∀ call ∈ threeKeyed, call.1 ∈ (last freshServer before).created) ∧
      (trace (Publication.next plainCrates plainDir true 9) (publisher before)
        publishing).isSome = true ∧
      ∀ tr ∈ trace (Publication.next plainCrates plainDir true 9) (publisher before) publishing,
        EachStep (CalmPublication plainCrates plainDir {name | name = "orders"}
          (fun m => m.key.isSome) 9) (publisher before) tr ∧
        (last (publisher before) tr).chosen = [1, 0, 1] ∧
        (last (publisher before) tr).result.isSome = true ∧
        (last (publisher before) tr).excused = false := by
    decide +kernel
  obtain ⟨hcalm₀, hidle, hcreated, hsome, hrest⟩ := hfirst before hbefore
  obtain ⟨tr, htr⟩ := Option.isSome_iff_exists.1 hsome
  obtain ⟨hcalm, hchosen, hresult, hexcused⟩ := hrest tr htr
  obtain ⟨⟨result, p⟩, hresult⟩ := Option.isSome_iff_exists.1 hresult
  have hend : (last (publisher before) tr).session = .done (result, p) := by
    unfold Publication.result at hresult
    split at hresult
    · rename_i r hsession
      cases hresult
      exact hsession
    · cases hresult
  obtain ⟨v, hshows, -, hdone⟩ := published_in_order plainCrates_lawful (ClusterMetadata.new 0 30000 10)
    1 dirsApart_orders (run_of_trace hbefore) hcalm₀ rfl hidle hcreated (by decide)
    (show publisher before = _ from rfl) (run_of_trace htr) hcalm
  obtain ⟨hall, hok⟩ := hdone result p hend
  obtain rfl := hok hexcused
  obtain ⟨-, hown⟩ := hall rfl
  rw [hchosen] at hown
  exact ⟨before, tr, p, v, hbefore, htr, hend, hshows, hown⟩

end Gaffa
