import Gaffa.Broker.LogService
import Gaffa.Client.Polls
import Gaffa.Lib.Clients

/-!
# A subscriber

The part of `client/src/consumer.rs` that needs no group: `subscribe`, `seek` and `poll`, as in
`examples/subscription_consumer.rs`.  What a subscriber takes from a service that others append to.

* `ensures_subscribe`, `ensures_fetchAll`, `ensures_pollAll`: what the operations ensure, whatever
  happens between the answers to their requests.
* `ensures_session`: a whole session takes what is in the logs, without gaps, and all of it that it
  has room for and that was there when the session began.
-/

set_option autoImplicit false

namespace Gaffa

open Transition Dialogue

namespace Consumer

/-! ## Subscribing -/

/-- What `get_topic_metadata` makes of a reply. -/
def described (topic : String) : Reply → Except Fault TopicMetadata
  | .error e => .error (.error e)
  | .ok (.metadata []) => .error (.error (.topicNotFound topic))
  | .ok (.metadata (metadata :: _)) => .ok metadata
  | .ok (.metadataError error) => protocolError error
  | .ok _ => protocolError "Unexpected response"

/-- `Consumer::get_topic_metadata`. -/
def getTopicMetadata (topic : String) : Client (Except Fault TopicMetadata) := do
  let reply ← exchange (.getMetadata [topic])
  return described topic reply

/-- `Consumer::seek`. -/
def seek (topic : String) (partition offset : Nat) (c : Consumer) : Consumer :=
  c.setOffset (topic, partition) offset

/-- One iteration of the loop of `subscribe`, with the metadata of the topic. -/
def subscribeTo (topic : String) (metadata : TopicMetadata) (c : Consumer) : Consumer :=
  let partitionIds := List.range (metadata.partitions.length % 2 ^ 32)
  partitionIds.foldl (fun c partitionId => c.setOffset (topic, partitionId) 0)
    { c with subscriptions := c.subscriptions.insert topic partitionIds }

/-- `Consumer::subscribe`. -/
def subscribe : List String → Consumer → Client (Except Fault Unit × Consumer)
  | [], c => finish (.ok ()) c
  | topic :: topics, c => do
    match ← getTopicMetadata topic with
    | .error e => finish (.error e) c
    | .ok metadata => subscribe topics (c.subscribeTo topic metadata)

/-! ## A session -/

/-- Calls of `poll`, until one of them fails: how many messages each may take, and the order in which it
visits the topics. -/
def pollAll (overflowChecks : Bool) :
    List (Nat × List String) → List Record → Consumer → Client (Except Fault (List Record) × Consumer)
  | [], taken, c => finish (.ok taken) c
  | (maxMessages, topics) :: polls, taken, c => do
    match ← c.poll overflowChecks maxMessages topics with
    | (.error e, c') => finish (.error e) c'
    | (.ok records, c') => pollAll overflowChecks polls (taken ++ records) c'

/-- Calls of `seek`. -/
def seekAll (seeks : List (TopicPartition × Nat)) (c : Consumer) : Consumer :=
  seeks.foldl (fun c s => c.seek s.1.1 s.1.2 s.2) c

/-- A program that subscribes to topics, seeks, and polls; its result is what it has taken. -/
def session (overflowChecks : Bool) (topics : List String) (seeks : List (TopicPartition × Nat))
    (polls : List (Nat × List String)) (c : Consumer) :
    Client (Except Fault (List Record) × Consumer) := do
  match ← c.subscribe topics with
  | (.error e, c') => finish (.error e) c'
  | (.ok _, c') => pollAll overflowChecks polls [] (c'.seekAll seeks)

end Consumer

/-- The offset from which a subscriber polls a partition after these calls of `seek`. -/
def startAt (seeks : List (TopicPartition × Nat)) (key : TopicPartition) : Nat :=
  seeks.foldl (fun start s => if key = s.1 then s.2 else start) 0

/-! ## What a subscriber relies on -/

/-- What the answers are, from a service and a connection that may have failed. -/
def AnsweredBy (s : LogService × Bool) : (e : Effect) → e.Answer → Prop
  | .exchange request, .ok response => s.1.Replies request response
  | .exchange _, .error _ => s.2 = true
  | _, _ => True

/-- The operation has succeeded, with the property, or the connection has failed. -/
def Succeeds {α : Type} (post : LogService → α → Consumer → Prop) (s : LogService × Bool)
    (r : Except Fault α × Consumer) : Prop :=
  (∃ a, r.1 = .ok a ∧ post s.1 a r.2) ∨ (∃ e, r.1 = .error e) ∧ s.2 = true

/-- The records come from the logs of these partitions, from each in the order of their offsets from the
consumer's position on. -/
structure Took (v : LogService) (keys : Set TopicPartition) (c : Consumer) (records : List Record)
    (c' : Consumer) : Prop where
  polled : Polled c records c'
  only : ∀ r ∈ records, (r.topic, r.partition) ∈ keys
  logged : ∀ r ∈ records, ∃ log, v.logs (r.topic, r.partition) = some log ∧
    log[r.offset]? = some r.message

/-- From `c` to `c'` the consumer went as far in these partitions as `n` messages of each allow, in the
logs of the service. -/
def CatchesUp (v : LogService) (n : Nat) (keys : Set TopicPartition) (c c' : Consumer) : Prop :=
  ∀ key ∈ keys, ∀ log, v.logs key = some log → min (c.position key + n) log.length ≤ c'.position key

/-- The consumer has subscribed to all partitions of the topic. -/
def SubscribedTo (v : LogService) (c : Consumer) (topic : String) : Prop :=
  ∃ n, v.counts topic = some n ∧ c.subscriptions.get topic = some (List.range n)

section Rules

variable {s : LogService × Bool} {v w : LogService} {keys : Set TopicPartition}
  {c c' c'' : Consumer} {α : Type} {post : LogService → α → Consumer → Prop}

theorem Took.refl (v : LogService) (keys : Set TopicPartition) (c : Consumer) :
    Took v keys c [] c :=
  ⟨Polled.refl c, List.forall_mem_nil _, List.forall_mem_nil _⟩

theorem Took.later {records : List Record} (h : Took v keys c records c') (hle : v ≤ w) :
    Took w keys c records c' := by
  refine ⟨h.polled, h.only, fun r hr => ?_⟩
  obtain ⟨log, hlog, hget⟩ := h.logged r hr
  obtain ⟨more, hmore⟩ := hle.2 _ log hlog
  have hlt := (List.getElem?_eq_some_iff.1 hget).1
  exact ⟨log ++ more, hmore, by rw [List.getElem?_append_left hlt, hget]⟩

theorem Took.trans {records records' : List Record} (h : Took v keys c records c')
    (h' : Took v keys c' records' c'') : Took v keys c (records ++ records') c'' := by
  refine ⟨h.polled.trans h'.polled, fun r hr => ?_, fun r hr => ?_⟩
  · exact (List.mem_append.1 hr).elim (h.only r) (h'.only r)
  · exact (List.mem_append.1 hr).elim (h.logged r) (h'.logged r)

theorem Took.position_le {records : List Record} (h : Took v keys c records c')
    (key : TopicPartition) :
    c.position key ≤ c'.position key := by
  rw [h.polled.position]
  exact Nat.le_add_right _ _

/-- The end of an operation that succeeds. -/
theorem ensures_ok {a : α} (h : ∀ v, s.1 ≤ v → post v a c) :
    Ensures AnsweredBy (Succeeds post) s (Consumer.finish (.ok a) c) :=
  fun t ht => Or.inl ⟨a, rfl, h t.1 ht.1⟩

/-- The end of an operation on a connection that has failed. -/
theorem ensures_error {e : Fault} (h : s.2 = true) :
    Ensures AnsweredBy (Succeeds post) s (Consumer.finish (.error e) c) :=
  fun _ ht => Or.inr ⟨⟨e, rfl⟩, ht.2 h⟩

/-- **Sequencing** of operations: the second one is ensured what the first one ensures. -/
theorem ensures_then {β : Type} {post' : LogService → β → Consumer → Prop}
    {d : Client (Except Fault α × Consumer)}
    {f : Except Fault α × Consumer → Client (Except Fault β × Consumer)}
    (h : Ensures AnsweredBy (Succeeds post) s d)
    (herror : ∀ e c, f (.error e, c) = Consumer.finish (.error e) c)
    (hok : ∀ t, s ≤ t → ∀ a c, post t.1 a c →
      Ensures AnsweredBy (Succeeds post') t (f (.ok a, c))) :
    Ensures AnsweredBy (Succeeds post') s (d >>= f) := by
  refine Ensures.bind (h.mono ?_)
  rintro t ht ⟨result, c⟩ hr
  rcases hr with ⟨a, rfl, ha⟩ | ⟨⟨e, rfl⟩, hbroken⟩
  · exact hok t ht a c ha
  · rw [herror]
    exact ensures_error hbroken

/-- An operation ensures less. -/
theorem ensures_mono {post' : LogService → α → Consumer → Prop}
    {d : Client (Except Fault α × Consumer)} (h : Ensures AnsweredBy (Succeeds post) s d)
    (hpost : ∀ v, s.1 ≤ v → ∀ a c, post v a c → post' v a c) :
    Ensures AnsweredBy (Succeeds post') s d := by
  refine h.mono fun t ht r hr => hr.imp_left ?_
  rintro ⟨a, ha, hpost'⟩
  exact ⟨a, ha, hpost t.1 ht.1 a r.2 hpost'⟩

end Rules

/-! ## Fetches -/

theorem follows_iff {topic : String} {partition offset : Nat} {records : List Record} :
    Follows topic partition offset records ↔ ∀ i r, records[i]? = some r → r.topic = topic ∧
      r.partition = partition ∧ r.offset = offset + i ∧ offset + i + 1 < 2 ^ 64 := by
  induction records generalizing offset with
  | nil => exact iff_of_true trivial fun i r h => by cases h
  | cons r records ih =>
    simp only [Follows]
    rw [ih]
    constructor
    · rintro ⟨htopic, hpartition, hoffset, hlt, hrest⟩ i r' hget
      cases i with
      | zero =>
        cases hget
        exact ⟨htopic, hpartition, hoffset, hlt⟩
      | succ i =>
        rw [← Nat.add_assoc, Nat.add_right_comm]
        exact hrest i r' hget
    · intro h
      obtain ⟨htopic, hpartition, hoffset, hlt⟩ := h 0 r rfl
      refine ⟨htopic, hpartition, hoffset, hlt, fun i r' hget => ?_⟩
      rw [Nat.add_right_comm, Nat.add_assoc]
      exact h (i + 1) r' hget

namespace LogService

variable {key : TopicPartition} {offset maxMessages : Nat} {log : List Message}

theorem length_records :
    (records key offset maxMessages log).length = min maxMessages (log.length - offset) := by
  rw [records, List.length_take, List.length_drop, length_referenceFrom]

theorem getElem?_records {i : Nat} {r : Record}
    (h : (records key offset maxMessages log)[i]? = some r) :
    ∃ m, log[offset + i]? = some m ∧ r = ⟨key.1, key.2, offset + i, m⟩ := by
  rw [records, List.getElem?_take, Option.ite_none_right_eq_some, List.getElem?_drop,
    getElem?_referenceFrom] at h
  obtain ⟨-, h⟩ := h
  obtain ⟨m, hm, rfl⟩ := Option.map_eq_some_iff.1 h
  exact ⟨m, hm, by rw [Nat.zero_add]⟩

theorem follows_records (key : TopicPartition) (offset maxMessages : Nat)
    (hlt : log.length < 2 ^ 64) :
    Follows key.1 key.2 offset (records key offset maxMessages log) := by
  rw [follows_iff]
  intro i r hget
  obtain ⟨m, hm, rfl⟩ := getElem?_records hget
  have hlog := (List.getElem?_eq_some_iff.1 hm).1
  exact ⟨rfl, rfl, rfl, by omega⟩

end LogService

section Fetching

variable {s : LogService × Bool} {v v₀ : LogService} {c c' : Consumer} {key : TopicPartition}
  {parts : Set TopicPartition} {keys : List TopicPartition} {maxMessages : Nat} {overflowChecks : Bool}

theorem subscriptions_of_advance {records : List Record}
    (h : c.advance overflowChecks key records = .ok c') : c'.subscriptions = c.subscriptions := by
  unfold Consumer.advance at h
  split at h
  · cases h
    rfl
  · obtain ⟨offset, -, rfl⟩ := Table.except_map_ok h
    rfl

/-- **One fetch** of a partition that exists. -/
theorem advance_of_records {log : List Message} (overflowChecks : Bool) (c : Consumer)
    (maxMessages : Nat) (hkey : key ∈ parts) (hlog : v.logs key = some log) : ∃ c', c.advance overflowChecks key
        (LogService.records key (c.position key) maxMessages log) = .ok c' ∧
      Took v parts c (LogService.records key (c.position key) maxMessages log) c' ∧
      min (c.position key + maxMessages) log.length ≤ c'.position key := by
  have hfollows := LogService.follows_records key (c.position key) maxMessages (v.fits key log hlog)
  obtain ⟨c', hadvance, hpolled, -⟩ := advance_of_follows overflowChecks hfollows
  refine ⟨c', hadvance, ⟨hpolled, fun r hr => ?_, fun r hr => ?_⟩, ?_⟩
  · obtain ⟨i, hget⟩ := List.mem_iff_getElem?.1 hr
    obtain ⟨m, -, rfl⟩ := LogService.getElem?_records hget
    exact hkey
  · obtain ⟨i, hget⟩ := List.mem_iff_getElem?.1 hr
    obtain ⟨m, hm, rfl⟩ := LogService.getElem?_records hget
    exact ⟨log, hlog, hm⟩
  · rw [hpolled.position, filter_of_follows hfollows, if_pos rfl, LogService.length_records]
    omega

/-- **The loop of a poll.** -/
theorem ensures_fetchAll (allRecords : List Record) (hle : v₀ ≤ s.1)
    (hparts : ∀ key ∈ parts, ∃ log, v₀.logs key = some log) (hkeys : ∀ key ∈ keys, key ∈ parts) :
    Ensures AnsweredBy (Succeeds fun v records c' => ∃ new, records = allRecords ++ new ∧
        Took v parts c new c' ∧ c'.subscriptions = c.subscriptions ∧
        CatchesUp v₀ maxMessages {key | key ∈ keys} c c') s
      (Consumer.fetchAll overflowChecks maxMessages keys allRecords c) := by
  induction keys generalizing s allRecords c with
  | nil =>
    refine ensures_ok fun v _ => ⟨[], (List.append_nil _).symm, Took.refl v parts c, rfl, ?_⟩
    intro key hkey
    cases hkey
  | cons key keys ih =>
    rw [fetchAll_cons]
    obtain ⟨hkey, hkeys⟩ := List.forall_mem_cons.1 hkeys
    obtain ⟨log₀, hlog₀⟩ := hparts key hkey
    intro t ht reply hreply
    cases reply with
    | error e => exact ensures_error hreply
    | ok response =>
      have hlet := hle.trans ht.1
      obtain ⟨more, hlog⟩ := hlet.2 key log₀ hlog₀
      obtain rfl := hreply _ hlog
      obtain ⟨c₁, hadvance, htook, hreach⟩ :=
        advance_of_records overflowChecks c maxMessages hkey hlog
      simp only [Consumer.fetched, hadvance]
      refine ensures_mono (ih _ hlet hkeys) ?_
      rintro v hv records c' ⟨new, rfl, htook', hsubs, hreaches⟩
      refine ⟨_, List.append_assoc .., (htook.later hv).trans htook',
        hsubs.trans (subscriptions_of_advance hadvance), ?_⟩
      intro key' hkey' log hlog'
      rcases List.mem_cons.1 hkey' with rfl | hkey'
      · -- what the first fetch reached, in a log that may have grown since
        cases hlog₀.symm.trans hlog'
        have hpos := htook'.position_le key'
        rw [List.length_append] at hreach
        omega
      · have hpos := htook.position_le key'
        have hrest := hreaches key' hkey' log hlog'
        omega

end Fetching

/-! ## Subscriptions -/

/-- The partitions of the topics. -/
def LogService.partitionsOf (v : LogService) (topics : List String) : Set TopicPartition :=
  {key | key.1 ∈ topics ∧ ∃ n, v.counts key.1 = some n ∧ key.2 < n}

section Subscribing

variable {s : LogService × Bool} {v₀ : LogService} {c : Consumer} {topics : List String}
  {overflowChecks : Bool}

theorem partitionsOf_logs (key : TopicPartition) (hkey : key ∈ v₀.partitionsOf topics) :
    ∃ log, v₀.logs key = some log := by
  obtain ⟨-, n, hcount, hlt⟩ := hkey
  exact v₀.full key.1 n key.2 hcount hlt

/-- The offsets of the partitions are set to zero. -/
theorem foldl_setOffset (topic : String) (ids : List Nat) (c : Consumer) :
    (ids.foldl (fun c id => c.setOffset (topic, id) 0) c).subscriptions = c.subscriptions ∧
      ∀ key, c.position key = 0 →
        (ids.foldl (fun c id => c.setOffset (topic, id) 0) c).position key = 0 := by
  induction ids generalizing c with
  | nil => exact ⟨rfl, fun _ h => h⟩
  | cons id ids ih =>
    obtain ⟨hsubs, hzero⟩ := ih (c.setOffset (topic, id) 0)
    refine ⟨hsubs, fun key hkey => hzero key ?_⟩
    rw [position_setOffset, hkey, ite_self]

theorem subscribeTo_subscribed {topic : String} {n : Nat} (hcount : v₀.counts topic = some n)
    (topic' : String) (h : topic' = topic ∨ SubscribedTo v₀ c topic') :
    SubscribedTo v₀ (c.subscribeTo topic (TopicMetadata.new topic n)) topic' := by
  have hsubs : (c.subscribeTo topic (TopicMetadata.new topic n)).subscriptions =
      c.subscriptions.insert topic (List.range n) := by
    rw [Consumer.subscribeTo, (foldl_setOffset topic _ _).1, TopicMetadata.new, List.length_map,
      List.length_range, Nat.mod_eq_of_lt (v₀.narrow topic n hcount)]
  unfold SubscribedTo
  rw [hsubs]
  by_cases htopic : topic' = topic
  · subst htopic
    exact ⟨n, hcount, Table.get_insert_self ..⟩
  · obtain ⟨n', hn', hget⟩ := h.resolve_left htopic
    exact ⟨n', hn', (Table.get_insert_ne _ htopic).trans hget⟩

/-- **`subscribe`** to topics that exist. -/
theorem ensures_subscribe (hle : v₀ ≤ s.1) (htopics : ∀ topic ∈ topics, ∃ n, v₀.counts topic = some n) :
    Ensures AnsweredBy (Succeeds fun _ _ c' =>
      (∀ topic, topic ∈ topics ∨ SubscribedTo v₀ c topic → SubscribedTo v₀ c' topic) ∧
        ∀ key, c.position key = 0 → c'.position key = 0) s (c.subscribe topics) := by
  induction topics generalizing s c with
  | nil =>
    refine ensures_ok fun v _ => ⟨fun topic h => h.resolve_left (List.not_mem_nil), fun _ h => h⟩
  | cons topic topics ih =>
    obtain ⟨⟨n, hcount⟩, htopics⟩ := List.forall_mem_cons.1 htopics
    intro t ht reply hreply
    cases reply with
    | error e => exact ensures_error hreply
    | ok response =>
      have hlet := hle.trans ht.1
      obtain rfl := hreply topic rfl
      rw [hlet.1 topic n hcount]
      refine ensures_mono (ih (c := c.subscribeTo topic (TopicMetadata.new topic n)) hlet htopics) ?_
      rintro v - - c' ⟨hsubscribed, hzero⟩
      refine ⟨fun topic' h => hsubscribed topic' ?_, fun key hkey => hzero key ?_⟩
      · rcases h with h | h
        · rcases List.mem_cons.1 h with rfl | h
          · exact .inr (subscribeTo_subscribed hcount topic' (.inl rfl))
          · exact .inl h
        · exact .inr (subscribeTo_subscribed hcount topic' (.inr h))
      · exact (foldl_setOffset topic _ _).2 key hkey

/-- A poll visits the partitions of the topics. -/
theorem mem_subscribed {order : List String} (horder : ∀ topic, topic ∈ order ↔ topic ∈ topics)
    (hsubscribed : ∀ topic ∈ topics, SubscribedTo v₀ c topic) (key : TopicPartition) :
    key ∈ c.subscribed order ↔ key ∈ v₀.partitionsOf topics := by
  unfold Consumer.subscribed
  simp only [List.mem_flatMap, List.mem_map, horder]
  constructor
  · rintro ⟨topic, htopic, p, hp, rfl⟩
    obtain ⟨n, hcount, hget⟩ := hsubscribed topic htopic
    rw [hget] at hp
    exact ⟨htopic, n, hcount, List.mem_range.1 hp⟩
  · rintro ⟨htopic, n, hcount, hlt⟩
    obtain ⟨n', hcount', hget⟩ := hsubscribed key.1 htopic
    cases hcount.symm.trans hcount'
    refine ⟨key.1, htopic, key.2, ?_, rfl⟩
    rw [hget]
    exact List.mem_range.2 hlt

/-- **Polls** of topics to which the consumer has subscribed. -/
theorem ensures_pollAll {polls : List (Nat × List String)} (taken : List Record) (hle : v₀ ≤ s.1)
    (hsubscribed : ∀ topic ∈ topics, SubscribedTo v₀ c topic)
    (horders : ∀ poll ∈ polls, ∀ topic, topic ∈ poll.2 ↔ topic ∈ topics) :
    Ensures AnsweredBy (Succeeds fun v records c' => ∃ new, records = taken ++ new ∧
        Took v (v₀.partitionsOf topics) c new c' ∧
        CatchesUp v₀ (polls.map Prod.fst).sum (v₀.partitionsOf topics) c c') s
      (Consumer.pollAll overflowChecks polls taken c) := by
  induction polls generalizing s taken c with
  | nil =>
    refine ensures_ok fun v _ => ⟨[], (List.append_nil _).symm, Took.refl _ _ c, ?_⟩
    intro key _ log _
    exact min_le_left _ _
  | cons poll polls ih =>
    obtain ⟨maxMessages, order⟩ := poll
    obtain ⟨horder, horders⟩ := List.forall_mem_cons.1 horders
    have hmem := mem_subscribed horder hsubscribed
    refine ensures_then (ensures_fetchAll [] hle partitionsOf_logs
      fun key hkey => (hmem key).1 hkey) (fun _ _ => rfl) ?_
    rintro t ht records c₁ ⟨_, rfl, htook, hsubs, hreaches⟩
    have hsubscribed₁ : ∀ topic ∈ topics, SubscribedTo v₀ c₁ topic := by
      intro topic htopic
      unfold SubscribedTo
      rw [hsubs]
      exact hsubscribed topic htopic
    refine ensures_mono (ih _ (hle.trans ht.1) hsubscribed₁ horders) ?_
    rintro v hv records c' ⟨new, rfl, htook', hreaches'⟩
    refine ⟨_, List.append_assoc .., (htook.later hv).trans htook', ?_⟩
    intro key hkey log hlog
    have hfirst := hreaches key ((hmem key).2 hkey) log hlog
    have hrest := hreaches' key hkey log hlog
    rw [List.map_cons, List.sum_cons]
    omega

theorem position_seekAll (seeks : List (TopicPartition × Nat)) (c : Consumer) (key : TopicPartition) :
    (c.seekAll seeks).position key =
      seeks.foldl (fun start s => if key = s.1 then s.2 else start) (c.position key) := by
  induction seeks generalizing c with
  | nil => rfl
  | cons s seeks ih =>
    exact (ih _).trans (congrArg (seeks.foldl _) (position_setOffset c s.1 s.2 key))

theorem subscriptions_seekAll (seeks : List (TopicPartition × Nat)) (c : Consumer) :
    (c.seekAll seeks).subscriptions = c.subscriptions := by
  induction seeks generalizing c with
  | nil => rfl
  | cons s seeks ih => exact ih _

/-- **A session** on topics that exist. -/
theorem ensures_session (overflowChecks : Bool) (seeks : List (TopicPartition × Nat))
    {polls : List (Nat × List String)} (hle : v₀ ≤ s.1) (hnew : ∀ key, c.position key = 0)
    (htopics : ∀ topic ∈ topics, ∃ n, v₀.counts topic = some n)
    (horders : ∀ poll ∈ polls, ∀ topic, topic ∈ poll.2 ↔ topic ∈ topics) :
    Ensures AnsweredBy (Succeeds fun v records c' => ∃ c₁, (∀ key, c₁.position key = startAt seeks key) ∧
        Took v (v₀.partitionsOf topics) c₁ records c' ∧
        CatchesUp v₀ (polls.map Prod.fst).sum (v₀.partitionsOf topics) c₁ c') s
      (c.session overflowChecks topics seeks polls) := by
  refine ensures_then (ensures_subscribe hle htopics) (fun _ _ => rfl) ?_
  rintro t ht - c₁ ⟨hsubscribed, hzero⟩
  have hseeks : ∀ topic ∈ topics, SubscribedTo v₀ (c₁.seekAll seeks) topic := by
    intro topic htopic
    unfold SubscribedTo
    rw [subscriptions_seekAll]
    exact hsubscribed topic (.inl htopic)
  refine ensures_mono (ensures_pollAll [] (hle.trans ht.1) hseeks horders) ?_
  rintro v - records c' ⟨_, rfl, htook, hreaches⟩
  refine ⟨c₁.seekAll seeks, fun key => ?_, htook, hreaches⟩
  rw [position_seekAll, hzero key (hnew key), startAt]

end Subscribing

end Gaffa
