import Gaffa.Client.Producer

/-!
# What a producer sends

A call of `send_batch_auto` as seen from outside: what it asked the partitioner, and which `Produce`
requests it made.  The log of a partition is what the brokers append to it, batch by batch, and other
producers append between two batches of this one.

* `sendBatches_sends`: one request for each partition that was chosen, with its messages in order.
* `auto_partitioned_batches`: and with `KeyHashPartitioner` the messages of a key are in one log, in
  the order in which they were given.
-/

set_option autoImplicit false

namespace Gaffa

open ByteString Grouping Dialogue

/-- What a producer asked and was told. -/
abbrev Exchanges := List ((q : Inquiry) × q.Answer)

/-- The batch of a `Produce` request. -/
structure ProduceBatch where
  topic : String
  partition : Nat
  messages : List Message
  deriving DecidableEq, Repr

/-- The request, if it is a `Produce`. -/
def producedBy : (q : Inquiry) × q.Answer → Option ProduceBatch
  | ⟨.exchange (.produce topic partition messages), _⟩ => some ⟨topic, partition, messages⟩
  | _ => none

/-- The request, if it is a `Produce` that was acknowledged. -/
def acknowledgedBy : (q : Inquiry) × q.Answer → Option ProduceBatch
  | ⟨.exchange (.produce topic partition messages), .ok (.produceSuccess _ _ _ _)⟩ =>
    some ⟨topic, partition, messages⟩
  | _ => none

/-- What the partitioner was asked, and what it chose. -/
def choiceBy : (q : Inquiry) × q.Answer → Option ((Option Bytes × Nat) × Nat)
  | ⟨.partition key count, .ok partition⟩ => some ((key, count), partition)
  | _ => none

/-- The `Produce` requests, in order. -/
def produced (t : Exchanges) : List ProduceBatch := t.filterMap producedBy

/-- The `Produce` requests that were acknowledged, in order. -/
def acknowledged (t : Exchanges) : List ProduceBatch := t.filterMap acknowledgedBy

/-- The questions to the partitioner with its choices, in order. -/
def choices (t : Exchanges) : List ((Option Bytes × Nat) × Nat) := t.filterMap choiceBy

/-- Each message with the partition that was chosen for it. -/
def routed (t : Exchanges) (messages : List Message) : List (Nat × Message) :=
  ((choices t).map Prod.snd).zip messages

/-- **The batches of a call**: the partitioner is asked for each message; each partition that it chose
gets one request, with the messages it chose it for in their order, and every message is sent once. -/
structure Batched (topic : String) (messages : List Message) (count : Nat) (t : Exchanges) :
    Prop where
  asked : (choices t).map Prod.fst = messages.map fun m => (m.key, count)
  topics : ∀ b ∈ produced t, b.topic = topic
  once : ((produced t).map ProduceBatch.partition).Nodup
  chosen : ∀ partition, partition ∈ (produced t).map ProduceBatch.partition ↔
    partition ∈ (choices t).map Prod.snd
  batch : ∀ b ∈ produced t, b.messages = valuesFor b.partition (routed t messages)
  complete : ((produced t).flatMap ProduceBatch.messages).Perm messages

section Append

variable (t u : Exchanges)

@[simp] theorem produced_append : produced (t ++ u) = produced t ++ produced u :=
  List.filterMap_append ..

@[simp] theorem acknowledged_append : acknowledged (t ++ u) = acknowledged t ++ acknowledged u :=
  List.filterMap_append ..

@[simp] theorem choices_append : choices (t ++ u) = choices t ++ choices u :=
  List.filterMap_append ..

end Append

/-! ## The logs -/

/-- The appends of the brokers, in order: whether the batch is this producer's, and the batch. -/
abbrev History := List (Bool × ProduceBatch)

/-- This producer's appends. -/
def History.own (h : History) : List ProduceBatch := (h.filter fun a => a.1).map Prod.snd

/-- The log of a partition, each message with the mark of its batch. -/
def History.log (h : History) (topic : String) (partition : Nat) : List (Bool × Message) :=
  h.flatMap fun a =>
    if a.2.topic = topic ∧ a.2.partition = partition then a.2.messages.map fun m => (a.1, m) else []

/-- This producer's messages of a key in the log of a partition. -/
def History.ownOf (h : History) (topic : String) (partition : Nat) (key : Option Bytes) :
    List Message :=
  ((h.log topic partition).filter fun entry => entry.1 ∧ entry.2.key = key).map Prod.snd

/-- The messages of a key that the calls were given for a topic. -/
def givenOf (calls : List (String × List Message)) (topic : String) (key : Option Bytes) :
    List Message :=
  ((calls.filter fun call => call.1 = topic).flatMap Prod.snd).filter fun m => m.key = key

/-! ## The world of a producer -/

section World

variable {σ : Type} (answer : σ → (q : Inquiry) → q.Answer × σ)

/-- Every topic has a fixed number of partitions: that is what a broker answers. -/
def FixedCounts (counts : String → Nat) : Prop :=
  ∀ s topic topic' count,
    (answer s (.exchange (.getPartitions topic))).1 = .ok (.partitions topic' count) →
      count = counts topic'

/-- The partitioner is `KeyHashPartitioner`. -/
def UsesKeyHash (finish : Bytes → UInt64) : Prop :=
  ∀ s key count,
    (answer s (.partition key count)).1 = .ok (KeyHashPartitioner.partition finish key count)

end World

/-- What the producer has cached is right. -/
def Producer.Cached (counts : String → Nat) (p : Producer) : Prop :=
  ∀ topic count, p.metadataCache.get topic = some count → count = counts topic

/-! ## The loops -/

section Loops

variable {σ : Type} {answer : σ → (q : Inquiry) → q.Answer × σ} {s : σ}

theorem group_cons (count : Nat) (message : Message) (messages : List Message)
    (batches : Table Nat (List Message)) :
    Producer.group count (message :: messages) batches =
      .ask (.partition message.key count) fun (choice : Except Fault Nat) =>
        match choice with
        | .error e => .done (.error e)
        | .ok partition => Producer.group count messages (push batches partition message) := rfl

theorem sendAll_cons (topic : String) (partition : Nat) (batch : List Message)
    (batches : List (Nat × List Message)) (baseOffset : Nat) :
    Producer.sendAll topic ((partition, batch) :: batches) baseOffset =
      .ask (.exchange (.produce topic partition batch)) fun (reply : Reply) =>
        match Producer.sent reply with
        | .error e => .done (.error e)
        | .ok offset =>
          Producer.sendAll topic batches (if baseOffset = 0 then offset else baseOffset) := rfl

/-- A loop over the messages that ended: each was asked for, and nothing was sent. -/
structure Grouped (count : Nat) (messages : List Message) (t : Exchanges) : Prop where
  asked : (choices t).map Prod.fst = messages.map fun m => (m.key, count)
  produced : produced t = []
  acknowledged : acknowledged t = []

theorem run_group {count : Nat} {messages : List Message}
    {batches batches' : Table Nat (List Message)} {pairs : List (Nat × Message)}
    (hbatches : Holds batches pairs)
    (h : (run answer s (Producer.group count messages batches)).1 = .ok batches') :
    Grouped count messages (transcript answer s (Producer.group count messages batches)) ∧
      Holds batches' (pairs ++
        routed (transcript answer s (Producer.group count messages batches)) messages) := by
  induction messages generalizing s batches pairs with
  | nil =>
    cases h
    refine ⟨⟨rfl, rfl, rfl⟩, ?_⟩
    rw [routed, List.zip_nil_right, List.append_nil]
    exact hbatches
  | cons message messages ih =>
    rw [group_cons, transcript_ask]
    rw [group_cons, run_ask] at h
    generalize hchoice : (answer s (.partition message.key count)).1 = choice at h ⊢
    cases choice with
    | error e => cases h
    | ok partition =>
      obtain ⟨hgrouped, hholds⟩ := ih (hbatches.push partition message) h
      rw [List.append_assoc] at hholds
      exact ⟨⟨congrArg (List.cons (message.key, count)) hgrouped.asked, hgrouped.produced,
        hgrouped.acknowledged⟩, hholds⟩

/-- A loop over the batches that ended: each was sent, and acknowledged. -/
structure Sent (topic : String) (batches : List (Nat × List Message)) (t : Exchanges) : Prop where
  choices : choices t = []
  produced : produced t = batches.map fun b => ⟨topic, b.1, b.2⟩
  acknowledged : acknowledged t = batches.map fun b => ⟨topic, b.1, b.2⟩

theorem sent_ok {reply : Reply} {offset : Nat} (h : Producer.sent reply = .ok offset) :
    ∃ topic partition count, reply = .ok (.produceSuccess topic partition offset count) := by
  unfold Producer.sent at h
  split at h <;> cases h
  exact ⟨_, _, _, rfl⟩

theorem run_sendAll {topic : String} {batches : List (Nat × List Message)}
    {baseOffset offset : Nat}
    (h : (run answer s (Producer.sendAll topic batches baseOffset)).1 = .ok offset) :
    Sent topic batches (transcript answer s (Producer.sendAll topic batches baseOffset)) := by
  induction batches generalizing s baseOffset with
  | nil => exact ⟨rfl, rfl, rfl⟩
  | cons batch batches ih =>
    rw [sendAll_cons, transcript_ask]
    rw [sendAll_cons, run_ask] at h
    generalize hreply : (answer s (.exchange (.produce topic batch.1 batch.2))).1 = reply at h ⊢
    change Reply at reply
    cases hsent : Producer.sent reply with
    | error e =>
      rw [hsent] at h
      cases h
    | ok offset' =>
      obtain ⟨topic', partition', count', rfl⟩ := sent_ok hsent
      simp only [hsent] at h ⊢
      obtain ⟨hchoices, hproduced, hacknowledged⟩ := ih h
      refine ⟨hchoices, ?_, ?_⟩
      · rw [List.map_cons, ← hproduced]
        rfl
      · rw [List.map_cons, ← hacknowledged]
        rfl

/-! ## One call -/

theorem entriesIn_of_holds {batches : Table Nat (List Message)} {pairs : List (Nat × Message)}
    (hbatches : Holds batches pairs) {order : List Nat} (horder : batches.Order order) :
    Producer.entriesIn batches order = order.map fun p => (p, valuesFor p pairs) := by
  rw [Producer.entriesIn, ← List.filterMap_eq_map]
  apply List.filterMap_congr
  intro p hp
  obtain ⟨batch, hbatch⟩ := horder.mem_iff.1 hp
  rw [hbatch, hbatches.get_eq hbatch]
  rfl

theorem run_sendGrouped {topic : String} {batches : Table Nat (List Message)}
    {pairs : List (Nat × Message)} {base : Nat} (hbatches : Holds batches pairs)
    (h : (run answer s (Producer.sendGrouped topic batches)).1 = .ok base) :
    ∃ order, batches.Order order ∧ Sent topic (order.map fun p => (p, valuesFor p pairs))
      (transcript answer s (Producer.sendGrouped topic batches)) := by
  have hsent := run_sendAll h
  refine ⟨_, (answer s (.iterate batches)).1.2, ?_⟩
  rw [← entriesIn_of_holds hbatches (answer s (.iterate batches)).1.2]
  exact ⟨hsent.choices, hsent.produced, hsent.acknowledged⟩

/-- What the batches of a call are, in the order in which they were sent. -/
structure SentIn (topic : String) (messages : List Message) (count : Nat) (order : List Nat)
    (t : Exchanges) : Prop where
  asked : (choices t).map Prod.fst = messages.map fun m => (m.key, count)
  nodup : order.Nodup
  mem : ∀ p, p ∈ order ↔ p ∈ (routed t messages).map Prod.fst
  produced : produced t = order.map fun p => ⟨topic, p, valuesFor p (routed t messages)⟩
  acknowledged : acknowledged t = order.map fun p => ⟨topic, p, valuesFor p (routed t messages)⟩

theorem Grouped.sentIn {topic : String} {messages : List Message} {count : Nat} {t u : Exchanges}
    {batches : Table Nat (List Message)} {order : List Nat} (hgrouped : Grouped count messages t)
    (hholds : Holds batches (routed t messages)) (horder : batches.Order order)
    (hsent : Sent topic (order.map fun p => (p, valuesFor p (routed t messages))) u) :
    SentIn topic messages count order (t ++ u) := by
  have hchoices : choices (t ++ u) = choices t := by
    rw [choices_append, hsent.choices, List.append_nil]
  have hrouted : routed (t ++ u) messages = routed t messages := by
    rw [routed, hchoices, routed]
  constructor
  · rw [hchoices]
    exact hgrouped.asked
  · exact horder.nodup
  · intro p
    rw [hrouted, horder.mem, hholds.mem_keys]
  · rw [produced_append, hgrouped.produced, hsent.produced, List.map_map, hrouted]
    rfl
  · rw [acknowledged_append, hgrouped.acknowledged, hsent.acknowledged, List.map_map, hrouted]
    rfl

theorem run_sendBatches {topic : String} {messages : List Message} {count base : Nat}
    (h : (run answer s (Producer.sendBatches topic messages count)).1 = .ok base) :
    ∃ order, SentIn topic messages count order
      (transcript answer s (Producer.sendBatches topic messages count)) := by
  unfold Producer.sendBatches at h ⊢
  rw [run_bind] at h
  rw [transcript_bind]
  cases hgroup : (run answer s (Producer.group count messages Table.empty)).1 with
  | error e =>
    rw [hgroup] at h
    cases h
  | ok batches =>
    rw [hgroup] at h
    obtain ⟨hgrouped, hholds⟩ := run_group holds_empty hgroup
    obtain ⟨order, horder, hsent⟩ := run_sendGrouped hholds h
    exact ⟨order, hgrouped.sentIn hholds horder hsent⟩

/-- A call whose exchanges these are sent the batches of its messages. -/
theorem SentIn.batched {topic : String} {messages : List Message} {count : Nat} {order : List Nat}
    {t : Exchanges} (h : SentIn topic messages count order t) :
    Batched topic messages count t := by
  have hlength : (choices t).length = messages.length := by
    have hasked := congrArg List.length h.asked
    rwa [List.length_map, List.length_map] at hasked
  have hfst : (routed t messages).map Prod.fst = (choices t).map Prod.snd := by
    rw [routed, List.map_fst_zip]
    rw [List.length_map, hlength]
  have hsnd : (routed t messages).map Prod.snd = messages := by
    rw [routed, List.map_snd_zip]
    rw [List.length_map, hlength]
  have hpartitions : (Gaffa.produced t).map ProduceBatch.partition = order := by
    rw [h.produced, List.map_map]
    exact List.map_id order
  constructor
  · exact h.asked
  · intro b hb
    rw [h.produced] at hb
    obtain ⟨p, -, rfl⟩ := List.mem_map.1 hb
    rfl
  · rw [hpartitions]
    exact h.nodup
  · intro p
    rw [hpartitions, h.mem, hfst]
  · intro b hb
    rw [h.produced] at hb
    obtain ⟨p, -, rfl⟩ := List.mem_map.1 hb
    rfl
  · have hperm := flatMap_valuesFor_perm h.nodup h.mem
    rw [hsnd] at hperm
    rw [h.produced, List.flatMap_map]
    exact hperm

/-! ## The number of partitions -/

/-- Nothing was sent, and no partition was chosen. -/
structure Silent (t : Exchanges) : Prop where
  produced : produced t = []
  acknowledged : acknowledged t = []
  choices : choices t = []

theorem Producer.Cached.insert {counts : String → Nat} {p : Producer} (h : p.Cached counts)
    {topic : String} {count : Nat} (hcount : count = counts topic) :
    Producer.Cached counts { p with metadataCache := p.metadataCache.insert topic count } := by
  intro topic' count' hget
  rcases Table.get_insert_cases hget with ⟨rfl, rfl⟩ | ⟨-, hget⟩
  · exact hcount
  · exact h topic' count' hget

variable {counts : String → Nat} {p : Producer}

theorem run_refreshMissing (hfixed : FixedCounts answer counts) (hcached : p.Cached counts)
    (topic : String) : Silent (transcript answer s (p.refreshMissing topic)) ∧
      (run answer s (p.refreshMissing topic)).1.2.Cached counts := by
  unfold Producer.refreshMissing
  split
  · exact ⟨⟨rfl, rfl, rfl⟩, hcached⟩
  · have hreply := hfixed s topic
    refine ⟨⟨rfl, rfl, rfl⟩, ?_⟩
    change (p.refreshed (answer s (.exchange (.getPartitions topic))).1).2.Cached counts
    generalize (answer s (.exchange (.getPartitions topic))).1 = reply at hreply ⊢
    unfold Producer.refreshed
    split
    · exact hcached
    · exact hcached.insert (hreply _ _ rfl)
    · exact hcached
    · exact hcached

theorem run_numPartitions (hfixed : FixedCounts answer counts) (hcached : p.Cached counts)
    (topic : String) : Silent (transcript answer s (p.numPartitions topic)) ∧
      (run answer s (p.numPartitions topic)).1.2.Cached counts ∧
      ∀ count, (run answer s (p.numPartitions topic)).1.1 = .ok count → count = counts topic := by
  obtain ⟨hsilent, hcached'⟩ := run_refreshMissing (s := s) hfixed hcached topic
  unfold Producer.numPartitions
  rw [run_bind, transcript_bind]
  generalize transcript answer s (p.refreshMissing topic) = t at hsilent ⊢
  generalize run answer s (p.refreshMissing topic) = outcome at hcached' ⊢
  obtain ⟨⟨refreshed, p'⟩, s'⟩ := outcome
  cases refreshed with
  | error e =>
    refine ⟨?_, hcached', fun _ h => by cases h⟩
    rw [show transcript answer s' _ = [] from rfl, List.append_nil]
    exact hsilent
  | ok _ =>
    refine ⟨?_, hcached', ?_⟩
    · rw [show transcript answer s' _ = [] from rfl, List.append_nil]
      exact hsilent
    · intro count h
      change p'.cachedCount topic = .ok count at h
      unfold Producer.cachedCount at h
      split at h
      · cases h
      · rename_i count' hget
        cases h
        exact hcached' topic count hget

theorem Silent.sentIn {topic : String} {messages : List Message} {count : Nat} {order : List Nat}
    {t u : Exchanges} (ht : Silent t) (hu : SentIn topic messages count order u) :
    SentIn topic messages count order (t ++ u) := by
  have hchoices : Gaffa.choices (t ++ u) = Gaffa.choices u := by
    rw [choices_append, ht.choices, List.nil_append]
  have hrouted : routed (t ++ u) messages = routed u messages := by
    rw [routed, hchoices, routed]
  constructor
  · rw [hchoices]
    exact hu.asked
  · exact hu.nodup
  · rw [hrouted]
    exact hu.mem
  · rw [produced_append, ht.produced, List.nil_append, hrouted]
    exact hu.produced
  · rw [acknowledged_append, ht.acknowledged, List.nil_append, hrouted]
    exact hu.acknowledged

/-- **One call** that ended without an error. -/
theorem run_sendBatchAuto (hfixed : FixedCounts answer counts) (hcached : p.Cached counts)
    {topic : String} {messages : List Message} {base : Nat}
    (h : (run answer s (p.sendBatchAuto topic messages)).1.1 = .ok base) :
    (∃ order, SentIn topic messages (counts topic) order
      (transcript answer s (p.sendBatchAuto topic messages))) ∧
      (run answer s (p.sendBatchAuto topic messages)).1.2.Cached counts := by
  obtain ⟨hsilent, hcached', hcount⟩ := run_numPartitions (s := s) hfixed hcached topic
  unfold Producer.sendBatchAuto at h ⊢
  rw [run_bind] at h ⊢
  rw [transcript_bind]
  generalize transcript answer s (p.numPartitions topic) = t at hsilent ⊢
  generalize run answer s (p.numPartitions topic) = outcome at h hcached' hcount ⊢
  obtain ⟨⟨counted, p'⟩, s'⟩ := outcome
  cases counted with
  | error e => cases h
  | ok count =>
    obtain rfl := hcount count rfl
    let sends : Sending (Except Fault Nat × Producer) :=
      Producer.sendBatches topic messages (counts topic) >>= fun result => pure (result, p')
    change (run answer s' sends).1.1 = .ok base at h
    change (∃ order, SentIn topic messages (counts topic) order (t ++ transcript answer s' sends)) ∧
      (run answer s' sends).1.2.Cached counts
    rw [run_bind] at h ⊢
    rw [transcript_bind]
    change (run answer s' (Producer.sendBatches topic messages (counts topic))).1 = .ok base at h
    obtain ⟨order, hsent⟩ := run_sendBatches h
    refine ⟨⟨order, hsilent.sentIn ?_⟩, hcached'⟩
    rw [show transcript answer _ (pure _) = [] from rfl, List.append_nil]
    exact hsent

/-! ## Keys -/

/-- The messages that batches hold for a partition. -/
def messagesFor (batches : List ProduceBatch) (topic : String) (partition : Nat) : List Message :=
  batches.flatMap fun b => if b.topic = topic ∧ b.partition = partition then b.messages else []

theorem messagesFor_append (xs ys : List ProduceBatch) (topic : String) (partition : Nat) :
    messagesFor (xs ++ ys) topic partition =
      messagesFor xs topic partition ++ messagesFor ys topic partition := List.flatMap_append

/-- One partition of a table that was sent partition by partition. -/
theorem messagesFor_map {order : List Nat} (hnodup : order.Nodup) (f : Nat → List Message)
    (topic topic' : String) (partition : Nat) :
    messagesFor (order.map fun p => ⟨topic', p, f p⟩) topic partition =
      if topic' = topic ∧ partition ∈ order then f partition else [] := by
  induction order with
  | nil => simp [messagesFor]
  | cons p order ih =>
    obtain ⟨hp, hnodup⟩ := List.nodup_cons.1 hnodup
    rw [List.map_cons, messagesFor, List.flatMap_cons]
    change _ ++ messagesFor (order.map fun p => ⟨topic', p, f p⟩) topic partition = _
    rw [ih hnodup]
    by_cases htopic : topic' = topic
    · by_cases hpartition : p = partition
      · subst hpartition
        simp [htopic, hp]
      · simp [htopic, hpartition, Ne.symm hpartition]
    · simp [htopic]

theorem valuesFor_map (f : Message → Nat) (partition : Nat) (messages : List Message) :
    valuesFor partition (messages.map fun m => (f m, m)) =
      messages.filter fun m => f m = partition := by
  rw [valuesFor, List.filter_map, List.map_map]
  exact List.map_id _

/-- With `KeyHashPartitioner` every choice is that of the key. -/
theorem choices_of_usesKeyHash {finish : Bytes → UInt64} (hkey : UsesKeyHash answer finish)
    {α : Type} (d : Sending α) : ∀ c ∈ choices (transcript answer s d),
      c.2 = KeyHashPartitioner.partition finish c.1.1 c.1.2 := by
  induction d generalizing s with
  | done a =>
    intro c hc
    cases hc
  | ask q next ih =>
    intro c hc
    rw [transcript_ask, choices, List.filterMap_cons] at hc
    split at hc
    · exact ih _ c hc
    · rename_i c' hchoice
      rcases List.mem_cons.1 hc with rfl | hc
      · cases q with
        | partition key count =>
          rw [hkey s key count] at hchoice
          cases hchoice
          rfl
        | exchange request => cases hchoice
        | iterate batches => cases hchoice
      · exact ih _ c hc

theorem SentIn.routed_eq {topic : String} {messages : List Message} {count : Nat}
    {order : List Nat} {t : Exchanges} (h : SentIn topic messages count order t)
    {finish : Bytes → UInt64}
    (hkey : ∀ c ∈ choices t, c.2 = KeyHashPartitioner.partition finish c.1.1 c.1.2) :
    routed t messages =
      messages.map fun m => (KeyHashPartitioner.partition finish m.key count, m) := by
  have hchosen : (choices t).map Prod.snd =
      messages.map fun m => KeyHashPartitioner.partition finish m.key count := by
    have hasked := congrArg (List.map fun question : Option Bytes × Nat =>
      KeyHashPartitioner.partition finish question.1 question.2) h.asked
    rw [List.map_map, List.map_map] at hasked
    rw [List.map_congr_left hkey]
    exact hasked
  rw [routed, hchosen, ← List.map_prod_right_eq_zip]

theorem filter_filter_of_eq (f : Option Bytes → Nat) (partition : Nat) (key : Option Bytes)
    (messages : List Message) :
    ((messages.filter fun m => f m.key = partition).filter fun m => m.key = key) =
      if partition = f key then messages.filter fun m => m.key = key else [] := by
  rw [List.filter_filter]
  split
  · rename_i hpartition
    apply List.filter_congr
    intro m _
    simp only [← Bool.decide_and, decide_eq_decide]
    constructor
    · rintro ⟨hkey, -⟩
      exact hkey
    · rintro rfl
      exact ⟨rfl, hpartition.symm⟩
  · rename_i hpartition
    rw [List.filter_eq_nil_iff]
    intro m _ hm
    simp only [Bool.and_eq_true, decide_eq_true_eq] at hm
    obtain ⟨rfl, hm⟩ := hm
    exact hpartition hm.symm

/-- One call puts the messages of a key into one log. -/
theorem SentIn.ofKey {topic : String} {messages : List Message} {count : Nat} {order : List Nat}
    {t : Exchanges} (h : SentIn topic messages count order t) {finish : Bytes → UInt64}
    (hkey : ∀ c ∈ choices t, c.2 = KeyHashPartitioner.partition finish c.1.1 c.1.2)
    (topic' : String) (partition : Nat) (key : Option Bytes) :
    ((messagesFor (Gaffa.acknowledged t) topic' partition).filter fun m => m.key = key) =
      if topic = topic' ∧ partition = KeyHashPartitioner.partition finish key count then
        messages.filter fun m => m.key = key
      else [] := by
  have hmessages : messagesFor (Gaffa.acknowledged t) topic' partition =
      if topic = topic' then valuesFor partition (routed t messages) else [] := by
    rw [h.acknowledged, messagesFor_map h.nodup]
    by_cases hmem : partition ∈ order
    · simp [hmem]
    · have hnil : valuesFor partition (routed t messages) = [] := by
        by_contra hne
        exact hmem ((h.mem partition).2 (valuesFor_ne_nil.1 hne))
      simp [hmem, hnil]
  rw [hmessages, h.routed_eq hkey, valuesFor_map]
  by_cases htopic : topic = topic'
  · rw [if_pos htopic, filter_filter_of_eq fun key => KeyHashPartitioner.partition finish key count]
    simp [htopic]
  · simp [htopic]

theorem givenOf_cons (topic' topic : String) (messages : List Message)
    (calls : List (String × List Message)) (key : Option Bytes) :
    givenOf ((topic', messages) :: calls) topic key =
      (if topic' = topic then messages.filter fun m => m.key = key else []) ++
        givenOf calls topic key := by
  rw [givenOf, List.filter_cons]
  by_cases htopic : topic' = topic
  · simp [htopic, givenOf]
  · simp [htopic, givenOf]

/-- **A run of calls** puts the messages of a key into one log, in the order they were given. -/
theorem run_sendCalls (hfixed : FixedCounts answer counts) {finish : Bytes → UInt64}
    (hkey : UsesKeyHash answer finish) {calls : List (String × List Message)}
    (hcached : p.Cached counts) (h : (run answer s (Producer.sendCalls calls p)).1.1 = .ok ())
    (topic : String) (partition : Nat) (key : Option Bytes) :
    ((messagesFor (acknowledged (transcript answer s (Producer.sendCalls calls p))) topic
      partition).filter fun m => m.key = key) =
      if partition = KeyHashPartitioner.partition finish key (counts topic) then
        givenOf calls topic key
      else [] := by
  induction calls generalizing s p with
  | nil => simp [Producer.sendCalls, transcript, acknowledged, messagesFor, givenOf]
  | cons call calls ih =>
    obtain ⟨topic', messages⟩ := call
    unfold Producer.sendCalls at h ⊢
    rw [run_bind] at h
    rw [transcript_bind]
    have hchoices := choices_of_usesKeyHash (s := s) hkey (p.sendBatchAuto topic' messages)
    have hcall : ∀ base, (run answer s (p.sendBatchAuto topic' messages)).1.1 = .ok base →
        (∃ order, SentIn topic' messages (counts topic') order
          (transcript answer s (p.sendBatchAuto topic' messages))) ∧
        (run answer s (p.sendBatchAuto topic' messages)).1.2.Cached counts :=
      fun _ hok => run_sendBatchAuto hfixed hcached hok
    generalize transcript answer s (p.sendBatchAuto topic' messages) = t at hchoices hcall ⊢
    generalize run answer s (p.sendBatchAuto topic' messages) = outcome at h hcall ⊢
    obtain ⟨⟨result, p'⟩, s'⟩ := outcome
    cases result with
    | error e => cases h
    | ok base =>
      obtain ⟨⟨order, hsent⟩, hcached'⟩ := hcall base rfl
      have hrest := ih hcached' h
      have hfirst := hsent.ofKey hchoices topic partition key
      change ((messagesFor (acknowledged (t ++ transcript answer s' (Producer.sendCalls calls p')))
        topic partition).filter fun m => m.key = key) = _
      rw [acknowledged_append, messagesFor_append, List.filter_append, hfirst, hrest, givenOf_cons]
      by_cases htopic : topic' = topic
      · subst htopic
        by_cases hpartition : partition = KeyHashPartitioner.partition finish key (counts topic')
        · simp [hpartition]
        · simp [hpartition]
      · simp [htopic]

end Loops

/-! ## The order within the logs -/

/-- This producer's messages of a key are those of its batches. -/
theorem ownOf_eq (h : History) (topic : String) (partition : Nat) (key : Option Bytes) :
    h.ownOf topic partition key =
      (messagesFor h.own topic partition).filter fun m => m.key = key := by
  induction h with
  | nil => rfl
  | cons a h ih =>
    obtain ⟨mine, batch⟩ := a
    have hlog : History.log ((mine, batch) :: h) topic partition =
        (if batch.topic = topic ∧ batch.partition = partition then
          batch.messages.map fun m => (mine, m) else []) ++ History.log h topic partition := rfl
    rw [History.ownOf, hlog, List.filter_append, List.map_append, ← History.ownOf, ih]
    cases mine with
    | false =>
      have hown : History.own ((false, batch) :: h) = History.own h := rfl
      have hnone : ((if batch.topic = topic ∧ batch.partition = partition then
          batch.messages.map fun m => (false, m) else []).filter
            fun entry : Bool × Message => entry.1 ∧ entry.2.key = key) = [] := by
        split
        · simp
        · rfl
      rw [hnone, hown]
      rfl
    | true =>
      have hown : messagesFor (History.own ((true, batch) :: h)) topic partition =
          (if batch.topic = topic ∧ batch.partition = partition then batch.messages else []) ++
            messagesFor (History.own h) topic partition := rfl
      rw [hown, List.filter_append]
      congr 1
      split
      · simp [List.filter_map, Function.comp_def]
      · rfl

/-- **Auto-partitioned batches.**  The batches of a call that ends without an error are those that
the partitioner chose; and whatever other producers append in between, a run of calls with
`KeyHashPartitioner` leaves the messages of each key in one log, in the order they were given. -/
theorem auto_partitioned_batches {σ : Type} (answer : σ → (q : Inquiry) → q.Answer × σ)
    (counts : String → Nat) (hfixed : FixedCounts answer counts) (p : Producer)
    (hcached : p.Cached counts) :
    (∀ s topic messages base, (run answer s (p.sendBatchAuto topic messages)).1.1 = .ok base →
      Batched topic messages (counts topic)
        (transcript answer s (p.sendBatchAuto topic messages))) ∧
    ∀ finish, UsesKeyHash answer finish → ∀ s calls,
      (run answer s (Producer.sendCalls calls p)).1.1 = .ok () → ∀ history : History,
        history.own = acknowledged (transcript answer s (Producer.sendCalls calls p)) →
          ∀ topic partition key, history.ownOf topic partition key =
            if partition = KeyHashPartitioner.partition finish key (counts topic) then
              givenOf calls topic key
            else [] := by
  constructor
  · intro s topic messages base h
    obtain ⟨⟨order, hsent⟩, -⟩ := run_sendBatchAuto hfixed hcached h
    exact hsent.batched
  · intro finish hkey s calls h history hown topic partition key
    rw [ownOf_eq, hown]
    exact run_sendCalls hfixed hkey hcached h topic partition key

/-! ## An instance -/

/-- The first byte, as a hash. -/
def firstByte (bytes : Bytes) : UInt64 := (bytes.headD 0).toUInt64

/-- Partition 0 before partition 1. -/
noncomputable def firstToLast (batches : Table Nat (List Message)) :
    { order : List Nat // batches.Order order } :=
  if h : batches.Order [0, 1] then ⟨[0, 1], h⟩
  else if h : batches.Order [1] then ⟨[1], h⟩
  else ⟨_, batches.exists_order.choose_spec⟩

/-- Topics with two partitions, and a broker that acknowledges every batch. -/
noncomputable def twoPartitionBroker : Unit → (q : Inquiry) → q.Answer × Unit
  | _, .exchange (.getPartitions topic) => (.ok (.partitions topic 2), ())
  | _, .exchange (.produce topic partition messages) =>
    (.ok (.produceSuccess topic partition 0 messages.length), ())
  | _, .exchange _ => (.ok (.topics []), ())
  | _, .partition key count => (.ok (KeyHashPartitioner.partition firstByte key count), ())
  | _, .iterate batches => (firstToLast batches, ())

theorem twoPartitionBroker_fixed : FixedCounts twoPartitionBroker fun _ => 2 := by
  intro s topic topic' count h
  cases h
  rfl

/-- Two calls, with a batch of another producer between them. -/
theorem auto_partitioned_batches_two :
    History.ownOf
      [(true, ⟨"t", 0, [⟨some [2], [20], 0⟩]⟩), (true, ⟨"t", 1, [⟨some [1], [10], 0⟩]⟩),
        (false, ⟨"t", 1, [⟨some [1], [99], 0⟩]⟩), (true, ⟨"t", 1, [⟨some [1], [11], 0⟩]⟩)]
      "t" 1 (some [1]) = [⟨some [1], [10], 0⟩, ⟨some [1], [11], 0⟩] :=
  (auto_partitioned_batches twoPartitionBroker (fun _ => 2) twoPartitionBroker_fixed .new
    (fun _ _ h => by cases h)).2 firstByte (fun _ _ _ => rfl) ()
    [("t", [⟨some [1], [10], 0⟩, ⟨some [2], [20], 0⟩]), ("t", [⟨some [1], [11], 0⟩])] rfl _
    (by decide) "t" 1 (some [1])

end Gaffa
