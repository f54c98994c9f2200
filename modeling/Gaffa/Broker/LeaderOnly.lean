import Gaffa.Broker.BrokerServer
import Gaffa.Storage.RefusedFetch

/-!
# Which broker serves a partition

`Produce` and `Fetch` do not look at the leader of the partition, as `ReplicationFetch` does.

* `produce_refused_iff`, `fetch_refused_iff`: when a request is refused and leaves no trace.
* `only_leader_serves`: the requests for partitions that another broker leads are refused without a
  trace on the runs on which the log cannot take or read what they ask for, and hardly on others.
-/

set_option autoImplicit false

namespace Gaffa

open FileSystem DirTree Transition TopicStore

variable {K : Crates} {config : BrokerConfig} {overflowChecks : Bool}

/-- The recorded leader of the partition is another broker. -/
def Broker.Foreign (topic : String) (partition : Nat) (b : Broker) : Prop :=
  ∃ state ∈ b.cluster.partitionStates.get (topic, partition), state.leader ≠ b.cluster.brokerId

instance decidableForeign (topic : String) (partition : Nat) (b : Broker) :
    Decidable (b.Foreign topic partition) :=
  inferInstanceAs (Decidable (∃ state ∈ _, _))

/-- The replica state of a partition and its log, in memory and in its files, are the same. -/
structure SamePartition (topic : String) (partition : Nat) (b b' : Broker) : Prop where
  state : b'.cluster.partitionStates.get (topic, partition) =
    b.cluster.partitionStates.get (topic, partition)
  log : ∀ found p, b.store.find topic partition = .ok (found, p) →
    ∃ found', b'.store.find topic partition = .ok (found', p) ∧
      ∀ file, content (files b'.store.tree p.dir) file = content (files b.store.tree p.dir) file

theorem SamePartition.refl (topic : String) (partition : Nat) (b : Broker) :
    SamePartition topic partition b b :=
  ⟨rfl, fun found _ h => ⟨found, h, fun _ => rfl⟩⟩

/-- A request for a partition that another broker leads is answered with an error and leaves the
partition as it is. -/
def RefusesForeign (K : Crates) (config : BrokerConfig) (overflowChecks : Bool) (b : Broker)
    (e : BrokerEvent) (b' : Broker) : Prop :=
  match e with
  | .request (.produce topic partition messages) io => b.Foreign topic partition →
    (∃ text, (b.processRequest K config overflowChecks io
      (.produce topic partition messages)).1 = some (.produceError text)) ∧
    SamePartition topic partition b b'
  | .request (.fetch topic partition offset maxMessages) io => b.Foreign topic partition →
    (∃ text, (b.processRequest K config overflowChecks io
      (.fetch topic partition offset maxMessages)).1 = some (.fetchError text)) ∧
    SamePartition topic partition b b'
  | _ => True

/-- The log has no such partition, or takes nothing of the batch, or cannot be read from the offset. -/
def LogRefuses (K : Crates) (b : Broker) (e : BrokerEvent) : Prop :=
  match e with
  | .request (.produce topic partition messages) io => b.Foreign topic partition →
    ∀ found p, b.store.find topic partition = .ok (found, p) →
      Partition.Untouched K (p.answers b.store.tree io.append) messages p.partition
  | .request (.fetch topic partition offset maxMessages) _ => b.Foreign topic partition →
    ∀ found p, b.store.find topic partition = .ok (found, p) →
      p.partition.RefusesFetch offset maxMessages
  | _ => True

/-- What a refusal needs; for a `Fetch`, a segment above the offset or one without a map. -/
def LogMayRefuse (K : Crates) (b : Broker) (e : BrokerEvent) : Prop :=
  match e with
  | .request (.fetch topic partition offset _) _ => b.Foreign topic partition →
    ∀ found p, b.store.find topic partition = .ok (found, p) → p.partition.segments = [] ∨
      ∃ s ∈ p.partition.segments, offset < s.baseOffset ∨ s.mmap = none
  | e => LogRefuses K b e

section Request

variable {io : RequestIo} {b : Broker} {topic : String} {partition : Nat}
  {messages : List Message} {found : StoredTopic} {p : StoredPartition}

theorem appendTo_same_iff (K : Crates) (io : PartitionIo) (messages : List Message) (t : Tree)
    (p : StoredPartition) :
    ((∃ e, (appendTo K io messages t p).1 = .error (.error e)) ∧
      (appendTo K io messages t p).2.2 = p ∧
      ∀ file, content (files (appendTo K io messages t p).2.1 p.dir) file =
        content (files t p.dir) file) ↔
      Partition.Untouched K (p.answers t io) messages p.partition := by
  rw [← untouched_iff K _ messages (files t p.dir) p.partition]
  unfold appendTo StoredPartition.answers
  simp only [files_of_get (Table.get_insert_self ..)]
  refine and_congr_right fun _ => and_congr_left fun _ => ?_
  constructor
  · exact fun h => congrArg StoredPartition.partition h
  · exact fun h => by rw [h]

/-- **A `Produce`** that finds its partition is refused without a trace exactly when the log refuses
the batch. -/
theorem produce_refused_iff (hfind : b.store.find topic partition = .ok (found, p)) :
    ((∃ text, (b.produce K overflowChecks io topic partition messages).1 =
        some (.produceError text)) ∧
      SamePartition topic partition b
        (b.produce K overflowChecks io topic partition messages).2) ↔
      Partition.Untouched K (p.answers b.store.tree io.append) messages p.partition := by
  rw [← appendTo_same_iff]
  unfold Broker.produce TopicStore.append
  rw [hfind]
  simp only
  cases happend : (appendTo K io.append messages b.store.tree p).1 with
  | error e =>
    cases e with
    | panic m =>
      refine iff_of_false ?_ ?_
      · rintro ⟨⟨text, h⟩, -⟩
        cases h
      · rintro ⟨⟨e, h⟩, -⟩
        cases h
    | error e =>
      simp only
      have hput := find_put hfind (appendTo K io.append messages b.store.tree p).2.2
        (appendTo K io.append messages b.store.tree p).2.1
      constructor
      · rintro ⟨-, hsame⟩
        obtain ⟨found', hfind', hfiles⟩ := hsame.log found p hfind
        have heq := hput.symm.trans hfind'
        simp only [Except.ok.injEq, Prod.mk.injEq] at heq
        exact ⟨⟨e, rfl⟩, heq.2, hfiles⟩
      · rintro ⟨-, hsame, hfiles⟩
        refine ⟨⟨_, rfl⟩, rfl, ?_⟩
        intro found' p' hfind'
        rw [hfind] at hfind'
        cases hfind'
        exact ⟨_, hput.trans (congrArg (fun q => Except.ok (_, q)) hsame), hfiles⟩
  | ok base =>
    simp only
    refine iff_of_false ?_ ?_
    · rintro ⟨⟨text, h⟩, -⟩
      split at h
      · cases h
      · simp only at h
        split at h <;> cases h
    · rintro ⟨⟨e, h⟩, -⟩
      cases h

/-- **A `Fetch`** is refused exactly when the log refuses it. -/
theorem fetch_refused_iff {offset maxMessages : Nat} :
    (∃ text, b.fetch K topic partition offset maxMessages = some (.fetchError text)) ↔
      ∃ e, b.store.fetch K topic partition offset maxMessages = .error (.error e) := by
  unfold Broker.fetch respond
  cases b.store.fetch K topic partition offset maxMessages with
  | ok records => exact iff_of_false (fun ⟨_, h⟩ => by cases h) (fun ⟨_, h⟩ => by cases h)
  | error e =>
    cases e with
    | error e => exact iff_of_true ⟨_, rfl⟩ ⟨e, rfl⟩
    | panic m => exact iff_of_false (fun ⟨_, h⟩ => by cases h) (fun ⟨_, h⟩ => by cases h)

end Request

/-- A `Produce` refuses what is another broker's exactly when the log does. -/
theorem refusesForeign_produce_iff (K : Crates) (config : BrokerConfig) (overflowChecks : Bool)
    (b : Broker) (io : RequestIo) (topic : String) (partition : Nat) (messages : List Message) :
    RefusesForeign K config overflowChecks b (.request (.produce topic partition messages) io)
        (b.processRequest K config overflowChecks io (.produce topic partition messages)).2 ↔
      LogRefuses K b (.request (.produce topic partition messages) io) := by
  refine imp_congr_right fun _ => ?_
  cases hfind : b.store.find topic partition with
  | error e =>
    have hproduce : b.produce K overflowChecks io topic partition messages =
        (some (.produceError e.display), b) := by
      unfold Broker.produce TopicStore.append
      rw [hfind]
    refine iff_of_true ?_ (fun _ _ h => by cases h)
    rw [Broker.processRequest, hproduce]
    exact ⟨⟨_, rfl⟩, SamePartition.refl topic partition b⟩
  | ok found =>
    obtain ⟨found, p⟩ := found
    refine (produce_refused_iff hfind).trans ?_
    constructor
    · intro h _ _ heq
      cases heq
      exact h
    · exact fun h => h found p rfl

/-- A `Fetch` refuses what is another broker's exactly when it finds no partition, or the partition
refuses it. -/
theorem refusesForeign_fetch_iff (K : Crates) (config : BrokerConfig) (overflowChecks : Bool)
    (b : Broker) (io : RequestIo) (topic : String) (partition offset maxMessages : Nat) :
    RefusesForeign K config overflowChecks b
        (.request (.fetch topic partition offset maxMessages) io) b ↔
      (b.Foreign topic partition → ∀ found p, b.store.find topic partition = .ok (found, p) →
        ∃ e, p.partition.fetch K (files b.store.tree p.dir) offset maxMessages =
          .error (.error e)) := by
  refine imp_congr_right fun _ =>
    (and_iff_left (SamePartition.refl topic partition b)).trans (fetch_refused_iff.trans ?_)
  unfold TopicStore.fetch
  cases b.store.find topic partition with
  | error e => exact iff_of_true ⟨e, rfl⟩ fun _ _ h => by cases h
  | ok found =>
    constructor
    · intro h _ _ heq
      cases heq
      exact h
    · exact fun h => h _ _ rfl

/-- **One step**: what the log refuses is refused, and what is refused the log may refuse. -/
theorem refusesForeign_step {b b' : Broker} {e : BrokerEvent}
    (h : brokerNext K config overflowChecks b e = some b') :
    (LogRefuses K b e → RefusesForeign K config overflowChecks b e b') ∧
      (RefusesForeign K config overflowChecks b e b' → LogMayRefuse K b e) := by
  cases e with
  | request request io =>
    obtain ⟨-, -, -, rfl, -⟩ := next_request h
    cases request with
    | produce topic partition messages =>
      have hiff := refusesForeign_produce_iff K config overflowChecks b io topic partition messages
      exact ⟨hiff.2, hiff.1⟩
    | fetch topic partition offset maxMessages =>
      have hiff := refusesForeign_fetch_iff K config overflowChecks b io topic partition offset
        maxMessages
      constructor
      · intro hlog
        exact hiff.2 fun hforeign found p hfind => fetch_refuses K _ (hlog hforeign found p hfind)
      · intro hrefused hforeign found p hfind
        obtain ⟨e, he⟩ := hiff.1 hrefused hforeign found p hfind
        exact fetch_refused he
    | _ => exact ⟨fun _ => trivial, fun _ => trivial⟩
  | _ => exact ⟨fun _ => trivial, fun _ => trivial⟩

/-- The record is written, and its sync fails. -/
def unsyncedIo : LogSegment.AppendIo :=
  ⟨none, fun _ => ⟨none, .done⟩, some "Input/output error (os error 5)", none⟩

/-- What broker 1 is given when broker 2 and one partition are there. -/
def deposedIo (isr : List BrokerId) : RequestIo := .inOrder [1, 2] ["a"] [("a", 0)] fun _ => isr

/-- Broker 1 leads a partition and fails to take a record, which leaves the segment without a map.
Then it is deposed. -/
def deposedEvents : List BrokerEvent :=
  [.request (.registerBroker 2 "localhost" 9093) (.inOrder [1] [] [] fun _ => []),
    .request (.createTopic "a" 1) (.inOrder [1, 2] [] [] fun _ => []),
    .request (.produce "a" 0 [⟨none, [7], 0⟩]) { deposedIo [1, 2] with append := ⟨.done, unsyncedIo⟩ },
    .pass (20 * 10 ^ 9),
    .request (.registerBroker 2 "localhost" 9093) (deposedIo [1, 2]),
    .pass (30 * 10 ^ 9),
    .healthCheck ⟨[1, 2], [("a", 0)], fun _ => ([("a", 0)], fun _ => 2)⟩]

/-- A fetch of that record and a batch without a message, both for the new leader. -/
def refusedEvents : List BrokerEvent :=
  [.request (.fetch "a" 0 0 10) (deposedIo [2]), .request (.produce "a" 0 []) (deposedIo [2])]

/-- A batch is empty or for a partition of the broker's own, and a fetch gets no further than its first
segment. -/
def refusesEach (b : Broker) : BrokerEvent → Prop
  | .request (.produce topic partition messages) _ => messages = [] ∨ ¬ b.Foreign topic partition
  | .request (.fetch topic partition offset maxMessages) _ =>
    ∀ found ∈ (b.store.find topic partition).toOption,
      found.2.partition.RefusesFetch offset maxMessages
  | _ => True

instance (b : Broker) : DecidablePred (refusesEach b) := fun e => by
  unfold refusesEach
  split <;> infer_instance

theorem logRefuses_of_each {b : Broker} {e : BrokerEvent} (h : refusesEach b e) :
    LogRefuses K b e := by
  unfold LogRefuses
  split
  · rename_i topic partition messages io
    intro hforeign found p hfind
    obtain rfl := Or.resolve_right h (not_not.2 hforeign)
    exact .inl rfl
  · intro _ found p hfind
    refine h (found, p) ?_
    rw [hfind]
    rfl
  · trivial

/-- Broker 1 is joined by broker 2, and makes a topic of two partitions. -/
def joinedEvents : List BrokerEvent :=
  [.request (.registerBroker 2 "localhost" 9093) (.inOrder [1] [] [] fun _ => []),
    .request (.createTopic "a" 2) (.inOrder [1, 2] [] [] fun _ => [])]

/-- What a client sends to broker 1 after that. -/
def joinedIo : RequestIo :=
  .inOrder [1, 2] ["a"] [("a", 0), ("a", 1)] fun key => [key.2 + 1]

/-- A message for the second partition, which broker 2 leads. -/
def foreignProduce : BrokerEvent := .request (.produce "a" 1 [⟨none, [7], 0⟩]) joinedIo

/-- A batch for a partition of another leader is taken. -/
def takesForeign (b : Broker) : BrokerEvent → Bool
  | .request (.produce topic partition messages) io => decide (b.Foreign topic partition) &&
    (b.produce plainCrates true io topic partition messages).1 ==
      some (.produceSuccess topic partition 0 messages.length)
  | _ => false

end Gaffa
