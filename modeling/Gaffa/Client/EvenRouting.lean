import Gaffa.Client.Batches
import Gaffa.Client.Partitioners
import Gaffa.Lib.RoundRobin

/-!
# Round robin over several topics

A producer with a `RoundRobinPartitioner`.  One counter serves all its topics, and wraps: a message
goes to the partition that its place among all messages of the producer stands for.

* `routes_eq`: where the messages go, by their places.
* `round_robin_even_iff`: a topic's messages are spread evenly at every moment exactly when in each
  round of as many messages as it has partitions the places stand for different ones.
-/

set_option autoImplicit false

namespace Gaffa

open ByteString Grouping Dialogue RoundRobin

/-! ## Sending on -/

/-- The partitioner is a `RoundRobinPartitioner` that nobody else uses. -/
structure UsesRoundRobin {σ : Type} (answer : σ → (q : Inquiry) → q.Answer × σ)
    (partitioner : σ → RoundRobinPartitioner) : Prop where
  chooses : ∀ s key count,
    (answer s (.partition key count)).1 = .ok ((partitioner s).partition count).1
  counts : ∀ s key count,
    partitioner (answer s (.partition key count)).2 = ((partitioner s).partition count).2
  exchange : ∀ s request, partitioner (answer s (.exchange request)).2 = partitioner s
  iterate : ∀ s batches, partitioner (answer s (.iterate batches)).2 = partitioner s

/-- The messages that calls of `send_batch_auto` route, whether the calls succeed or not: each with
its topic and the partition that was chosen for it. -/
def routes {σ : Type} (answer : σ → (q : Inquiry) → q.Answer × σ) :
    σ → List (String × List Message) → Producer → List (String × Nat)
  | _, [], _ => []
  | s, (topic, messages) :: calls, p =>
    (choices (transcript answer s (p.sendBatchAuto topic messages))).map (fun c => (topic, c.2)) ++
      routes answer (run answer s (p.sendBatchAuto topic messages)).2 calls
        (run answer s (p.sendBatchAuto topic messages)).1.2

/-- Any two partitions of a topic have got numbers of its messages that differ by at most one. -/
def EvenPerTopic (counts : String → Nat) (routed : List (String × Nat)) : Prop :=
  ∀ topic, Balanced (counts topic) (valuesFor topic routed)

/-! ## By places -/

/-- Messages with these topics, dealt from the `k`-th on. -/
def deal (counts : String → Nat) : Nat → List String → List (String × Nat)
  | _, [] => []
  | k, topic :: topics => (topic, k % 2 ^ 32 % counts topic) :: deal counts (k + 1) topics

/-- The places of a topic's messages, in a sequence that starts with the `k`-th. -/
def places (topic : String) : Nat → List String → List Nat
  | _, [] => []
  | k, t :: topics =>
    if t = topic then k :: places topic (k + 1) topics else places topic (k + 1) topics

/-- The partitions that places stand for, of `n`. -/
def turns (n : Nat) (is : List Nat) : List Nat := is.map fun i => i % 2 ^ 32 % n

theorem deal_append (counts : String → Nat) (k : Nat) (ts us : List String) :
    deal counts k (ts ++ us) = deal counts k ts ++ deal counts (k + ts.length) us := by
  induction ts generalizing k with
  | nil => rfl
  | cons t ts ih =>
    rw [List.cons_append, deal, ih, deal, List.cons_append, List.length_cons, Nat.add_assoc,
      Nat.add_comm 1]

theorem valuesFor_deal (counts : String → Nat) (topic : String) (k : Nat) (ts : List String) :
    valuesFor topic (deal counts k ts) = turns (counts topic) (places topic k ts) := by
  induction ts generalizing k with
  | nil => rfl
  | cons t ts ih =>
    have hcons := valuesFor_append topic [(t, k % 2 ^ 32 % counts t)] (deal counts (k + 1) ts)
    rw [List.singleton_append] at hcons
    rw [deal, hcons, valuesFor_singleton, ih, places]
    by_cases ht : t = topic
    · subst ht
      rw [if_pos rfl, if_pos rfl]
      rfl
    · rw [if_neg ht, if_neg ht]
      rfl

/-! ## The producer's choices -/

section Choices

variable {σ : Type} {answer : σ → (q : Inquiry) → q.Answer × σ} {s : σ}

theorem choices_sendAll (topic : String) (batches : List (Nat × List Message)) (baseOffset : Nat) :
    choices (transcript answer s (Producer.sendAll topic batches baseOffset)) = [] := by
  induction batches generalizing s baseOffset with
  | nil => rfl
  | cons batch batches ih =>
    rw [sendAll_cons, transcript_ask]
    generalize (answer s (.exchange (.produce topic batch.1 batch.2))).1 = reply
    change Reply at reply
    cases Producer.sent reply with
    | error e => rfl
    | ok offset => exact ih _

/-- Every choice of a loop over the messages is among the same number of partitions. -/
theorem count_of_choices_group {count : Nat} {messages : List Message}
    {batches : Table Nat (List Message)} :
    ∀ c ∈ choices (transcript answer s (Producer.group count messages batches)),
      c.1.2 = count := by
  induction messages generalizing s batches with
  | nil =>
    intro c hc
    cases hc
  | cons message messages ih =>
    rw [group_cons, transcript_ask]
    generalize (answer s (.partition message.key count)).1 = choice
    cases choice with
    | error e =>
      intro c hc
      cases hc
    | ok partition =>
      intro c hc
      rcases List.mem_cons.1 hc with rfl | hc
      · rfl
      · exact ih c hc

theorem count_of_choices_sendBatches {topic : String} {messages : List Message} {count : Nat} :
    ∀ c ∈ choices (transcript answer s (Producer.sendBatches topic messages count)),
      c.1.2 = count := by
  unfold Producer.sendBatches
  rw [transcript_bind, choices_append]
  intro c hc
  rcases List.mem_append.1 hc with hc | hc
  · exact count_of_choices_group c hc
  · cases hgroup : (run answer s (Producer.group count messages Table.empty)).1 with
    | error e =>
      rw [hgroup] at hc
      cases hc
    | ok batches =>
      rw [hgroup] at hc
      change c ∈ choices (transcript answer _ (Producer.sendAll topic _ 0)) at hc
      rw [choices_sendAll] at hc
      cases hc

variable {counts : String → Nat} {p : Producer}

/-- **One call** of `send_batch_auto`, whatever becomes of it. -/
theorem count_of_choices (hfixed : FixedCounts answer counts) (hcached : p.Cached counts)
    (topic : String) (messages : List Message) :
    (∀ c ∈ choices (transcript answer s (p.sendBatchAuto topic messages)),
      c.1.2 = counts topic) ∧
    (run answer s (p.sendBatchAuto topic messages)).1.2.Cached counts := by
  obtain ⟨hsilent, hcached', hcount⟩ := run_numPartitions (s := s) hfixed hcached topic
  unfold Producer.sendBatchAuto
  rw [run_bind, transcript_bind, choices_append, hsilent.choices, List.nil_append]
  generalize run answer s (p.numPartitions topic) = outcome at hcached' hcount ⊢
  obtain ⟨⟨counted, p'⟩, s'⟩ := outcome
  cases counted with
  | error e => exact ⟨fun c hc => (List.not_mem_nil hc).elim, hcached'⟩
  | ok count =>
    obtain rfl := hcount count rfl
    refine ⟨?_, ?_⟩
    · intro c hc
      change c ∈ choices (transcript answer s'
        (Producer.sendBatches topic messages (counts topic) >>= fun result =>
          pure (result, p'))) at hc
      rw [transcript_bind, choices_append] at hc
      rcases List.mem_append.1 hc with hc | hc
      · exact count_of_choices_sendBatches c hc
      · cases hc
    · change (run answer s' (Producer.sendBatches topic messages (counts topic) >>= fun result =>
        pure (result, p'))).1.2.Cached counts
      rw [run_bind]
      exact hcached'

/-- **The counter** goes from choice to choice, whatever else the producer asks. -/
theorem choices_roundRobin {partitioner : σ → RoundRobinPartitioner}
    (huses : UsesRoundRobin answer partitioner) {topic : String} (hpos : 0 < counts topic)
    {α : Type} (d : Sending α) {k : Nat} (hk : (partitioner s).counter = k % 2 ^ 32)
    (hcount : ∀ c ∈ choices (transcript answer s d), c.1.2 = counts topic) :
    (choices (transcript answer s d)).map (fun c => (topic, c.2)) =
        deal counts k ((choices (transcript answer s d)).map fun _ => topic) ∧
      (partitioner (run answer s d).2).counter =
        (k + (choices (transcript answer s d)).length) % 2 ^ 32 := by
  induction d generalizing s k with
  | done a => exact ⟨rfl, hk⟩
  | ask q next ih =>
    rw [transcript_ask] at hcount ⊢
    rw [run_ask]
    cases q with
    | exchange request =>
      exact ih _ ((congrArg _ (huses.exchange s request)).trans hk) hcount
    | iterate batches =>
      exact ih _ ((congrArg _ (huses.iterate s batches)).trans hk) hcount
    | partition key count =>
      have hchooses := huses.chooses s key count
      have hcounts := huses.counts s key count
      generalize (answer s (.partition key count)).1 = choice at hchooses hcount ⊢
      subst hchooses
      obtain ⟨rfl, hrest⟩ := List.forall_mem_cons.1 hcount
      rw [RoundRobinPartitioner.partition, if_neg (Nat.ne_of_gt hpos), hk] at hcounts
      obtain ⟨htail, hcounter⟩ := ih _ (k := k + 1) (by rw [hcounts, Nat.mod_add_mod]) hrest
      have hfirst : ((partitioner s).partition (counts topic)).1 =
          k % 2 ^ 32 % counts topic := by
        rw [RoundRobinPartitioner.partition, if_neg (Nat.ne_of_gt hpos), hk]
      constructor
      · exact congrArg₂ List.cons (congrArg (Prod.mk topic) hfirst) htail
      · rw [hcounter, Nat.add_assoc, Nat.add_comm 1]
        rfl

/-- **A run of calls**: where the messages go, by their places. -/
theorem routes_eq {partitioner : σ → RoundRobinPartitioner}
    (huses : UsesRoundRobin answer partitioner) (hfixed : FixedCounts answer counts)
    (hpos : ∀ topic, 0 < counts topic) {calls : List (String × List Message)}
    (hcached : p.Cached counts) {k : Nat} (hk : (partitioner s).counter = k % 2 ^ 32) :
    routes answer s calls p = deal counts k ((routes answer s calls p).map Prod.fst) := by
  induction calls generalizing s p k with
  | nil => rfl
  | cons call calls ih =>
    obtain ⟨topic, messages⟩ := call
    obtain ⟨hcount, hcached'⟩ := count_of_choices (s := s) hfixed hcached topic messages
    obtain ⟨hcall, hcounter⟩ := choices_roundRobin huses (hpos topic) _ hk hcount
    have hrest := ih hcached' hcounter
    rw [routes, List.map_append, deal_append, List.map_map, List.length_map]
    exact congrArg₂ _ hcall hrest

end Choices

/-! ## Evenness -/

/-- **Round robin over several topics**: the messages of each topic are spread evenly at every
moment exactly when, for each topic, every round of as many of its messages as it has partitions
stands at places that are for different ones. -/
theorem round_robin_even_iff {σ : Type} (answer : σ → (q : Inquiry) → q.Answer × σ)
    (partitioner : σ → RoundRobinPartitioner) (huses : UsesRoundRobin answer partitioner)
    (counts : String → Nat) (hfixed : FixedCounts answer counts) (hpos : ∀ topic, 0 < counts topic)
    (s : σ) (hnew : partitioner s = .new) (calls : List (String × List Message)) :
    (∀ m, EvenPerTopic counts ((routes answer s calls .new).take m)) ↔
      ∀ topic, DistinctRounds (counts topic)
        (turns (counts topic) (places topic 0 ((routes answer s calls .new).map Prod.fst))) := by
  have hcached : Producer.Cached counts .new := fun _ _ hget => by cases hget
  have hcounter : (partitioner s).counter = 0 % 2 ^ 32 := by
    rw [hnew]
    rfl
  have hdeal : routes answer s calls .new =
      deal counts 0 ((routes answer s calls .new).map Prod.fst) :=
    routes_eq huses hfixed hpos hcached hcounter
  generalize routes answer s calls .new = routed at hdeal ⊢
  generalize routed.map Prod.fst = topics at hdeal ⊢
  subst hdeal
  have htopic : ∀ topic, (∀ m, Balanced (counts topic)
      (valuesFor topic ((deal counts 0 topics).take m))) ↔
      DistinctRounds (counts topic) (turns (counts topic) (places topic 0 topics)) := by
    intro topic
    have hlt : ∀ p ∈ turns (counts topic) (places topic 0 topics), p < counts topic := by
      intro p hp
      obtain ⟨i, -, rfl⟩ := List.mem_map.1 hp
      exact Nat.mod_lt _ (hpos topic)
    rw [← balanced_take_iff hlt, ← valuesFor_deal]
    constructor
    · intro h m
      obtain ⟨l, hl⟩ := exists_valuesFor_take topic (deal counts 0 topics) m
      rw [← hl]
      exact h l
    · intro h m
      rw [valuesFor_take]
      exact h _
  constructor
  · intro h topic
    exact (htopic topic).1 fun m => h m topic
  · intro h m topic
    exact (htopic topic).2 (h topic) m

/-! ## Two topics -/

/-- A batch for partition 0 alone, or as with `firstToLast`. -/
noncomputable def lowestFirst (batches : Table Nat (List Message)) :
    { order : List Nat // batches.Order order } :=
  if h : batches.Order [0] then ⟨[0], h⟩ else firstToLast batches

/-- Topics with two partitions, a broker that acknowledges every batch, and the partitioner. -/
noncomputable def roundRobinBroker :
    RoundRobinPartitioner → (q : Inquiry) → q.Answer × RoundRobinPartitioner
  | p, .exchange request => ((twoPartitionBroker () (.exchange request)).1, p)
  | p, .partition _ count => (.ok (p.partition count).1, (p.partition count).2)
  | p, .iterate batches => (lowestFirst batches, p)

theorem roundRobinBroker_uses : UsesRoundRobin roundRobinBroker id where
  chooses _ _ _ := rfl
  counts _ _ _ := rfl
  exchange _ _ := rfl
  iterate _ _ := rfl

theorem roundRobinBroker_fixed : FixedCounts roundRobinBroker fun _ => 2 := by
  intro s topic topic' count h
  cases h
  rfl

/-- Two messages of one topic. -/
theorem round_robin_even_two :
    EvenPerTopic (fun _ => 2) ((routes roundRobinBroker .new
      [("a", [⟨none, [1], 0⟩, ⟨none, [2], 0⟩])] .new).take 2) :=
  (round_robin_even_iff roundRobinBroker id roundRobinBroker_uses (fun _ => 2)
    roundRobinBroker_fixed (fun _ => Nat.two_pos) .new rfl
    [("a", [⟨none, [1], 0⟩, ⟨none, [2], 0⟩])]).2 (by
    have hroutes : routes roundRobinBroker .new [("a", [⟨none, [1], 0⟩, ⟨none, [2], 0⟩])] .new =
      [("a", 0), ("a", 1)] := rfl
    intro topic
    rw [hroutes]
    by_cases htopic : "a" = topic
    · subst htopic
      exact DistinctRounds.of_nodup (by decide)
    · have hnone : places topic 0 ["a", "a"] = [] := by
        simp [places, htopic]
      exact DistinctRounds.of_nodup (by simp [hnone, turns])) 2

/-- Messages of two topics in turn: both of the first go to its first partition. -/
theorem round_robin_uneven :
    ¬ ∀ (σ : Type) (answer : σ → (q : Inquiry) → q.Answer × σ)
      (partitioner : σ → RoundRobinPartitioner) (counts : String → Nat),
      UsesRoundRobin answer partitioner → FixedCounts answer counts →
        (∀ topic, 0 < counts topic) → ∀ s, partitioner s = .new → ∀ calls,
          EvenPerTopic counts (routes answer s calls .new) := by
  intro h
  have heven := h _ roundRobinBroker id (fun _ => 2) roundRobinBroker_uses roundRobinBroker_fixed
    (fun _ => Nat.two_pos) .new rfl
    [("a", [⟨none, [1], 0⟩]), ("b", [⟨none, [2], 0⟩]), ("a", [⟨none, [3], 0⟩])] "a" 0 1
    Nat.two_pos Nat.one_lt_two
  have hroutes : routes roundRobinBroker .new
    [("a", [⟨none, [1], 0⟩]), ("b", [⟨none, [2], 0⟩]), ("a", [⟨none, [3], 0⟩])] .new =
      [("a", 0), ("b", 1), ("a", 0)] := rfl
  rw [hroutes] at heven
  exact absurd heven (by decide)

end Gaffa
