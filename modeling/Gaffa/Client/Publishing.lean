import Gaffa.Broker.LogService
import Gaffa.Client.Batches
import Gaffa.Lib.Clients

/-!
# What a producer puts into the logs

The calls of `send_batch_auto` of one producer, one after the other until one fails, as a program whose
requests are interleaved with those of others.  Where its messages are to go is what the partitioner
chose for them.

* `meets_sendCalls`: each batch that the producer sends to a partition is what was to go there next, and
  calls that succeed have sent everything.
* `ensures_sendCalls`: on topics that exist the calls succeed, unless the connection fails or the
  partitioner leaves its range.
-/

set_option autoImplicit false

namespace Gaffa

open Grouping Dialogue

/-! ## Where the messages are to go -/

/-- The messages that calls of `send_batch_auto` are given, each with its topic. -/
def given (calls : List (String × List Message)) : List (String × Message) :=
  calls.flatMap fun call => call.2.map fun m => (call.1, m)

/-- The messages with the partitions that were chosen for them, one after the other. -/
def destined (calls : List (String × List Message)) (chosen : List Nat) :
    List (TopicPartition × Message) :=
  List.zipWith (fun x partition => ((x.1, partition), x.2)) (given calls) chosen

/-- The messages that are to go to one partition, in order. -/
def destinedFor (calls : List (String × List Message)) (chosen : List Nat) (key : TopicPartition) :
    List Message :=
  valuesFor key (destined calls chosen)

section Destined

variable {calls front rest : List (String × List Message)} {chosen chosen' partitions : List Nat}
  {topic : String} {messages : List Message} {key : TopicPartition}

theorem given_append (calls calls' : List (String × List Message)) :
    given (calls ++ calls') = given calls ++ given calls' := List.flatMap_append

theorem given_cons (topic : String) (messages : List Message)
    (calls : List (String × List Message)) :
    given ((topic, messages) :: calls) = messages.map (fun m => (topic, m)) ++ given calls := rfl

/-- What is to go to a partition was given. -/
theorem exists_call_of_mem {m : Message} (h : m ∈ destinedFor calls chosen key) :
    ∃ call ∈ calls, m ∈ call.2 := by
  obtain ⟨x, hx, rfl⟩ := List.mem_map.1 h
  obtain ⟨i, hi⟩ := List.mem_iff_getElem?.1 (List.mem_of_mem_filter hx)
  rw [destined, List.getElem?_zipWith_eq_some] at hi
  obtain ⟨y, partition, hy, -, rfl⟩ := hi
  obtain ⟨call, hcall, hmem⟩ := List.mem_flatMap.1 (List.mem_of_getElem? hy)
  obtain ⟨m, hm, rfl⟩ := List.mem_map.1 hmem
  exact ⟨call, hcall, hm⟩

theorem zipWith_isPrefix {α β γ : Type} (f : α → β → γ) (xs : List α) (ys more : List β) :
    List.zipWith f xs ys <+: List.zipWith f xs (ys ++ more) := by
  induction xs generalizing ys with
  | nil => exact List.prefix_rfl
  | cons x xs ih =>
    cases ys with
    | nil => exact List.nil_prefix
    | cons y ys => exact List.cons_prefix_cons.2 ⟨rfl, ih ys⟩

/-- More choices add messages at the end. -/
theorem destinedFor_isPrefix (calls : List (String × List Message)) (chosen more : List Nat)
    (key : TopicPartition) :
    destinedFor calls chosen key <+: destinedFor calls (chosen ++ more) key := by
  obtain ⟨rest, hrest⟩ := zipWith_isPrefix
    (fun x partition => ((x.1, partition), x.2)) (given calls) chosen more
  rw [destinedFor, destinedFor, destined, destined, ← hrest, valuesFor_append]
  exact List.prefix_append _ _

/-- The messages of one call for one partition. -/
theorem valuesFor_zipWith (topic : String) (messages : List Message) (partitions : List Nat)
    (key : TopicPartition) :
    valuesFor key (List.zipWith (fun x partition => ((x.1, partition), x.2))
      (messages.map fun m => (topic, m)) partitions) =
      if key.1 = topic then valuesFor key.2 (partitions.zip messages) else [] := by
  induction messages generalizing partitions with
  | nil => simp
  | cons m messages ih =>
    cases partitions with
    | nil => simp
    | cons partition partitions =>
      have hsplit := valuesFor_append key [((topic, partition), m)]
        (List.zipWith (fun x partition => ((x.1, partition), x.2))
          (messages.map fun m => (topic, m)) partitions)
      have hzip := valuesFor_append key.2 [(partition, m)] (partitions.zip messages)
      rw [ih, valuesFor_singleton] at hsplit
      rw [valuesFor_singleton] at hzip
      rw [List.map_cons, List.zipWith_cons_cons, List.zip_cons_cons]
      refine hsplit.trans ?_
      obtain ⟨topic', partition'⟩ := key
      by_cases htopic : topic' = topic
      · subst htopic
        rw [if_pos rfl, if_pos rfl]
        refine Eq.trans ?_ hzip.symm
        simp
      · rw [if_neg htopic, if_neg htopic, List.append_nil, if_neg]
        rintro ⟨⟩
        exact htopic rfl

/-- **One call**: its messages go behind those of the calls before it. -/
theorem destinedFor_call (hcalls : calls = front ++ (topic, messages) :: rest)
    (hchosen : chosen.length = (given front).length) (hlength : partitions.length = messages.length)
    (key : TopicPartition) : destinedFor calls (chosen ++ partitions) key =
      destinedFor calls chosen key ++
        if key.1 = topic then valuesFor key.2 (partitions.zip messages) else [] := by
  have hsplit : ∀ more, destined calls (chosen ++ more) = destined front chosen ++
      List.zipWith (fun x partition => ((x.1, partition), x.2))
        (messages.map (fun m => (topic, m)) ++ given rest) more := by
    intro more
    rw [destined, hcalls, given_append, given_cons, List.zipWith_append hchosen.symm, destined]
  have hnone := hsplit []
  rw [List.append_nil, List.zipWith_nil_right, List.append_nil] at hnone
  have hcall : List.zipWith (fun x partition => ((x.1, partition), x.2))
      (messages.map (fun m => (topic, m)) ++ given rest) partitions =
      List.zipWith (fun x partition => ((x.1, partition), x.2))
        (messages.map fun m => (topic, m)) partitions := by
    have hsame : (messages.map fun m => (topic, m)).length = partitions.length := by
      rw [List.length_map, hlength]
    have happend : List.zipWith (fun x partition => ((x.1, partition), x.2))
        (messages.map (fun m => (topic, m)) ++ given rest) (partitions ++ []) = _ :=
      List.zipWith_append hsame
    rwa [List.append_nil, List.zipWith_nil_right, List.append_nil] at happend
  rw [destinedFor, hsplit, hcall, valuesFor_append, valuesFor_zipWith, destinedFor, hnone]

end Destined

/-! ## What a producer owes -/

/-- What a producer has sent to each partition and was told to be stored, the partitions that were chosen
so far, and whether its connection is open. -/
structure Account where
  sent : TopicPartition → List Message
  chosen : List Nat
  isOpen : Bool

/-- More has been sent to a partition. -/
def Account.add (key : TopicPartition) (messages : List Message) (a : Account) : Account :=
  { a with sent := Function.update a.sent key (a.sent key ++ messages) }

/-- Accounts change through answers only. -/
instance : Preorder Account where
  le := Eq
  le_refl := Eq.refl
  le_trans _ _ _ := Eq.trans

/-- The producer asks something that is due: it sends to a partition what is to go there next. -/
def Publishes (calls : List (String × List Message)) (a : Account) : Inquiry → Prop
  | .exchange (.produce topic partition messages) => a.isOpen = true ∧ messages ≠ [] ∧
      a.sent (topic, partition) ++ messages <+: destinedFor calls a.chosen (topic, partition)
  | .exchange (.getPartitions _) => a.isOpen = true
  | .exchange _ => False
  | _ => True

/-- The account after an answer. -/
def accountAfter (a : Account) : (q : Inquiry) → q.Answer → Account
  | .exchange (.produce topic partition messages), .ok (.produceSuccess _ _ _ _) =>
    a.add (topic, partition) messages
  | .exchange _, .error _ => { a with isOpen := false }
  | .partition _ _, .ok partition => { a with chosen := a.chosen ++ [partition] }
  | _, _ => a

/-- What a producer owes to its calls. -/
def publishingContract (calls : List (String × List Message)) :
    Contract Inquiry Inquiry.Answer Account where
  respects := Publishes calls
  expects _ _ := True
  after := accountAfter
  respects_anti := by
    rintro a a' q ⟨⟩ h
    exact h
  after_mono := by
    rintro a a' q r ⟨⟩
    rfl

/-- The messages of these calls, the first ones, have been sent. -/
structure SentUpTo (calls front : List (String × List Message)) (a : Account) : Prop where
  isOpen : a.isOpen = true
  chosen : a.chosen.length = (given front).length
  sent : ∀ key, a.sent key = destinedFor calls a.chosen key

section Publishing

variable {calls front rest : List (String × List Message)} {topic : String} {messages : List Message}
  {a : Account} {p : Producer}

/-- **The number of partitions** of the topic. -/
theorem meets_numPartitions (topic : String) (p : Producer) (h : SentUpTo calls front a) :
    Meets (publishingContract calls) (fun a r => (∃ n, r.1 = .ok n) → SentUpTo calls front a) a
      (p.numPartitions topic) := by
  unfold Producer.numPartitions Producer.refreshMissing
  split
  · exact fun _ => h
  · refine ⟨h.isOpen, fun reply _ => ?_⟩
    change Reply at reply
    cases reply with
    | error e =>
      rintro ⟨n, hn⟩
      cases hn
    | ok response =>
      cases response with
      | partitions topic' count => exact fun _ => h
      | _ =>
        rintro ⟨n, hn⟩
        cases hn

/-- **The choices**. -/
theorem meets_group (count : Nat) (hopen : a.isOpen = true) {batches : Table Nat (List Message)}
    {pairs : List (Nat × Message)} (hbatches : Grouping.Holds batches pairs) :
    Meets (publishingContract calls) (fun a' r => ∀ batches', r = .ok batches' →
        ∃ partitions : List Nat, partitions.length = messages.length ∧
          a' = { a with chosen := a.chosen ++ partitions } ∧
          Grouping.Holds batches' (pairs ++ partitions.zip messages)) a
      (Producer.group count messages batches) := by
  induction messages generalizing a batches pairs with
  | nil =>
    rintro batches' ⟨⟩
    refine ⟨[], rfl, by rw [List.append_nil], ?_⟩
    rw [List.zip_nil_right, List.append_nil]
    exact hbatches
  | cons message messages ih =>
    rw [group_cons]
    refine ⟨trivial, fun choice _ => ?_⟩
    change Except Fault Nat at choice
    cases choice with
    | error e =>
      rintro batches' ⟨⟩
    | ok partition =>
      refine (ih (a := { a with chosen := a.chosen ++ [partition] }) hopen
        (hbatches.push partition message)).mono ?_
      rintro a' r hr batches' rfl
      obtain ⟨partitions, hlength, rfl, hholds⟩ := hr batches' rfl
      refine ⟨partition :: partitions, by rw [List.length_cons, hlength, List.length_cons], ?_, ?_⟩
      · simp
      · rw [List.append_assoc] at hholds
        exact hholds

/-- **The batches** of a call. -/
theorem meets_sendAll {order : List Nat} (hnodup : order.Nodup) (batch : Nat → List Message)
    (baseOffset : Nat) (hopen : a.isOpen = true)
    (hbatch : ∀ partition ∈ order, batch partition ≠ [] ∧
      a.sent (topic, partition) ++ batch partition <+: destinedFor calls a.chosen (topic, partition)) :
    Meets (publishingContract calls) (fun a' r => (∃ offset, r = .ok offset) →
        a'.isOpen = true ∧ a'.chosen = a.chosen ∧ ∀ key, a'.sent key = a.sent key ++
          if key.1 = topic ∧ key.2 ∈ order then batch key.2 else []) a
      (Producer.sendAll topic (order.map fun partition => (partition, batch partition)) baseOffset) := by
  induction order generalizing a baseOffset with
  | nil => exact fun _ => ⟨hopen, rfl, fun key => by simp⟩
  | cons partition order ih =>
    obtain ⟨hnot, hnodup⟩ := List.nodup_cons.1 hnodup
    obtain ⟨⟨hne, hfirst⟩, hrest⟩ := List.forall_mem_cons.1 hbatch
    rw [List.map_cons, sendAll_cons]
    refine ⟨⟨hopen, hne, hfirst⟩, fun reply _ => ?_⟩
    change Reply at reply
    beta_reduce
    cases hsent : Producer.sent reply with
    | error e =>
      rintro ⟨offset, hoffset⟩
      cases hoffset
    | ok offset =>
      obtain ⟨topic', partition', count, rfl⟩ := sent_ok hsent
      have hother : ∀ partition' ∈ order,
          (a.add (topic, partition) (batch partition)).sent (topic, partition') =
            a.sent (topic, partition') := by
        intro partition' hmem
        refine Function.update_of_ne ?_ ..
        rintro ⟨⟩
        exact hnot hmem
      refine (ih (a := a.add (topic, partition) (batch partition)) hnodup _ hopen
        fun partition' hmem => ?_).mono ?_
      · rw [hother partition' hmem]
        exact hrest partition' hmem
      · rintro a' r hr hok
        obtain ⟨hopen', hchosen, hsent'⟩ := hr hok
        refine ⟨hopen', hchosen, fun key => ?_⟩
        rw [hsent' key]
        obtain ⟨topic', partition'⟩ := key
        by_cases hkey : (topic', partition') = (topic, partition)
        · cases hkey
          simp [Account.add, hnot]
        · have hkeep : (a.add (topic, partition) (batch partition)).sent (topic', partition') =
              a.sent (topic', partition') := Function.update_of_ne hkey ..
          rw [hkeep]
          by_cases htopic : topic' = topic
          · subst htopic
            have hne' : partition' ≠ partition := fun heq => hkey (by rw [heq])
            simp [hne']
          · simp [htopic]

/-- **One call.** -/
theorem meets_sendBatchAuto (hcalls : calls = front ++ (topic, messages) :: rest)
    (h : SentUpTo calls front a) : Meets (publishingContract calls)
      (fun a r => (∃ offset, r.1 = .ok offset) → SentUpTo calls (front ++ [(topic, messages)]) a) a
      (p.sendBatchAuto topic messages) := by
  unfold Producer.sendBatchAuto
  refine Meets.bind ((meets_numPartitions topic p h).mono ?_)
  rintro a ⟨result, p⟩ hresult
  cases result with
  | error e =>
    rintro ⟨offset, hoffset⟩
    cases hoffset
  | ok count =>
    replace h := hresult ⟨count, rfl⟩
    refine Meets.bind (Meets.bind ((meets_group count h.isOpen holds_empty).mono ?_))
    intro a' grouped hgrouped
    cases grouped with
    | error e =>
      rintro ⟨offset, hoffset⟩
      cases hoffset
    | ok batches =>
      obtain ⟨partitions, hlength, rfl, hholds⟩ := hgrouped batches rfl
      rw [List.nil_append] at hholds
      have hdestined := destinedFor_call hcalls h.chosen hlength
      refine ⟨trivial, fun order _ => ?_⟩
      obtain ⟨order, horder⟩ := order
      have hmem : ∀ partition, partition ∈ order ↔
          valuesFor partition (partitions.zip messages) ≠ [] := by
        intro partition
        rw [horder.mem, hholds.mem_keys, valuesFor_ne_nil]
      change Meets _ _ { a with chosen := a.chosen ++ partitions }
        (Producer.sendAll topic (Producer.entriesIn batches order) 0)
      rw [entriesIn_of_holds hholds horder]
      refine (meets_sendAll (a := { a with chosen := a.chosen ++ partitions }) horder.nodup _ 0
        h.isOpen fun partition hpartition => ?_).mono ?_
      · refine ⟨(hmem partition).1 hpartition, ?_⟩
        rw [hdestined, if_pos rfl]
        simp only
        rw [h.sent]
      · rintro a' r hr hok
        obtain ⟨hopen, hchosen, hsent⟩ := hr hok
        refine ⟨hopen, ?_, fun key => ?_⟩
        · rw [hchosen, given_append, List.length_append, List.length_append, h.chosen, hlength,
            given_cons]
          simp [given]
        · rw [hsent, hchosen, hdestined]
          simp only
          rw [h.sent]
          congr 1
          by_cases htopic : key.1 = topic
          · by_cases hpartition : key.2 ∈ order
            · rw [if_pos ⟨htopic, hpartition⟩, if_pos htopic]
            · rw [if_neg fun hboth => hpartition hboth.2, if_pos htopic]
              exact (Classical.not_not.1 fun hne => hpartition ((hmem key.2).2 hne)).symm
          · rw [if_neg fun hboth => htopic hboth.1, if_neg htopic]

/-- **All calls**, until one fails: those that succeed have sent their messages. -/
theorem meets_sendCalls (hcalls : calls = front ++ rest) (h : SentUpTo calls front a) :
    Meets (publishingContract calls) (fun a r => r.1 = .ok () → SentUpTo calls calls a) a
      (Producer.sendCalls rest p) := by
  induction rest generalizing front a p with
  | nil =>
    rw [List.append_nil] at hcalls
    subst hcalls
    exact fun _ => h
  | cons call rest ih =>
    obtain ⟨topic, messages⟩ := call
    unfold Producer.sendCalls
    refine Meets.bind ((meets_sendBatchAuto hcalls h).mono ?_)
    rintro a ⟨result, p⟩ hresult
    cases result with
    | error e =>
      rintro ⟨⟩
    | ok offset =>
      refine ih ?_ (hresult ⟨offset, rfl⟩)
      rw [hcalls, List.append_assoc, List.singleton_append]

end Publishing

/-! ## What a producer relies on -/

/-- What the answers are, from a service and a producer that may be excused: its connection has failed,
or its partitioner has left its range. -/
def PublishedBy (s : LogService × Bool) : (q : Inquiry) → q.Answer → Prop
  | .exchange (.produce topic partition messages), .ok response =>
    messages ≠ [] → ∀ log, s.1.logs (topic, partition) = some log →
      ∃ base count, response = .produceSuccess topic partition base count
  | .exchange (.getPartitions topic), .ok response =>
    ∀ n, s.1.counts topic = some n → response = .partitions topic n
  | .exchange _, .error _ => s.2 = true
  | .partition _ n, choice => s.2 = true ∨ ∃ partition, choice = .ok partition ∧ partition < n
  | _, _ => True

/-- The operation has succeeded, with the property, or the producer is excused. -/
def Excused {α : Type} (post : LogService → α → Prop) (s : LogService × Bool) (r : α) : Prop :=
  s.2 = true ∨ post s.1 r

/-- What the producer has cached is right. -/
def Producer.Knows (v : LogService) (p : Producer) : Prop :=
  ∀ topic n, p.metadataCache.get topic = some n → v.counts topic = some n

section Relying

variable {s : LogService × Bool} {v v₀ : LogService} {topic : String} {messages : List Message}
  {n : Nat} {p : Producer}

theorem Producer.Knows.later (h : p.Knows v₀) (hle : v₀ ≤ v) : p.Knows v :=
  fun topic n hget => hle.1 topic n (h topic n hget)

/-- Nothing is asked of a producer that is excused. -/
theorem ensures_excused {α : Type} {post : LogService → α → Prop} {d : Sending α}
    (h : s.2 = true) : Ensures PublishedBy (Excused post) s d :=
  Ensures.of_forall fun _ ht _ => Or.inl (ht.2 h)

/-- **The number of partitions** is that of the service. -/
theorem ensures_numPartitions (hcount : s.1.counts topic = some n) (hknows : p.Knows s.1) :
    Ensures PublishedBy (Excused fun v r => r.1 = .ok n ∧ r.2.Knows v) s (p.numPartitions topic) := by
  unfold Producer.numPartitions Producer.refreshMissing
  split
  · rename_i hcached
    obtain ⟨m, hget⟩ := Option.isSome_iff_exists.1 hcached
    cases (hknows topic m hget).symm.trans hcount
    refine fun t ht => Or.inr ⟨?_, hknows.later ht.1⟩
    unfold Producer.cachedCount
    rw [hget]
  · intro t ht reply hreply
    change Reply at reply
    cases reply with
    | error e => exact ensures_excused hreply
    | ok response =>
      obtain rfl := hreply n (ht.1.1 topic n hcount)
      refine fun u hu => Or.inr ⟨?_, ?_⟩
      · change Producer.cachedCount topic _ = _
        unfold Producer.cachedCount
        simp only
        rw [Table.get_insert_self]
      · intro topic' m hget
        rcases Table.get_insert_cases hget with ⟨rfl, rfl⟩ | ⟨-, hget⟩
        · exact (ht.trans hu).1.1 topic' _ hcount
        · exact (ht.trans hu).1.1 topic' m (hknows topic' m hget)

/-- **The choices** are partitions of the topic. -/
theorem ensures_group {batches : Table Nat (List Message)}
    (hbatches : ∀ partition batch, batches.get partition = some batch → partition < n ∧ batch ≠ []) :
    Ensures PublishedBy (Excused fun _ r => ∃ batches', r = .ok batches' ∧
        ∀ partition batch, batches'.get partition = some batch → partition < n ∧ batch ≠ []) s
      (Producer.group n messages batches) := by
  induction messages generalizing s batches with
  | nil => exact fun t ht => Or.inr ⟨batches, rfl, hbatches⟩
  | cons message messages ih =>
    rw [group_cons]
    intro t ht choice hchoice
    rcases hchoice with hexcused | ⟨partition, rfl, hlt⟩
    · exact ensures_excused hexcused
    · refine ih fun partition' batch hget => ?_
      rcases Table.get_insert_cases hget with ⟨rfl, rfl⟩ | ⟨-, hget⟩
      · exact ⟨hlt, List.append_ne_nil_of_right_ne_nil _ (List.cons_ne_nil _ _)⟩
      · exact hbatches partition' batch hget

/-- **The batches** are stored. -/
theorem ensures_sendAll (hcount : s.1.counts topic = some n) {batches : List (Nat × List Message)}
    (hbatches : ∀ b ∈ batches, b.1 < n ∧ b.2 ≠ []) (baseOffset : Nat) :
    Ensures PublishedBy (Excused fun _ r => ∃ offset, r = .ok offset) s
      (Producer.sendAll topic batches baseOffset) := by
  induction batches generalizing s baseOffset with
  | nil => exact fun t ht => Or.inr ⟨baseOffset, rfl⟩
  | cons b batches ih =>
    obtain ⟨⟨hlt, hne⟩, hrest⟩ := List.forall_mem_cons.1 hbatches
    rw [sendAll_cons]
    intro t ht reply hreply
    change Reply at reply
    cases reply with
    | error e => exact ensures_excused hreply
    | ok response =>
      have hcount' := ht.1.1 topic n hcount
      obtain ⟨log, hlog⟩ := t.1.full topic n b.1 hcount' hlt
      obtain ⟨base, count, rfl⟩ := hreply hne log hlog
      exact ih hcount' hrest _

/-- **One call** on a topic that exists. -/
theorem ensures_sendBatchAuto (hcount : s.1.counts topic = some n) (hknows : p.Knows s.1) :
    Ensures PublishedBy (Excused fun v r => (∃ offset, r.1 = .ok offset) ∧ r.2.Knows v) s
      (p.sendBatchAuto topic messages) := by
  unfold Producer.sendBatchAuto
  refine Ensures.bind ((ensures_numPartitions hcount hknows).mono ?_)
  rintro t ht ⟨result, p⟩ (hexcused | ⟨rfl, hknows⟩)
  · exact ensures_excused hexcused
  have hcount' := ht.1.1 topic n hcount
  refine Ensures.bind (Ensures.bind ((ensures_group (n := n) fun partition batch hget => ?_).mono ?_))
  · cases hget
  rintro u hu grouped (hexcused | ⟨batches, rfl, hbatches⟩)
  · exact Ensures.of_forall fun w hw _ => ensures_excused (hw.2 hexcused)
  rintro w hw ⟨order, horder⟩ -
  have hentries : ∀ b ∈ Producer.entriesIn batches order, b.1 < n ∧ b.2 ≠ [] := by
    intro b hb
    obtain ⟨partition, -, hentry⟩ := List.mem_filterMap.1 hb
    obtain ⟨batch, hget, rfl⟩ := Option.map_eq_some_iff.1 hentry
    exact hbatches partition batch hget
  refine (ensures_sendAll ((hu.trans hw).1.1 topic n hcount') hentries 0).mono ?_
  rintro x hx result (hexcused | hok)
  · exact ensures_excused hexcused
  · exact fun y hy => Or.inr ⟨hok, hknows.later ((hu.trans hw).trans (hx.trans hy)).1⟩

/-- **All calls** succeed. -/
theorem ensures_sendCalls {calls : List (String × List Message)}
    (hcounts : ∀ call ∈ calls, ∃ n, s.1.counts call.1 = some n) (hknows : p.Knows s.1) :
    Ensures PublishedBy (Excused fun _ r => r.1 = .ok ()) s (Producer.sendCalls calls p) := by
  induction calls generalizing s p with
  | nil => exact fun t ht => Or.inr rfl
  | cons call calls ih =>
    obtain ⟨topic, messages⟩ := call
    obtain ⟨⟨n, hcount⟩, hcounts⟩ := List.forall_mem_cons.1 hcounts
    unfold Producer.sendCalls
    refine Ensures.bind ((ensures_sendBatchAuto hcount hknows).mono ?_)
    rintro t ht ⟨result, p⟩ (hexcused | ⟨⟨offset, rfl⟩, hknows⟩)
    · exact ensures_excused hexcused
    · refine ih (fun call hcall => ?_) hknows
      obtain ⟨m, hm⟩ := hcounts call hcall
      exact ⟨m, ht.1.1 call.1 m hm⟩

end Relying

end Gaffa
