import Gaffa.Client.Consumer
import Gaffa.Lib.Transition

/-!
# Runs of polls

Calls of `poll` and `poll_group`, with any pattern of success and failure of the fetches in them.  A
loop over the partitions advances their offsets one by one and returns at the first fetch that fails,
and then the records of the fetches before it are dropped.

* `run_fetchAll`: what one loop does to the offsets and what it returns.
* `polls_skip_nothing_iff`: a poll that fails leaves the offsets as they were if and only if no fetch
  before the one that failed had returned records; and then no offset is skipped over a run.
-/

set_option autoImplicit false

namespace Gaffa

open Transition

/-! ## Replies -/

/-- A connection on which the requests get these replies, until it is closed. -/
def answerFrom : List Reply → (e : Effect) → e.Answer × List Reply
  | [], .exchange _ => (.error (.connection "Connection closed"), [])
  | reply :: replies, .exchange _ => (reply, replies)
  | replies, .spawn _ _ => ((0 : Nat), replies)
  | replies, .abort _ => ((), replies)

/-- The records are those of the partition from the offset on, and offsets fit in a `u64`. -/
def Follows (topic : String) (partition : Nat) : Nat → List Record → Prop
  | _, [] => True
  | offset, r :: records => r.topic = topic ∧ r.partition = partition ∧ r.offset = offset ∧
      offset + 1 < 2 ^ 64 ∧ Follows topic partition (offset + 1) records

instance decidableFollows (topic : String) (partition : Nat) :
    ∀ offset records, Decidable (Follows topic partition offset records)
  | _, [] => isTrue trivial
  | offset, r :: records =>
    have := decidableFollows topic partition (offset + 1) records
    inferInstanceAs (Decidable (r.topic = topic ∧ r.partition = partition ∧ r.offset = offset ∧
      offset + 1 < 2 ^ 64 ∧ Follows topic partition (offset + 1) records))

/-- What a broker answers a fetch with: records of the partition from the requested offset on. -/
def HonestFetch : (e : Effect) → e.Answer → Prop
  | .exchange (.fetch topic partition offset _), .ok (.fetchSuccess _ _ records) =>
    Follows topic partition offset records
  | _, _ => True

instance : ∀ (e : Effect) (answer : e.Answer), Decidable (HonestFetch e answer) := by
  intro e answer
  unfold HonestFetch
  split <;> infer_instance

/-- The records of the first `n` fetches, up to the first one that fails. -/
def recordsBeforeFailure : Nat → List Reply → List (List Record)
  | 0, _ => []
  | _ + 1, [] => []
  | n + 1, reply :: replies =>
    match Consumer.fetched reply with
    | .error _ => []
    | .ok records => records :: recordsBeforeFailure n replies

/-- One of the first `n` fetches fails, and one before it returned records. -/
def Skips (n : Nat) (replies : List Reply) : Prop :=
  (recordsBeforeFailure n replies).length < n ∧ ∃ records ∈ recordsBeforeFailure n replies,
    records ≠ []

instance (n : Nat) (replies : List Reply) : Decidable (Skips n replies) :=
  inferInstanceAs (Decidable (_ ∧ _))

section Records

variable {topic : String} {partition offset : Nat}

/-- The record is of the partition. -/
def Record.isOf (key : TopicPartition) (r : Record) : Bool := r.topic = key.1 ∧ r.partition = key.2

theorem follows_append {xs ys : List Record} : Follows topic partition offset (xs ++ ys) ↔
    Follows topic partition offset xs ∧ Follows topic partition (offset + xs.length) ys := by
  induction xs generalizing offset with
  | nil => simp [Follows]
  | cons x xs ih =>
    have hlen : offset + 1 + xs.length = offset + (x :: xs).length := by
      rw [List.length_cons]
      omega
    simp only [List.cons_append, Follows, ih, hlen, and_assoc]

theorem filter_of_follows {records : List Record} (h : Follows topic partition offset records)
    (key : TopicPartition) :
    records.filter (·.isOf key) = if key = (topic, partition) then records else [] := by
  induction records generalizing offset with
  | nil => simp
  | cons r records ih =>
    obtain ⟨htopic, hpartition, -, -, hrest⟩ := h
    rw [List.filter_cons, ih hrest]
    by_cases hkey : key = (topic, partition)
    · subst hkey
      simp [Record.isOf, htopic, hpartition]
    · rw [if_neg hkey, if_neg hkey, if_neg]
      intro hof
      apply hkey
      simp only [Record.isOf, decide_eq_true_eq] at hof
      rw [← htopic, ← hpartition]
      exact Prod.ext hof.1.symm hof.2.symm

theorem getLast?_of_follows {records : List Record} (h : Follows topic partition offset records)
    (hne : records ≠ []) : ∃ r, records.getLast? = some r ∧
      r.offset + 1 = offset + records.length ∧ offset + records.length < 2 ^ 64 := by
  obtain ⟨front, r, rfl⟩ := (List.eq_nil_or_concat' records).resolve_left hne
  obtain ⟨-, -, -, hoffset, hlt, -⟩ := follows_append.1 h
  refine ⟨r, List.getLast?_concat, ?_, ?_⟩
  · rw [hoffset, List.length_append, List.length_singleton]
    omega
  · rw [List.length_append, List.length_singleton]
    omega

end Records

/-! ## The loop -/

/-- From `c` to `c'` the consumer took these records: of each partition those from its position on,
which moved behind them. -/
structure Polled (c : Consumer) (records : List Record) (c' : Consumer) : Prop where
  follows : ∀ key : TopicPartition,
    Follows key.1 key.2 (c.position key) (records.filter (·.isOf key))
  position : ∀ key, c'.position key = c.position key + (records.filter (·.isOf key)).length

section Loop

variable {c c' c'' : Consumer} {key : TopicPartition} {records : List Record} {b : Bool}
  {maxMessages : Nat}

theorem Polled.refl (c : Consumer) : Polled c [] c := ⟨fun _ => trivial, fun _ => rfl⟩

theorem Polled.trans {records' : List Record} (h : Polled c records c')
    (h' : Polled c' records' c'') : Polled c (records ++ records') c'' := by
  constructor
  · intro key
    rw [List.filter_append, follows_append, ← h.position]
    exact ⟨h.follows key, h'.follows key⟩
  · intro key
    rw [List.filter_append, List.length_append, h'.position, h.position, Nat.add_assoc]

/-- A consumer that took records has other offsets. -/
theorem Polled.offsets_ne (h : Polled c records c') (hne : records ≠ []) :
    c'.offsets ≠ c.offsets := by
  obtain ⟨r, rest, rfl⟩ := List.exists_cons_of_ne_nil hne
  intro heq
  have hposition := h.position (r.topic, r.partition)
  rw [Consumer.position, heq, List.filter_cons, if_pos (by simp [Record.isOf]),
    List.length_cons] at hposition
  unfold Consumer.position at hposition
  omega

theorem position_setOffset (c : Consumer) (key : TopicPartition) (offset : Nat)
    (key' : TopicPartition) :
    (c.setOffset key offset).position key' = if key' = key then offset else c.position key' := by
  simp only [Consumer.position, Consumer.setOffset, Table.get_insert]
  split <;> rfl

/-- The offset after an honest fetch. -/
theorem advance_of_follows (overflowChecks : Bool)
    (h : Follows key.1 key.2 (c.position key) records) :
    ∃ c', c.advance overflowChecks key records = .ok c' ∧ Polled c records c' ∧
      (records = [] → c' = c) := by
  by_cases hne : records = []
  · subst hne
    exact ⟨c, rfl, Polled.refl c, fun _ => rfl⟩
  · obtain ⟨r, hlast, hoffset, hlt⟩ := getLast?_of_follows h hne
    refine ⟨c.setOffset key (c.position key + records.length), ?_, ?_, fun hnil => absurd hnil hne⟩
    · rw [Consumer.advance, hlast]
      simp only
      rw [addWith_of_lt overflowChecks (by omega), hoffset]
      rfl
    · constructor
      · intro key'
        rw [filter_of_follows h]
        split
        · rename_i hkey
          rw [hkey]
          exact h
        · exact trivial
      · intro key'
        rw [filter_of_follows h, position_setOffset]
        split
        · rename_i hkey
          rw [hkey]
        · rfl

theorem reply_of_fetched {reply : Reply} (h : Consumer.fetched reply = .ok records) :
    ∃ topic partition, reply = .ok (.fetchSuccess topic partition records) := by
  unfold Consumer.fetched at h
  split at h
  · cases h
  · cases h
    exact ⟨_, _, rfl⟩
  · cases h
  · cases h

theorem error_of_fetched {reply : Reply} {f : Fault} (h : Consumer.fetched reply = .error f) :
    ∃ e, f = .error e := by
  unfold Consumer.fetched at h
  split at h
  · cases h
    exact ⟨_, rfl⟩
  · cases h
  · cases h
    exact ⟨_, rfl⟩
  · cases h
    exact ⟨_, rfl⟩

theorem fetchAll_cons (overflowChecks : Bool) (maxMessages : Nat) (key : TopicPartition)
    (keys : List TopicPartition) (allRecords : List Record) (c : Consumer) :
    Consumer.fetchAll overflowChecks maxMessages (key :: keys) allRecords c =
      .ask (.exchange (.fetch key.1 key.2 (c.position key) maxMessages)) fun reply =>
        match Consumer.fetched reply with
        | .error e => Consumer.finish (.error e) c
        | .ok records =>
          match c.advance overflowChecks key records with
          | .error e => Consumer.finish (.error e) c
          | .ok c' => Consumer.fetchAll overflowChecks maxMessages keys (allRecords ++ records) c' :=
  rfl

/-- **One loop** takes the records of the fetches before the first one that fails, and returns them
only if none does. -/
theorem run_fetchAll {overflowChecks : Bool} {maxMessages : Nat} {keys : List TopicPartition}
    {allRecords : List Record} {c : Consumer} {replies : List Reply}
    (hhonest : Dialogue.AllAnswers answerFrom HonestFetch replies
      (Consumer.fetchAll overflowChecks maxMessages keys allRecords c)) :
    ∃ result c' rest, Dialogue.run answerFrom replies
        (Consumer.fetchAll overflowChecks maxMessages keys allRecords c) = ((result, c'), rest) ∧
      Polled c (recordsBeforeFailure keys.length replies).flatten c' ∧
      ((∀ records ∈ recordsBeforeFailure keys.length replies, records = []) → c' = c) ∧
      (if (recordsBeforeFailure keys.length replies).length < keys.length then
        ∃ e, result = .error (.error e)
      else result = .ok (allRecords ++ (recordsBeforeFailure keys.length replies).flatten)) := by
  induction keys generalizing allRecords c replies with
  | nil => exact ⟨_, c, replies, rfl, Polled.refl c, fun _ => rfl, by simp [recordsBeforeFailure]⟩
  | cons key keys ih =>
    rw [fetchAll_cons] at hhonest ⊢
    rw [Dialogue.run_ask, List.length_cons]
    obtain ⟨hreply, hrest⟩ := hhonest
    cases replies with
    | nil => exact ⟨_, c, [], rfl, Polled.refl c, fun _ => rfl, by simp [recordsBeforeFailure]⟩
    | cons reply replies =>
      rw [answerFrom] at hreply hrest ⊢
      cases hfetched : Consumer.fetched reply with
      | error f =>
        obtain ⟨e, rfl⟩ := error_of_fetched hfetched
        rw [recordsBeforeFailure, hfetched]
        exact ⟨_, c, replies, rfl, Polled.refl c, fun _ => rfl, by simp⟩
      | ok records =>
        obtain ⟨topic, partition, rfl⟩ := reply_of_fetched hfetched
        obtain ⟨c₁, hadvance, hpolled, hsame⟩ := advance_of_follows overflowChecks hreply
        simp only [hfetched, hadvance] at hrest ⊢
        obtain ⟨result, c', rest, hrun, htaken, hkept, hresult⟩ := ih hrest
        rw [recordsBeforeFailure, hfetched]
        refine ⟨result, c', rest, hrun, hpolled.trans htaken, ?_, ?_⟩
        · intro hnil
          obtain ⟨hfirst, hothers⟩ := List.forall_mem_cons.1 hnil
          rw [hkept hothers, hsame hfirst]
        · rw [List.length_cons, List.flatten_cons, ← List.append_assoc]
          simpa only [Nat.add_lt_add_iff_right] using hresult

end Loop

/-! ## The calls -/

/-- A call of `poll` or of `poll_group`, and the replies that its requests get. -/
inductive PollCall where
  | poll (maxMessages : Nat) (topics : List String) (replies : List Reply)
  | pollGroup (maxMessages : Nat) (order : List TopicPartition) (replies : List Reply)

namespace PollCall

/-- The operation. -/
def client (overflowChecks : Bool) (c : Consumer) :
    PollCall → Client (Except Fault (List Record) × Consumer)
  | poll maxMessages topics _ => c.poll overflowChecks maxMessages topics
  | pollGroup maxMessages order _ => c.pollGroup overflowChecks maxMessages order

def replies : PollCall → List Reply
  | poll _ _ replies => replies
  | pollGroup _ _ replies => replies

/-- The partitions that the loop visits. -/
def partitions (c : Consumer) : PollCall → List TopicPartition
  | poll _ topics _ => c.subscribed topics
  | pollGroup _ _ _ => c.assigned

/-- What the call returns, and the consumer after it. -/
def run (overflowChecks : Bool) (c : Consumer) (call : PollCall) :
    Except Fault (List Record) × Consumer :=
  (Dialogue.run answerFrom call.replies (call.client overflowChecks c)).1

/-- The broker's answers to the fetches are in order. -/
def Honest (overflowChecks : Bool) (c : Consumer) (call : PollCall) : Prop :=
  Dialogue.AllAnswers answerFrom HonestFetch call.replies (call.client overflowChecks c)

/-- A fetch of the call fails after one before it returned records. -/
def Skips (c : Consumer) (call : PollCall) : Prop :=
  Gaffa.Skips (call.partitions c).length call.replies

/-- If the call returns `Err`, it leaves the offsets as they were. -/
def FailsClean (overflowChecks : Bool) (c : Consumer) (call : PollCall) : Prop :=
  ∀ e, (call.run overflowChecks c).1 = .error e →
    (call.run overflowChecks c).2.offsets = c.offsets

end PollCall

section Calls

variable {c : Consumer} {call : PollCall} {b : Bool}

/-- An auto-commit does not change the consumer, and its error is not returned. -/
theorem run_autoCommit {α : Type} (order : List TopicPartition) (c : Consumer) (result : α)
    (replies : List Reply) :
    (Dialogue.run answerFrom replies (c.commitOffsets order >>= fun _ => .done (result, c))).1 =
      (result, c) := by
  rw [Dialogue.run_bind]
  rfl

/-- **One call** of either kind. -/
theorem run_call {overflowChecks : Bool} (hhonest : call.Honest overflowChecks c) :
    ∃ result c', call.run overflowChecks c = (result, c') ∧
      Polled c (recordsBeforeFailure (call.partitions c).length call.replies).flatten c' ∧
      ((∀ records ∈ recordsBeforeFailure (call.partitions c).length call.replies, records = []) →
        c' = c) ∧
      (if (recordsBeforeFailure (call.partitions c).length call.replies).length <
          (call.partitions c).length then ∃ e, result = .error (.error e)
      else result = .ok (recordsBeforeFailure (call.partitions c).length call.replies).flatten) := by
  cases call with
  | poll maxMessages topics replies =>
    obtain ⟨result, c', rest, hrun, hspec⟩ := run_fetchAll hhonest
    exact ⟨result, c', congrArg Prod.fst hrun, hspec⟩
  | pollGroup maxMessages order replies =>
    simp only [PollCall.Honest, PollCall.client, Consumer.pollGroup] at hhonest
    simp only [PollCall.run, PollCall.client, Consumer.pollGroup]
    by_cases hnone : c.assignments = []
    · rw [if_pos hnone]
      refine ⟨_, c, rfl, ?_, ?_, ?_⟩ <;>
        simp [PollCall.partitions, Consumer.assigned, hnone, recordsBeforeFailure, Polled.refl]
    · rw [if_neg hnone] at hhonest ⊢
      obtain ⟨hhonest, -⟩ := Dialogue.allAnswers_bind.1 hhonest
      obtain ⟨result, c', rest, hrun, htaken, hkept, hresult⟩ := run_fetchAll hhonest
      refine ⟨result, c', ?_, htaken, hkept, hresult⟩
      rw [Dialogue.run_bind, hrun]
      cases result with
      | error e => rfl
      | ok records =>
        simp only
        split
        · exact run_autoCommit order c' (Except.ok records) rest
        · rfl

/-- **A failed call is clean** if and only if it skips nothing. -/
theorem failsClean_iff {overflowChecks : Bool} (hhonest : call.Honest overflowChecks c) :
    call.FailsClean overflowChecks c ↔ ¬ call.Skips c := by
  obtain ⟨result, c', hrun, htaken, hkept, hresult⟩ := run_call hhonest
  unfold PollCall.FailsClean PollCall.Skips Gaffa.Skips
  rw [hrun]
  constructor
  · rintro hclean ⟨hfails, records, hmem, hne⟩
    rw [if_pos hfails] at hresult
    obtain ⟨e, rfl⟩ := hresult
    refine htaken.offsets_ne ?_ (hclean _ rfl)
    intro hnil
    exact hne (List.flatten_eq_nil_iff.1 hnil records hmem)
  · rintro hskips e rfl
    split at hresult
    · rename_i hfails
      rw [hkept]
      intro records hmem
      by_contra hne
      exact hskips ⟨hfails, records, hmem, hne⟩
    · cases hresult

/-- A call that skips nothing takes what it returns. -/
theorem polled_of_call {overflowChecks : Bool} (hhonest : call.Honest overflowChecks c)
    (hskips : ¬ call.Skips c) :
    Polled c ((call.run overflowChecks c).1.toOption.getD []) (call.run overflowChecks c).2 := by
  obtain ⟨result, c', hrun, htaken, hkept, hresult⟩ := run_call hhonest
  rw [hrun]
  split at hresult
  · rename_i hfails
    obtain ⟨e, rfl⟩ := hresult
    rw [hkept]
    · exact Polled.refl c
    · intro records hmem
      by_contra hne
      exact hskips ⟨hfails, records, hmem, hne⟩
  · subst hresult
    exact htaken

end Calls

/-! ## Runs -/

/-- A consumer that polls. -/
def Consumer.next (overflowChecks : Bool) (c : Consumer) (call : PollCall) : Option Consumer :=
  some (call.run overflowChecks c).2

/-- The records that the calls of a run return to the application. -/
def returned (overflowChecks : Bool) : Consumer → List (PollCall × Consumer) → List Record
  | _, [] => []
  | c, (call, c') :: tr =>
    (call.run overflowChecks c).1.toOption.getD [] ++ returned overflowChecks c' tr

theorem polled_of_run {overflowChecks : Bool} : ∀ {c : Consumer} {tr : List (PollCall × Consumer)},
    Run (Steps (Consumer.next overflowChecks)) c tr →
    EachStep (fun c call _ => call.Honest overflowChecks c) c tr →
    EachStep (fun c call _ => ¬ call.Skips c) c tr →
    Polled c (returned overflowChecks c tr) (last c tr)
  | c, [], _, _, _ => Polled.refl c
  | c, (call, c') :: tr, hrun, hhonest, hskips => by
    obtain rfl : (call.run overflowChecks c).2 = c' := Option.some_inj.1 hrun.1
    have hcall := polled_of_call hhonest.1 hskips.1
    have hrest := polled_of_run hrun.2 hhonest.2 hskips.2
    exact hcall.trans hrest

theorem failsClean_run_iff {overflowChecks : Bool} {c : Consumer}
    {tr : List (PollCall × Consumer)} (hrun : Run (Steps (Consumer.next overflowChecks)) c tr)
    (hhonest : EachStep (fun c call _ => call.Honest overflowChecks c) c tr) :
    EachStep (fun c call _ => call.FailsClean overflowChecks c) c tr ↔
      EachStep (fun c call _ => ¬ call.Skips c) c tr :=
  eachStep_iff (I := fun _ => True) (fun _ _ _ _ _ _ => trivial)
    (fun _ _ _ _ h => failsClean_iff h.2) trivial (hrun.and hhonest)

/-- **A failed poll skips nothing** if and only if no fetch before the one that failed had returned
records; and over a run of such calls the records of each partition follow one another from the
position at which the run began. -/
theorem polls_skip_nothing_iff {overflowChecks : Bool} {c : Consumer}
    {tr : List (PollCall × Consumer)} (hrun : Run (Steps (Consumer.next overflowChecks)) c tr)
    (hhonest : EachStep (fun c call _ => call.Honest overflowChecks c) c tr) :
    (EachStep (fun c call _ => call.FailsClean overflowChecks c) c tr ↔
      EachStep (fun c call _ => ¬ call.Skips c) c tr) ∧
    (EachStep (fun c call _ => ¬ call.Skips c) c tr → ∀ key : TopicPartition,
      Follows key.1 key.2 (c.position key)
        ((returned overflowChecks c tr).filter (·.isOf key))) := by
  refine ⟨failsClean_run_iff hrun hhonest, fun hskips => ?_⟩
  exact (polled_of_run hrun hhonest hskips).follows

instance (overflowChecks : Bool) (c : Consumer) (call : PollCall) :
    Decidable (call.Honest overflowChecks c) :=
  inferInstanceAs (Decidable (Dialogue.AllAnswers _ _ _ _))

instance (c : Consumer) (call : PollCall) : Decidable (call.Skips c) :=
  inferInstanceAs (Decidable (Gaffa.Skips _ _))

/-- A member with two partitions of a topic. -/
def twoPartitions : Consumer :=
  { Consumer.new (some "g") true with assignments := [⟨"orders", 0⟩, ⟨"orders", 1⟩] }

def orderRecord (partition offset : Nat) : Record := ⟨"orders", partition, offset, ⟨none, [1], 0⟩⟩

def orderReply (partition : Nat) (offsets : List Nat) : Reply :=
  .ok (.fetchSuccess "orders" partition (offsets.map (orderRecord partition)))

/-- Fails at the first partition, then at the second with nothing in the first, then polls both. -/
def cleanFailures : List PollCall :=
  [.pollGroup 10 [] [.error (.connection "reset")],
    .pollGroup 10 [] [orderReply 0 [], .ok (.fetchError "busy")],
    .pollGroup 10 [] [orderReply 0 [0, 1], orderReply 1 [0]]]

theorem polls_skip_nothing_iff_clean :
    ∃ tr, trace (Consumer.next true) twoPartitions cleanFailures = some tr ∧
      EachStep (fun c call _ => call.FailsClean true c) twoPartitions tr ∧
      ∀ key : TopicPartition, Follows key.1 key.2 (twoPartitions.position key)
        ((returned true twoPartitions tr).filter (·.isOf key)) := by
  obtain ⟨tr, htr⟩ := Option.isSome_iff_exists.1 (show (trace (Consumer.next true) twoPartitions
    cleanFailures).isSome = true by decide +kernel)
  have hsteps : ∀ tr ∈ trace (Consumer.next true) twoPartitions cleanFailures,
      EachStep (fun c call _ => call.Honest true c) twoPartitions tr ∧
        EachStep (fun c call _ => ¬ call.Skips c) twoPartitions tr := by decide +kernel
  obtain ⟨hhonest, hskips⟩ := hsteps tr htr
  have hclaim := polls_skip_nothing_iff (run_of_trace htr) hhonest
  exact ⟨tr, htr, hclaim.1.2 hskips, hclaim.2 hskips⟩

/-- A record of the first partition is fetched and dropped when the second partition fails. -/
def droppedRecord : List PollCall :=
  [.pollGroup 10 [] [orderReply 0 [0], .ok (.fetchError "busy")],
    .pollGroup 10 [] [orderReply 0 [1], orderReply 1 []]]

theorem failed_poll_skips :
    ∃ tr, trace (Consumer.next true) twoPartitions droppedRecord = some tr ∧
      EachStep (fun c call _ => call.Honest true c) twoPartitions tr ∧
      ¬ EachStep (fun c call _ => call.FailsClean true c) twoPartitions tr ∧
      ¬ Follows "orders" 0 (twoPartitions.position ("orders", 0))
        ((returned true twoPartitions tr).filter (·.isOf ("orders", 0))) := by
  obtain ⟨tr, htr⟩ := Option.isSome_iff_exists.1 (show (trace (Consumer.next true) twoPartitions
    droppedRecord).isSome = true by decide +kernel)
  have hsteps : ∀ tr ∈ trace (Consumer.next true) twoPartitions droppedRecord,
      EachStep (fun c call _ => call.Honest true c) twoPartitions tr ∧
        ¬ EachStep (fun c call _ => ¬ call.Skips c) twoPartitions tr ∧
        ¬ Follows "orders" 0 (twoPartitions.position ("orders", 0))
          ((returned true twoPartitions tr).filter (·.isOf ("orders", 0))) := by decide +kernel
  obtain ⟨hhonest, hskips, hgap⟩ := hsteps tr htr
  refine ⟨tr, htr, hhonest, fun hclean => hskips ?_, hgap⟩
  exact (failsClean_run_iff (run_of_trace htr) hhonest).1 hclean

end Gaffa
