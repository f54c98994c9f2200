import Gaffa.Broker.BrokerServer
import Gaffa.Broker.TopicRace

/-!
# What a consumer sees of the server

The number of partitions of each topic and the messages of each partition, both of which only grow
while topics are not created twice.  A consumer cannot tell more of the server than that.

* `exists_shows`: every state of the server shows such a service.
* `Shows.next`: a step of the server makes it grow.
* `Shows.fetched`, `Shows.described`: the answers to `Fetch` and `GetMetadata` come from it.
-/

set_option autoImplicit false

namespace Gaffa

open Transition

variable {K : Crates} {dirOf : String → Nat → Path} {overflowChecks : Bool}

/-! ## The service -/

/-- Topics with their partition counts, and the messages of their partitions; counts fit in a `u32`,
and offsets in a `u64`. -/
structure LogService where
  counts : String → Option Nat
  logs : PartitionKey → Option (List Message)
  narrow : ∀ topic n, counts topic = some n → n < 2 ^ 32
  full : ∀ topic n partition, counts topic = some n → partition < n →
    ∃ log, logs (topic, partition) = some log
  fits : ∀ key log, logs key = some log → log.length < 2 ^ 64

namespace LogService

/-- Topics stay as they are, and messages are added behind the others. -/
instance : Preorder LogService where
  le v w := (∀ topic n, v.counts topic = some n → w.counts topic = some n) ∧
    ∀ key log, v.logs key = some log → ∃ more, w.logs key = some (log ++ more)
  le_refl v := ⟨fun _ _ h => h, fun key log h => ⟨[], by rw [h, List.append_nil]⟩⟩
  le_trans u v w := by
    rintro ⟨hcounts, hlogs⟩ ⟨hcounts', hlogs'⟩
    refine ⟨fun topic n h => hcounts' topic n (hcounts topic n h), fun key log h => ?_⟩
    obtain ⟨more, hmore⟩ := hlogs key log h
    obtain ⟨more', hmore'⟩ := hlogs' key _ hmore
    exact ⟨more ++ more', by rw [hmore', List.append_assoc]⟩

/-- The records that a fetch returns. -/
def records (key : PartitionKey) (offset maxMessages : Nat) (log : List Message) : List Record :=
  ((referenceFrom key.1 key.2 0 log).drop offset).take maxMessages

/-- What the service answers: a fetch of a partition that exists, and a request for the metadata of one
topic. -/
def Replies (v : LogService) : Request → Response → Prop
  | .fetch topic partition offset maxMessages, response =>
    ∀ log, v.logs (topic, partition) = some log →
      response = .fetchSuccess topic partition (records (topic, partition) offset maxMessages log)
  | .getMetadata topics, response => ∀ topic, topics = [topic] →
      response = .metadata ((v.counts topic).map (TopicMetadata.new topic)).toList
  | _, _ => True

end LogService

/-! ## Requests for metadata -/

/-- `GetMetadata` in `process_request`, for a request that names topics. -/
def TopicManager.metadata (topics : List String) (tm : TopicManager) : List TopicMetadata :=
  topics.filterMap fun name =>
    (tm.topics.get name).map fun topic => TopicMetadata.new name topic.numPartitions

/-- `GetPartitions` in `process_request`. -/
def TopicManager.describePartitions (topic : String) (tm : TopicManager) : Response :=
  match tm.getTopic topic with
  | .error e => .partitionsError e.display
  | .ok found => .partitions topic found.numPartitions

/-! ## Numbers of partitions -/

/-- Topics have, or are going to have, no more partitions than a `u32` counts. -/
structure Narrow (s : ServerState) : Prop where
  topics : ∀ name handle, s.server.topicManager.topics.get name = some handle →
    handle.partitions.length < 2 ^ 32
  checking : ∀ id name n, s.tasks.get id = some (.checkTopic name n) → n < 2 ^ 32
  creating : ∀ id name n made, s.tasks.get id = some (.createPartitions name n made) → n < 2 ^ 32

/-- The request that arrives. -/
def ServerEvent.request : ServerEvent → Option Request
  | .receive _ request => some request
  | _ => none

/-- Requests have `u32` partition counts, topics are created under these names only and one at a
time, and appends succeed. -/
def Calm (K : Crates) (dirOf : String → Nat → Path) (names : Set String) (s : ServerState)
    (e : ServerEvent) (t : ServerState) : Prop :=
  (∀ request ∈ e.request, request.Sized) ∧ CreatesOnly names e ∧ NoRace K dirOf s e t

section Narrow

variable {s t : ServerState} {e : ServerEvent}

theorem narrow_new (cluster : ClusterMetadata) (replicationFactor : Nat) :
    Narrow (ServerState.new cluster replicationFactor) := by
  constructor
  · intro name handle h
    cases h
  · intro id name n h
    cases h
  · intro id name n made h
    cases h

theorem Narrow.next (h : Narrow s) (hexclusive : Exclusive s)
    (hstep : serverNext K dirOf overflowChecks s e = some t)
    (hsized : ∀ request ∈ e.request, request.Sized) : Narrow t := by
  cases e with
  | receive id request =>
    obtain ⟨task, hnone, -, hstart, rfl⟩ := serverNext_receive hstep
    refine ⟨h.topics, ?_, ?_⟩
    · intro k name n hk
      rcases Table.get_insert_cases hk with ⟨-, rfl⟩ | ⟨-, hk⟩
      · rcases start_cases hstart with ⟨name', n', rfl, heq⟩ | ⟨topic, p, ms, -, heq⟩ |
          ⟨topic, p, o, m, -, heq⟩
        · cases heq
          exact hsized _ rfl
        · cases heq
        · cases heq
      · exact h.checking k name n hk
    · intro k name n made hk
      exact h.creating k name n made ((get_received hnone hstart rfl).1 hk)
  | advance id io =>
    obtain ⟨task, progress, htask, -, hadvance, htasks⟩ := serverNext_step hstep
    refine ⟨?_, ?_, ?_⟩
    · intro name handle hget
      rcases hadvance.topics hget with hold | ⟨n, made, rfl, -, -, rfl⟩
      · exact h.topics name handle hold
      · have hn := h.creating id name n made htask
        exact lt_of_le_of_lt (hexclusive.absent id name n made htask).2 hn
    · intro k name n hk
      rw [htasks] at hk
      rcases get_settle hk with ⟨rfl, rfl⟩ | ⟨-, hk⟩
      · generalize t.server = srv at hadvance
        cases hadvance
      · exact h.checking k name n hk
    · intro k name n made hk
      rw [htasks] at hk
      rcases get_settle hk with ⟨rfl, rfl⟩ | ⟨-, hk⟩
      · rcases hadvance.creates with ⟨rfl, -, -⟩ | ⟨made₀, rfl, -, -⟩
        · exact h.checking k name n htask
        · exact h.creating k name n made₀ htask
      · exact h.creating k name n made hk
  | registerBroker now brokerId host port =>
    cases hstep
    exact ⟨h.topics, h.checking, h.creating⟩
  | updateReplicaOffset topic partition brokerId offset =>
    cases hstep
    exact ⟨h.topics, h.checking, h.creating⟩

end Narrow

/-! ## What a state shows -/

/-- The partition is stored, and holds these messages. -/
def HoldsAt (K : Crates) (s : ServerState) (key : PartitionKey) (log : List Message) : Prop :=
  ∃ handle ref o, s.server.topicManager.topics.get key.1 = some handle ∧
    handle.partitions[key.2]? = some ref ∧ s.server.topicManager.objects.get ref = some o ∧
    HoldsLog K s.server.topicManager o log

/-- The service that the state shows to clients. -/
structure Shows (K : Crates) (s : ServerState) (v : LogService) : Prop where
  counts : ∀ topic, v.counts topic =
    (s.server.topicManager.topics.get topic).map Topic.numPartitions
  logs : ∀ key log, v.logs key = some log ↔ HoldsAt K s key log

section Shows

variable {names : Set String} {s t : ServerState} {id : Nat} {io : StepIo} {task : Task}
  {progress : Progress} {key : PartitionKey} {log log' : List Message} {v w : LogService}

theorem HoldsAt.unique (h : HoldsAt K s key log) (h' : HoldsAt K s key log') : log = log' := by
  obtain ⟨handle, ref, o, htopic, hpart, hget, hlog⟩ := h
  obtain ⟨handle', ref', o', htopic', hpart', hget', hlog'⟩ := h'
  cases htopic.symm.trans htopic'
  cases hpart.symm.trans hpart'
  cases hget.symm.trans hget'
  exact hlog.unique hlog'

theorem Exact.nextOffset_lt {tm : TopicManager} {o : PartitionObject} (h : Exact K tm o) :
    o.partition.nextOffset < 2 ^ 64 := by
  obtain ⟨-, acked, hs, hkept, -⟩ := h
  rcases List.eq_nil_or_concat' hs with rfl | ⟨init, g, rfl⟩
  · exact absurd rfl hkept.agrees.ne_nil
  · have hback := (hkept.agrees.held g (by simp)).backed
    unfold Partition.nextOffset
    rw [hkept.agrees.getLast?]
    simp only
    rw [hback.next]
    exact hback.next_lt

theorem Separate.exact (h : Separate K dirOf names s) {handle : Topic} {ref : Nat}
    {o : PartitionObject} {topic : String} {partition : Nat}
    (htopic : s.server.topicManager.topics.get topic = some handle)
    (hpart : handle.partitions[partition]? = some ref)
    (hget : s.server.topicManager.objects.get ref = some o) : Exact K s.server.topicManager o :=
  h.storage.sound.exact ref o (Or.inl ⟨topic, handle, htopic, List.mem_of_getElem? hpart⟩) hget

/-- Every partition of a topic holds messages. -/
theorem Separate.holdsAt (h : Separate K dirOf names s) {handle : Topic} {topic : String}
    {partition : Nat} (htopic : s.server.topicManager.topics.get topic = some handle)
    (hlt : partition < handle.partitions.length) : ∃ log, HoldsAt K s (topic, partition) log := by
  have hpart : handle.partitions[partition]? = some handle.partitions[partition] :=
    List.getElem?_eq_getElem hlt
  obtain ⟨o, hget⟩ := h.owned.made (topic, partition) _ (Or.inl ⟨handle, htopic, hpart⟩)
  obtain ⟨log, hlog⟩ := (h.exact htopic hpart hget).holdsLog
  exact ⟨log, handle, _, o, htopic, hpart, hget, hlog⟩

theorem Separate.length_lt (h : Separate K dirOf names s) (hlog : HoldsAt K s key log) :
    log.length < 2 ^ 64 := by
  obtain ⟨handle, ref, o, htopic, hpart, hget, hlog⟩ := hlog
  rw [← hlog.nextOffset]
  exact (h.exact htopic hpart hget).nextOffset_lt

/-- **Every state shows a service.** -/
theorem exists_shows (h : Separate K dirOf names s) : ∃ v, Shows K s v := by
  classical
  have hlogs : ∀ key, ∃ found : Option (List Message), ∀ log,
      found = some log ↔ HoldsAt K s key log := by
    intro key
    by_cases hkey : ∃ log, HoldsAt K s key log
    · obtain ⟨log, hlog⟩ := hkey
      refine ⟨some log, fun log' => ⟨?_, fun h' => ?_⟩⟩
      · rintro ⟨⟩
        exact hlog
      · rw [hlog.unique h']
    · refine ⟨none, fun log => ⟨?_, fun h' => absurd ⟨log, h'⟩ hkey⟩⟩
      rintro ⟨⟩
  choose logs hlogs using hlogs
  refine ⟨⟨fun topic => (s.server.topicManager.topics.get topic).map Topic.numPartitions, logs,
    ?_, ?_, ?_⟩, fun _ => rfl, hlogs⟩
  · intro topic n hcount
    obtain ⟨handle, -, rfl⟩ := Option.map_eq_some_iff.1 hcount
    exact Nat.mod_lt _ (by omega)
  · intro topic n partition hcount hlt
    obtain ⟨handle, htopic, rfl⟩ := Option.map_eq_some_iff.1 hcount
    obtain ⟨log, hlog⟩ := h.holdsAt htopic (lt_of_lt_of_le hlt (Nat.mod_le _ _))
    exact ⟨log, (hlogs _ log).2 hlog⟩
  · intro key log hlog
    exact h.length_lt ((hlogs key log).1 hlog)

/-- The messages of a partition stay where they are. -/
theorem HoldsAt.step (hK : K.Lawful) (hlog : HoldsAt K s key log) (h : Separate K dirOf names s)
    (hdirs : DirsApart dirOf names) (htask : s.tasks.get id = some task)
    (hstep : TaskStep K dirOf overflowChecks io s.server task progress t.server)
    (happends : task.Appends K dirOf io s) : ∃ more, HoldsAt K t key (log ++ more) := by
  obtain ⟨handle, ref, o, htopic, hpart, hget, hlog⟩ := hlog
  obtain ⟨o', more, ho', -, -, -, hlog', -⟩ :=
    h.log hK hdirs htask hstep happends htopic hpart hget hlog
  exact ⟨more, handle, ref, o', h.exclusive.topics htask hstep htopic, hpart, ho', hlog'⟩

/-- The messages that a step of a task adds to a partition. -/
def Task.added (key : PartitionKey) : Task → Progress → List Message
  | .append _ topic partition messages, .waits _ => if key = (topic, partition) then messages else []
  | _, _ => []

/-- A step adds messages to partitions that exist. -/
theorem Separate.exists_of_added (h : Separate K dirOf names s) (htask : s.tasks.get id = some task)
    (hstep : TaskStep K dirOf overflowChecks io s.server task progress t.server)
    (hne : task.added key progress ≠ []) : ∃ log, HoldsAt K s key log := by
  generalize t.server = srv at hstep
  cases hstep with
  | appended handle topic partition messages ref o base hpart hget happ =>
    have hkey : key = (topic, partition) := by
      by_contra hkey
      exact hne (if_neg hkey)
    subst hkey
    exact h.holdsAt (h.exclusive.appending id handle topic partition messages htask)
      (List.getElem?_eq_some_iff.1 hpart).1
  | _ => exact absurd rfl hne

/-- A partition on files without records has no messages. -/
theorem Exact.nextOffset_of_blank {tm : TopicManager} {o : PartitionObject} (h : Exact K tm o)
    (hblank : Blank (tm.dirAt o.dir)) : o.partition.nextOffset = 0 := by
  obtain ⟨-, acked, hs, hkept, -⟩ := h
  rcases List.eq_nil_or_concat' hs with rfl | ⟨init, g, rfl⟩
  · exact absurd rfl hkept.agrees.ne_nil
  · have hback := (hkept.agrees.held g (by simp)).backed
    have hwhole := (hkept.pristine g (by simp)).1.whole
    obtain ⟨hname, hbytes⟩ := hblank _ _ hback.log
    have hbase : g.view.base = 0 := by
      rcases hname with hname | hname
      · exact logPath_inj.1 hname
      · exact absurd hname (logPath_ne_indexPath _ _)
    have hrecords : g.view.records.length = 0 := by
      have hlen := length_le_encodedAll g.view.storable
      have hzero := congrArg List.length hbytes
      rw [LogView.bytes, List.length_append, List.length_nil] at hzero
      omega
    unfold Partition.nextOffset
    rw [hkept.agrees.getLast?]
    simp only
    rw [hback.next, LogView.next_of_whole hwhole]
    omega

/-- **The messages of a partition** after a step: those of before, if it was there, and those that the
step adds. -/
theorem HoldsAt.origin (hK : K.Lawful) (hlog : HoldsAt K t key log) (h : Separate K dirOf names s)
    (hdirs : DirsApart dirOf names) (htask : s.tasks.get id = some task)
    (hstep : TaskStep K dirOf overflowChecks io s.server task progress t.server)
    (happends : task.Appends K dirOf io s) : ∃ log₀,
      (HoldsAt K s key log₀ ∨ log₀ = [] ∧ ∀ log₁, ¬ HoldsAt K s key log₁) ∧
        log = log₀ ++ task.added key progress := by
  obtain ⟨topic, partition⟩ := key
  obtain ⟨handle, ref, o, htopic, hpart, hget, hlog⟩ := hlog
  rcases hstep.topics htopic with hold | ⟨n, made, rfl, rfl, -, rfl⟩
  · obtain ⟨o₀, hget₀⟩ := h.owned.made (topic, partition) ref (Or.inl ⟨handle, hold, hpart⟩)
    obtain ⟨log₀, hlog₀⟩ := (h.exact hold hpart hget₀).holdsLog
    obtain ⟨o', more, hget', -, -, -, hlog', hmore⟩ :=
      h.log hK hdirs htask hstep happends hold hpart hget₀ hlog₀
    cases hget'.symm.trans hget
    refine ⟨log₀, Or.inl ⟨handle, ref, o₀, hold, hpart, hget₀, hlog₀⟩, ?_⟩
    rw [hlog.unique hlog']
    rcases hmore with ⟨rfl, hwaits⟩ | ⟨rfl, rfl⟩
    · have hnone : task.added (topic, partition) progress = [] := by
        generalize t.server = srv at hstep
        cases hstep with
        | appended handle topic' partition' messages ref o base hpart hget happ =>
          refine if_neg fun hkey => ?_
          cases hkey
          exact hwaits _ _ rfl
        | _ => rfl
      rw [hnone]
    · rw [Task.added, if_pos rfl]
  · -- a topic that is inserted has partitions without messages
    have howns : Owns s (topic, partition) ref := Or.inr ⟨id, n, made, htask, hpart⟩
    have hnone := (h.exclusive.absent id topic n made htask).1
    have hblank := h.blank topic (h.creating id topic n made htask) hnone partition
    refine ⟨[], Or.inr ⟨rfl, fun log₁ h₁ => ?_⟩, ?_⟩
    · obtain ⟨handle₁, -, -, htopic₁, -⟩ := h₁
      cases hnone.symm.trans htopic₁
    · generalize t.server = srv at hstep hget hlog
      cases hstep with
      | inserted name partitions made hle =>
        have hexact := h.storage.sound.exact ref o
          (Or.inr ⟨id, _, htask, List.mem_of_getElem? hpart⟩) hget
        rw [← (h.dirs _ ref o howns hget).1] at hblank
        exact List.length_eq_zero_iff.1 (hlog.nextOffset.symm.trans (hexact.nextOffset_of_blank hblank))

/-- **What a step adds** to the service. -/
theorem Shows.advance (hK : K.Lawful) (hs : Shows K s v) (ht : Shows K t w)
    (h : Separate K dirOf names s) (hdirs : DirsApart dirOf names)
    (htask : s.tasks.get id = some task)
    (hstep : TaskStep K dirOf overflowChecks io s.server task progress t.server)
    (happends : task.Appends K dirOf io s) (key : PartitionKey) :
    (w.logs key).getD [] = (v.logs key).getD [] ++ task.added key progress := by
  cases hw : w.logs key with
  | some log =>
    obtain ⟨log₀, hlog₀ | ⟨rfl, hnone⟩, rfl⟩ :=
      ((ht.logs key log).1 hw).origin hK h hdirs htask hstep happends
    · rw [(hs.logs key log₀).2 hlog₀]
      rfl
    · have hv : v.logs key = none := by
        rw [Option.eq_none_iff_forall_ne_some]
        exact fun log₁ h₁ => hnone log₁ ((hs.logs key log₁).1 h₁)
      rw [hv]
      rfl
  | none =>
    have hv : v.logs key = none := by
      rw [Option.eq_none_iff_forall_ne_some]
      intro log hlog
      obtain ⟨more, hmore⟩ := ((hs.logs key log).1 hlog).step hK h hdirs htask hstep happends
      rw [(ht.logs key _).2 hmore] at hw
      cases hw
    have hadded : task.added key progress = [] := by
      by_contra hne
      obtain ⟨log, hlog⟩ := h.exists_of_added htask hstep hne
      rw [(hs.logs key log).2 hlog] at hv
      cases hv
    rw [hv, hadded]
    rfl

/-- **A step of the server** makes the service grow. -/
theorem Shows.next (hK : K.Lawful) {e : ServerEvent} (hs : Shows K s v) (ht : Shows K t w)
    (h : Separate K dirOf names s) (hdirs : DirsApart dirOf names)
    (hstep : serverNext K dirOf overflowChecks s e = some t) (hrace : NoRace K dirOf s e t) :
    v ≤ w := by
  have hgrows : (∀ topic handle, s.server.topicManager.topics.get topic = some handle →
      t.server.topicManager.topics.get topic = some handle) ∧
      ∀ key log, HoldsAt K s key log → ∃ more, HoldsAt K t key (log ++ more) := by
    have hsame : t.server.topicManager = s.server.topicManager →
        (∀ topic handle, s.server.topicManager.topics.get topic = some handle →
          t.server.topicManager.topics.get topic = some handle) ∧
        ∀ key log, HoldsAt K s key log → ∃ more, HoldsAt K t key (log ++ more) := by
      intro heq
      refine ⟨fun topic handle hget => by rw [heq]; exact hget, fun key log hlog => ⟨[], ?_⟩⟩
      unfold HoldsAt
      rw [heq, List.append_nil]
      exact hlog
    cases e with
    | receive id request =>
      obtain ⟨task, -, -, -, rfl⟩ := serverNext_receive hstep
      exact hsame rfl
    | advance id io =>
      obtain ⟨task, progress, htask, -, hadvance, htasks⟩ := serverNext_step hstep
      refine ⟨fun topic handle hget => h.exclusive.topics htask hadvance hget, fun key log hlog => ?_⟩
      exact hlog.step hK h hdirs htask hadvance (hrace.2 id io rfl task htask)
    | registerBroker now brokerId host port =>
      cases hstep
      exact hsame rfl
    | updateReplicaOffset topic partition brokerId offset =>
      cases hstep
      exact hsame rfl
  constructor
  · intro topic n hcount
    rw [hs.counts] at hcount
    obtain ⟨handle, htopic, rfl⟩ := Option.map_eq_some_iff.1 hcount
    rw [ht.counts, hgrows.1 topic handle htopic, Option.map_some]
  · intro key log hlog
    obtain ⟨more, hmore⟩ := hgrows.2 key log ((hs.logs key log).1 hlog)
    exact ⟨more, (ht.logs _ _).2 hmore⟩

/-- **`Fetch`** answers from the service, at either of its steps. -/
theorem Shows.fetched (hs : Shows K s v) (h : Separate K dirOf names s) {topic : String}
    {partition offset maxMessages : Nat} {response : Response}
    (htask : s.tasks.get id = some (.findFetched topic partition offset maxMessages) ∨
      ∃ handle, s.tasks.get id = some (.fetch handle topic partition offset maxMessages))
    (hanswer : answer K dirOf overflowChecks s (.advance id io) = some response) :
    v.Replies (.fetch topic partition offset maxMessages) response := by
  intro log hlog
  obtain ⟨handle', ref, o, htopic, hpart, hget, hlog⟩ := (hs.logs _ _).1 hlog
  rcases htask with htask | ⟨handle, htask⟩
  · -- the topic exists, so the task goes on
    rw [answer_advance htask] at hanswer
    simp only [Task.advance, TopicManager.getTopic, htopic] at hanswer
    cases hanswer
  · cases (h.exclusive.fetching id handle topic partition offset maxMessages htask).symm.trans htopic
    obtain ⟨-, hname, hid⟩ := h.dirs (topic, partition) ref o
      (Or.inl ⟨handle', htopic, hpart⟩) hget
    have hfetch := hlog.fetch offset maxMessages
    rw [hname, hid] at hfetch
    rw [answer_advance htask, ends_of_fetch hpart hget hfetch] at hanswer
    exact (Option.some_inj.1 hanswer).symm

/-- A fetch that succeeds is of a partition that the service has. -/
theorem Shows.found (hs : Shows K s v) (h : Separate K dirOf names s) {topic topic' : String}
    {partition partition' offset maxMessages : Nat} {records : List Record}
    (htask : s.tasks.get id = some (.findFetched topic partition offset maxMessages) ∨
      ∃ handle, s.tasks.get id = some (.fetch handle topic partition offset maxMessages))
    (hanswer : answer K dirOf overflowChecks s (.advance id io) =
      some (.fetchSuccess topic' partition' records)) : ∃ log, v.logs (topic, partition) = some log := by
  rcases htask with htask | ⟨handle, htask⟩
  · rw [answer_advance htask] at hanswer
    simp only [Task.advance] at hanswer
    split at hanswer <;> cases hanswer
  · have htopic := h.exclusive.fetching id handle topic partition offset maxMessages htask
    rw [answer_advance htask] at hanswer
    simp only [Task.advance, Progress.response, Task.read] at hanswer
    split at hanswer
    · cases hanswer
    · rename_i ref href
      have hpart : handle.partitions[partition]? = some ref := getPartition_ok href
      obtain ⟨log, hlog⟩ := h.holdsAt htopic (List.getElem?_eq_some_iff.1 hpart).1
      exact ⟨log, (hs.logs _ _).2 hlog⟩

/-- **`GetMetadata`** answers from the service. -/
theorem Shows.described (hs : Shows K s v) (topics : List String) :
    v.Replies (.getMetadata topics) (.metadata (s.server.topicManager.metadata topics)) := by
  rintro topic rfl
  rw [hs.counts, TopicManager.metadata, List.filterMap_cons]
  cases s.server.topicManager.topics.get topic <;> rfl

end Shows

/-! ## Where the messages come from -/

/-- The messages of the logs, and those that are on their way there, satisfy `P`. -/
structure Vouched (K : Crates) (P : PartitionKey → Message → Prop) (s : ServerState) : Prop where
  finding : ∀ id topic partition messages,
    s.tasks.get id = some (.findTopic topic partition messages) →
    ∀ m ∈ messages, P (topic, partition) m
  appending : ∀ id handle topic partition messages,
    s.tasks.get id = some (.append handle topic partition messages) →
    ∀ m ∈ messages, P (topic, partition) m
  stored : ∀ key log, HoldsAt K s key log → ∀ m ∈ log, P key m

/-- The messages of a `Produce` request. -/
def Request.sent : Request → List (PartitionKey × Message)
  | .produce topic partition messages => messages.map fun m => ((topic, partition), m)
  | _ => []

/-- The messages that arrive satisfy `P`. -/
def Sends (P : PartitionKey → Message → Prop) (e : ServerEvent) : Prop :=
  ∀ request ∈ e.request, ∀ x ∈ request.sent, P x.1 x.2

section Vouched

variable {names : Set String} {P : PartitionKey → Message → Prop} {s t : ServerState} {id : Nat}
  {io : StepIo} {task : Task} {progress : Progress} {key : PartitionKey} {log : List Message}

theorem vouched_new (cluster : ClusterMetadata) (replicationFactor : Nat) :
    Vouched K P (ServerState.new cluster replicationFactor) := by
  constructor
  · intro id topic partition messages h
    cases h
  · intro id handle topic partition messages h
    cases h
  · rintro key log ⟨handle, ref, o, htopic, -⟩
    cases htopic

/-- **The messages of a log** after a step: those of before, or those of the request that appended
them. -/
theorem Vouched.storedStep (hK : K.Lawful) (hvouched : Vouched K P s)
    (h : Separate K dirOf names s) (hdirs : DirsApart dirOf names)
    (htask : s.tasks.get id = some task)
    (hstep : TaskStep K dirOf overflowChecks io s.server task progress t.server)
    (happends : task.Appends K dirOf io s) (hlog : HoldsAt K t key log) : ∀ m ∈ log, P key m := by
  obtain ⟨log₀, hlog₀, rfl⟩ := hlog.origin hK h hdirs htask hstep happends
  intro m hm
  rcases List.mem_append.1 hm with hm | hm
  · rcases hlog₀ with hlog₀ | ⟨rfl, -⟩
    · exact hvouched.stored key log₀ hlog₀ m hm
    · cases hm
  · generalize t.server = srv at hstep
    cases hstep with
    | appended handle topic partition messages ref o base hpart hget happ =>
      rw [Task.added, List.mem_ite_nil_right] at hm
      obtain ⟨rfl, hmem⟩ := hm
      exact hvouched.appending id handle topic partition messages htask m hmem
    | _ => cases hm

/-- **Every event** keeps what is true of all messages that are sent. -/
theorem Vouched.next (hK : K.Lawful) {e : ServerEvent} (hvouched : Vouched K P s)
    (h : Separate K dirOf names s) (hdirs : DirsApart dirOf names)
    (hstep : serverNext K dirOf overflowChecks s e = some t) (hrace : NoRace K dirOf s e t)
    (hsends : Sends P e) : Vouched K P t := by
  cases e with
  | receive id request =>
    obtain ⟨task, hnone, -, hstart, rfl⟩ := serverNext_receive hstep
    refine ⟨?_, ?_, hvouched.stored⟩
    · intro k topic partition messages hk
      rcases Table.get_insert_cases hk with ⟨rfl, rfl⟩ | ⟨-, hk⟩
      · rcases start_cases hstart with ⟨name, n, -, heq⟩ | ⟨topic', p, ms, rfl, heq⟩ |
          ⟨topic', p, o, m, -, heq⟩
        · cases heq
        · cases heq
          exact fun m hm => hsends _ rfl _ (List.mem_map_of_mem hm)
        · cases heq
      · exact hvouched.finding k topic partition messages hk
    · intro k handle topic partition messages hk
      exact hvouched.appending k handle topic partition messages
        ((get_received hnone hstart rfl).1 hk)
  | advance id io =>
    obtain ⟨task, progress, htask, -, hadvance, htasks⟩ := serverNext_step hstep
    refine ⟨?_, ?_, fun key log hlog => hvouched.storedStep hK h hdirs htask hadvance
      (hrace.2 id io rfl task htask) hlog⟩
    · intro k topic partition messages hk
      rw [htasks] at hk
      rcases get_settle hk with ⟨rfl, rfl⟩ | ⟨-, hk⟩
      · generalize t.server = srv at hadvance
        cases hadvance
      · exact hvouched.finding k topic partition messages hk
    · intro k handle topic partition messages hk
      rw [htasks] at hk
      rcases get_settle hk with ⟨rfl, rfl⟩ | ⟨-, hk⟩
      · obtain ⟨-, rfl⟩ := hadvance.appends
        exact hvouched.finding k topic partition messages htask
      · exact hvouched.appending k handle topic partition messages hk
  | registerBroker now brokerId host port =>
    cases hstep
    exact ⟨hvouched.finding, hvouched.appending, hvouched.stored⟩
  | updateReplicaOffset topic partition brokerId offset =>
    cases hstep
    exact ⟨hvouched.finding, hvouched.appending, hvouched.stored⟩

end Vouched

end Gaffa
