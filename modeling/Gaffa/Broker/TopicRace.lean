import Gaffa.Broker.Creation

/-!
# Racing creations

Two `CreateTopic` requests for one name can both find the name free.  Then both open the same files,
the second insert replaces the topic of the first, and two partition objects number and append their
messages independently.

* `creation_exclusive`: on runs in which no creation passes its check during another one of the same
  name, every name is created at most once, no offset is acknowledged twice, and fetches return what
  was acknowledged.
-/

set_option autoImplicit false

namespace Gaffa

open Transition

variable {K : Crates} {dirOf : String → Nat → Path} {overflowChecks : Bool}

/-! ## The messages of a partition -/

/-- The partition holds these messages, and fetches return their records. -/
structure HoldsLog (K : Crates) (tm : TopicManager) (o : PartitionObject) (log : List Message) :
    Prop where
  nextOffset : o.partition.nextOffset = log.length
  fetch : ∀ offset maxMessages, tm.fetchFrom K offset maxMessages o =
    .ok (((referenceFrom o.partition.topicName o.partition.partitionId 0 log).drop offset).take
      maxMessages)

section Log

variable {tm : TopicManager} {o : PartitionObject} {log log' : List Message}

theorem HoldsLog.unique (h : HoldsLog K tm o log) (h' : HoldsLog K tm o log') : log = log' := by
  have hlen : log.length = log'.length := h.nextOffset.symm.trans h'.nextOffset
  have hfetch := Except.ok.inj ((h.fetch 0 log.length).symm.trans (h'.fetch 0 log.length))
  rw [List.drop_zero, List.drop_zero, List.take_of_length_le (by simp),
    List.take_of_length_le (by simp [hlen])] at hfetch
  have hmap := congrArg (List.map Record.message) hfetch
  rwa [map_message_referenceFrom, map_message_referenceFrom] at hmap

theorem Exact.holdsLog (h : Exact K tm o) : ∃ log, HoldsLog K tm o log := by
  obtain ⟨log, hnext, hfetch⟩ := h.fetch
  exact ⟨log, hnext, hfetch⟩

theorem HoldsLog.frame {tm' : TopicManager} (h : HoldsLog K tm o log)
    (hdir : tm'.dirAt o.dir = tm.dirAt o.dir) : HoldsLog K tm' o log := by
  refine ⟨h.nextOffset, fun offset maxMessages => ?_⟩
  rw [← h.fetch offset maxMessages, TopicManager.fetchFrom, TopicManager.fetchFrom, hdir]

/-- **An append** adds its messages to the log, from the offset that it returns on. -/
theorem HoldsLog.append (hK : K.Lawful) (hlog : HoldsLog K tm o log) (h : Exact K tm o)
    {io : PartitionIo} {messages : List Message} {ref n : Nat}
    (hfit : ∀ m ∈ messages, Fits K .none m)
    (happ : (tm.appendTo K io messages ref o).1 = .ok n) :
    n = log.length ∧ ∃ o', (tm.appendTo K io messages ref o).2.objects.get ref = some o' ∧
      o'.dir = o.dir ∧ o'.partition.topicName = o.partition.topicName ∧
      o'.partition.partitionId = o.partition.partitionId ∧
      HoldsLog K (tm.appendTo K io messages ref o).2 o' (log ++ messages) := by
  obtain ⟨hconfig, acked, hs, hkept, hstraight⟩ := h
  have hsame : log = (acked.flatMap Prod.snd) :=
    hlog.unique ⟨hkept.nextOffset, hkept.fetch⟩
  obtain ⟨d, p', hres, heq⟩ := TopicManager.appendTo_eq happ
  rw [heq]
  obtain ⟨hn, -, -, htopic, hpart, -⟩ := append_nextOffset hres
  obtain ⟨hs', hkept', -⟩ := hkept.append hK (by rw [hconfig]; exact hfit) hres
    (hkept.cursorSafe (t := ⟨tm.dirAt o.dir, some o.partition, acked⟩) hstraight _)
  have hmessages : (acked ++ [(n, messages)]).flatMap Prod.snd = log ++ messages := by
    rw [List.flatMap_append, ← hsame, List.flatMap_singleton]
  refine ⟨hn.trans hlog.nextOffset, _, Table.get_insert_self .., rfl, htopic, hpart, ?_, ?_⟩
  · rw [← hmessages]
    exact hkept'.nextOffset
  · intro offset maxMessages
    simp only
    rw [htopic, hpart, ← hmessages]
    unfold TopicManager.fetchFrom
    rw [dirAt_insert, if_pos rfl]
    exact hkept'.fetch offset maxMessages

end Log

/-! ## Directories -/

/-- A directory with the empty files of a partition at most. -/
def Blank (d : Dir) : Prop :=
  ∀ name bytes, d.get name = some bytes → (name = logPath 0 ∨ name = indexPath 0) ∧ bytes = []

theorem Blank.touch {d : Dir} {file : FileName} (h : Blank d)
    (hfile : file = logPath 0 ∨ file = indexPath 0) : Blank (touch file d) := by
  intro name bytes hget
  rw [get_touch] at hget
  split at hget
  · rename_i hname
    rw [hname]
    refine ⟨hfile, ?_⟩
    cases hold : d.get file with
    | none =>
      rw [hold] at hget
      exact (Option.some_inj.1 hget).symm
    | some old =>
      rw [hold] at hget
      rw [← (h file old hold).2]
      exact (Option.some_inj.1 hget).symm
  · exact h name bytes hget

/-- A new partition changes its own directory only, and writes nothing. -/
theorem createPartition_disk (io : CreateIo) (path : Path) (name : String) (partitionId : Nat)
    (tm : TopicManager) (path' : Path) :
    (tm.createPartition io path name partitionId).2.dirAt path' = tm.dirAt path' ∨
      (path' = path ∧ (Blank (tm.dirAt path) →
        Blank ((tm.createPartition io path name partitionId).2.dirAt path))) := by
  cases io with
  | logFails e => exact Or.inl rfl
  | indexFails e =>
    have hdir : ∀ path', (tm.createPartition (.indexFails e) path name partitionId).2.dirAt path' =
        if path' = path then touch (logPath 0) (tm.dirAt path) else tm.dirAt path' :=
      fun path' => dirAt_insert tm path path' _ tm.objects tm.nextObject
    by_cases hpath : path' = path
    · refine Or.inr ⟨hpath, fun hblank => ?_⟩
      rw [hdir, if_pos rfl]
      exact hblank.touch (Or.inl rfl)
    · exact Or.inl ((hdir path').trans (if_neg hpath))
  | done =>
    have hdir : ∀ path', (tm.createPartition .done path name partitionId).2.dirAt path' =
        if path' = path then touch (indexPath 0) (touch (logPath 0) (tm.dirAt path))
        else tm.dirAt path' :=
      fun path' => dirAt_insert tm path path' _ _ _
    by_cases hpath : path' = path
    · refine Or.inr ⟨hpath, fun hblank => ?_⟩
      rw [hdir, if_pos rfl]
      exact (hblank.touch (Or.inl rfl)).touch (Or.inr rfl)
    · exact Or.inl ((hdir path').trans (if_neg hpath))

/-- **A step changes a directory** only when it creates a partition there or appends to one. -/
theorem TaskStep.disk {io : StepIo} {srv srv' : Server} {task : Task} {progress : Progress}
    (hstep : TaskStep K dirOf overflowChecks io srv task progress srv') (path : Path) :
    srv'.topicManager.dirAt path = srv.topicManager.dirAt path ∨
      (∃ name n made, task = .createPartitions name n made ∧ path = dirOf name made.length ∧
        (Blank (srv.topicManager.dirAt path) → Blank (srv'.topicManager.dirAt path))) ∨
      ∃ handle topic partition messages ref o, task = .append handle topic partition messages ∧
        handle.partitions[partition]? = some ref ∧ srv.topicManager.objects.get ref = some o ∧
        path = o.dir := by
  cases hstep with
  | notMade name partitions made e tm hlt hfail =>
    have hdisk := createPartition_disk io.create (dirOf name made.length) name made.length
      srv.topicManager path
    rw [hfail] at hdisk
    rcases hdisk with hsame | ⟨rfl, hblank⟩
    · exact Or.inl hsame
    · exact Or.inr (Or.inl ⟨name, partitions, made, rfl, rfl, hblank⟩)
  | made name partitions made hlt =>
    rcases createPartition_disk .done (dirOf name made.length) name made.length srv.topicManager
      path with hsame | ⟨rfl, hblank⟩
    · exact Or.inl hsame
    · exact Or.inr (Or.inl ⟨name, partitions, made, rfl, rfl, hblank⟩)
  | notAppended handle topic partition messages response ref o hpart hget hfail hresponse =>
    by_cases hpath : path = o.dir
    · exact Or.inr (Or.inr ⟨handle, topic, partition, messages, ref, o, rfl, hpart, hget, hpath⟩)
    · exact Or.inl ((dirAt_insert ..).trans (if_neg hpath))
  | appended handle topic partition messages ref o base hpart hget happ =>
    by_cases hpath : path = o.dir
    · exact Or.inr (Or.inr ⟨handle, topic, partition, messages, ref, o, rfl, hpart, hget, hpath⟩)
    · exact Or.inl ((dirAt_insert ..).trans (if_neg hpath))
  | _ => exact Or.inl rfl

/-! ## What a run without races keeps -/

/-- Appends to partitions succeed. -/
def Task.Appends (K : Crates) (dirOf : String → Nat → Path) (io : StepIo) (s : ServerState) :
    Task → Prop
  | .append handle topic partition messages =>
    (Task.append handle topic partition messages).Stores K dirOf io s
  | _ => True

/-- No creation passes its check during another one, and appends succeed. -/
def NoRace (K : Crates) (dirOf : String → Nat → Path) (s : ServerState) (e : ServerEvent)
    (t : ServerState) : Prop :=
  Alone s e t ∧ ∀ id io, e = .advance id io → ∀ task ∈ s.tasks.get id, task.Appends K dirOf io s

/-- Topics are created under these names only. -/
def CreatesOnly (names : Set String) (e : ServerEvent) : Prop :=
  ∀ id name partitions, e = .receive id (.createTopic name partitions) → name ∈ names

/-- Partitions of these topics have directories of their own. -/
def DirsApart (dirOf : String → Nat → Path) (names : Set String) : Prop :=
  ∀ name ∈ names, ∀ name' ∈ names, ∀ i j, dirOf name i = dirOf name' j → name = name' ∧ i = j

/-- Each partition has its directory, and those of topics that do not exist are blank. -/
structure Separate (K : Crates) (dirOf : String → Nat → Path) (names : Set String)
    (s : ServerState) : Prop where
  exclusive : Exclusive s
  owned : Owned s
  storage : StorageInvariant K s
  checking : ∀ id name n, s.tasks.get id = some (.checkTopic name n) → name ∈ names
  creating : ∀ id name n made, s.tasks.get id = some (.createPartitions name n made) → name ∈ names
  topics : ∀ name handle, s.server.topicManager.topics.get name = some handle → name ∈ names
  dirs : ∀ key ref o, Owns s key ref → s.server.topicManager.objects.get ref = some o →
    o.dir = dirOf key.1 key.2 ∧ o.partition.topicName = key.1 ∧ o.partition.partitionId = key.2
  blank : ∀ name ∈ names, s.server.topicManager.topics.get name = none →
    ∀ i, Blank (s.server.topicManager.dirAt (dirOf name i))

section Step

variable {names : Set String} {s t : ServerState} {id : Nat} {io : StepIo} {task : Task}
  {progress : Progress}

/-- A partition in use is one of some topic. -/
theorem Exclusive.owns_of_live (h : Exclusive s) {ref : Nat} (hlive : Live s ref) :
    ∃ key, Owns s key ref := by
  have howns : ∀ topic handle, s.server.topicManager.topics.get topic = some handle →
      ref ∈ handle.partitions → ∃ key, Owns s key ref := by
    intro topic handle htopic href
    obtain ⟨i, hi⟩ := List.mem_iff_getElem?.1 href
    exact ⟨(topic, i), Or.inl ⟨handle, htopic, hi⟩⟩
  rcases hlive with ⟨name, handle, htopic, href⟩ | ⟨id, task, htask, href⟩
  · exact howns name handle htopic href
  · cases task with
    | createPartitions name n made =>
      obtain ⟨i, hi⟩ := List.mem_iff_getElem?.1 href
      exact ⟨(name, i), Or.inr ⟨id, n, made, htask, hi⟩⟩
    | append handle topic partition messages =>
      exact howns topic handle (h.appending id handle topic partition messages htask) href
    | fetch handle topic partition offset maxMessages =>
      exact howns topic handle (h.fetching id handle topic partition offset maxMessages htask) href
    | _ => cases href

theorem Separate.name_mem (h : Separate K dirOf names s) {key : PartitionKey} {ref : Nat}
    (howns : Owns s key ref) : key.1 ∈ names := by
  rcases howns with ⟨handle, htopic, -⟩ | ⟨id, n, made, hid, -⟩
  · exact h.topics key.1 handle htopic
  · exact h.creating id key.1 n made hid

/-- The next partition of a topic that is being created belongs to nobody. -/
theorem Separate.not_owned (h : Separate K dirOf names s) {name : String} {n : Nat}
    {made : List Nat} (htask : s.tasks.get id = some (.createPartitions name n made)) (ref : Nat) :
    ¬ Owns s (name, made.length) ref := by
  rintro (⟨handle, htopic, -⟩ | ⟨k, n', made', hk, hi⟩)
  · rw [(h.exclusive.absent id name n made htask).1] at htopic
    cases htopic
  · obtain rfl := h.exclusive.creator k id name n' n made' made hk htask
    rw [htask] at hk
    cases hk
    rw [List.getElem?_eq_none (Nat.le_refl _)] at hi
    cases hi

/-- **The directory of a new partition** is unused. -/
theorem Separate.unused (h : Separate K dirOf names s) (hdirs : DirsApart dirOf names)
    {name : String} {n : Nat} {made : List Nat}
    (htask : s.tasks.get id = some (.createPartitions name n made)) :
    Unused s.server.topicManager (Live s) (dirOf name made.length) := by
  have hname := h.creating id name n made htask
  refine ⟨?_, h.blank name hname (h.exclusive.absent id name n made htask).1 made.length⟩
  intro ref o hlive hget hdir
  obtain ⟨key, howns⟩ := h.exclusive.owns_of_live hlive
  rw [(h.dirs key ref o howns hget).1] at hdir
  obtain ⟨hkey, hi⟩ := hdirs key.1 (h.name_mem howns) name hname key.2 made.length hdir
  obtain rfl : key = (name, made.length) := Prod.ext hkey hi
  exact h.not_owned htask ref howns

theorem Separate.stores (h : Separate K dirOf names s) (hdirs : DirsApart dirOf names)
    (htask : s.tasks.get id = some task) (happends : task.Appends K dirOf io s) :
    task.Stores K dirOf io s := by
  cases task with
  | createPartitions name n made => exact fun _ => h.unused hdirs htask
  | append handle topic partition messages => exact happends
  | _ => exact trivial

theorem TaskStep.appendsFirst {srv srv' : Server} {topic : String} {partition base count : Nat}
    (hstep : TaskStep K dirOf overflowChecks io srv task
      (.waits (.updateLeader topic partition base count)) srv') :
    ∃ handle messages, task = .append handle topic partition messages := by
  cases hstep with
  | appended handle topic' partition' messages ref o base' hpart hget hok =>
    exact ⟨handle, messages, rfl⟩

/-- Two partitions of topics that exist, in the same directory, are the same. -/
theorem Separate.key_eq (h : Separate K dirOf names s) (hdirs : DirsApart dirOf names)
    {key key' : PartitionKey} {ref ref' : Nat} {o o' : PartitionObject} (howns : Owns s key ref)
    (howns' : Owns s key' ref') (hget : s.server.topicManager.objects.get ref = some o)
    (hget' : s.server.topicManager.objects.get ref' = some o') (hdir : o.dir = o'.dir) :
    key = key' := by
  rw [(h.dirs key ref o howns hget).1, (h.dirs key' ref' o' howns' hget').1] at hdir
  obtain ⟨hname, hi⟩ := hdirs key.1 (h.name_mem howns) key'.1 (h.name_mem howns') _ _ hdir
  exact Prod.ext hname hi

/-- **The log of a partition** after a step: it is the same, or longer by the batch that the task
appends to it. -/
theorem Separate.log (hK : K.Lawful) (h : Separate K dirOf names s)
    (hdirs : DirsApart dirOf names) (htask : s.tasks.get id = some task)
    (hstep : TaskStep K dirOf overflowChecks io s.server task progress t.server)
    (happends : task.Appends K dirOf io s) {topic : String} {handle : Topic}
    {partition ref : Nat} {o : PartitionObject} {log : List Message}
    (htopic : s.server.topicManager.topics.get topic = some handle)
    (hpart : handle.partitions[partition]? = some ref)
    (hget : s.server.topicManager.objects.get ref = some o)
    (hlog : HoldsLog K s.server.topicManager o log) :
    ∃ o' more, t.server.topicManager.objects.get ref = some o' ∧ o'.dir = o.dir ∧
      o'.partition.topicName = o.partition.topicName ∧
      o'.partition.partitionId = o.partition.partitionId ∧
      HoldsLog K t.server.topicManager o' (log ++ more) ∧
      ((more = [] ∧ ∀ base count, progress ≠ .waits (.updateLeader topic partition base count)) ∨
        (task = .append handle topic partition more ∧
          progress = .waits (.updateLeader topic partition log.length (more.length % 2 ^ 32)))) := by
  have howns : Owns s (topic, partition) ref := Or.inl ⟨handle, htopic, hpart⟩
  by_cases happ : ∃ messages, task = .append handle topic partition messages
  · obtain ⟨messages, rfl⟩ := happ
    generalize t.server = srv at hstep
    cases hstep with
    | noPartition _ _ _ _ response hnone hresponse =>
      rw [hnone ref hpart] at hget
      cases hget
    | notAppended _ _ _ _ response ref' o' hpart' hget' hfail hresponse =>
      cases hpart'.symm.trans hpart
      cases hget'.symm.trans hget
      by_cases hnil : messages = []
      · subst hnil
        refine ⟨o, [], (get_objects_refused hget ref).trans hget, rfl, rfl, rfl, ?_,
          Or.inl ⟨rfl, fun base count heq => by cases heq⟩⟩
        rw [List.append_nil]
        exact hlog.frame (dirAt_refused o o.dir)
      · obtain ⟨n, hn⟩ := happends hnil ref hpart o hget
        exact absurd hn (hfail n)
    | appended _ _ _ _ ref' o' base hpart' hget' hok =>
      cases hpart'.symm.trans hpart
      cases hget'.symm.trans hget
      have hexact := h.storage.sound.exact ref o
        (Or.inl ⟨topic, handle, htopic, List.mem_of_getElem? hpart⟩) hget
      have hfit : ∀ m ∈ messages, Fits K .none m := by
        intro m hm
        exact fits_of_framed (h.storage.framed id _ htask m hm)
      obtain ⟨rfl, o', ho', hdir, hname, hid, hlog'⟩ := hlog.append hK hexact hfit hok
      exact ⟨o', messages, ho', hdir, hname, hid, hlog', Or.inr ⟨rfl, rfl⟩⟩
  · refine ⟨o, [], ?_, rfl, rfl, rfl, ?_, Or.inl ⟨rfl, ?_⟩⟩
    · rcases hstep.objects (h.owned.old _ _ howns) with hsame | ⟨handle', topic', partition', messages,
        o', rfl, hpart', -, -⟩
      · exact hsame.trans hget
      · have htopic' := h.exclusive.appending id handle' topic' partition' messages htask
        cases h.owned.apart (topic', partition') (topic, partition) ref
          (Or.inl ⟨handle', htopic', hpart'⟩) howns
        cases htopic'.symm.trans htopic
        exact absurd ⟨messages, rfl⟩ happ
    · rw [List.append_nil]
      apply hlog.frame
      rcases hstep.disk o.dir with hsame | ⟨name, n, made, rfl, hdir, -⟩ | ⟨handle', topic',
        partition', messages, ref', o', rfl, hpart', hget', hdir⟩
      · exact hsame
      · rw [(h.dirs _ ref o howns hget).1] at hdir
        obtain ⟨rfl, rfl⟩ := hdirs topic (h.topics topic handle htopic) name
          (h.creating id name n made htask) partition made.length hdir
        exact absurd howns (h.not_owned htask ref)
      · have htopic' := h.exclusive.appending id handle' topic' partition' messages htask
        have howns' : Owns s (topic', partition') ref' := Or.inl ⟨handle', htopic', hpart'⟩
        cases h.key_eq hdirs howns howns' hget hget' hdir
        cases htopic'.symm.trans htopic
        exact absurd ⟨messages, rfl⟩ happ
    · rintro base count rfl
      obtain ⟨handle', messages, rfl⟩ := hstep.appendsFirst
      cases (h.exclusive.appending id handle' topic partition messages htask).symm.trans htopic
      exact happ ⟨messages, rfl⟩

/-- **A step of a task** keeps partitions apart. -/
theorem Separate.advance (hK : K.Lawful) (h : Separate K dirOf names s)
    (hdirs : DirsApart dirOf names) (htask : s.tasks.get id = some task)
    (hstep : TaskStep K dirOf overflowChecks io s.server task progress t.server)
    (htasks : t.tasks = settle id progress s.tasks) (happends : task.Appends K dirOf io s)
    (hexclusive : Exclusive t) (hstorage : StorageInvariant K t) :
    Separate K dirOf names t := by
  refine ⟨hexclusive, h.owned.advance htask hstep htasks, hstorage, ?_, ?_, ?_, ?_, ?_⟩
  · intro k name n hk
    rw [htasks] at hk
    rcases get_settle hk with ⟨rfl, rfl⟩ | ⟨-, hk⟩
    · generalize t.server = srv at hstep
      cases hstep
    · exact h.checking k name n hk
  · intro k name n made hk
    rw [htasks] at hk
    rcases get_settle hk with ⟨rfl, rfl⟩ | ⟨-, hk⟩
    · rcases hstep.creates with ⟨rfl, -, -⟩ | ⟨made₀, rfl, -, -⟩
      · exact h.checking k name n htask
      · exact h.creating k name n made₀ htask
    · exact h.creating k name n made hk
  · intro name handle htopic
    rcases hstep.topics htopic with hold | ⟨n, made, rfl, -, -, -⟩
    · exact h.topics name handle hold
    · exact h.creating id name n made htask
  · intro key ref o howns hget
    rcases owns_of_advance htask hstep htasks howns with hold | ⟨rfl, n, made, rfl, hlen, hsrv⟩
    · obtain ⟨o₀, ho₀⟩ := h.owned.made key ref hold
      obtain ⟨hdir, hname, hid⟩ := h.dirs key ref o₀ hold ho₀
      rcases hstep.objects (h.owned.old key ref hold) with hsame | ⟨handle, topic, partition,
        messages, o', rfl, hpart, hget', htm⟩
      · rw [hsame, ho₀] at hget
        cases hget
        exact ⟨hdir, hname, hid⟩
      · have htopic := h.exclusive.appending id handle topic partition messages htask
        cases h.owned.apart key (topic, partition) ref hold (Or.inl ⟨handle, htopic, hpart⟩)
        obtain ⟨log, hlog⟩ := (h.storage.sound.exact ref o₀
          (Or.inl ⟨topic, handle, htopic, List.mem_of_getElem? hpart⟩) ho₀).holdsLog
        obtain ⟨o₁, more, ho₁, hdir₁, hname₁, hid₁, -, -⟩ :=
          h.log hK hdirs htask hstep happends htopic hpart ho₀ hlog
        cases ho₁.symm.trans hget
        exact ⟨hdir₁.trans hdir, hname₁.trans hname, hid₁.trans hid⟩
    · rw [hsrv] at hget
      obtain rfl := Option.some_inj.1 ((Table.get_insert_self ..).symm.trans hget)
      refine ⟨?_, rfl, hlen⟩
      rw [← hlen]
  · intro name hname hnone i
    have hnone' : s.server.topicManager.topics.get name = none := by
      rw [Option.eq_none_iff_forall_ne_some]
      intro handle htopic
      rw [h.exclusive.topics htask hstep htopic] at hnone
      cases hnone
    have hblank := h.blank name hname hnone' i
    rcases hstep.disk (dirOf name i) with hsame | ⟨name', n, made, rfl, -, hkept⟩ | ⟨handle, topic,
      partition, messages, ref, o, rfl, hpart, hget, hdir⟩
    · rw [hsame]
      exact hblank
    · exact hkept hblank
    · have htopic := h.exclusive.appending id handle topic partition messages htask
      rw [(h.dirs (topic, partition) ref o (Or.inl ⟨handle, htopic, hpart⟩) hget).1] at hdir
      obtain ⟨rfl, -⟩ := hdirs name hname topic (h.topics topic handle htopic) i partition hdir
      rw [hnone'] at htopic
      cases htopic

/-- **Every event without a race** keeps partitions apart. -/
theorem Separate.next (hK : K.Lawful) {e : ServerEvent} (h : Separate K dirOf names s)
    (hdirs : DirsApart dirOf names) (hstep : serverNext K dirOf overflowChecks s e = some t)
    (hnames : CreatesOnly names e) (hrace : NoRace K dirOf s e t) : Separate K dirOf names t := by
  have hexclusive := h.exclusive.next hstep hrace.1
  have hstorage : StorageInvariant K t := by
    refine h.storage.next hK hstep ?_
    intro id io he task htask
    exact h.stores hdirs htask (hrace.2 id io he task htask)
  cases e with
  | receive id request =>
    obtain ⟨task, hnone, -, hstart, rfl⟩ := serverNext_receive hstep
    refine ⟨hexclusive, h.owned.receive hnone hstart, hstorage, ?_, ?_, h.topics, ?_, h.blank⟩
    · intro k name n hk
      rcases Table.get_insert_cases hk with ⟨-, rfl⟩ | ⟨-, hk⟩
      · rcases start_cases hstart with ⟨name', n', rfl, heq⟩ | ⟨topic, p, ms, -, heq⟩ |
          ⟨topic, p, o, m, -, heq⟩
        · cases heq
          exact hnames id name n rfl
        · cases heq
        · cases heq
      · exact h.checking k name n hk
    · intro k name n made hk
      exact h.creating k name n made ((get_received hnone hstart rfl).1 hk)
    · intro key ref o howns hget
      exact h.dirs key ref o ((owns_receive hnone hstart).1 howns) hget
  | advance id io =>
    obtain ⟨task, progress, htask, -, hadvance, htasks⟩ := serverNext_step hstep
    exact h.advance hK hdirs htask hadvance htasks (hrace.2 id io rfl task htask) hexclusive hstorage
  | registerBroker now brokerId host port =>
    cases hstep
    exact ⟨hexclusive, ⟨h.owned.apart, h.owned.old, h.owned.made⟩, hstorage, h.checking, h.creating,
      h.topics, h.dirs, h.blank⟩
  | updateReplicaOffset topic partition b offset =>
    cases hstep
    exact ⟨hexclusive, ⟨h.owned.apart, h.owned.old, h.owned.made⟩, hstorage, h.checking, h.creating,
      h.topics, h.dirs, h.blank⟩

end Step

theorem separate_new (names : Set String) (cluster : ClusterMetadata) (replicationFactor : Nat) :
    Separate K dirOf names (ServerState.new cluster replicationFactor) := by
  refine ⟨exclusive_new cluster replicationFactor, owned_new cluster replicationFactor,
    storageInvariant_new cluster replicationFactor, ?_, ?_, ?_, ?_, ?_⟩
  · intro id name n h
    cases h
  · intro id name n made h
    cases h
  · intro name handle h
    cases h
  · rintro key ref o - h
    cases h
  · intro name _ _ i file bytes h
    cases h

/-! ## What the clients see -/

/-- A batch that a client was told is at `base`. -/
structure Acknowledged where
  topic : String
  partition : Nat
  base : Nat
  messages : List Message

/-- The batches have no offset in common. -/
def Acknowledged.Apart (a b : Acknowledged) : Prop :=
  a.topic = b.topic → a.partition = b.partition →
    a.base + a.messages.length ≤ b.base ∨ b.base + b.messages.length ≤ a.base

instance (a b : Acknowledged) : Decidable (a.Apart b) := inferInstanceAs (Decidable (_ → _ → _))

theorem Acknowledged.Apart.symm {a b : Acknowledged} (h : a.Apart b) : b.Apart a :=
  fun htopic hpartition => (h htopic.symm hpartition.symm).symm

/-- The response has the messages of the batch that lie in the range of the fetch. -/
def Acknowledged.Returned (a : Acknowledged) (offset maxMessages : Nat) (response : Option Response) :
    Prop :=
  ∃ records, response = some (.fetchSuccess a.topic a.partition records) ∧
    ∀ i m, a.messages[i]? = some m → offset ≤ a.base + i → a.base + i < offset + maxMessages →
      records[a.base + i - offset]? = some ⟨a.topic, a.partition, a.base + i, m⟩

/-- A server with what its clients know: the request of each connection, the batches that were
acknowledged, and the topics whose creation succeeded. -/
structure Observed where
  state : ServerState
  requests : Table Nat Request
  acked : List Acknowledged
  created : List String

/-- A new server, seen by nobody yet. -/
def Observed.new (cluster : ClusterMetadata) (replicationFactor : Nat) : Observed :=
  ⟨ServerState.new cluster replicationFactor, Table.empty, [], []⟩

/-- The requests after an event. -/
def requestsAfter (requests : Table Nat Request) : ServerEvent → Table Nat Request
  | .receive id request => requests.insert id request
  | _ => requests

/-- The batch that a response acknowledges. -/
def acksOf (requests : Table Nat Request) : ServerEvent → Option Response → List Acknowledged
  | .advance id _, some (.produceSuccess topic partition base _) =>
    match requests.get id with
    | some (.produce _ _ messages) => [⟨topic, partition, base, messages⟩]
    | _ => []
  | _, _ => []

/-- The topic whose creation a response reports. -/
def createdOf : Option Response → List String
  | some (.createTopicSuccess name _) => [name]
  | _ => []

/-- The steps of the server, observed. -/
def Observed.next (K : Crates) (dirOf : String → Nat → Path) (overflowChecks : Bool) (s : Observed)
    (e : ServerEvent) : Option Observed :=
  (serverNext K dirOf overflowChecks s.state e).map fun t =>
    { state := t
      requests := requestsAfter s.requests e
      acked := s.acked ++ acksOf s.requests e (answer K dirOf overflowChecks s.state e)
      created := s.created ++ createdOf (answer K dirOf overflowChecks s.state e) }

/-- **Creation is exclusive**: at most one success for each name, no offset acknowledged twice, and a
fetch of an acknowledged batch finds its topic and returns the batch. -/
structure ExclusiveCreation (K : Crates) (dirOf : String → Nat → Path) (overflowChecks : Bool)
    (s : Observed) (e : ServerEvent) (t : Observed) : Prop where
  created : t.created.Nodup
  apart : t.acked.Pairwise Acknowledged.Apart
  found : ∀ a ∈ s.acked, ∀ id io offset maxMessages, e = .advance id io →
    s.state.tasks.get id = some (.findFetched a.topic a.partition offset maxMessages) →
    answer K dirOf overflowChecks s.state e = none
  returned : ∀ a ∈ s.acked, ∀ id io handle offset maxMessages, e = .advance id io →
    s.state.tasks.get id = some (.fetch handle a.topic a.partition offset maxMessages) →
    a.Returned offset maxMessages (answer K dirOf overflowChecks s.state e)

/-! ## What an observed run keeps -/

/-- The log of the partition has the batch at its base. -/
def Acknowledged.InLog (K : Crates) (s : ServerState) (a : Acknowledged) : Prop :=
  ∃ handle ref o front back, s.server.topicManager.topics.get a.topic = some handle ∧
    handle.partitions[a.partition]? = some ref ∧
    s.server.topicManager.objects.get ref = some o ∧
    HoldsLog K s.server.topicManager o (front ++ a.messages ++ back) ∧ front.length = a.base

/-- The batch was appended by the request and is going to be acknowledged. -/
def Pending (s : Observed) (id : Nat) (a : Acknowledged) : Prop :=
  (∃ count, s.state.tasks.get id = some (.updateLeader a.topic a.partition a.base count)) ∧
    ∃ topic partition, s.requests.get id = some (.produce topic partition a.messages)

/-- What an observed run keeps. -/
structure Observes (K : Crates) (s : Observed) : Prop where
  finding : ∀ id topic partition messages,
    s.state.tasks.get id = some (.findTopic topic partition messages) →
    s.requests.get id = some (.produce topic partition messages)
  appending : ∀ id handle topic partition messages,
    s.state.tasks.get id = some (.append handle topic partition messages) →
    s.requests.get id = some (.produce topic partition messages)
  pending : ∀ id a, Pending s id a → a.InLog K s.state ∧ ∀ b ∈ s.acked, a.Apart b
  pendingApart : ∀ id id' a b, id ≠ id' → Pending s id a → Pending s id' b → a.Apart b
  acked : ∀ a ∈ s.acked, a.InLog K s.state
  apart : s.acked.Pairwise Acknowledged.Apart
  created : s.created.Nodup
  existing : ∀ name ∈ s.created, ∃ handle, s.state.server.topicManager.topics.get name = some handle
  assigning : ∀ id name n next, s.state.tasks.get id = some (.assignReplicas name n next) →
    name ∉ s.created

/-- The response that ends a request. -/
def Progress.response : Progress → Option Response
  | .waits _ => none
  | .ends response => response

theorem answer_advance {s : ServerState} {id : Nat} {io : StepIo} {task : Task}
    (htask : s.tasks.get id = some task) :
    answer K dirOf overflowChecks s (.advance id io) =
      (task.advance K dirOf overflowChecks io s.server).1.response := by
  simp only [answer, htask]
  cases (task.advance K dirOf overflowChecks io s.server).1 <;> rfl

section Observation

variable {names : Set String} {s t : Observed} {id : Nat} {io : StepIo} {task : Task}
  {progress : Progress} {srv srv' : Server}

/-- What the last step of a request reports: the creation of a topic, a batch, or neither. -/
theorem response_cases (hstep : TaskStep K dirOf overflowChecks io srv task progress srv') :
    (∃ name n next, task = .assignReplicas name n next ∧
      progress.response = some (.createTopicSuccess name n)) ∨
    (∃ topic partition base count n, task = .updateLeader topic partition base count ∧
      progress.response = some (.produceSuccess topic partition base n)) ∨
    (createdOf progress.response = [] ∧
      ∀ requests id, acksOf requests (.advance id io) progress.response = []) := by
  cases hstep with
  | created name partitions next hle => exact Or.inl ⟨name, partitions, next, rfl, rfl⟩
  | updated topic partition base count finalOffset response hsum hresponse =>
    rcases hresponse with rfl | rfl
    · exact Or.inr (Or.inr ⟨rfl, fun _ _ => rfl⟩)
    · exact Or.inr (Or.inl ⟨topic, partition, base, count, _, rfl, rfl⟩)
  | noPartition handle topic partition messages response hnone hresponse =>
    rcases hresponse with rfl | ⟨e, rfl⟩ <;> exact Or.inr (Or.inr ⟨rfl, fun _ _ => rfl⟩)
  | notAppended handle topic partition messages response ref o hpart hget hfail hresponse =>
    rcases hresponse with rfl | ⟨e, rfl⟩ <;> exact Or.inr (Or.inr ⟨rfl, fun _ _ => rfl⟩)
  | fetched handle topic partition offset maxMessages =>
    rcases read_cases K handle topic partition offset maxMessages srv with
      h | ⟨e, h⟩ | ⟨ref, o, records, -, -, -, h⟩
    all_goals
      rw [h]
      exact Or.inr (Or.inr ⟨rfl, fun _ _ => rfl⟩)
  | _ => exact Or.inr (Or.inr ⟨rfl, fun _ _ => rfl⟩)

/-- **A batch is acknowledged** by the last step of the request that appended it. -/
theorem acksOf_advance (id : Nat) (requests : Table Nat Request)
    (hstep : TaskStep K dirOf overflowChecks io srv task progress srv') :
    acksOf requests (.advance id io) progress.response = [] ∨
      ∃ a count topic partition, task = .updateLeader a.topic a.partition a.base count ∧
        requests.get id = some (.produce topic partition a.messages) ∧
        acksOf requests (.advance id io) progress.response = [a] := by
  rcases response_cases hstep with ⟨name, n, next, -, hresponse⟩ |
    ⟨topic, partition, base, count, n, rfl, hresponse⟩ | ⟨-, hnone⟩
  · rw [hresponse]
    exact Or.inl rfl
  · rw [hresponse]
    simp only [acksOf]
    split
    · rename_i topic' partition' messages hget
      exact Or.inr ⟨⟨topic, partition, base, messages⟩, count, topic', partition', rfl, hget, rfl⟩
    · exact Or.inl rfl
  · exact Or.inl (hnone requests id)

/-- **A creation succeeds** in the last step of the request that inserted the topic. -/
theorem createdOf_advance (hstep : TaskStep K dirOf overflowChecks io srv task progress srv') :
    createdOf progress.response = [] ∨
      ∃ name n next, task = .assignReplicas name n next ∧
        createdOf progress.response = [name] := by
  rcases response_cases hstep with ⟨name, n, next, htask, hresponse⟩ |
    ⟨topic, partition, base, count, n, -, hresponse⟩ | ⟨hnone, -⟩
  · rw [hresponse]
    exact Or.inr ⟨name, n, next, htask, rfl⟩
  · rw [hresponse]
    exact Or.inl rfl
  · exact Or.inl hnone

theorem assigning_of_createdOf
    (hstep : TaskStep K dirOf overflowChecks io srv task progress srv') {name : String}
    (hname : name ∈ createdOf progress.response) : ∃ n next, task = .assignReplicas name n next := by
  rcases createdOf_advance hstep with hnil | ⟨name', n, next, htask, heq⟩
  · rw [hnil] at hname
    cases hname
  · rw [heq] at hname
    obtain rfl := List.mem_singleton.1 hname
    exact ⟨n, next, htask⟩

/-- A batch in the log stays there. -/
theorem Acknowledged.InLog.step (hK : K.Lawful) {a : Acknowledged} {s t : ServerState}
    (ha : a.InLog K s) (h : Separate K dirOf names s) (hdirs : DirsApart dirOf names)
    (htask : s.tasks.get id = some task)
    (hstep : TaskStep K dirOf overflowChecks io s.server task progress t.server)
    (happends : task.Appends K dirOf io s) : a.InLog K t := by
  obtain ⟨handle, ref, o, front, back, htopic, hpart, hget, hlog, hbase⟩ := ha
  obtain ⟨o', more, ho', -, -, -, hlog', -⟩ :=
    h.log hK hdirs htask hstep happends htopic hpart hget hlog
  refine ⟨handle, ref, o', front, back ++ more, h.exclusive.topics htask hstep htopic, hpart, ho',
    ?_, hbase⟩
  rw [← List.append_assoc]
  exact hlog'

/-- **A new batch** is in the log, behind every other one of its partition. -/
theorem Separate.newBatch (hK : K.Lawful) {s t : ServerState} (h : Separate K dirOf names s)
    (hdirs : DirsApart dirOf names) {handle : Topic} {topic : String} {partition base count : Nat}
    {messages : List Message}
    (htask : s.tasks.get id = some (.append handle topic partition messages))
    (hstep : TaskStep K dirOf overflowChecks io s.server (.append handle topic partition messages)
      (.waits (.updateLeader topic partition base count)) t.server)
    (happends : (Task.append handle topic partition messages).Appends K dirOf io s) :
    (⟨topic, partition, base, messages⟩ : Acknowledged).InLog K t ∧
      ∀ a : Acknowledged, a.InLog K s →
        (⟨topic, partition, base, messages⟩ : Acknowledged).Apart a := by
  have htopic := h.exclusive.appending id handle topic partition messages htask
  obtain ⟨ref, o, hpart, hget⟩ : ∃ ref o, handle.partitions[partition]? = some ref ∧
      s.server.topicManager.objects.get ref = some o := by
    generalize t.server = srv at hstep
    cases hstep with
    | appended _ _ _ _ ref o base' hpart hget hok => exact ⟨ref, o, hpart, hget⟩
  obtain ⟨log, hlog⟩ := (h.storage.sound.exact ref o
    (Or.inl ⟨topic, handle, htopic, List.mem_of_getElem? hpart⟩) hget).holdsLog
  obtain ⟨o', more, ho', -, -, -, hlog', ⟨-, hwaits⟩ | ⟨hmore, hprogress⟩⟩ :=
    h.log hK hdirs htask hstep happends htopic hpart hget hlog
  · exact absurd rfl (hwaits base count)
  · cases hmore
    cases hprogress
    constructor
    · refine ⟨handle, ref, o', log, [], h.exclusive.topics htask hstep htopic, hpart, ho', ?_, rfl⟩
      rw [List.append_nil]
      exact hlog'
    · rintro a ⟨handle', ref', o'', front, back, htopic', hpart', hget', hlog'', hbase⟩ heq heq'
      simp only at heq heq'
      rw [← heq] at htopic'
      cases htopic'.symm.trans htopic
      rw [← heq'] at hpart'
      cases hpart'.symm.trans hpart
      cases hget'.symm.trans hget
      right
      simp only
      rw [hlog.unique hlog'', ← hbase, List.length_append, List.length_append]
      omega

/-- **What a fetch of a batch in the log returns.** -/
theorem Acknowledged.InLog.returned {a : Acknowledged} {s : ServerState} (ha : a.InLog K s)
    (h : Separate K dirOf names s) {handle : Topic} {offset maxMessages : Nat}
    (htask : s.tasks.get id = some (.fetch handle a.topic a.partition offset maxMessages)) :
    a.Returned offset maxMessages (answer K dirOf overflowChecks s (.advance id io)) := by
  obtain ⟨handle', ref, o, front, back, htopic, hpart, hget, hlog, hbase⟩ := ha
  have htopic' := h.exclusive.fetching id handle a.topic a.partition offset maxMessages htask
  cases htopic'.symm.trans htopic
  obtain ⟨-, hname, hid⟩ := h.dirs (a.topic, a.partition) ref o
    (Or.inl ⟨handle, htopic, hpart⟩) hget
  have hfetch := hlog.fetch offset maxMessages
  rw [hname, hid] at hfetch
  refine ⟨((referenceFrom a.topic a.partition 0 (front ++ a.messages ++ back)).drop offset).take
    maxMessages, ?_, ?_⟩
  · rw [answer_advance htask, ends_of_fetch hpart hget hfetch]
    rfl
  · intro i m hm hlo hhi
    have hlt := (List.getElem?_eq_some_iff.1 hm).1
    rw [List.getElem?_take, if_pos (by omega), List.getElem?_drop,
      show offset + (a.base + i - offset) = a.base + i by omega, getElem?_referenceFrom,
      Nat.zero_add, List.append_assoc, List.getElem?_append_right (by omega),
      List.getElem?_append_left (by omega), ← hbase, Nat.add_sub_cancel_left, hm]
    rfl

theorem pending_of_advance (h : Observes K s) (htask : s.state.tasks.get id = some task)
    (hstep : TaskStep K dirOf overflowChecks io s.state.server task progress srv)
    (htasks : t.state.tasks = settle id progress s.state.tasks) (hrequests : t.requests = s.requests)
    {k : Nat} {a : Acknowledged} (ha : Pending t k a) :
    (k ≠ id ∧ Pending s k a) ∨ (k = id ∧ ∃ handle count,
      task = .append handle a.topic a.partition a.messages ∧
      progress = .waits (.updateLeader a.topic a.partition a.base count)) := by
  obtain ⟨⟨count, hk⟩, topic, partition, hrequest⟩ := ha
  rw [htasks] at hk
  rw [hrequests] at hrequest
  rcases get_settle hk with ⟨rfl, rfl⟩ | ⟨hne, hk⟩
  · obtain ⟨handle, messages, rfl⟩ := hstep.appendsFirst
    cases (h.appending k handle _ _ messages htask).symm.trans hrequest
    exact Or.inr ⟨rfl, handle, count, rfl, rfl⟩
  · exact Or.inl ⟨hne, ⟨count, hk⟩, topic, partition, hrequest⟩

/-- What a step acknowledges was pending. -/
theorem pending_of_acksOf (htask : s.state.tasks.get id = some task)
    (hstep : TaskStep K dirOf overflowChecks io srv task progress srv') {a : Acknowledged}
    (ha : a ∈ acksOf s.requests (.advance id io) progress.response) : Pending s id a := by
  rcases acksOf_advance id s.requests hstep with hnil |
    ⟨a', count, topic, partition, rfl, hget, heq⟩
  · rw [hnil] at ha
    cases ha
  · rw [heq] at ha
    obtain rfl := List.mem_singleton.1 ha
    exact ⟨⟨count, htask⟩, topic, partition, hget⟩

theorem pairwise_acksOf (id : Nat) (requests : Table Nat Request)
    (hstep : TaskStep K dirOf overflowChecks io srv task progress srv') :
    (acksOf requests (.advance id io) progress.response).Pairwise Acknowledged.Apart := by
  rcases acksOf_advance id requests hstep with hnil | ⟨a, count, topic, partition, -, -, heq⟩
  · rw [hnil]
    exact List.Pairwise.nil
  · rw [heq]
    exact List.pairwise_singleton _ _

theorem nodup_createdOf (hstep : TaskStep K dirOf overflowChecks io srv task progress srv') :
    (createdOf progress.response).Nodup := by
  rcases createdOf_advance hstep with hnil | ⟨name, n, next, -, heq⟩
  · rw [hnil]
    exact List.nodup_nil
  · rw [heq]
    exact List.nodup_singleton name

/-- **A step of a task**, observed. -/
theorem Observes.advance (hK : K.Lawful) (h : Observes K s) (hsep : Separate K dirOf names s.state)
    (hdirs : DirsApart dirOf names) (htask : s.state.tasks.get id = some task)
    (hstep : TaskStep K dirOf overflowChecks io s.state.server task progress t.state.server)
    (htasks : t.state.tasks = settle id progress s.state.tasks)
    (happends : task.Appends K dirOf io s.state) (hrequests : t.requests = s.requests)
    (hacked : t.acked = s.acked ++ acksOf s.requests (.advance id io) progress.response)
    (hcreated : t.created = s.created ++ createdOf progress.response) : Observes K t := by
  have hacks : ∀ a ∈ acksOf s.requests (.advance id io) progress.response, Pending s id a :=
    fun a ha => pending_of_acksOf htask hstep ha
  have hlog : ∀ a : Acknowledged, a.InLog K s.state → a.InLog K t.state :=
    fun a ha => ha.step hK hsep hdirs htask hstep happends
  have hnew : ∀ k a, Pending t k a → (k ≠ id ∧ Pending s k a) ∨ (k = id ∧ progress.response = none ∧
      a.InLog K t.state ∧ ∀ b : Acknowledged, b.InLog K s.state → a.Apart b) := by
    intro k a ha
    rcases pending_of_advance h htask hstep htasks hrequests ha with hold |
      ⟨rfl, handle, count, rfl, rfl⟩
    · exact Or.inl hold
    · obtain ⟨hin, hapart⟩ := hsep.newBatch hK hdirs htask hstep happends
      exact Or.inr ⟨rfl, rfl, hin, hapart⟩
  constructor
  · intro k topic partition messages hk
    rw [htasks] at hk
    rw [hrequests]
    rcases get_settle hk with ⟨rfl, rfl⟩ | ⟨-, hk⟩
    · generalize t.state.server = srv at hstep
      cases hstep
    · exact h.finding k topic partition messages hk
  · intro k handle topic partition messages hk
    rw [htasks] at hk
    rw [hrequests]
    rcases get_settle hk with ⟨rfl, rfl⟩ | ⟨-, hk⟩
    · obtain ⟨-, rfl⟩ := hstep.appends
      exact h.finding k topic partition messages htask
    · exact h.appending k handle topic partition messages hk
  · intro k a ha
    rw [hacked]
    rcases hnew k a ha with ⟨hne, hold⟩ | ⟨rfl, hnone, hin, hapart⟩
    · refine ⟨hlog a (h.pending k a hold).1, fun b hb => ?_⟩
      rcases List.mem_append.1 hb with hb | hb
      · exact (h.pending k a hold).2 b hb
      · exact h.pendingApart k id a b hne hold (hacks b hb)
    · refine ⟨hin, fun b hb => ?_⟩
      rw [hnone] at hb
      rcases List.mem_append.1 hb with hb | hb
      · exact hapart b (h.acked b hb)
      · cases hb
  · intro k k' a b hne ha hb
    rcases hnew k a ha with ⟨hk, ha⟩ | ⟨rfl, -, -, hapart⟩ <;>
      rcases hnew k' b hb with ⟨hk', hb⟩ | ⟨rfl, -, -, hapart'⟩
    · exact h.pendingApart k k' a b hne ha hb
    · exact (hapart' a (h.pending k a ha).1).symm
    · exact hapart b (h.pending k' b hb).1
    · exact absurd rfl hne
  · intro a ha
    rw [hacked] at ha
    rcases List.mem_append.1 ha with ha | ha
    · exact hlog a (h.acked a ha)
    · exact hlog a (h.pending id a (hacks a ha)).1
  · rw [hacked, List.pairwise_append]
    exact ⟨h.apart, pairwise_acksOf id s.requests hstep,
      fun a ha b hb => ((h.pending id b (hacks b hb)).2 a ha).symm⟩
  · rw [hcreated, List.nodup_append]
    refine ⟨h.created, nodup_createdOf hstep, ?_⟩
    rintro name hname name' hname' rfl
    obtain ⟨n, next, rfl⟩ := assigning_of_createdOf hstep hname'
    exact h.assigning id name n next htask hname
  · intro name hname
    rw [hcreated] at hname
    rcases List.mem_append.1 hname with hname | hname
    · obtain ⟨handle, htopic⟩ := h.existing name hname
      exact ⟨handle, hsep.exclusive.topics htask hstep htopic⟩
    · obtain ⟨n, next, rfl⟩ := assigning_of_createdOf hstep hname
      obtain ⟨handle, htopic, -⟩ := hsep.exclusive.assigned id name n next htask
      exact ⟨handle, hsep.exclusive.topics htask hstep htopic⟩
  · intro k name n next hk hname
    rw [htasks] at hk
    rw [hcreated] at hname
    rcases get_settle hk with ⟨rfl, rfl⟩ | ⟨hne, hk⟩
    · rcases List.mem_append.1 hname with hname | hname
      · rcases hstep.assigns with ⟨made, rfl, -, -⟩ | ⟨next', rfl⟩
        · obtain ⟨handle, htopic⟩ := h.existing name hname
          rw [(hsep.exclusive.absent k name n made htask).1] at htopic
          cases htopic
        · exact h.assigning k name n next' htask hname
      · cases hname
    · rcases List.mem_append.1 hname with hname | hname
      · exact h.assigning k name n next hk hname
      · obtain ⟨n', next', rfl⟩ := assigning_of_createdOf hstep hname
        exact hne (hsep.exclusive.assigner k id name n n' next next' hk htask)

/-- **A request arrives**, observed. -/
theorem Observes.receive (h : Observes K s) {request : Request}
    (hnone : s.state.tasks.get id = none) (hstart : start request = some task) :
    Observes K ⟨{ s.state with tasks := s.state.tasks.insert id task },
      s.requests.insert id request, s.acked, s.created⟩ := by
  have hother : ∀ {k task'}, s.state.tasks.get k = some task' → k ≠ id := by
    rintro k task' hk rfl
    rw [hnone] at hk
    cases hk
  have hpending : ∀ {k a}, Pending ⟨{ s.state with tasks := s.state.tasks.insert id task },
      s.requests.insert id request, s.acked, s.created⟩ k a → Pending s k a := by
    rintro k a ⟨⟨count, hk⟩, topic, partition, hrequest⟩
    have hold := (get_received hnone hstart rfl).1 hk
    refine ⟨⟨count, hold⟩, topic, partition, ?_⟩
    rwa [Table.get_insert_ne _ (hother hold)] at hrequest
  constructor
  · intro k topic partition messages hk
    rcases Table.get_insert_cases hk with ⟨rfl, rfl⟩ | ⟨hne, hk⟩
    · rcases start_cases hstart with ⟨name, n, -, heq⟩ | ⟨topic', p, ms, rfl, heq⟩ |
        ⟨topic', p, o, m, -, heq⟩
      · cases heq
      · cases heq
        exact Table.get_insert_self ..
      · cases heq
    · rw [Table.get_insert_ne _ hne]
      exact h.finding k topic partition messages hk
  · intro k handle topic partition messages hk
    have hold := (get_received hnone hstart rfl).1 hk
    rw [Table.get_insert_ne _ (hother hold)]
    exact h.appending k handle topic partition messages hold
  · intro k a ha
    exact h.pending k a (hpending ha)
  · intro k k' a b hne ha hb
    exact h.pendingApart k k' a b hne (hpending ha) (hpending hb)
  · exact h.acked
  · exact h.apart
  · exact h.created
  · exact h.existing
  · intro k name n next hk
    exact h.assigning k name n next ((get_received hnone hstart rfl).1 hk)

/-- **Every event without a race**, observed. -/
theorem Observes.next (hK : K.Lawful) {e : ServerEvent} (h : Observes K s)
    (hsep : Separate K dirOf names s.state) (hdirs : DirsApart dirOf names)
    (hstep : Observed.next K dirOf overflowChecks s e = some t)
    (hrace : NoRace K dirOf s.state e t.state) : Observes K t := by
  obtain ⟨state, hstate, rfl⟩ := Option.map_eq_some_iff.1 hstep
  cases e with
  | receive id request =>
    obtain ⟨task, hnone, -, hstart, rfl⟩ := serverNext_receive hstate
    have hobserved := h.receive hnone hstart
    simpa only [answer, acksOf, createdOf, List.append_nil, requestsAfter] using hobserved
  | advance id io =>
    obtain ⟨task, htask, -, hserver, htasks⟩ := serverNext_advance hstate
    have hadvance : TaskStep K dirOf overflowChecks io s.state.server task _ _ :=
      advance_step io s.state.server task
    rw [← hserver] at hadvance
    refine h.advance hK hsep hdirs htask hadvance htasks (hrace.2 id io rfl task htask) rfl ?_ ?_
    · simp only [answer_advance htask]
    · simp only [answer_advance htask]
  | registerBroker now brokerId host port =>
    cases hstate
    simp only [answer, acksOf, createdOf, List.append_nil, requestsAfter]
    exact ⟨h.finding, h.appending, h.pending, h.pendingApart, h.acked, h.apart, h.created,
      h.existing, h.assigning⟩
  | updateReplicaOffset topic partition brokerId offset =>
    cases hstate
    simp only [answer, acksOf, createdOf, List.append_nil, requestsAfter]
    exact ⟨h.finding, h.appending, h.pending, h.pendingApart, h.acked, h.apart, h.created,
      h.existing, h.assigning⟩

/-- What an observed run keeps is what the clients see. -/
theorem Observes.exclusive {e : ServerEvent} (h : Observes K s)
    (hsep : Separate K dirOf names s.state) (ht : Observes K t) :
    ExclusiveCreation K dirOf overflowChecks s e t := by
  refine ⟨ht.created, ht.apart, ?_, ?_⟩
  · rintro a ha id io offset maxMessages rfl htask
    obtain ⟨handle, ref, o, front, back, htopic, -, -, -, -⟩ := h.acked a ha
    rw [answer_advance htask]
    simp only [Task.advance, TopicManager.getTopic, htopic]
    rfl
  · rintro a ha id io handle offset maxMessages rfl htask
    exact (h.acked a ha).returned hsep htask

end Observation

theorem observes_new (cluster : ClusterMetadata) (replicationFactor : Nat) :
    Observes K (Observed.new cluster replicationFactor) := by
  constructor
  · intro id topic partition messages h
    cases h
  · intro id handle topic partition messages h
    cases h
  · rintro id a ⟨⟨count, h⟩, -⟩
    cases h
  · rintro id id' a b - ⟨⟨count, h⟩, -⟩
    cases h
  · intro a h
    cases h
  · exact List.Pairwise.nil
  · exact List.nodup_nil
  · intro name h
    cases h
  · intro id name n next h
    cases h

/-- **Creation is exclusive on runs without races**: on every run of any requests in which no
`CreateTopic` passes its check during another one of the same name and appends succeed, each name is
created at most once, no offset is acknowledged twice, and fetches return what was acknowledged. -/
theorem creation_exclusive (hK : K.Lawful) (cluster : ClusterMetadata) (replicationFactor : Nat)
    {names : Set String} (hdirs : DirsApart dirOf names) {tr : List (ServerEvent × Observed)}
    (hrun : Run (Steps (Observed.next K dirOf overflowChecks))
      (Observed.new cluster replicationFactor) tr)
    (hnames : EachStep (fun _ e _ => CreatesOnly names e) (Observed.new cluster replicationFactor) tr)
    (hrace : EachStep (fun s e t => NoRace K dirOf s.state e t.state)
      (Observed.new cluster replicationFactor) tr) :
    EachStep (ExclusiveCreation K dirOf overflowChecks) (Observed.new cluster replicationFactor) tr := by
  have hstate : ∀ {s e t}, Observed.next K dirOf overflowChecks s e = some t →
      serverNext K dirOf overflowChecks s.state e = some t.state := by
    intro s e t hstep
    obtain ⟨state, hstate, rfl⟩ := Option.map_eq_some_iff.1 hstep
    exact hstate
  refine eachStep_of_invariant (I := fun s => Separate K dirOf names s.state ∧ Observes K s)
    ?_ ?_ ⟨separate_new names cluster replicationFactor, observes_new cluster replicationFactor⟩ hrun
    (hnames.and hrace)
  · rintro s e t ⟨hsep, hobs⟩ hstep ⟨hname, hr⟩
    exact ⟨hsep.next hK hdirs (hstate hstep) hname hr, hobs.next hK hsep hdirs hstep hr⟩
  · rintro s e t ⟨hsep, hobs⟩ hstep ⟨-, hr⟩
    exact hobs.exclusive hsep (hobs.next hK hsep hdirs hstep hr)

/-! ## Two creations of a topic -/

instance decidableAppends (io : StepIo) (s : ServerState) :
    ∀ task : Task, Decidable (task.Appends K dirOf io s)
  | .append handle topic partition messages =>
    inferInstanceAs (Decidable ((Task.append handle topic partition messages).Stores K dirOf io s))
  | .checkTopic .. => isTrue trivial
  | .createPartitions .. => isTrue trivial
  | .assignReplicas .. => isTrue trivial
  | .findTopic .. => isTrue trivial
  | .updateLeader .. => isTrue trivial
  | .findFetched .. => isTrue trivial
  | .fetch .. => isTrue trivial

instance decidableNoRace (s : ServerState) :
    ∀ (e : ServerEvent) (t : ServerState), Decidable (NoRace K dirOf s e t)
  | .advance id io, t =>
    decidable_of_iff (Alone s (.advance id io) t ∧
        ∀ task ∈ s.tasks.get id, task.Appends K dirOf io s) (by
      constructor
      · rintro ⟨halone, happends⟩
        refine ⟨halone, ?_⟩
        rintro id' io' he
        cases he
        exact happends
      · rintro ⟨halone, happends⟩
        exact ⟨halone, happends id io rfl⟩)
  | .receive .., _ => isTrue ⟨(fun _ _ he => nomatch he), (fun _ _ he => nomatch he)⟩
  | .registerBroker .., _ => isTrue ⟨(fun _ _ he => nomatch he), (fun _ _ he => nomatch he)⟩
  | .updateReplicaOffset .., _ => isTrue ⟨(fun _ _ he => nomatch he), (fun _ _ he => nomatch he)⟩

theorem dirsApart_orders : DirsApart plainDir {"orders"} := by
  rintro name rfl name' rfl i j h
  exact ⟨rfl, plainDir_injective i j h⟩

/-- A server without other brokers. -/
def freshServer : Observed := Observed.new (ClusterMetadata.new 0 30000 10) 1

/-- Two creations of a topic, the second of which finds it there, with a batch and a fetch. -/
def createTwice : List ServerEvent :=
  [.receive 0 (.createTopic "orders" 1), .receive 1 (.createTopic "orders" 1)] ++
  List.replicate 4 (plainStep 0 []) ++ [plainStep 1 [], plainStep 0 []] ++
  [.receive 2 (.produce "orders" 0 [oneByte 7])] ++ List.replicate 3 (plainStep 2 []) ++
  [.receive 3 (.fetch "orders" 0 0 10), plainStep 3 [], plainStep 3 []]

/-- Two creations that find the name free, a batch after each of them, and a fetch. -/
def createRacing : List ServerEvent :=
  [.receive 0 (.createTopic "orders" 1), .receive 1 (.createTopic "orders" 1),
    plainStep 0 [], plainStep 1 []] ++ List.replicate 4 (plainStep 0 []) ++
  [.receive 2 (.produce "orders" 0 [oneByte 7])] ++ List.replicate 3 (plainStep 2 []) ++
  List.replicate 4 (plainStep 1 []) ++
  [.receive 3 (.produce "orders" 0 [oneByte 8])] ++ List.replicate 3 (plainStep 3 []) ++
  [.receive 4 (.fetch "orders" 0 0 10), plainStep 4 [], plainStep 4 []]

theorem creation_exclusive_twice :
    ∃ tr, trace (Observed.next plainCrates plainDir true) freshServer createTwice = some tr ∧
      EachStep (ExclusiveCreation plainCrates plainDir true) freshServer tr := by
  obtain ⟨tr, htr⟩ := Option.isSome_iff_exists.1 (show (trace
    (Observed.next plainCrates plainDir true) freshServer createTwice).isSome = true by decide +kernel)
  have hrace : ∀ tr ∈ trace (Observed.next plainCrates plainDir true) freshServer createTwice,
      EachStep (fun s e t => NoRace plainCrates plainDir s.state e t.state) freshServer tr := by
    decide +kernel
  have hnames : EachStep (fun _ e _ => CreatesOnly {"orders"} e) freshServer tr := by
    refine eachStep_of_trace htr ?_
    rintro e he - - id name partitions rfl
    simp [createTwice, plainStep] at he
    rcases he with ⟨-, rfl, -⟩ | ⟨-, rfl, -⟩ <;> rfl
  exact ⟨tr, htr, creation_exclusive plainCrates_lawful (ClusterMetadata.new 0 30000 10) 1
    dirsApart_orders (run_of_trace htr) hnames (hrace tr htr)⟩

/-- Both creations succeed, both batches are acknowledged at offset 0, and a fetch has two records
with that offset. -/
theorem racing_creations :
    ∃ tr, trace (Observed.next plainCrates plainDir true) freshServer createRacing = some tr ∧
      ¬ EachStep (ExclusiveCreation plainCrates plainDir true) freshServer tr ∧
      (last freshServer tr).created = ["orders", "orders"] ∧
      (last freshServer tr).acked.map (fun a => (a.topic, a.partition, a.base, a.messages)) =
        [("orders", 0, 0, [oneByte 7]), ("orders", 0, 0, [oneByte 8])] := by
  obtain ⟨tr, htr⟩ := Option.isSome_iff_exists.1 (show (trace
    (Observed.next plainCrates plainDir true) freshServer createRacing).isSome = true by
      decide +kernel)
  have hlast : ∀ tr ∈ trace (Observed.next plainCrates plainDir true) freshServer createRacing,
      (last freshServer tr).created = ["orders", "orders"] ∧
      (last freshServer tr).acked.map (fun a => (a.topic, a.partition, a.base, a.messages)) =
        [("orders", 0, 0, [oneByte 7]), ("orders", 0, 0, [oneByte 8])] := by decide +kernel
  obtain ⟨hcreated, hacked⟩ := hlast tr htr
  refine ⟨tr, htr, fun h => ?_, hcreated, hacked⟩
  have hnodup : Throughout (fun s => s.created.Nodup) freshServer tr :=
    throughout_iff_eachStep.2 ⟨List.nodup_nil, h.mono fun _ _ _ hstep => hstep.created⟩
  have hend := hnodup.at_last
  rw [hcreated] at hend
  revert hend
  decide

end Gaffa
