import Gaffa.Broker.Server

/-!
# What a step of a task does

The branches of `Task.advance`, once for all invariants.

* `advance_step`: every step of a task is one of them.
* `serverNext_step`: what an event of a task does to the server and to the tasks.
-/

set_option autoImplicit false

namespace Gaffa

variable {K : Crates} {dirOf : String → Nat → Path} {overflowChecks : Bool}

/-! ## Topics and partitions -/

theorem getTopic_ok {tm : TopicManager} {name : String} {handle : Topic}
    (h : tm.getTopic name = .ok handle) : tm.topics.get name = some handle := by
  unfold TopicManager.getTopic at h
  split at h
  · rename_i u hu
    cases h
    exact hu
  · cases h

theorem getTopic_error {tm : TopicManager} {name : String} {e : GaffaError}
    (h : tm.getTopic name = .error e) : tm.topics.get name = none := by
  unfold TopicManager.getTopic at h
  split at h
  · cases h
  · assumption

theorem getPartition_ok {handle : Topic} {partition ref : Nat}
    (h : handle.getPartition partition = .ok ref) : handle.partitions[partition]? = some ref := by
  unfold Topic.getPartition at h
  split at h
  · rename_i r hr
    cases h
    exact hr
  · cases h

theorem createPartition_topics (io : CreateIo) (path : Path) (name : String) (partitionId : Nat)
    (tm : TopicManager) : (tm.createPartition io path name partitionId).2.topics = tm.topics := by
  cases io <;> rfl

theorem createPartition_ok {io : CreateIo} {path : Path} {name : String} {partitionId ref : Nat}
    {tm tm' : TopicManager} (h : tm.createPartition io path name partitionId = (.ok ref, tm')) :
    ref = tm.nextObject ∧ tm' = (tm.createPartition .done path name partitionId).2 := by
  cases io with
  | done =>
    obtain ⟨href, htm⟩ := Prod.mk.inj h
    cases href
    exact ⟨rfl, htm.symm⟩
  | logFails e => cases h
  | indexFails e => cases h

/-! ## Steps -/

/-- The branches of `Task.advance`: the task, its progress, and the server after it. -/
inductive TaskStep (K : Crates) (dirOf : String → Nat → Path) (overflowChecks : Bool) (io : StepIo)
    (srv : Server) : Task → Progress → Server → Prop where
  | exists_ (name : String) (partitions : Nat) (e : String)
      (h : srv.topicManager.contains name = true) :
      TaskStep K dirOf overflowChecks io srv (.checkTopic name partitions)
        (.ends (some (.createTopicError e))) srv
  | free (name : String) (partitions : Nat) (h : srv.topicManager.topics.get name = none) :
      TaskStep K dirOf overflowChecks io srv (.checkTopic name partitions)
        (.waits (.createPartitions name partitions [])) srv
  | notMade (name : String) (partitions : Nat) (made : List Nat) (e : GaffaError)
      (tm : TopicManager) (hlt : made.length < partitions)
      (h : srv.topicManager.createPartition io.create (dirOf name made.length) name made.length =
        (.error e, tm)) :
      TaskStep K dirOf overflowChecks io srv (.createPartitions name partitions made)
        (.ends (some (.createTopicError e.display))) { srv with topicManager := tm }
  | made (name : String) (partitions : Nat) (made : List Nat) (hlt : made.length < partitions) :
      TaskStep K dirOf overflowChecks io srv (.createPartitions name partitions made)
        (.waits (.createPartitions name partitions (made ++ [srv.topicManager.nextObject])))
        { srv with topicManager := (srv.topicManager.createPartition .done
          (dirOf name made.length) name made.length).2 }
  | inserted (name : String) (partitions : Nat) (made : List Nat) (hle : partitions ≤ made.length) :
      TaskStep K dirOf overflowChecks io srv (.createPartitions name partitions made)
        (.waits (.assignReplicas name partitions 0))
        { srv with topicManager := srv.topicManager.insertTopic ⟨name, made⟩ }
  | notAssigned (name : String) (partitions next : Nat) (hlt : next < partitions) (e : Fault)
      (h : srv.cluster.assignPartitionReplicas io.now io.order srv.replicationFactor next =
        .error e) :
      TaskStep K dirOf overflowChecks io srv (.assignReplicas name partitions next) (.ends none) srv
  | assigned (name : String) (partitions next : Nat) (hlt : next < partitions) (leader : BrokerId)
      (replicas : List BrokerId)
      (h : srv.cluster.assignPartitionReplicas io.now io.order srv.replicationFactor next =
        .ok (leader, replicas)) :
      TaskStep K dirOf overflowChecks io srv (.assignReplicas name partitions next)
        (.waits (.assignReplicas name partitions (next + 1)))
        { srv with cluster := srv.cluster.setPartitionReplicas name next leader replicas }
  | created (name : String) (partitions next : Nat) (hle : partitions ≤ next) :
      TaskStep K dirOf overflowChecks io srv (.assignReplicas name partitions next)
        (.ends (some (.createTopicSuccess name partitions))) srv
  | notFound (topic : String) (partition : Nat) (messages : List Message) (e : GaffaError)
      (h : srv.topicManager.topics.get topic = none) :
      TaskStep K dirOf overflowChecks io srv (.findTopic topic partition messages)
        (.ends (some (.produceError e.display))) srv
  | found (topic : String) (partition : Nat) (messages : List Message) (handle : Topic)
      (h : srv.topicManager.topics.get topic = some handle) :
      TaskStep K dirOf overflowChecks io srv (.findTopic topic partition messages)
        (.waits (.append handle topic partition messages)) srv
  | noPartition (handle : Topic) (topic : String) (partition : Nat) (messages : List Message)
      (response : Option Response)
      (hnone : ∀ ref, handle.partitions[partition]? = some ref →
        srv.topicManager.objects.get ref = none)
      (h : response = none ∨ ∃ e, response = some (.produceError e)) :
      TaskStep K dirOf overflowChecks io srv (.append handle topic partition messages)
        (.ends response) srv
  | notAppended (handle : Topic) (topic : String) (partition : Nat) (messages : List Message)
      (response : Option Response) (ref : Nat) (o : PartitionObject)
      (hpart : handle.partitions[partition]? = some ref)
      (hget : srv.topicManager.objects.get ref = some o)
      (happ : ∀ n, (srv.topicManager.appendTo K io.append messages ref o).1 ≠ .ok n)
      (h : response = none ∨ ∃ e, response = some (.produceError e)) :
      TaskStep K dirOf overflowChecks io srv (.append handle topic partition messages)
        (.ends response)
        { srv with topicManager := (srv.topicManager.appendTo K io.append messages ref o).2 }
  | appended (handle : Topic) (topic : String) (partition : Nat) (messages : List Message)
      (ref : Nat) (o : PartitionObject) (base : Nat)
      (hpart : handle.partitions[partition]? = some ref)
      (hget : srv.topicManager.objects.get ref = some o)
      (happ : (srv.topicManager.appendTo K io.append messages ref o).1 = .ok base) :
      TaskStep K dirOf overflowChecks io srv (.append handle topic partition messages)
        (.waits (.updateLeader topic partition base (messages.length % 2 ^ 32)))
        { srv with topicManager := (srv.topicManager.appendTo K io.append messages ref o).2 }
  | overflowed (topic : String) (partition base count : Nat) (e : Fault)
      (h : addWith overflowChecks 64 base count = .error e) :
      TaskStep K dirOf overflowChecks io srv (.updateLeader topic partition base count)
        (.ends none) srv
  | updated (topic : String) (partition base count finalOffset : Nat) (response : Option Response)
      (h : addWith overflowChecks 64 base count = .ok finalOffset)
      (hresponse : response = none ∨
        response = some (.produceSuccess topic partition base count)) :
      TaskStep K dirOf overflowChecks io srv (.updateLeader topic partition base count)
        (.ends response) { srv with
          cluster := (srv.cluster.updateLeaderOffset overflowChecks topic partition finalOffset).2 }
  | notFetched (topic : String) (partition offset maxMessages : Nat) (e : GaffaError)
      (h : srv.topicManager.topics.get topic = none) :
      TaskStep K dirOf overflowChecks io srv (.findFetched topic partition offset maxMessages)
        (.ends (some (.fetchError e.display))) srv
  | fetching (topic : String) (partition offset maxMessages : Nat) (handle : Topic)
      (h : srv.topicManager.topics.get topic = some handle) :
      TaskStep K dirOf overflowChecks io srv (.findFetched topic partition offset maxMessages)
        (.waits (.fetch handle topic partition offset maxMessages)) srv
  | fetched (handle : Topic) (topic : String) (partition offset maxMessages : Nat) :
      TaskStep K dirOf overflowChecks io srv (.fetch handle topic partition offset maxMessages)
        (.ends (Task.read K handle topic partition offset maxMessages srv)) srv

/-- **What a step of a task does.** -/
theorem advance_step (io : StepIo) (srv : Server) (task : Task) :
    TaskStep K dirOf overflowChecks io srv task (task.advance K dirOf overflowChecks io srv).1
      (task.advance K dirOf overflowChecks io srv).2 := by
  cases task with
  | checkTopic name partitions =>
    simp only [Task.advance]
    split
    · rename_i h
      exact .exists_ name partitions _ h
    · rename_i h
      refine .free name partitions ?_
      unfold TopicManager.contains at h
      simpa using h
  | createPartitions name partitions made =>
    simp only [Task.advance, Task.create]
    split
    · rename_i hlt
      split
      · rename_i e tm h
        exact .notMade name partitions made e tm hlt h
      · rename_i ref tm h
        obtain ⟨rfl, rfl⟩ := createPartition_ok h
        exact .made name partitions made hlt
    · rename_i hlt
      exact .inserted name partitions made (Nat.le_of_not_lt hlt)
  | assignReplicas name partitions next =>
    simp only [Task.advance, Task.assign]
    split
    · rename_i hlt
      split
      · rename_i e h
        exact .notAssigned name partitions next hlt e h
      · rename_i leader replicas h
        exact .assigned name partitions next hlt leader replicas h
    · rename_i hlt
      exact .created name partitions next (Nat.le_of_not_lt hlt)
  | findTopic topic partition messages =>
    simp only [Task.advance]
    split
    · rename_i e h
      exact .notFound topic partition messages e (getTopic_error h)
    · rename_i handle h
      exact .found topic partition messages handle (getTopic_ok h)
  | append handle topic partition messages =>
    simp only [Task.advance, Task.appendBatch]
    split
    · rename_i e hpart
      refine .noPartition handle topic partition messages _ ?_ (Or.inr ⟨_, rfl⟩)
      intro ref href
      unfold Topic.getPartition at hpart
      rw [href] at hpart
      cases hpart
    · rename_i ref hpart
      split
      · rename_i hget
        refine .noPartition handle topic partition messages _ ?_ (Or.inl rfl)
        intro ref' href'
        rw [getPartition_ok hpart] at href'
        cases href'
        exact hget
      · rename_i o hget
        simp only
        split
        · rename_i base happ
          exact .appended handle topic partition messages ref o base (getPartition_ok hpart) hget
            happ
        · rename_i e happ
          refine .notAppended handle topic partition messages _ ref o (getPartition_ok hpart) hget
            ?_ (Or.inr ⟨_, rfl⟩)
          intro n hn
          rw [hn] at happ
          cases happ
        · rename_i message happ
          refine .notAppended handle topic partition messages _ ref o (getPartition_ok hpart) hget
            ?_ (Or.inl rfl)
          intro n hn
          rw [hn] at happ
          cases happ
  | updateLeader topic partition base count =>
    simp only [Task.advance, Task.update]
    split
    · rename_i e h
      exact .overflowed topic partition base count e h
    · rename_i finalOffset h
      simp only
      split
      · exact .updated topic partition base count finalOffset _ h (Or.inr rfl)
      · exact .updated topic partition base count finalOffset _ h (Or.inl rfl)
  | findFetched topic partition offset maxMessages =>
    simp only [Task.advance]
    split
    · rename_i e h
      exact .notFetched topic partition offset maxMessages e (getTopic_error h)
    · rename_i handle h
      exact .fetching topic partition offset maxMessages handle (getTopic_ok h)
  | fetch handle topic partition offset maxMessages =>
    exact .fetched handle topic partition offset maxMessages

section Step

variable {io : StepIo} {srv srv' : Server} {task : Task} {progress : Progress}

/-- A new topic is the one that the stepping task inserts. -/
theorem TaskStep.topics (hstep : TaskStep K dirOf overflowChecks io srv task progress srv')
    {name : String} {handle : Topic} (hget : srv'.topicManager.topics.get name = some handle) :
    srv.topicManager.topics.get name = some handle ∨
      ∃ partitions made, task = .createPartitions name partitions made ∧
        progress = .waits (.assignReplicas name partitions 0) ∧ partitions ≤ made.length ∧
        handle = ⟨name, made⟩ := by
  cases hstep with
  | notMade name' partitions made e tm hlt hfail =>
    have := createPartition_topics io.create (dirOf name' made.length) name' made.length
      srv.topicManager
    rw [hfail] at this
    simp only at hget
    rw [this] at hget
    exact Or.inl hget
  | inserted name' partitions made hle =>
    simp only [TopicManager.insertTopic] at hget
    rcases Table.get_insert_cases hget with ⟨rfl, rfl⟩ | ⟨-, hget⟩
    · exact Or.inr ⟨partitions, made, rfl, rfl, hle, rfl⟩
    · exact Or.inl hget
  | _ => exact Or.inl hget

end Step

/-- What a fetch that has got to its topic answers. -/
theorem read_cases (K : Crates) (handle : Topic) (topic : String)
    (partition offset maxMessages : Nat) (srv : Server) :
    Task.read K handle topic partition offset maxMessages srv = none ∨
      (∃ e, Task.read K handle topic partition offset maxMessages srv = some (.fetchError e)) ∨
      ∃ ref o records, handle.partitions[partition]? = some ref ∧
        srv.topicManager.objects.get ref = some o ∧
        srv.topicManager.fetchFrom K offset maxMessages o = .ok records ∧
        Task.read K handle topic partition offset maxMessages srv =
          some (.fetchSuccess topic partition records) := by
  unfold Task.read
  split
  · exact Or.inr (Or.inl ⟨_, rfl⟩)
  · rename_i ref hpart
    split
    · exact Or.inl rfl
    · rename_i o hget
      unfold respond
      split
      · rename_i records hfetch
        exact Or.inr (Or.inr ⟨ref, o, records, getPartition_ok hpart, hget, hfetch, rfl⟩)
      · exact Or.inr (Or.inl ⟨_, rfl⟩)
      · exact Or.inl rfl

/-- The task of an id after a step of a task. -/
theorem get_settle {tasks : Table Nat Task} {id k : Nat} {progress : Progress} {task : Task}
    (h : (settle id progress tasks).get k = some task) :
    (k = id ∧ progress = .waits task) ∨ (k ≠ id ∧ tasks.get k = some task) := by
  unfold settle at h
  split at h
  · rcases Table.get_insert_cases h with ⟨rfl, rfl⟩ | ⟨hne, h⟩
    · exact Or.inl ⟨rfl, rfl⟩
    · exact Or.inr ⟨hne, h⟩
  · exact Or.inr (Table.get_remove_cases h)

/-- **What an event of a task does.** -/
theorem serverNext_step {s t : ServerState} {id : Nat} {io : StepIo}
    (h : serverNext K dirOf overflowChecks s (.advance id io) = some t) :
    ∃ task progress, s.tasks.get id = some task ∧ s.server.cluster.brokers.Order io.order ∧
      TaskStep K dirOf overflowChecks io s.server task progress t.server ∧
      t.tasks = settle id progress s.tasks := by
  obtain ⟨task, htask, horder, hserver, htasks⟩ := serverNext_advance h
  refine ⟨task, _, htask, horder, ?_, htasks⟩
  rw [hserver]
  exact advance_step io s.server task

end Gaffa
