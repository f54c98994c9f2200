import Gaffa.Broker.Visibility

/-!
# One creation at a time

`create_topic` checks that the name is free, creates the files and inserts the topic, and holds no
lock from the check to the insert.  Runs in which no `CreateTopic` passes its check between the check and
the insert of another one for the same name keep topics as they are once they are inserted.

* `Exclusive.next`: every name has at most one creator, and a topic that exists is never replaced.
-/

set_option autoImplicit false

namespace Gaffa

open Transition

variable {K : Crates} {dirOf : String → Nat → Path} {overflowChecks : Bool}

/-! ## One creation at a time -/

/-- No `CreateTopic` passes its check while another one for the name is between the check and the
insert. -/
def Alone (s : ServerState) (e : ServerEvent) (_ : ServerState) : Prop :=
  ∀ id io, e = .advance id io → ∀ name partitions,
    s.tasks.get id = some (.checkTopic name partitions) →
    s.server.topicManager.topics.get name = none → ∀ id' partitions' made,
      s.tasks.get id' ≠ some (.createPartitions name partitions' made)

/-- Every name has at most one creator, whose topic is not there yet; topics in use are those that
are there. -/
structure Exclusive (s : ServerState) : Prop where
  creator : ∀ id id' name n n' made made',
    s.tasks.get id = some (.createPartitions name n made) →
    s.tasks.get id' = some (.createPartitions name n' made') → id = id'
  absent : ∀ id name n made, s.tasks.get id = some (.createPartitions name n made) →
    s.server.topicManager.topics.get name = none ∧ made.length ≤ n
  assigner : ∀ id id' name n n' next next', s.tasks.get id = some (.assignReplicas name n next) →
    s.tasks.get id' = some (.assignReplicas name n' next') → id = id'
  assigned : ∀ id name n next, s.tasks.get id = some (.assignReplicas name n next) →
    ∃ handle, s.server.topicManager.topics.get name = some handle ∧ handle.partitions.length = n
  appending : ∀ id handle topic partition messages,
    s.tasks.get id = some (.append handle topic partition messages) →
    s.server.topicManager.topics.get topic = some handle
  fetching : ∀ id handle topic partition offset maxMessages,
    s.tasks.get id = some (.fetch handle topic partition offset maxMessages) →
    s.server.topicManager.topics.get topic = some handle

section Step

variable {s t : ServerState} {id : Nat} {io : StepIo} {task : Task} {progress : Progress}

/-- A topic that exists stays. -/
theorem Exclusive.topics (h : Exclusive s) (htask : s.tasks.get id = some task)
    (hstep : TaskStep K dirOf overflowChecks io s.server task progress t.server) {name : String}
    {handle : Topic} (hget : s.server.topicManager.topics.get name = some handle) :
    t.server.topicManager.topics.get name = some handle := by
  generalize hsrv : t.server = srv at hstep
  cases hstep with
  | notMade name' partitions made e tm hlt hfail =>
    have := createPartition_topics io.create (dirOf name' made.length) name' made.length
      s.server.topicManager
    rw [hfail] at this
    simp only
    rw [this]
    exact hget
  | inserted name' partitions made hle =>
    have habsent := (h.absent id name' partitions made htask).1
    simp only [TopicManager.insertTopic, Table.get_insert]
    split
    · rename_i hname
      rw [hname, habsent] at hget
      cases hget
    · exact hget
  | _ => exact hget

theorem TaskStep.creates {srv : Server} {name : String} {n : Nat} {made : List Nat}
    (hstep : TaskStep K dirOf overflowChecks io s.server task
      (.waits (.createPartitions name n made)) srv) :
    (task = .checkTopic name n ∧ made = [] ∧ s.server.topicManager.topics.get name = none) ∨
      ∃ made₀, task = .createPartitions name n made₀ ∧ made₀.length < n ∧
        made = made₀ ++ [s.server.topicManager.nextObject] := by
  cases hstep with
  | free name' partitions hfree => exact Or.inl ⟨rfl, rfl, hfree⟩
  | made name' partitions made₀ hlt => exact Or.inr ⟨made₀, rfl, hlt, rfl⟩

theorem TaskStep.assigns {srv : Server} {name : String} {n next : Nat}
    (hstep : TaskStep K dirOf overflowChecks io s.server task
      (.waits (.assignReplicas name n next)) srv) :
    (∃ made, task = .createPartitions name n made ∧ n ≤ made.length ∧
        srv.topicManager.topics.get name = some ⟨name, made⟩) ∨
      ∃ next', task = .assignReplicas name n next' := by
  cases hstep with
  | inserted name' partitions made hle =>
    exact Or.inl ⟨made, rfl, hle, Table.get_insert_self ..⟩
  | assigned name' partitions next' hlt leader replicas hok => exact Or.inr ⟨next', rfl⟩

theorem TaskStep.appends {srv : Server} {handle : Topic} {topic : String} {partition : Nat}
    {messages : List Message}
    (hstep : TaskStep K dirOf overflowChecks io s.server task
      (.waits (.append handle topic partition messages)) srv) :
    s.server.topicManager.topics.get topic = some handle ∧
      task = .findTopic topic partition messages := by
  cases hstep with
  | found topic' partition' messages' handle' hget => exact ⟨hget, rfl⟩

theorem TaskStep.fetches {srv : Server} {handle : Topic} {topic : String}
    {partition offset maxMessages : Nat}
    (hstep : TaskStep K dirOf overflowChecks io s.server task
      (.waits (.fetch handle topic partition offset maxMessages)) srv) :
    s.server.topicManager.topics.get topic = some handle := by
  cases hstep with
  | fetching topic' partition' offset' maxMessages' handle' hget => exact hget

/-- **A step of a task** keeps creators alone. -/
theorem Exclusive.advance (h : Exclusive s) (htask : s.tasks.get id = some task)
    (hstep : TaskStep K dirOf overflowChecks io s.server task progress t.server)
    (htasks : t.tasks = settle id progress s.tasks)
    (halone : ∀ name partitions, task = .checkTopic name partitions →
      s.server.topicManager.topics.get name = none → ∀ id' partitions' made,
        s.tasks.get id' ≠ some (.createPartitions name partitions' made)) : Exclusive t := by
  -- the stepping task creates the topic, so no other one did
  have hcreator : ∀ k name n n' made made', k ≠ id →
      progress = .waits (.createPartitions name n made) →
      s.tasks.get k ≠ some (.createPartitions name n' made') := by
    rintro k name n n' made made' hk rfl hother
    rcases hstep.creates with ⟨rfl, -, hfree⟩ | ⟨made₀, rfl, -, -⟩
    · exact halone name n rfl hfree k n' made' hother
    · exact hk (h.creator k id name n' n made' made₀ hother htask)
  have hassigner : ∀ k name n n' next next', k ≠ id →
      progress = .waits (.assignReplicas name n next) →
      s.tasks.get k ≠ some (.assignReplicas name n' next') := by
    rintro k name n n' next next' hk rfl hother
    rcases hstep.assigns with ⟨made, rfl, -, -⟩ | ⟨next₀, rfl⟩
    · obtain ⟨handle, hhandle, -⟩ := h.assigned k name n' next' hother
      rw [(h.absent id name n made htask).1] at hhandle
      cases hhandle
    · exact hk (h.assigner k id name n' n next' next₀ hother htask)
  constructor
  · intro k k' name n n' made made' hk hk'
    rw [htasks] at hk hk'
    rcases get_settle hk with ⟨rfl, hp⟩ | ⟨hne, hold⟩ <;>
      rcases get_settle hk' with ⟨rfl, hp'⟩ | ⟨hne', hold'⟩
    · rfl
    · exact absurd hold' (hcreator k' name n n' made made' hne' hp)
    · exact absurd hold (hcreator k name n' n made' made hne hp')
    · exact h.creator k k' name n n' made made' hold hold'
  · intro k name n made hk
    rw [htasks] at hk
    have hnone : s.server.topicManager.topics.get name = none ∧ made.length ≤ n := by
      rcases get_settle hk with ⟨rfl, rfl⟩ | ⟨-, hk⟩
      · rcases hstep.creates with ⟨-, rfl, hfree⟩ | ⟨made₀, rfl, hlt, rfl⟩
        · exact ⟨hfree, Nat.zero_le n⟩
        · refine ⟨(h.absent k name n made₀ htask).1, ?_⟩
          rw [List.length_append, List.length_singleton]
          omega
      · exact h.absent k name n made hk
    refine ⟨?_, hnone.2⟩
    rw [Option.eq_none_iff_forall_ne_some]
    intro handle hget
    rcases hstep.topics hget with hold | ⟨n', made', rfl, rfl, -, -⟩
    · rw [hnone.1] at hold
      cases hold
    · rcases get_settle hk with ⟨-, hp⟩ | ⟨hne, hk⟩
      · cases hp
      · exact hne (h.creator k id name n n' made made' hk htask)
  · intro k k' name n n' next next' hk hk'
    rw [htasks] at hk hk'
    rcases get_settle hk with ⟨rfl, hp⟩ | ⟨hne, hold⟩ <;>
      rcases get_settle hk' with ⟨rfl, hp'⟩ | ⟨hne', hold'⟩
    · rfl
    · exact absurd hold' (hassigner k' name n n' next next' hne' hp)
    · exact absurd hold (hassigner k name n' n next' next hne hp')
    · exact h.assigner k k' name n n' next next' hold hold'
  · intro k name n next hk
    rw [htasks] at hk
    rcases get_settle hk with ⟨rfl, rfl⟩ | ⟨-, hk⟩
    · rcases hstep.assigns with ⟨made, rfl, hle, hget⟩ | ⟨next', rfl⟩
      · exact ⟨_, hget, Nat.le_antisymm (h.absent k name n made htask).2 hle⟩
      · obtain ⟨handle, hget, hlen⟩ := h.assigned k name n next' htask
        exact ⟨handle, h.topics htask hstep hget, hlen⟩
    · obtain ⟨handle, hget, hlen⟩ := h.assigned k name n next hk
      exact ⟨handle, h.topics htask hstep hget, hlen⟩
  · intro k handle topic partition messages hk
    rw [htasks] at hk
    rcases get_settle hk with ⟨rfl, rfl⟩ | ⟨-, hk⟩
    · exact h.topics htask hstep hstep.appends.1
    · exact h.topics htask hstep (h.appending k handle topic partition messages hk)
  · intro k handle topic partition offset maxMessages hk
    rw [htasks] at hk
    rcases get_settle hk with ⟨rfl, rfl⟩ | ⟨-, hk⟩
    · exact h.topics htask hstep hstep.fetches
    · exact h.topics htask hstep (h.fetching k handle topic partition offset maxMessages hk)

/-- A request begins with a step that has no part in a creation. -/
theorem start_cases {request : Request} (h : start request = some task) :
    (∃ name partitions, request = .createTopic name partitions ∧
        task = .checkTopic name partitions) ∨
      (∃ topic partition messages, request = .produce topic partition messages ∧
        task = .findTopic topic partition messages) ∨
      ∃ topic partition offset maxMessages, request = .fetch topic partition offset maxMessages ∧
        task = .findFetched topic partition offset maxMessages := by
  cases request with
  | createTopic name partitions =>
    cases h
    exact Or.inl ⟨name, partitions, rfl, rfl⟩
  | produce topic partition messages =>
    cases h
    exact Or.inr (Or.inl ⟨topic, partition, messages, rfl, rfl⟩)
  | fetch topic partition offset maxMessages =>
    cases h
    exact Or.inr (Or.inr ⟨topic, partition, offset, maxMessages, rfl, rfl⟩)
  | _ => cases h

/-- The first step of a request. -/
def Task.initial : Task → Bool
  | .checkTopic _ _ => true
  | .findTopic _ _ _ => true
  | .findFetched _ _ _ _ => true
  | _ => false

theorem get_received {tasks : Table Nat Task} {request : Request} (hnone : tasks.get id = none)
    (hstart : start request = some task) {k : Nat} {task' : Task} (hnot : task'.initial = false) :
    (tasks.insert id task).get k = some task' ↔ tasks.get k = some task' := by
  constructor
  · intro hk
    rcases Table.get_insert_cases hk with ⟨-, rfl⟩ | ⟨-, hk⟩
    · rcases start_cases hstart with ⟨name, n, -, rfl⟩ | ⟨topic, p, ms, -, rfl⟩ |
        ⟨topic, p, o, m, -, rfl⟩ <;> cases hnot
    · exact hk
  · intro hk
    rw [Table.get_insert_ne _ (fun heq => by rw [heq, hnone] at hk; cases hk)]
    exact hk

theorem Exclusive.receive (h : Exclusive s) {request : Request} (hnone : s.tasks.get id = none)
    (hstart : start request = some task) :
    Exclusive { s with tasks := s.tasks.insert id task } := by
  have hget : ∀ {k task'}, task'.initial = false →
      (s.tasks.insert id task).get k = some task' → s.tasks.get k = some task' :=
    fun hnot => (get_received hnone hstart hnot).1
  constructor
  · intro k k' name n n' made made' hk hk'
    exact h.creator k k' name n n' made made' (hget rfl hk) (hget rfl hk')
  · intro k name n made hk
    exact h.absent k name n made (hget rfl hk)
  · intro k k' name n n' next next' hk hk'
    exact h.assigner k k' name n n' next next' (hget rfl hk) (hget rfl hk')
  · intro k name n next hk
    exact h.assigned k name n next (hget rfl hk)
  · intro k handle topic partition messages hk
    exact h.appending k handle topic partition messages (hget rfl hk)
  · intro k handle topic partition offset maxMessages hk
    exact h.fetching k handle topic partition offset maxMessages (hget rfl hk)

/-- **Every event** keeps creators alone. -/
theorem Exclusive.next {e : ServerEvent} (h : Exclusive s)
    (hstep : serverNext K dirOf overflowChecks s e = some t) (halone : Alone s e t) :
    Exclusive t := by
  cases e with
  | receive id request =>
    obtain ⟨task, hnone, -, hstart, rfl⟩ := serverNext_receive hstep
    exact h.receive hnone hstart
  | advance id io =>
    obtain ⟨task, progress, htask, -, hadvance, htasks⟩ := serverNext_step hstep
    refine h.advance htask hadvance htasks ?_
    rintro name partitions rfl hfree
    exact halone id io rfl name partitions htask hfree
  | registerBroker now brokerId host port =>
    cases hstep
    exact ⟨h.creator, h.absent, h.assigner, h.assigned, h.appending, h.fetching⟩
  | updateReplicaOffset topic partition brokerId offset =>
    cases hstep
    exact ⟨h.creator, h.absent, h.assigner, h.assigned, h.appending, h.fetching⟩

end Step

theorem exclusive_new (cluster : ClusterMetadata) (replicationFactor : Nat) :
    Exclusive (ServerState.new cluster replicationFactor) := by
  constructor
  · intro id id' name n n' made made' h
    cases h
  · intro id name n made h
    cases h
  · intro id id' name n n' next next' h
    cases h
  · intro id name n next h
    cases h
  · intro id handle topic partition messages h
    cases h
  · intro id handle topic partition offset maxMessages h
    cases h

/-! ## Partitions and their topics -/

/-- The partition with this number is the one that the topic has under the key, or will have. -/
def Owns (s : ServerState) (key : PartitionKey) (ref : Nat) : Prop :=
  (∃ handle, s.server.topicManager.topics.get key.1 = some handle ∧
    handle.partitions[key.2]? = some ref) ∨
  ∃ id n made, s.tasks.get id = some (.createPartitions key.1 n made) ∧ made[key.2]? = some ref

/-- No two topics share a partition, and numbers are not used again. -/
structure Owned (s : ServerState) : Prop where
  apart : ∀ key key' ref, Owns s key ref → Owns s key' ref → key = key'
  old : ∀ key ref, Owns s key ref → ref < s.server.topicManager.nextObject
  made : ∀ key ref, Owns s key ref → ∃ o, s.server.topicManager.objects.get ref = some o

section Owners

variable {s t : ServerState} {id : Nat} {io : StepIo} {task : Task} {progress : Progress}
  {key : PartitionKey} {ref : Nat}

theorem TaskStep.nextObject_le {srv : Server}
    (hstep : TaskStep K dirOf overflowChecks io s.server task progress srv) :
    s.server.topicManager.nextObject ≤ srv.topicManager.nextObject := by
  cases hstep with
  | notMade name partitions made e tm hlt hfail =>
    unfold TopicManager.createPartition at hfail
    split at hfail <;> cases hfail <;> exact Nat.le_refl _
  | made name partitions made hlt => exact Nat.le_succ _
  | _ => exact Nat.le_refl _

/-- **A step gives a partition to a topic** only when it makes it. -/
theorem owns_of_advance (htask : s.tasks.get id = some task)
    (hstep : TaskStep K dirOf overflowChecks io s.server task progress t.server)
    (htasks : t.tasks = settle id progress s.tasks) (h : Owns t key ref) :
    Owns s key ref ∨ (ref = s.server.topicManager.nextObject ∧ ∃ n made,
      task = .createPartitions key.1 n made ∧ made.length = key.2 ∧
      t.server = { s.server with topicManager := (s.server.topicManager.createPartition .done
        (dirOf key.1 made.length) key.1 made.length).2 }) := by
  rcases h with ⟨handle, hget, hpart⟩ | ⟨k, n, made, hk, hpart⟩
  · rcases hstep.topics hget with hold | ⟨n, made, rfl, -, -, rfl⟩
    · exact Or.inl (Or.inl ⟨handle, hold, hpart⟩)
    · exact Or.inl (Or.inr ⟨id, n, made, htask, hpart⟩)
  · rw [htasks] at hk
    rcases get_settle hk with ⟨rfl, rfl⟩ | ⟨-, hk⟩
    · generalize hsrv : t.server = srv at hstep
      cases hstep with
      | free name partitions hfree => cases hpart
      | made name partitions made₀ hlt =>
        rcases Nat.lt_trichotomy key.2 made₀.length with hlo | heq | hhi
        · rw [List.getElem?_append_left hlo] at hpart
          exact Or.inl (Or.inr ⟨k, n, made₀, htask, hpart⟩)
        · rw [heq, List.getElem?_concat_length] at hpart
          cases hpart
          exact Or.inr ⟨rfl, n, made₀, rfl, heq.symm, rfl⟩
        · rw [List.getElem?_eq_none] at hpart
          · cases hpart
          · rw [List.length_append, List.length_singleton]
            omega
    · exact Or.inl (Or.inr ⟨k, n, made, hk, hpart⟩)

/-- **A step changes a partition** only when it appends to it. -/
theorem TaskStep.objects {srv : Server}
    (hstep : TaskStep K dirOf overflowChecks io s.server task progress srv)
    (hold : ref < s.server.topicManager.nextObject) :
    srv.topicManager.objects.get ref = s.server.topicManager.objects.get ref ∨
      ∃ handle topic partition messages o, task = .append handle topic partition messages ∧
        handle.partitions[partition]? = some ref ∧
        s.server.topicManager.objects.get ref = some o ∧
        srv.topicManager = (s.server.topicManager.appendTo K io.append messages ref o).2 := by
  cases hstep with
  | notMade name partitions made e tm hlt hfail =>
    unfold TopicManager.createPartition at hfail
    split at hfail <;> cases hfail <;> exact Or.inl rfl
  | made name partitions made hlt => exact Or.inl (Table.get_insert_ne _ (Nat.ne_of_lt hold))
  | notAppended handle topic partition messages response ref' o hpart hget hfail hresponse =>
    by_cases href : ref = ref'
    · subst href
      exact Or.inr ⟨handle, topic, partition, messages, o, rfl, hpart, hget, rfl⟩
    · exact Or.inl (Table.get_insert_ne _ href)
  | appended handle topic partition messages ref' o base hpart hget happ =>
    by_cases href : ref = ref'
    · subst href
      exact Or.inr ⟨handle, topic, partition, messages, o, rfl, hpart, hget, rfl⟩
    · exact Or.inl (Table.get_insert_ne _ href)
  | _ => exact Or.inl rfl

theorem Owned.advance (h : Owned s) (htask : s.tasks.get id = some task)
    (hstep : TaskStep K dirOf overflowChecks io s.server task progress t.server)
    (htasks : t.tasks = settle id progress s.tasks) : Owned t := by
  constructor
  · intro key key' ref hkey hkey'
    rcases owns_of_advance htask hstep htasks hkey with hold | ⟨hnew, n, made, rfl, hlen, -⟩ <;>
      rcases owns_of_advance htask hstep htasks hkey' with
        hold' | ⟨hnew', n', made', htask', hlen', -⟩
    · exact h.apart key key' ref hold hold'
    · have := h.old key ref hold
      omega
    · have := h.old key' ref hold'
      omega
    · obtain ⟨hname, -, rfl⟩ := Task.createPartitions.inj htask'
      exact Prod.ext hname (hlen.symm.trans hlen')
  · intro key ref hkey
    rcases owns_of_advance htask hstep htasks hkey with hold | ⟨rfl, n, made, -, -, hsrv⟩
    · exact Nat.lt_of_lt_of_le (h.old key ref hold) hstep.nextObject_le
    · rw [hsrv]
      exact Nat.lt_succ_self _
  · intro key ref hkey
    rcases owns_of_advance htask hstep htasks hkey with hold | ⟨rfl, n, made, -, -, hsrv⟩
    · obtain ⟨o, ho⟩ := h.made key ref hold
      rcases hstep.objects (h.old key ref hold) with hsame | ⟨handle, topic, partition, messages, o',
        -, -, -, htm⟩
      · exact ⟨o, hsame.trans ho⟩
      · rw [htm]
        exact ⟨_, Table.get_insert_self ..⟩
    · rw [hsrv]
      exact ⟨_, Table.get_insert_self ..⟩

theorem owns_receive {request : Request} (hnone : s.tasks.get id = none)
    (hstart : start request = some task) :
    Owns { s with tasks := s.tasks.insert id task } key ref ↔ Owns s key ref := by
  unfold Owns
  refine or_congr_right (exists_congr fun k => exists_congr fun n => exists_congr fun made => ?_)
  rw [get_received hnone hstart rfl]

theorem Owned.receive (h : Owned s) {request : Request} (hnone : s.tasks.get id = none)
    (hstart : start request = some task) : Owned { s with tasks := s.tasks.insert id task } := by
  constructor
  · intro key key' ref hkey hkey'
    exact h.apart key key' ref ((owns_receive hnone hstart).1 hkey)
      ((owns_receive hnone hstart).1 hkey')
  · intro key ref hkey
    exact h.old key ref ((owns_receive hnone hstart).1 hkey)
  · intro key ref hkey
    exact h.made key ref ((owns_receive hnone hstart).1 hkey)

end Owners

theorem owned_new (cluster : ClusterMetadata) (replicationFactor : Nat) :
    Owned (ServerState.new cluster replicationFactor) := by
  have hnone : ∀ key ref, ¬ Owns (ServerState.new cluster replicationFactor) key ref := by
    rintro key ref (⟨handle, hget, -⟩ | ⟨id, n, made, hget, -⟩)
    · cases hget
    · cases hget
  exact ⟨fun key _ ref h => absurd h (hnone key ref), fun key ref h => absurd h (hnone key ref),
    fun key ref h => absurd h (hnone key ref)⟩

/-! ## Evaluating the condition -/

/-- The name that the task is about to check. -/
def Task.checks : Task → Option String
  | .checkTopic name _ => some name
  | _ => none

/-- The name of the topic that the task creates. -/
def Task.creates : Task → Option String
  | .createPartitions name _ _ => some name
  | _ => none

theorem checks_eq_some {task : Task} {name : String} :
    task.checks = some name ↔ ∃ partitions, task = .checkTopic name partitions := by
  unfold Task.checks
  split <;> simp_all [eq_comm]

theorem creates_eq_some {task : Task} {name : String} :
    task.creates = some name ↔ ∃ partitions made, task = .createPartitions name partitions made := by
  unfold Task.creates
  split <;> simp_all [eq_comm]

instance decidableAlone (s : ServerState) :
    ∀ (e : ServerEvent) (t : ServerState), Decidable (Alone s e t)
  | .advance id _, _ =>
    decidable_of_iff (∀ task ∈ s.tasks.get id, ∀ name ∈ task.checks,
        s.server.topicManager.topics.get name = none →
        ∀ id' ∈ s.tasks.keys, ∀ task' ∈ s.tasks.get id', task'.creates ≠ some name) (by
      constructor
      · intro h id' io he name partitions htask hfree k partitions' made hk
        cases he
        exact h _ htask name (checks_eq_some.2 ⟨partitions, rfl⟩) hfree k
          (Table.mem_keys_iff.2 ⟨_, hk⟩) _ hk (creates_eq_some.2 ⟨partitions', made, rfl⟩)
      · intro h task htask name hname hfree k _ task' hk hcreates
        obtain ⟨partitions, rfl⟩ := checks_eq_some.1 hname
        obtain ⟨partitions', made, rfl⟩ := creates_eq_some.1 hcreates
        exact h id _ rfl name partitions htask hfree k partitions' made hk)
  | .receive .., _ => isTrue fun _ _ he => nomatch he
  | .registerBroker .., _ => isTrue fun _ _ he => nomatch he
  | .updateReplicaOffset .., _ => isTrue fun _ _ he => nomatch he

end Gaffa
