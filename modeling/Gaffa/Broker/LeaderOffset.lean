import Gaffa.Broker.Creation

/-!
# The leader's offset

A `Produce` appends to the log and then, without a lock over both, stores the end of its batch as the
leader's offset.  So a later batch may be stored before an earlier one, and a batch may be stored
before `CreateTopic` has made the partition's replica state.

* `Chain`: batches that follow one another from the recorded offset to the end of the log.
* `leader_offset_kept`: on runs without these orders the leader's offset never decreases, and once
  all requests have completed it is the next offset of the log.
-/

set_option autoImplicit false

namespace Gaffa

open Transition PartitionReplicaState

variable {K : Crates} {dirOf : String → Nat → Path} {overflowChecks : Bool}

/-! ## Batches in a row -/

/-- The batches (of a task, from an offset, with a count) cover the offsets from `start` to `stop`. -/
def Chain : Nat → List (Nat × Nat × Nat) → Nat → Prop
  | start, [], stop => start = stop
  | start, (_, base, count) :: rest, stop => base = start ∧ 0 < count ∧ Chain (base + count) rest stop

section Chain

variable {start stop id base count : Nat} {pending : List (Nat × Nat × Nat)}

theorem Chain.snoc (h : Chain start pending stop) (id : Nat) (hcount : 0 < count) :
    Chain start (pending ++ [(id, stop, count)]) (stop + count) := by
  induction pending generalizing start with
  | nil =>
    obtain rfl : start = stop := h
    exact ⟨rfl, hcount, rfl⟩
  | cons b pending ih => exact ⟨h.1, h.2.1, ih h.2.2⟩

theorem Chain.le (h : Chain start pending stop) (hmem : (id, base, count) ∈ pending) :
    start ≤ base := by
  induction pending generalizing start with
  | nil => cases hmem
  | cons b pending ih =>
    obtain ⟨hbase, -, hrest⟩ := h
    rcases List.mem_cons.1 hmem with rfl | hmem
    · exact Nat.le_of_eq hbase.symm
    · have := ih hrest hmem
      omega

/-- **The first batch** of a chain is the one with the least base. -/
theorem Chain.first (h : Chain start pending stop) (hmem : (id, base, count) ∈ pending)
    (hleast : ∀ id' base' count', (id', base', count') ∈ pending → base ≤ base') :
    ∃ rest, pending = (id, base, count) :: rest ∧ base = start ∧ Chain (base + count) rest stop := by
  cases pending with
  | nil => cases hmem
  | cons b pending =>
    obtain ⟨id', base', count'⟩ := b
    obtain ⟨rfl, hcount, hrest⟩ := h
    rcases List.mem_cons.1 hmem with heq | hmem
    · cases heq
      exact ⟨pending, rfl, rfl, hrest⟩
    · have h₁ := hleast id' base' count' (List.mem_cons_self ..)
      have h₂ := hrest.le hmem
      omega

end Chain

/-! ## The leader's entry -/

/-- The leader's entry in `replica_offsets`. -/
def leaderEntry (c : ClusterMetadata) (key : PartitionKey) : Option Nat :=
  (c.partitionStates.get key).bind fun state => state.replicaOffsets.get state.leader

/-- The broker leads every partition that has a state, and has an entry in it. -/
def Leads (c : ClusterMetadata) : Prop :=
  ∀ key state, c.partitionStates.get key = some state →
    state.leader = c.brokerId ∧ ∃ offset, state.replicaOffsets.get c.brokerId = some offset

section Entry

variable {c : ClusterMetadata} {key : PartitionKey}

theorem exists_get_insert {κ ν : Type} [DecidableEq κ] (t : Table κ ν) (k k' : κ) (v : ν) :
    (∃ w, (t.insert k v).get k' = some w) ↔ (∃ w, t.get k' = some w) ∨ k' = k := by
  rw [Table.get_insert]
  by_cases hk : k' = k
  · simp [hk]
  · simp [hk]

theorem leaderEntry_insert (key' : PartitionKey) (state : PartitionReplicaState) :
    leaderEntry { c with partitionStates := c.partitionStates.insert key' state } key =
      if key = key' then state.replicaOffsets.get state.leader else leaderEntry c key := by
  unfold leaderEntry
  simp only [Table.get_insert]
  split <;> rfl

theorem Leads.insert (h : Leads c) (key' : PartitionKey) {state : PartitionReplicaState}
    (hleader : state.leader = c.brokerId)
    (hoffset : ∃ offset, state.replicaOffsets.get c.brokerId = some offset) :
    Leads { c with partitionStates := c.partitionStates.insert key' state } := by
  intro key s hget
  rcases Table.get_insert_cases hget with ⟨-, rfl⟩ | ⟨-, hget⟩
  · exact ⟨hleader, hoffset⟩
  · exact h key s hget

theorem updateReplicaOffset_get (overflowChecks : Bool) (s : PartitionReplicaState) (b : BrokerId)
    (offset lag : Nat) :
    (s.updateReplicaOffset overflowChecks b offset lag).2.leader = s.leader ∧
      ∀ b', (s.updateReplicaOffset overflowChecks b offset lag).2.replicaOffsets.get b' =
        if b' = b then some offset else s.replicaOffsets.get b' := by
  rcases updateReplicaOffset_cases overflowChecks b offset lag s with
    ⟨e, -, heq⟩ | ⟨-, heq⟩ | ⟨-, heq⟩
  · rw [heq]
    exact ⟨rfl, record_get s b offset⟩
  · rw [heq, updateHighWatermark_leader, updateHighWatermark_replicaOffsets]
    exact ⟨rfl, record_get s b offset⟩
  · rw [heq, updateHighWatermark_leader, updateHighWatermark_replicaOffsets]
    exact ⟨rfl, record_get s b offset⟩

/-- The assignment of a partition to this broker keeps every entry, and makes one that is zero. -/
theorem Leads.assign (h : Leads c) (topic : String) (partition : Nat) {replicas : List BrokerId}
    (hmem : c.brokerId ∈ replicas) :
    Leads (c.setPartitionReplicas topic partition c.brokerId replicas) ∧
      (∀ key, (∃ state, (c.setPartitionReplicas topic partition c.brokerId
          replicas).partitionStates.get key = some state) ↔
        (∃ state, c.partitionStates.get key = some state) ∨ key = (topic, partition)) ∧
      (∀ key, (leaderEntry (c.setPartitionReplicas topic partition c.brokerId replicas) key) =
        if key = (topic, partition) then some ((leaderEntry c key).getD 0) else leaderEntry c key) := by
  unfold ClusterMetadata.setPartitionReplicas
  cases hget : c.partitionStates.get (topic, partition) with
  | none =>
    have hzero : (PartitionReplicaState.new topic partition c.brokerId replicas).replicaOffsets.get
        c.brokerId = some 0 := (get_zeroOffsets replicas c.brokerId).trans (if_pos hmem)
    refine ⟨h.insert _ rfl ⟨0, hzero⟩, fun key => exists_get_insert .., fun key => ?_⟩
    simp only
    rw [leaderEntry_insert]
    split
    · rename_i hkey
      rw [hkey, leaderEntry, hget]
      exact hzero
    · rfl
  | some state =>
    obtain ⟨hleader, offset, hoffset⟩ := h _ state hget
    refine ⟨h.insert _ rfl ⟨offset, hoffset⟩, fun key => exists_get_insert .., fun key => ?_⟩
    simp only
    rw [leaderEntry_insert]
    split
    · rename_i hkey
      rw [hkey, leaderEntry, hget, Option.bind_some, hleader, hoffset]
      rfl
    · rfl

/-- An offset that is reported for the leader is its entry; one of another broker leaves it alone. -/
theorem Leads.update (h : Leads c) (overflowChecks : Bool) (topic : String) (partition : Nat)
    (b : BrokerId) (offset : Nat) :
    Leads (c.updateReplicaOffset overflowChecks topic partition b offset).2 ∧
      (c.updateReplicaOffset overflowChecks topic partition b offset).2.brokerId = c.brokerId ∧
      (∀ key, (∃ state, (c.updateReplicaOffset overflowChecks topic partition b
          offset).2.partitionStates.get key = some state) ↔
        ∃ state, c.partitionStates.get key = some state) ∧
      ∀ key, leaderEntry (c.updateReplicaOffset overflowChecks topic partition b offset).2 key =
        if key = (topic, partition) ∧ b = c.brokerId then (leaderEntry c key).map fun _ => offset
        else leaderEntry c key := by
  unfold ClusterMetadata.updateReplicaOffset
  cases hget : c.partitionStates.get (topic, partition) with
  | none =>
    simp only
    refine ⟨h, trivial, fun _ => trivial, fun key => ?_⟩
    by_cases hkey : key = (topic, partition) ∧ b = c.brokerId
    · rw [if_pos hkey, hkey.1, leaderEntry, hget]
      rfl
    · rw [if_neg hkey]
  | some state =>
    obtain ⟨hleader, old, hold⟩ := h _ state hget
    obtain ⟨hleader', hoffsets⟩ :=
      updateReplicaOffset_get overflowChecks state b offset c.isrLagThreshold
    refine ⟨h.insert _ (hleader'.trans hleader) ?_, rfl, fun key => ?_, fun key => ?_⟩
    · rw [hoffsets]
      split
      · exact ⟨offset, rfl⟩
      · exact ⟨old, hold⟩
    · refine (exists_get_insert ..).trans (or_iff_left_of_imp ?_)
      rintro rfl
      exact ⟨state, hget⟩
    · simp only
      rw [leaderEntry_insert, hleader', hleader, hoffsets]
      by_cases hkey : key = (topic, partition)
      · subst hkey
        rw [if_pos rfl, leaderEntry, hget, Option.bind_some, hleader, hold]
        simp [eq_comm]
      · rw [if_neg hkey, if_neg (fun hand => hkey hand.1)]

end Entry

/-! ## Conditions on a run -/

/-- The broker is assigned the partitions of new topics; appends succeed; a batch is stored when the
partition has its replica state and no earlier batch of it is still to be stored. -/
def Task.InTurn (K : Crates) (dirOf : String → Nat → Path) (io : StepIo) (s : ServerState) :
    Task → Prop
  | .assignReplicas _ partitions next => next < partitions →
    (s.server.cluster.assignPartitionReplicas io.now io.order s.server.replicationFactor next).map
      Prod.fst = .ok s.server.cluster.brokerId
  | .append handle topic partition messages =>
    (Task.append handle topic partition messages).Stores K dirOf io s
  | .updateLeader topic partition base _ =>
    (∃ state, s.server.cluster.partitionStates.get (topic, partition) = some state) ∧
      ∀ id base' count, s.tasks.get id = some (.updateLeader topic partition base' count) →
        base ≤ base'
  | _ => True

/-- The condition on a step: creations are alone, tasks in turn, and other brokers report their own
offsets. -/
def InTurn (K : Crates) (dirOf : String → Nat → Path) (s : ServerState) (e : ServerEvent)
    (t : ServerState) : Prop :=
  Alone s e t ∧
  (∀ id io, e = .advance id io → ∀ task ∈ s.tasks.get id, task.InTurn K dirOf io s) ∧
  ∀ topic partition b offset, e = .updateReplicaOffset topic partition b offset →
    b ≠ s.server.cluster.brokerId

/-- The leader's entry does not decrease. -/
def NeverDecreases (s : ServerState) (_ : ServerEvent) (t : ServerState) : Prop :=
  ∀ key offset, leaderEntry s.server.cluster key = some offset →
    ∃ offset', leaderEntry t.server.cluster key = some offset' ∧ offset ≤ offset'

/-- If all requests have completed, the leader's entry is the next offset of the log. -/
def CaughtUp (s : ServerState) : Prop :=
  (∀ id, s.tasks.get id = none) → ∀ topic handle partition ref o,
    s.server.topicManager.topics.get topic = some handle →
    handle.partitions[partition]? = some ref →
    s.server.topicManager.objects.get ref = some o →
    leaderEntry s.server.cluster (topic, partition) = some o.partition.nextOffset

/-! ## What a run keeps -/

/-- The batches that are still to be stored are those from the leader's entry to the end of the
log. -/
def Waiting (s : ServerState) (key : PartitionKey) (stop : Nat) : Prop :=
  ∃ pending : List (Nat × Nat × Nat), (pending.map Prod.fst).Nodup ∧
    (∀ id base count, (id, base, count) ∈ pending ↔
      s.tasks.get id = some (.updateLeader key.1 key.2 base count)) ∧
    Chain ((leaderEntry s.server.cluster key).getD 0) pending stop

/-- What a run in turn keeps. -/
structure Tracked (s : ServerState) : Prop where
  exclusive : Exclusive s
  owned : Owned s
  short : ∀ id task, s.tasks.get id = some task → task.messages.length ≤ maxMessageSize
  leads : Leads s.server.cluster
  known : ∀ key state, s.server.cluster.partitionStates.get key = some state →
    ∃ handle, s.server.topicManager.topics.get key.1 = some handle
  assigned : ∀ topic handle partition, s.server.topicManager.topics.get topic = some handle →
    partition < handle.partitions.length →
    (∃ state, s.server.cluster.partitionStates.get (topic, partition) = some state) ∨
      ∃ id n next, s.tasks.get id = some (.assignReplicas topic n next) ∧ next ≤ partition
  fresh : ∀ id name n made ref o, s.tasks.get id = some (.createPartitions name n made) →
    ref ∈ made → s.server.topicManager.objects.get ref = some o → o.partition.nextOffset = 0
  stored : ∀ id topic partition base count,
    s.tasks.get id = some (.updateLeader topic partition base count) → base + count < 2 ^ 64 ∧
      ∃ handle ref, s.server.topicManager.topics.get topic = some handle ∧
        handle.partitions[partition]? = some ref
  waiting : ∀ topic handle partition ref o,
    s.server.topicManager.topics.get topic = some handle →
    handle.partitions[partition]? = some ref → s.server.topicManager.objects.get ref = some o →
    Waiting s (topic, partition) o.partition.nextOffset

section Step

variable {s t : ServerState} {id : Nat} {io : StepIo} {task : Task} {progress : Progress}

theorem get_settle_iff {tasks : Table Nat Task} {k : Nat} {task' : Task} :
    (settle id progress tasks).get k = some task' ↔
      (k = id ∧ progress = .waits task') ∨ (k ≠ id ∧ tasks.get k = some task') := by
  refine ⟨get_settle, ?_⟩
  rintro (⟨rfl, rfl⟩ | ⟨hne, h⟩)
  · exact Table.get_insert_self ..
  · unfold settle
    split
    · exact (Table.get_insert_ne _ hne).trans h
    · exact (Table.get_remove_ne hne).trans h

/-- A step that stores nothing of the partition and starts nothing of it. -/
theorem Waiting.keep {key : PartitionKey} {stop : Nat} (h : Waiting s key stop)
    (htask : s.tasks.get id = some task) (htasks : t.tasks = settle id progress s.tasks)
    (hentry : (leaderEntry t.server.cluster key).getD 0 =
      (leaderEntry s.server.cluster key).getD 0)
    (hbefore : ∀ base count, task ≠ .updateLeader key.1 key.2 base count)
    (hafter : ∀ base count, progress ≠ .waits (.updateLeader key.1 key.2 base count)) :
    Waiting t key stop := by
  obtain ⟨pending, hnodup, hmem, hchain⟩ := h
  refine ⟨pending, hnodup, ?_, by rw [hentry]; exact hchain⟩
  intro k base count
  rw [hmem, htasks, get_settle_iff]
  constructor
  · intro hk
    refine Or.inr ⟨?_, hk⟩
    rintro rfl
    rw [htask] at hk
    exact hbefore base count (Option.some_inj.1 hk)
  · rintro (⟨-, hp⟩ | ⟨-, hk⟩)
    · exact absurd hp (hafter base count)
    · exact hk

theorem messages_of_waits {srv : Server} {after : Task}
    (hstep : TaskStep K dirOf overflowChecks io s.server task (.waits after) srv) :
    after.messages = task.messages ∨ after.messages = [] := by
  generalize hp : Progress.waits after = progress at hstep
  cases hstep <;> cases hp <;> first | exact Or.inl rfl | exact Or.inr rfl

/-- A successful append, seen from the partition. -/
theorem appendTo_ok {tm : TopicManager} {io : PartitionIo} {messages : List Message} {ref n : Nat}
    {o : PartitionObject} (h : (tm.appendTo K io messages ref o).1 = .ok n) :
    messages ≠ [] ∧ n = o.partition.nextOffset ∧ n + messages.length < 2 ^ 64 ∧
      ∃ o', (tm.appendTo K io messages ref o).2.objects.get ref = some o' ∧
        o'.partition.nextOffset = n + messages.length := by
  obtain ⟨d, p, hres, heq⟩ := TopicManager.appendTo_eq h
  rw [heq]
  obtain ⟨hn, hnext, hlt, -⟩ := append_nextOffset hres
  exact ⟨(partition_append_ok hres).1, hn, hlt, _, Table.get_insert_self .., hnext⟩

/-- What a step in turn does to the replica states. -/
structure ClusterStep (task : Task) (c d : ClusterMetadata) : Prop where
  brokerId : d.brokerId = c.brokerId
  leads : Leads d
  states : ∀ key, (∃ state, d.partitionStates.get key = some state) ↔
    (∃ state, c.partitionStates.get key = some state) ∨
      ∃ n, task = .assignReplicas key.1 n key.2 ∧ key.2 < n
  entry : ∀ key, (∀ base count, task ≠ .updateLeader key.1 key.2 base count) →
    leaderEntry d key = leaderEntry c key ∨ leaderEntry d key = some ((leaderEntry c key).getD 0)
  stored : ∀ key base count, task = .updateLeader key.1 key.2 base count →
    leaderEntry d key = some (base + count)

theorem ClusterStep.same {c : ClusterMetadata} (h : Leads c)
    (hassign : ∀ (key : PartitionKey) n, task = .assignReplicas key.1 n key.2 → n ≤ key.2)
    (hupdate : ∀ topic partition base count, task ≠ .updateLeader topic partition base count) :
    ClusterStep task c c := by
  refine ⟨rfl, h, fun key => ?_, fun key _ => Or.inl rfl, fun key base count heq =>
    absurd heq (hupdate key.1 key.2 base count)⟩
  constructor
  · exact Or.inl
  · rintro (hstate | ⟨n, heq, hlt⟩)
    · exact hstate
    · exact absurd (hassign key n heq) (Nat.not_le_of_lt hlt)

/-- **The replica states** after a step in turn. -/
theorem Tracked.cluster (h : Tracked s) (htask : s.tasks.get id = some task)
    (hstep : TaskStep K dirOf overflowChecks io s.server task progress t.server)
    (hturn : task.InTurn K dirOf io s) : ClusterStep task s.server.cluster t.server.cluster := by
  generalize t.server = srv at hstep
  cases hstep with
  | notAssigned name partitions next hlt e herror =>
    have hleader := hturn hlt
    rw [herror] at hleader
    cases hleader
  | assigned name partitions next hlt leader replicas hok =>
    have hleader := hturn hlt
    rw [hok] at hleader
    obtain rfl : leader = s.server.cluster.brokerId := Except.ok.inj hleader
    obtain ⟨hleads, hstates, hentry⟩ :=
      h.leads.assign name next (ClusterMetadata.assignPartitionReplicas_leader hok)
    refine ⟨rfl, hleads, fun key => ?_, fun key _ => ?_, fun key base count heq => by cases heq⟩
    · refine (hstates key).trans (or_congr_right ?_)
      constructor
      · rintro rfl
        exact ⟨partitions, rfl, hlt⟩
      · rintro ⟨n, heq, -⟩
        cases heq
        rfl
    · rw [hentry]
      split
      · exact Or.inr rfl
      · exact Or.inl rfl
  | created name partitions next hle =>
    refine ClusterStep.same h.leads ?_ (fun _ _ _ _ heq => by cases heq)
    intro key n heq
    cases heq
    exact hle
  | overflowed topic partition base count e herror =>
    rw [addWith_of_lt overflowChecks (h.stored id topic partition base count htask).1] at herror
    cases herror
  | updated topic partition base count finalOffset response hsum hresponse =>
    rw [addWith_of_lt overflowChecks (h.stored id topic partition base count htask).1] at hsum
    cases hsum
    obtain ⟨⟨state, hstate⟩, -⟩ := hturn
    obtain ⟨hleader, offset, hoffset⟩ := h.leads _ state hstate
    obtain ⟨hleads, hbroker, hstates, hentry⟩ := h.leads.update overflowChecks topic partition
      s.server.cluster.brokerId (base + count)
    refine ⟨hbroker, hleads, fun key => ?_, fun key hne => ?_, fun key base' count' heq => ?_⟩
    · refine (hstates key).trans (or_iff_left ?_).symm
      rintro ⟨n, heq, -⟩
      cases heq
    · left
      refine (hentry key).trans (if_neg ?_)
      rintro ⟨rfl, -⟩
      exact hne base count rfl
    · obtain ⟨htopic, hpartition, rfl, rfl⟩ := Task.updateLeader.inj heq
      obtain rfl : key = (topic, partition) := Prod.ext htopic.symm hpartition.symm
      refine (hentry (topic, partition)).trans ?_
      rw [if_pos ⟨rfl, rfl⟩, leaderEntry, hstate, Option.bind_some, hleader, hoffset]
      rfl
  | _ =>
    refine ClusterStep.same h.leads ?_ ?_
    · intro key n heq
      cases heq
    · intro topic partition base count heq
      cases heq

/-- The partition of a topic that exists is an old one. -/
theorem Tracked.ref_lt (h : Tracked s) {topic : String} {handle : Topic} {partition ref : Nat}
    (htopic : s.server.topicManager.topics.get topic = some handle)
    (hpart : handle.partitions[partition]? = some ref) :
    ref < s.server.topicManager.nextObject :=
  h.owned.old (topic, partition) ref (Or.inl ⟨handle, htopic, hpart⟩)

theorem Tracked.assignedStep (h : Tracked s) (htask : s.tasks.get id = some task)
    (hstep : TaskStep K dirOf overflowChecks io s.server task progress t.server)
    (htasks : t.tasks = settle id progress s.tasks)
    (hcluster : ClusterStep task s.server.cluster t.server.cluster)
    (hturn : task.InTurn K dirOf io s) {topic : String} {handle : Topic} {partition : Nat}
    (htopic : t.server.topicManager.topics.get topic = some handle)
    (hlt : partition < handle.partitions.length) :
    (∃ state, t.server.cluster.partitionStates.get (topic, partition) = some state) ∨
      ∃ id n next, t.tasks.get id = some (.assignReplicas topic n next) ∧ next ≤ partition := by
  rcases hstep.topics htopic with hold | ⟨n, made, rfl, rfl, -, rfl⟩
  · rcases h.assigned topic handle partition hold hlt with hstate | ⟨k, n, next, hk, hle⟩
    · exact Or.inl ((hcluster.states _).2 (Or.inl hstate))
    · by_cases hne : k = id
      · subst hne
        obtain rfl : task = .assignReplicas topic n next :=
          Option.some_inj.1 (htask.symm.trans hk)
        obtain ⟨handle', hhandle', hlen⟩ := h.exclusive.assigned k topic n next hk
        obtain rfl : handle = handle' := Option.some_inj.1 (hold.symm.trans hhandle')
        generalize t.server = srv at hstep hcluster
        cases hstep with
        | notAssigned name partitions next hlt e herror =>
          have hleader := hturn hlt
          rw [herror] at hleader
          cases hleader
        | assigned name partitions next hlt' leader replicas hok =>
          by_cases heq : next = partition
          · subst heq
            exact Or.inl ((hcluster.states _).2 (Or.inr ⟨n, rfl, hlt'⟩))
          · refine Or.inr ⟨k, n, next + 1, ?_, by omega⟩
            rw [htasks]
            exact Table.get_insert_self ..
        | created name partitions next hle' => omega
      · refine Or.inr ⟨k, n, next, ?_, hle⟩
        rw [htasks, get_settle_iff]
        exact Or.inr ⟨hne, hk⟩
  · refine Or.inr ⟨id, n, 0, ?_, Nat.zero_le _⟩
    rw [htasks]
    exact Table.get_insert_self ..

/-- A topic that is being created is not appended to. -/
theorem Tracked.freshStep (h : Tracked s) (htask : s.tasks.get id = some task)
    (hstep : TaskStep K dirOf overflowChecks io s.server task progress t.server)
    (htasks : t.tasks = settle id progress s.tasks) {k : Nat} {name : String} {n : Nat}
    {made : List Nat} {ref : Nat} {o : PartitionObject}
    (hk : t.tasks.get k = some (.createPartitions name n made)) (href : ref ∈ made)
    (hget : t.server.topicManager.objects.get ref = some o) : o.partition.nextOffset = 0 := by
  -- partitions that some creator had made are as they were
  have hkept : ∀ {k made}, s.tasks.get k = some (.createPartitions name n made) → ref ∈ made →
      o.partition.nextOffset = 0 := by
    intro k made hk hmem
    obtain ⟨i, hi⟩ := List.mem_iff_getElem?.1 hmem
    have howns : Owns s (name, i) ref := Or.inr ⟨k, n, made, hk, hi⟩
    rcases hstep.objects (h.owned.old _ _ howns) with hsame | ⟨handle, topic, partition, messages,
      o', rfl, hpart, -, -⟩
    · rw [hsame] at hget
      exact h.fresh k name n made ref o hk hmem hget
    · have htopic := h.exclusive.appending id handle topic partition messages htask
      have heq := h.owned.apart (topic, partition) (name, i) ref (Or.inl ⟨handle, htopic, hpart⟩)
        howns
      cases heq
      rw [(h.exclusive.absent k name n made hk).1] at htopic
      cases htopic
  rw [htasks] at hk
  rcases get_settle hk with ⟨rfl, rfl⟩ | ⟨-, hk⟩
  · generalize t.server = srv at hstep hget
    cases hstep with
    | free name' partitions hfree => cases href
    | made name' partitions made₀ hlt =>
      rcases List.mem_append.1 href with hmem | hmem
      · exact hkept htask hmem
      · obtain rfl := List.mem_singleton.1 hmem
        obtain rfl := Option.some_inj.1 ((Table.get_insert_self ..).symm.trans hget)
        rfl
  · exact hkept hk href

theorem Tracked.storedStep (h : Tracked s) (htask : s.tasks.get id = some task)
    (hstep : TaskStep K dirOf overflowChecks io s.server task progress t.server)
    (htasks : t.tasks = settle id progress s.tasks) {k : Nat} {topic : String}
    {partition base count : Nat}
    (hk : t.tasks.get k = some (.updateLeader topic partition base count)) :
    base + count < 2 ^ 64 ∧ ∃ handle ref,
      t.server.topicManager.topics.get topic = some handle ∧
        handle.partitions[partition]? = some ref := by
  rw [htasks] at hk
  rcases get_settle hk with ⟨rfl, rfl⟩ | ⟨-, hk⟩
  · generalize t.server = srv at hstep
    cases hstep with
    | appended handle topic' partition' messages ref o base' hpart hget happ =>
      obtain ⟨-, -, hlt, -⟩ := appendTo_ok happ
      refine ⟨?_, handle, ref, ?_, hpart⟩
      · have := Nat.mod_le messages.length (2 ^ 32)
        omega
      · exact h.exclusive.appending k handle topic partition messages htask
  · obtain ⟨hlt, handle, ref, htopic, hpart⟩ := h.stored k topic partition base count hk
    exact ⟨hlt, handle, ref, h.exclusive.topics htask hstep htopic, hpart⟩

/-- A batch that was appended waits behind the others. -/
theorem Waiting.append {topic : String} {partition stop count : Nat} {task : Task}
    (h : Waiting s (topic, partition) stop) (htask : s.tasks.get id = some task)
    (hne : ∀ base count, task ≠ .updateLeader topic partition base count)
    (htasks : t.tasks = settle id (.waits (.updateLeader topic partition stop count)) s.tasks)
    (hentry : (leaderEntry t.server.cluster (topic, partition)).getD 0 =
      (leaderEntry s.server.cluster (topic, partition)).getD 0) (hcount : 0 < count) :
    Waiting t (topic, partition) (stop + count) := by
  obtain ⟨pending, hnodup, hmem, hchain⟩ := h
  have hnew : id ∉ pending.map Prod.fst := by
    intro hin
    obtain ⟨⟨k, base, c⟩, hk, rfl⟩ := List.mem_map.1 hin
    have := (hmem k base c).1 hk
    rw [htask] at this
    exact hne base c (Option.some_inj.1 this)
  refine ⟨pending ++ [(id, stop, count)], ?_, fun k base c => ?_, ?_⟩
  · rw [List.map_append, List.nodup_append]
    refine ⟨hnodup, List.nodup_singleton _, ?_⟩
    rintro k hk k' hk' rfl
    obtain rfl := List.mem_singleton.1 hk'
    exact hnew hk
  · rw [List.mem_append, hmem, List.mem_singleton, htasks, get_settle_iff]
    constructor
    · rintro (hk | heq)
      · refine Or.inr ⟨?_, hk⟩
        rintro rfl
        exact hnew (List.mem_map.2 ⟨_, (hmem k base c).2 hk, rfl⟩)
      · cases heq
        exact Or.inl ⟨rfl, rfl⟩
    · rintro (⟨rfl, heq⟩ | ⟨-, hk⟩)
      · cases heq
        exact Or.inr rfl
      · exact Or.inl hk
  · rw [hentry]
    exact hchain.snoc id hcount

/-- The first batch that waits is stored. -/
theorem Waiting.store {key : PartitionKey} {stop base count : Nat} (h : Waiting s key stop)
    (htask : s.tasks.get id = some (.updateLeader key.1 key.2 base count))
    (hleast : ∀ id' base' count',
      s.tasks.get id' = some (.updateLeader key.1 key.2 base' count') → base ≤ base')
    {response : Option Response} (htasks : t.tasks = settle id (.ends response) s.tasks)
    (hentry : leaderEntry t.server.cluster key = some (base + count)) :
    (leaderEntry s.server.cluster key).getD 0 ≤ base + count ∧ Waiting t key stop := by
  obtain ⟨pending, hnodup, hmem, hchain⟩ := h
  obtain ⟨rest, rfl, hbase, hrest⟩ := hchain.first ((hmem id base count).2 htask)
    fun id' base' count' hin => hleast id' base' count' ((hmem id' base' count').1 hin)
  obtain ⟨hnew, hnodup⟩ := List.nodup_cons.1 hnodup
  refine ⟨by omega, rest, hnodup, fun k base' c => ?_, by rw [hentry]; exact hrest⟩
  rw [htasks, get_settle_iff]
  constructor
  · intro hin
    refine Or.inr ⟨?_, (hmem k base' c).1 (List.mem_cons_of_mem _ hin)⟩
    rintro rfl
    exact hnew (List.mem_map.2 ⟨_, hin, rfl⟩)
  · rintro (⟨-, heq⟩ | ⟨hne, hk⟩)
    · cases heq
    · rcases List.mem_cons.1 ((hmem k base' c).2 hk) with heq | hin
      · cases heq
        exact absurd rfl hne
      · exact hin

/-- The store of a batch is the last step of its request. -/
theorem TaskStep.ends {srv : Server} {topic : String} {partition base count : Nat}
    (hstep : TaskStep K dirOf overflowChecks io s.server (.updateLeader topic partition base count)
      progress srv) : ∃ response, progress = .ends response := by
  cases hstep with
  | overflowed _ _ _ _ e herror => exact ⟨none, rfl⟩
  | updated _ _ _ _ finalOffset response hsum hresponse => exact ⟨response, rfl⟩

/-- An entry is counted from zero and only changed by the store of a batch. -/
theorem ClusterStep.entry_getD (h : ClusterStep task s.server.cluster t.server.cluster)
    {key : PartitionKey} (hne : ∀ base count, task ≠ .updateLeader key.1 key.2 base count) :
    (leaderEntry t.server.cluster key).getD 0 = (leaderEntry s.server.cluster key).getD 0 := by
  rcases h.entry key hne with heq | heq
  · rw [heq]
  · rw [heq, Option.getD_some]

section Waiting

variable {topic : String} {handle : Topic} {partition ref : Nat} {o : PartitionObject}

/-- **The batches of a partition** that a step leaves as it was. -/
theorem Tracked.waitingSame (h : Tracked s) (htask : s.tasks.get id = some task)
    (hstep : TaskStep K dirOf overflowChecks io s.server task progress t.server)
    (htasks : t.tasks = settle id progress s.tasks)
    (hcluster : ClusterStep task s.server.cluster t.server.cluster)
    (hturn : task.InTurn K dirOf io s) (htopic : s.server.topicManager.topics.get topic = some handle)
    (hpart : handle.partitions[partition]? = some ref)
    (hsame : t.server.topicManager.objects.get ref = s.server.topicManager.objects.get ref)
    (hget : s.server.topicManager.objects.get ref = some o) :
    Waiting t (topic, partition) o.partition.nextOffset := by
  have hwaiting := h.waiting topic handle partition ref o htopic hpart hget
  by_cases hupdate : ∃ base count, task = .updateLeader topic partition base count
  · obtain ⟨base, count, rfl⟩ := hupdate
    have hstored := hcluster.stored (topic, partition) base count rfl
    obtain ⟨response, rfl⟩ := hstep.ends
    exact (hwaiting.store htask hturn.2 htasks hstored).2
  · have hbefore : ∀ base count, task ≠ .updateLeader topic partition base count := by
      intro base count heq
      exact hupdate ⟨base, count, heq⟩
    refine hwaiting.keep htask htasks (hcluster.entry_getD hbefore) hbefore ?_
    rintro base count rfl
    -- only an append starts to wait, and then the partition would have changed
    generalize hsrv : t.server = srv at hstep
    cases hstep with
    | appended handle' topic' partition' messages ref' o' base' hpart' hget' happ =>
      have htopic' := h.exclusive.appending id handle' topic partition messages htask
      obtain rfl : handle' = handle := Option.some_inj.1 (htopic'.symm.trans htopic)
      obtain rfl : ref' = ref := Option.some_inj.1 (hpart'.symm.trans hpart)
      obtain ⟨hne, hn, -, o'', ho'', hnext⟩ := appendTo_ok happ
      rw [hsrv] at hsame
      rw [ho'', hget'] at hsame
      cases hsame
      have : 0 < messages.length := List.length_pos_of_ne_nil hne
      omega

/-- **The batches of a partition** to which a step appends in turn. -/
theorem Tracked.waitingAppend (h : Tracked s) {messages : List Message} {o' : PartitionObject}
    (htask : s.tasks.get id = some (.append handle topic partition messages))
    (hstep : TaskStep K dirOf overflowChecks io s.server (.append handle topic partition messages)
      progress t.server)
    (htasks : t.tasks = settle id progress s.tasks)
    (hcluster : ClusterStep (.append handle topic partition messages) s.server.cluster
      t.server.cluster)
    (hturn : (Task.append handle topic partition messages).InTurn K dirOf io s)
    (hpart : handle.partitions[partition]? = some ref)
    (hget' : s.server.topicManager.objects.get ref = some o')
    (htm : t.server.topicManager =
      (s.server.topicManager.appendTo K io.append messages ref o').2)
    (hget : t.server.topicManager.objects.get ref = some o) :
    Waiting t (topic, partition) o.partition.nextOffset := by
  have htopic := h.exclusive.appending id handle topic partition messages htask
  have hwaiting := h.waiting topic handle partition ref o' htopic hpart hget'
  have hne : ∀ base count, Task.append handle topic partition messages ≠
      .updateLeader topic partition base count := by
    intro base count heq
    cases heq
  by_cases hnil : messages = []
  · subst hnil
    rw [htm, get_objects_refused hget', hget'] at hget
    cases hget
    refine hwaiting.keep htask htasks (hcluster.entry_getD hne) hne ?_
    rintro base count rfl
    generalize t.server = srv at hstep
    cases hstep with
    | appended _ _ _ _ ref' o' base' hpart' hget' happ => exact (appendTo_ok happ).1 rfl
  · obtain ⟨n, hn⟩ := hturn hnil ref hpart o' hget'
    obtain ⟨-, rfl, -, o'', ho'', hnext⟩ := appendTo_ok hn
    rw [htm, ho''] at hget
    cases hget
    have hmessages : messages.length % 2 ^ 32 = messages.length := by
      have hshort : messages.length ≤ maxMessageSize := h.short id _ htask
      unfold maxMessageSize at hshort
      exact Nat.mod_eq_of_lt (by omega)
    have hentry : (leaderEntry t.server.cluster (topic, partition)).getD 0 =
        (leaderEntry s.server.cluster (topic, partition)).getD 0 := hcluster.entry_getD hne
    generalize t.server = srv at hstep
    cases hstep with
    | noPartition _ _ _ _ response hnone hresponse =>
      rw [hnone ref hpart] at hget'
      cases hget'
    | notAppended _ _ _ _ response ref' o₁ hpart₁ hget₁ hfail hresponse =>
      cases hpart₁.symm.trans hpart
      cases hget₁.symm.trans hget'
      exact absurd hn (hfail _)
    | appended _ _ _ _ ref' o₁ base hpart₁ hget₁ happ =>
      cases hpart₁.symm.trans hpart
      cases hget₁.symm.trans hget'
      cases happ.symm.trans hn
      rw [hmessages] at htasks
      rw [hnext]
      exact hwaiting.append htask hne htasks hentry (List.length_pos_of_ne_nil hnil)

/-- **No batch of a partition waits** when its topic is inserted. -/
theorem Tracked.waitingInserted (h : Tracked s) {n : Nat} {made : List Nat}
    (htask : s.tasks.get id = some (.createPartitions topic n made))
    (hstep : TaskStep K dirOf overflowChecks io s.server (.createPartitions topic n made)
      (.waits (.assignReplicas topic n 0)) t.server)
    (htasks : t.tasks = settle id (.waits (.assignReplicas topic n 0)) s.tasks)
    (hcluster : ClusterStep (.createPartitions topic n made) s.server.cluster t.server.cluster)
    (hpart : made[partition]? = some ref)
    (hget : t.server.topicManager.objects.get ref = some o) :
    Waiting t (topic, partition) o.partition.nextOffset := by
  have habsent := (h.exclusive.absent id topic n made htask).1
  have hmem : ref ∈ made := List.mem_of_getElem? hpart
  have hzero : o.partition.nextOffset = 0 := by
    generalize t.server = srv at hstep hget
    cases hstep with
    | inserted name partitions made hle => exact h.fresh id topic n made ref o htask hmem hget
  have hnone : leaderEntry s.server.cluster (topic, partition) = none := by
    unfold leaderEntry
    cases hstate : s.server.cluster.partitionStates.get (topic, partition) with
    | none => rfl
    | some state =>
      obtain ⟨handle, hhandle⟩ := h.known _ state hstate
      rw [habsent] at hhandle
      cases hhandle
  refine ⟨[], List.nodup_nil, fun k base count => ?_, ?_⟩
  · rw [htasks, get_settle_iff]
    constructor
    · intro hin
      cases hin
    · rintro (⟨-, heq⟩ | ⟨-, hk⟩)
      · cases heq
      · obtain ⟨-, handle, -, hhandle, -⟩ := h.stored k topic partition base count hk
        rw [habsent] at hhandle
        cases hhandle
  · rw [hcluster.entry_getD (fun base count heq => by cases heq), hnone, hzero]
    rfl

/-- **The log and its batches** after a step in turn. -/
theorem Tracked.waitingStep (h : Tracked s) (htask : s.tasks.get id = some task)
    (hstep : TaskStep K dirOf overflowChecks io s.server task progress t.server)
    (htasks : t.tasks = settle id progress s.tasks)
    (hcluster : ClusterStep task s.server.cluster t.server.cluster)
    (hturn : task.InTurn K dirOf io s) (htopic : t.server.topicManager.topics.get topic = some handle)
    (hpart : handle.partitions[partition]? = some ref)
    (hget : t.server.topicManager.objects.get ref = some o) :
    Waiting t (topic, partition) o.partition.nextOffset := by
  rcases hstep.topics htopic with hold | ⟨n, made, rfl, rfl, -, rfl⟩
  · have hlt := h.ref_lt hold hpart
    rcases hstep.objects hlt with hsame | ⟨handle', topic', partition', messages, o', rfl, hpart',
      hget', htm⟩
    · exact h.waitingSame htask hstep htasks hcluster hturn hold hpart hsame (hsame ▸ hget)
    · have htopic' := h.exclusive.appending id handle' topic' partition' messages htask
      obtain ⟨rfl, rfl⟩ := Prod.mk.inj (h.owned.apart (topic', partition') (topic, partition) ref
        (Or.inl ⟨handle', htopic', hpart'⟩) (Or.inl ⟨handle, hold, hpart⟩))
      exact h.waitingAppend htask hstep htasks hcluster hturn hpart' hget' htm hget
  · exact h.waitingInserted htask hstep htasks hcluster hpart hget

end Waiting

/-- **A step of a task in turn.** -/
theorem Tracked.advance (h : Tracked s) (htask : s.tasks.get id = some task)
    (hstep : TaskStep K dirOf overflowChecks io s.server task progress t.server)
    (htasks : t.tasks = settle id progress s.tasks) (hexclusive : Exclusive t)
    (hturn : task.InTurn K dirOf io s) : Tracked t := by
  have hcluster := h.cluster htask hstep hturn
  constructor
  · exact hexclusive
  · exact h.owned.advance htask hstep htasks
  · intro k task' hk
    rw [htasks] at hk
    rcases get_settle hk with ⟨rfl, rfl⟩ | ⟨-, hk⟩
    · rcases messages_of_waits hstep with heq | heq
      · rw [heq]
        exact h.short k task htask
      · rw [heq]
        exact Nat.zero_le _
    · exact h.short k task' hk
  · exact hcluster.leads
  · intro key state hstate
    rcases (hcluster.states key).1 ⟨state, hstate⟩ with ⟨old, hold⟩ | ⟨n, rfl, -⟩
    · obtain ⟨handle, hhandle⟩ := h.known key old hold
      exact ⟨handle, h.exclusive.topics htask hstep hhandle⟩
    · obtain ⟨handle, hhandle, -⟩ := h.exclusive.assigned id key.1 n key.2 htask
      exact ⟨handle, h.exclusive.topics htask hstep hhandle⟩
  · intro topic handle partition htopic hlt
    exact h.assignedStep htask hstep htasks hcluster hturn htopic hlt
  · intro k name n made ref o hk href hget
    exact h.freshStep htask hstep htasks hk href hget
  · intro k topic partition base count hk
    exact h.storedStep htask hstep htasks hk
  · intro topic handle partition ref o htopic hpart hget
    exact h.waitingStep htask hstep htasks hcluster hturn htopic hpart hget

theorem Tracked.receive (h : Tracked s) {request : Request} (hnone : s.tasks.get id = none)
    (hframed : request.Framed) (hstart : start request = some task) :
    Tracked { s with tasks := s.tasks.insert id task } := by
  have hget : ∀ {k task'}, task'.initial = false →
      ((s.tasks.insert id task).get k = some task' ↔ s.tasks.get k = some task') :=
    fun hnot => get_received hnone hstart hnot
  constructor
  · exact h.exclusive.receive hnone hstart
  · exact h.owned.receive hnone hstart
  · intro k task' hk
    rcases Table.get_insert_cases hk with ⟨-, rfl⟩ | ⟨-, hk⟩
    · rcases start_cases hstart with ⟨name, n, -, rfl⟩ | ⟨topic, p, ms, rfl, rfl⟩ |
        ⟨topic, p, o, m, -, rfl⟩
      · exact Nat.zero_le _
      · exact hframed.1
      · exact Nat.zero_le _
    · exact h.short k task' hk
  · exact h.leads
  · exact h.known
  · intro topic handle partition htopic hlt
    rcases h.assigned topic handle partition htopic hlt with hstate | ⟨k, n, next, hk, hle⟩
    · exact Or.inl hstate
    · exact Or.inr ⟨k, n, next, (hget rfl).2 hk, hle⟩
  · intro k name n made ref o hk href hobject
    exact h.fresh k name n made ref o ((hget rfl).1 hk) href hobject
  · intro k topic partition base count hk
    exact h.stored k topic partition base count ((hget rfl).1 hk)
  · intro topic handle partition ref o htopic hpart hobject
    obtain ⟨pending, hnodup, hmem, hchain⟩ := h.waiting topic handle partition ref o htopic hpart
      hobject
    refine ⟨pending, hnodup, fun k base count => ?_, hchain⟩
    rw [hmem]
    exact (hget rfl).symm

/-- What happens to the metadata without changing the leader's entries. -/
theorem Tracked.otherCluster (h : Tracked s) {c : ClusterMetadata} (hleads : Leads c)
    (hstates : ∀ key, (∃ state, c.partitionStates.get key = some state) ↔
      ∃ state, s.server.cluster.partitionStates.get key = some state)
    (hentry : ∀ key, leaderEntry c key = leaderEntry s.server.cluster key) :
    Tracked { s with server := { s.server with cluster := c } } := by
  refine ⟨⟨h.exclusive.creator, h.exclusive.absent, h.exclusive.assigner, h.exclusive.assigned,
    h.exclusive.appending, h.exclusive.fetching⟩, ⟨h.owned.apart, h.owned.old, h.owned.made⟩,
    h.short, hleads, ?_, ?_, h.fresh, h.stored, ?_⟩
  · intro key state hstate
    obtain ⟨old, hold⟩ := (hstates key).1 ⟨state, hstate⟩
    exact h.known key old hold
  · intro topic handle partition htopic hlt
    exact (h.assigned topic handle partition htopic hlt).imp_left (hstates _).2
  · intro topic handle partition ref o htopic hpart hobject
    obtain ⟨pending, hnodup, hmem, hchain⟩ := h.waiting topic handle partition ref o htopic hpart
      hobject
    refine ⟨pending, hnodup, hmem, ?_⟩
    simp only
    rw [hentry]
    exact hchain

/-- **Every event in turn** keeps the leader's offsets and the logs together. -/
theorem Tracked.next {e : ServerEvent} (h : Tracked s)
    (hstep : serverNext K dirOf overflowChecks s e = some t) (hturn : InTurn K dirOf s e t) :
    Tracked t := by
  have hexclusive := h.exclusive.next hstep hturn.1
  cases e with
  | receive id request =>
    obtain ⟨task, hnone, hframed, hstart, rfl⟩ := serverNext_receive hstep
    exact h.receive hnone hframed hstart
  | advance id io =>
    obtain ⟨task, progress, htask, -, hadvance, htasks⟩ := serverNext_step hstep
    exact h.advance htask hadvance htasks hexclusive (hturn.2.1 id io rfl task htask)
  | registerBroker now brokerId host port =>
    cases hstep
    exact h.otherCluster h.leads (fun _ => Iff.rfl) (fun _ => rfl)
  | updateReplicaOffset topic partition b offset =>
    cases hstep
    obtain ⟨hleads, -, hstates, hentry⟩ := h.leads.update overflowChecks topic partition b offset
    refine h.otherCluster hleads hstates (fun key => (hentry key).trans (if_neg ?_))
    rintro ⟨-, hb⟩
    exact hturn.2.2 topic partition b offset rfl hb

/-- **The leader's entry** does not decrease in a step in turn. -/
theorem Tracked.neverDecreases {e : ServerEvent} (h : Tracked s)
    (hstep : serverNext K dirOf overflowChecks s e = some t) (hturn : InTurn K dirOf s e t) :
    NeverDecreases s e t := by
  intro key offset hoffset
  cases e with
  | receive id request =>
    obtain ⟨task, -, -, -, rfl⟩ := serverNext_receive hstep
    exact ⟨offset, hoffset, Nat.le_refl _⟩
  | advance id io =>
    obtain ⟨task, progress, htask, -, hadvance, htasks⟩ := serverNext_step hstep
    have hcluster := h.cluster htask hadvance (hturn.2.1 id io rfl task htask)
    by_cases hupdate : ∃ base count, task = .updateLeader key.1 key.2 base count
    · obtain ⟨base, count, rfl⟩ := hupdate
      obtain ⟨-, handle, ref, htopic, hpart⟩ := h.stored id key.1 key.2 base count htask
      obtain ⟨o, ho⟩ := h.owned.made key ref (Or.inl ⟨handle, htopic, hpart⟩)
      have hstored := hcluster.stored key base count rfl
      refine ⟨base + count, hstored, ?_⟩
      have hwaiting := h.waiting key.1 handle key.2 ref o htopic hpart ho
      have hleast := (hturn.2.1 id io rfl _ htask).2
      obtain ⟨response, hends⟩ := hadvance.ends
      rw [hends] at htasks
      have := (hwaiting.store htask hleast htasks hstored).1
      rw [hoffset] at this
      exact this
    · have hne : ∀ base count, task ≠ .updateLeader key.1 key.2 base count := by
        intro base count heq
        exact hupdate ⟨base, count, heq⟩
      rcases hcluster.entry key hne with heq | heq
      · exact ⟨offset, heq.trans hoffset, Nat.le_refl _⟩
      · rw [hoffset] at heq
        exact ⟨offset, heq, Nat.le_refl _⟩
  | registerBroker now brokerId host port =>
    cases hstep
    exact ⟨offset, hoffset, Nat.le_refl _⟩
  | updateReplicaOffset topic partition b offset' =>
    cases hstep
    obtain ⟨-, -, -, hentry⟩ := h.leads.update overflowChecks topic partition b offset'
    refine ⟨offset, ((hentry key).trans (if_neg ?_)).trans hoffset, Nat.le_refl _⟩
    rintro ⟨-, hb⟩
    exact hturn.2.2 topic partition b offset' rfl hb

/-- When no request is in progress, nothing waits. -/
theorem Tracked.caughtUp (h : Tracked s) : CaughtUp s := by
  intro hquiet topic handle partition ref o htopic hpart hobject
  obtain ⟨pending, -, hmem, hchain⟩ := h.waiting topic handle partition ref o htopic hpart hobject
  have hnil : pending = [] := by
    rw [List.eq_nil_iff_forall_not_mem]
    rintro ⟨id, base, count⟩ hin
    have := (hmem id base count).1 hin
    rw [hquiet id] at this
    cases this
  subst hnil
  obtain ⟨state, hstate⟩ : ∃ state,
      s.server.cluster.partitionStates.get (topic, partition) = some state := by
    have hlt := (List.getElem?_eq_some_iff.1 hpart).1
    rcases h.assigned topic handle partition htopic hlt with hstate | ⟨id, n, next, hid, -⟩
    · exact hstate
    · rw [hquiet id] at hid
      cases hid
  obtain ⟨hleader, offset, hoffset⟩ := h.leads _ state hstate
  have hentry : leaderEntry s.server.cluster (topic, partition) = some offset := by
    rw [leaderEntry, hstate, Option.bind_some, hleader, hoffset]
  rw [hentry] at hchain ⊢
  exact congrArg some hchain

end Step

theorem tracked_new {cluster : ClusterMetadata} (replicationFactor : Nat)
    (hnone : cluster.partitionStates = Table.empty) :
    Tracked (ServerState.new cluster replicationFactor) := by
  have hstates : ∀ key, cluster.partitionStates.get key = none := by
    intro key
    rw [hnone]
    rfl
  refine ⟨exclusive_new cluster replicationFactor, owned_new cluster replicationFactor, ?_, ?_, ?_,
    ?_, ?_, ?_, ?_⟩
  · intro id task h
    cases h
  · intro key state h
    cases (hstates key).symm.trans h
  · intro key state h
    cases (hstates key).symm.trans h
  · intro topic handle partition h
    cases h
  · intro id name n made ref o h
    cases h
  · intro id topic partition base count h
    cases h
  · intro topic handle partition ref o h
    cases h

/-- **The leader's offset** never decreases and ends at the next offset of the log, on every run in
turn of a broker without topics. -/
theorem leader_offset_kept {cluster : ClusterMetadata} (replicationFactor : Nat)
    (hnone : cluster.partitionStates = Table.empty) {tr : List (ServerEvent × ServerState)}
    (hrun : Run (Steps (serverNext K dirOf overflowChecks))
      (ServerState.new cluster replicationFactor) tr)
    (hturn : EachStep (InTurn K dirOf) (ServerState.new cluster replicationFactor) tr) :
    EachStep NeverDecreases (ServerState.new cluster replicationFactor) tr ∧
      Throughout CaughtUp (ServerState.new cluster replicationFactor) tr := by
  have hnew := tracked_new replicationFactor hnone
  constructor
  · exact eachStep_of_invariant (fun _ _ _ h hstep hturn => h.next hstep hturn)
      (fun _ _ _ h hstep hturn => h.neverDecreases hstep hturn) hnew hrun hturn
  · exact (throughout_of_invariant (fun _ _ _ h hstep hturn => h.next hstep hturn) hnew hrun
      hturn).mono fun _ h => h.caughtUp

/-! ## Runs of a single broker -/

/-- The base of the batch that the task has to store in the partition. -/
def Task.waits (topic : String) (partition : Nat) : Task → Option Nat
  | .updateLeader topic' partition' base _ =>
    if topic' = topic ∧ partition' = partition then some base else none
  | _ => none

theorem waits_eq_some {topic : String} {partition base : Nat} {task : Task} :
    task.waits topic partition = some base ↔
      ∃ count, task = .updateLeader topic partition base count := by
  unfold Task.waits
  split
  · rename_i topic' partition' base' count
    rw [Option.ite_none_right_eq_some]
    constructor
    · rintro ⟨⟨rfl, rfl⟩, heq⟩
      cases heq
      exact ⟨count, rfl⟩
    · rintro ⟨count', heq⟩
      cases heq
      exact ⟨⟨rfl, rfl⟩, rfl⟩
  · rename_i hne
    constructor
    · intro h
      cases h
    · rintro ⟨count, rfl⟩
      exact absurd rfl (hne topic partition base count)

instance decidableTaskInTurn (io : StepIo) (s : ServerState) :
    ∀ task : Task, Decidable (task.InTurn K dirOf io s)
  | .assignReplicas .. => inferInstanceAs (Decidable (_ → _))
  | .append handle topic partition messages =>
    inferInstanceAs (Decidable ((Task.append handle topic partition messages).Stores K dirOf io s))
  | .updateLeader topic partition base _ =>
    decidable_of_iff ((s.server.cluster.partitionStates.get (topic, partition)).isSome = true ∧
      ∀ id ∈ s.tasks.keys, ∀ task ∈ s.tasks.get id, ∀ base' ∈ task.waits topic partition,
        base ≤ base') (by
      refine and_congr Option.isSome_iff_exists ⟨?_, ?_⟩
      · intro h id base' count hid
        exact h id (Table.mem_keys_iff.2 ⟨_, hid⟩) _ hid base' (waits_eq_some.2 ⟨count, rfl⟩)
      · intro h id _ task hid base' hbase
        obtain ⟨count, rfl⟩ := waits_eq_some.1 hbase
        exact h id base' count hid)
  | .checkTopic .. => isTrue trivial
  | .createPartitions .. => isTrue trivial
  | .findTopic .. => isTrue trivial
  | .findFetched .. => isTrue trivial
  | .fetch .. => isTrue trivial

instance decidableInTurn (s : ServerState) :
    ∀ (e : ServerEvent) (t : ServerState), Decidable (InTurn K dirOf s e t)
  | .advance id io, t =>
    decidable_of_iff (Alone s (.advance id io) t ∧
      ∀ task ∈ s.tasks.get id, task.InTurn K dirOf io s) (by
      constructor
      · rintro ⟨halone, hturn⟩
        refine ⟨halone, ?_, fun _ _ _ _ he => nomatch he⟩
        rintro id' io' he
        cases he
        exact hturn
      · rintro ⟨halone, hturn, -⟩
        exact ⟨halone, hturn id io rfl⟩)
  | .receive .., _ => isTrue ⟨(fun _ _ he => nomatch he), (fun _ _ he => nomatch he),
      (fun _ _ _ _ he => nomatch he)⟩
  | .registerBroker .., _ => isTrue ⟨(fun _ _ he => nomatch he), (fun _ _ he => nomatch he),
      (fun _ _ _ _ he => nomatch he)⟩
  | .updateReplicaOffset topic partition b offset, _ =>
    decidable_of_iff (b ≠ s.server.cluster.brokerId) (by
      constructor
      · intro hb
        refine ⟨(fun _ _ he => nomatch he), (fun _ _ he => nomatch he), ?_⟩
        intro topic' partition' b' offset' he
        cases he
        exact hb
      · rintro ⟨-, -, hb⟩
        exact hb topic partition b offset rfl)

/-- A broker alone. -/
def oneBroker : ClusterMetadata := ClusterMetadata.new 0 30000 10

/-- A topic is created, and two batches are appended before the first one is stored. -/
def batchesInOrder : List ServerEvent :=
  [.receive 0 (.createTopic "orders" 1)] ++ List.replicate 5 (plainStep 0 []) ++
  [.receive 1 (.produce "orders" 0 [oneByte 7]), .receive 2 (.produce "orders" 0 [oneByte 8]),
    plainStep 1 [], plainStep 2 [], plainStep 1 [], plainStep 2 [], plainStep 1 [], plainStep 2 []]

theorem leader_offset_kept_in_order :
    ∃ tr, trace (serverNext plainCrates plainDir true) (ServerState.new oneBroker 1)
        batchesInOrder = some tr ∧
      EachStep NeverDecreases (ServerState.new oneBroker 1) tr ∧
        Throughout CaughtUp (ServerState.new oneBroker 1) tr := by
  obtain ⟨tr, htr⟩ := Option.isSome_iff_exists.1 (show (trace (serverNext plainCrates plainDir true)
    (ServerState.new oneBroker 1) batchesInOrder).isSome = true by decide +kernel)
  have hturn : ∀ tr ∈ trace (serverNext plainCrates plainDir true) (ServerState.new oneBroker 1)
      batchesInOrder, EachStep (InTurn plainCrates plainDir) (ServerState.new oneBroker 1) tr := by
    decide +kernel
  exact ⟨tr, htr, leader_offset_kept 1 rfl (run_of_trace htr) (hturn tr htr)⟩

/-- The same requests, the second batch stored before the first. -/
def batchesOutOfOrder : List ServerEvent :=
  [.receive 0 (.createTopic "orders" 1)] ++ List.replicate 5 (plainStep 0 []) ++
  [.receive 1 (.produce "orders" 0 [oneByte 7]), .receive 2 (.produce "orders" 0 [oneByte 8]),
    plainStep 1 [], plainStep 2 [], plainStep 1 [], plainStep 2 [], plainStep 2 [], plainStep 1 []]

instance decidableNeverDecreases (s : ServerState) (e : ServerEvent) (t : ServerState) :
    Decidable (NeverDecreases s e t) :=
  decidable_of_iff (∀ key ∈ s.server.cluster.partitionStates.keys,
    ∀ offset ∈ leaderEntry s.server.cluster key,
      ∃ offset' ∈ leaderEntry t.server.cluster key, offset ≤ offset') (by
    constructor
    · intro h key offset hoffset
      obtain ⟨state, hstate, -⟩ := Option.bind_eq_some_iff.1 hoffset
      exact h key (Table.mem_keys_iff.2 ⟨state, hstate⟩) offset hoffset
    · intro h key _ offset hoffset
      exact h key offset hoffset)

theorem leader_offset_falls :
    ∃ tr, trace (serverNext plainCrates plainDir true) (ServerState.new oneBroker 1)
        batchesOutOfOrder = some tr ∧
      ¬ EachStep NeverDecreases (ServerState.new oneBroker 1) tr ∧
        ¬ Throughout CaughtUp (ServerState.new oneBroker 1) tr := by
  obtain ⟨tr, htr⟩ := Option.isSome_iff_exists.1 (show (trace (serverNext plainCrates plainDir true)
    (ServerState.new oneBroker 1) batchesOutOfOrder).isSome = true by decide +kernel)
  have hfalls : ∀ tr ∈ trace (serverNext plainCrates plainDir true) (ServerState.new oneBroker 1)
      batchesOutOfOrder, ¬ EachStep NeverDecreases (ServerState.new oneBroker 1) tr := by
    decide +kernel
  have hlast : ∀ tr ∈ trace (serverNext plainCrates plainDir true) (ServerState.new oneBroker 1)
      batchesOutOfOrder, (last (ServerState.new oneBroker 1) tr).tasks.isEmpty = true ∧
      (last (ServerState.new oneBroker 1) tr).server.topicManager.topics.get "orders" =
        some ⟨"orders", [0]⟩ ∧
      leaderEntry (last (ServerState.new oneBroker 1) tr).server.cluster ("orders", 0) = some 1 ∧
      ((last (ServerState.new oneBroker 1) tr).server.topicManager.objects.get 0).map
        (fun o => o.partition.nextOffset) = some 2 := by decide +kernel
  refine ⟨tr, htr, hfalls tr htr, fun hcaught => ?_⟩
  obtain ⟨hquiet, htopic, hentry, hobject⟩ := hlast tr htr
  obtain ⟨o, ho, hnext⟩ := Option.map_eq_some_iff.1 hobject
  have hend := hcaught.at_last (Table.isEmpty_iff.1 hquiet) "orders" _ 0 0 o htopic rfl ho
  rw [hentry, hnext] at hend
  cases hend

end Gaffa
