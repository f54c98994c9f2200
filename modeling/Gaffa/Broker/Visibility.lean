import Gaffa.Broker.TaskStep
import Gaffa.Storage.Fidelity

/-!
# What consumers see

Every run of the server keeps each partition in use exact (`StorageInvariant`), as long as a
partition's files are created in a directory that no other partition uses and that holds no
records, and appends succeed.  On such runs a fetch returns the records from its offset on,
whatever the high watermark is:

* `forall_fetched_iff`: when the records of a fetch are below a bound.
* `fetch_committed_iff`: fetches return committed records only, exactly when no fetch asks for
  offsets that the log has and the high watermark has not reached.
-/

set_option autoImplicit false

namespace Gaffa

open Transition DiskRecord

variable {K : Crates} {dirOf : String → Nat → Path} {overflowChecks : Bool}

/-! ## The records of a fetch -/

/-- The records that a fetch of exact messages returns are below `bound`. -/
theorem forall_fetched_iff (topicName : String) (partitionId : Nat) (messages : List Message)
    (offset maxMessages bound : Nat) :
    (∀ r ∈ ((referenceFrom topicName partitionId 0 messages).drop offset).take maxMessages,
        r.offset < bound) ↔
      maxMessages = 0 ∨ messages.length ≤ offset ∨
        min (offset + maxMessages) messages.length ≤ bound := by
  have hmem : ∀ r, r ∈ ((referenceFrom topicName partitionId 0 messages).drop offset).take
      maxMessages → ∃ i, offset ≤ i ∧ i < offset + maxMessages ∧ i < messages.length ∧
        r.offset = i := by
    intro r hr
    obtain ⟨i, hi⟩ := List.mem_iff_getElem?.1 hr
    rw [List.getElem?_take] at hi
    split at hi
    · rename_i hlt
      rw [List.getElem?_drop, getElem?_referenceFrom, Option.map_eq_some_iff] at hi
      obtain ⟨m, hm, rfl⟩ := hi
      have hlen := (List.getElem?_eq_some_iff.1 hm).1
      exact ⟨offset + i, by omega, by omega, hlen, Nat.zero_add _⟩
    · cases hi
  constructor
  · intro h
    by_contra hne
    -- the last record of the fetch is at the bound or above it
    obtain ⟨i, hi⟩ : ∃ i, i = min (offset + maxMessages) messages.length - 1 := ⟨_, rfl⟩
    have hlt : i < messages.length := by omega
    have hget : (((referenceFrom topicName partitionId 0 messages).drop offset).take
        maxMessages)[i - offset]? = some ⟨topicName, partitionId, i, messages[i]⟩ := by
      rw [List.getElem?_take, if_pos (by omega), List.getElem?_drop, getElem?_referenceFrom,
        show offset + (i - offset) = i by omega, List.getElem?_eq_getElem hlt, Option.map_some,
        Nat.zero_add]
    have hlast : i < bound := h _ (List.mem_of_getElem? hget)
    omega
  · intro h r hr
    obtain ⟨i, hlo, hhi, hlen, hi⟩ := hmem r hr
    omega

/-! ## Partitions in use -/

/-- The partitions that a task has a handle on. -/
def Task.refs : Task → List Nat
  | .createPartitions _ _ made => made
  | .append handle _ _ _ => handle.partitions
  | .fetch handle _ _ _ _ => handle.partitions
  | _ => []

/-- Some topic or some task has a handle on the partition. -/
def Live (s : ServerState) (ref : Nat) : Prop :=
  (∃ name t, s.server.topicManager.topics.get name = some t ∧ ref ∈ t.partitions) ∨
    ∃ id task, s.tasks.get id = some task ∧ ref ∈ task.refs

/-- The partition holds exactly the messages that were acknowledged on it. -/
def Exact (K : Crates) (tm : TopicManager) (o : PartitionObject) : Prop :=
  o.partition.config = SegmentConfig.default ∧ ∃ acked hs,
    Kept K o.partition.topicName o.partition.partitionId
      ⟨tm.dirAt o.dir, some o.partition, acked⟩ o.partition hs ∧ Straight hs

/-- A directory without records, in which no partition in use keeps its files. -/
def Unused (tm : TopicManager) (live : Nat → Prop) (path : Path) : Prop :=
  (∀ ref o, live ref → tm.objects.get ref = some o → o.dir ≠ path) ∧
  ∀ name bytes, (tm.dirAt path).get name = some bytes →
    (name = logPath 0 ∨ name = indexPath 0) ∧ bytes = []

/-- The partitions in use are exact and have directories of their own. -/
structure Sound (K : Crates) (tm : TopicManager) (live : Nat → Prop) : Prop where
  exact : ∀ ref o, live ref → tm.objects.get ref = some o → Exact K tm o
  apart : ∀ ref ref' o o', live ref → live ref' → tm.objects.get ref = some o →
    tm.objects.get ref' = some o' → o.dir = o'.dir → ref = ref'
  old : ∀ ref, live ref → ref < tm.nextObject

section Storage

variable {tm : TopicManager} {live live' : Nat → Prop} {o : PartitionObject} {ref : Nat}

theorem Exact.fetch (h : Exact K tm o) : ∃ messages : List Message,
    o.partition.nextOffset = messages.length ∧ ∀ offset maxMessages,
      tm.fetchFrom K offset maxMessages o =
        .ok (((referenceFrom o.partition.topicName o.partition.partitionId 0 messages).drop
          offset).take maxMessages) := by
  obtain ⟨-, acked, hs, hkept, -⟩ := h
  exact ⟨_, hkept.nextOffset, hkept.fetch⟩

theorem Exact.frame {tm' : TopicManager} (h : Exact K tm o)
    (hdir : tm'.dirAt o.dir = tm.dirAt o.dir) : Exact K tm' o := by
  unfold Exact
  rw [hdir]
  exact h

theorem Sound.mono (h : Sound K tm live) (hlive : ∀ ref, live' ref → live ref) :
    Sound K tm live' := by
  constructor
  · intro ref o hl
    exact h.exact ref o (hlive ref hl)
  · intro ref ref' o o' hl hl'
    exact h.apart ref ref' o o' (hlive ref hl) (hlive ref' hl')
  · intro ref hl
    exact h.old ref (hlive ref hl)

theorem Sound.insertTopic (h : Sound K tm live) (t : Topic) :
    Sound K (tm.insertTopic t) live := ⟨h.exact, h.apart, h.old⟩

theorem dirAt_insert (tm : TopicManager) (path path' : Path) (d : Dir)
    (objects : Table Nat PartitionObject) (nextObject : Nat) :
    ({ tm with objects := objects, nextObject := nextObject, disk := tm.disk.insert path d } :
      TopicManager).dirAt path' = if path' = path then d else tm.dirAt path' := by
  unfold TopicManager.dirAt
  simp only [Table.get_insert]
  split <;> rfl

/-- The files of a new partition in a directory without records. -/
theorem withConfig_unused {path : Path} (name : String) (partitionId : Nat)
    (hunused : Unused tm live path) :
    Partition.withConfig name partitionId SegmentConfig.default (tm.dirAt path) =
      (withFiles Table.empty 0,
        ⟨name, partitionId, [createdSegment SegmentConfig.default 0], SegmentConfig.default⟩) := by
  have hdir : touch (indexPath 0) (touch (logPath 0) (tm.dirAt path)) =
      withFiles Table.empty 0 := by
    apply Table.ext
    intro file
    have hempty : ∀ file, ((tm.dirAt path).get file).getD [] = [] := by
      intro file
      cases hget : (tm.dirAt path).get file with
      | none => rfl
      | some bytes => exact (hunused.2 file bytes hget).2
    unfold withFiles
    rw [get_touch, get_touch, get_touch, Table.get_insert, Table.get_insert, Table.get_empty,
      if_neg (logPath_ne_indexPath 0 0).symm, hempty, hempty]
    by_cases hi : file = indexPath 0
    · rw [if_pos hi, if_pos hi]
    · rw [if_neg hi, if_neg hi]
      by_cases hl : file = logPath 0
      · rw [if_pos hl, if_pos hl]
      · rw [if_neg hl, if_neg hl]
        cases hget : (tm.dirAt path).get file with
        | none => rfl
        | some bytes =>
          rcases (hunused.2 file bytes hget).1 with h | h
          · exact absurd h hl
          · exact absurd h hi
  unfold Partition.withConfig LogSegment.create
  rw [hdir]
  rfl

/-- **A partition created** in an unused directory. -/
theorem Sound.create (h : Sound K tm live) {path : Path} (hunused : Unused tm live path)
    (name : String) (partitionId : Nat) :
    Sound K (tm.createPartition .done path name partitionId).2
      fun ref => live ref ∨ ref = tm.nextObject := by
  unfold TopicManager.createPartition
  rw [withConfig_unused name partitionId hunused]
  -- an object of the new state is an old one in another directory, or the new one
  have hcases : ∀ ref o, (live ref ∨ ref = tm.nextObject) →
      (tm.objects.insert tm.nextObject ⟨path, ⟨name, partitionId,
        [createdSegment SegmentConfig.default 0], SegmentConfig.default⟩⟩).get ref = some o →
      (ref ≠ tm.nextObject ∧ live ref ∧ tm.objects.get ref = some o ∧ o.dir ≠ path) ∨
      (ref = tm.nextObject ∧ o = ⟨path, ⟨name, partitionId,
        [createdSegment SegmentConfig.default 0], SegmentConfig.default⟩⟩) := by
    intro ref o hlive hget
    rw [Table.get_insert] at hget
    split at hget
    · rename_i href
      cases hget
      exact Or.inr ⟨href, rfl⟩
    · rename_i href
      have hl : live ref := hlive.resolve_right href
      exact Or.inl ⟨href, hl, hget, hunused.1 ref o hl hget⟩
  constructor
  · intro ref o hlive hget
    rcases hcases ref o hlive hget with ⟨-, hl, hold, hdir⟩ | ⟨-, rfl⟩
    · apply (h.exact ref o hl hold).frame
      rw [dirAt_insert, if_neg hdir]
    · refine ⟨rfl, [], [firstHeld K SegmentConfig.default], ?_, ?_⟩
      · have hkept : Kept K name partitionId _ _ _ := kept_init SegmentConfig.default
        rw [init_eq] at hkept
        rw [dirAt_insert, if_pos rfl]
        exact hkept
      · intro k hk
        obtain rfl := List.mem_singleton.1 hk
        rfl
  · intro ref ref' o o' hlive hlive' hget hget' hdir
    rcases hcases ref o hlive hget with ⟨-, hl, hold, hne⟩ | ⟨href, rfl⟩
    · rcases hcases ref' o' hlive' hget' with ⟨-, hl', hold', -⟩ | ⟨-, rfl⟩
      · exact h.apart ref ref' o o' hl hl' hold hold' hdir
      · exact absurd hdir hne
    · rcases hcases ref' o' hlive' hget' with ⟨-, -, -, hne⟩ | ⟨href', -⟩
      · exact absurd hdir.symm hne
      · rw [href, href']
  · intro ref hlive
    simp only
    rcases hlive with hl | rfl
    · have := h.old ref hl
      omega
    · exact Nat.lt_succ_self _

/-- A partition whose files cannot be created leaves those in use alone. -/
theorem Sound.createFails (h : Sound K tm live) {path : Path} (hunused : Unused tm live path)
    {io : CreateIo} {name : String} {partitionId : Nat} {e : GaffaError} {tm' : TopicManager}
    (hfail : tm.createPartition io path name partitionId = (.error e, tm')) : Sound K tm' live := by
  unfold TopicManager.createPartition at hfail
  split at hfail
  · cases hfail
    exact h
  · cases hfail
    refine ⟨?_, h.apart, h.old⟩
    intro ref o hl hget
    apply (h.exact ref o hl hget).frame
    exact (dirAt_insert tm path o.dir _ tm.objects tm.nextObject).trans
      (if_neg (hunused.1 ref o hl hget))
  · cases hfail

/-- **A successful append** to a partition in use. -/
theorem Sound.append (hK : K.Lawful) (h : Sound K tm live) {io : PartitionIo}
    {messages : List Message} (hl : live ref) (hget : tm.objects.get ref = some o)
    (hfit : ∀ m ∈ messages, Fits K .none m) {n : Nat}
    (happ : (tm.appendTo K io messages ref o).1 = .ok n) :
    Sound K (tm.appendTo K io messages ref o).2 live := by
  obtain ⟨hconfig, acked, hs, hkept, hstraight⟩ := h.exact ref o hl hget
  obtain ⟨d, p', hres, heq⟩ := TopicManager.appendTo_eq happ
  rw [heq]
  obtain ⟨-, -, -, htopic, hpart, hconfig'⟩ := append_nextOffset hres
  obtain ⟨hs', hkept', hstraight'⟩ := hkept.append hK (by rw [hconfig]; exact hfit) hres
    (hkept.cursorSafe (t := ⟨tm.dirAt o.dir, some o.partition, acked⟩) hstraight _)
  -- every other partition in use has another directory
  have hcases : ∀ r q, live r → (tm.objects.insert ref { o with partition := p' }).get r = some q →
      (r = ref ∧ q = { o with partition := p' }) ∨
      (r ≠ ref ∧ tm.objects.get r = some q ∧ q.dir ≠ o.dir) := by
    intro r q hlr hr
    rw [Table.get_insert] at hr
    split at hr
    · rename_i heq
      cases hr
      exact Or.inl ⟨heq, rfl⟩
    · rename_i hne
      refine Or.inr ⟨hne, hr, ?_⟩
      intro hdir
      exact hne (h.apart r ref q o hlr hl hr hget hdir)
  constructor
  · intro r q hlr hr
    rcases hcases r q hlr hr with ⟨rfl, rfl⟩ | ⟨-, hold, hdir⟩
    · refine ⟨hconfig'.trans hconfig, acked ++ [(n, messages)], hs', ?_, hstraight' hstraight⟩
      simp only
      rw [htopic, hpart, dirAt_insert, if_pos rfl]
      exact hkept'
    · apply (h.exact r q hlr hold).frame
      rw [dirAt_insert, if_neg hdir]
  · intro r r' q q' hlr hlr' hr hr' hdir
    rcases hcases r q hlr hr with ⟨rfl, rfl⟩ | ⟨-, hold, hne⟩
    · rcases hcases r' q' hlr' hr' with ⟨rfl, -⟩ | ⟨-, -, hne'⟩
      · rfl
      · exact absurd hdir.symm hne'
    · rcases hcases r' q' hlr' hr' with ⟨-, rfl⟩ | ⟨-, hold', -⟩
      · exact absurd hdir hne
      · exact h.apart r r' q q' hlr hlr' hold hold' hdir
  · exact h.old

/-- An append without messages is refused and changes no partition. -/
theorem get_objects_refused {io : PartitionIo} (hget : tm.objects.get ref = some o) (r : Nat) :
    (tm.appendTo K io [] ref o).2.objects.get r = tm.objects.get r := by
  unfold TopicManager.appendTo
  simp only [Table.get_insert]
  split
  · rename_i hr
    rw [hr, hget]
    rfl
  · rfl

/-- Nor any file. -/
theorem dirAt_refused {io : PartitionIo} (o : PartitionObject) (path : Path) :
    (tm.appendTo K io [] ref o).2.dirAt path = tm.dirAt path := by
  refine (dirAt_insert tm o.dir path _ _ tm.nextObject).trans ?_
  split
  · rename_i hpath
    rw [hpath]
    rfl
  · rfl

theorem Sound.refused (h : Sound K tm live) {io : PartitionIo}
    (hget : tm.objects.get ref = some o) : Sound K (tm.appendTo K io [] ref o).2 live := by
  have hobjects : ∀ r, (tm.appendTo K io [] ref o).2.objects.get r = tm.objects.get r :=
    get_objects_refused hget
  constructor
  · intro r q hl hr
    rw [hobjects] at hr
    exact (h.exact r q hl hr).frame (dirAt_refused o q.dir)
  · intro r r' q q' hl hl' hr hr'
    rw [hobjects] at hr hr'
    exact h.apart r r' q q' hl hl' hr hr'
  · exact h.old

end Storage

theorem fits_of_framed {m : Message} (h : m.Framed) : Fits K .none m := by
  obtain ⟨hkey, hvalue⟩ := h
  unfold maxMessageSize at hkey hvalue
  constructor
  · intro key hm
    have := hkey key hm
    omega
  · intro z hz
    obtain rfl : m.value = z := Except.ok.inj hz
    have hlen : m.key.elim 0 List.length ≤ 10 * 1024 * 1024 := by
      cases hm : m.key with
      | none => exact Nat.zero_le _
      | some key => exact hkey key hm
    unfold bodySize
    simp only
    omega

/-! ## Steps of the server -/

/-- The messages that a task is going to append. -/
def Task.messages : Task → List Message
  | .findTopic _ _ messages => messages
  | .append _ _ _ messages => messages
  | _ => []

/-- A partition's files are created in an unused directory, and an append that gets to a partition
succeeds unless it has no messages. -/
def Task.Stores (K : Crates) (dirOf : String → Nat → Path) (io : StepIo) (s : ServerState) :
    Task → Prop
  | .createPartitions name partitions made => made.length < partitions →
    Unused s.server.topicManager (Live s) (dirOf name made.length)
  | .append handle _ partition messages => messages ≠ [] → ∀ ref ∈ handle.partitions[partition]?,
    ∀ o ∈ s.server.topicManager.objects.get ref,
      ∃ n, (s.server.topicManager.appendTo K io.append messages ref o).1 = .ok n
  | _ => True

/-- The condition on the storage along a run. -/
def StorageSound (K : Crates) (dirOf : String → Nat → Path) (s : ServerState) (e : ServerEvent)
    (_ : ServerState) : Prop :=
  ∀ id io, e = .advance id io → ∀ task ∈ s.tasks.get id, task.Stores K dirOf io s

/-- What a run keeps: partitions in use are exact, and messages to be appended fit a record. -/
structure StorageInvariant (K : Crates) (s : ServerState) : Prop where
  sound : Sound K s.server.topicManager (Live s)
  framed : ∀ id task, s.tasks.get id = some task → ∀ m ∈ task.messages, m.Framed

section Step

variable {s t : ServerState} {id : Nat} {io : StepIo} {task : Task} {progress : Progress}
  {srv srv' : Server}

/-- **A partition in use after a step** is in use before it, or the step has made it. -/
theorem live_of_step (htask : s.tasks.get id = some task)
    (hstep : TaskStep K dirOf overflowChecks io s.server task progress t.server)
    (htasks : t.tasks = settle id progress s.tasks) {ref : Nat} (h : Live t ref) :
    Live s ref ∨ (ref = s.server.topicManager.nextObject ∧ ∃ name partitions made,
      progress = .waits (.createPartitions name partitions
        (made ++ [s.server.topicManager.nextObject]))) := by
  have htaken : ∀ ref ∈ task.refs, Live s ref := fun ref href => Or.inr ⟨id, task, htask, href⟩
  rcases h with ⟨name, handle, hget, href⟩ | ⟨k, after, hafter, href⟩
  · rcases hstep.topics hget with hold | ⟨partitions, made, rfl, -, -, rfl⟩
    · exact Or.inl (Or.inl ⟨name, handle, hold, href⟩)
    · exact Or.inl (htaken ref href)
  · rw [htasks] at hafter
    rcases get_settle hafter with ⟨-, rfl⟩ | ⟨-, hold⟩
    · generalize t.server = srv at hstep
      cases hstep with
      | made name partitions made hlt =>
        rcases List.mem_append.1 href with href | href
        · exact Or.inl (htaken ref href)
        · exact Or.inr ⟨List.mem_singleton.1 href, name, partitions, made, rfl⟩
      | found topic partition messages handle hget =>
        exact Or.inl (Or.inl ⟨topic, handle, hget, href⟩)
      | fetching topic partition offset maxMessages handle hget =>
        exact Or.inl (Or.inl ⟨topic, handle, hget, href⟩)
      | _ => cases href
    · exact Or.inl (Or.inr ⟨k, after, hold, href⟩)

/-- **A step of a task** keeps the partitions in use exact. -/
theorem StorageInvariant.advance (hK : K.Lawful) (h : StorageInvariant K s)
    (htask : s.tasks.get id = some task) (hstores : task.Stores K dirOf io s)
    (hstep : TaskStep K dirOf overflowChecks io s.server task progress t.server)
    (htasks : t.tasks = settle id progress s.tasks) :
    Sound K t.server.topicManager (Live t) := by
  have hlive : ∀ ref, Live t ref → _ := fun ref => live_of_step htask hstep htasks
  have hold : (∀ name partitions made, progress ≠ .waits (.createPartitions name partitions
      (made ++ [s.server.topicManager.nextObject]))) → ∀ ref, Live t ref → Live s ref := by
    intro hnot ref hl
    rcases hlive ref hl with hl | ⟨-, name, partitions, made, hprogress⟩
    · exact hl
    · exact absurd hprogress (hnot name partitions made)
  generalize t.server = srv at hstep ⊢
  cases hstep with
  | notMade name partitions made e tm hlt hfail =>
    exact (h.sound.createFails (hstores hlt) hfail).mono (hold (by simp))
  | made name partitions made hlt =>
    apply (h.sound.create (hstores hlt) name made.length).mono
    intro ref hl
    exact (hlive ref hl).imp_right And.left
  | inserted name partitions made hle =>
    exact (h.sound.insertTopic ⟨name, made⟩).mono (hold (by simp))
  | notAppended handle topic partition messages response ref o hpart hget hfail hresponse =>
    by_cases hne : messages = []
    · subst hne
      exact (h.sound.refused hget).mono (hold (by simp))
    · obtain ⟨n, hn⟩ := hstores hne ref hpart o hget
      exact absurd hn (hfail n)
  | appended handle topic partition messages ref o base hpart hget happ =>
    have hl : Live s ref := Or.inr ⟨id, _, htask, List.mem_of_getElem? hpart⟩
    have hfit : ∀ m ∈ messages, Fits K .none m := by
      intro m hm
      exact fits_of_framed (h.framed id _ htask m hm)
    exact (h.sound.append hK hl hget hfit happ).mono (hold (by simp))
  | _ => exact h.sound.mono (hold (by simp))

/-- A task passes on the messages it was given. -/
theorem TaskStep.messages {after : Task}
    (hstep : TaskStep K dirOf overflowChecks io srv task (.waits after) srv') {m : Message}
    (hm : m ∈ after.messages) : m ∈ task.messages := by
  cases hstep with
  | found topic partition messages handle hget => exact hm
  | _ => cases hm

theorem messages_start {request : Request} {task : Task} (hframed : request.Framed)
    (h : start request = some task) : task.refs = [] ∧ ∀ m ∈ task.messages, m.Framed := by
  cases request with
  | produce topic partition messages =>
    cases h
    exact ⟨rfl, hframed.2⟩
  | createTopic name partitions =>
    cases h
    exact ⟨rfl, fun m hm => nomatch hm⟩
  | fetch topic partition offset maxMessages =>
    cases h
    exact ⟨rfl, fun m hm => nomatch hm⟩
  | _ => cases h

/-- **Every event** keeps the partitions in use exact. -/
theorem StorageInvariant.next (hK : K.Lawful) {e : ServerEvent} (h : StorageInvariant K s)
    (hstep : serverNext K dirOf overflowChecks s e = some t)
    (hsound : StorageSound K dirOf s e t) : StorageInvariant K t := by
  cases e with
  | receive id request =>
    obtain ⟨task, -, hframed, hstart, rfl⟩ := serverNext_receive hstep
    obtain ⟨hrefs, hmessages⟩ := messages_start hframed hstart
    constructor
    · apply h.sound.mono
      intro ref hl
      rcases hl with hl | ⟨id', task', htask', href⟩
      · exact Or.inl hl
      · simp only [Table.get_insert] at htask'
        split at htask'
        · cases htask'
          rw [hrefs] at href
          cases href
        · exact Or.inr ⟨id', task', htask', href⟩
    · intro id' task' htask'
      simp only [Table.get_insert] at htask'
      split at htask'
      · cases htask'
        exact hmessages
      · exact h.framed id' task' htask'
  | advance id io =>
    obtain ⟨task, progress, htask, -, hadvance, htasks⟩ := serverNext_step hstep
    constructor
    · exact h.advance hK htask (hsound id io rfl task htask) hadvance htasks
    · intro id' task' htask' m hm
      rw [htasks] at htask'
      rcases get_settle htask' with ⟨-, rfl⟩ | ⟨-, hold⟩
      · exact h.framed id task htask m (hadvance.messages hm)
      · exact h.framed id' task' hold m hm
  | registerBroker now brokerId host port =>
    cases hstep
    exact ⟨h.sound, h.framed⟩
  | updateReplicaOffset topic partition brokerId offset =>
    cases hstep
    exact ⟨h.sound, h.framed⟩

end Step

theorem storageInvariant_new (cluster : ClusterMetadata) (replicationFactor : Nat) :
    StorageInvariant K (ServerState.new cluster replicationFactor) := by
  have hlive : ∀ ref, ¬ Live (ServerState.new cluster replicationFactor) ref := by
    rintro ref (⟨name, u, hu, -⟩ | ⟨id, task, htask, -⟩)
    · cases hu
    · cases htask
  constructor
  · constructor
    · intro ref o hl
      exact absurd hl (hlive ref)
    · intro ref ref' o o' hl
      exact absurd hl (hlive ref)
    · intro ref hl
      exact absurd hl (hlive ref)
  · intro id task htask
    cases htask

/-! ## Committed records -/

/-- A `FetchSuccess` has records below the high watermark of its partition only. -/
def OnlyCommitted (K : Crates) (dirOf : String → Nat → Path) (overflowChecks : Bool)
    (s : ServerState) (e : ServerEvent) (_ : ServerState) : Prop :=
  ∀ topic partition records,
    answer K dirOf overflowChecks s e = some (.fetchSuccess topic partition records) →
    ∀ r ∈ records, r.offset < s.server.cluster.getHighWatermark topic partition

/-- A fetch that gets to a partition asks for nothing that the log has and the high watermark has
not reached. -/
def FetchCommitted (s : ServerState) (e : ServerEvent) (_ : ServerState) : Prop :=
  ∀ id io, e = .advance id io → ∀ handle topic partition offset maxMessages,
    s.tasks.get id = some (.fetch handle topic partition offset maxMessages) →
    ∀ ref ∈ handle.partitions[partition]?, ∀ o ∈ s.server.topicManager.objects.get ref,
      maxMessages = 0 ∨ o.partition.nextOffset ≤ offset ∨
        min (offset + maxMessages) o.partition.nextOffset ≤
          s.server.cluster.getHighWatermark topic partition

/-- Records are sent by the last step of a `Fetch` only. -/
theorem fetch_of_ends {task : Task} {io : StepIo} {srv : Server} {topic : String}
    {partition : Nat} {records : List Record}
    (h : (task.advance K dirOf overflowChecks io srv).1 =
      .ends (some (.fetchSuccess topic partition records))) :
    ∃ handle offset maxMessages, task = .fetch handle topic partition offset maxMessages ∧
      ∃ ref ∈ handle.partitions[partition]?, ∃ o ∈ srv.topicManager.objects.get ref,
        srv.topicManager.fetchFrom K offset maxMessages o = .ok records := by
  have hstep : TaskStep K dirOf overflowChecks io srv task _ _ := advance_step io srv task
  generalize (task.advance K dirOf overflowChecks io srv).2 = srv' at hstep
  generalize (task.advance K dirOf overflowChecks io srv).1 = progress at h hstep
  cases hstep with
  | fetched handle topic' partition' offset maxMessages =>
    rcases read_cases K handle topic' partition' offset maxMessages srv with
      hnone | ⟨e, herror⟩ | ⟨ref, o, records', hpart, hget, hfetch, hread⟩
    · rw [hnone] at h
      cases h
    · rw [herror] at h
      cases h
    · rw [hread] at h
      cases h
      exact ⟨handle, offset, maxMessages, rfl, ref, hpart, o, hget, hfetch⟩
  | noPartition handle topic' partition' messages response hnone hresponse =>
    rcases hresponse with rfl | ⟨e, rfl⟩ <;> cases h
  | notAppended handle topic' partition' messages response ref o hpart hget hfail hresponse =>
    rcases hresponse with rfl | ⟨e, rfl⟩ <;> cases h
  | updated topic' partition' base count finalOffset response hsum hresponse =>
    rcases hresponse with rfl | rfl <;> cases h
  | _ => cases h

theorem ends_of_fetch {handle : Topic} {io : StepIo} {srv : Server} {topic : String}
    {partition offset maxMessages ref : Nat} {o : PartitionObject} {records : List Record}
    (href : handle.partitions[partition]? = some ref)
    (hget : srv.topicManager.objects.get ref = some o)
    (hfetch : srv.topicManager.fetchFrom K offset maxMessages o = .ok records) :
    (Task.advance K dirOf overflowChecks io srv
      (.fetch handle topic partition offset maxMessages)).1 =
      .ends (some (.fetchSuccess topic partition records)) := by
  have hpart : handle.getPartition partition = .ok ref := by
    unfold Topic.getPartition
    rw [href]
  simp only [Task.advance, Task.read, hpart, hget, hfetch, respond]

/-- **One event** sends committed records only, exactly when its fetch asks for nothing else. -/
theorem onlyCommitted_iff {s t : ServerState} {e : ServerEvent} (h : StorageInvariant K s) :
    OnlyCommitted K dirOf overflowChecks s e t ↔ FetchCommitted s e t := by
  -- what a task that has got to a partition sends
  have hrecords : ∀ (handle : Topic) (partition ref : Nat) (o : PartitionObject) (id : Nat)
      (task : Task), s.tasks.get id = some task → ref ∈ task.refs →
      s.server.topicManager.objects.get ref = some o → ∃ messages : List Message,
        o.partition.nextOffset = messages.length ∧ ∀ offset maxMessages,
          s.server.topicManager.fetchFrom K offset maxMessages o =
            .ok (((referenceFrom o.partition.topicName o.partition.partitionId 0 messages).drop
              offset).take maxMessages) := by
    intro handle partition ref o id task htask href hget
    exact (h.sound.exact ref o (Or.inr ⟨id, task, htask, href⟩) hget).fetch
  constructor
  · rintro hcommitted id io rfl handle topic partition offset maxMessages htask ref href o hget
    obtain ⟨messages, hlen, hfetch⟩ :=
      hrecords handle partition ref o id _ htask (List.mem_of_getElem? href) hget
    rw [hlen, ← forall_fetched_iff o.partition.topicName o.partition.partitionId messages]
    apply hcommitted topic partition
    simp only [answer, htask, ends_of_fetch href hget (hfetch offset maxMessages)]
  · intro hfetched topic partition records hanswer
    cases e with
    | advance id io =>
      simp only [answer] at hanswer
      split at hanswer
      · cases hanswer
      · rename_i task htask
        split at hanswer
        · cases hanswer
        · rename_i response hends
          subst hanswer
          obtain ⟨handle, offset, maxMessages, rfl, ref, href, o, hget, hok⟩ :=
            fetch_of_ends hends
          obtain ⟨messages, hlen, hfetch⟩ :=
            hrecords handle partition ref o id _ htask (List.mem_of_getElem? href) hget
          rw [hfetch] at hok
          cases hok
          rw [forall_fetched_iff, ← hlen]
          exact hfetched id io rfl handle topic partition offset maxMessages htask ref href o hget
    | receive id request => cases hanswer
    | registerBroker now brokerId host port => cases hanswer
    | updateReplicaOffset topic partition brokerId offset => cases hanswer

/-- **What consumers see of a run**: committed records only, exactly when no fetch asks for an
offset that the log has and the high watermark has not reached. -/
theorem fetch_committed_iff (hK : K.Lawful) (cluster : ClusterMetadata) (replicationFactor : Nat)
    {tr : List (ServerEvent × ServerState)}
    (hrun : Run (Steps (serverNext K dirOf overflowChecks))
      (ServerState.new cluster replicationFactor) tr)
    (hsound : EachStep (StorageSound K dirOf) (ServerState.new cluster replicationFactor) tr) :
    EachStep (OnlyCommitted K dirOf overflowChecks)
        (ServerState.new cluster replicationFactor) tr ↔
      EachStep FetchCommitted (ServerState.new cluster replicationFactor) tr := by
  refine eachStep_iff (I := StorageInvariant K) ?_ ?_
    (storageInvariant_new cluster replicationFactor) (hrun.and hsound)
  · intro s e t h hstep _
    exact h.next hK hstep.1 hstep.2
  · intro s e t h _
    exact onlyCommitted_iff h

/-! ## A run with a follower -/

instance decidableLive (s : ServerState) (ref : Nat) : Decidable (Live s ref) :=
  decidable_of_iff ((∃ name ∈ s.server.topicManager.topics.keys,
      ∃ t ∈ s.server.topicManager.topics.get name, ref ∈ t.partitions) ∨
    ∃ id ∈ s.tasks.keys, ∃ task ∈ s.tasks.get id, ref ∈ task.refs) (by
    constructor
    · rintro (⟨name, -, t, ht, href⟩ | ⟨id, -, task, htask, href⟩)
      · exact Or.inl ⟨name, t, ht, href⟩
      · exact Or.inr ⟨id, task, htask, href⟩
    · rintro (⟨name, t, ht, href⟩ | ⟨id, task, htask, href⟩)
      · exact Or.inl ⟨name, Table.mem_keys_iff.2 ⟨t, ht⟩, t, ht, href⟩
      · exact Or.inr ⟨id, Table.mem_keys_iff.2 ⟨task, htask⟩, task, htask, href⟩)

instance decidableUnused (tm : TopicManager) (live : Nat → Prop) [DecidablePred live]
    (path : Path) : Decidable (Unused tm live path) :=
  decidable_of_iff ((∀ ref ∈ tm.objects.keys, ∀ o ∈ tm.objects.get ref, live ref → o.dir ≠ path) ∧
    ∀ name ∈ (tm.dirAt path).keys, ∀ bytes ∈ (tm.dirAt path).get name,
      (name = logPath 0 ∨ name = indexPath 0) ∧ bytes = []) (by
    constructor
    · rintro ⟨hdir, hfile⟩
      constructor
      · intro ref o hl hget
        exact hdir ref (Table.mem_keys_iff.2 ⟨o, hget⟩) o hget hl
      · intro name bytes hget
        exact hfile name (Table.mem_keys_iff.2 ⟨bytes, hget⟩) bytes hget
    · rintro ⟨hdir, hfile⟩
      constructor
      · intro ref _ o hget hl
        exact hdir ref o hl hget
      · intro name _ bytes hget
        exact hfile name bytes hget)

instance decidableStores (io : StepIo) (s : ServerState) :
    ∀ task : Task, Decidable (task.Stores K dirOf io s)
  | .createPartitions .. => inferInstanceAs (Decidable (_ → _))
  | .append handle _ partition messages =>
    have (x : Except Fault Nat) : Decidable (∃ n, x = .ok n) :=
      decidable_of_iff (x.isOk = true) (by cases x <;> simp [Except.isOk, Except.toBool])
    inferInstanceAs (Decidable (messages ≠ [] → ∀ ref ∈ handle.partitions[partition]?,
      ∀ o ∈ s.server.topicManager.objects.get ref,
        ∃ n, (s.server.topicManager.appendTo K io.append messages ref o).1 = .ok n))
  | .checkTopic .. => isTrue trivial
  | .assignReplicas .. => isTrue trivial
  | .findTopic .. => isTrue trivial
  | .updateLeader .. => isTrue trivial
  | .findFetched .. => isTrue trivial
  | .fetch .. => isTrue trivial

instance decidableStorageSound (s : ServerState) :
    ∀ (e : ServerEvent) (t : ServerState), Decidable (StorageSound K dirOf s e t)
  | .advance id io, _ =>
    decidable_of_iff (∀ task ∈ s.tasks.get id, task.Stores K dirOf io s) (by
      constructor
      · rintro h id' io' he
        cases he
        exact h
      · intro h
        exact h id io rfl)
  | .receive .., _ => isTrue fun _ _ he => nomatch he
  | .registerBroker .., _ => isTrue fun _ _ he => nomatch he
  | .updateReplicaOffset .., _ => isTrue fun _ _ he => nomatch he

/-- A step of a healthy server with two brokers. -/
def plainStep (id : Nat) (order : List BrokerId) : ServerEvent :=
  .advance id ⟨.done, .done, 1000, order⟩

/-- A topic with one partition on two brokers is created. -/
def createOrders : List ServerEvent :=
  [.registerBroker 0 0 "localhost" 9092, .registerBroker 0 1 "localhost" 9093,
    .receive 0 (.createTopic "orders" 1), plainStep 0 [0, 1], plainStep 0 [0, 1],
    plainStep 0 [0, 1], plainStep 0 [0, 1], plainStep 0 [0, 1]]

/-- A message is produced, and fetched before the second broker has it. -/
def earlyFetch : List ServerEvent :=
  createOrders ++
  [.receive 1 (.produce "orders" 0 [oneByte 7]), plainStep 1 [0, 1], plainStep 1 [0, 1],
    plainStep 1 [0, 1], .receive 2 (.fetch "orders" 0 0 10), plainStep 2 [0, 1],
    plainStep 2 [0, 1]]

theorem fetch_committed_iff_early :
    ∃ tr, trace (serverNext plainCrates plainDir true)
        (ServerState.new (ClusterMetadata.new 0 30000 10) 2) earlyFetch = some tr ∧
      (EachStep (OnlyCommitted plainCrates plainDir true)
          (ServerState.new (ClusterMetadata.new 0 30000 10) 2) tr ↔
        EachStep FetchCommitted (ServerState.new (ClusterMetadata.new 0 30000 10) 2) tr) := by
  obtain ⟨tr, htr, hsound⟩ := Option.map_eq_some_iff.1 (show
    (trace (serverNext plainCrates plainDir true)
      (ServerState.new (ClusterMetadata.new 0 30000 10) 2) earlyFetch).map (fun tr => decide
        (EachStep (StorageSound plainCrates plainDir)
          (ServerState.new (ClusterMetadata.new 0 30000 10) 2) tr)) = some true by decide +kernel)
  exact ⟨tr, htr, fetch_committed_iff plainCrates_lawful (ClusterMetadata.new 0 30000 10) 2
    (run_of_trace htr) (of_decide_eq_true hsound)⟩

/-- `OnlyCommitted`, of a response. -/
def committedIn (c : ClusterMetadata) : Option Response → Bool
  | some (.fetchSuccess topic partition records) =>
    records.all fun r => r.offset < c.getHighWatermark topic partition
  | _ => true

instance decidableOnlyCommitted (s : ServerState) (e : ServerEvent) (t : ServerState) :
    Decidable (OnlyCommitted K dirOf overflowChecks s e t) :=
  decidable_of_iff (committedIn s.server.cluster (answer K dirOf overflowChecks s e) = true) (by
    unfold OnlyCommitted committedIn
    split
    · rename_i topic partition records heq
      rw [heq]
      simp
    · rename_i hne
      refine iff_of_true rfl ?_
      intro topic partition records heq
      exact absurd heq (hne topic partition records))

/-- The message is sent at offset 0 while the high watermark is 0. -/
theorem uncommitted_fetched : ¬ ∀ tr : List (ServerEvent × ServerState),
    Run (Steps (serverNext plainCrates plainDir true))
      (ServerState.new (ClusterMetadata.new 0 30000 10) 2) tr →
    EachStep (OnlyCommitted plainCrates plainDir true)
      (ServerState.new (ClusterMetadata.new 0 30000 10) 2) tr := by
  intro h
  obtain ⟨tr, htr, hbad⟩ := Option.map_eq_some_iff.1 (show
    (trace (serverNext plainCrates plainDir true)
      (ServerState.new (ClusterMetadata.new 0 30000 10) 2) earlyFetch).map (fun tr => decide
        (EachStep (OnlyCommitted plainCrates plainDir true)
          (ServerState.new (ClusterMetadata.new 0 30000 10) 2) tr)) = some false by decide +kernel)
  exact of_decide_eq_false hbad (h tr (run_of_trace htr))

end Gaffa
