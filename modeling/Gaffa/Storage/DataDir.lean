import Gaffa.Lib.DirTree
import Gaffa.Lib.Text
import Gaffa.Storage.PartitionAppend

/-!
# The data directory

`storage/src/topic.rs`, with the directories that topics are made in and opened from.  A topic is
created under its name, which is joined to the data directory as a path; it is opened again under
the name of the directory entry that is found.

* `createTopic_cases`, `newTopic_spec`: what a creation makes.
* `append_cases`: an append changes one partition and the files of its directory.
* `openTopics_spec`: which entries of the data directory are served after a restart.
-/

set_option autoImplicit false

namespace Gaffa

open ByteString FileSystem DirTree Text LogSegment

/-- What `format!("partition-{}", id)` starts with. -/
def partitionPrefix : Name := ['p', 'a', 'r', 't', 'i', 't', 'i', 'o', 'n', '-']

/-- `format!("partition-{}", id)`. -/
def partitionName (id : Nat) : Name := partitionPrefix ++ digits id

/-- The number that `Topic::open` reads from the name of an entry. -/
def partitionId (name : Name) : Option Nat :=
  if partitionPrefix <+: name then parseUnsigned 32 (name.drop partitionPrefix.length) else none

/-- Where a path that is joined to the data directory starts: an absolute one replaces it. -/
def joinStart (dataDir : Location) (name : String) : Location :=
  if name.toList.head? = some '/' then [] else dataDir

/-- `data_dir.join(name)`, resolved. -/
def topicDir (dataDir : Location) (name : String) : Location :=
  resolve (joinStart dataDir name) (components name.toList)

/-- The components that `Partition::partition_dir` joins to the data directory. -/
def partitionPath (name : String) (id : Nat) : List Name :=
  components name.toList ++ [partitionName id]

/-- `Partition`, with its `data_dir`. -/
structure StoredPartition where
  dir : Location
  partition : Partition
  deriving DecidableEq

/-- `Topic`. -/
structure StoredTopic where
  name : String
  partitions : List StoredPartition
  deriving DecidableEq

namespace StoredTopic

/-- `Topic::num_partitions`. -/
def numPartitions (t : StoredTopic) : Nat := t.partitions.length % 2 ^ 32

/-- `Topic::get_partition`. -/
def getPartition (t : StoredTopic) (partitionId : Nat) : Except GaffaError StoredPartition :=
  match t.partitions[partitionId]? with
  | some p => .ok p
  | none => .error (.partitionNotFound t.name partitionId)

end StoredTopic

/-- `TopicManager`, with the file system. -/
structure TopicStore where
  topics : Table String StoredTopic
  tree : Tree

/-- The file system's answers to one `Partition::with_config`. -/
structure SetupIo where
  mkdir : MkdirIo
  files : CreateIo
  deriving DecidableEq, Repr

def SetupIo.done : SetupIo := ⟨.done, .done⟩

namespace TopicStore

/-! ## Creating -/

/-- The files of a segment are not opened where a directory has their name. -/
def unlessDir (t : Tree) (dir : Location) (baseOffset : Nat) (io : CreateIo) : CreateIo :=
  match io with
  | .logFails e => .logFails e
  | .indexFails e =>
    if isDir t (dir ++ [logPath baseOffset]) then .logFails "Is a directory (os error 21)"
    else .indexFails e
  | .done =>
    if isDir t (dir ++ [logPath baseOffset]) then .logFails "Is a directory (os error 21)"
    else if isDir t (dir ++ [indexPath baseOffset]) then .indexFails "Is a directory (os error 21)"
    else .done

/-- `create_dir_all(&partition_dir)`. -/
def makePartitionDir (io : MkdirIo) (dataDir : Location) (name : String) (id : Nat) (t : Tree) :
    Except GaffaError Location × Tree :=
  match io with
  | .fails after e =>
    (.error (.io e),
      (mkdirAll (joinStart dataDir name) ((partitionPath name id).dropLast.take after) t).2)
  | .done =>
    match mkdirAll (joinStart dataDir name) (partitionPath name id) t with
    | (some dir, t) => (.ok dir, t)
    | (none, t) => (.error (.io "Not a directory (os error 20)"), t)

/-- One iteration of `Topic::new`. -/
def createPartition (io : SetupIo) (dataDir : Location) (name : String) (id : Nat) (t : Tree) :
    Except GaffaError StoredPartition × Tree :=
  match makePartitionDir io.mkdir dataDir name id t with
  | (.error e, t) => (.error e, t)
  | (.ok dir, t) =>
    match unlessDir t dir 0 io.files with
    | .logFails e => (.error (.io e), t)
    | .indexFails e => (.error (.io e), t.insert dir (touch (logPath 0) (files t dir)))
    | .done =>
      let r := Partition.withConfig name id SegmentConfig.default (files t dir)
      (.ok ⟨dir, r.2⟩, t.insert dir r.1)

/-- The loop of `Topic::new`. -/
def newTopic (io : Nat → SetupIo) (dataDir : Location) (name : String) :
    List Nat → Tree → Except GaffaError (List StoredPartition) × Tree
  | [], t => (.ok [], t)
  | id :: rest, t =>
    match createPartition (io id) dataDir name id t with
    | (.error e, t) => (.error e, t)
    | (.ok p, t) =>
      match newTopic io dataDir name rest t with
      | (.error e, t) => (.error e, t)
      | (.ok ps, t) => (.ok (p :: ps), t)

/-- `TopicManager::create_topic`. -/
def createTopic (io : Nat → SetupIo) (dataDir : Location) (name : String) (partitions : Nat)
    (s : TopicStore) : Except GaffaError StoredTopic × TopicStore :=
  if (s.topics.get name).isSome then
    (.error (.invalidMessage ("Topic '" ++ name ++ "' already exists")), s)
  else
    match newTopic io dataDir name (List.range partitions) s.tree with
    | (.error e, t) => (.error e, { s with tree := t })
    | (.ok ps, t) => (.ok ⟨name, ps⟩, ⟨s.topics.insert name ⟨name, ps⟩, t⟩)

/-! ## Serving -/

/-- `TopicManager::get_topic`. -/
def getTopic (name : String) (s : TopicStore) : Except GaffaError StoredTopic :=
  match s.topics.get name with
  | some t => .ok t
  | none => .error (.topicNotFound name)

/-- `get_topic`, then `get_partition`. -/
def find (name : String) (id : Nat) (s : TopicStore) :
    Except GaffaError (StoredTopic × StoredPartition) :=
  match s.getTopic name with
  | .error e => .error e
  | .ok topic =>
    match topic.getPartition id with
    | .error e => .error e
    | .ok p => .ok (topic, p)

/-- `Partition::append` in its directory. -/
def appendTo (K : Crates) (io : PartitionIo) (messages : List Message) (t : Tree)
    (p : StoredPartition) : Except Fault Nat × Tree × StoredPartition :=
  let io := { io with create := unlessDir t p.dir p.partition.nextOffset io.create }
  let r := Partition.append K io messages (files t p.dir) p.partition
  (r.1, t.insert p.dir r.2.1, { p with partition := r.2.2 })

/-- `Topic::append` on a topic of the manager. -/
def append (K : Crates) (io : PartitionIo) (messages : List Message) (name : String) (id : Nat)
    (s : TopicStore) : Except Fault Nat × TopicStore :=
  match s.find name id with
  | .error e => (.error (.error e), s)
  | .ok (topic, p) =>
    let r := appendTo K io messages s.tree p
    (r.1, ⟨s.topics.insert name { topic with partitions := topic.partitions.set id r.2.2 }, r.2.1⟩)

/-- `Topic::fetch` on a topic of the manager. -/
def fetch (K : Crates) (name : String) (id offset maxMessages : Nat) (s : TopicStore) :
    Except Fault (List Record) :=
  match s.find name id with
  | .error e => .error (.error e)
  | .ok (_, p) => p.partition.fetch K (files s.tree p.dir) offset maxMessages

/-- `Partition::next_offset` of a partition of the manager. -/
def nextOffset (name : String) (id : Nat) (s : TopicStore) : Except GaffaError Nat :=
  match s.find name id with
  | .error e => .error e
  | .ok (_, p) => .ok p.partition.nextOffset

/-! ## Opening -/

/-- `Partition::open`. -/
def openPartition (K : Crates) (listing : Listing) (t : Tree) (dataDir : Location) (name : String)
    (id : Nat) : Except Fault StoredPartition :=
  let dir := topicDir dataDir name ++ [partitionName id]
  if isDir t dir then
    match Partition.openWithConfig K name id SegmentConfig.default (listing dir) (files t dir) with
    | .error e => .error e
    | .ok p => .ok ⟨dir, p⟩
  else .error noSuchFile

/-- The last loop of `Topic::open`. -/
def openPartitions (K : Crates) (listing : Listing) (t : Tree) (dataDir : Location)
    (name : String) : List Nat → Except Fault (List StoredPartition)
  | [] => .ok []
  | id :: rest =>
    match openPartition K listing t dataDir name id with
    | .error e => .error e
    | .ok p =>
      match openPartitions K listing t dataDir name rest with
      | .error e => .error e
      | .ok ps => .ok (p :: ps)

/-- The numbers of the partition directories that `Topic::open` finds, sorted. -/
def partitionIds (listing : Listing) (t : Tree) (dir : Location) : List Nat :=
  (((listing dir).filter fun name => isDir t (dir ++ [name])).filterMap partitionId).mergeSort

/-- `Topic::open`. -/
def openTopic (K : Crates) (listing : Listing) (t : Tree) (dataDir : Location) (name : String) :
    Except Fault StoredTopic :=
  match partitionIds listing t (topicDir dataDir name) with
  | [] => .error (.error (.storage ("No partitions found for topic: " ++ name)))
  | ids =>
    match openPartitions K listing t dataDir name ids with
    | .error e => .error e
    | .ok ps => .ok ⟨name, ps⟩

/-- The loop of `TopicManager::open`; a topic that cannot be opened is skipped. -/
def openTopics (K : Crates) (listing : Listing) (t : Tree) (dataDir : Location) :
    List Name → Table String StoredTopic → Except Fault (Table String StoredTopic)
  | [], topics => .ok topics
  | entry :: rest, topics =>
    if isDir t (dataDir ++ [entry]) then
      match openTopic K listing t dataDir (String.ofList entry) with
      | .ok topic =>
        openTopics K listing t dataDir rest (topics.insert (String.ofList entry) topic)
      | .error (.error _) => openTopics K listing t dataDir rest topics
      | .error (.panic m) => .error (.panic m)
    else openTopics K listing t dataDir rest topics

/-- `TopicManager::open`. -/
def open_ (K : Crates) (listing : Listing) (dataDir : Location) (t : Tree) :
    Except Fault TopicStore :=
  if isDir t dataDir then
    match openTopics K listing t dataDir (listing dataDir) Table.empty with
    | .error e => .error e
    | .ok topics => .ok ⟨topics, t⟩
  else .ok ⟨Table.empty, t⟩

end TopicStore

/-! ## Names -/

theorem partitionName_inj {i j : Nat} : partitionName i = partitionName j ↔ i = j := by
  constructor
  · intro h
    have hdigits : digits i = digits j := List.append_cancel_left h
    rw [← ofDigitChars_digits i, hdigits, ofDigitChars_digits]
  · rintro rfl
    rfl

theorem partitionId_partitionName {id : Nat} (h : id < 2 ^ 32) :
    partitionId (partitionName id) = some id := by
  unfold partitionId partitionName
  rw [if_pos (List.prefix_append ..), List.drop_left, parseUnsigned_digits h]

theorem normal_partitionName (id : Nat) : Normal (partitionName id) := by
  unfold partitionName partitionPrefix
  exact ⟨by simp, by simp, by simp⟩

theorem slash_not_mem_partitionName (id : Nat) : '/' ∉ partitionName id := by
  unfold partitionName
  rw [List.mem_append, not_or]
  exact ⟨by decide, not_mem_digits (by decide)⟩

/-- The name of a directory entry. -/
def Plain (name : String) : Prop := Normal name.toList ∧ '/' ∉ name.toList

instance decidablePlain (name : String) : Decidable (Plain name) :=
  inferInstanceAs (Decidable (_ ∧ _))

theorem Plain.joinStart {name : String} (h : Plain name) (dataDir : Location) :
    joinStart dataDir name = dataDir := by
  apply if_neg
  intro hhead
  exact h.2 (List.mem_of_mem_head? hhead)

theorem Plain.topicDir {name : String} (h : Plain name) (dataDir : Location) :
    topicDir dataDir name = dataDir ++ [name.toList] := by
  unfold Gaffa.topicDir
  rw [h.joinStart, components_plain h.2, resolve_normal dataDir h.1]

theorem Plain.partitionPath {name : String} (h : Plain name) (id : Nat) :
    partitionPath name id = [name.toList, partitionName id] := by
  unfold Gaffa.partitionPath
  rw [components_plain h.2]
  rfl

theorem resolve_partitionPath (dataDir : Location) (name : String) (id : Nat) :
    resolve (joinStart dataDir name) (partitionPath name id) =
      topicDir dataDir name ++ [partitionName id] := by
  unfold partitionPath
  rw [resolve_append, resolve_normal _ (normal_partitionName id), topicDir]

theorem slash_not_mem_partitionPath {name : String} {id : Nat} :
    ∀ component ∈ partitionPath name id, '/' ∉ component := by
  intro component hmem
  rcases List.mem_append.1 hmem with hmem | hmem
  · exact not_mem_components component hmem
  · rw [List.mem_singleton.1 hmem]
    exact slash_not_mem_partitionName id

namespace TopicStore

/-! ## What a creation makes -/

/-- The partition that `Partition::with_config` returns. -/
def freshPartition (dataDir : Location) (name : String) (id : Nat) : StoredPartition :=
  ⟨topicDir dataDir name ++ [partitionName id],
    ⟨name, id, [createdSegment SegmentConfig.default 0], SegmentConfig.default⟩⟩

/-- The topic that `Topic::new` returns. -/
def freshTopic (dataDir : Location) (name : String) (partitions : Nat) : StoredTopic :=
  ⟨name, (List.range partitions).map (freshPartition dataDir name)⟩

section Create

variable {dataDir : Location} {name : String} {id : Nat} {t t' : Tree}

theorem makePartitionDir_ok {io : MkdirIo} {dir : Location}
    (h : makePartitionDir io dataDir name id t = (.ok dir, t')) :
    dir = topicDir dataDir name ++ [partitionName id] ∧ io = .done ∧
      t' = (mkdirAll (joinStart dataDir name) (partitionPath name id) t).2 := by
  unfold makePartitionDir at h
  split at h
  · cases h
  · split at h
    · rename_i t'' heq
      cases h
      refine ⟨?_, rfl, by rw [heq]⟩
      rw [← resolve_partitionPath]
      exact mkdirAll_location (congrArg Prod.fst heq)
    · cases h

/-- Making the directory, or failing to, is making the directories of some path. -/
theorem makePartitionDir_tree (io : MkdirIo) (dataDir : Location) (name : String) (id : Nat)
    (t : Tree) : ∃ names, (∀ component ∈ names, '/' ∉ component) ∧
      (makePartitionDir io dataDir name id t).2 = (mkdirAll (joinStart dataDir name) names t).2 := by
  unfold makePartitionDir
  split
  · refine ⟨_, ?_, rfl⟩
    intro component hmem
    exact slash_not_mem_partitionPath component
      (List.mem_of_mem_dropLast (List.mem_of_mem_take hmem))
  · refine ⟨partitionPath name id, slash_not_mem_partitionPath, ?_⟩
    split
    · rename_i heq
      rw [heq]
    · rename_i heq
      rw [heq]

theorem createPartition_ok {io : SetupIo} {p : StoredPartition}
    (h : createPartition io dataDir name id t = (.ok p, t')) :
    p = freshPartition dataDir name id := by
  unfold createPartition at h
  split at h
  · cases h
  · rename_i hdir
    split at h
    · cases h
    · cases h
    · cases h
      rw [(makePartitionDir_ok hdir).1]
      rfl

theorem newTopic_ok {io : Nat → SetupIo} : ∀ {ids : List Nat} {t : Tree}
    {ps : List StoredPartition}, newTopic io dataDir name ids t = (.ok ps, t') →
      ps = ids.map (freshPartition dataDir name)
  | [], _, _, h => by
    cases h
    rfl
  | id :: ids, t, ps, h => by
    unfold newTopic at h
    split at h
    · cases h
    · rename_i p _ hp
      split at h
      · cases h
      · rename_i ps' _ hps
        cases h
        rw [createPartition_ok hp, newTopic_ok hps]
        rfl

theorem createPartition_grows (io : SetupIo) (dataDir : Location) (name : String) (id : Nat)
    (t : Tree) : Grows t (createPartition io dataDir name id t).2 := by
  obtain ⟨names, hnames, htree⟩ := makePartitionDir_tree io.mkdir dataDir name id t
  have hmkdir : Grows t (makePartitionDir io.mkdir dataDir name id t).2 := by
    rw [htree]
    exact grows_mkdirAll _ t hnames
  unfold createPartition
  cases hdir : makePartitionDir io.mkdir dataDir name id t with
  | mk out t' =>
    rw [hdir] at hmkdir
    cases out with
    | error e => exact hmkdir
    | ok dir =>
      have hinsert : ∀ content, Grows t (t'.insert dir content) := by
        intro content
        rw [(makePartitionDir_ok hdir).1]
        exact hmkdir.trans (grows_insert
          ⟨normal_partitionName id, slash_not_mem_partitionName id⟩ content t')
      simp only
      split
      · exact hmkdir
      · exact hinsert _
      · exact hinsert _

theorem createPartition_isDir {io : SetupIo} {p : StoredPartition}
    (h : createPartition io dataDir name id t = (.ok p, t')) : isDir t' p.dir = true := by
  unfold createPartition at h
  split at h
  · cases h
  · split at h
    · cases h
    · cases h
    · cases h
      rw [isDir_insert, decide_eq_true rfl, Bool.true_or]

theorem newTopic_grows (io : Nat → SetupIo) (dataDir : Location) (name : String) :
    ∀ (ids : List Nat) (t : Tree), Grows t (newTopic io dataDir name ids t).2
  | [], t => Grows.refl t
  | id :: ids, t => by
    have hfirst := createPartition_grows (io id) dataDir name id t
    unfold newTopic
    split
    · rename_i heq
      rw [heq] at hfirst
      exact hfirst
    · rename_i p t₁ heq
      rw [heq] at hfirst
      have hrest := newTopic_grows io dataDir name ids t₁
      split
      · rename_i heq'
        rw [heq'] at hrest
        exact hfirst.trans hrest
      · rename_i heq'
        rw [heq'] at hrest
        exact hfirst.trans hrest

theorem newTopic_isDir {io : Nat → SetupIo} : ∀ {ids : List Nat} {t : Tree}
    {ps : List StoredPartition}, newTopic io dataDir name ids t = (.ok ps, t') →
      ∀ p ∈ ps, isDir t' p.dir = true
  | [], _, _, h, p, hp => by
    cases h
    cases hp
  | id :: ids, t, ps, h, p, hp => by
    unfold newTopic at h
    split at h
    · cases h
    · rename_i p' t₁ hfirst
      split at h
      · cases h
      · rename_i ps' t₂ hrest
        cases h
        rcases List.mem_cons.1 hp with rfl | hp
        · have hgrows := newTopic_grows io dataDir name ids t₁
          rw [hrest] at hgrows
          exact hgrows.kept _ (createPartition_isDir hfirst)
        · exact newTopic_isDir hrest p hp

/-- **A creation** is refused, fails, or adds the topic. -/
theorem createTopic_cases (io : Nat → SetupIo) (dataDir : Location) (name : String)
    (partitions : Nat) (s : TopicStore) :
    ((∃ topic, s.topics.get name = some topic) ∧
      ∃ e, createTopic io dataDir name partitions s = (.error e, s)) ∨
    (s.topics.get name = none ∧ ∃ e t,
      newTopic io dataDir name (List.range partitions) s.tree = (.error e, t) ∧
      createTopic io dataDir name partitions s = (.error e, { s with tree := t })) ∨
    (s.topics.get name = none ∧ ∃ ps t,
      newTopic io dataDir name (List.range partitions) s.tree = (.ok ps, t) ∧
      createTopic io dataDir name partitions s =
        (.ok (freshTopic dataDir name partitions),
          ⟨s.topics.insert name (freshTopic dataDir name partitions), t⟩)) := by
  unfold createTopic
  split
  · rename_i hsome
    exact Or.inl ⟨Option.isSome_iff_exists.1 hsome, _, rfl⟩
  · rename_i hnone
    have hnone := Option.not_isSome_iff_eq_none.1 hnone
    split
    · rename_i e t heq
      exact Or.inr (Or.inl ⟨hnone, e, t, heq, rfl⟩)
    · rename_i ps t heq
      refine Or.inr (Or.inr ⟨hnone, ps, t, heq, ?_⟩)
      rw [newTopic_ok heq]
      rfl

end Create

/-! ## What an append changes -/

theorem find_ok_iff {name : String} {id : Nat} {s : TopicStore} {topic : StoredTopic}
    {p : StoredPartition} :
    s.find name id = .ok (topic, p) ↔
      s.topics.get name = some topic ∧ topic.partitions[id]? = some p := by
  unfold find getTopic
  cases hget : s.topics.get name with
  | none => simp
  | some topic' =>
    simp only [Option.some_inj]
    unfold StoredTopic.getPartition
    cases hpart : topic'.partitions[id]? with
    | none =>
      refine iff_of_false (by simp) ?_
      rintro ⟨rfl, hp⟩
      rw [hpart] at hp
      cases hp
    | some p' =>
      simp only [Except.ok.injEq, Prod.mk.injEq]
      constructor
      · rintro ⟨rfl, rfl⟩
        exact ⟨rfl, hpart⟩
      · rintro ⟨rfl, hp⟩
        rw [hpart] at hp
        exact ⟨rfl, Option.some_inj.1 hp⟩

/-- **An append** finds no partition, or changes it and the files of its directory. -/
theorem append_cases (K : Crates) (io : PartitionIo) (messages : List Message) (name : String)
    (id : Nat) (s : TopicStore) :
    (∃ e, s.find name id = .error e ∧ s.append K io messages name id = (.error (.error e), s)) ∨
    ∃ topic p, s.topics.get name = some topic ∧ topic.partitions[id]? = some p ∧
      s.append K io messages name id = ((appendTo K io messages s.tree p).1,
        ⟨s.topics.insert name { topic with
            partitions := topic.partitions.set id (appendTo K io messages s.tree p).2.2 },
          (appendTo K io messages s.tree p).2.1⟩) := by
  cases hfind : s.find name id with
  | error e =>
    refine Or.inl ⟨e, rfl, ?_⟩
    unfold append
    rw [hfind]
  | ok found =>
    obtain ⟨hget, hp⟩ := find_ok_iff.1 hfind
    refine Or.inr ⟨found.1, found.2, hget, hp, ?_⟩
    unfold append
    rw [hfind]

/-! ## What is served after a restart -/

section Open

variable {K : Crates} {listing : Listing} {t : Tree} {dataDir : Location}

theorem openPartition_ok {name : String} {id : Nat} {p : StoredPartition}
    (h : openPartition K listing t dataDir name id = .ok p) :
    p.dir = topicDir dataDir name ++ [partitionName id] ∧ isDir t p.dir = true ∧
      p.partition.partitionId = id := by
  unfold openPartition at h
  simp only at h
  split at h
  · rename_i hdir
    split at h
    · cases h
    · rename_i partition hopen
      cases h
      refine ⟨rfl, hdir, ?_⟩
      unfold Partition.openWithConfig at hopen
      split at hopen
      · cases hopen
      · split at hopen
        · cases hopen
        · cases hopen
          rfl
  · cases h

theorem openPartitions_ok {name : String} : ∀ {ids : List Nat} {ps : List StoredPartition},
    openPartitions K listing t dataDir name ids = .ok ps →
      List.Forall₂ (fun id p => openPartition K listing t dataDir name id = .ok p) ids ps
  | [], _, h => by
    cases h
    exact List.Forall₂.nil
  | id :: ids, ps, h => by
    unfold openPartitions at h
    split at h
    · cases h
    · rename_i p hp
      split at h
      · cases h
      · rename_i ps' hps
        cases h
        exact List.Forall₂.cons hp (openPartitions_ok hps)

theorem openTopic_ok {name : String} {topic : StoredTopic}
    (h : openTopic K listing t dataDir name = .ok topic) :
    topic.name = name ∧ topic.partitions ≠ [] ∧
      List.Forall₂ (fun id p => openPartition K listing t dataDir name id = .ok p)
        (partitionIds listing t (topicDir dataDir name)) topic.partitions := by
  unfold openTopic at h
  split at h
  · cases h
  · rename_i hids
    split at h
    · cases h
    · rename_i ps hps
      cases h
      have hforall := openPartitions_ok hps
      refine ⟨rfl, ?_, hforall⟩
      rintro rfl
      exact hids (List.forall₂_nil_right_iff.1 hforall)

theorem openTopic_mem {name : String} {topic : StoredTopic}
    (h : openTopic K listing t dataDir name = .ok topic) {p : StoredPartition}
    (hp : p ∈ topic.partitions) : ∃ id, openPartition K listing t dataDir name id = .ok p := by
  obtain ⟨-, -, hforall⟩ := openTopic_ok h
  obtain ⟨i, hi, rfl⟩ := List.getElem_of_mem hp
  have hlength := hforall.length_eq
  exact ⟨_, (List.forall₂_iff_get.1 hforall).2 i (by omega) hi⟩

/-- **The loop of `TopicManager::open`** serves the entries that open. -/
theorem openTopics_spec : ∀ {entries : List Name} {topics opened : Table String StoredTopic},
    openTopics K listing t dataDir entries topics = .ok opened →
    ∀ name topic, opened.get name = some topic ↔
      (name.toList ∈ entries ∧ isDir t (dataDir ++ [name.toList]) = true ∧
        openTopic K listing t dataDir name = .ok topic) ∨
      (topics.get name = some topic ∧ ¬ (name.toList ∈ entries ∧
        isDir t (dataDir ++ [name.toList]) = true ∧
        ∃ topic', openTopic K listing t dataDir name = .ok topic'))
  | [], topics, opened, h, name, topic => by
    cases h
    simp
  | entry :: rest, topics, opened, h, name, topic => by
    unfold openTopics at h
    by_cases hname : name.toList = entry
    · subst hname
      simp only [String.ofList_toList] at h
      split at h
      · rename_i hdir
        split at h
        · rename_i topic' hopen
          rw [openTopics_spec h]
          simp only [hopen, hdir, Table.get_insert_self, List.mem_cons_self, true_and,
            Except.ok.injEq, exists_eq', and_true, Option.some_inj, not_true, and_false, or_false]
          tauto
        · rename_i e hopen
          rw [openTopics_spec h]
          simp [hopen]
        · cases h
      · rename_i hdir
        rw [openTopics_spec h]
        simp [hdir]
    · have hmem : name.toList ∈ entry :: rest ↔ name.toList ∈ rest := by
        rw [List.mem_cons]
        exact or_iff_right hname
      have hne : name ≠ String.ofList entry := by
        rintro rfl
        exact hname (String.toList_ofList ..)
      rw [hmem]
      split at h
      · split at h
        · rw [openTopics_spec h, Table.get_insert_ne _ hne]
        · exact openTopics_spec h name topic
        · cases h
      · exact openTopics_spec h name topic

theorem openTopics_total : ∀ {entries : List Name} (topics : Table String StoredTopic),
    (∀ entry ∈ entries, panicked (openTopic K listing t dataDir (String.ofList entry)) = false) →
      ∃ opened, openTopics K listing t dataDir entries topics = .ok opened
  | [], topics, _ => ⟨topics, rfl⟩
  | entry :: rest, topics, h => by
    obtain ⟨hentry, hrest⟩ := List.forall_mem_cons.1 h
    unfold openTopics
    split
    · split
      · exact openTopics_total _ hrest
      · exact openTopics_total _ hrest
      · rename_i m hm
        rw [hm] at hentry
        cases hentry
    · exact openTopics_total _ hrest

/-- **After a restart** the entries of the data directory are served that open. -/
theorem served_iff (hlists : Lists t listing) (hroot : isDir t dataDir = true)
    {opened : TopicStore} (h : open_ K listing dataDir t = .ok opened) :
    opened.tree = t ∧ ∀ name topic, opened.topics.get name = some topic ↔
      isDir t (dataDir ++ [name.toList]) = true ∧
        openTopic K listing t dataDir name = .ok topic := by
  unfold open_ at h
  rw [if_pos hroot] at h
  split at h
  · cases h
  · rename_i topics htopics
    cases h
    refine ⟨rfl, fun name topic => ?_⟩
    rw [openTopics_spec htopics, hlists.mem_iff hroot]
    simp only [Table.get_empty]
    constructor
    · rintro (⟨-, hdir, hopen⟩ | ⟨hnone, -⟩)
      · exact ⟨hdir, hopen⟩
      · cases hnone
    · rintro ⟨hdir, hopen⟩
      exact Or.inl ⟨Or.inr hdir, hdir, hopen⟩

end Open

end TopicStore

end Gaffa
