import Gaffa.Storage.Partition

/-!
# Topics

`storage/src/topic.rs`.  A topic shares its partitions with whoever has looked it up (`Arc`), so
the partitions are kept by number in the topic manager and a topic lists the numbers.  The
directory of a partition is named by the path that the file system resolves its name to.

`createPartition`, `insertTopic` and `contains` are the steps of `create_topic`, which holds no
lock over them.
-/

set_option autoImplicit false

namespace Gaffa

/-- A directory, as the file system resolves its name. -/
abbrev Path := String

/-- The directory of a partition, when the topic's name has no separator. -/
def plainDir (name : String) (partition : Nat) : Path :=
  name ++ "/partition-" ++ toString partition

theorem toString_nat_injective {i j : Nat} (h : toString i = toString j) : i = j := by
  have hi : Nat.toDigits 10 i = Nat.toDigits 10 j := by
    have hlist := congrArg String.toList h
    simpa using hlist
  rw [← Nat.ofDigitChars_ten_toDigits (n := i), hi, Nat.ofDigitChars_ten_toDigits]

theorem plainDir_injective {name : String} (i j : Nat) (h : plainDir name i = plainDir name j) :
    i = j := toString_nat_injective ((String.append_right_inj _).1 h)

/-- A shared partition, with the directory it was created in. -/
structure PartitionObject where
  dir : Path
  partition : Partition
  deriving DecidableEq, Repr

/-- `Topic`. -/
structure Topic where
  name : String
  partitions : List Nat
  deriving DecidableEq, Repr

/-- `Topic::get_partition`. -/
def Topic.getPartition (t : Topic) (partitionId : Nat) : Except GaffaError Nat :=
  match t.partitions[partitionId]? with
  | some ref => .ok ref
  | none => .error (.partitionNotFound t.name partitionId)

/-- `Topic::num_partitions`. -/
def Topic.numPartitions (t : Topic) : Nat := t.partitions.length % 2 ^ 32

/-- `TopicManager`, with the partitions that exist and the disk. -/
structure TopicManager where
  topics : Table String Topic
  objects : Table Nat PartitionObject
  nextObject : Nat
  disk : Table Path Dir

namespace TopicManager

/-- A topic manager on an empty data directory. -/
def new : TopicManager := ⟨Table.empty, Table.empty, 0, Table.empty⟩

/-- The files of a directory; one that does not exist has none. -/
def dirAt (tm : TopicManager) (path : Path) : Dir := (tm.disk.get path).getD Table.empty

/-- `TopicManager::get_topic`. -/
def getTopic (name : String) (tm : TopicManager) : Except GaffaError Topic :=
  match tm.topics.get name with
  | some t => .ok t
  | none => .error (.topicNotFound name)

/-- The check of `create_topic`. -/
def contains (name : String) (tm : TopicManager) : Bool := (tm.topics.get name).isSome

/-- One iteration of `Topic::new`: the number of the partition, or the error of the file system. -/
def createPartition (io : CreateIo) (path : Path) (name : String) (partitionId : Nat)
    (tm : TopicManager) : Except GaffaError Nat × TopicManager :=
  match io with
  | .logFails e => (.error (.io e), tm)
  | .indexFails e =>
    (.error (.io e), { tm with disk := tm.disk.insert path (touch (logPath 0) (tm.dirAt path)) })
  | .done =>
    let r := Partition.withConfig name partitionId SegmentConfig.default (tm.dirAt path)
    (.ok tm.nextObject, { tm with
      objects := tm.objects.insert tm.nextObject ⟨path, r.2⟩
      nextObject := tm.nextObject + 1
      disk := tm.disk.insert path r.1 })

/-- The insert of `create_topic`. -/
def insertTopic (t : Topic) (tm : TopicManager) : TopicManager :=
  { tm with topics := tm.topics.insert t.name t }

/-- `Topic::new`, from the partition numbers that are left on. -/
def newTopic (dirOf : String → Nat → Path) (io : Nat → CreateIo) (name : String) :
    List Nat → List Nat → TopicManager → Except GaffaError (List Nat) × TopicManager
  | [], made, tm => (.ok made, tm)
  | i :: rest, made, tm =>
    match tm.createPartition (io i) (dirOf name i) name i with
    | (.error e, tm) => (.error e, tm)
    | (.ok ref, tm) => newTopic dirOf io name rest (made ++ [ref]) tm

/-- `TopicManager::create_topic`, when no other call comes between its steps. -/
def createTopic (dirOf : String → Nat → Path) (io : Nat → CreateIo) (name : String)
    (partitions : Nat) (tm : TopicManager) : Except GaffaError Topic × TopicManager :=
  if tm.contains name then
    (.error (.invalidMessage ("Topic '" ++ name ++ "' already exists")), tm)
  else
    match newTopic dirOf io name (List.range partitions) [] tm with
    | (.error e, tm) => (.error e, tm)
    | (.ok made, tm) => (.ok ⟨name, made⟩, tm.insertTopic ⟨name, made⟩)

/-- `Partition::append` on a shared partition. -/
def appendTo (K : Crates) (io : PartitionIo) (messages : List Message) (ref : Nat)
    (o : PartitionObject) (tm : TopicManager) : Except Fault Nat × TopicManager :=
  let r := Partition.append K io messages (tm.dirAt o.dir) o.partition
  (r.1, { tm with
    objects := tm.objects.insert ref { o with partition := r.2.2 }
    disk := tm.disk.insert o.dir r.2.1 })

/-- A successful append to a shared partition: its own, in the files of its directory. -/
theorem appendTo_eq {K : Crates} {io : PartitionIo} {messages : List Message} {ref n : Nat}
    {o : PartitionObject} {tm : TopicManager}
    (h : (tm.appendTo K io messages ref o).1 = .ok n) :
    ∃ d p, Partition.append K io messages (tm.dirAt o.dir) o.partition = (.ok n, d, p) ∧
      (tm.appendTo K io messages ref o).2 = { tm with
        objects := tm.objects.insert ref { o with partition := p }
        disk := tm.disk.insert o.dir d } := by
  unfold appendTo at h ⊢
  cases hres : Partition.append K io messages (tm.dirAt o.dir) o.partition with
  | mk out rest =>
    simp only [hres] at h
    subst h
    exact ⟨rest.1, rest.2, rfl, rfl⟩

/-- `Partition::fetch` on a shared partition. -/
def fetchFrom (K : Crates) (offset maxMessages : Nat) (o : PartitionObject) (tm : TopicManager) :
    Except Fault (List Record) :=
  o.partition.fetch K (tm.dirAt o.dir) offset maxMessages

end TopicManager

end Gaffa
