import Gaffa.Storage.Segment

/-!
# Partitions

`storage/src/partition.rs`: a partition is a list of segments, the last of them active.  Its
directory is passed along with it.
-/

set_option autoImplicit false

namespace Gaffa

open ByteString LogSegment

/-- `Partition` (its directory is the `Dir` argument of its operations). -/
structure Partition where
  topicName : String
  partitionId : Nat
  segments : List LogSegment
  config : SegmentConfig
  deriving DecidableEq, Repr

/-- How the creation of a segment's files ends: the log is opened first, then the index. -/
inductive CreateIo where
  | done
  | logFails (e : String)
  | indexFails (e : String)
  deriving DecidableEq, Repr

/-- The file system's answers to one `Partition::append`. -/
structure PartitionIo where
  create : CreateIo
  append : AppendIo

def PartitionIo.done : PartitionIo := ⟨.done, AppendIo.done⟩

namespace Partition

/-- `Partition::with_config`, in a directory whose content is `d`. -/
def withConfig (topicName : String) (partitionId : Nat) (config : SegmentConfig) (d : Dir) :
    Dir × Partition :=
  let r := LogSegment.create 0 config d
  (r.1, ⟨topicName, partitionId, [r.2], config⟩)

/-- The segments that `Partition::open_with_config` opens, in order. -/
def openSegments (K : Crates) (config : SegmentConfig) (d : Dir) :
    List Nat → Except Fault (List LogSegment)
  | [] => .ok []
  | baseOffset :: rest =>
    match LogSegment.open_ K baseOffset config d with
    | .error e => .error e
    | .ok s =>
      match openSegments K config d rest with
      | .error e => .error e
      | .ok ss => .ok (s :: ss)

/-- `Partition::open_with_config`; `listing` is the order in which `read_dir` lists the directory. -/
def openWithConfig (K : Crates) (topicName : String) (partitionId : Nat) (config : SegmentConfig)
    (listing : List FileName) (d : Dir) : Except Fault Partition :=
  match (listing.filterMap segmentOffset).mergeSort with
  | [] => .error (.error (.storage "No segments found in partition directory"))
  | offsets =>
    match openSegments K config d offsets with
    | .error e => .error e
    | .ok segments => .ok ⟨topicName, partitionId, segments, config⟩

/-- The first half of `Partition::append`: the active segment, after a rotation if it is full. -/
def rotate (io : CreateIo) (d : Dir) (p : Partition) : Except Fault LogSegment × Dir × Partition :=
  match p.segments.getLast? with
  | none => (.error (.error (.storage "No active segment")), d, p)
  | some active =>
    if active.shouldRotate then
      match io with
      | .logFails e => (.error (.error (.io e)), d, p)
      | .indexFails e => (.error (.error (.io e)), touch (logPath active.nextOffset) d, p)
      | .done =>
        let r := LogSegment.create active.nextOffset p.config d
        (.ok r.2, r.1, { p with segments := p.segments ++ [r.2] })
    else (.ok active, d, p)

/-- `Partition::append`: the outcome, the directory and the partition. -/
def append (K : Crates) (io : PartitionIo) (messages : List Message) (d : Dir) (p : Partition) :
    Except Fault Nat × Dir × Partition :=
  if messages = [] then (.error (.error (.invalidMessage "No messages to append")), d, p) else
  match rotate io.create d p with
  | (.error e, d, p) => (.error e, d, p)
  | (.ok active, d, p) =>
    let r := LogSegment.append K io.append messages d active
    (r.1, r.2.1, { p with segments := p.segments.dropLast ++ [r.2.2] })

/-- `Partition::find_segment_index`. -/
def findSegmentIndex (segments : List LogSegment) (offset : Nat) : Except Fault Nat :=
  let probe (mid : Nat) : Except Fault (Option Unit) :=
    match segments[mid]? with
    | none => .error (.panic "index out of bounds")
    | some s => .ok (if s.baseOffset ≤ offset then some () else none)
  match Bisect.bisect probe segments.length 0 segments.length none with
  | .error e => .error e
  | .ok (left, _) => if left > 0 then .ok (left - 1) else .error (.error (.invalidOffset offset))

/-- The loop of `Partition::fetch` over the segments from the first one on. -/
def fetchLoop (K : Crates) (d : Dir) :
    List LogSegment → Nat → Nat → Except Fault (List DiskRecord)
  | [], _, _ => .ok []
  | s :: ss, currentOffset, remaining =>
    if remaining = 0 then .ok [] else
    match LogSegment.readBatch K d s currentOffset remaining with
    | .error e => .error e
    | .ok diskRecords =>
      match diskRecords.getLast? with
      | none => .ok []
      | some lastRecord =>
        match checkedAdd 64 lastRecord.offset 1 with
        | .error e => .error e
        | .ok currentOffset =>
          match fetchLoop K d ss currentOffset (remaining - diskRecords.length) with
          | .error e => .error e
          | .ok later => .ok (diskRecords ++ later)

/-- The record that `Partition::fetch` makes of a disk record. -/
def toRecord (p : Partition) (r : DiskRecord) : Record :=
  ⟨p.topicName, p.partitionId, r.offset, r.toMessage⟩

/-- `Partition::fetch`. -/
def fetch (K : Crates) (d : Dir) (p : Partition) (offset maxMessages : Nat) :
    Except Fault (List Record) :=
  match findSegmentIndex p.segments offset with
  | .error e => .error e
  | .ok start =>
    match fetchLoop K d (p.segments.drop start) offset maxMessages with
    | .error e => .error e
    | .ok records => .ok (records.map p.toRecord)

/-- `Partition::next_offset`. -/
def nextOffset (p : Partition) : Nat :=
  match p.segments.getLast? with
  | none => 0
  | some s => s.nextOffset

/-- `Partition::flush`: the files are synced, nothing that a reader sees changes. -/
def flush (d : Dir) (p : Partition) : Except Fault Unit × Dir × Partition := (.ok (), d, p)

end Partition

end Gaffa
