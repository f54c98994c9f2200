import Gaffa.Storage.Record
import Gaffa.Storage.Index
import Gaffa.Storage.FileName

/-!
# Log segments

`storage/src/segment.rs`.  A `LogSegment` is the state of an open segment: the length of its memory
map, its index handle, its counters.  The contents of its two files live in the directory and are
passed along; a map is a view of the current file, as long as the file was when it was made.

Every call of `LogSegment::append` takes the file system's answers as an argument, so a successful
append is one whose outcome is `ok`, and a failed one leaves the state the code leaves.
-/

set_option autoImplicit false

namespace Gaffa

open ByteString

/-- `SegmentConfig` (retention is not read by segments). -/
structure SegmentConfig where
  maxSize : Nat
  indexInterval : Nat
  compression : CompressionType
  deriving DecidableEq, Repr

/-- `SegmentConfig::default`. -/
def SegmentConfig.default : SegmentConfig := ⟨1024 * 1024 * 1024, 10, .none⟩

/-- `LogSegment`. -/
structure LogSegment where
  baseOffset : Nat
  config : SegmentConfig
  mmap : Option Nat
  index : OffsetIndex
  size : Nat
  nextOffset : Nat
  recordsSinceIndex : Nat
  deriving DecidableEq, Repr

/-- The content of a file; a file that does not exist has none. -/
def content (d : Dir) (name : FileName) : Bytes := (d.get name).getD []

/-- `OpenOptions::new().create(true).open(name)`: an existing file is kept. -/
def touch (name : FileName) (d : Dir) : Dir :=
  match d.get name with
  | some _ => d
  | none => d.insert name []

namespace LogSegment

/-! ## Creating and opening -/

/-- `LogSegment::create`. -/
def create (baseOffset : Nat) (config : SegmentConfig) (d : Dir) : Dir × LogSegment :=
  (touch (indexPath baseOffset) (touch (logPath baseOffset) d),
    ⟨baseOffset, config, none, OffsetIndex.create, 0, baseOffset, 0⟩)

/-- The loop of `LogSegment::scan_for_next_offset`: the offset of the last record that decodes. -/
def scanLoop (K : Crates) : Nat → Bytes → Nat → Except Fault Nat
  | 0, _, lastOffset => .ok lastOffset
  | fuel + 1, cursor, lastOffset =>
    match DiskRecord.decode K cursor with
    | .ok (record, cursor) => scanLoop K fuel cursor record.offset
    | .error (.error _) => .ok lastOffset
    | .error (.panic m) => .error (.panic m)

/-- `LogSegment::scan_for_next_offset`. -/
def scanForNextOffset (K : Crates) (log : Bytes) (baseOffset : Nat) : Except Fault Nat :=
  if log.length = 0 then .ok baseOffset else
  match scanLoop K (log.length + 1) log baseOffset with
  | .error e => .error e
  | .ok lastOffset => checkedAdd 64 lastOffset 1

def noSuchFile : Fault := .error (.io "No such file or directory (os error 2)")

/-- `LogSegment::open`. -/
def open_ (K : Crates) (baseOffset : Nat) (config : SegmentConfig) (d : Dir) :
    Except Fault LogSegment :=
  match d.get (logPath baseOffset), d.get (indexPath baseOffset) with
  | some log, some indexFile =>
    match scanForNextOffset K log baseOffset with
    | .error e => .error e
    | .ok nextOffset =>
      .ok ⟨baseOffset, config, if log.length > 0 then some log.length else none,
        OffsetIndex.open_ indexFile, log.length, nextOffset, 0⟩
  | _, _ => .error noSuchFile

/-- `LogSegment::should_rotate`. -/
def shouldRotate (s : LogSegment) : Bool := s.size ≥ s.config.maxSize

/-! ## Appending -/

/-- The file system's answers to the calls of one iteration of the loop: the log write succeeds or
fails after some bytes, and the index append, if there is one, goes as `index` says. -/
structure RecordIo where
  logWrite : Option (Nat × String)
  index : IndexIo
  deriving DecidableEq, Repr

/-- The answers to the calls of one `LogSegment::append`; `none` is success. -/
structure AppendIo where
  seek : Option String
  record : Nat → RecordIo
  syncData : Option String
  remap : Option String

/-- A file system that does not fail. -/
def AppendIo.done : AppendIo := ⟨none, fun _ => ⟨none, .done⟩, none, none⟩

/-- What the loop of `LogSegment::append` works on: the two files, the index handle and the
counters. -/
structure AppendState where
  log : Bytes
  indexFile : Bytes
  index : OffsetIndex
  nextOffset : Nat
  currentPosition : Nat
  recordsSinceIndex : Nat
  deriving DecidableEq, Repr

/-- The record that the loop builds from a message. -/
def recordOf (config : SegmentConfig) (offset : Nat) (message : Message) : DiskRecord :=
  if config.compression = .none then DiskRecord.new offset message
  else DiskRecord.newWithCompression offset message config.compression

/-- "Update index every N records". -/
def updateIndex (config : SegmentConfig) (io : IndexIo) (st : AppendState) :
    Except Fault Unit × AppendState :=
  if st.recordsSinceIndex ≥ config.indexInterval then
    match OffsetIndex.append io st.nextOffset st.currentPosition st.indexFile st.index with
    | (.error e, file, ix) => (.error e, { st with indexFile := file, index := ix })
    | (.ok (), file, ix) =>
      (.ok (), { st with indexFile := file, index := ix, recordsSinceIndex := 0 })
  else (.ok (), st)

/-- The three counters, in the order the code advances them. -/
def advance (n : Nat) (st : AppendState) : Except Fault Unit × AppendState :=
  match checkedAdd 64 st.currentPosition n with
  | .error e => (.error e, st)
  | .ok position =>
    match checkedAdd 64 st.nextOffset 1 with
    | .error e => (.error e, { st with currentPosition := position })
    | .ok next =>
      match checkedAdd 32 st.recordsSinceIndex 1 with
      | .error e => (.error e, { st with currentPosition := position, nextOffset := next })
      | .ok since => (.ok (), { st with
          currentPosition := position, nextOffset := next, recordsSinceIndex := since })

/-- One iteration of the loop of `LogSegment::append`. -/
def appendRecord (K : Crates) (config : SegmentConfig) (io : RecordIo) (message : Message)
    (st : AppendState) : Except Fault Unit × AppendState :=
  match (recordOf config st.nextOffset message).encode K with
  | .error e => (.error e, st)
  | .ok encoded =>
    match io.logWrite with
    | some (k, e) => (.error (.error (.io e)), { st with log := st.log ++ encoded.take k })
    | none =>
      match updateIndex config io.index { st with log := st.log ++ encoded } with
      | (.error e, st) => (.error e, st)
      | (.ok (), st) => advance encoded.length st

/-- The loop of `LogSegment::append`. -/
def appendLoop (K : Crates) (config : SegmentConfig) :
    (Nat → RecordIo) → List Message → AppendState → Except Fault Unit × AppendState
  | _, [], st => (.ok (), st)
  | io, m :: ms, st =>
    match appendRecord K config (io 0) m st with
    | (.error e, st) => (.error e, st)
    | (.ok (), st) => appendLoop K config (fun i => io (i + 1)) ms st

/-- The state in which the loop starts. -/
def appendStart (d : Dir) (s : LogSegment) : AppendState :=
  ⟨content d (logPath s.baseOffset), content d (indexPath s.baseOffset), s.index, s.nextOffset,
    s.size, s.recordsSinceIndex⟩

/-- The directory after the loop. -/
def appendDir (d : Dir) (s : LogSegment) (st : AppendState) : Dir :=
  (d.insert (logPath s.baseOffset) st.log).insert (indexPath s.baseOffset) st.indexFile

/-- The segment after the loop, before `size` and the map are brought up to date. -/
def appendEnd (s : LogSegment) (st : AppendState) : LogSegment :=
  { s with
    index := st.index, nextOffset := st.nextOffset, recordsSinceIndex := st.recordsSinceIndex }

/-- `LogSegment::remap`. -/
def remap (log : Bytes) (s : LogSegment) : LogSegment :=
  if log.length > 0 then { s with mmap := some log.length } else s

/-- `LogSegment::append`: the outcome, the directory and the segment. -/
def append (K : Crates) (io : AppendIo) (messages : List Message) (d : Dir) (s : LogSegment) :
    Except Fault Nat × Dir × LogSegment :=
  if messages = [] then (.error (.error (.invalidMessage "No messages to append")), d, s) else
  match io.seek with
  | some e => (.error (.error (.io e)), d, s)
  | none =>
    match appendLoop K s.config io.record messages (appendStart d s) with
    | (.error e, st) => (.error e, appendDir d s st, appendEnd s st)
    | (.ok (), st) =>
      match io.syncData with
      | some e => (.error (.error (.io e)), appendDir d s st, appendEnd s st)
      | none =>
        let s' := { appendEnd s st with size := st.currentPosition }
        match io.remap with
        | some e => (.error (.error (.io e)), appendDir d s st, s')
        | none => (.ok s.nextOffset, appendDir d s st, remap st.log s')

/-! ## Reading -/

/-- `&mmap[position..]`. -/
def sliceFrom (mmap : Bytes) (position : Nat) : Except Fault Bytes :=
  if position ≤ mmap.length then .ok (mmap.drop position)
  else .error (.panic "range start index out of range for slice")

/-- The bytes from which `LogSegment::read` and `LogSegment::read_batch` decode: the map, from the
position that the index gives. -/
def readerAt (d : Dir) (s : LogSegment) (offset : Nat) : Except Fault Bytes :=
  match s.mmap with
  | none => .error (.error (.storage "Segment not memory-mapped"))
  | some len =>
    match s.index.lookup (content d (indexPath s.baseOffset)) offset with
    | .error e => .error e
    | .ok position => sliceFrom ((content d (logPath s.baseOffset)).take len) (position.getD 0)

/-- The loop of `LogSegment::read`. -/
def readLoop (K : Crates) (offset : Nat) : Nat → Bytes → Except Fault DiskRecord
  | 0, _ => .error (.error (.invalidOffset offset))
  | fuel + 1, cursor =>
    match DiskRecord.decode K cursor with
    | .error e => .error e
    | .ok (record, cursor) =>
      if record.offset = offset then .ok record
      else if record.offset > offset then .error (.error (.invalidOffset offset))
      else readLoop K offset fuel cursor

/-- `LogSegment::read`. -/
def read (K : Crates) (d : Dir) (s : LogSegment) (offset : Nat) : Except Fault DiskRecord :=
  if offset < s.baseOffset then .error (.error (.invalidOffset offset)) else
  if offset ≥ s.nextOffset then .error (.error (.invalidOffset offset)) else
  match readerAt d s offset with
  | .error e => .error e
  | .ok cursor => readLoop K offset (cursor.length + 1) cursor

/-- The loop of `LogSegment::read_batch`, for at most `n` more records; records below the start
offset are skipped. -/
def readBatchLoop (K : Crates) (startOffset : Nat) :
    Nat → Nat → Bytes → Except Fault (List DiskRecord)
  | _, 0, _ => .ok []
  | 0, _ + 1, _ => .ok []
  | fuel + 1, n + 1, cursor =>
    match DiskRecord.decode K cursor with
    | .error (.error _) => .ok []
    | .error (.panic m) => .error (.panic m)
    | .ok (record, cursor) =>
      if record.offset ≥ startOffset then
        match readBatchLoop K startOffset fuel n cursor with
        | .error e => .error e
        | .ok records => .ok (record :: records)
      else readBatchLoop K startOffset fuel (n + 1) cursor

/-- `LogSegment::read_batch`. -/
def readBatch (K : Crates) (d : Dir) (s : LogSegment) (startOffset maxCount : Nat) :
    Except Fault (List DiskRecord) :=
  if startOffset < s.baseOffset then .error (.error (.invalidOffset startOffset)) else
  if startOffset ≥ s.nextOffset then .ok [] else
  match readerAt d s startOffset with
  | .error e => .error e
  | .ok cursor => readBatchLoop K startOffset (cursor.length + 1) maxCount cursor

end LogSegment

end Gaffa
