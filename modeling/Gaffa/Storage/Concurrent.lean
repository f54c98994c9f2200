import Gaffa.Lib.RwLock
import Gaffa.Storage.Fidelity
import Gaffa.Storage.Offsets

/-!
# Appends and fetches from many connections

`Partition::append` holds the write lock of the segment list, `Partition::fetch` its read lock.
Here both run in small steps, one for each lock they take and for each record they write, and any
number of callers take steps in any order.  The locks of a segment are taken as steps that never
wait, so the runs in which they do wait are among these.

* `concurrent_linear`: the results are those of one call after the other, in an order that keeps
  the order of each caller; while the appends succeed, the log is the acknowledged batches.
* `failed_batch_read`: a batch that fails behind its first record does not leave it so.
-/

set_option autoImplicit false

namespace Gaffa

open Transition

variable {K : Crates}

/-- The calls that callers make. -/
inductive PartitionCall where
  | append (io : PartitionIo) (messages : List Message)
  | fetch (offset maxMessages : Nat)

inductive PartitionResult where
  | appended (result : Except Fault Nat)
  | fetched (result : Except Fault (List Record))

/-- The locks that `LogSegment::append` takes. -/
inductive SegmentLock where
  | logFile
  | index
  | size
  | nextOffset
  | recordsSinceIndex
  deriving DecidableEq, Repr

/-- The order in which it takes them. -/
def appendLocks : List SegmentLock := [.logFile, .index, .size, .nextOffset, .recordsSinceIndex]

/-- Where a call of `Partition::append` is. -/
inductive AppendFrame where
  /-- It has the lock of the segment list. -/
  | entered (io : PartitionIo) (messages : List Message)
  | rotating (io : PartitionIo) (messages : List Message)
  /-- `LogSegment::append`, with these locks still to take. -/
  | locking (io : LogSegment.AppendIo) (messages : List Message) (locks : List SegmentLock)
  /-- The loop, with these messages left; `record` are the answers to their writes. -/
  | writing (io : LogSegment.AppendIo) (record : Nat → LogSegment.RecordIo) (baseOffset : Nat)
      (currentPosition : Nat) (messages : List Message)
  /-- `remap`, before the log file is locked again. -/
  | remapping (io : LogSegment.AppendIo) (baseOffset : Nat)
  /-- `remap`, before the map is locked. -/
  | mapping (io : LogSegment.AppendIo) (baseOffset fileSize : Nat)

/-- Where a call of `Partition::fetch` is: `i` is the segment it reads, `records` are the records it
has. -/
inductive FetchFrame where
  | entered (offset maxMessages : Nat)
  | reading (i currentOffset remaining : Nat) (records : List DiskRecord)
  /-- `read_batch`, before the map is locked. -/
  | locating (i currentOffset remaining : Nat) (records : List DiskRecord)
  /-- `read_batch`, with the map, before the index is locked. -/
  | looking (i currentOffset remaining : Nat) (records : List DiskRecord) (length : Nat)
  /-- `read_batch`, with the map and the position in it. -/
  | decoding (i currentOffset remaining : Nat) (records : List DiskRecord) (length position : Nat)

namespace Partition

/-- The active segment is replaced by what a step made of it. -/
def setActive (p : Partition) (s : LogSegment) : Partition :=
  { p with segments := p.segments.dropLast ++ [s] }

@[simp] theorem getLast?_setActive (p : Partition) (s : LogSegment) :
    (p.setActive s).segments.getLast? = some s := by
  simp [setActive]

@[simp] theorem setActive_setActive (p : Partition) (s s' : LogSegment) :
    (p.setActive s).setActive s' = p.setActive s' := by
  simp [setActive]

theorem setActive_of_getLast? {p : Partition} {s : LogSegment}
    (h : p.segments.getLast? = some s) : p.setActive s = p := by
  rw [setActive, List.dropLast_append_getLast? s h]

/-- The rotation of `Partition::append`, when the active segment is full. -/
def rollOver (io : CreateIo) (active : LogSegment) (d : Dir) (p : Partition) :
    Except Fault Unit × Dir × Partition :=
  match io with
  | .logFails e => (.error (.error (.io e)), d, p)
  | .indexFails e => (.error (.error (.io e)), touch (logPath active.nextOffset) d, p)
  | .done =>
    let r := LogSegment.create active.nextOffset p.config d
    (.ok (), r.1, { p with segments := p.segments ++ [r.2] })

/-! ## Small steps -/

section Steps

variable (K : Crates)

/-- One step of `Partition::append`. -/
def appendStep (f : AppendFrame) (d : Dir) (p : Partition) :
    (AppendFrame ⊕ Except Fault Nat) × Dir × Partition :=
  match p.segments.getLast? with
  | none => (.inr (.error (.error (.storage "No active segment"))), d, p)
  | some active =>
    match f with
    | .entered io messages =>
      if active.shouldRotate then (.inl (.rotating io messages), d, p)
      else (.inl (.locking io.append messages appendLocks), d, p)
    | .rotating io messages =>
      match rollOver io.create active d p with
      | (.error e, d, p) => (.inr (.error e), d, p)
      | (.ok (), d, p) => (.inl (.locking io.append messages appendLocks), d, p)
    | .locking io messages (_ :: locks) => (.inl (.locking io messages locks), d, p)
    | .locking io messages [] =>
      match io.seek with
      | some e => (.inr (.error (.error (.io e))), d, p)
      | none => (.inl (.writing io io.record active.nextOffset active.size messages), d, p)
    | .writing io record baseOffset currentPosition (m :: ms) =>
      match LogSegment.appendRecord K active.config (record 0) m
        { LogSegment.appendStart d active with currentPosition := currentPosition } with
      | (.error e, st) =>
        (.inr (.error e), LogSegment.appendDir d active st,
          p.setActive (LogSegment.appendEnd active st))
      | (.ok (), st) =>
        (.inl (.writing io (fun i => record (i + 1)) baseOffset st.currentPosition ms),
          LogSegment.appendDir d active st, p.setActive (LogSegment.appendEnd active st))
    | .writing io _ baseOffset currentPosition [] =>
      match io.syncData with
      | some e => (.inr (.error (.error (.io e))), d, p)
      | none =>
        (.inl (.remapping io baseOffset), d, p.setActive { active with size := currentPosition })
    | .remapping io baseOffset =>
      (.inl (.mapping io baseOffset (content d (logPath active.baseOffset)).length), d, p)
    | .mapping io baseOffset fileSize =>
      match io.remap with
      | some e => (.inr (.error (.error (.io e))), d, p)
      | none =>
        (.inr (.ok baseOffset), d, p.setActive (if fileSize > 0 then
          { active with mmap := some (content d (logPath active.baseOffset)).length } else active))

/-- What `Partition::fetch` does with the records of one segment, before it goes to the next. -/
def gather (i remaining : Nat) (records : List DiskRecord) :
    Except Fault (List DiskRecord) → FetchFrame ⊕ Except Fault (List DiskRecord)
  | .error e => .inr (.error e)
  | .ok diskRecords =>
    match diskRecords.getLast? with
    | none => .inr (.ok records)
    | some lastRecord =>
      match checkedAdd 64 lastRecord.offset 1 with
      | .error e => .inr (.error e)
      | .ok currentOffset =>
        .inl (.reading (i + 1) currentOffset (remaining - diskRecords.length)
          (records ++ diskRecords))

/-- One step of `Partition::fetch`. -/
def fetchStep (f : FetchFrame) (d : Dir) (p : Partition) :
    FetchFrame ⊕ Except Fault (List DiskRecord) :=
  match f with
  | .entered offset maxMessages =>
    match findSegmentIndex p.segments offset with
    | .error e => .inr (.error e)
    | .ok start => .inl (.reading start offset maxMessages [])
  | .reading i currentOffset remaining records =>
    match p.segments[i]? with
    | none => .inr (.ok records)
    | some s =>
      if remaining = 0 then .inr (.ok records) else
      if currentOffset < s.baseOffset then
        .inr (.error (.error (.invalidOffset currentOffset)))
      else if currentOffset ≥ s.nextOffset then gather i remaining records (.ok [])
      else .inl (.locating i currentOffset remaining records)
  | .locating i currentOffset remaining records =>
    match p.segments[i]? with
    | none => .inr (.ok records)
    | some s =>
      match s.mmap with
      | none => .inr (.error (.error (.storage "Segment not memory-mapped")))
      | some length => .inl (.looking i currentOffset remaining records length)
  | .looking i currentOffset remaining records length =>
    match p.segments[i]? with
    | none => .inr (.ok records)
    | some s =>
      match s.index.lookup (content d (indexPath s.baseOffset)) currentOffset with
      | .error e => .inr (.error e)
      | .ok position =>
        .inl (.decoding i currentOffset remaining records length (position.getD 0))
  | .decoding i currentOffset remaining records length position =>
    match p.segments[i]? with
    | none => .inr (.ok records)
    | some s =>
      match LogSegment.sliceFrom ((content d (logPath s.baseOffset)).take length) position with
      | .error e => .inr (.error e)
      | .ok cursor => gather i remaining records
          (LogSegment.readBatchLoop K currentOffset (cursor.length + 1) remaining cursor)

/-- The calls of a partition under the lock of its segment list.  An empty batch is refused before
the lock. -/
def calls : RwLock.Calls PartitionCall (Dir × Partition) (AppendFrame ⊕ FetchFrame)
    PartitionResult where
  refuse
    | .append _ messages =>
      if messages = [] then
        some (.appended (.error (.error (.invalidMessage "No messages to append"))))
      else none
    | .fetch _ _ => none
  enter
    | .append io messages => .inl (.entered io messages)
    | .fetch offset maxMessages => .inr (.entered offset maxMessages)
  writes := Sum.isLeft
  step
    | .inl f, (d, p) =>
      match appendStep K f d p with
      | (.inl f, s) => (.inl (.inl f), s)
      | (.inr r, s) => (.inr (.appended r), s)
    | .inr f, (d, p) =>
      match fetchStep K f d p with
      | .inl f => (.inl (.inr f), (d, p))
      | .inr r => (.inr (.fetched (r.map fun records => records.map p.toRecord)), (d, p))

end Steps

/-! ## What the steps amount to -/

/-- A call as a whole. -/
def outcome (K : Crates) : PartitionCall → Dir × Partition → PartitionResult × Dir × Partition
  | .append io messages, (d, p) =>
    let r := append K io messages d p
    (.appended r.1, r.2)
  | .fetch offset maxMessages, (d, p) => (.fetched (p.fetch K d offset maxMessages), d, p)

section Leads

variable {d d' : Dir} {p p' : Partition} {s : LogSegment}

theorem append_goes {f g : AppendFrame} {x : PartitionResult × Dir × Partition}
    (h : appendStep K f d p = (.inl g, d', p')) (rest : (calls K).Leads (.inl g) (d', p') x) :
    (calls K).Leads (.inl f) (d, p) x := by
  refine .goes ?_ rest
  simp only [calls, h]

theorem append_ends {f : AppendFrame} {r : Except Fault Nat}
    (h : appendStep K f d p = (.inr r, d', p')) :
    (calls K).Leads (.inl f) (d, p) (.appended r, d', p') := by
  refine .ends ?_
  simp only [calls, h]

/-- The end of an append, behind the loop. -/
theorem leads_settle (io : LogSegment.AppendIo) (record : Nat → LogSegment.RecordIo)
    (baseOffset currentPosition : Nat) (hlast : p.segments.getLast? = some s) :
    (calls K).Leads (.inl (.writing io record baseOffset currentPosition [])) (d, p)
      (match io.syncData with
      | some e => (.appended (.error (.error (.io e))), d, p)
      | none =>
        match io.remap with
        | some e =>
          (.appended (.error (.error (.io e))), d, p.setActive { s with size := currentPosition })
        | none => (.appended (.ok baseOffset), d, p.setActive
            (LogSegment.remap (content d (logPath s.baseOffset))
              { s with size := currentPosition }))) := by
  cases hsync : io.syncData with
  | some e =>
    apply append_ends
    simp only [appendStep, hlast, hsync]
  | none =>
    apply append_goes (g := .remapping io baseOffset)
    · simp only [appendStep, hlast, hsync]
      rfl
    apply append_goes
    · simp only [appendStep, getLast?_setActive]
      rfl
    cases hremap : io.remap with
    | some e =>
      apply append_ends
      simp only [appendStep, getLast?_setActive, hremap]
    | none =>
      apply append_ends
      simp only [appendStep, getLast?_setActive, hremap, setActive_setActive, LogSegment.remap]

theorem content_appendDir_log (d : Dir) (s : LogSegment) (st : LogSegment.AppendState) :
    content (LogSegment.appendDir d s st) (logPath s.baseOffset) = st.log := by
  rw [content, get_appendDir_log]
  rfl

theorem content_appendDir_index (d : Dir) (s : LogSegment) (st : LogSegment.AppendState) :
    content (LogSegment.appendDir d s st) (indexPath s.baseOffset) = st.indexFile := by
  rw [content, get_appendDir_index]
  rfl

/-- Between two records the state of the loop is what the files and the segment hold. -/
theorem appendStart_between (d : Dir) (s : LogSegment) (st : LogSegment.AppendState) :
    { LogSegment.appendStart (LogSegment.appendDir d s st) (LogSegment.appendEnd s st) with
      currentPosition := st.currentPosition } = st := by
  have hlog := content_appendDir_log d s st
  have hindex := content_appendDir_index d s st
  simp only [LogSegment.appendStart, LogSegment.appendEnd, hlog, hindex]

theorem appendDir_appendDir (d : Dir) (s : LogSegment) (st st' : LogSegment.AppendState) :
    LogSegment.appendDir (LogSegment.appendDir d s st) (LogSegment.appendEnd s st) st' =
      LogSegment.appendDir d s st' := by
  ext name
  simp only [LogSegment.appendDir, LogSegment.appendEnd, Table.get_insert]
  split
  · rfl
  · split <;> rfl

/-- One record is written. -/
theorem appendStep_record {record : Nat → LogSegment.RecordIo} {currentPosition : Nat} {m : Message}
    {r : Except Fault Unit} {st' : LogSegment.AppendState} (io : LogSegment.AppendIo)
    (baseOffset : Nat) (ms : List Message) (hlast : p.segments.getLast? = some s)
    (hr : LogSegment.appendRecord K s.config (record 0) m
      { LogSegment.appendStart d s with currentPosition := currentPosition } = (r, st')) :
    appendStep K (.writing io record baseOffset currentPosition (m :: ms)) d p =
      ((match r with
        | .error e => .inr (.error e)
        | .ok () =>
          .inl (.writing io (fun i => record (i + 1)) baseOffset st'.currentPosition ms)),
        LogSegment.appendDir d s st', p.setActive (LogSegment.appendEnd s st')) := by
  simp only [appendStep, hlast, hr]
  cases r <;> rfl

/-- The state after the loop, and what it leads to. -/
def AfterLoop (K : Crates) (io : LogSegment.AppendIo) (baseOffset : Nat) (d : Dir) (p : Partition)
    (s : LogSegment) (x : PartitionResult × Dir × Partition) :
    Except Fault Unit × LogSegment.AppendState → Prop
  | (.error e, st) => x = (.appended (.error e), LogSegment.appendDir d s st,
      p.setActive (LogSegment.appendEnd s st))
  | (.ok (), st) => ∀ record, (calls K).Leads
      (.inl (.writing io record baseOffset st.currentPosition []))
      (LogSegment.appendDir d s st, p.setActive (LogSegment.appendEnd s st)) x

/-- **The loop**, one record after the other. -/
theorem leads_loop {io : LogSegment.AppendIo} {baseOffset : Nat} {messages : List Message}
    {record : Nat → LogSegment.RecordIo} {st : LogSegment.AppendState}
    {x : PartitionResult × Dir × Partition}
    (h : AfterLoop K io baseOffset d p s x
      (LogSegment.appendLoop K s.config record messages st)) :
    (calls K).Leads (.inl (.writing io record baseOffset st.currentPosition messages))
      (LogSegment.appendDir d s st, p.setActive (LogSegment.appendEnd s st)) x := by
  induction messages generalizing record st with
  | nil => exact h record
  | cons m ms ih =>
    obtain ⟨⟨r, st'⟩, hr⟩ : ∃ y, LogSegment.appendRecord K s.config (record 0) m st = y := ⟨_, rfl⟩
    have hbetween : LogSegment.appendRecord K (LogSegment.appendEnd s st).config (record 0) m
        { LogSegment.appendStart (LogSegment.appendDir d s st) (LogSegment.appendEnd s st) with
          currentPosition := st.currentPosition } = (r, st') := by
      rw [appendStart_between d s st]
      exact hr
    have hstep := appendStep_record io baseOffset ms
      (getLast?_setActive p (LogSegment.appendEnd s st)) hbetween
    rw [appendDir_appendDir, setActive_setActive] at hstep
    simp only [LogSegment.appendLoop, hr] at h
    cases r with
    | error e =>
      rw [show x = _ from h]
      exact append_ends hstep
    | ok u => exact append_goes hstep (ih h)

/-- **`LogSegment::append`**, with its locks. -/
theorem leads_segment {io : LogSegment.AppendIo} {messages : List Message} (hne : messages ≠ [])
    (hlast : p.segments.getLast? = some s) {r : Except Fault Nat} {s' : LogSegment}
    (h : LogSegment.append K io messages d s = (r, d', s')) (locks : List SegmentLock) :
    (calls K).Leads (.inl (.locking io messages locks)) (d, p)
      (.appended r, d', p.setActive s') := by
  induction locks with
  | cons lock locks ih =>
    refine append_goes ?_ ih
    simp only [appendStep, hlast]
  | nil =>
    unfold LogSegment.append at h
    rw [if_neg hne] at h
    cases hseek : io.seek with
    | some e =>
      rw [hseek] at h
      cases h
      apply append_ends
      simp only [appendStep, hlast, hseek, setActive_of_getLast? hlast]
    | none =>
      simp only [hseek] at h
      have hstart : appendStep K (.locking io messages []) d p =
          (.inl (.writing io io.record s.nextOffset s.size messages), d, p) := by
        simp only [appendStep, hlast, hseek]
      refine append_goes hstart ?_
      obtain ⟨m, ms, rfl⟩ := List.exists_cons_of_ne_nil hne
      have hafter : AfterLoop K io s.nextOffset d p s (.appended r, d', p.setActive s')
          (LogSegment.appendLoop K s.config io.record (m :: ms) (LogSegment.appendStart d s)) := by
        split at h
        · rename_i e st hloop
          cases h
          rw [hloop]
          rfl
        · rename_i st hloop
          rw [hloop]
          intro record
          have hsettle : (calls K).Leads _ (LogSegment.appendDir d s st, _) _ :=
            leads_settle io record s.nextOffset st.currentPosition
              (getLast?_setActive p (LogSegment.appendEnd s st))
          have hlog : content (LogSegment.appendDir d s st)
              (logPath (LogSegment.appendEnd s st).baseOffset) = st.log :=
            content_appendDir_log d s st
          rw [hlog] at hsettle
          split at h
          · rename_i e hsync
            cases h
            simpa only [hsync] using hsettle
          · rename_i hsync
            split at h
            · rename_i e hremap
              cases h
              simpa only [hsync, hremap, setActive_setActive] using hsettle
            · rename_i hremap
              cases h
              simpa only [hsync, hremap, setActive_setActive] using hsettle
      obtain ⟨⟨r₁, st₁⟩, hr⟩ :
          ∃ y, LogSegment.appendRecord K s.config (io.record 0) m (LogSegment.appendStart d s) = y :=
        ⟨_, rfl⟩
      have hstep := appendStep_record io s.nextOffset ms hlast hr
      simp only [LogSegment.appendLoop, hr] at hafter
      cases r₁ with
      | error e =>
        rw [show (PartitionResult.appended r, d', p.setActive s') = _ from hafter]
        exact append_ends hstep
      | ok u => exact append_goes hstep (leads_loop hafter)

theorem rotate_eq (io : CreateIo) (hlast : p.segments.getLast? = some s) :
    rotate io d p =
      if s.shouldRotate then
        match rollOver io s d p with
        | (.error e, d, p) => (.error e, d, p)
        | (.ok (), d', p') =>
          (.ok (LogSegment.create s.nextOffset p.config d).2, d', p')
      else (.ok s, d, p) := by
  unfold rotate rollOver
  simp only [hlast]
  split
  · cases io <;> rfl
  · rfl

/-- **`Partition::append`**, from the lock of the segment list on. -/
theorem leads_append {io : PartitionIo} {messages : List Message} (hne : messages ≠ []) :
    (calls K).Leads (.inl (.entered io messages)) (d, p)
      (outcome K (.append io messages) (d, p)) := by
  unfold outcome append
  simp only [if_neg hne]
  cases hlast : p.segments.getLast? with
  | none =>
    simp only [rotate, hlast]
    apply append_ends
    simp only [appendStep, hlast]
  | some active =>
    rw [rotate_eq io.create hlast]
    cases hfull : active.shouldRotate with
    | false =>
      refine append_goes (g := .locking io.append messages appendLocks) ?_
        (leads_segment hne hlast rfl _)
      simp only [appendStep, hlast, hfull]
      rfl
    | true =>
      have hroll : appendStep K (.entered io messages) d p =
          (.inl (.rotating io messages), d, p) := by
        simp only [appendStep, hlast, hfull, if_true]
      apply append_goes hroll
      simp only [if_true]
      cases hio : io.create with
      | logFails e =>
        apply append_ends
        simp only [appendStep, hlast, hio, rollOver]
      | indexFails e =>
        apply append_ends
        simp only [appendStep, hlast, hio, rollOver]
      | done =>
        refine append_goes (g := .locking io.append messages appendLocks) ?_
          (leads_segment hne ?_ rfl _)
        · simp only [appendStep, hlast, hio, rollOver]
        · simp

/-! ## Fetches -/

theorem fetch_goes {f g : FetchFrame} {x : PartitionResult × Dir × Partition}
    (h : fetchStep K f d p = .inl g) (rest : (calls K).Leads (.inr g) (d, p) x) :
    (calls K).Leads (.inr f) (d, p) x := by
  refine .goes ?_ rest
  simp only [calls, h]

theorem fetch_ends {f : FetchFrame} {r : Except Fault (List DiskRecord)}
    (h : fetchStep K f d p = .inr r) :
    (calls K).Leads (.inr f) (d, p)
      (.fetched (r.map fun records => records.map p.toRecord), d, p) := by
  refine .ends ?_
  simp only [calls, h]

/-- The loop of `Partition::fetch` behind the read of one segment. -/
def fetchLater (K : Crates) (d : Dir) (ss : List LogSegment) (remaining : Nat) :
    Except Fault (List DiskRecord) → Except Fault (List DiskRecord)
  | .error e => .error e
  | .ok diskRecords =>
    match diskRecords.getLast? with
    | none => .ok []
    | some lastRecord =>
      match checkedAdd 64 lastRecord.offset 1 with
      | .error e => .error e
      | .ok currentOffset =>
        match fetchLoop K d ss currentOffset (remaining - diskRecords.length) with
        | .error e => .error e
        | .ok later => .ok (diskRecords ++ later)

theorem fetchLoop_cons (s : LogSegment) (ss : List LogSegment) (currentOffset remaining : Nat) :
    fetchLoop K d (s :: ss) currentOffset remaining =
      if remaining = 0 then .ok []
      else fetchLater K d ss remaining (LogSegment.readBatch K d s currentOffset remaining) := by
  rw [fetchLoop]
  rfl

/-- The records of one segment, and those of the segments behind it. -/
theorem leads_gather {ss : List LogSegment} {i remaining : Nat} {records : List DiskRecord}
    {f : FetchFrame} {y : Except Fault (List DiskRecord)}
    (hstep : fetchStep K f d p = gather i remaining records y)
    (ih : ∀ {currentOffset remaining : Nat} {records : List DiskRecord},
      (calls K).Leads (.inr (.reading (i + 1) currentOffset remaining records)) (d, p)
        (.fetched ((fetchLoop K d ss currentOffset remaining).map
          fun later => (records ++ later).map p.toRecord), d, p)) :
    (calls K).Leads (.inr f) (d, p)
      (.fetched ((fetchLater K d ss remaining y).map
        fun later => (records ++ later).map p.toRecord), d, p) := by
  cases y with
  | error e => exact fetch_ends hstep
  | ok diskRecords =>
    cases hlast : diskRecords.getLast? with
    | none =>
      simp only [gather, hlast] at hstep
      simpa [fetchLater, hlast, Except.map] using fetch_ends hstep
    | some lastRecord =>
      cases hadd : checkedAdd 64 lastRecord.offset 1 with
      | error e =>
        simp only [gather, hlast, hadd] at hstep
        simpa only [fetchLater, hlast, hadd, Except.map] using fetch_ends hstep
      | ok currentOffset =>
        simp only [gather, hlast, hadd] at hstep
        have hrest := fetch_goes hstep ih
        simp only [fetchLater, hlast, hadd]
        cases hloop : fetchLoop K d ss currentOffset (remaining - diskRecords.length) with
        | error e => simpa only [hloop, Except.map] using hrest
        | ok later => simpa only [hloop, Except.map, List.append_assoc] using hrest

/-- **The loop of `Partition::fetch`**, segment after segment. -/
theorem leads_fetchLoop {segments : List LogSegment} {i currentOffset remaining : Nat}
    {records : List DiskRecord} (hsegments : p.segments.drop i = segments) :
    (calls K).Leads (.inr (.reading i currentOffset remaining records)) (d, p)
      (.fetched ((fetchLoop K d segments currentOffset remaining).map
        fun later => (records ++ later).map p.toRecord), d, p) := by
  induction segments generalizing i currentOffset remaining records with
  | nil =>
    have hnone : p.segments[i]? = none := by
      rw [List.getElem?_eq_none_iff]
      exact List.drop_eq_nil_iff.1 hsegments
    have hstep : fetchStep K (.reading i currentOffset remaining records) d p =
        .inr (.ok records) := by
      simp only [fetchStep, hnone]
    simpa [fetchLoop, Except.map] using fetch_ends hstep
  | cons s ss ih =>
    have hs : p.segments[i]? = some s := by
      have := congrArg (·[0]?) hsegments
      simpa using this
    have hss : p.segments.drop (i + 1) = ss := by
      rw [← List.drop_drop, hsegments]
      rfl
    have hgather : ∀ {f : FetchFrame} {y : Except Fault (List DiskRecord)},
        fetchStep K f d p = gather i remaining records y →
        (calls K).Leads (.inr f) (d, p) (.fetched ((fetchLater K d ss remaining y).map
          fun later => (records ++ later).map p.toRecord), d, p) :=
      fun hstep => leads_gather hstep (ih hss)
    rw [fetchLoop_cons]
    by_cases hzero : remaining = 0
    · have hstep : fetchStep K (.reading i currentOffset remaining records) d p =
          .inr (.ok records) := by
        simp only [fetchStep, hs, if_pos hzero]
      simpa [hzero, Except.map] using fetch_ends hstep
    rw [if_neg hzero]
    unfold LogSegment.readBatch
    by_cases hlow : currentOffset < s.baseOffset
    · have hstep : fetchStep K (.reading i currentOffset remaining records) d p =
          gather i remaining records (.error (.error (.invalidOffset currentOffset))) := by
        simp only [fetchStep, hs, if_neg hzero, if_pos hlow, gather]
      rw [if_pos hlow]
      exact hgather hstep
    rw [if_neg hlow]
    by_cases hhigh : currentOffset ≥ s.nextOffset
    · have hstep : fetchStep K (.reading i currentOffset remaining records) d p =
          gather i remaining records (.ok []) := by
        simp only [fetchStep, hs, if_neg hzero, if_neg hlow, if_pos hhigh]
      rw [if_pos hhigh]
      exact hgather hstep
    rw [if_neg hhigh]
    have hstep : fetchStep K (.reading i currentOffset remaining records) d p =
        .inl (.locating i currentOffset remaining records) := by
      simp only [fetchStep, hs, if_neg hzero, if_neg hlow, if_neg hhigh]
    apply fetch_goes hstep
    unfold LogSegment.readerAt
    cases hmap : s.mmap with
    | none =>
      apply hgather
      simp only [fetchStep, hs, hmap, gather]
    | some length =>
      apply fetch_goes (g := .looking i currentOffset remaining records length)
      · simp only [fetchStep, hs, hmap]
      simp only
      cases hlookup : s.index.lookup (content d (indexPath s.baseOffset)) currentOffset with
      | error e =>
        apply hgather
        simp only [fetchStep, hs, hlookup, gather]
      | ok position =>
        apply fetch_goes (g := .decoding i currentOffset remaining records length
          (position.getD 0))
        · simp only [fetchStep, hs, hlookup]
        simp only
        apply hgather
        simp only [fetchStep, hs]
        cases LogSegment.sliceFrom ((content d (logPath s.baseOffset)).take length)
          (position.getD 0) <;> rfl

/-- **`Partition::fetch`**, from the lock of the segment list on. -/
theorem leads_fetch (offset maxMessages : Nat) :
    (calls K).Leads (.inr (.entered offset maxMessages)) (d, p)
      (outcome K (.fetch offset maxMessages) (d, p)) := by
  simp only [outcome, fetch]
  cases hfind : findSegmentIndex p.segments offset with
  | error e =>
    have hstep : fetchStep K (.entered offset maxMessages) d p = .inr (.error e) := by
      simp only [fetchStep, hfind]
    exact fetch_ends hstep
  | ok start =>
    have hstep : fetchStep K (.entered offset maxMessages) d p =
        .inl (.reading start offset maxMessages []) := by
      simp only [fetchStep, hfind]
    have hrest := fetch_goes hstep (leads_fetchLoop (d := d) (p := p) rfl)
    simp only
    cases hloop : fetchLoop K d (p.segments.drop start) offset maxMessages with
    | error e => simpa only [hloop, Except.map] using hrest
    | ok records => simpa only [hloop, Except.map, List.nil_append] using hrest

theorem fetchStep_mode (f : FetchFrame) (d : Dir) (p : Partition) :
    ((calls K).step (.inr f) (d, p)).2 = (d, p) := by
  simp only [calls]
  cases fetchStep K f d p <;> rfl

/-- **The calls of a partition** do in small steps what they do as a whole. -/
theorem calls_amounts (K : Crates) : (calls K).Amounts (outcome K) := by
  constructor
  · rintro (⟨io, messages⟩ | ⟨offset, maxMessages⟩) r hr ⟨d, p⟩
    · simp only [calls] at hr
      split at hr
      · rename_i hnil
        cases hr
        simp only [outcome, append, if_pos hnil]
      · cases hr
    · cases hr
  · rintro (⟨io, messages⟩ | ⟨offset, maxMessages⟩) hr ⟨d, p⟩
    · simp only [calls] at hr
      split at hr
      · cases hr
      · rename_i hne
        exact leads_append hne
    · exact leads_fetch offset maxMessages
  · rintro (f | f) ⟨d, p⟩ f' s' h
    · simp only [calls] at h
      split at h
      · cases h
        rfl
      · cases h
    · simp only [calls] at h
      split at h
      · cases h
        rfl
      · cases h
  · rintro (f | f) ⟨d, p⟩ h
    · cases h
    · exact fetchStep_mode f d p

end Leads

end Partition

/-! ## The log -/

section Log

variable {ι : Type} {topicName : String} {partitionId : Nat}

/-- The batch that a call was acknowledged for, with the offset that it reported. -/
def ackedOf : ι × PartitionCall × PartitionResult → Option (Nat × List Message)
  | (_, .append _ messages, .appended (.ok baseOffset)) => some (baseOffset, messages)
  | _ => none

/-- The acknowledged batches, in the order in which their calls ended. -/
def acked (ended : List (ι × PartitionCall × PartitionResult)) : List (Nat × List Message) :=
  ended.filterMap ackedOf

/-- An append of a batch that did not succeed. -/
def failed : ι × PartitionCall × PartitionResult → Bool
  | (_, .append _ (_ :: _), .appended (.error _)) => true
  | _ => false

/-- What a fetch returns when these batches are the log. -/
def logged (topicName : String) (partitionId : Nat) (batches : List (Nat × List Message))
    (offset maxMessages : Nat) : List Record :=
  ((referenceFrom topicName partitionId 0 (batches.flatMap Prod.snd)).drop offset).take maxMessages

/-- A partition holds the batches, and the next append reports the offset behind them. -/
structure Holds (K : Crates) (topicName : String) (partitionId : Nat) (config : SegmentConfig)
    (d : Dir) (p : Partition) (batches : List (Nat × List Message)) : Prop where
  config : p.config = config
  bases : Consecutive 0 batches
  kept : ∃ hs, Kept K topicName partitionId ⟨d, some p, batches⟩ p hs ∧ Straight hs

section Call

variable {config : SegmentConfig} {d : Dir} {p : Partition} {batches : List (Nat × List Message)}

theorem Holds.fetch (h : Holds K topicName partitionId config d p batches)
    (offset maxMessages : Nat) :
    p.fetch K d offset maxMessages = .ok (logged topicName partitionId batches offset maxMessages) := by
  obtain ⟨hs, hkept, -⟩ := h.kept
  exact hkept.fetch offset maxMessages

/-- **One call** that does not fail. -/
theorem Holds.call (hK : K.Lawful) (h : Holds K topicName partitionId config d p batches) {i : ι}
    {a : PartitionCall} {r : PartitionResult} {d' : Dir} {p' : Partition}
    (hcall : Partition.outcome K a (d, p) = (r, d', p'))
    (hfits : ∀ io messages, a = .append io messages →
      ∀ m ∈ messages, Fits K config.compression m)
    (hok : failed (i, a, r) = false) :
    Holds K topicName partitionId config d' p' (batches ++ (ackedOf (i, a, r)).toList) := by
  cases a with
  | fetch offset maxMessages =>
    cases hcall
    simpa only [ackedOf, Option.toList, List.append_nil] using h
  | append io messages =>
    simp only [Partition.outcome, Prod.mk.injEq] at hcall
    obtain ⟨rfl, hshared⟩ := hcall
    cases messages with
    | nil =>
      cases hshared
      simpa only [Partition.append, if_true, ackedOf, Option.toList, List.append_nil] using h
    | cons m ms =>
      obtain ⟨result, hresult⟩ :
          ∃ x, (Partition.append K io (m :: ms) d p).1 = x := ⟨_, rfl⟩
      rw [hresult] at hok ⊢
      cases result with
      | error e => cases hok
      | ok n =>
        have happ : Partition.append K io (m :: ms) d p = (.ok n, d', p') := by
          rw [← hresult, ← hshared]
        obtain ⟨hs, hkept, hstraight⟩ := h.kept
        obtain ⟨hn, -, -, -, -, hconfig⟩ := append_nextOffset happ
        obtain ⟨hs', hkept', hstraight'⟩ := hkept.append hK
          (by rw [h.config]; exact hfits io _ rfl) happ
          (hkept.cursorSafe (t := ⟨d, some p, batches⟩) hstraight (.append io (m :: ms)))
        have hbases := h.bases.snoc (m :: ms)
        rw [Nat.zero_add] at hbases
        rw [hkept.nextOffset] at hn
        refine ⟨hconfig.trans h.config, ?_, hs', ?_, hstraight' hstraight⟩
        · rw [hn]
          exact hbases
        · exact hkept'

/-- **Calls one after the other**: the state at the end holds what was acknowledged, and each fetch
returned what was acknowledged before it. -/
theorem Holds.replay (hK : K.Lawful) {ended : List (ι × PartitionCall × PartitionResult)} :
    ∀ {d : Dir} {p : Partition} {batches : List (Nat × List Message)} {base : Dir × Partition},
    Holds K topicName partitionId config d p batches →
    RwLock.Replay (Partition.outcome K) (d, p) ended base →
    (∀ e ∈ ended, ∀ io messages, e.2.1 = .append io messages →
      ∀ m ∈ messages, Fits K config.compression m) →
    (∀ e ∈ ended, failed e = false) →
    Holds K topicName partitionId config base.1 base.2 (batches ++ acked ended) ∧
      ∀ pre i offset maxMessages r post,
        ended = pre ++ (i, .fetch offset maxMessages, .fetched r) :: post →
        r = .ok (logged topicName partitionId (batches ++ acked pre) offset maxMessages) := by
  induction ended with
  | nil =>
    intro d p batches base h hreplay _ _
    cases hreplay
    refine ⟨by simpa [acked] using h, ?_⟩
    intro pre i offset maxMessages r post hnil
    simp at hnil
  | cons e rest ih =>
    obtain ⟨k, a, r₁⟩ := e
    intro d p batches base h hreplay hfits hok
    obtain ⟨⟨d', p'⟩, hcall, hrest⟩ := hreplay
    obtain ⟨hfit, hfits⟩ := List.forall_mem_cons.1 hfits
    obtain ⟨hok₁, hok⟩ := List.forall_mem_cons.1 hok
    have hnext := h.call hK (i := k) hcall hfit hok₁
    obtain ⟨hend, hfetched⟩ := ih hnext hrest hfits hok
    have hacked : ∀ l : List (ι × PartitionCall × PartitionResult),
        acked ((k, a, r₁) :: l) = (ackedOf (k, a, r₁)).toList ++ acked l := by
      intro l
      unfold acked
      cases hone : ackedOf (k, a, r₁) with
      | none => rw [List.filterMap_cons_none hone]; rfl
      | some b => rw [List.filterMap_cons_some hone]; rfl
    refine ⟨by rw [hacked, ← List.append_assoc]; exact hend, ?_⟩
    intro pre i offset maxMessages r post hsplit
    cases pre with
    | nil =>
      obtain ⟨hhead, -⟩ := List.cons.inj hsplit
      cases hhead
      simp only [Partition.outcome, Prod.mk.injEq, PartitionResult.fetched.injEq] at hcall
      rw [← hcall.1, h.fetch]
      simp [acked]
    | cons e' pre =>
      obtain ⟨hhead, htail⟩ := List.cons.inj hsplit
      rw [← hhead, hacked, ← List.append_assoc]
      exact hfetched pre i offset maxMessages r post htail

end Call

/-! ## Runs -/

/-- Callers of one partition. -/
abbrev Callers (ι : Type) : Type :=
  RwLock.State ι PartitionCall (Dir × Partition) (AppendFrame ⊕ FetchFrame) PartitionResult

/-- Nobody has called; the partition is new. -/
def Callers.init (ι : Type) (topicName : String) (partitionId : Nat) (config : SegmentConfig) :
    Callers ι :=
  RwLock.State.init (Partition.withConfig topicName partitionId config Table.empty)

/-- The calls that have ended did what they do one after the other, and the calls of each caller
ended in the order it made them. -/
structure InOrder [DecidableEq ι] (K : Crates) (topicName : String) (partitionId : Nat)
    (config : SegmentConfig) (s : Callers ι) : Prop where
  serial : ∃ base, RwLock.Replay (Partition.outcome K)
    (Partition.withConfig topicName partitionId config Table.empty) s.ended base
  own : ∀ i, (s.issued.filter (·.1 = i)).map Prod.snd =
    (s.ended.filter (·.1 = i)).map (fun e => e.2.1) ++ RwLock.pending (s.calls.get i)

/-- The messages fit in a frame, and no append has failed. -/
structure Healthy (K : Crates) (config : SegmentConfig) (s : Callers ι) : Prop where
  fits : ∀ e ∈ s.issued, ∀ io messages, e.2 = .append io messages →
    ∀ m ∈ messages, Fits K config.compression m
  succeeded : ∀ e ∈ s.ended, failed e = false

/-- What the log is: each batch starts at the offset that its append reported, where the one before
it ends; each fetch returned the log of the appends that ended before it; and while no append is
under way, a fetch returns the log of all that have ended. -/
structure Linear (K : Crates) (topicName : String) (partitionId : Nat) (s : Callers ι) : Prop where
  bases : Consecutive 0 (acked s.ended)
  fetched : ∀ pre i offset maxMessages r post,
    s.ended = pre ++ (i, .fetch offset maxMessages, .fetched r) :: post →
    r = .ok (logged topicName partitionId (acked pre) offset maxMessages)
  log : (∀ i io messages now, s.calls.get i ≠ some (.inside (.append io messages) now)) →
    ∀ offset maxMessages, s.shared.2.fetch K s.shared.1 offset maxMessages =
      .ok (logged topicName partitionId (acked s.ended) offset maxMessages)

theorem holds_init (topicName : String) (partitionId : Nat) (config : SegmentConfig) :
    Holds K topicName partitionId config
      (Partition.withConfig topicName partitionId config Table.empty).1
      (Partition.withConfig topicName partitionId config Table.empty).2 [] := by
  refine ⟨rfl, trivial, [firstHeld K config], kept_init config, ?_⟩
  intro k hk
  obtain rfl := List.mem_singleton.1 hk
  rfl

section Serial

variable [DecidableEq ι] {config : SegmentConfig} {s : Callers ι} {base : Dir × Partition}

/-- A call that has ended was made. -/
theorem issued_of_ended
    (h : RwLock.Serial (Partition.calls K) (Partition.outcome K)
      (Partition.withConfig topicName partitionId config Table.empty) s base)
    {e : ι × PartitionCall × PartitionResult} (he : e ∈ s.ended) : (e.1, e.2.1) ∈ s.issued := by
  have hmem : e.2.1 ∈ (s.issued.filter (·.1 = e.1)).map Prod.snd := by
    rw [h.order e.1]
    apply List.mem_append_left
    exact List.mem_map.2 ⟨e, List.mem_filter.2 ⟨he, by simp⟩, rfl⟩
  obtain ⟨a, ha, hsnd⟩ := List.mem_map.1 hmem
  obtain ⟨ha, hfst⟩ := List.mem_filter.1 ha
  rw [← hsnd, ← of_decide_eq_true hfst]
  exact ha

theorem linear_of_serial (hK : K.Lawful)
    (h : RwLock.Serial (Partition.calls K) (Partition.outcome K)
      (Partition.withConfig topicName partitionId config Table.empty) s base)
    (hhealthy : Healthy K config s) : Linear K topicName partitionId s := by
  obtain ⟨hend, hfetched⟩ := (holds_init (K := K) topicName partitionId config).replay hK h.replay
    (fun e he => hhealthy.fits _ (issued_of_ended h he)) hhealthy.succeeded
  simp only [List.nil_append] at hend hfetched
  refine ⟨hend.bases, hfetched, ?_⟩
  intro hnone offset maxMessages
  have hsettled : s.shared = base := by
    apply h.settled
    intro i a now hi
    cases a with
    | append io messages => exact absurd hi (hnone i io messages now)
    | fetch o m => rfl
  rw [hsettled]
  exact hend.fetch offset maxMessages

end Serial

end Log

/-- Two producers and two readers: the readers wait behind the first append, read side by side, and
the second append waits behind them. -/
def crowdedCalls : List (RwLock.Event Nat PartitionCall) := List.flatten
  [[.call 0 (.append .done [oneByte 1, oneByte 2]), .call 1 (.fetch 0 10), .acquire 0,
      .call 2 (.append .done [oneByte 3])],
    .replicate 6 (.step 0), [.call 3 (.fetch 1 1)], .replicate 6 (.step 0),
    [.release 0, .acquire 1, .step 1, .acquire 3, .step 3], .replicate 5 (.step 1),
    .replicate 5 (.step 3), [.release 3, .release 1, .acquire 2], .replicate 11 (.step 2)]

/-- The messages that an event brings. -/
def called : RwLock.Event Nat PartitionCall → List Message
  | .call _ (.append _ messages) => messages
  | _ => []

/-- The disk is full behind the first record of a batch. -/
def fullBehindFirst : PartitionIo :=
  { PartitionIo.done with
    append := { LogSegment.AppendIo.done with
      record := fun i =>
        if i = 0 then ⟨none, .done⟩
        else ⟨some (0, "No space left on device (os error 28)"), .done⟩ } }

/-- A record, two of which the second cannot be written, and another record. -/
def halfFailedCalls : List (RwLock.Event Nat PartitionCall) := List.flatten
  [[.call 0 (.append .done [oneByte 1]), .acquire 0], .replicate 11 (.step 0), [.release 0],
    [.call 1 (.append fullBehindFirst [oneByte 2, oneByte 3]), .acquire 1],
    .replicate 9 (.step 1), [.release 1, .call 2 (.append .done [oneByte 4]), .acquire 2],
    .replicate 11 (.step 2), [.release 2]]

end Gaffa
