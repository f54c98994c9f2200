import Gaffa.Lib.Transition
import Gaffa.Storage.PartitionAppend

/-!
# Runs of a partition

A partition and its directory as a transition system: successful appends, flushes, reopens (with
any configuration and any listing order), and crashes inside an append.  `acked` keeps what the
successful appends were given and answered.
-/

set_option autoImplicit false

namespace Gaffa

open ByteString DiskRecord OffsetIndex Transition

variable {K : Crates}

/-- A directory, the partition opened on it (`none` after a crash), and the acknowledged batches
with the offsets that `append` reported. -/
structure LogState where
  dir : Dir
  partition : Option Partition
  acked : List (Nat × List Message)

inductive LogEvent where
  | append (io : PartitionIo) (batch : List Message)
  | flush
  | reopen (config : SegmentConfig) (listing : List FileName)
  | crash (batch : List Message) (cut indexed : Nat)

/-- The batch that an event writes. -/
def LogEvent.batch : LogEvent → List Message
  | .append _ batch => batch
  | .crash batch _ _ => batch
  | _ => []

def LogEvent.isAppend : LogEvent → Prop
  | .append _ _ => True
  | _ => False

def LogEvent.isCrash : LogEvent → Prop
  | .crash _ _ _ => True
  | _ => False

/-- All acknowledged messages, in order. -/
def LogState.messages (s : LogState) : List Message := s.acked.flatMap Prod.snd

/-- The directory after a crash inside `LogSegment::append`: the log ends `cut` bytes into the
batch, the index file has what the loop writes for the first `indexed` messages. -/
def crashedDir (K : Crates) (batch : List Message) (cut indexed : Nat) (d : Dir) (s : LogSegment) :
    Option Dir :=
  let start := LogSegment.appendStart d s
  match LogSegment.appendLoop K s.config LogSegment.AppendIo.done.record batch start,
    LogSegment.appendLoop K s.config LogSegment.AppendIo.done.record (batch.take indexed) start with
  | (.ok (), full), (.ok (), part) =>
    some (LogSegment.appendDir d s
      { full with log := full.log.take (start.log.length + cut), indexFile := part.indexFile })
  | _, _ => none

section Model

variable (K : Crates) (topicName : String) (partitionId : Nat)

/-- `Partition::with_config` in an empty directory. -/
def LogState.init (config : SegmentConfig) : LogState :=
  let r := Partition.withConfig topicName partitionId config Table.empty
  ⟨r.1, some r.2, []⟩

/-- The steps of a run. -/
def LogState.next (s : LogState) : LogEvent → Option LogState
  | .append io batch =>
    match s.partition with
    | none => none
    | some p =>
      match Partition.append K io batch s.dir p with
      | (.ok baseOffset, d, p) => some ⟨d, some p, s.acked ++ [(baseOffset, batch)]⟩
      | (.error _, _, _) => none
  | .flush =>
    match s.partition with
    | none => none
    | some p =>
      match Partition.flush s.dir p with
      | (.ok (), d, p) => some ⟨d, some p, s.acked⟩
      | (.error _, _, _) => none
  | .reopen config listing =>
    if s.dir.Order listing then
      match Partition.openWithConfig K topicName partitionId config listing s.dir with
      | .ok p => some ⟨s.dir, some p, s.acked⟩
      | .error _ => none
    else none
  | .crash batch cut indexed =>
    match s.partition with
    | none => none
    | some p =>
      match Partition.rotate .done s.dir p with
      | (.ok active, d, _) =>
        (crashedDir K batch cut indexed d active).map fun d => ⟨d, none, s.acked⟩
      | (.error _, _, _) => none

/-- The directory opens, with any configuration and in whatever order it is listed. -/
def Reopens (s : LogState) : Prop :=
  ∀ config listing, s.dir.Order listing →
    ∃ p, Partition.openWithConfig K topicName partitionId config listing s.dir = .ok p

/-- What the frame limit promises of the messages of an event. -/
def Fitting (s : LogState) (e : LogEvent) (_ : LogState) : Prop :=
  ∀ p, s.partition = some p → ∀ m ∈ e.batch, Fits K p.config.compression m

end Model

/-- With codecs that leave the data as it is, every short message fits. -/
theorem fits_plain (c : CompressionType) {m : Message}
    (hkey : ∀ key, m.key = some key → key.length < 2 ^ 31)
    (hbody : 21 + m.key.elim 0 List.length + m.value.length < 2 ^ 32) :
    Fits plainCrates c m := by
  refine ⟨hkey, fun z hz => ?_⟩
  obtain rfl : m.value = z := by cases c <;> exact Except.ok.inj hz
  unfold bodySize
  simp only
  omega

theorem fitting_plain {s t : LogState} {e : LogEvent}
    (h : ∀ m ∈ e.batch, m.key = none ∧ m.value.length < 2 ^ 31) : Fitting plainCrates s e t := by
  intro p _ m hm
  obtain ⟨hkey, hvalue⟩ := h m hm
  refine fits_plain _ (by rw [hkey]; simp) ?_
  rw [hkey]
  simp only [Option.elim_none]
  omega

/-! ## Inverting steps -/

section Steps

variable {topicName : String} {partitionId : Nat} {s t : LogState}

theorem next_append {io : PartitionIo} {batch : List Message}
    (h : s.next K topicName partitionId (.append io batch) = some t) :
    ∃ p n d p', s.partition = some p ∧
      Partition.append K io batch s.dir p = (.ok n, d, p') ∧
      t = ⟨d, some p', s.acked ++ [(n, batch)]⟩ := by
  unfold LogState.next at h
  simp only at h
  split at h
  · cases h
  rename_i p hp
  split at h
  · rename_i n d p' happ
    cases h
    exact ⟨p, n, d, p', hp, happ, rfl⟩
  · cases h

theorem next_flush (h : s.next K topicName partitionId .flush = some t) :
    s.partition.isSome ∧ t = s := by
  obtain ⟨d, _ | p, acked⟩ := s
  · simp [LogState.next] at h
  · simp only [LogState.next, Partition.flush, Option.some.injEq] at h
    exact ⟨rfl, h.symm⟩

theorem next_reopen {config : SegmentConfig} {listing : List FileName}
    (h : s.next K topicName partitionId (.reopen config listing) = some t) :
    s.dir.Order listing ∧ ∃ p,
      Partition.openWithConfig K topicName partitionId config listing s.dir = .ok p ∧
      t = ⟨s.dir, some p, s.acked⟩ := by
  unfold LogState.next at h
  simp only at h
  split at h
  · rename_i hl
    split at h
    · rename_i p hp
      cases h
      exact ⟨hl, p, hp, rfl⟩
    · cases h
  · cases h

theorem next_crash {batch : List Message} {cut indexed : Nat}
    (h : s.next K topicName partitionId (.crash batch cut indexed) = some t) :
    ∃ p active d p' d', s.partition = some p ∧
      Partition.rotate .done s.dir p = (.ok active, d, p') ∧
      crashedDir K batch cut indexed d active = some d' ∧ t = ⟨d', none, s.acked⟩ := by
  unfold LogState.next at h
  simp only at h
  split at h
  · cases h
  rename_i p hp
  split at h
  · rename_i active d p' hrot
    obtain ⟨d', hd', rfl⟩ := Option.map_eq_some_iff.1 h
    exact ⟨p, active, d, p', d', hp, hrot, hd', rfl⟩
  · cases h

end Steps

/-! ## The segment that an append writes to -/

theorem rotate_done {io : CreateIo} {d d' : Dir} {p p' : Partition} {active : LogSegment}
    (h : Partition.rotate io d p = (.ok active, d', p')) :
    Partition.rotate .done d p = (.ok active, d', p') := by
  unfold Partition.rotate at h ⊢
  split at h
  · cases h
  · split at h
    · rename_i hfull
      rw [if_pos hfull]
      cases io with
      | done => exact h
      | logFails e => cases h
      | indexFails e => cases h
    · rename_i hfull
      rw [if_neg hfull]
      exact h

/-- The segment that an append writes to, with the directory: the active one, or the one that a
rotation creates. -/
def LogState.target (s : LogState) : Option (LogSegment × Dir) :=
  match s.partition with
  | none => none
  | some p =>
    match Partition.rotate .done s.dir p with
    | (.ok active, d, _) => some (active, d)
    | (.error _, _, _) => none

theorem target_of_rotate {s : LogState} {io : CreateIo} {d' : Dir} {p p' : Partition}
    {active : LogSegment} (hp : s.partition = some p)
    (h : Partition.rotate io s.dir p = (.ok active, d', p')) : s.target = some (active, d') := by
  unfold LogState.target
  rw [hp]
  simp only [rotate_done h]

theorem rotate_of_target {s : LogState} {d' : Dir} {p : Partition} {active : LogSegment}
    (hp : s.partition = some p) (h : s.target = some (active, d')) :
    ∃ p', Partition.rotate .done s.dir p = (.ok active, d', p') := by
  unfold LogState.target at h
  rw [hp] at h
  simp only at h
  split at h
  · rename_i a d q hrot
    cases h
    exact ⟨q, hrot⟩
  · cases h

/-- An append writes index entries only through a handle whose cursor is at the end of the entries
that the handle counts. -/
def CursorSafe (s : LogState) (e : LogEvent) (_ : LogState) : Prop :=
  match e with
  | .append _ batch => ∀ at_ ∈ s.target,
      at_.1.index.cursor = indexEntrySize * at_.1.index.size ∨
        at_.1.recordsSinceIndex + batch.length ≤ at_.1.config.indexInterval
  | _ => True

instance (s : LogState) (e : LogEvent) (t : LogState) : Decidable (CursorSafe s e t) :=
  match e with
  | .append _ _ => inferInstanceAs (Decidable (∀ _ ∈ s.target, _))
  | .flush => isTrue trivial
  | .reopen _ _ => isTrue trivial
  | .crash _ _ _ => isTrue trivial

theorem cursorSafe_append {s t : LogState} {io : PartitionIo} {batch : List Message} {d' : Dir}
    {p p' : Partition} {active : LogSegment} (hp : s.partition = some p)
    (h : Partition.rotate io.create s.dir p = (.ok active, d', p')) :
    CursorSafe s (.append io batch) t ↔
      active.index.cursor = indexEntrySize * active.index.size ∨
        active.recordsSinceIndex + batch.length ≤ active.config.indexInterval := by
  simp only [CursorSafe, target_of_rotate hp h, Option.mem_some_iff, forall_eq']

/-! ## The reference -/

/-- The records that a list of messages stands for, numbered from `n`. -/
def referenceFrom (topicName : String) (partitionId n : Nat) (messages : List Message) :
    List Record :=
  messages.mapIdx fun i m => ⟨topicName, partitionId, n + i, m⟩

@[simp] theorem length_referenceFrom (topicName : String) (partitionId n : Nat)
    (messages : List Message) :
    (referenceFrom topicName partitionId n messages).length = messages.length := by
  simp [referenceFrom]

theorem getElem?_referenceFrom (topicName : String) (partitionId n : Nat)
    (messages : List Message) (i : Nat) :
    (referenceFrom topicName partitionId n messages)[i]? =
      (messages[i]?).map fun m => ⟨topicName, partitionId, n + i, m⟩ := by
  simp [referenceFrom]

theorem map_message_referenceFrom (topicName : String) (partitionId n : Nat)
    (messages : List Message) :
    (referenceFrom topicName partitionId n messages).map Record.message = messages := by
  apply List.ext_getElem?
  intro i
  rw [List.getElem?_map, getElem?_referenceFrom, Option.map_map]
  exact Option.map_id'

/-- Numbered records are the reference of their messages. -/
theorem map_toRecord_of_numbered {p : Partition} {n : Nat} {rs : List DiskRecord}
    (h : Numbered n rs) :
    rs.map p.toRecord =
      referenceFrom p.topicName p.partitionId n (rs.map DiskRecord.toMessage) := by
  apply List.ext_getElem?
  intro i
  rw [getElem?_referenceFrom, List.getElem?_map, List.getElem?_map, Option.map_map]
  cases hr : rs[i]? with
  | none => rfl
  | some r => simp [Partition.toRecord, h.offset hr]

/-! ## The first state -/

/-- The one segment of a new partition. -/
def firstHeld (K : Crates) (config : SegmentConfig) : Held K :=
  ⟨[], createdSegment config 0, LogView.empty K 0⟩

theorem open_init (K : Crates) (topicName : String) (partitionId : Nat) (config : SegmentConfig) :
    Open K (withFiles Table.empty 0)
      ⟨topicName, partitionId, [createdSegment config 0], config⟩ [firstHeld K config] := by
  have hempty : Stored K (withFiles Table.empty 0) (LogView.empty K 0) :=
    stored_withFiles Table.empty (by decide)
  refine ⟨⟨by simp, rfl, fun v hv => ?_, fun name => ?_⟩, rfl, fun k hk => ?_⟩
  · obtain rfl := List.mem_singleton.1 hv
    exact hempty
  · simp [withFiles, firstHeld, LogView.empty, or_comm]
  · obtain rfl := List.mem_singleton.1 hk
    exact ⟨backed_created config hempty rfl, rfl, fun s hs => absurd hs List.not_mem_nil⟩

theorem init_eq (topicName : String) (partitionId : Nat) (config : SegmentConfig) :
    LogState.init topicName partitionId config =
      ⟨withFiles Table.empty 0,
        some ⟨topicName, partitionId, [createdSegment config 0], config⟩, []⟩ := by
  have h : (Table.insert Table.empty (logPath 0) [] : Dir).get (indexPath 0) = none :=
    Table.get_insert_ne _ (logPath_ne_indexPath 0 0).symm
  unfold LogState.init Partition.withConfig LogSegment.create
  rw [touch_of_none (Table.get_empty _), touch_of_none h]
  rfl

/-! ## Small inputs -/

/-- A message with one byte. -/
def oneByte (b : UInt8) : Message := ⟨none, [b], 0⟩

/-- Segments that rotate at 60 bytes, an index entry for every second record. -/
def smallConfig : SegmentConfig := ⟨60, 1, .none⟩

/-- One segment, an index entry for every second record. -/
def denseConfig : SegmentConfig := ⟨1000, 1, .none⟩

end Gaffa
