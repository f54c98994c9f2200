import Gaffa.Storage.LogView
import Gaffa.Storage.Readout
import Gaffa.Storage.RecordStream
import Mathlib.Tactic.IntervalCases

/-!
# Segments opened over arbitrary files

`LogSegment::open`, `read` and `read_batch` on a log and an index of any content.

* `open_eq`: what `open` answers, from the records that the log holds.
* `reader_total_iff`: no call panics exactly when no scan that can happen stops at a short length,
  the last offset has a successor, and the index points into the log.
* `scan_counts_iff`: the scan counts the whole records of a log exactly when there is one, or no
  byte at all, and the rest does not panic.
-/

set_option autoImplicit false

namespace Gaffa

open ByteString DiskRecord PrefixCode LogSegment

variable {K : Crates} {base : Nat} {config : SegmentConfig} {d : Dir} {log indexFile : Bytes}

/-! ## Opening -/

/-- The offset at which the scan ends: that of the last record, or the base offset. -/
def lastOffset (K : Crates) (base : Nat) (log : Bytes) : Nat :=
  ((recordsIn K log).getLast?.map DiskRecord.offset).getD base

theorem scanForNextOffset_eq (K : Crates) (base : Nat) (log : Bytes) :
    scanForNextOffset K log base =
      if log = [] then .ok base
      else if ShortLength (stopIn K log) then .error shortLengthPanic
      else checkedAdd 64 (lastOffset K base log) 1 := by
  unfold scanForNextOffset lastOffset
  simp only [List.length_eq_zero_iff, scanLoop_eq]
  split_ifs <;> rfl

/-- The segment that `LogSegment::open` makes of two files. -/
def segmentOver (K : Crates) (base : Nat) (config : SegmentConfig) (log indexFile : Bytes) :
    LogSegment :=
  ⟨base, config, if log.length > 0 then some log.length else none, OffsetIndex.open_ indexFile,
    log.length, if log = [] then base else lastOffset K base log + 1, 0⟩

theorem not_shortLength_nil (K : Crates) : ¬ ShortLength (stopIn K []) := by
  rintro ⟨hlen, -⟩
  obtain ⟨e, he⟩ := decode_nil K
  rw [stopIn, drain_error he] at hlen
  exact absurd hlen (by decide)

/-- **What `open` answers.** -/
theorem open_eq (hlog : d.get (logPath base) = some log)
    (hindex : d.get (indexPath base) = some indexFile) :
    open_ K base config d =
      if ShortLength (stopIn K log) then .error shortLengthPanic
      else if log = [] ∨ lastOffset K base log + 1 < 2 ^ 64 then
        .ok (segmentOver K base config log indexFile)
      else .error (.panic "attempt to add with overflow") := by
  unfold open_ segmentOver
  rw [hlog, hindex]
  simp only [scanForNextOffset_eq, checkedAdd]
  by_cases hnil : log = []
  · subst hnil
    rw [if_pos rfl, if_neg (not_shortLength_nil K)]
    rfl
  · by_cases hshort : ShortLength (stopIn K log)
    · simp only [if_neg hnil, if_pos hshort]
    · by_cases hlt : lastOffset K base log + 1 < 2 ^ 64
      · simp only [if_neg hnil, if_neg hshort, if_pos hlt, if_pos (Or.inr hlt : log = [] ∨ _)]
      · simp only [if_neg hnil, if_neg hshort, if_neg hlt, if_neg (not_or.2 ⟨hnil, hlt⟩)]

/-! ## Reading -/

/-- The position from which a read of the offset decodes: the one that the index gives, or the
start of the log. -/
def startFor (indexFile : Bytes) (offset : Nat) : Nat :=
  match (OffsetIndex.open_ indexFile).lookup indexFile offset with
  | .ok position => position.getD 0
  | .error _ => 0

theorem lookup_open (indexFile : Bytes) (offset : Nat) :
    ∃ position, (OffsetIndex.open_ indexFile).lookup indexFile offset = .ok position := by
  have hmap : (OffsetIndex.open_ indexFile).size = 0 ∨
      (OffsetIndex.open_ indexFile).mmap = some indexFile.length := by
    unfold OffsetIndex.open_
    by_cases hpos : indexFile.length > 0
    · exact .inr (if_pos hpos)
    · exact .inl (by simp only; rw [Nat.eq_zero_of_not_pos hpos]; rfl)
  obtain ⟨position, h, -⟩ := OffsetIndex.lookup_spec offset hmap (Nat.mul_div_le _ _)
  exact ⟨position, h⟩

/-- **The bytes of a read**: the log from where the index points, and a panic if that is behind
its end. -/
theorem readerAt_opened (hlog : d.get (logPath base) = some log)
    (hindex : d.get (indexPath base) = some indexFile) (hne : log ≠ []) (offset : Nat) :
    readerAt d (segmentOver K base config log indexFile) offset =
      if startFor indexFile offset ≤ log.length then .ok (log.drop (startFor indexFile offset))
      else .error (.panic "range start index out of range for slice") := by
  obtain ⟨position, h⟩ := lookup_open indexFile offset
  have hpos : log.length > 0 := List.length_pos_iff.2 hne
  unfold readerAt segmentOver startFor
  simp only [if_pos hpos, content, hlog, hindex, Option.getD_some, h, sliceFrom, List.take_length]

/-- A read of an offset of the segment. -/
theorem read_opened (hlog : d.get (logPath base) = some log)
    (hindex : d.get (indexPath base) = some indexFile) (hne : log ≠ []) {offset : Nat}
    (hle : base ≤ offset) (hlast : offset ≤ lastOffset K base log)
    (hstart : startFor indexFile offset ≤ log.length) :
    read K d (segmentOver K base config log indexFile) offset =
      readLoop K offset ((log.drop (startFor indexFile offset)).length + 1)
        (log.drop (startFor indexFile offset)) := by
  unfold LogSegment.read
  rw [readerAt_opened hlog hindex hne, if_pos hstart]
  unfold segmentOver
  simp only [if_neg hne]
  rw [if_neg (by omega), if_neg (by omega)]

theorem readBatch_opened (hlog : d.get (logPath base) = some log)
    (hindex : d.get (indexPath base) = some indexFile) (hne : log ≠ []) {offset : Nat}
    (hle : base ≤ offset) (hlast : offset ≤ lastOffset K base log) (count : Nat) :
    readBatch K d (segmentOver K base config log indexFile) offset count =
      if startFor indexFile offset ≤ log.length then
        readBatchLoop K offset ((log.drop (startFor indexFile offset)).length + 1) count
          (log.drop (startFor indexFile offset))
      else .error (.panic "range start index out of range for slice") := by
  unfold LogSegment.readBatch
  rw [readerAt_opened hlog hindex hne]
  unfold segmentOver
  simp only [if_neg hne]
  rw [if_neg (by omega), if_neg (by omega)]
  split_ifs <;> rfl

/-- The offsets that the opened segment serves. -/
theorem served_opened {offset : Nat}
    (h : ¬ offset < base ∧
      ¬ offset ≥ (segmentOver K base config log indexFile).nextOffset) :
    log ≠ [] ∧ base ≤ offset ∧ offset ≤ lastOffset K base log := by
  unfold segmentOver at h
  simp only at h
  by_cases hnil : log = []
  · rw [if_pos hnil] at h
    omega
  · rw [if_neg hnil] at h
    exact ⟨hnil, by omega, by omega⟩

/-! ## No panic -/

/-- No call on the segment panics, neither the opening nor a read of any offset. -/
def NeverPanics (K : Crates) (base : Nat) (config : SegmentConfig) (d : Dir) : Prop :=
  panicked (open_ K base config d) = false ∧
    ∀ s, open_ K base config d = .ok s → ∀ offset count,
      panicked (read K d s offset) = false ∧ panicked (readBatch K d s offset count) = false

/-- The two files are sound: decoding the log, from its start and from where the index points for
an offset of the segment, does not stop at a length field below 4; the last offset has a successor;
and the index points into the log. -/
structure SoundFiles (K : Crates) (base : Nat) (log indexFile : Bytes) : Prop where
  scan : ¬ ShortLength (stopIn K log)
  last : log = [] ∨ lastOffset K base log + 1 < 2 ^ 64
  start : log ≠ [] → ∀ offset, base ≤ offset → offset ≤ lastOffset K base log →
    startFor indexFile offset ≤ log.length ∧
      ¬ ShortLength (stopIn K (log.drop (startFor indexFile offset)))

theorem readLoop_not_panicked {offset : Nat} {bs : Bytes} (h : ¬ ShortLength (stopIn K bs)) :
    panicked (readLoop K offset (bs.length + 1) bs) = false := by
  obtain ⟨e, he⟩ := drain_stops (consumes_decode K) (Nat.lt_succ_self bs.length)
  have hcalm : panicked (decode K (stopIn K bs)) = false :=
    Bool.eq_false_iff.2 (mt decode_panics_iff.1 h)
  rw [readLoop_eq he]
  rw [stopIn, he] at hcalm
  split
  · split_ifs <;> rfl
  · cases e with
    | error e => rfl
    | panic m => cases hcalm

theorem readBatchLoop_panicked_iff (start : Nat) {bs : Bytes} {count : Nat}
    (hcount : bs.length + 1 < count) :
    panicked (readBatchLoop K start (bs.length + 1) count bs) = true ↔
      ShortLength (stopIn K bs) := by
  have hfew : ((recordsIn K bs).filter (fun r => start ≤ r.offset)).length < count :=
    Nat.lt_of_le_of_lt (List.length_filter_le _ _)
      (Nat.lt_of_le_of_lt (length_drain_le _ _) hcount)
  rw [readBatchLoop_eq]
  by_cases h : ShortLength (stopIn K bs)
  · rw [if_pos ⟨hfew, h⟩]
    exact iff_of_true rfl h
  · rw [if_neg (fun hc => h hc.2)]
    exact iff_of_false (by intro hp; cases hp) h

theorem SoundFiles.open_ok (h : SoundFiles K base log indexFile)
    (hlog : d.get (logPath base) = some log)
    (hindex : d.get (indexPath base) = some indexFile) :
    open_ K base config d = .ok (segmentOver K base config log indexFile) := by
  rw [open_eq hlog hindex, if_neg h.scan, if_pos h.last]

theorem NeverPanics.sound (h : NeverPanics K base config d)
    (hlog : d.get (logPath base) = some log)
    (hindex : d.get (indexPath base) = some indexFile) :
    SoundFiles K base log indexFile := by
  obtain ⟨hopen, hreads⟩ := h
  have hscan : ¬ ShortLength (stopIn K log) := by
    intro hshort
    rw [open_eq hlog hindex, if_pos hshort] at hopen
    cases hopen
  have hlast : log = [] ∨ lastOffset K base log + 1 < 2 ^ 64 := by
    by_contra hover
    rw [open_eq hlog hindex, if_neg hscan, if_neg hover] at hopen
    cases hopen
  refine ⟨hscan, hlast, fun hne offset hle hlo => ?_⟩
  have hs : open_ K base config d = .ok (segmentOver K base config log indexFile) := by
    rw [open_eq hlog hindex, if_neg hscan, if_pos hlast]
  -- a batch read that asks for more records than there can be decodes to the end
  obtain ⟨-, hbatch⟩ := hreads _ hs offset (log.length + 2)
  rw [readBatch_opened hlog hindex hne hle hlo] at hbatch
  by_cases hstart : startFor indexFile offset ≤ log.length
  · refine ⟨hstart, fun hshort => ?_⟩
    rw [if_pos hstart] at hbatch
    rw [(readBatchLoop_panicked_iff offset (by rw [List.length_drop]; omega)).2 hshort] at hbatch
    cases hbatch
  · rw [if_neg hstart] at hbatch
    cases hbatch

/-- **No panic over arbitrary files**: opening a segment over any log and any index and reading it
at any offset ends without a panic exactly when the files are sound. -/
theorem reader_total_iff (K : Crates) (base : Nat) (config : SegmentConfig) {d : Dir}
    {log indexFile : Bytes} (hlog : d.get (logPath base) = some log)
    (hindex : d.get (indexPath base) = some indexFile) :
    NeverPanics K base config d ↔ SoundFiles K base log indexFile := by
  refine ⟨fun h => h.sound hlog hindex, fun h => ⟨?_, ?_⟩⟩
  · rw [h.open_ok hlog hindex]
    rfl
  · intro s hs offset count
    rw [h.open_ok hlog hindex] at hs
    cases hs
    by_cases hserved : ¬ offset < base ∧
        ¬ offset ≥ (segmentOver K base config log indexFile).nextOffset
    · obtain ⟨hne, hle, hlo⟩ := served_opened hserved
      obtain ⟨hstart, hcalm⟩ := h.start hne offset hle hlo
      constructor
      · rw [read_opened hlog hindex hne hle hlo hstart]
        exact readLoop_not_panicked hcalm
      · rw [readBatch_opened hlog hindex hne hle hlo, if_pos hstart, readBatchLoop_eq,
          if_neg (fun hc => hcalm hc.2)]
        rfl
    · unfold LogSegment.read LogSegment.readBatch
      rcases Decidable.or_iff_not_not_and_not.2 hserved with hlow | hhigh
      · have hlow' : offset < (segmentOver K base config log indexFile).baseOffset := hlow
        simp only [if_pos hlow']
        exact ⟨rfl, rfl⟩
      · by_cases hlow : offset < (segmentOver K base config log indexFile).baseOffset
        · simp only [if_pos hlow]
          exact ⟨rfl, rfl⟩
        · simp only [if_neg hlow, if_pos hhigh]
          exact ⟨rfl, rfl⟩

/-- A directory with the two files of a segment. -/
def twoFiles (base : Nat) (log indexFile : Bytes) : Dir :=
  (Table.empty.insert (logPath base) log).insert (indexPath base) indexFile

/-- Two records, and an index with an entry for the second of them. -/
def pairLog : Bytes :=
  encoded plainCrates ⟨0, 1, none, [1, 2], .none⟩ ++ encoded plainCrates ⟨1, 1, none, [3], .none⟩

theorem reader_total_pair :
    NeverPanics plainCrates 0 SegmentConfig.default (twoFiles 0 pairLog (OffsetIndex.entry 1 35)) := by
  have hlog : (twoFiles 0 pairLog (OffsetIndex.entry 1 35)).get (logPath 0) = some pairLog := by
    decide +kernel
  have hindex : (twoFiles 0 pairLog (OffsetIndex.entry 1 35)).get (indexPath 0) =
      some (OffsetIndex.entry 1 35) := by decide +kernel
  refine (reader_total_iff plainCrates 0 SegmentConfig.default hlog hindex).2
    ⟨by decide +kernel, .inr (by decide +kernel), fun _ offset _ hle => ?_⟩
  have hlast : lastOffset plainCrates 0 pairLog = 1 := by decide +kernel
  rw [hlast] at hle
  interval_cases offset
  · decide +kernel
  · decide +kernel

/-- A log whose last sixteen bytes are zeros, as a file system may leave them, cannot be opened:
their length field is 0. -/
theorem zero_tail_panics : ¬ ∀ (log indexFile : Bytes),
    NeverPanics plainCrates 0 SegmentConfig.default (twoFiles 0 log indexFile) := by
  intro h
  have hopen : panicked (open_ plainCrates 0 SegmentConfig.default
      (twoFiles 0 (pairLog ++ List.replicate 16 0) [])) = true := by decide +kernel
  rw [(h (pairLog ++ List.replicate 16 0) []).1] at hopen
  cases hopen

/-! ## Counting the whole records -/

/-- A log of encodings and a rest that does not decode is read as its records and the rest. -/
theorem drain_encodings (hK : K.Lawful) {records : List DiskRecord} {encodings : List Bytes}
    (hcodes : List.Forall₂ (Encodes K) records encodings) {tail : Bytes} {e : Fault}
    (htail : decode K tail = .error e) :
    recordsIn K (encodings.flatten ++ tail) = records ∧
      stopIn K (encodings.flatten ++ tail) = tail := by
  have hfuel : records.length < (encodings.flatten ++ tail).length + 1 := by
    have := (whole_decode hK).length_le_flatten (consumes_decode K) hcodes
    rw [List.length_append]
    omega
  unfold recordsIn stopIn
  rw [(whole_decode hK).drain_flatten hcodes htail hfuel]
  exact ⟨rfl, rfl⟩

/-- **The scan counts the whole records** of a log of encodings with consecutive offsets, and a rest
that does not decode, exactly when there is a record or nothing at all, the rest is no record head
with a length below 4, and the count is a 64-bit number. -/
theorem scan_counts_iff (hK : K.Lawful) {base : Nat} (hbase : base < 2 ^ 64)
    {records : List DiskRecord} {encodings : List Bytes}
    (hcodes : List.Forall₂ (Encodes K) records encodings) (hn : Numbered base records)
    {tail : Bytes} {e : Fault} (htail : decode K tail = .error e) :
    scanForNextOffset K (encodings.flatten ++ tail) base = .ok (base + records.length) ↔
      (records ≠ [] ∨ tail = []) ∧ ¬ ShortLength tail ∧ base + records.length < 2 ^ 64 := by
  obtain ⟨hrecords, hstop⟩ := drain_encodings hK hcodes htail
  rw [scanForNextOffset_eq, hstop, lastOffset, hrecords]
  cases hlast : records.getLast? with
  | none =>
    obtain rfl := List.getLast?_eq_none_iff.1 hlast
    cases hcodes
    simp only [List.flatten_nil, List.nil_append, List.length_nil, Nat.add_zero]
    by_cases hnil : tail = []
    · subst hnil
      have hcalm : ¬ ShortLength [] := by decide
      rw [if_pos rfl]
      exact iff_of_true rfl ⟨.inr rfl, hcalm, hbase⟩
    · -- the scan answers with one record more than there are, or panics
      rw [if_neg hnil]
      refine iff_of_false ?_ (fun h => hnil (h.1.resolve_left (fun hne => hne rfl)))
      unfold checkedAdd
      split_ifs
      · simp
      · simp
      · simp
  | some r =>
    have hne : records ≠ [] := by
      rintro rfl
      cases hlast
    have hlog : encodings.flatten ++ tail ≠ [] := by
      intro hnil
      have hlen := (whole_decode hK).length_le_flatten (consumes_decode K) hcodes
      rw [(List.append_eq_nil_iff.1 hnil).1] at hlen
      exact hne (List.length_eq_zero_iff.1 (Nat.le_zero.1 hlen))
    have hoffset := hn.getLast hlast
    rw [if_neg hlog]
    by_cases hshort : ShortLength tail
    · rw [if_pos hshort]
      exact iff_of_false (by simp [shortLengthPanic]) (fun h => h.2.1 hshort)
    · rw [if_neg hshort]
      simp only [Option.map_some, Option.getD_some, checkedAdd, hoffset]
      by_cases hlt : base + records.length < 2 ^ 64
      · rw [if_pos hlt]
        exact iff_of_true rfl ⟨.inl hne, hshort, hlt⟩
      · rw [if_neg hlt]
        exact iff_of_false (by simp) (fun h => hlt h.2.2)

/-- Two records of offsets 5 and 6. -/
def fiveSix : List DiskRecord := [⟨5, 1, none, [1, 2], .none⟩, ⟨6, 1, none, [3], .none⟩]

theorem encodes_fiveSix :
    List.Forall₂ (Encodes plainCrates) fiveSix (fiveSix.map (encoded plainCrates)) := by
  refine .cons ⟨⟨by decide, ?_, ?_⟩, rfl⟩ (.cons ⟨⟨by decide, ?_, ?_⟩, rfl⟩ .nil)
  all_goals rintro _ ⟨⟩
  all_goals decide

theorem scan_counts_two : scanForNextOffset plainCrates
    ((fiveSix.map (encoded plainCrates)).flatten ++ [0, 0, 0]) 5 = .ok 7 := by
  obtain ⟨e, he⟩ := decode_short (K := plainCrates) (show ([0, 0, 0] : Bytes).length < 16 by decide)
  exact (scan_counts_iff plainCrates_lawful (by decide) encodes_fiveSix ⟨rfl, rfl, trivial⟩ he).2
    ⟨.inl (by decide), by decide, by decide⟩

/-- A single byte, without a record before it, is counted as one. -/
theorem scan_counts_no_record : ¬ ∀ (base : Nat) (records : List DiskRecord)
    (encodings : List Bytes) (tail : Bytes), base < 2 ^ 64 →
    List.Forall₂ (Encodes plainCrates) records encodings → Numbered base records →
    (∃ e, decode plainCrates tail = .error e) →
    scanForNextOffset plainCrates (encodings.flatten ++ tail) base =
      .ok (base + records.length) := by
  intro h
  obtain ⟨e, he⟩ := decode_short (K := plainCrates) (show ([0] : Bytes).length < 16 by decide)
  have hzero := h 5 [] [] [0] (by decide) .nil trivial ⟨_, he⟩
  exact absurd hzero (by decide +kernel)

end Gaffa
