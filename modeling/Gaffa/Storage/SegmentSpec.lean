import Gaffa.Storage.LogView

/-!
# What the operations of a segment do

`Stored` says that a segment's two files hold a log view and truthful index entries, `Backed` that
an open handle agrees with them.

* `readBatch_spec`, `read_spec`: a backed handle reads the records of its view.
* `open_spec`: opening stored files gives a backed handle.
-/

set_option autoImplicit false

namespace Gaffa

open ByteString DiskRecord OffsetIndex

variable {K : Crates}

/-! ## Files and handles -/

/-- Where the record with an offset starts in the log. -/
def LogView.position (v : LogView K) (offset : Nat) : Nat :=
  (encodedAll K (v.records.take (offset - v.base))).length

/-- Every entry of the index file below the next offset, and every entry for the base offset, has
the position of its record. -/
def Truthful (v : LogView K) (file : Bytes) : Prop :=
  ∀ i, indexEntrySize * (i + 1) ≤ file.length →
    ((entryAt file i).1 < v.next ∨ (entryAt file i).1 = v.base) →
    v.base ≤ (entryAt file i).1 ∧ (entryAt file i).2 = v.position (entryAt file i).1

/-- The index file of a segment. -/
def indexFile (d : Dir) (v : LogView K) : Bytes := content d (indexPath v.base)

/-- The files of a segment hold a view. -/
structure Stored (K : Crates) (d : Dir) (v : LogView K) : Prop where
  log : d.get (logPath v.base) = some v.bytes
  index : d.get (indexPath v.base) = some (indexFile d v)
  next_lt : v.next < 2 ^ 64
  size_lt : v.bytes.length < 2 ^ 64
  aligned : indexEntrySize ∣ (indexFile d v).length
  truthful : Truthful v (indexFile d v)

/-- An open segment agrees with the files that hold the view. -/
structure Backed (K : Crates) (d : Dir) (v : LogView K) (s : LogSegment) : Prop
    extends Stored K d v where
  base : s.baseOffset = v.base
  next : s.nextOffset = v.next
  size : s.size = v.bytes.length
  mmap : s.mmap = if 0 < v.bytes.length then some v.bytes.length else none
  cursor : indexEntrySize ∣ s.index.cursor
  cursor_le : s.index.cursor ≤ (indexFile d v).length
  count_le : indexEntrySize * s.index.size ≤ (indexFile d v).length
  map : s.index.size = 0 ∨ s.index.mmap = some (indexFile d v).length

/-- No torn rest, no index entry beyond what the handle counts, none ahead of the log: a segment
that no crash has touched. -/
structure Clean (d : Dir) (v : LogView K) (s : LogSegment) : Prop where
  whole : v.tail = []
  count : (indexFile d v).length = indexEntrySize * s.index.size
  written : ∀ i, i < s.index.size → (entryAt (indexFile d v) i).1 < v.next

theorem Stored.content_log {d : Dir} {v : LogView K} (h : Stored K d v) :
    content d (logPath v.base) = v.bytes := by rw [content, h.log]; rfl

/-! ## Reading -/

section Reading

variable {d : Dir} {v : LogView K} {s : LogSegment} {o : Nat}

theorem readerAt_spec (h : Backed K d v s) (hlo : v.base ≤ o) (hhi : o < v.next) :
    ∃ k, k ≤ o - v.base ∧
      s.readerAt d o = .ok (encodedAll K (v.records.drop k) ++ v.tail) := by
  have hpos : 0 < v.bytes.length := v.bytes_ne_nil (by omega)
  obtain ⟨p?, hlook, hp⟩ := lookup_spec o h.map h.count_le
  unfold LogSegment.readerAt
  rw [h.mmap, if_pos hpos, h.base]
  simp only
  rw [show content d (indexPath v.base) = indexFile d v from rfl, hlook]
  simp only [h.content_log, List.take_length]
  have hslice : ∀ k, LogSegment.sliceFrom v.bytes (encodedAll K (v.records.take k)).length =
      .ok (encodedAll K (v.records.drop k) ++ v.tail) := by
    intro k
    have hle : (encodedAll K (v.records.take k)).length ≤ v.bytes.length := by
      conv_rhs => rw [LogView.bytes, ← List.take_append_drop k v.records, encodedAll_append]
      simp only [List.length_append]
      omega
    rw [LogSegment.sliceFrom, if_pos hle, LogView.bytes, drop_encodedAll]
  cases hp? : p? with
  | none => exact ⟨0, Nat.zero_le _, by simpa using hslice 0⟩
  | some p =>
    obtain ⟨i, hi, hle, rfl⟩ := hp p hp?
    obtain ⟨hb, hpos⟩ := h.truthful i
      (Nat.le_trans (Nat.mul_le_mul_left _ hi) h.count_le) (.inl (by omega))
    refine ⟨(entryAt (indexFile d v) i).1 - v.base, by omega, ?_⟩
    rw [Option.getD_some, hpos]
    exact hslice _

/-- **A batch read** returns the records of the view from the start offset on. -/
theorem readBatch_spec (h : Backed K d v s) (max : Nat) (hlo : v.base ≤ o) :
    s.readBatch K d o max = .ok ((v.records.drop (o - v.base)).take max) := by
  have hnext := v.next_ge
  unfold LogSegment.readBatch
  rw [h.base, if_neg (by omega), h.next]
  by_cases hhi : o ≥ v.next
  · rw [if_pos hhi, List.drop_eq_nil_of_le (by omega), List.take_nil]
  · rw [if_neg hhi]
    obtain ⟨k, hk, hr⟩ := readerAt_spec h hlo (by omega)
    simp only [hr]
    have hs : ∀ r ∈ v.records.drop k, Storable K r := fun r hr =>
      v.storable r (List.mem_of_mem_drop hr)
    have hfuel := length_le_encodedAll hs
    rw [readBatchLoop_encodedAll v.torn (by simp only [List.length_append]; omega)
      (v.numbered.drop k) hs, List.drop_drop]
    congr 3
    omega

/-- **A single read** returns the record with the offset. -/
theorem read_spec (h : Backed K d v s) (hlo : v.base ≤ o)
    (hhi : o < v.base + v.records.length) :
    ∃ r, v.records[o - v.base]? = some r ∧ s.read K d o = .ok r := by
  have hnext := v.next_ge
  obtain ⟨k, hk, hr⟩ := readerAt_spec h hlo (by omega)
  have hs : ∀ r ∈ v.records.drop k, Storable K r := fun r hr =>
    v.storable r (List.mem_of_mem_drop hr)
  have hfuel := length_le_encodedAll hs
  obtain ⟨r, hget, hread⟩ : ∃ r, (v.records.drop k)[o - (v.base + k)]? = some r ∧
      LogSegment.readLoop K o ((encodedAll K (v.records.drop k) ++ v.tail).length + 1)
        (encodedAll K (v.records.drop k) ++ v.tail) = .ok r :=
    readLoop_encodedAll (by simp only [List.length_append]; omega) (v.numbered.drop k) hs
      (by omega) (by rw [List.length_drop]; omega)
  refine ⟨r, ?_, ?_⟩
  · rw [List.getElem?_drop] at hget
    rwa [show k + (o - (v.base + k)) = o - v.base by omega] at hget
  · unfold LogSegment.read
    rw [h.base, if_neg (by omega), h.next, if_neg (by omega), hr]
    exact hread

theorem read_out_of_range (h : Backed K d v s) (ho : o < v.base ∨ v.next ≤ o) :
    s.read K d o = .error (.error (.invalidOffset o)) := by
  unfold LogSegment.read
  rw [h.base, h.next]
  by_cases hlt : o < v.base
  · rw [if_pos hlt]
  · rw [if_neg hlt, if_pos (by omega)]

end Reading

/-! ## Opening and creating -/

/-- The handle that opening the files of a view gives. -/
def openedSegment (d : Dir) (v : LogView K) (config : SegmentConfig) : LogSegment :=
  ⟨v.base, config, if v.bytes.length > 0 then some v.bytes.length else none,
    OffsetIndex.open_ (indexFile d v), v.bytes.length, v.next, 0⟩

/-- **Opening** the files of a view succeeds, with a handle that agrees with them. -/
theorem open_spec {d : Dir} {v : LogView K} (config : SegmentConfig) (h : Stored K d v) :
    LogSegment.open_ K v.base config d = .ok (openedSegment d v config) ∧
      Backed K d v (openedSegment d v config) := by
  refine ⟨?_, h, rfl, rfl, rfl, rfl, Dvd.intro 0 rfl, Nat.zero_le _, ?_, ?_⟩
  · unfold LogSegment.open_
    rw [h.log, h.index]
    simp only [v.scanForNextOffset_bytes h.next_lt]
    rfl
  · exact Nat.mul_div_le _ _
  · simp only [openedSegment, OffsetIndex.open_]
    by_cases hpos : (indexFile d v).length > 0
    · exact .inr (if_pos hpos)
    · exact .inl (by rw [show (indexFile d v).length = 0 by omega]; rfl)

end Gaffa
