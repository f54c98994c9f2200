import Gaffa.Lib.ByteString
import Gaffa.Lib.Bisect
import Gaffa.Error

/-!
# The offset index

`storage/src/index.rs`.  The index file is a sequence of 16-byte entries (offset, position).  A
handle has a write cursor, the length of its memory map and an entry count; the file's content is
passed along.

* `lookup_spec`: when the handle counts no more entries than its map holds, a lookup returns
  nothing or the position of some entry at or below the target.
* `lookup_floor`: and if the offsets ascend, that is the position of the last such entry.
* `lookup_fails`: when it counts more, and every entry present is at or below the target, the
  lookup reads past the map and panics.
* `append_ok`: what a successful append does to the handle and to the entries of the file.
-/

set_option autoImplicit false

namespace Gaffa

open ByteString Bisect

/-- `INDEX_ENTRY_SIZE`. -/
def indexEntrySize : Nat := 16

/-- `OffsetIndex`: the position of the file handle, the length of the map, the entry count. -/
structure OffsetIndex where
  cursor : Nat
  mmap : Option Nat
  size : Nat
  deriving DecidableEq, Repr

/-- What the file system answers to the calls of one `OffsetIndex::append`: success, or the error
text of the call that fails (a failing write may have written some bytes). -/
inductive IndexIo where
  | done
  | writeFails (written : Nat) (e : String)
  | syncFails (e : String)
  | remapFails (e : String)
  deriving DecidableEq, Repr

/-- `&mmap[pos..pos + n]`. -/
def sliceAt (mmap : Bytes) (pos n : Nat) : Except Fault Bytes :=
  if pos + n ≤ mmap.length then .ok ((mmap.drop pos).take n)
  else .error (.panic "range end index out of range for slice")

namespace OffsetIndex

/-- `OffsetIndex::create`: an existing file is kept, the handle starts from nothing. -/
def create : OffsetIndex := ⟨0, none, 0⟩

/-- `OffsetIndex::open`: entry count and map from the file's length, the cursor at its start. -/
def open_ (file : Bytes) : OffsetIndex :=
  ⟨0, if file.length > 0 then some file.length else none, file.length / indexEntrySize⟩

/-- An entry: offset and position, big-endian. -/
def entry (offset position : Nat) : Bytes := toBe 8 offset ++ toBe 8 position

/-- `OffsetIndex::remap`. -/
def remap (file : Bytes) (ix : OffsetIndex) : OffsetIndex :=
  if file.length > 0 then { ix with mmap := some file.length } else ix

/-- `OffsetIndex::append`: the outcome, the file and the handle. -/
def append (io : IndexIo) (offset position : Nat) (file : Bytes) (ix : OffsetIndex) :
    Except Fault Unit × Bytes × OffsetIndex :=
  let bytes := entry offset position
  let file' := writeAt file ix.cursor bytes
  let ix' := { ix with cursor := ix.cursor + indexEntrySize }
  match io with
  | .writeFails k e =>
    (.error (.error (.io e)), writeAt file ix.cursor (bytes.take k),
      { ix with cursor := ix.cursor + min k indexEntrySize })
  | .syncFails e => (.error (.error (.io e)), file', ix')
  | .remapFails e => (.error (.error (.io e)), file', { ix' with size := ix'.size + 1 })
  | .done => (.ok (), file', remap file' { ix' with size := ix'.size + 1 })

/-- `OffsetIndex::read_offset_at`. -/
def readOffsetAt (mmap : Bytes) (index : Nat) : Except Fault Nat :=
  match sliceAt mmap (index * indexEntrySize) 8 with
  | .ok bs => .ok (ofBe bs)
  | .error e => .error e

/-- `OffsetIndex::read_position_at`. -/
def readPositionAt (mmap : Bytes) (index : Nat) : Except Fault Nat :=
  match sliceAt mmap (index * indexEntrySize + 8) 8 with
  | .ok bs => .ok (ofBe bs)
  | .error e => .error e

/-- The body of the loop of `OffsetIndex::lookup`: go right, remembering the position, when the
entry's offset is at most the target. -/
def probe (mmap : Bytes) (target mid : Nat) : Except Fault (Option Nat) :=
  match readOffsetAt mmap mid with
  | .error e => .error e
  | .ok entryOffset =>
    if entryOffset ≤ target then
      match readPositionAt mmap mid with
      | .error e => .error e
      | .ok position => .ok (some position)
    else .ok none

/-- `OffsetIndex::lookup`. -/
def lookup (ix : OffsetIndex) (file : Bytes) (target : Nat) : Except Fault (Option Nat) :=
  if ix.size = 0 then .ok none else
  match ix.mmap with
  | none => .ok none
  | some len =>
    match bisect (probe (file.take len) target) ix.size 0 ix.size none with
    | .error e => .error e
    | .ok (_, resultPosition) => .ok resultPosition

/-! ## Entries of a file -/

/-- The `i`-th entry of an index file. -/
def entryAt (file : Bytes) (i : Nat) : Nat × Nat :=
  (ofBe ((slot indexEntrySize i file).take 8), ofBe ((slot indexEntrySize i file).drop 8))

theorem length_entry (o p : Nat) : (entry o p).length = indexEntrySize := by
  simp [entry, indexEntrySize]

theorem readOffsetAt_eq {file : Bytes} {i : Nat} (h : indexEntrySize * (i + 1) ≤ file.length) :
    readOffsetAt file i = .ok (entryAt file i).1 := by
  have hle : i * indexEntrySize + 8 ≤ file.length := by unfold indexEntrySize at *; omega
  simp only [readOffsetAt, sliceAt, if_pos hle, entryAt, slot, List.take_take]
  rw [Nat.mul_comm i indexEntrySize, Nat.min_eq_left (by decide)]

theorem readPositionAt_eq {file : Bytes} {i : Nat} (h : indexEntrySize * (i + 1) ≤ file.length) :
    readPositionAt file i = .ok (entryAt file i).2 := by
  have hle : i * indexEntrySize + 8 + 8 ≤ file.length := by unfold indexEntrySize at *; omega
  simp only [readPositionAt, sliceAt, if_pos hle, entryAt, slot, List.drop_take, List.drop_drop]
  rw [Nat.mul_comm i indexEntrySize]
  rfl

theorem probe_eq {file : Bytes} {i : Nat} (target : Nat)
    (h : indexEntrySize * (i + 1) ≤ file.length) :
    probe file target i =
      .ok (if (entryAt file i).1 ≤ target then some (entryAt file i).2 else none) := by
  simp only [probe, readOffsetAt_eq h, readPositionAt_eq h]
  split <;> rfl

theorem probe_out_of_range {file : Bytes} {i : Nat} (target : Nat)
    (h : file.length ≤ indexEntrySize * i) :
    probe file target i = .error (.panic "range end index out of range for slice") := by
  have hgt : ¬ i * indexEntrySize + 8 ≤ file.length := by unfold indexEntrySize at *; omega
  simp only [probe, readOffsetAt, sliceAt, if_neg hgt]

theorem entryAt_writeAt {file : Bytes} {j o p : Nat} (hj : indexEntrySize * j ≤ file.length)
    (ho : o < 2 ^ 64) (hp : p < 2 ^ 64) (i : Nat) :
    entryAt (writeAt file (indexEntrySize * j) (entry o p)) i =
      if i = j then (o, p) else entryAt file i := by
  unfold entryAt
  rw [slot_writeAt hj (length_entry o p)]
  split_ifs
  · simp only [entry, List.take_left', List.drop_left', length_toBe]
    rw [ofBe_toBe_of_lt (by simpa using ho), ofBe_toBe_of_lt (by simpa using hp)]
  · rfl

/-! ## Lookups -/

/-- **A lookup inside the map** does not fail; a position it returns is that of an entry whose
offset is at most the target. -/
theorem lookup_spec {ix : OffsetIndex} {file : Bytes} (target : Nat)
    (hmap : ix.size = 0 ∨ ix.mmap = some file.length)
    (hsize : indexEntrySize * ix.size ≤ file.length) :
    ∃ p?, ix.lookup file target = .ok p? ∧ ∀ p, p? = some p →
      ∃ i, i < ix.size ∧ (entryAt file i).1 ≤ target ∧ p = (entryAt file i).2 := by
  unfold lookup
  split
  · exact ⟨none, rfl, fun p h => by cases h⟩
  · rename_i hne
    rw [hmap.resolve_left hne]
    simp only [List.take_length]
    have hin : ∀ i, i < ix.size → indexEntrySize * (i + 1) ≤ file.length := fun i hi =>
      Nat.le_trans (Nat.mul_le_mul_left _ hi) hsize
    obtain ⟨l, p?, hb, hp⟩ := bisect_probed (probe file target)
      (fun p => ∃ i, i < ix.size ∧ (entryAt file i).1 ≤ target ∧ p = (entryAt file i).2) ix.size
      (fun i hi => ⟨_, probe_eq target (hin i hi)⟩)
      (fun i p hi h => by
        rw [probe_eq target (hin i hi)] at h
        split at h
        · rename_i hle
          cases h
          exact ⟨i, hi, hle, rfl⟩
        · cases h)
      ix.size 0 ix.size none (Nat.le_refl _) (fun p h => by cases h)
    exact ⟨p?, by rw [hb], hp⟩

/-- What a lookup is for: the position of the entry with the largest offset that is at most the
target, among the first `size` of the file, and nothing if there is none. -/
def IsFloor (file : Bytes) (size target : Nat) : Option Nat → Prop
  | none => ∀ i, i < size → target < (entryAt file i).1
  | some position => ∃ i, i < size ∧ (entryAt file i).1 ≤ target ∧
      position = (entryAt file i).2 ∧
      ∀ j, j < size → (entryAt file j).1 ≤ target → (entryAt file j).1 ≤ (entryAt file i).1

/-- **A lookup among entries whose offsets ascend** finds the floor of the target. -/
theorem lookup_floor {ix : OffsetIndex} {file : Bytes} (target : Nat)
    (hmap : ix.size = 0 ∨ ix.mmap = some file.length)
    (hsize : indexEntrySize * ix.size ≤ file.length)
    (hascend : ∀ i j, i < j → j < ix.size → (entryAt file i).1 < (entryAt file j).1) :
    ∃ p?, ix.lookup file target = .ok p? ∧ IsFloor file ix.size target p? := by
  unfold lookup
  split
  · rename_i hzero
    refine ⟨none, rfl, ?_⟩
    intro i hi
    omega
  · rename_i hne
    rw [hmap.resolve_left hne]
    simp only [List.take_length]
    have hprobe : ∀ i, i < ix.size → probe file target i =
        .ok (if (entryAt file i).1 ≤ target then some (entryAt file i).2 else none) := fun i hi =>
      probe_eq target (Nat.le_trans (Nat.mul_le_mul_left _ hi) hsize)
    obtain ⟨m, hm, hlow, hhigh⟩ := exists_boundary target hascend
    have hbelow : ∀ i, 0 ≤ i → i < m → probe file target i = .ok (some (entryAt file i).2) := by
      intro i _ hi
      rw [hprobe i (Nat.lt_of_lt_of_le hi hm), if_pos (hlow i hi)]
    have habove : ∀ i, m ≤ i → i < ix.size → probe file target i = .ok none := by
      intro i hge hi
      rw [hprobe i hi, if_neg (Nat.not_le_of_lt (hhigh i hge hi))]
    have hbisect := bisect_boundary (f := fun i => (entryAt file i).2) ix.size 0 ix.size none
      (Nat.sub_le ..) (Nat.zero_le m) hm hbelow habove
    rw [hbisect]
    refine ⟨_, rfl, ?_⟩
    by_cases hpos : 0 < m
    · rw [if_pos hpos]
      refine ⟨m - 1, by omega, hlow _ (Nat.sub_lt hpos Nat.one_pos), rfl, ?_⟩
      intro j hj hle
      have hjm : j < m := Nat.lt_of_not_le fun hge =>
        Nat.not_le_of_lt (hhigh j hge hj) hle
      by_cases hlast : j = m - 1
      · rw [hlast]
      · exact Nat.le_of_lt (hascend j (m - 1) (by omega) (by omega))
    · rw [if_neg hpos]
      intro i hi
      exact hhigh i (by omega) hi

/-- **A lookup past the map**: a handle that counts more entries than the file has reads beyond
the end of the map when no entry sends the search to the left. -/
theorem lookup_fails {ix : OffsetIndex} {file : Bytes} {m target : Nat}
    (hmap : ix.mmap = some file.length) (hlen : file.length = indexEntrySize * m)
    (hm : m < ix.size) (hle : ∀ i, i < m → (entryAt file i).1 ≤ target) :
    ix.lookup file target = .error (.panic "range end index out of range for slice") := by
  have hb : bisect (probe file target) ix.size 0 ix.size none =
      .error (.panic "range end index out of range for slice") := by
    refine bisect_fails ix.size 0 ix.size none (by omega) (Nat.zero_le m) hm ?_ ?_
    · intro i _ hi
      have hin : indexEntrySize * (i + 1) ≤ file.length := by
        rw [hlen]; exact Nat.mul_le_mul_left _ hi
      exact ⟨(entryAt file i).2, by rw [probe_eq target hin, if_pos (hle i hi)]⟩
    · intro i hi _
      exact probe_out_of_range target (by rw [hlen]; exact Nat.mul_le_mul_left _ hi)
  unfold lookup
  rw [if_neg (by omega), hmap]
  simp only [List.take_length, hb]

/-! ## Appends -/

/-- **What a successful append does.** -/
theorem append_ok {io : IndexIo} {o p : Nat} {file file' : Bytes} {ix ix' : OffsetIndex}
    (h : append io o p file ix = (.ok (), file', ix')) :
    file' = writeAt file ix.cursor (entry o p) ∧
      ix' = ⟨ix.cursor + indexEntrySize, some file'.length, ix.size + 1⟩ := by
  cases io with
  | done =>
    simp only [append, Prod.mk.injEq, true_and] at h
    obtain ⟨rfl, rfl⟩ := h
    have hpos : (writeAt file ix.cursor (entry o p)).length > 0 := by
      rw [length_writeAt, length_entry]; unfold indexEntrySize; omega
    exact ⟨rfl, by simp only [remap, if_pos hpos]⟩
  | writeFails k e => simp [append] at h
  | syncFails e => simp [append] at h
  | remapFails e => simp [append] at h

theorem length_writeAt_entry {file : Bytes} {c m o p : Nat} (hlen : file.length = indexEntrySize * m) :
    (writeAt file (indexEntrySize * c) (entry o p)).length = indexEntrySize * max m (c + 1) := by
  rw [length_writeAt, length_entry, hlen]
  unfold indexEntrySize
  omega

end OffsetIndex

end Gaffa
