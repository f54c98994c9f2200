import Gaffa.Storage.PartitionSpec
import Gaffa.Storage.Readout
import Mathlib.Data.List.TakeWhile

/-!
# Fetches that are refused

When `Partition::fetch` answers with an error, read off the segments of the partition.

* `fetch_refuses`: a fetch is refused that gets no further than its first segment.
* `fetch_refused`: a refusal needs a segment above the offset, or one without a map.
-/

set_option autoImplicit false

namespace Gaffa

open ByteString DiskRecord LogSegment

variable {K : Crates} {d : Dir} {s : LogSegment} {ss : List LogSegment} {offset count : Nat}
  {e : GaffaError}

/-- All segments start above the offset, or the last one that does not has the offset and no map: the
append that put it there failed before the map was made. -/
def Partition.RefusesFetch (p : Partition) (offset count : Nat) : Prop :=
  (∀ t ∈ p.segments.dropWhile (fun s => s.baseOffset ≤ offset), offset < t.baseOffset) ∧
    ∀ s ∈ (p.segments.takeWhile fun s => s.baseOffset ≤ offset).getLast?,
      0 < count ∧ offset < s.nextOffset ∧ s.mmap = none

instance (p : Partition) (offset count : Nat) : Decidable (p.RefusesFetch offset count) :=
  inferInstanceAs (Decidable (_ ∧ _))

/-! ## Enough for a refusal -/

theorem fetchLoop_unmapped (hcount : 0 < count) (hs : s.baseOffset ≤ offset)
    (hreach : offset < s.nextOffset) (hmap : s.mmap = none) :
    Partition.fetchLoop K d (s :: ss) offset count =
      .error (.error (.storage "Segment not memory-mapped")) := by
  have hread : readBatch K d s offset count =
      .error (.error (.storage "Segment not memory-mapped")) := by
    unfold readBatch readerAt
    rw [if_neg (Nat.not_lt.2 hs), if_neg (Nat.not_le.2 hreach), hmap]
  rw [Partition.fetchLoop, if_neg (Nat.ne_of_gt hcount), hread]

/-- **A fetch is refused** that gets no further than its first segment. -/
theorem fetch_refuses (K : Crates) (d : Dir) {p : Partition} (h : p.RefusesFetch offset count) :
    ∃ e, p.fetch K d offset count = .error (.error e) := by
  obtain ⟨hhigh, hlast⟩ := h
  have hsplit : p.segments.takeWhile (fun s => s.baseOffset ≤ offset) ++
      p.segments.dropWhile (fun s => s.baseOffset ≤ offset) = p.segments := List.takeWhile_append_dropWhile
  have hlow : ∀ t ∈ p.segments.takeWhile (fun s => s.baseOffset ≤ offset), t.baseOffset ≤ offset := by
    intro t ht
    have hlow := List.mem_takeWhile_imp ht
    exact of_decide_eq_true hlow
  generalize p.segments.takeWhile (fun s => s.baseOffset ≤ offset) = low at hlast hsplit hlow
  generalize p.segments.dropWhile (fun s => s.baseOffset ≤ offset) = high at hhigh hsplit
  unfold Partition.fetch
  rw [← hsplit]
  cases hend : low.getLast? with
  | none =>
    rw [List.getLast?_eq_none_iff.1 hend, List.nil_append, findSegmentIndex_none hhigh]
    exact ⟨_, rfl⟩
  | some s =>
    obtain ⟨hcount, hreach, hmap⟩ := hlast s hend
    obtain ⟨pre, rfl⟩ := List.getLast?_eq_some_iff.1 hend
    have hs := hlow s (List.mem_append_right _ (List.mem_singleton_self s))
    rw [List.append_assoc, List.singleton_append, findSegmentIndex_spec
      (fun t ht => hlow t (List.mem_append_left _ ht)) hs hhigh]
    simp only [List.drop_left, fetchLoop_unmapped hcount hs hreach hmap]
    exact ⟨_, rfl⟩

/-! ## What a refusal needs -/

theorem sliceAt_ne_error (bs : Bytes) (start n : Nat) : sliceAt bs start n ≠ .error (.error e) := by
  unfold sliceAt
  split
  · exact fun h => by cases h
  · exact fun h => by cases h

/-- A look-up ends or panics. -/
theorem lookup_ne_error (ix : OffsetIndex) (file : Bytes) (target : Nat) :
    ix.lookup file target ≠ .error (.error e) := by
  have hprobe : ∀ mmap mid, OffsetIndex.probe mmap target mid ≠ .error (.error e) := by
    intro mmap mid
    unfold OffsetIndex.probe OffsetIndex.readOffsetAt OffsetIndex.readPositionAt
    cases hoffset : sliceAt mmap (mid * indexEntrySize) 8 with
    | error fault =>
      exact fun h => sliceAt_ne_error _ _ _ (hoffset.trans (congrArg Except.error (Except.error.inj h)))
    | ok offset =>
      simp only
      split
      · cases hposition : sliceAt mmap (mid * indexEntrySize + 8) 8 with
        | error fault =>
          exact fun h => sliceAt_ne_error _ _ _
            (hposition.trans (congrArg Except.error (Except.error.inj h)))
        | ok position => exact fun h => by cases h
      · exact fun h => by cases h
  unfold OffsetIndex.lookup
  split
  · exact fun h => by cases h
  · split
    · exact fun h => by cases h
    · rename_i len _
      split
      · rename_i fault heq
        exact fun h => Bisect.bisect_ne_error (hprobe _) _ _ _ _
          (heq.trans (congrArg Except.error (Except.error.inj h)))
      · exact fun h => by cases h

theorem readBatch_refused (h : readBatch K d s offset count = .error (.error e)) :
    offset < s.baseOffset ∨ s.mmap = none := by
  unfold readBatch at h
  split at h
  · rename_i hlow
    exact .inl hlow
  · split at h
    · cases h
    · right
      cases hmap : s.mmap with
      | none => rfl
      | some len =>
        unfold readerAt at h
        rw [hmap] at h
        simp only at h
        split at h
        · rename_i fault hreader
          cases h
          split at hreader
          · rename_i hlookup
            cases hreader
            exact absurd hlookup (lookup_ne_error _ _ _)
          · unfold sliceFrom at hreader
            split at hreader <;> cases hreader
        · rw [readBatchLoop_eq] at h
          split at h <;> cases h

theorem fetchLoop_refused : ∀ {ss : List LogSegment} {offset count : Nat},
    Partition.fetchLoop K d ss offset count = .error (.error e) →
    ∃ s ∈ ss, offset < s.baseOffset ∨ s.mmap = none
  | [], _, _, h => by cases h
  | s :: ss, offset, count, h => by
    unfold Partition.fetchLoop at h
    split at h
    · cases h
    split at h
    · rename_i fault hread
      cases h
      exact ⟨s, List.mem_cons_self .., readBatch_refused hread⟩
    rename_i batch hbatch
    split at h
    · cases h
    rename_i lastRecord hlast
    split at h
    · rename_i fault hadd
      cases h
      unfold checkedAdd at hadd
      split at hadd <;> cases hadd
    rename_i current hcurrent
    obtain ⟨rfl, -⟩ := checkedAdd_ok hcurrent
    split at h
    · rename_i fault hlater
      cases h
      obtain ⟨t, ht, hbelow | hmap⟩ := fetchLoop_refused hlater
      · -- what has been read is from the offset on
        have hfrom := readBatch_from hbatch lastRecord (List.mem_of_getLast? hlast)
        exact ⟨t, List.mem_cons_of_mem _ ht, .inl (by omega)⟩
      · exact ⟨t, List.mem_cons_of_mem _ ht, .inr hmap⟩
    · cases h

/-- **A refusal** needs a segment that starts above the offset, or one without a map. -/
theorem fetch_refused {p : Partition} (h : p.fetch K d offset count = .error (.error e)) :
    p.segments = [] ∨ ∃ s ∈ p.segments, offset < s.baseOffset ∨ s.mmap = none := by
  rcases List.eq_nil_or_concat p.segments with hnil | ⟨pre, s, hsplit⟩
  · exact .inl hnil
  by_cases hlow : ∀ t ∈ p.segments, t.baseOffset ≤ offset
  · right
    unfold Partition.fetch at h
    have hindex : Partition.findSegmentIndex p.segments offset = .ok pre.length := by
      rw [hsplit] at hlow ⊢
      rw [List.concat_eq_append] at hlow ⊢
      exact findSegmentIndex_spec (fun t ht => hlow t (List.mem_append_left _ ht))
        (hlow s (List.mem_append_right _ (List.mem_singleton_self s)))
        fun t ht => absurd ht List.not_mem_nil
    rw [hindex] at h
    simp only at h
    split at h
    · rename_i fault hloop
      cases h
      obtain ⟨t, ht, hrefused⟩ := fetchLoop_refused hloop
      exact ⟨t, List.mem_of_mem_drop ht, hrefused⟩
    · cases h
  · obtain ⟨t, ht⟩ := not_forall.1 hlow
    obtain ⟨hmem, hhigh⟩ := Classical.not_imp.1 ht
    exact .inr ⟨t, hmem, .inl (Nat.not_le.1 hhigh)⟩

end Gaffa
