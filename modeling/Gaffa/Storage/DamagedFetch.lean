import Gaffa.Storage.ArbitraryFiles
import Gaffa.Storage.PartitionSpec

/-!
# Fetching from a partition opened over arbitrary files

`Partition::fetch` on a partition that `Partition::open_with_config` has opened over segment files
of any content.  A batch read stops quietly at the first bytes that do not decode, and the fetch
takes an empty batch for the end of the log.

* `readBatch_over`: a batch read of an opened segment, from what its two files hold.
* `fetchLoop_calm`, `fetchLoop_damaged`: the loop of a fetch panics for some number of records exactly
  when the records lead to damage that a read cannot get over.
* `fetch_honest_iff`: the fetches from an offset answer with an error or with records from it on exactly
  when no segment starts at or below it, or the last one that does has its record, and leads to no such
  damage.
-/

set_option autoImplicit false

namespace Gaffa

open ByteString DiskRecord PrefixCode LogSegment

variable {K : Crates} {d : Dir}

/-! ## Opened segments -/

/-- The segment is what `LogSegment::open` has made of its two files. -/
def OpenedOver (K : Crates) (d : Dir) (s : LogSegment) : Prop :=
  ∃ config log indexFile, d.get (logPath s.baseOffset) = some log ∧
    d.get (indexPath s.baseOffset) = some indexFile ∧
    s = segmentOver K s.baseOffset config log indexFile

theorem opened_of_open {base : Nat} {config : SegmentConfig} {s : LogSegment}
    (h : open_ K base config d = .ok s) : s.baseOffset = base ∧ OpenedOver K d s := by
  cases hlog : d.get (logPath base) with
  | none =>
    unfold open_ at h
    rw [hlog] at h
    cases h
  | some log =>
    cases hindex : d.get (indexPath base) with
    | none =>
      unfold open_ at h
      rw [hlog, hindex] at h
      cases h
    | some indexFile =>
      rw [open_eq hlog hindex] at h
      split_ifs at h
      cases h
      exact ⟨rfl, config, log, indexFile, hlog, hindex, rfl⟩

/-- The bytes from which a read of the offset decodes. -/
def bytesFor (d : Dir) (s : LogSegment) (offset : Nat) : Bytes :=
  (content d (logPath s.baseOffset)).drop (startFor (content d (indexPath s.baseOffset)) offset)

/-- The records that a batch read of the offset can return. -/
def recordsFor (K : Crates) (d : Dir) (s : LogSegment) (offset : Nat) : List DiskRecord :=
  (recordsIn K (bytesFor d s offset)).filter (fun r => offset ≤ r.offset)

/-- A batch read for `count` records panics: the index points behind the log, or decoding gets to a
length field below 4 before the batch is full. -/
def Breaks (K : Crates) (d : Dir) (s : LogSegment) (offset count : Nat) : Prop :=
  (content d (logPath s.baseOffset)).length <
      startFor (content d (indexPath s.baseOffset)) offset ∨
    ((recordsFor K d s offset).length < count ∧ ShortLength (stopIn K (bytesFor d s offset)))

/-- **A batch read of an opened segment.** -/
theorem readBatch_over {s : LogSegment} (h : OpenedOver K d s) (offset count : Nat) :
    (offset < s.baseOffset → readBatch K d s offset count =
      .error (.error (.invalidOffset offset))) ∧
    (s.baseOffset ≤ offset → s.nextOffset ≤ offset → readBatch K d s offset count = .ok []) ∧
    (s.baseOffset ≤ offset → offset < s.nextOffset → Breaks K d s offset count →
      panicked (readBatch K d s offset count) = true) ∧
    (s.baseOffset ≤ offset → offset < s.nextOffset → ¬ Breaks K d s offset count →
      readBatch K d s offset count = .ok ((recordsFor K d s offset).take count)) := by
  obtain ⟨config, log, indexFile, hlog, hindex, hs⟩ := h
  have hserved : s.baseOffset ≤ offset → offset < s.nextOffset →
      readBatch K d s offset count =
        if startFor indexFile offset ≤ log.length then
          readBatchLoop K offset ((log.drop (startFor indexFile offset)).length + 1) count
            (log.drop (startFor indexFile offset))
        else .error (.panic "range start index out of range for slice") := by
    intro hle hlt
    have hin : ¬ offset < s.baseOffset ∧
        ¬ offset ≥ (segmentOver K s.baseOffset config log indexFile).nextOffset :=
      ⟨Nat.not_lt.2 hle, by rw [← hs]; exact Nat.not_le.2 hlt⟩
    obtain ⟨hne, -, hlast⟩ := served_opened hin
    conv_lhs => rw [hs]
    exact readBatch_opened hlog hindex hne hle hlast count
  have hcontent : content d (logPath s.baseOffset) = log := by rw [content, hlog]; rfl
  have hindexed : content d (indexPath s.baseOffset) = indexFile := by rw [content, hindex]; rfl
  unfold Breaks recordsFor bytesFor
  rw [hcontent, hindexed]
  refine ⟨fun hlow => ?_, fun hle hge => ?_, fun hle hlt hbreaks => ?_, fun hle hlt hcalm => ?_⟩
  · unfold LogSegment.readBatch
    rw [if_pos hlow]
  · unfold LogSegment.readBatch
    rw [if_neg (Nat.not_lt.2 hle), if_pos hge]
  · rw [hserved hle hlt]
    rcases hbreaks with hbehind | hshort
    · rw [if_neg (Nat.not_le.2 hbehind)]
      rfl
    · split_ifs
      · rw [readBatchLoop_eq, if_pos hshort]
        rfl
      · rfl
  · obtain ⟨hin, hfull⟩ := not_or.1 hcalm
    rw [hserved hle hlt, if_pos (Nat.not_lt.1 hin), readBatchLoop_eq, if_neg hfull]

/-! ## The loop of a fetch -/

/-- A batch read of the segment from the offset decodes records. -/
def ReadsAt (s : LogSegment) (offset : Nat) : Prop :=
  s.baseOffset ≤ offset ∧ offset < s.nextOffset

instance (s : LogSegment) (offset : Nat) : Decidable (ReadsAt s offset) :=
  inferInstanceAs (Decidable (_ ∧ _))

/-- What stands in the files from the offset on cannot be read to its end: the index points behind the
log, decoding gets to a length field below 4, or there is no offset behind a record. -/
def Damaged (K : Crates) (d : Dir) (s : LogSegment) (offset : Nat) : Prop :=
  (content d (logPath s.baseOffset)).length <
      startFor (content d (indexPath s.baseOffset)) offset ∨
    ShortLength (stopIn K (bytesFor d s offset)) ∨
    ∃ r ∈ recordsFor K d s offset, 2 ^ 64 ≤ r.offset + 1

instance (K : Crates) (d : Dir) (s : LogSegment) (offset : Nat) :
    Decidable (Damaged K d s offset) := inferInstanceAs (Decidable (_ ∨ _ ∨ _))

/-- The records of the segments from the offset on lead to another segment: there the offset behind the
last one of them is to follow. -/
inductive LeadsTo (K : Crates) (d : Dir) :
    List LogSegment → Nat → LogSegment → Nat → Prop
  | here (s : LogSegment) (ss : List LogSegment) (offset : Nat) : LeadsTo K d (s :: ss) offset s offset
  | next {s t : LogSegment} {ss : List LogSegment} {offset behind : Nat} {r : DiskRecord}
      (hreads : ReadsAt s offset) (hlast : (recordsFor K d s offset).getLast? = some r)
      (hrest : LeadsTo K d ss (r.offset + 1) t behind) : LeadsTo K d (s :: ss) offset t behind

/-- When the next segment starts above the offset behind, the records lead nowhere. -/
theorem LeadsTo.of_gap {s t u : LogSegment} {ss : List LogSegment} {offset behind : Nat}
    (h : LeadsTo K d (s :: u :: ss) offset t behind)
    (hgap : ∀ r ∈ (recordsFor K d s offset).getLast?, r.offset + 1 < u.baseOffset)
    (hreads : ReadsAt t behind) : t = s ∧ behind = offset := by
  cases h with
  | here => exact ⟨rfl, rfl⟩
  | next _ hlast hrest =>
    have hlow := hgap _ hlast
    cases hrest with
    | here => exact absurd hreads.1 (Nat.not_le.2 hlow)
    | next hstart _ _ => exact absurd hstart.1 (Nat.not_le.2 hlow)

section Loop

variable {s : LogSegment} {ss : List LogSegment} {offset count : Nat}

theorem not_breaks (h : ¬ Damaged K d s offset) (count : Nat) : ¬ Breaks K d s offset count := by
  obtain ⟨hin, hcalm, -⟩ := not_or.1 h |>.imp_right not_or.1
  rintro (hbehind | ⟨-, hshort⟩)
  · exact hin hbehind
  · exact hcalm hshort

theorem fetchLoop_zero (K : Crates) (d : Dir) (ss : List LogSegment) (offset : Nat) :
    Partition.fetchLoop K d ss offset 0 = .ok [] := by
  cases ss with
  | nil => rfl
  | cons s ss => exact if_pos rfl

/-- The read of the first segment panics. -/
theorem fetchLoop_breaks (h : OpenedOver K d s) (hreads : ReadsAt s offset) (hcount : 0 < count)
    (hbreaks : Breaks K d s offset count) :
    panicked (Partition.fetchLoop K d (s :: ss) offset count) = true := by
  have hpanic := (readBatch_over h offset count).2.2.1 hreads.1 hreads.2 hbreaks
  unfold Partition.fetchLoop
  rw [if_neg (Nat.ne_of_gt hcount)]
  cases hread : readBatch K d s offset count with
  | ok records => rw [hread] at hpanic; cases hpanic
  | error e =>
    rw [hread] at hpanic
    exact hpanic

/-- The first segment has no record from the offset on. -/
theorem fetchLoop_none (h : OpenedOver K d s) (hreads : ReadsAt s offset)
    (hcalm : ¬ Breaks K d s offset count) (hnone : recordsFor K d s offset = []) :
    Partition.fetchLoop K d (s :: ss) offset count = .ok [] := by
  have hread := (readBatch_over h offset count).2.2.2 hreads.1 hreads.2 hcalm
  unfold Partition.fetchLoop
  split
  · rfl
  · rw [hread, hnone, List.take_nil]
    rfl

/-- There is no offset behind the last record that is read. -/
theorem fetchLoop_overflow (h : OpenedOver K d s) (hreads : ReadsAt s offset) (hcount : 0 < count)
    (hcalm : ¬ Breaks K d s offset count) {r : DiskRecord}
    (hlast : ((recordsFor K d s offset).take count).getLast? = some r)
    (hover : 2 ^ 64 ≤ r.offset + 1) :
    panicked (Partition.fetchLoop K d (s :: ss) offset count) = true := by
  have hread := (readBatch_over h offset count).2.2.2 hreads.1 hreads.2 hcalm
  unfold Partition.fetchLoop
  rw [if_neg (Nat.ne_of_gt hcount), hread]
  simp only [hlast, checkedAdd, if_neg (Nat.not_lt.2 hover)]
  rfl

/-- The loop goes on behind the last record that is read. -/
theorem fetchLoop_next (h : OpenedOver K d s) (hreads : ReadsAt s offset) (hcount : 0 < count)
    (hcalm : ¬ Breaks K d s offset count) {r : DiskRecord}
    (hlast : ((recordsFor K d s offset).take count).getLast? = some r)
    (hfits : r.offset + 1 < 2 ^ 64) :
    Partition.fetchLoop K d (s :: ss) offset count =
      (Partition.fetchLoop K d ss (r.offset + 1)
        (count - ((recordsFor K d s offset).take count).length)).map
          ((recordsFor K d s offset).take count ++ ·) := by
  have hread := (readBatch_over h offset count).2.2.2 hreads.1 hreads.2 hcalm
  rw [Partition.fetchLoop, if_neg (Nat.ne_of_gt hcount), hread]
  simp only [hlast, checkedAdd_of_lt hfits]
  cases Partition.fetchLoop K d ss (r.offset + 1)
    (count - ((recordsFor K d s offset).take count).length) with
  | ok later => rfl
  | error e => rfl

/-- **The loop does not panic** when the records lead to no damage. -/
theorem fetchLoop_calm : ∀ {ss : List LogSegment}, (∀ s ∈ ss, OpenedOver K d s) →
    ∀ {offset : Nat}, (∀ t behind, LeadsTo K d ss offset t behind → ReadsAt t behind →
      ¬ Damaged K d t behind) →
    ∀ count, panicked (Partition.fetchLoop K d ss offset count) = false
  | [], _, _, _, _ => rfl
  | s :: ss, h, offset, hleads, count => by
    obtain ⟨hs, hss⟩ := List.forall_mem_cons.1 h
    obtain ⟨hlow, hend, -, -⟩ := readBatch_over hs offset count
    rcases Nat.eq_zero_or_pos count with rfl | hcount
    · rw [fetchLoop_zero]
      rfl
    by_cases hreads : ReadsAt s offset
    · have hsound := hleads s offset (.here s ss offset) hreads
      have hcalm := not_breaks hsound count
      cases hlast : ((recordsFor K d s offset).take count).getLast? with
      | none =>
        have hnil := List.getLast?_eq_none_iff.1 hlast
        rw [fetchLoop_none hs hreads hcalm ((List.take_eq_nil_iff.1 hnil).resolve_left
          (Nat.ne_of_gt hcount))]
        rfl
      | some r =>
        have hmem := List.mem_of_mem_take (List.mem_of_getLast? hlast)
        have hfits : r.offset + 1 < 2 ^ 64 := by
          by_contra hover
          exact hsound (.inr (.inr ⟨r, hmem, Nat.not_lt.1 hover⟩))
        rw [fetchLoop_next hs hreads hcount hcalm hlast hfits, panicked_map]
        by_cases hfull : count ≤ (recordsFor K d s offset).length
        · rw [List.length_take, Nat.min_eq_left hfull, Nat.sub_self, fetchLoop_zero]
          rfl
        · -- the whole segment has been read
          rw [List.take_of_length_le (Nat.le_of_not_le hfull)] at hlast ⊢
          exact fetchLoop_calm hss (fun t behind ht =>
            hleads t behind (.next hreads hlast ht)) _
    · unfold Partition.fetchLoop
      rw [if_neg (Nat.ne_of_gt hcount)]
      by_cases hbelow : offset < s.baseOffset
      · rw [hlow hbelow]
        rfl
      · have hle := Nat.not_lt.1 hbelow
        rw [hend hle (Nat.not_lt.1 fun hlt => hreads ⟨hle, hlt⟩)]
        rfl

/-- Damage where the loop starts makes it panic when it asks for enough records. -/
theorem exists_panicked (h : OpenedOver K d s) (hreads : ReadsAt s offset)
    (hdamaged : Damaged K d s offset) (ss : List LogSegment) :
    ∃ count, 0 < count ∧ panicked (Partition.fetchLoop K d (s :: ss) offset count) = true := by
  rcases hdamaged with hbehind | hshort | ⟨r, hr, hover⟩
  · exact ⟨1, Nat.one_pos, fetchLoop_breaks h hreads Nat.one_pos (.inl hbehind)⟩
  · exact ⟨_, Nat.succ_pos _, fetchLoop_breaks h hreads (Nat.succ_pos _)
      (.inr ⟨Nat.lt_succ_self _, hshort⟩)⟩
  · obtain ⟨before, after, hsplit⟩ := List.append_of_mem hr
    refine ⟨before.length + 1, Nat.succ_pos _, ?_⟩
    by_cases hcalm : Breaks K d s offset (before.length + 1)
    · exact fetchLoop_breaks h hreads (Nat.succ_pos _) hcalm
    · refine fetchLoop_overflow h hreads (Nat.succ_pos _) hcalm (r := r) ?_ hover
      rw [hsplit, List.take_append, List.take_of_length_le (Nat.le_succ _), Nat.add_sub_cancel_left]
      exact List.getLast?_concat

/-- **The loop panics** for some number of records when these lead to damage. -/
theorem fetchLoop_damaged {ss : List LogSegment} {t : LogSegment} {offset behind : Nat}
    (h : LeadsTo K d ss offset t behind) (hopened : ∀ s ∈ ss, OpenedOver K d s)
    (hreads : ReadsAt t behind) (hdamaged : Damaged K d t behind) :
    ∃ count, 0 < count ∧ panicked (Partition.fetchLoop K d ss offset count) = true := by
  induction h with
  | here s ss offset =>
    exact exists_panicked (hopened s (List.mem_cons_self ..)) hreads hdamaged ss
  | @next s t ss offset behind r hstart hlast hrest ih =>
    obtain ⟨hs, hss⟩ := List.forall_mem_cons.1 hopened
    obtain ⟨count, hcount, hpanic⟩ := ih hss hreads hdamaged
    have hpos : 0 < (recordsFor K d s offset).length + count := by omega
    refine ⟨_, hpos, ?_⟩
    by_cases hcalm : Breaks K d s offset ((recordsFor K d s offset).length + count)
    · exact fetchLoop_breaks hs hstart hpos hcalm
    · have hall : (recordsFor K d s offset).take ((recordsFor K d s offset).length + count) =
          recordsFor K d s offset := List.take_of_length_le (Nat.le_add_right ..)
      by_cases hfits : r.offset + 1 < 2 ^ 64
      · rw [fetchLoop_next hs hstart hpos hcalm (by rw [hall]; exact hlast) hfits, panicked_map, hall,
          Nat.add_sub_cancel_left]
        exact hpanic
      · exact fetchLoop_overflow hs hstart hpos hcalm (by rw [hall]; exact hlast)
          (Nat.not_lt.1 hfits)

end Loop

/-- The first record of the loop is the first one that its first segment can return. -/
theorem fetchLoop_head {s : LogSegment} {ss : List LogSegment} {offset count : Nat}
    (h : OpenedOver K d s) (hle : s.baseOffset ≤ offset) (hcount : 0 < count)
    {records : List DiskRecord}
    (hok : Partition.fetchLoop K d (s :: ss) offset count = .ok records) :
    records.head? = if s.nextOffset ≤ offset then none else (recordsFor K d s offset).head? := by
  obtain ⟨-, hend, hbreak, hread⟩ := readBatch_over h offset count
  unfold Partition.fetchLoop at hok
  rw [if_neg (Nat.ne_of_gt hcount)] at hok
  by_cases hover : s.nextOffset ≤ offset
  · rw [hend hle hover] at hok
    cases hok
    rw [if_pos hover]
    rfl
  rw [if_neg hover]
  have hlt := Nat.not_le.1 hover
  have hcalm : ¬ Breaks K d s offset count := by
    intro hbroken
    have hpanic := hbreak hle hlt hbroken
    cases hb : readBatch K d s offset count with
    | ok found => rw [hb] at hpanic; cases hpanic
    | error e => rw [hb] at hok; cases hok
  rw [hread hle hlt hcalm] at hok
  have hhead : ((recordsFor K d s offset).take count).head? = (recordsFor K d s offset).head? := by
    rw [List.head?_take, if_neg (Nat.ne_of_gt hcount)]
  simp only at hok
  cases hlast : ((recordsFor K d s offset).take count).getLast? with
  | none =>
    rw [hlast] at hok
    cases hok
    rw [← hhead, List.getLast?_eq_none_iff.1 hlast]
  | some r =>
    rw [hlast] at hok
    simp only at hok
    split at hok
    · cases hok
    · split at hok
      · cases hok
      · cases hok
        have hne : (recordsFor K d s offset).take count ≠ [] := by
          intro hnil
          rw [hnil] at hlast
          cases hlast
        rw [List.head?_append_of_ne_nil _ hne, hhead]

/-! ## Opened partitions -/

theorem openSegments_opened {config : SegmentConfig} : ∀ {bases : List Nat} {ss : List LogSegment},
    Partition.openSegments K config d bases = .ok ss →
    ss.map LogSegment.baseOffset = bases ∧ ∀ s ∈ ss, OpenedOver K d s
  | [], _, h => by
    cases h
    exact ⟨rfl, fun s hs => absurd hs List.not_mem_nil⟩
  | base :: bases, ss, h => by
    unfold Partition.openSegments at h
    cases hopen : open_ K base config d with
    | error e => rw [hopen] at h; cases h
    | ok s =>
      rw [hopen] at h
      simp only at h
      cases hrest : Partition.openSegments K config d bases with
      | error e => rw [hrest] at h; cases h
      | ok later =>
        rw [hrest] at h
        cases h
        obtain ⟨hbase, hs⟩ := opened_of_open hopen
        obtain ⟨hbases, hlater⟩ := openSegments_opened hrest
        refine ⟨by rw [List.map_cons, hbase, hbases], ?_⟩
        exact List.forall_mem_cons.2 ⟨hs, hlater⟩

/-- A partition that was opened: its segments are what their files make them, by base offset. -/
theorem openWithConfig_opened {topicName : String} {partitionId : Nat} {config : SegmentConfig}
    {listing : List FileName} {p : Partition}
    (h : Partition.openWithConfig K topicName partitionId config listing d = .ok p) :
    (p.segments.Pairwise fun s t => s.baseOffset ≤ t.baseOffset) ∧
      ∀ s ∈ p.segments, OpenedOver K d s := by
  unfold Partition.openWithConfig at h
  split at h
  · cases h
  cases hss : Partition.openSegments K config d
      ((listing.filterMap segmentOffset).mergeSort) with
  | error e => rw [hss] at h; cases h
  | ok ss =>
    rw [hss] at h
    cases h
    obtain ⟨hbases, hopened⟩ := openSegments_opened hss
    refine ⟨?_, hopened⟩
    have hsorted := Table.sorted_mergeSort (listing.filterMap segmentOffset)
    rw [← hbases, List.pairwise_map] at hsorted
    exact hsorted

/-- The segments in order, cut behind the last one that starts at or below an offset. -/
theorem exists_covering {ss : List LogSegment}
    (h : ss.Pairwise fun s t => s.baseOffset ≤ t.baseOffset) (offset : Nat) :
    (∀ s ∈ ss, offset < s.baseOffset) ∨
      ∃ pre s post, ss = pre ++ s :: post ∧ (∀ t ∈ pre, t.baseOffset ≤ offset) ∧
        s.baseOffset ≤ offset ∧ ∀ t ∈ post, offset < t.baseOffset := by
  induction ss with
  | nil => exact .inl fun s hs => absurd hs List.not_mem_nil
  | cons s ss ih =>
    obtain ⟨hhead, htail⟩ := List.pairwise_cons.1 h
    by_cases hs : s.baseOffset ≤ offset
    · right
      rcases ih htail with hall | ⟨pre, u, post, rfl, hpre, hu, hpost⟩
      · exact ⟨[], s, ss, rfl, fun t ht => absurd ht List.not_mem_nil, hs, hall⟩
      · exact ⟨s :: pre, u, post, rfl, List.forall_mem_cons.2 ⟨hs, hpre⟩, hu, hpost⟩
    · left
      refine List.forall_mem_cons.2 ⟨by omega, fun t ht => ?_⟩
      have := hhead t ht
      omega

/-! ## Honest answers -/

/-- An error, or records of which the first one has the offset. -/
def Honest (offset : Nat) (out : Except Fault (List Record)) : Prop :=
  (∃ e, out = .error (.error e)) ∨ ∃ r rest, out = .ok (r :: rest) ∧ r.offset = offset

/-- The log of the segment gets past the offset, and decoding from where the index points, the first
record at or above the offset is the one that has it. -/
def HasRecord (K : Crates) (d : Dir) (s : LogSegment) (offset : Nat) : Prop :=
  offset < s.nextOffset ∧ (recordsFor K d s offset).head?.map DiskRecord.offset = some offset

instance (K : Crates) (d : Dir) (s : LogSegment) (offset : Nat) :
    Decidable (HasRecord K d s offset) := inferInstanceAs (Decidable (_ ∧ _))

/-- The last segment that starts at or below the offset, if there is one, has its record, and the
records from there on lead to no damage. -/
def Delivers (K : Crates) (d : Dir) (ss : List LogSegment) (offset : Nat) : Prop :=
  ∀ pre s post, ss = pre ++ s :: post → s.baseOffset ≤ offset →
    (∀ t ∈ post, offset < t.baseOffset) →
    HasRecord K d s offset ∧ ∀ t behind, LeadsTo K d (s :: post) offset t behind →
      ReadsAt t behind → ¬ Damaged K d t behind

theorem not_honest_panicked {offset : Nat} {out : Except Fault (List Record)}
    (h : panicked out = true) : ¬ Honest offset out := by
  rintro (⟨e, rfl⟩ | ⟨r, rest, rfl, -⟩)
  · cases h
  · cases h

theorem honest_ok_iff {offset : Nat} {records : List Record} :
    Honest offset (.ok records) ↔ records.head?.map Record.offset = some offset := by
  constructor
  · rintro (⟨e, he⟩ | ⟨r, rest, hr, hoffset⟩)
    · cases he
    · cases hr
      exact congrArg some hoffset
  · intro h
    obtain ⟨r, hr, hoffset⟩ := Option.map_eq_some_iff.1 h
    obtain ⟨rest, rfl⟩ := List.head?_eq_some_iff.1 hr
    exact .inr ⟨r, rest, rfl, hoffset⟩

section Covering

variable {p : Partition} {pre post : List LogSegment} {s : LogSegment} {offset count : Nat}

/-- A fetch whose covering segment is known. -/
theorem fetch_covering (hss : p.segments = pre ++ s :: post)
    (hpre : ∀ t ∈ pre, t.baseOffset ≤ offset) (hs : s.baseOffset ≤ offset)
    (hpost : ∀ t ∈ post, offset < t.baseOffset) :
    p.fetch K d offset count =
      (Partition.fetchLoop K d (s :: post) offset count).map (List.map p.toRecord) := by
  unfold Partition.fetch
  rw [hss, findSegmentIndex_spec hpre hs hpost]
  simp only [List.drop_left]
  cases Partition.fetchLoop K d (s :: post) offset count with
  | ok records => rfl
  | error e => rfl

/-- What the loop returns for one record is honest when the segment has the record. -/
theorem hasRecord_of_honest (hopened : OpenedOver K d s) (hs : s.baseOffset ≤ offset)
    (hcalm : ReadsAt s offset → ¬ Damaged K d s offset) (p : Partition)
    (h : Honest offset ((Partition.fetchLoop K d (s :: post) offset 1).map (List.map p.toRecord))) :
    HasRecord K d s offset := by
  have hempty : ¬ Honest offset (.ok (([] : List DiskRecord).map p.toRecord)) := by
    rw [honest_ok_iff]
    exact fun habsurd => by cases habsurd
  by_cases hreach : offset < s.nextOffset
  · refine ⟨hreach, ?_⟩
    have hsound := hcalm ⟨hs, hreach⟩
    have hbreaks := not_breaks hsound 1
    cases hrecords : recordsFor K d s offset with
    | nil =>
      rw [fetchLoop_none hopened ⟨hs, hreach⟩ hbreaks hrecords] at h
      exact absurd h hempty
    | cons r rest =>
      have hfits : r.offset + 1 < 2 ^ 64 := by
        by_contra hover
        refine hsound (.inr (.inr ⟨r, ?_, Nat.not_lt.1 hover⟩))
        rw [hrecords]
        exact List.mem_cons_self ..
      have htake : (recordsFor K d s offset).take 1 = [r] := by rw [hrecords]; rfl
      rw [fetchLoop_next hopened ⟨hs, hreach⟩ Nat.one_pos hbreaks (by rw [htake]; rfl) hfits, htake,
        List.length_singleton, Nat.sub_self, fetchLoop_zero] at h
      exact honest_ok_iff.1 h
  · have hread := (readBatch_over hopened offset 1).2.1 hs (Nat.not_lt.1 hreach)
    rw [Partition.fetchLoop, if_neg Nat.one_ne_zero, hread] at h
    exact absurd h hempty

/-- The fetches from an offset whose covering segment is known. -/
theorem honest_covering_iff (hss : p.segments = pre ++ s :: post)
    (hpre : ∀ t ∈ pre, t.baseOffset ≤ offset) (hs : s.baseOffset ≤ offset)
    (hpost : ∀ t ∈ post, offset < t.baseOffset) (hopened : ∀ t ∈ p.segments, OpenedOver K d t) :
    (∀ count, 0 < count → Honest offset (p.fetch K d offset count)) ↔
      HasRecord K d s offset ∧ ∀ t behind, LeadsTo K d (s :: post) offset t behind →
        ReadsAt t behind → ¬ Damaged K d t behind := by
  have hover : ∀ t ∈ s :: post, OpenedOver K d t := fun t ht =>
    hopened t (by rw [hss]; exact List.mem_append_right _ ht)
  have hsegment := hover s (List.mem_cons_self ..)
  simp only [fetch_covering hss hpre hs hpost]
  constructor
  · intro h
    have hcalm : ∀ t behind, LeadsTo K d (s :: post) offset t behind → ReadsAt t behind →
        ¬ Damaged K d t behind := by
      intro t behind hleads hreads hdamaged
      obtain ⟨count, hcount, hpanic⟩ := fetchLoop_damaged hleads hover hreads hdamaged
      exact not_honest_panicked (by rw [panicked_map]; exact hpanic) (h count hcount)
    exact ⟨hasRecord_of_honest hsegment hs (hcalm s offset (.here s post offset)) p (h 1 Nat.one_pos),
      hcalm⟩
  · rintro ⟨⟨hreach, hhead⟩, hcalm⟩ count hcount
    have hpanic := fetchLoop_calm hover hcalm count
    cases hloop : Partition.fetchLoop K d (s :: post) offset count with
    | ok records =>
      have hfirst := fetchLoop_head hsegment hs hcount hloop
      rw [if_neg (Nat.not_le.2 hreach)] at hfirst
      refine honest_ok_iff.2 ?_
      rw [List.head?_map, Option.map_map, hfirst]
      exact hhead
    | error e =>
      rw [hloop] at hpanic
      cases e with
      | error e => exact .inl ⟨e, rfl⟩
      | panic m => cases hpanic

end Covering

/-- **Honest fetches over arbitrary files**: the fetches from an offset of a partition that was opened
over any segment files answer with an error, or with records from that offset on, exactly when the
files deliver it. -/
theorem fetch_honest_iff {topicName : String} {partitionId : Nat} {config : SegmentConfig}
    {listing : List FileName} {p : Partition}
    (hopen : Partition.openWithConfig K topicName partitionId config listing d = .ok p)
    (offset : Nat) :
    (∀ count, 0 < count → Honest offset (p.fetch K d offset count)) ↔
      Delivers K d p.segments offset := by
  obtain ⟨hsorted, hopened⟩ := openWithConfig_opened hopen
  constructor
  · intro h pre s post hss hs hpost
    have hpre : ∀ t ∈ pre, t.baseOffset ≤ offset := by
      intro t ht
      rw [hss] at hsorted
      have hle := (List.pairwise_append.1 hsorted).2.2 t ht s (List.mem_cons_self ..)
      exact Nat.le_trans hle hs
    exact (honest_covering_iff hss hpre hs hpost hopened).1 h
  · intro h
    rcases exists_covering hsorted offset with hall | ⟨pre, s, post, hss, hpre, hs, hpost⟩
    · intro count _
      unfold Partition.fetch
      rw [findSegmentIndex_none hall]
      exact .inl ⟨_, rfl⟩
    · exact (honest_covering_iff hss hpre hs hpost hopened).2 (h pre s post hss hs hpost)

/-- Two records, one byte of the second one's value changed. -/
def damagedLog : Bytes :=
  encoded plainCrates ⟨0, 1, none, [1], .none⟩ ++
    (encoded plainCrates ⟨1, 1, none, [2], .none⟩).set 33 7

/-- The record behind them, in a segment of its own. -/
def laterLog : Bytes := encoded plainCrates ⟨2, 1, none, [3], .none⟩

/-- The files of the two segments. -/
def damagedDir : Dir :=
  ((twoFiles 0 damagedLog []).insert (logPath 2) laterLog).insert (indexPath 2) []

/-- The partition that opens over them. -/
def damagedPartition : Partition :=
  ⟨"orders", 0, [segmentOver plainCrates 0 SegmentConfig.default damagedLog [],
    segmentOver plainCrates 2 SegmentConfig.default laterLog []], SegmentConfig.default⟩

theorem damaged_opens : Partition.openWithConfig plainCrates "orders" 0 SegmentConfig.default
    [logPath 0, indexPath 0, logPath 2, indexPath 2] damagedDir = .ok damagedPartition := by
  have hbases : ([logPath 0, indexPath 0, logPath 2, indexPath 2].filterMap segmentOffset) =
      [0, 2] := by decide +kernel
  have hopen : Partition.openSegments plainCrates SegmentConfig.default damagedDir [0, 2] =
      .ok damagedPartition.segments := by decide +kernel
  unfold Partition.openWithConfig
  rw [hbases, List.mergeSort_of_pairwise (by decide)]
  simp only [hopen]
  rfl

/-- The record of offset 0 leads to offset 1 of a segment that starts at 2. -/
theorem damaged_delivers : Delivers plainCrates damagedDir damagedPartition.segments 0 := by
  intro pre s post hss hs hpost
  obtain ⟨rfl, rfl, rfl⟩ | ⟨rfl, rfl, rfl⟩ : (pre = [] ∧
      s = segmentOver plainCrates 0 SegmentConfig.default damagedLog [] ∧
      post = [segmentOver plainCrates 2 SegmentConfig.default laterLog []]) ∨
      (pre = [segmentOver plainCrates 0 SegmentConfig.default damagedLog []] ∧
        s = segmentOver plainCrates 2 SegmentConfig.default laterLog [] ∧ post = []) := by
    rcases pre with _ | ⟨x, _ | ⟨y, pre⟩⟩ <;> simp_all [damagedPartition]
  · refine ⟨by decide +kernel, fun t behind hleads hreads => ?_⟩
    obtain ⟨rfl, rfl⟩ := hleads.of_gap (by decide +kernel) hreads
    decide +kernel
  · exact absurd hs (by decide)

/-- All fetches from offset 0 are honest, although the record behind it is damaged; those from the
damaged one are not. -/
theorem fetch_honest_damaged :
    (∀ count, 0 < count → Honest 0 (damagedPartition.fetch plainCrates damagedDir 0 count)) ∧
      ¬ Delivers plainCrates damagedDir damagedPartition.segments 1 := by
  refine ⟨(fetch_honest_iff damaged_opens 0).2 damaged_delivers, fun h => ?_⟩
  have hfetch : damagedPartition.fetch plainCrates damagedDir 1 10 = .ok [] := by decide +kernel
  have hhonest := (fetch_honest_iff damaged_opens 1).2 h 10 (by decide)
  rw [hfetch, honest_ok_iff] at hhonest
  cases hhonest

/-- The damaged record is reported as the end of the log: there are records up to offset 3, and a
fetch from offset 1 returns none, without an error. -/
theorem damage_reads_as_end : ∃ (d : Dir) (listing : List FileName) (p : Partition),
    Partition.openWithConfig plainCrates "orders" 0 SegmentConfig.default listing d = .ok p ∧
      p.nextOffset = 3 ∧ p.fetch plainCrates d 1 10 = .ok [] :=
  ⟨damagedDir, _, damagedPartition, damaged_opens, by decide +kernel, by decide +kernel⟩

end Gaffa
