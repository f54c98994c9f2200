import Gaffa.Storage.AppendSpec
import Gaffa.Lib.Transition

/-!
# The index of a segment

What the index file of a segment says about its log, over all successful appends from
`LogSegment::create` in an empty directory on: the counter of the records since the last entry goes
from one append to the next, and the positions are those of encodings of different lengths.

* `appendLoop_indexed`: what the loop of an append keeps.
* `index_of_created`: in every state of a run the entries ascend, name where their records start and
  leave no gap that is longer than the interval, and a lookup finds the floor of its target.
-/

set_option autoImplicit false

namespace Gaffa

open ByteString DiskRecord OffsetIndex Transition

variable {K : Crates}

/-! ## The invariant -/

/-- The index lists the records `ks` of `rs`: entry by entry, where each starts. -/
structure Listed (K : Crates) (base : Nat) (rs : List DiskRecord) (ks : List Nat) (file : Bytes)
    (ix : OffsetIndex) : Prop where
  cursor : ix.cursor = indexEntrySize * ks.length
  size : ix.size = ks.length
  length : file.length = indexEntrySize * ks.length
  map : ix.size = 0 ∨ ix.mmap = some file.length
  ascending : ks.Pairwise (· < ·)
  below : ∀ k ∈ ks, k < rs.length
  entry : ∀ i k, ks[i]? = some k →
    entryAt file i = (base + k, (encodedAll K (rs.take k)).length)

/-- Among `count` records there is no gap between the places `ks` that is longer than the interval,
and behind the last of them there are at most `since`. -/
structure Spaced (interval count : Nat) (ks : List Nat) (since : Nat) : Prop where
  gap : ∀ a n, a + n ≤ count → (∀ k ∈ ks, k < a ∨ a + n ≤ k) → n ≤ interval
  near : ∀ a, a ≤ count → (∀ k ∈ ks, k < a) → count - a ≤ since

/-- The loop of an append, in terms of all records of the segment. -/
structure Indexed (K : Crates) (config : SegmentConfig) (base : Nat) (rs : List DiskRecord)
    (ks : List Nat) (st : LogSegment.AppendState) : Prop where
  log : st.log = encodedAll K rs
  position : st.currentPosition = st.log.length
  next : st.nextOffset = base + rs.length
  bytes : ∀ r ∈ rs, 0 < (encoded K r).length
  listed : Listed K base rs ks st.indexFile st.index
  spaced : Spaced config.indexInterval rs.length ks st.recordsSinceIndex

/-! ## One record -/

section Record

variable {base : Nat} {rs : List DiskRecord} {ks : List Nat} {file : Bytes} {ix : OffsetIndex}
  {interval since : Nat}

theorem Listed.skip (h : Listed K base rs ks file ix) (r : DiskRecord) :
    Listed K base (rs ++ [r]) ks file ix where
  cursor := h.cursor
  size := h.size
  length := h.length
  map := h.map
  ascending := h.ascending
  below k hk := by
    have hlt := h.below k hk
    rw [List.length_append]
    omega
  entry i k hk := by
    have hlt := h.below k (List.mem_of_getElem? hk)
    rw [h.entry i k hk, List.take_append_of_le_length (Nat.le_of_lt hlt)]

theorem Listed.take (h : Listed K base rs ks file ix) (r : DiskRecord) {io : IndexIo}
    {offset position : Nat} {file' : Bytes} {ix' : OffsetIndex}
    (happ : OffsetIndex.append io offset position file ix = (.ok (), file', ix'))
    (hoffset : offset = base + rs.length) (hoffset_lt : offset < 2 ^ 64)
    (hposition : position = (encodedAll K rs).length) (hposition_lt : position < 2 ^ 64) :
    Listed K base (rs ++ [r]) (ks ++ [rs.length]) file' ix' := by
  obtain ⟨rfl, rfl⟩ := OffsetIndex.append_ok happ
  have hslot : indexEntrySize * ks.length ≤ file.length := Nat.le_of_eq h.length.symm
  have hentry : ∀ i, entryAt (writeAt file ix.cursor (OffsetIndex.entry offset position)) i =
      if i = ks.length then (offset, position) else entryAt file i := by
    intro i
    rw [h.cursor, entryAt_writeAt hslot hoffset_lt hposition_lt]
  have hlast : (ks ++ [rs.length]).length = ks.length + 1 := by simp
  constructor
  · rw [hlast, h.cursor, Nat.mul_succ]
  · rw [hlast, h.size]
  · rw [hlast, h.cursor, length_writeAt_entry h.length, Nat.max_eq_right (Nat.le_succ _)]
  · exact Or.inr rfl
  · rw [List.pairwise_append]
    refine ⟨h.ascending, List.pairwise_singleton .., ?_⟩
    intro k hk j hj
    rw [List.mem_singleton.1 hj]
    exact h.below k hk
  · intro k hk
    rw [List.length_append, List.length_singleton]
    rcases List.mem_append.1 hk with hk | hk
    · exact Nat.lt_succ_of_lt (h.below k hk)
    · rw [List.mem_singleton.1 hk]
      exact Nat.lt_succ_self _
  · intro i k hk
    rw [hentry]
    by_cases hi : i = ks.length
    · rw [hi, List.getElem?_concat_length] at hk
      cases hk
      rw [if_pos hi, hoffset, hposition, List.take_left]
    · have hold : ks[i]? = some k := by
        have hlt := (List.getElem?_eq_some_iff.1 hk).1
        rw [hlast] at hlt
        rwa [List.getElem?_append_left (by omega)] at hk
      have hlt := h.below k (List.mem_of_getElem? hold)
      rw [if_neg hi, h.entry i k hold, List.take_append_of_le_length (Nat.le_of_lt hlt)]

theorem Spaced.skip {count : Nat} (h : Spaced interval count ks since) (hsince : since < interval)
    (hbelow : ∀ k ∈ ks, k < count) : Spaced interval (count + 1) ks (since + 1) where
  gap a n hle hfree := by
    by_cases hin : a + n ≤ count
    · exact h.gap a n hin hfree
    · -- the gap ends at the new record, so it began behind the last entry
      have hbehind : ∀ k ∈ ks, k < a := by
        intro k hk
        have hlt := hbelow k hk
        rcases hfree k hk with ha | ha
        · exact ha
        · omega
      by_cases ha : a ≤ count
      · have hnear := h.near a ha hbehind
        omega
      · omega
  near a hle hbehind := by
    by_cases ha : a ≤ count
    · have hnear := h.near a ha hbehind
      omega
    · omega

theorem Spaced.take {count : Nat} (h : Spaced interval count ks since) :
    Spaced interval (count + 1) (ks ++ [count]) 1 where
  gap a n hle hfree := by
    rcases hfree count (List.mem_append_right _ (List.mem_singleton_self _)) with ha | ha
    · omega
    · exact h.gap a n ha fun k hk => hfree k (List.mem_append_left _ hk)
  near a hle hbehind := by
    have ha := hbehind count (List.mem_append_right _ (List.mem_singleton_self _))
    omega

end Record

/-! ## The loop -/

theorem length_encode_pos {r : DiskRecord} {bs : Bytes} (h : r.encode K = .ok bs) :
    0 < bs.length := by
  unfold DiskRecord.encode at h
  split at h
  · cases h
  · cases h
    rw [List.length_append, length_toBe]
    omega

section Loop

variable {config : SegmentConfig} {base : Nat} {rs : List DiskRecord} {ks : List Nat}
  {st st' : LogSegment.AppendState}

/-- **One iteration** of the loop: the record is behind the log, and the index lists it or skips
it. -/
theorem Indexed.appendRecord {io : LogSegment.RecordIo} {message : Message}
    (h : Indexed K config base rs ks st)
    (hrec : LogSegment.appendRecord K config io message st = (.ok (), st')) :
    ∃ ks', Indexed K config base (rs ++ [LogSegment.recordOf config st.nextOffset message]) ks'
      st' := by
  obtain ⟨bs, st₁, henc, hix, hadv⟩ := appendRecord_ok hrec
  obtain ⟨hposition, hnext, rfl⟩ := advance_ok hadv
  generalize hr : LogSegment.recordOf config st.nextOffset message = r at henc ⊢
  have hbs : encodedAll K (rs ++ [r]) = encodedAll K rs ++ bs := by
    simp [encoded_of_encode henc]
  have hbytes : ∀ q ∈ rs ++ [r], 0 < (encoded K q).length := by
    intro q hq
    rcases List.mem_append.1 hq with hq | hq
    · exact h.bytes q hq
    · rw [List.mem_singleton.1 hq, encoded_of_encode henc]
      exact length_encode_pos henc
  rcases updateIndex_ok hix with ⟨hlt, rfl⟩ | ⟨-, file, ix, happ, rfl⟩
  · refine ⟨ks, ?_, ?_, ?_, hbytes, h.listed.skip r, ?_⟩
    · simp only [h.log, hbs]
    · simp only [List.length_append, h.position]
    · simp only [h.next, List.length_append, List.length_singleton, Nat.add_assoc]
    · rw [List.length_append, List.length_singleton]
      exact h.spaced.skip hlt h.listed.below
  · have hlisted := h.listed.take r happ h.next (Nat.lt_of_succ_lt hnext)
      (by rw [h.position, h.log]) (Nat.lt_of_le_of_lt (Nat.le_add_right ..) hposition)
    refine ⟨ks ++ [rs.length], ?_, ?_, ?_, hbytes, hlisted, ?_⟩
    · simp only [h.log, hbs]
    · simp only [List.length_append, h.position]
    · simp only [h.next, List.length_append, List.length_singleton, Nat.add_assoc]
    · rw [List.length_append, List.length_singleton]
      exact h.spaced.take

/-- **The loop** of an append. -/
theorem appendLoop_indexed {io : Nat → LogSegment.RecordIo} {messages : List Message}
    (h : Indexed K config base rs ks st)
    (hloop : LogSegment.appendLoop K config io messages st = (.ok (), st')) :
    ∃ ks', Indexed K config base (rs ++ batchRecords config (base + rs.length) messages) ks'
      st' := by
  induction messages generalizing io rs ks st with
  | nil =>
    cases hloop
    rw [batchRecords, List.append_nil]
    exact ⟨ks, h⟩
  | cons message messages ih =>
    unfold LogSegment.appendLoop at hloop
    split at hloop
    · cases hloop
    · rename_i st₁ hrec
      obtain ⟨ks₁, h₁⟩ := h.appendRecord hrec
      obtain ⟨ks', h'⟩ := ih h₁ hloop
      rw [h.next, List.append_assoc, List.length_append, List.length_singleton,
        ← Nat.add_assoc] at h'
      exact ⟨ks', h'⟩

end Loop

/-! ## Runs of appends -/

/-- An append that succeeds, as a step of the directory and the open segment. -/
def Appends (K : Crates) (x : Dir × LogSegment) (call : LogSegment.AppendIo × List Message)
    (y : Dir × LogSegment) : Prop :=
  ∃ n, LogSegment.append K call.1 call.2 x.1 x.2 = (.ok n, y.1, y.2)

/-- The messages of a run. -/
def appendedMessages (tr : List ((LogSegment.AppendIo × List Message) × (Dir × LogSegment))) :
    List Message :=
  tr.flatMap fun step => step.1.2

/-- The segment and its files between two appends. -/
structure IndexedSegment (K : Crates) (config : SegmentConfig) (base : Nat)
    (rs : List DiskRecord) (x : Dir × LogSegment) : Prop where
  baseOffset : x.2.baseOffset = base
  same : x.2.config = config
  indexed : ∃ ks, Indexed K config base rs ks (LogSegment.appendStart x.1 x.2)

theorem batchRecords_append (config : SegmentConfig) (n : Nat) (ms ms' : List Message) :
    batchRecords config n (ms ++ ms') =
      batchRecords config n ms ++ batchRecords config (n + ms.length) ms' := by
  induction ms generalizing n with
  | nil => rfl
  | cons m ms ih =>
    have hlength : n + (m :: ms).length = n + 1 + ms.length := by
      rw [List.length_cons, Nat.add_comm ms.length 1, Nat.add_assoc]
    rw [List.cons_append, batchRecords, batchRecords, ih, List.cons_append, hlength]

section Run

variable {config : SegmentConfig} {base : Nat} {messages : List Message} {x y : Dir × LogSegment}

theorem indexedSegment_create (K : Crates) (base : Nat) (config : SegmentConfig) :
    IndexedSegment K config base (batchRecords config base [])
      (LogSegment.create base config Table.empty) where
  baseOffset := rfl
  same := rfl
  indexed := by
    have hstart : LogSegment.appendStart (LogSegment.create base config Table.empty).1
        (LogSegment.create base config Table.empty).2 =
          ⟨[], [], OffsetIndex.create, base, 0, 0⟩ := by
      simp [LogSegment.appendStart, LogSegment.create, content, touch,
        Table.get_insert_ne _ (logPath_ne_indexPath _ _),
        Table.get_insert_ne _ (logPath_ne_indexPath _ _).symm]
    rw [hstart]
    refine ⟨[], rfl, rfl, rfl, fun r hr => absurd hr List.not_mem_nil, ?_, ?_⟩
    · exact ⟨rfl, rfl, rfl, Or.inl rfl, List.Pairwise.nil, fun k hk => absurd hk List.not_mem_nil,
        fun i k hk => absurd hk (by simp)⟩
    · exact ⟨fun a n hle _ => Nat.le_trans (Nat.le_of_add_left_le hle) (Nat.zero_le _),
        fun a _ _ => by simp [batchRecords]⟩

/-- **One append** that succeeds. -/
theorem IndexedSegment.append {call : LogSegment.AppendIo × List Message}
    (h : IndexedSegment K config base (batchRecords config base messages) x)
    (happ : Appends K x call y) :
    IndexedSegment K config base (batchRecords config base (messages ++ call.2)) y := by
  obtain ⟨d, s⟩ := x
  obtain ⟨d', s'⟩ := y
  obtain ⟨n, happ⟩ := happ
  obtain ⟨-, -, st, hloop, rfl, rfl⟩ := append_ok happ
  obtain ⟨ks, hks⟩ := h.indexed
  rw [h.same] at hloop
  obtain ⟨ks', h'⟩ := appendLoop_indexed hks hloop
  rw [length_batchRecords, ← batchRecords_append] at h'
  generalize hs : LogSegment.remap st.log
    { LogSegment.appendEnd s st with size := st.currentPosition } = s'
  have hfields : s'.baseOffset = s.baseOffset ∧ s'.config = s.config ∧ s'.index = st.index ∧
      s'.size = st.currentPosition ∧ s'.nextOffset = st.nextOffset ∧
      s'.recordsSinceIndex = st.recordsSinceIndex := by
    rw [← hs]
    unfold LogSegment.remap
    split <;> exact ⟨rfl, rfl, rfl, rfl, rfl, rfl⟩
  obtain ⟨hbase, hconfig, hindex, hsize, hnext, hsince⟩ := hfields
  have hstart : LogSegment.appendStart (LogSegment.appendDir d s st) s' = st := by
    rw [LogSegment.appendStart, hbase, hindex, hsize, hnext, hsince, content, content,
      get_appendDir_log, get_appendDir_index]
    rfl
  exact ⟨hbase.trans h.baseOffset, hconfig.trans h.same, ks', by rw [hstart]; exact h'⟩

/-- **A run of appends** that succeed. -/
theorem IndexedSegment.run {tr : List ((LogSegment.AppendIo × List Message) × (Dir × LogSegment))}
    (h : IndexedSegment K config base (batchRecords config base messages) x)
    (hrun : Run (Appends K) x tr) :
    IndexedSegment K config base (batchRecords config base (messages ++ appendedMessages tr))
      (last x tr) := by
  induction tr generalizing x messages with
  | nil =>
    rw [appendedMessages, List.flatMap_nil, List.append_nil]
    exact h
  | cons step tr ih =>
    obtain ⟨call, y⟩ := step
    have hrest := ih (h.append hrun.1) hrun.2
    rw [List.append_assoc] at hrest
    exact hrest

end Run

/-! ## What the index says -/

/-- The records below an offset are the first ones. -/
theorem Numbered.filter_lt {n k : Nat} {rs : List DiskRecord} (h : Numbered n rs) :
    (rs.filter fun r => r.offset < n + k) = rs.take k := by
  induction rs generalizing n k with
  | nil => rw [List.filter_nil, List.take_nil]
  | cons r rs ih =>
    cases k with
    | zero =>
      have hrest := ih (k := 0) h.2
      rw [List.take_zero, List.filter_eq_nil_iff] at hrest ⊢
      intro q hq
      rcases List.mem_cons.1 hq with rfl | hq
      · simp [h.1]
      · have hlt := hrest q hq
        simp only [decide_eq_true_eq] at hlt ⊢
        omega
    | succ k =>
      have hr : r.offset < n + (k + 1) := by rw [h.1]; omega
      have hrest := ih (k := k) h.2
      rw [Nat.add_right_comm, Nat.add_assoc] at hrest
      rw [List.filter_cons_of_pos (by simpa using hr), hrest, List.take_succ_cons]

/-- Records with bytes start further on, the later they come. -/
theorem length_take_lt {rs : List DiskRecord} (hbytes : ∀ r ∈ rs, 0 < (encoded K r).length)
    {j k : Nat} (hjk : j < k) (hk : k ≤ rs.length) :
    (encodedAll K (rs.take j)).length < (encodedAll K (rs.take k)).length := by
  have hj : j < rs.length := Nat.lt_of_lt_of_le hjk hk
  have hsplit : rs.take k = rs.take (j + 1) ++ (rs.drop (j + 1)).take (k - (j + 1)) := by
    rw [← List.take_add, Nat.add_sub_cancel' hjk]
  have hpos := hbytes rs[j] (List.getElem_mem hj)
  rw [hsplit, List.take_succ_eq_append_getElem hj, encodedAll_append, encodedAll_append,
    List.length_append, List.length_append, encodedAll_cons, encodedAll_nil, List.append_nil]
  omega

/-- What is claimed of the index of a segment whose log holds the records `rs`. -/
structure IndexTells (K : Crates) (config : SegmentConfig) (base : Nat) (rs : List DiskRecord)
    (log file : Bytes) (s : LogSegment) : Prop where
  whole : log = encodedAll K rs
  size : s.size = log.length
  entries : file.length = indexEntrySize * s.index.size
  offsets : ∀ i j, i < j → j < s.index.size → (entryAt file i).1 < (entryAt file j).1
  positions : ∀ i j, i < j → j < s.index.size → (entryAt file i).2 < (entryAt file j).2
  starts : ∀ i, i < s.index.size → base ≤ (entryAt file i).1 ∧
    (entryAt file i).1 < base + rs.length ∧
    (entryAt file i).2 = (encodedAll K (rs.filter fun r => r.offset < (entryAt file i).1)).length
  gaps : ∀ o n, base ≤ o → o + n ≤ base + rs.length →
    (∀ i, i < s.index.size → (entryAt file i).1 < o ∨ o + n ≤ (entryAt file i).1) →
    n ≤ config.indexInterval
  lookup : ∀ target, ∃ p?, s.index.lookup file target = .ok p? ∧
    IsFloor file s.index.size target p?

section Tells

variable {config : SegmentConfig} {base : Nat} {rs : List DiskRecord} {ks : List Nat}
  {st : LogSegment.AppendState}

theorem Listed.get {file : Bytes} {ix : OffsetIndex} (h : Listed K base rs ks file ix) {i : Nat}
    (hi : i < ix.size) : ∃ k, ks[i]? = some k ∧ k < rs.length ∧
      entryAt file i = (base + k, (encodedAll K (rs.take k)).length) := by
  rw [h.size] at hi
  have hget := List.getElem?_eq_getElem hi
  exact ⟨ks[i], hget, h.below _ (List.getElem_mem hi), h.entry i _ hget⟩

theorem Listed.get_lt {file : Bytes} {ix : OffsetIndex} (h : Listed K base rs ks file ix)
    {i j k l : Nat} (hij : i < j) (hk : ks[i]? = some k) (hl : ks[j]? = some l) : k < l := by
  obtain ⟨hi, rfl⟩ := List.getElem?_eq_some_iff.1 hk
  obtain ⟨hj, rfl⟩ := List.getElem?_eq_some_iff.1 hl
  exact List.pairwise_iff_getElem.1 h.ascending i j hi hj hij

theorem Indexed.tells (h : Indexed K config base rs ks st) (hnumbered : Numbered base rs)
    {s : LogSegment} (hsize : s.size = st.currentPosition) (hindex : s.index = st.index) :
    IndexTells K config base rs st.log st.indexFile s := by
  have hlisted := h.listed
  rw [← hindex] at hlisted
  have hoffsets : ∀ i j, i < j → j < s.index.size →
      (entryAt st.indexFile i).1 < (entryAt st.indexFile j).1 := by
    intro i j hij hj
    obtain ⟨k, hk, -, hentry⟩ := hlisted.get (Nat.lt_trans hij hj)
    obtain ⟨l, hl, -, hentry'⟩ := hlisted.get hj
    rw [hentry, hentry']
    exact Nat.add_lt_add_left (hlisted.get_lt hij hk hl) base
  have hentries : st.indexFile.length = indexEntrySize * s.index.size := by
    rw [hlisted.length, hlisted.size]
  refine ⟨h.log, hsize.trans h.position, hentries, hoffsets, ?_, ?_, ?_, ?_⟩
  · intro i j hij hj
    obtain ⟨k, hk, -, hentry⟩ := hlisted.get (Nat.lt_trans hij hj)
    obtain ⟨l, hl, hlt, hentry'⟩ := hlisted.get hj
    rw [hentry, hentry']
    exact length_take_lt h.bytes (hlisted.get_lt hij hk hl) (Nat.le_of_lt hlt)
  · intro i hi
    obtain ⟨k, -, hlt, hentry⟩ := hlisted.get hi
    rw [hentry, hnumbered.filter_lt]
    exact ⟨Nat.le_add_right .., Nat.add_lt_add_left hlt base, rfl⟩
  · intro o n hbase hle hfree
    refine h.spaced.gap (o - base) n (by omega) ?_
    intro k hk
    obtain ⟨i, hi, rfl⟩ := List.getElem_of_mem hk
    have hget := List.getElem?_eq_getElem hi
    have hentry := hfree i (by rw [hlisted.size]; exact hi)
    rw [hlisted.entry i _ hget] at hentry
    simp only at hentry
    omega
  · intro target
    exact lookup_floor target hlisted.map (Nat.le_of_eq hentries.symm) hoffsets

end Tells

/-- **The index of a segment** that was created in an empty directory, after any appends that
succeeded: the entries ascend, each says where its record starts, of more than `index_interval`
records in a row one is listed, and a lookup finds the floor of its target. -/
theorem index_of_created (K : Crates) (config : SegmentConfig) (base : Nat)
    (tr : List ((LogSegment.AppendIo × List Message) × (Dir × LogSegment)))
    (hrun : Run (Appends K) (LogSegment.create base config Table.empty) tr) :
    IndexTells K config base (batchRecords config base (appendedMessages tr))
      (content (last (LogSegment.create base config Table.empty) tr).1 (logPath base))
      (content (last (LogSegment.create base config Table.empty) tr).1 (indexPath base))
      (last (LogSegment.create base config Table.empty) tr).2 := by
  have hsegment := (indexedSegment_create K base config).run hrun
  rw [List.nil_append] at hsegment
  obtain ⟨ks, hks⟩ := hsegment.indexed
  have htells := hks.tells (numbered_batchRecords config base _) rfl rfl
  rw [LogSegment.appendStart, hsegment.baseOffset] at htells
  exact htells

/-- Two appends to a segment that indexes every record but the first. -/
def indexedAppends : List ((LogSegment.AppendIo × List Message) × (Dir × LogSegment)) :=
  let x := LogSegment.create 5 ⟨1000, 1, .none⟩ Table.empty
  let y := (LogSegment.append plainCrates .done [⟨none, [1], 0⟩, ⟨none, [2, 2], 0⟩] x.1 x.2).2
  [((.done, [⟨none, [1], 0⟩, ⟨none, [2, 2], 0⟩]), y),
    ((.done, [⟨none, [3], 0⟩]),
      (LogSegment.append plainCrates .done [⟨none, [3], 0⟩] y.1 y.2).2)]

theorem index_of_created_two :
    let x := last (LogSegment.create 5 ⟨1000, 1, .none⟩ Table.empty) indexedAppends
    IndexTells plainCrates ⟨1000, 1, .none⟩ 5
      (batchRecords ⟨1000, 1, .none⟩ 5 [⟨none, [1], 0⟩, ⟨none, [2, 2], 0⟩, ⟨none, [3], 0⟩])
      (content x.1 (logPath 5)) (content x.1 (indexPath 5)) x.2 :=
  index_of_created plainCrates ⟨1000, 1, .none⟩ 5 indexedAppends ⟨⟨5, rfl⟩, ⟨7, rfl⟩, trivial⟩

end Gaffa
