import Gaffa.Storage.SegmentSpec

/-!
# What a successful append does

* `Grown.appendLoop`: the log grows by the encodings of the batch, the index file by entries that
  carry offsets and positions of its records.
* `Truthful.extend`: when the index entries of a longer log are still truthful.
* `append_backed`: a successful append to a log of whole records keeps handle and files in
  agreement, if the index handle writes where it counts (or does not write at all).
* `append_overruns`: an index handle that writes elsewhere leaves the segment unreadable.
-/

set_option autoImplicit false

namespace Gaffa

open ByteString DiskRecord OffsetIndex

variable {K : Crates}

/-! ## The records of a batch -/

/-- The records that an append builds from its messages, the first with offset `n`. -/
def batchRecords (config : SegmentConfig) : Nat → List Message → List DiskRecord
  | _, [] => []
  | n, m :: ms => LogSegment.recordOf config n m :: batchRecords config (n + 1) ms

@[simp] theorem recordOf_offset (config : SegmentConfig) (n : Nat) (m : Message) :
    (LogSegment.recordOf config n m).offset = n := by
  unfold LogSegment.recordOf; split <;> rfl

@[simp] theorem recordOf_toMessage (config : SegmentConfig) (n : Nat) (m : Message) :
    (LogSegment.recordOf config n m).toMessage = m := by
  unfold LogSegment.recordOf; split <;> rfl

theorem recordOf_eq (config : SegmentConfig) (n : Nat) (m : Message) :
    LogSegment.recordOf config n m = ⟨n, m.timestamp, m.key, m.value, config.compression⟩ := by
  unfold LogSegment.recordOf
  split
  · rename_i h; rw [h]; rfl
  · rfl

@[simp] theorem length_batchRecords (config : SegmentConfig) :
    ∀ (n : Nat) (ms : List Message), (batchRecords config n ms).length = ms.length
  | _, [] => rfl
  | n, _ :: ms => by simp [batchRecords, length_batchRecords config (n + 1) ms]

theorem batchRecords_ne_nil {config : SegmentConfig} {n : Nat} {ms : List Message} (h : ms ≠ []) :
    batchRecords config n ms ≠ [] := by
  rw [← List.length_pos_iff, length_batchRecords]
  exact List.length_pos_iff.2 h

theorem map_toMessage_batchRecords (config : SegmentConfig) :
    ∀ (n : Nat) (ms : List Message), (batchRecords config n ms).map DiskRecord.toMessage = ms
  | _, [] => rfl
  | n, m :: ms => by simp [batchRecords, map_toMessage_batchRecords config (n + 1) ms]

theorem numbered_batchRecords (config : SegmentConfig) :
    ∀ (n : Nat) (ms : List Message), Numbered n (batchRecords config n ms)
  | _, [] => trivial
  | n, m :: ms => ⟨recordOf_offset config n m, numbered_batchRecords config (n + 1) ms⟩

theorem take_batchRecords (config : SegmentConfig) :
    ∀ (n j : Nat) (ms : List Message),
      batchRecords config n (ms.take j) = (batchRecords config n ms).take j
  | _, 0, _ => by simp [batchRecords]
  | _, _ + 1, [] => rfl
  | n, j + 1, m :: ms => by simp [batchRecords, take_batchRecords config (n + 1) j ms]

/-- What the frame limit gives: the key and the record body of a message fit their length
fields. -/
def Fits (K : Crates) (compression : CompressionType) (m : Message) : Prop :=
  (∀ key, m.key = some key → key.length < 2 ^ 31) ∧
    ∀ z, compress K m.value compression = .ok z →
      bodySize ⟨0, m.timestamp, m.key, m.value, compression⟩ z < 2 ^ 32

theorem storable_of_fits {config : SegmentConfig} {n : Nat} {m : Message} {bs : Bytes}
    (hK : K.Lawful) (hfit : Fits K config.compression m) (hn : n < 2 ^ 64)
    (h : (LogSegment.recordOf config n m).encode K = .ok bs) :
    Storable K (LogSegment.recordOf config n m) := by
  rw [recordOf_eq] at h ⊢
  refine ⟨hn, hfit.1, ?_⟩
  unfold DiskRecord.encode at h
  split at h
  · cases h
  · rename_i z hz
    exact ⟨z, hz, hK _ _ _ hz, hfit.2 z hz⟩

/-! ## The append loop -/

theorem updateIndex_ok {config : SegmentConfig} {io : IndexIo} {st st' : LogSegment.AppendState}
    (h : LogSegment.updateIndex config io st = (.ok (), st')) :
    (st.recordsSinceIndex < config.indexInterval ∧ st' = st) ∨
      (config.indexInterval ≤ st.recordsSinceIndex ∧ ∃ file ix,
        OffsetIndex.append io st.nextOffset st.currentPosition st.indexFile st.index =
          (.ok (), file, ix) ∧
        st' = { st with indexFile := file, index := ix, recordsSinceIndex := 0 }) := by
  unfold LogSegment.updateIndex at h
  split at h
  · rename_i hge
    split at h
    · cases h
    · rename_i file ix happ
      cases h
      exact .inr ⟨hge, file, ix, happ, rfl⟩
  · rename_i hlt
    cases h
    exact .inl ⟨by omega, rfl⟩

theorem advance_ok {n : Nat} {st st' : LogSegment.AppendState}
    (h : LogSegment.advance n st = (.ok (), st')) :
    st.currentPosition + n < 2 ^ 64 ∧ st.nextOffset + 1 < 2 ^ 64 ∧
      st' = { st with
        currentPosition := st.currentPosition + n
        nextOffset := st.nextOffset + 1
        recordsSinceIndex := st.recordsSinceIndex + 1 } := by
  unfold LogSegment.advance at h
  split at h
  · cases h
  rename_i position hpos
  split at h
  · cases h
  rename_i next hnext
  split at h
  · cases h
  rename_i since hsince
  cases h
  obtain ⟨rfl, hp⟩ := checkedAdd_ok hpos
  obtain ⟨rfl, hn⟩ := checkedAdd_ok hnext
  obtain ⟨rfl, -⟩ := checkedAdd_ok hsince
  exact ⟨hp, hn, rfl⟩

theorem appendRecord_ok {config : SegmentConfig} {io : LogSegment.RecordIo} {msg : Message}
    {st st' : LogSegment.AppendState}
    (h : LogSegment.appendRecord K config io msg st = (.ok (), st')) :
    ∃ bs st₁, (LogSegment.recordOf config st.nextOffset msg).encode K = .ok bs ∧
      LogSegment.updateIndex config io.index { st with log := st.log ++ bs } = (.ok (), st₁) ∧
      LogSegment.advance bs.length st₁ = (.ok (), st') := by
  unfold LogSegment.appendRecord at h
  split at h
  · cases h
  rename_i bs henc
  split at h
  · cases h
  split at h
  · cases h
  rename_i st₁ hix
  exact ⟨bs, st₁, henc, hix, h⟩

/-- What a run of the append loop has done to the index file and its handle: `t` entries, written
from slot `c` on, each with the offset and the position of a record of the batch. -/
structure IndexGrown (K : Crates) (st₀ : LogSegment.AppendState) (rs : List DiskRecord)
    (c m t : Nat) (st : LogSegment.AppendState) : Prop where
  cursor : st.index.cursor = indexEntrySize * (c + t)
  size : st.index.size = st₀.index.size + t
  length : st.indexFile.length = indexEntrySize * max m (c + t)
  untouched : t = 0 → st.index = st₀.index ∧ st.indexFile = st₀.indexFile
  map : 0 < t → st.index.mmap = some st.indexFile.length
  outside : ∀ i, i < c ∨ c + t ≤ i → entryAt st.indexFile i = entryAt st₀.indexFile i
  inside : ∀ i, c ≤ i → i < c + t → ∃ k, k < rs.length ∧
    entryAt st.indexFile i =
      (st₀.nextOffset + k, st₀.currentPosition + (encodedAll K (rs.take k)).length)

/-- The loop of `LogSegment::append` has taken `st₀` to `st` by appending `rs`. -/
structure Grown (K : Crates) (config : SegmentConfig) (st₀ : LogSegment.AppendState)
    (c m : Nat) (rs : List DiskRecord) (st : LogSegment.AppendState) : Prop where
  log : st.log = st₀.log ++ encodedAll K rs
  next : st.nextOffset = st₀.nextOffset + rs.length
  position : st.currentPosition = st₀.currentPosition + (encodedAll K rs).length
  storable : ∀ r ∈ rs, Storable K r
  next_lt : st.nextOffset < 2 ^ 64
  position_lt : st.currentPosition < 2 ^ 64
  index : ∃ t, IndexGrown K st₀ rs c m t st ∧
    (0 < t ↔ rs ≠ [] ∧ config.indexInterval < st₀.recordsSinceIndex + rs.length) ∧
    (t = 0 → st.recordsSinceIndex = st₀.recordsSinceIndex + rs.length)

section Append

variable {config : SegmentConfig} {st₀ st st' : LogSegment.AppendState} {c m : Nat}
  {rs : List DiskRecord}

theorem IndexGrown.start (hc : st₀.index.cursor = indexEntrySize * c)
    (hm : st₀.indexFile.length = indexEntrySize * m) (hcm : c ≤ m) :
    IndexGrown K st₀ [] c m 0 st₀ where
  cursor := hc
  size := rfl
  length := by rw [hm, Nat.add_zero, Nat.max_eq_left hcm]
  untouched _ := ⟨rfl, rfl⟩
  map h := absurd h (Nat.lt_irrefl 0)
  outside _ _ := rfl
  inside i h1 h2 := by omega

theorem Grown.start (hn : st₀.nextOffset < 2 ^ 64) (hp : st₀.currentPosition < 2 ^ 64)
    (hc : st₀.index.cursor = indexEntrySize * c)
    (hm : st₀.indexFile.length = indexEntrySize * m) (hcm : c ≤ m) :
    Grown K config st₀ c m [] st₀ where
  log := by simp
  next := rfl
  position := rfl
  storable := by simp
  next_lt := hn
  position_lt := hp
  index := ⟨0, IndexGrown.start hc hm hcm, by simp, fun _ => rfl⟩

/-- A batch that is not empty leaves bytes. -/
theorem Grown.log_pos (h : Grown K config st₀ c m rs st) (hne : rs ≠ []) : 0 < st.log.length := by
  have hle := length_le_encodedAll h.storable
  have hlen := List.length_pos_iff.2 hne
  rw [h.log, List.length_append]
  omega

/-- A record that the index skips. -/
theorem IndexGrown.skip {t : Nat} (h : IndexGrown K st₀ rs c m t st) (r : DiskRecord)
    (hi : st'.index = st.index) (hf : st'.indexFile = st.indexFile) :
    IndexGrown K st₀ (rs ++ [r]) c m t st' where
  cursor := by rw [hi, h.cursor]
  size := by rw [hi, h.size]
  length := by rw [hf, h.length]
  untouched ht := by rw [hi, hf]; exact h.untouched ht
  map ht := by rw [hi, hf]; exact h.map ht
  outside i hout := by rw [hf]; exact h.outside i hout
  inside i h1 h2 := by
    obtain ⟨k, hk, he⟩ := h.inside i h1 h2
    refine ⟨k, by simp; omega, ?_⟩
    rw [hf, he, List.take_append_of_le_length (by omega)]

/-- A record that the index takes. -/
theorem IndexGrown.take {t : Nat} {io : IndexIo} {file : Bytes} {ix : OffsetIndex}
    (h : IndexGrown K st₀ rs c m t st) (r : DiskRecord)
    (hn : st.nextOffset = st₀.nextOffset + rs.length) (hlt : st.nextOffset < 2 ^ 64)
    (hp : st.currentPosition = st₀.currentPosition + (encodedAll K rs).length)
    (hplt : st.currentPosition < 2 ^ 64)
    (happ : OffsetIndex.append io st.nextOffset st.currentPosition st.indexFile st.index =
      (.ok (), file, ix))
    (hi : st'.index = ix) (hf : st'.indexFile = file) :
    IndexGrown K st₀ (rs ++ [r]) c m (t + 1) st' := by
  obtain ⟨rfl, rfl⟩ := append_ok happ
  have hslot : indexEntrySize * (c + t) ≤ st.indexFile.length := by
    rw [h.length]; exact Nat.mul_le_mul_left _ (Nat.le_max_right ..)
  have hent : ∀ i, entryAt st'.indexFile i =
      if i = c + t then (st.nextOffset, st.currentPosition) else entryAt st.indexFile i := by
    intro i
    rw [hf, h.cursor, entryAt_writeAt hslot hlt hplt]
  refine ⟨?_, ?_, ?_, fun ht => absurd ht (Nat.succ_ne_zero t), fun _ => by rw [hi, hf], ?_, ?_⟩
  · rw [hi, h.cursor]; ring
  · rw [hi, h.size]; rfl
  · rw [hf, h.cursor, length_writeAt_entry h.length]
    congr 1
    omega
  · intro i hout
    rw [hent, if_neg (by omega)]
    exact h.outside i (by omega)
  · intro i h1 h2
    by_cases hlast : i = c + t
    · refine ⟨rs.length, by simp, ?_⟩
      rw [hent, if_pos hlast, hn, hp, List.take_left]
    · obtain ⟨k, hk, he⟩ := h.inside i h1 (by omega)
      refine ⟨k, by simp; omega, ?_⟩
      rw [hent, if_neg hlast, he, List.take_append_of_le_length (by omega)]

/-- **One iteration** of the append loop appends one record. -/
theorem Grown.appendRecord {io : LogSegment.RecordIo} {msg : Message} (hK : K.Lawful)
    (hfit : Fits K config.compression msg) (h : Grown K config st₀ c m rs st)
    (hrec : LogSegment.appendRecord K config io msg st = (.ok (), st')) :
    Grown K config st₀ c m (rs ++ [LogSegment.recordOf config st.nextOffset msg]) st' := by
  obtain ⟨bs, st₁, henc, hix, hadv⟩ := appendRecord_ok hrec
  obtain ⟨hplt, hnlt, rfl⟩ := advance_ok hadv
  obtain ⟨t, ht, hiff, hsince⟩ := h.index
  have hs := storable_of_fits hK hfit h.next_lt henc
  have hbs : encodedAll K [LogSegment.recordOf config st.nextOffset msg] = bs := by
    simp [encoded_of_encode henc]
  -- the index update leaves the log and the two other counters alone
  have hkeep : st₁.log = st.log ++ bs ∧ st₁.nextOffset = st.nextOffset ∧
      st₁.currentPosition = st.currentPosition := by
    rcases updateIndex_ok hix with ⟨-, rfl⟩ | ⟨-, file, ix, -, rfl⟩ <;> exact ⟨rfl, rfl, rfl⟩
  obtain ⟨hlog, hnext, hpos⟩ := hkeep
  refine ⟨?_, ?_, ?_, ?_, ?_, ?_, ?_⟩
  · simp only
    rw [hlog, h.log, encodedAll_append, hbs, List.append_assoc]
  · simp only [List.length_append, List.length_singleton]
    rw [hnext, h.next, Nat.add_assoc]
  · simp only [encodedAll_append, List.length_append, hbs]
    rw [hpos, h.position, Nat.add_assoc]
  · intro r hr
    rcases List.mem_append.1 hr with hr | hr
    · exact h.storable r hr
    · rw [List.mem_singleton.1 hr]; exact hs
  · exact hnlt
  · exact hplt
  · simp only [List.length_append, List.length_singleton]
    rcases updateIndex_ok hix with ⟨hlt, rfl⟩ | ⟨hge, file, ix, happ, rfl⟩
    · refine ⟨t, ht.skip _ rfl rfl, ?_, fun h0 => by simp [hsince h0, Nat.add_assoc]⟩
      constructor
      · intro h0
        exact ⟨by simp, by have := (hiff.1 h0).2; omega⟩
      · rintro ⟨-, hgt⟩
        by_contra h0
        have := hsince (by omega)
        simp only at hlt
        omega
    · refine ⟨t + 1, ht.take _ h.next h.next_lt h.position h.position_lt happ rfl rfl, ?_,
        fun h0 => absurd h0 (Nat.succ_ne_zero t)⟩
      refine iff_of_true (Nat.succ_pos t) ⟨by simp, ?_⟩
      by_cases h0 : t = 0
      · have := hsince h0
        simp only at hge
        omega
      · have := (hiff.1 (by omega)).2
        omega

/-- **The append loop** appends the records of its messages. -/
theorem Grown.appendLoop (hK : K.Lawful) :
    ∀ {io : Nat → LogSegment.RecordIo} {messages : List Message} {rs : List DiskRecord}
      {st : LogSegment.AppendState}, (∀ msg ∈ messages, Fits K config.compression msg) →
      Grown K config st₀ c m rs st →
      LogSegment.appendLoop K config io messages st = (.ok (), st') →
      Grown K config st₀ c m (rs ++ batchRecords config st.nextOffset messages) st'
  | _, [], rs, st, _, h, hl => by
    cases hl
    rwa [batchRecords, List.append_nil]
  | io, msg :: messages, rs, st, hfit, h, hl => by
    obtain ⟨hf, hfs⟩ := List.forall_mem_cons.1 hfit
    unfold LogSegment.appendLoop at hl
    split at hl
    · cases hl
    · rename_i st₁ hrec
      have h₁ := h.appendRecord hK hf hrec
      have h₂ := Grown.appendLoop hK hfs h₁ hl
      have hnext : st₁.nextOffset = st.nextOffset + 1 := by
        rw [h₁.next, h.next, List.length_append]; rfl
      rwa [hnext, List.append_assoc] at h₂

end Append

/-! ## Index entries and the batch -/

/-- The entries of an index file that are for offsets of a batch agree with where the batch puts
its records: the first at offset `n` and position `pos`. -/
def Consistent (K : Crates) (file : Bytes) (n pos : Nat) (rs : List DiskRecord) : Prop :=
  ∀ i, i < file.length / indexEntrySize → n ≤ (entryAt file i).1 →
    (entryAt file i).1 < n + rs.length →
    (entryAt file i).2 = pos + (encodedAll K (rs.take ((entryAt file i).1 - n))).length

theorem lt_entryCount {file : Bytes} {i : Nat} :
    i < file.length / indexEntrySize ↔ indexEntrySize * (i + 1) ≤ file.length := by
  rw [Nat.lt_iff_add_one_le, Nat.le_div_iff_mul_le (by decide), Nat.mul_comm]

/-- A longer log over an index file whose entries are old ones or entries of the batch. -/
theorem Truthful.extend {v v' : LogView K} {file file' : Bytes} {rs full : List DiskRecord}
    (h : Truthful v file) (ht : v.tail = []) (hb : v'.base = v.base)
    (hr : v'.records = v.records ++ rs) (hfull : rs <+: full)
    (hc : Consistent K file v.next v.bytes.length rs)
    (he : ∀ i, indexEntrySize * (i + 1) ≤ file'.length →
      (indexEntrySize * (i + 1) ≤ file.length ∧ entryAt file' i = entryAt file i) ∨
      ∃ k, entryAt file' i =
        (v.next + k, v.bytes.length + (encodedAll K (full.take k)).length)) :
    Truthful v' file' := by
  have hn : v.next = v.base + v.records.length := LogView.next_of_whole ht
  have hlen : v.bytes.length = (encodedAll K v.records).length := by simp [LogView.bytes, ht]
  -- the position of record `k` of the batch in the longer log
  have hbatch : ∀ k, k ≤ rs.length → v'.position (v.next + k) =
      v.bytes.length + (encodedAll K (rs.take k)).length := by
    intro k _
    rw [LogView.position, hb, hr, hn, show v.base + v.records.length + k - v.base =
      v.records.length + k by omega, List.take_length_add_append, encodedAll_append,
      List.length_append, hlen]
  have hnext : v'.next ≤ v.next + max 1 rs.length ∧ (rs ≠ [] → v'.next ≤ v.next + rs.length) ∧
      (v.records ≠ [] → v'.next ≤ v.next + rs.length) := by
    rw [hn]
    unfold LogView.next
    rw [hb, hr, List.length_append]
    refine ⟨?_, fun h0 => ?_, fun h0 => ?_⟩ <;> split <;> simp_all <;> omega
  intro i hi ho
  rcases he i hi with ⟨hin, heq⟩ | ⟨k, hk⟩
  · rw [heq] at ho ⊢
    rw [hb] at ho ⊢
    by_cases hold : (entryAt file i).1 < v.next ∨ (entryAt file i).1 = v.base
    · obtain ⟨h1, h2⟩ := h i hin hold
      refine ⟨h1, ?_⟩
      rw [h2, LogView.position, LogView.position, hb, hr,
        List.take_append_of_le_length (by omega)]
    · by_cases hnew : (entryAt file i).1 < v.next + rs.length
      · have := hc i (lt_entryCount.2 hin) (by omega) hnew
        refine ⟨by omega, ?_⟩
        rw [this, ← hbatch _ (by omega)]
        congr 1
        omega
      · -- only a torn first record leaves room above the batch
        exfalso
        have hbase := v.base_le_next
        by_cases h0 : rs = []
        · by_cases h1 : v.records = []
          · simp [h1] at hn
            simp [h0] at hnext hnew
            omega
          · have := hnext.2.2 h1
            omega
        · have := hnext.2.1 h0
          omega
  · rw [hk, hb] at ho ⊢
    simp only at ho ⊢
    have hkle : k ≤ rs.length := by
      by_contra hgt
      have hbase := v.base_le_next
      by_cases h0 : rs = []
      · subst h0
        by_cases h1 : v.records = []
        · simp at hnext hgt
          omega
        · have := hnext.2.2 h1
          omega
      · have := hnext.2.1 h0
        omega
    refine ⟨by have := v.base_le_next; omega, ?_⟩
    rw [hbatch k hkle]
    obtain ⟨more, rfl⟩ := hfull
    rw [List.take_append_of_le_length hkle]

/-! ## The whole append -/

theorem append_ok {io : LogSegment.AppendIo} {messages : List Message} {d d' : Dir}
    {s s' : LogSegment} {n : Nat}
    (h : LogSegment.append K io messages d s = (.ok n, d', s')) :
    messages ≠ [] ∧ n = s.nextOffset ∧ ∃ st,
      LogSegment.appendLoop K s.config io.record messages (LogSegment.appendStart d s) =
        (.ok (), st) ∧
      d' = LogSegment.appendDir d s st ∧
      s' = LogSegment.remap st.log
        { LogSegment.appendEnd s st with size := st.currentPosition } := by
  unfold LogSegment.append at h
  split at h
  · cases h
  rename_i hne
  split at h
  · cases h
  split at h
  · cases h
  rename_i st hloop
  split at h
  · cases h
  simp only at h
  split at h
  · cases h
  cases h
  exact ⟨hne, rfl, st, hloop, rfl, rfl⟩

section Whole

variable {d d' : Dir} {v : LogView K} {s s' : LogSegment} {messages : List Message} {n : Nat}
  {io : LogSegment.AppendIo} {st : LogSegment.AppendState}

theorem get_appendDir_log (d : Dir) (s : LogSegment) (st : LogSegment.AppendState) :
    (LogSegment.appendDir d s st).get (logPath s.baseOffset) = some st.log := by
  rw [LogSegment.appendDir, Table.get_insert_ne _ (logPath_ne_indexPath _ _),
    Table.get_insert_self]

theorem get_appendDir_index (d : Dir) (s : LogSegment) (st : LogSegment.AppendState) :
    (LogSegment.appendDir d s st).get (indexPath s.baseOffset) = some st.indexFile :=
  Table.get_insert_self ..

theorem Backed.appendStart (h : Backed K d v s) :
    LogSegment.appendStart d s = ⟨v.bytes, indexFile d v, s.index, v.next, v.bytes.length,
      s.recordsSinceIndex⟩ := by
  rw [LogSegment.appendStart, h.base, h.next, h.size, h.content_log]
  rfl

/-- The loop of an append on a backed segment. -/
theorem Backed.appendLoop (hK : K.Lawful) (h : Backed K d v s)
    (hfit : ∀ msg ∈ messages, Fits K s.config.compression msg)
    {io : Nat → LogSegment.RecordIo}
    (hl : LogSegment.appendLoop K s.config io messages (LogSegment.appendStart d s) =
      (.ok (), st)) :
    ∃ c m, s.index.cursor = indexEntrySize * c ∧
      (indexFile d v).length = indexEntrySize * m ∧ c ≤ m ∧
      Grown K s.config ⟨v.bytes, indexFile d v, s.index, v.next, v.bytes.length,
        s.recordsSinceIndex⟩ c m (batchRecords s.config v.next messages) st := by
  obtain ⟨c, hc⟩ := h.cursor
  obtain ⟨m, hm⟩ := h.aligned
  have hcm : c ≤ m := by
    have := h.cursor_le
    rw [hc, hm] at this
    exact Nat.le_of_mul_le_mul_left this (by decide)
  rw [h.appendStart] at hl
  have hg : Grown K s.config
      ⟨v.bytes, indexFile d v, s.index, v.next, v.bytes.length, s.recordsSinceIndex⟩ c m []
      ⟨v.bytes, indexFile d v, s.index, v.next, v.bytes.length, s.recordsSinceIndex⟩ :=
    Grown.start h.next_lt h.size_lt hc hm hcm
  exact ⟨c, m, hc, hm, hcm, by simpa using hg.appendLoop hK hfit hl⟩

/-- What a successful append on a backed segment leaves: the directory and the handle, in terms of
the state in which its loop ends. -/
theorem append_grown (hK : K.Lawful) (h : Backed K d v s)
    (hfit : ∀ msg ∈ messages, Fits K s.config.compression msg)
    (happ : LogSegment.append K io messages d s = (.ok n, d', s')) :
    messages ≠ [] ∧ n = v.next ∧ ∃ st c m, s.index.cursor = indexEntrySize * c ∧
      (indexFile d v).length = indexEntrySize * m ∧ c ≤ m ∧
      Grown K s.config ⟨v.bytes, indexFile d v, s.index, v.next, v.bytes.length,
        s.recordsSinceIndex⟩ c m (batchRecords s.config v.next messages) st ∧
      d' = LogSegment.appendDir d s st ∧
      s' = { LogSegment.appendEnd s st with
        size := st.log.length, mmap := some st.log.length } := by
  obtain ⟨hne, rfl, st, hl, rfl, rfl⟩ := append_ok happ
  obtain ⟨c, m, hcur, hm, hcm, hg⟩ := h.appendLoop hK hfit hl
  refine ⟨hne, h.next, st, c, m, hcur, hm, hcm, hg, rfl, ?_⟩
  have hsize : st.currentPosition = st.log.length := by
    rw [hg.position, hg.log, List.length_append]
  have hpos : 0 < st.log.length := hg.log_pos (batchRecords_ne_nil hne)
  rw [hsize, LogSegment.remap, if_pos hpos]

/-- An index handle that writes where it counts does not count past the end of its file. -/
theorem Grown.count_le {config : SegmentConfig} {st₀ : LogSegment.AppendState} {c m : Nat}
    {rs : List DiskRecord} (h : Grown K config st₀ c m rs st)
    (hm : st₀.indexFile.length = indexEntrySize * m) (hcm : c ≤ m)
    (hle : indexEntrySize * st₀.index.size ≤ st₀.indexFile.length)
    (hix : c = st₀.index.size ∨ st₀.recordsSinceIndex + rs.length ≤ config.indexInterval) :
    indexEntrySize * st.index.size ≤ st.indexFile.length ∧
      (st₀.indexFile.length = indexEntrySize * st₀.index.size →
        st.indexFile.length = indexEntrySize * st.index.size) := by
  obtain ⟨t, ht, hiff, -⟩ := h.index
  rw [hm] at hle ⊢
  have hle' := Nat.le_of_mul_le_mul_left hle (by decide)
  have hct : t = 0 ∨ c = st₀.index.size := by
    rcases hix with hix | hix
    · exact .inr hix
    · refine .inl (by_contra fun h0 => ?_)
      have := (hiff.1 (Nat.pos_of_ne_zero h0)).2
      omega
  rw [ht.length, ht.size]
  refine ⟨Nat.mul_le_mul_left _ (by omega), fun heq => congrArg _ ?_⟩
  have := Nat.eq_of_mul_eq_mul_left (by decide) heq
  omega

theorem Grown.map {config : SegmentConfig} {st₀ : LogSegment.AppendState} {c m : Nat}
    {rs : List DiskRecord} (h : Grown K config st₀ c m rs st)
    (hmap : st₀.index.size = 0 ∨ st₀.index.mmap = some st₀.indexFile.length) :
    st.index.size = 0 ∨ st.index.mmap = some st.indexFile.length := by
  obtain ⟨t, ht, -, -⟩ := h.index
  rcases Nat.eq_zero_or_pos t with h0 | h0
  · obtain ⟨h1, h2⟩ := ht.untouched h0
    rw [h1, h2]
    exact hmap
  · exact .inr (ht.map h0)

/-- The entries of the index file after the loop: old ones, or entries of the batch. -/
theorem Grown.entries {config : SegmentConfig} {st₀ : LogSegment.AppendState} {c m : Nat}
    {rs : List DiskRecord} (h : Grown K config st₀ c m rs st)
    (hm : st₀.indexFile.length = indexEntrySize * m) (hcm : c ≤ m) {i : Nat}
    (hi : indexEntrySize * (i + 1) ≤ st.indexFile.length) :
    (indexEntrySize * (i + 1) ≤ st₀.indexFile.length ∧
      entryAt st.indexFile i = entryAt st₀.indexFile i) ∨
    ∃ k, k < rs.length ∧ entryAt st.indexFile i =
      (st₀.nextOffset + k, st₀.currentPosition + (encodedAll K (rs.take k)).length) := by
  obtain ⟨t, ht, -, -⟩ := h.index
  by_cases hin : c ≤ i ∧ i < c + t
  · exact .inr (ht.inside i hin.1 hin.2)
  · refine .inl ⟨?_, ht.outside i (by omega)⟩
    rw [ht.length] at hi
    rw [hm]
    have := Nat.le_of_mul_le_mul_left hi (by decide)
    exact Nat.mul_le_mul_left _ (by omega)

theorem Grown.aligned {config : SegmentConfig} {st₀ : LogSegment.AppendState} {c m : Nat}
    {rs : List DiskRecord} (h : Grown K config st₀ c m rs st) :
    indexEntrySize ∣ st.indexFile.length := by
  obtain ⟨t, ht, -, -⟩ := h.index
  exact ⟨_, ht.length⟩

theorem bytes_of_whole (h : v.tail = []) : v.bytes = encodedAll K v.records := by
  rw [LogView.bytes, h, List.append_nil]

/-- **Files after a write** behind a log of whole records: the log holds the records `rs` and a
rest that does not decode, the index file old entries or entries of a batch that starts with
`rs`. -/
theorem Stored.write {rs : List DiskRecord} {v' : LogView K} (h : Stored K d v)
    (full : List DiskRecord) (file : Bytes)
    (ht : v.tail = []) (hb : v'.base = v.base) (hr : v'.records = v.records ++ rs)
    (hfull : rs <+: full) (hc : Consistent K (indexFile d v) v.next v.bytes.length rs)
    (hlog : d'.get (logPath v.base) = some v'.bytes)
    (hfile : d'.get (indexPath v.base) = some file) (hal : indexEntrySize ∣ file.length)
    (he : ∀ i, indexEntrySize * (i + 1) ≤ file.length →
      (indexEntrySize * (i + 1) ≤ (indexFile d v).length ∧
        entryAt file i = entryAt (indexFile d v) i) ∨
      ∃ k, entryAt file i =
        (v.next + k, v.bytes.length + (encodedAll K (full.take k)).length))
    (hn : v'.next < 2 ^ 64) (hs : v'.bytes.length < 2 ^ 64) : Stored K d' v' := by
  have hix : indexFile d' v' = file := by rw [indexFile, content, hb, hfile]; rfl
  refine ⟨by rw [hb, hlog], by rw [hb, hfile, hix], hn, hs, by rw [hix]; exact hal, ?_⟩
  rw [hix]
  exact h.truthful.extend ht hb hr hfull hc he

/-- **A successful append** to a log of whole records. -/
theorem append_backed (hK : K.Lawful) (h : Backed K d v s) (ht : v.tail = [])
    (hfit : ∀ msg ∈ messages, Fits K s.config.compression msg)
    (hix : s.index.cursor = indexEntrySize * s.index.size ∨
      s.recordsSinceIndex + messages.length ≤ s.config.indexInterval)
    (hc : Consistent K (indexFile d v) v.next v.bytes.length
      (batchRecords s.config v.next messages))
    (happ : LogSegment.append K io messages d s = (.ok n, d', s')) :
    ∃ v' : LogView K, v'.base = v.base ∧ v'.tail = [] ∧
      v'.records = v.records ++ batchRecords s.config v.next messages ∧
      Backed K d' v' s' ∧ (Clean d v s → Clean d' v' s') := by
  obtain ⟨hne, -, st, c, m, hcur, hm, hcm, hg, rfl, rfl⟩ := append_grown hK h hfit happ
  have hvn : v.next = v.base + v.records.length := LogView.next_of_whole ht
  let v' := v.extend (batchRecords s.config v.next messages) []
    (hvn ▸ numbered_batchRecords ..) hg.storable (decode_nil K)
  have hbytes : v'.bytes = st.log := by
    rw [hg.log, bytes_of_whole (v := v') rfl, bytes_of_whole ht]
    exact encodedAll_append ..
  have hcount : v'.records.length =
      v.records.length + (batchRecords s.config v.next messages).length := List.length_append
  have hnext : v'.next = st.nextOffset := by
    rw [hg.next, LogView.next_of_whole (v := v') rfl, hcount, ← Nat.add_assoc,
      show v'.base = v.base from rfl, ← hvn]
  have hix' : indexFile (LogSegment.appendDir d s st) v' = st.indexFile := by
    have := get_appendDir_index d s st
    rw [h.base] at this
    rw [indexFile, content, show v'.base = v.base from rfl, this]
    rfl
  have hsize : st.currentPosition = st.log.length := by
    rw [hg.position, hg.log, List.length_append]
  have hstored : Stored K (LogSegment.appendDir d s st) v' := by
    have hsize_lt : v'.bytes.length < 2 ^ 64 := by
      rw [hbytes, ← hsize]
      exact hg.position_lt
    refine h.toStored.write _ st.indexFile ht rfl rfl (List.prefix_refl _) hc ?_ ?_ hg.aligned ?_
      (hnext ▸ hg.next_lt) hsize_lt
    · rw [← h.base, hbytes]; exact get_appendDir_log ..
    · rw [← h.base]; exact get_appendDir_index ..
    · intro i hi
      rcases hg.entries hm hcm hi with hold | ⟨k, -, hk⟩
      · exact .inl hold
      · exact .inr ⟨k, hk⟩
  have hcs : c = s.index.size ∨ s.recordsSinceIndex +
      (batchRecords s.config v.next messages).length ≤ s.config.indexInterval := by
    rw [length_batchRecords]
    refine hix.imp_left fun hix => ?_
    rw [hcur] at hix
    exact Nat.eq_of_mul_eq_mul_left (by decide) hix
  obtain ⟨hindex, hindex'⟩ := hg.count_le hm hcm h.count_le hcs
  have hpos : 0 < v'.bytes.length := by
    rw [hbytes]
    exact hg.log_pos (batchRecords_ne_nil hne)
  refine ⟨v', rfl, rfl, rfl, ⟨hstored, h.base, hnext.symm, by rw [hbytes], ?_, ?_, ?_, ?_, ?_⟩,
    fun hclean => ⟨rfl, ?_, fun i hi => ?_⟩⟩
  · rw [if_pos hpos, hbytes]
  · obtain ⟨t, ht, -, -⟩ := hg.index
    exact ⟨_, ht.cursor⟩
  · obtain ⟨t, ht, -, -⟩ := hg.index
    rw [hix', ht.length]
    exact ht.cursor ▸ Nat.mul_le_mul_left _ (Nat.le_max_right ..)
  · rw [hix']; exact hindex
  · rw [hix']; exact hg.map h.map
  · rw [hix']; exact hindex' hclean.count
  · rw [hix', hnext]
    have hin : indexEntrySize * (i + 1) ≤ st.indexFile.length := by
      rw [hindex' hclean.count]; exact Nat.mul_le_mul_left _ hi
    rcases hg.entries hm hcm hin with ⟨hold, he⟩ | ⟨k, hk, he⟩
    · have hi' : i < s.index.size := by
        have := hclean.count
        simp only [this] at hold
        exact Nat.le_of_mul_le_mul_left hold (by decide)
      rw [he, hg.next]
      exact Nat.lt_of_lt_of_le (hclean.written i hi') (Nat.le_add_right ..)
    · rw [he, hg.next]
      simp only
      omega

/-- An index handle that writes where it counts goes on doing so. -/
theorem append_straight (hK : K.Lawful) (h : Backed K d v s)
    (hfit : ∀ msg ∈ messages, Fits K s.config.compression msg)
    (hix : s.index.cursor = indexEntrySize * s.index.size)
    (happ : LogSegment.append K io messages d s = (.ok n, d', s')) :
    s'.index.cursor = indexEntrySize * s'.index.size := by
  obtain ⟨-, -, st, c, m, hcur, -, -, hg, -, rfl⟩ := append_grown hK h hfit happ
  obtain ⟨t, ht, -, -⟩ := hg.index
  have hc : c = s.index.size := Nat.eq_of_mul_eq_mul_left (by decide) (hcur.symm.trans hix)
  simp only [LogSegment.appendEnd]
  rw [ht.cursor, ht.size, hc]

/-- **An append whose index entries land below the entry count** leaves a handle that counts past
the end of its index file: reading the last record panics. -/
theorem append_overruns (hK : K.Lawful) (h : Backed K d v s) (hclean : Clean d v s)
    (hfit : ∀ msg ∈ messages, Fits K s.config.compression msg)
    (hcur : s.index.cursor ≠ indexEntrySize * s.index.size)
    (hover : s.config.indexInterval < s.recordsSinceIndex + messages.length)
    (happ : LogSegment.append K io messages d s = (.ok n, d', s')) :
    s'.baseOffset < s'.nextOffset ∧ s'.read K d' (s'.nextOffset - 1) =
      .error (.panic "range end index out of range for slice") := by
  obtain ⟨hne, -, st, c, m, hc, hm, hcm, hg, rfl, rfl⟩ := append_grown hK h hfit happ
  obtain ⟨t, ht, hiff, -⟩ := hg.index
  have hrs : (batchRecords s.config v.next messages).length = messages.length :=
    length_batchRecords ..
  have hpos := List.length_pos_iff.2 hne
  have ht0 : 0 < t := hiff.2 ⟨List.ne_nil_of_length_pos (by omega), by rw [hrs]; exact hover⟩
  have hms : m = s.index.size := by
    have := hclean.count
    rw [hm] at this
    exact Nat.eq_of_mul_eq_mul_left (by decide) this
  have hlt : c < m := by
    refine Nat.lt_of_le_of_ne hcm fun heq => hcur ?_
    rw [hc, heq, hms]
  have hbase : s.baseOffset < st.nextOffset := by
    rw [h.base, hg.next]
    have := v.base_le_next
    simp only [hrs]
    omega
  have hlook : st.index.lookup st.indexFile (st.nextOffset - 1) =
      .error (.panic "range end index out of range for slice") := by
    refine lookup_fails (ht.map ht0) ht.length ?_ fun i hi => ?_
    · rw [ht.size]
      simp only
      omega
    · have hin : indexEntrySize * (i + 1) ≤ st.indexFile.length := by
        rw [ht.length]; exact Nat.mul_le_mul_left _ hi
      rw [hg.next]
      rcases hg.entries hm hcm hin with ⟨hold, he⟩ | ⟨k, hk, he⟩
      · simp only [hm] at hold
        have := hclean.written i (by
          have := Nat.le_of_mul_le_mul_left hold (by decide)
          omega)
        rw [he]
        simp only
        omega
      · rw [he]
        simp only
        omega
  have hix := get_appendDir_index d s st
  refine ⟨hbase, ?_⟩
  unfold LogSegment.read LogSegment.readerAt
  simp only [LogSegment.appendEnd, content, hix, Option.getD_some]
  rw [if_neg (by omega), if_neg (by omega), hlook]

end Whole

end Gaffa
