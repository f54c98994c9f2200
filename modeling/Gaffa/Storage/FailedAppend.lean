import Gaffa.Storage.PartitionAppend

/-!
# Appends that fail

A failed append leaves in the partition what it has written, and the counters as far as they have
been advanced.

* `append_nextOffset_ne_iff`: the next offset has moved exactly when the first record was written
  whole and its index entry, if one was due, too.
* `untouched_iff`: the append has answered with an error and changed nothing exactly when it was
  refused before a byte of the first record was written.
-/

set_option autoImplicit false

namespace Gaffa

open ByteString LogSegment

variable {K : Crates}

/-! ## Counters and bytes of the append loop -/

section Loop

variable {config : SegmentConfig}

theorem updateIndex_keeps (config : SegmentConfig) (io : IndexIo) (st : AppendState) :
    (updateIndex config io st).2.log = st.log ∧
      (updateIndex config io st).2.nextOffset = st.nextOffset ∧
      (updateIndex config io st).2.currentPosition = st.currentPosition := by
  unfold updateIndex
  split
  · split <;> exact ⟨rfl, rfl, rfl⟩
  · exact ⟨rfl, rfl, rfl⟩

/-- The index is brought up to date if no entry was due, or the file system has taken it. -/
theorem updateIndex_ok_iff (config : SegmentConfig) (io : IndexIo) (st : AppendState) :
    (updateIndex config io st).1 = .ok () ↔
      (config.indexInterval ≤ st.recordsSinceIndex → io = .done) := by
  unfold updateIndex
  by_cases hdue : st.recordsSinceIndex ≥ config.indexInterval
  · rw [if_pos hdue]
    cases io with
    | done => exact iff_of_true rfl fun _ => rfl
    | _ => exact iff_of_false (fun h => by cases h) (fun h => by cases h hdue)
  · rw [if_neg hdue]
    exact iff_of_true rfl fun h => absurd h hdue

theorem advance_keeps (n : Nat) (st : AppendState) :
    (advance n st).2.log = st.log ∧ st.nextOffset ≤ (advance n st).2.nextOffset := by
  unfold advance
  split
  · exact ⟨rfl, Nat.le_refl _⟩
  · split
    · exact ⟨rfl, Nat.le_refl _⟩
    · rename_i next hnext
      have hle : st.nextOffset ≤ next := by
        rw [(checkedAdd_ok hnext).1]
        exact Nat.le_add_right _ _
      split <;> exact ⟨rfl, hle⟩

theorem advance_nextOffset_ne_iff (n : Nat) (st : AppendState) :
    (advance n st).2.nextOffset ≠ st.nextOffset ↔
      st.currentPosition + n < 2 ^ 64 ∧ st.nextOffset + 1 < 2 ^ 64 := by
  unfold advance
  by_cases hposition : st.currentPosition + n < 2 ^ 64
  · rw [checkedAdd_of_lt hposition]
    simp only
    by_cases hnext : st.nextOffset + 1 < 2 ^ 64
    · rw [checkedAdd_of_lt hnext]
      refine iff_of_true ?_ ⟨hposition, hnext⟩
      simp only
      split <;> exact Nat.succ_ne_self _
    · rw [checkedAdd, if_neg hnext]
      exact iff_of_false (fun h => h rfl) (fun h => hnext h.2)
  · rw [checkedAdd, if_neg hposition]
    exact iff_of_false (fun h => h rfl) (fun h => hposition h.1)

theorem length_encode {r : DiskRecord} {bs : Bytes} (h : r.encode K = .ok bs) : 8 ≤ bs.length := by
  unfold DiskRecord.encode at h
  split at h
  · cases h
  · cases h
    rw [List.length_append, length_toBe]
    exact Nat.le_add_right _ _

/-- **What one iteration can do**: refuse the message; write a part of its record; write it all,
and then go as far as it goes. -/
theorem appendRecord_cases (config : SegmentConfig) (io : RecordIo) (m : Message)
    (st : AppendState) :
    (∃ e, (recordOf config st.nextOffset m).encode K = .error e ∧
      appendRecord K config io m st = (.error e, st)) ∨
    (∃ bs k e, (recordOf config st.nextOffset m).encode K = .ok bs ∧ io.logWrite = some (k, e) ∧
      appendRecord K config io m st =
        (.error (.error (.io e)), { st with log := st.log ++ bs.take k })) ∨
    ∃ bs, (recordOf config st.nextOffset m).encode K = .ok bs ∧ io.logWrite = none ∧
      (appendRecord K config io m st).2.log = st.log ++ bs ∧
      st.nextOffset ≤ (appendRecord K config io m st).2.nextOffset := by
  unfold appendRecord
  cases henc : (recordOf config st.nextOffset m).encode K with
  | error e => exact .inl ⟨e, rfl, rfl⟩
  | ok bs =>
    right
    cases hwrite : io.logWrite with
    | some failure => exact .inl ⟨bs, failure.1, failure.2, rfl, rfl, rfl⟩
    | none =>
      right
      refine ⟨bs, rfl, rfl, ?_⟩
      obtain ⟨hlog, hnext, -⟩ := updateIndex_keeps config io.index { st with log := st.log ++ bs }
      simp only
      split
      · rename_i heq
        rw [heq] at hlog hnext
        exact ⟨hlog, Nat.le_of_eq hnext.symm⟩
      · rename_i st₁ heq
        rw [heq] at hlog hnext
        obtain ⟨hlog', hle⟩ := advance_keeps bs.length st₁
        exact ⟨hlog'.trans hlog, Nat.le_trans (Nat.le_of_eq hnext.symm) hle⟩

/-- The counter moves if the record is written whole, its index entry, if one is due, too, and
there is room for the sums. -/
theorem appendRecord_nextOffset_ne_iff (config : SegmentConfig) (io : RecordIo) (m : Message)
    (st : AppendState) :
    (appendRecord K config io m st).2.nextOffset ≠ st.nextOffset ↔
      ∃ bs, (recordOf config st.nextOffset m).encode K = .ok bs ∧ io.logWrite = none ∧
        (config.indexInterval ≤ st.recordsSinceIndex → io.index = .done) ∧
        st.currentPosition + bs.length < 2 ^ 64 ∧ st.nextOffset + 1 < 2 ^ 64 := by
  unfold appendRecord
  cases henc : (recordOf config st.nextOffset m).encode K with
  | error e => exact iff_of_false (fun h => h rfl) (fun ⟨_, h, _⟩ => by cases h)
  | ok bs =>
    cases hwrite : io.logWrite with
    | some failure => exact iff_of_false (fun h => h rfl) (fun ⟨_, _, h, _⟩ => by cases h)
    | none =>
      simp only [Except.ok.injEq, true_and, exists_eq_left']
      obtain ⟨-, hnext, hposition⟩ :=
        updateIndex_keeps config io.index { st with log := st.log ++ bs }
      have hindex := updateIndex_ok_iff config io.index { st with log := st.log ++ bs }
      cases hix : updateIndex config io.index { st with log := st.log ++ bs } with
      | mk out st₁ =>
        rw [hix] at hnext hposition hindex
        simp only at hnext hposition hindex
        rw [← hindex, ← hnext, ← hposition]
        cases out with
        | error e => exact iff_of_false (fun h => h rfl) (fun h => by cases h.1)
        | ok _ =>
          refine (advance_nextOffset_ne_iff bs.length st₁).trans ?_
          exact (and_iff_right rfl).symm

theorem appendRecord_grows (config : SegmentConfig) (io : RecordIo) (m : Message)
    (st : AppendState) :
    st.log.length ≤ (appendRecord K config io m st).2.log.length ∧
      st.nextOffset ≤ (appendRecord K config io m st).2.nextOffset := by
  rcases appendRecord_cases (K := K) config io m st with
    ⟨e, -, heq⟩ | ⟨bs, k, e, -, -, heq⟩ | ⟨bs, -, -, hlog, hle⟩
  · rw [heq]
    exact ⟨Nat.le_refl _, Nat.le_refl _⟩
  · rw [heq]
    simp only [List.length_append]
    exact ⟨Nat.le_add_right _ _, Nat.le_refl _⟩
  · rw [hlog, List.length_append]
    exact ⟨Nat.le_add_right _ _, hle⟩

/-- Neither the bytes nor the counter go back. -/
theorem appendLoop_grows (config : SegmentConfig) (messages : List Message) :
    ∀ (io : Nat → RecordIo) (st : AppendState),
      st.log.length ≤ (appendLoop K config io messages st).2.log.length ∧
        st.nextOffset ≤ (appendLoop K config io messages st).2.nextOffset := by
  induction messages with
  | nil => exact fun _ st => ⟨Nat.le_refl _, Nat.le_refl _⟩
  | cons m ms ih =>
    intro io st
    have hrec := appendRecord_grows (K := K) config (io 0) m st
    unfold appendLoop
    split
    · rename_i heq
      rw [heq] at hrec
      exact hrec
    · rename_i st₁ heq
      rw [heq] at hrec
      obtain ⟨hlog, hnext⟩ := ih (fun i => io (i + 1)) st₁
      exact ⟨Nat.le_trans hrec.1 hlog, Nat.le_trans hrec.2 hnext⟩

/-- A record that is appended advances the counter. -/
theorem appendRecord_next {io : RecordIo} {m : Message} {st st' : AppendState}
    (h : appendRecord K config io m st = (.ok (), st')) : st'.nextOffset = st.nextOffset + 1 := by
  obtain ⟨bs, st₁, -, hix, hadv⟩ := appendRecord_ok h
  obtain ⟨-, -, rfl⟩ := advance_ok hadv
  have hkeep := updateIndex_nextOffset hix
  simp only at hkeep ⊢
  rw [hkeep]

/-- The counter has moved after the loop exactly if its first iteration has moved it. -/
theorem appendLoop_nextOffset_ne_iff (io : Nat → RecordIo) (m : Message) (ms : List Message)
    (st : AppendState) :
    (appendLoop K config io (m :: ms) st).2.nextOffset ≠ st.nextOffset ↔
      (appendRecord K config (io 0) m st).2.nextOffset ≠ st.nextOffset := by
  rw [appendLoop]
  split
  · rename_i heq
    rw [heq]
  · rename_i st₁ heq
    have hle := (appendLoop_grows (K := K) config ms (fun i => io (i + 1)) st₁).2
    have hnext := appendRecord_next heq
    rw [heq]
    exact iff_of_true (by omega) (by rw [hnext]; exact Nat.succ_ne_self _)

end Loop

/-! ## The active segment -/

section Active

variable {io : AppendIo} {messages : List Message} {d : Dir} {s : LogSegment}

/-- After the seek, the files and the counter are those of the loop, and so is an error of it. -/
theorem append_loop (hne : messages ≠ []) (hseek : io.seek = none) :
    (LogSegment.append K io messages d s).2.1 =
        appendDir d s (appendLoop K s.config io.record messages (appendStart d s)).2 ∧
      (LogSegment.append K io messages d s).2.2.nextOffset =
        (appendLoop K s.config io.record messages (appendStart d s)).2.nextOffset ∧
      ∀ e, (appendLoop K s.config io.record messages (appendStart d s)).1 = .error e →
        LogSegment.append K io messages d s = (.error e,
          appendDir d s (appendLoop K s.config io.record messages (appendStart d s)).2,
          appendEnd s (appendLoop K s.config io.record messages (appendStart d s)).2) := by
  unfold LogSegment.append
  rw [if_neg hne, hseek]
  simp only
  split
  · rename_i e st heq
    rw [heq]
    refine ⟨rfl, rfl, ?_⟩
    intro e' he
    cases he
    rfl
  · rename_i st heq
    rw [heq]
    split
    · exact ⟨rfl, rfl, fun e he => by cases he⟩
    · split
      · exact ⟨rfl, rfl, fun e he => by cases he⟩
      · refine ⟨rfl, ?_, fun e he => by cases he⟩
        unfold LogSegment.remap
        split <;> rfl

/-- The first record is written and counted. -/
def Begins (K : Crates) (io : AppendIo) (m : Message) (s : LogSegment) : Prop :=
  io.seek = none ∧ ∃ bs, (recordOf s.config s.nextOffset m).encode K = .ok bs ∧
    (io.record 0).logWrite = none ∧
    (s.config.indexInterval ≤ s.recordsSinceIndex → (io.record 0).index = .done) ∧
    s.size + bs.length < 2 ^ 64 ∧ s.nextOffset + 1 < 2 ^ 64

/-- The counter of the segment has moved exactly if the first record was counted. -/
theorem segment_nextOffset_ne_iff (io : AppendIo) (m : Message) (ms : List Message) (d : Dir)
    (s : LogSegment) :
    (LogSegment.append K io (m :: ms) d s).2.2.nextOffset ≠ s.nextOffset ↔ Begins K io m s := by
  unfold Begins
  cases hseek : io.seek with
  | some e =>
    have hsame : (LogSegment.append K io (m :: ms) d s).2.2 = s := by
      unfold LogSegment.append
      rw [if_neg (List.cons_ne_nil m ms), hseek]
    rw [hsame]
    exact iff_of_false (fun h => h rfl) (fun h => by cases h.1)
  | none =>
    rw [(append_loop (List.cons_ne_nil m ms) hseek).2.1]
    refine (appendLoop_nextOffset_ne_iff io.record m ms (appendStart d s)).trans ?_
    refine (appendRecord_nextOffset_ne_iff s.config (io.record 0) m (appendStart d s)).trans ?_
    exact (and_iff_right rfl).symm

/-- The first record is refused before a byte of it is written. -/
def Refuses (K : Crates) (io : AppendIo) (m : Message) (s : LogSegment) : Prop :=
  io.seek ≠ none ∨ (∃ e, (recordOf s.config s.nextOffset m).encode K = .error e) ∨
    ∃ e, (io.record 0).logWrite = some (0, e)

theorem refuses_iff {m : Message} :
    (io.seek.isSome = true ∨
      ((recordOf s.config s.nextOffset m).encode K).isOk = false ∨
      (io.record 0).logWrite.any (fun p => p.1 = 0) = true) ↔ Refuses K io m s := by
  refine or_congr (by rw [Option.isSome_iff_ne_none]) (or_congr ?_ ?_)
  · cases (recordOf s.config s.nextOffset m).encode K with
    | ok bs => exact iff_of_false (fun h => by cases h) (fun ⟨e, he⟩ => by cases he)
    | error e => exact iff_of_true rfl ⟨e, rfl⟩
  · cases (io.record 0).logWrite with
    | none => exact iff_of_false (fun h => by cases h) (fun ⟨e, he⟩ => by cases he)
    | some p =>
      rw [Option.any_some, decide_eq_true_iff]
      constructor
      · intro h
        exact ⟨p.2, by rw [← h]⟩
      · rintro ⟨e, he⟩
        rw [Option.some_inj.1 he]

instance (K : Crates) (io : AppendIo) (m : Message) (s : LogSegment) :
    Decidable (Refuses K io m s) := decidable_of_iff _ refuses_iff

theorem encode_error {r : DiskRecord} {e : Fault} (h : r.encode K = .error e) :
    ∃ e', e = .error e' := by
  unfold DiskRecord.encode at h
  split at h
  · rename_i hcompress
    cases h
    unfold compress compressionError at hcompress
    split at hcompress
    · cases hcompress
    · split at hcompress
      · cases hcompress
      · cases hcompress
        exact ⟨_, rfl⟩
    · split at hcompress
      · cases hcompress
      · cases hcompress
        exact ⟨_, rfl⟩
    · cases hcompress
  · cases h

theorem content_insert (d : Dir) (name : FileName) (bytes : Bytes) (file : FileName) :
    content (d.insert name bytes) file = if file = name then bytes else content d file := by
  unfold content
  rw [Table.get_insert]
  split <;> rfl

@[simp] theorem content_touch (name : FileName) (d : Dir) (file : FileName) :
    content (touch name d) file = content d file := by
  unfold content
  rw [get_touch]
  split
  · rename_i h
    rw [h]
    rfl
  · rfl

theorem content_appendDir_start (d : Dir) (s : LogSegment) (file : FileName) :
    content (appendDir d s (appendStart d s)) file = content d file := by
  unfold appendDir appendStart
  rw [content_insert, content_insert]
  split
  · rename_i h
    rw [h]
  · split
    · rename_i h
      rw [h]
    · rfl

/-- Files that exist, written as they were. -/
theorem appendDir_start (hlog : ∃ log, d.get (logPath s.baseOffset) = some log)
    (hindex : ∃ file, d.get (indexPath s.baseOffset) = some file) :
    appendDir d s (appendStart d s) = d := by
  obtain ⟨log, hlog⟩ := hlog
  obtain ⟨file, hindex⟩ := hindex
  unfold appendDir appendStart content
  rw [hlog, hindex]
  ext1 name
  rw [Table.get_insert, Table.get_insert]
  split
  · rename_i h
    rw [h, hindex]
    rfl
  · split
    · rename_i h
      rw [h, hlog]
      rfl
    · rfl

theorem content_appendDir_log (d : Dir) (s : LogSegment) (st : AppendState) :
    content (appendDir d s st) (logPath s.baseOffset) = st.log := by
  rw [content, get_appendDir_log]
  rfl

/-- An append that is refused, with what it leaves: the directory as it was, or its two files
rewritten as they were. -/
theorem Refuses.append_eq {m : Message} (h : Refuses K io m s) (ms : List Message) (d : Dir) :
    ∃ e d', LogSegment.append K io (m :: ms) d s = (.error (.error e), d', s) ∧
      (d' = d ∨ d' = appendDir d s (appendStart d s)) := by
  cases hseek : io.seek with
  | some e =>
    refine ⟨.io e, d, ?_, .inl rfl⟩
    unfold LogSegment.append
    rw [if_neg (List.cons_ne_nil m ms), hseek]
  | none =>
    have hloop : ∃ e, appendLoop K s.config io.record (m :: ms) (appendStart d s) =
        (.error (.error e), appendStart d s) := by
      rw [appendLoop]
      rcases appendRecord_cases (K := K) s.config (io.record 0) m (appendStart d s) with
        ⟨e, henc, heq⟩ | ⟨bs, k, e, henc, hwrite, heq⟩ | ⟨bs, henc, hwrite, -⟩
      · obtain ⟨e', rfl⟩ := encode_error henc
        exact ⟨e', by rw [heq]⟩
      · rcases h with h | ⟨e', herror⟩ | ⟨e', hzero⟩
        · exact absurd hseek h
        · exact absurd (henc.symm.trans herror) (by simp)
        · rw [hwrite] at hzero
          cases hzero
          refine ⟨.io e, ?_⟩
          rw [heq, List.take_zero, List.append_nil]
      · rcases h with h | ⟨e', herror⟩ | ⟨e', hzero⟩
        · exact absurd hseek h
        · exact absurd (henc.symm.trans herror) (by simp)
        · rw [hwrite] at hzero
          cases hzero
    obtain ⟨e, hloop⟩ := hloop
    obtain ⟨-, -, herror⟩ := append_loop (K := K) (d := d) (List.cons_ne_nil m ms) hseek
    refine ⟨e, appendDir d s (appendStart d s), ?_, .inr rfl⟩
    rw [herror (.error e) (congrArg Prod.fst hloop), hloop]
    rfl

/-- An append that is refused answers with an error and changes nothing. -/
theorem Refuses.same {m : Message} (h : Refuses K io m s) (ms : List Message) (d : Dir) :
    (∃ e, (LogSegment.append K io (m :: ms) d s).1 = .error (.error e)) ∧
      (LogSegment.append K io (m :: ms) d s).2.2 = s ∧
      ∀ file, content (LogSegment.append K io (m :: ms) d s).2.1 file = content d file := by
  obtain ⟨e, d', heq, rfl | rfl⟩ := h.append_eq ms d
  · rw [heq]
    exact ⟨⟨e, rfl⟩, rfl, fun _ => rfl⟩
  · rw [heq]
    exact ⟨⟨e, rfl⟩, rfl, content_appendDir_start d s⟩

/-- An append that is not refused has written to the log. -/
theorem log_lt_of_not_refuses {m : Message} (h : ¬Refuses K io m s) (ms : List Message) (d : Dir) :
    (content d (logPath s.baseOffset)).length <
      (content (LogSegment.append K io (m :: ms) d s).2.1 (logPath s.baseOffset)).length := by
  obtain ⟨hseek, henc, hwrite⟩ : io.seek = none ∧
      (∀ e, (recordOf s.config s.nextOffset m).encode K ≠ .error e) ∧
      ∀ e, (io.record 0).logWrite ≠ some (0, e) := by
    unfold Refuses at h
    push Not at h
    exact h
  rw [(append_loop (List.cons_ne_nil m ms) hseek).1, content_appendDir_log]
  -- the first iteration writes, the others only add to it
  have hfirst : (content d (logPath s.baseOffset)).length <
      (appendRecord K s.config (io.record 0) m (appendStart d s)).2.log.length := by
    rcases appendRecord_cases (K := K) s.config (io.record 0) m (appendStart d s) with
      ⟨e, herror, -⟩ | ⟨bs, k, e, hok, hpart, heq⟩ | ⟨bs, hok, -, hlog, -⟩
    · exact absurd herror (henc e)
    · have hk : k ≠ 0 := by
        rintro rfl
        exact hwrite e hpart
      have hlen := length_encode hok
      rw [heq]
      simp only [appendStart, List.length_append, List.length_take]
      omega
    · have hlen := length_encode hok
      rw [hlog, List.length_append]
      simp only [appendStart]
      omega
  rw [appendLoop]
  split
  · rename_i heq
    rw [heq] at hfirst
    exact hfirst
  · rename_i st heq
    rw [heq] at hfirst
    exact Nat.lt_of_lt_of_le hfirst (appendLoop_grows s.config ms _ st).1

end Active

/-! ## The partition -/

namespace Partition

/-- The segment that an append writes to: a new one when the active one is full. -/
def target (io : CreateIo) (p : Partition) : Option LogSegment :=
  match p.segments.getLast? with
  | none => none
  | some active =>
    if active.shouldRotate then
      if io = .done then some (createdSegment p.config active.nextOffset) else none
    else some active

/-- An append that counts its first record. -/
def Moves (K : Crates) (io : PartitionIo) (messages : List Message) (p : Partition) : Prop :=
  ∃ s m, target io.create p = some s ∧ messages.head? = some m ∧ Begins K io.append m s

/-- An append that is refused: it has no message, no segment to write to, or the active segment
refuses the first record. -/
def Untouched (K : Crates) (io : PartitionIo) (messages : List Message) (p : Partition) : Prop :=
  messages = [] ∨ target io.create p = none ∨
    ∃ s m, p.segments.getLast? = some s ∧ s.shouldRotate = false ∧ messages.head? = some m ∧
      Refuses K io.append m s

end Partition

section Whole

variable {io : PartitionIo} {messages : List Message} {d : Dir} {p : Partition}

/-- **The two halves of an append.** -/
theorem rotate_cases (io : CreateIo) (d : Dir) (p : Partition) :
    (Partition.target io p = none ∧ ∃ e d', Partition.rotate io d p = (.error (.error e), d', p) ∧
      ∀ file, content d' file = content d file) ∨
    (∃ active, Partition.target io p = some active ∧ p.segments.getLast? = some active ∧
      active.shouldRotate = false ∧ Partition.rotate io d p = (.ok active, d, p)) ∨
    ∃ full d', Partition.target io p = some (createdSegment p.config full.nextOffset) ∧
      p.segments.getLast? = some full ∧ full.shouldRotate = true ∧ Partition.rotate io d p =
        (.ok (createdSegment p.config full.nextOffset), d', { p with
          segments := p.segments ++ [createdSegment p.config full.nextOffset] }) := by
  unfold Partition.rotate Partition.target
  cases hlast : p.segments.getLast? with
  | none => exact .inl ⟨rfl, _, d, rfl, fun _ => rfl⟩
  | some active =>
    cases hfull : active.shouldRotate with
    | false =>
      simp only [hfull, Bool.false_eq_true, if_false]
      exact .inr (.inl ⟨active, rfl, rfl, hfull, rfl⟩)
    | true =>
      simp only [hfull, if_true]
      cases io with
      | logFails e => exact .inl ⟨rfl, _, d, rfl, fun _ => rfl⟩
      | indexFails e => exact .inl ⟨rfl, _, _, rfl, content_touch _ d⟩
      | done => exact .inr (.inr ⟨active, _, rfl, rfl, hfull, rfl⟩)

theorem concat_dropLast {α : Type} {l : List α} {a : α} (h : l.getLast? = some a) :
    l.dropLast ++ [a] = l := by
  obtain ⟨init, rfl⟩ := List.getLast?_eq_some_iff.1 h
  rw [List.dropLast_concat]

/-- **The next offset** after an append, failed or not, is another one exactly when the first
record was counted. -/
theorem append_nextOffset_ne_iff (K : Crates) (io : PartitionIo) (messages : List Message)
    (d : Dir) (p : Partition) :
    (Partition.append K io messages d p).2.2.nextOffset ≠ p.nextOffset ↔
      Partition.Moves K io messages p := by
  unfold Partition.append Partition.Moves
  cases messages with
  | nil => exact iff_of_false (fun h => h rfl) (fun ⟨_, _, _, h, _⟩ => by cases h)
  | cons m ms =>
    rw [if_neg (List.cons_ne_nil m ms)]
    simp only [List.head?_cons, Option.some.injEq]
    rcases rotate_cases io.create d p with
      ⟨htarget, e, d', heq, -⟩ | ⟨active, htarget, hlast, -, heq⟩ | ⟨full, d', htarget, hlast, -, heq⟩
    · rw [heq, htarget]
      exact iff_of_false (fun h => h rfl) (fun ⟨_, _, h, _⟩ => by cases h)
    · rw [heq, htarget]
      have hiff := segment_nextOffset_ne_iff (K := K) io.append m ms d active
      simp only [Partition.nextOffset, hlast, List.getLast?_concat]
      rw [hiff]
      constructor
      · intro h
        exact ⟨active, m, rfl, rfl, h⟩
      · rintro ⟨s, m', hs, hm, h⟩
        cases hs
        cases hm
        exact h
    · rw [heq, htarget]
      have hiff := segment_nextOffset_ne_iff (K := K) io.append m ms d'
        (createdSegment p.config full.nextOffset)
      simp only [Partition.nextOffset, hlast, List.getLast?_concat]
      constructor
      · intro h
        exact ⟨_, m, rfl, rfl, hiff.1 h⟩
      · rintro ⟨s, m', hs, hm, h⟩
        cases hs
        cases hm
        exact hiff.2 h

/-- **A refused append** answers with an error and changes nothing; every other one does not. -/
theorem untouched_iff (K : Crates) (io : PartitionIo) (messages : List Message) (d : Dir)
    (p : Partition) :
    ((∃ e, (Partition.append K io messages d p).1 = .error (.error e)) ∧
      (Partition.append K io messages d p).2.2 = p ∧
      ∀ file, content (Partition.append K io messages d p).2.1 file = content d file) ↔
      Partition.Untouched K io messages p := by
  unfold Partition.append Partition.Untouched
  cases messages with
  | nil => exact iff_of_true ⟨⟨_, rfl⟩, rfl, fun _ => rfl⟩ (.inl rfl)
  | cons m ms =>
    rw [if_neg (List.cons_ne_nil m ms)]
    simp only [reduceCtorEq, false_or, List.head?_cons, Option.some.injEq]
    rcases rotate_cases io.create d p with ⟨htarget, e, d', heq, hsame⟩ |
      ⟨active, htarget, hlast, hroom, heq⟩ | ⟨full, d', htarget, hlast, hfull, heq⟩
    · rw [heq, htarget]
      exact iff_of_true ⟨⟨e, rfl⟩, rfl, hsame⟩ (.inl rfl)
    · rw [heq, htarget, hlast]
      by_cases hrefuses : Refuses K io.append m active
      · obtain ⟨herror, hsegment, hfiles⟩ := hrefuses.same ms d
        refine iff_of_true ⟨herror, ?_, hfiles⟩ (.inr ⟨active, m, rfl, hroom, rfl, hrefuses⟩)
        simp only [hsegment, concat_dropLast hlast]
      · refine iff_of_false ?_ ?_
        · rintro ⟨-, -, hfiles⟩
          have hlt := log_lt_of_not_refuses hrefuses ms d
          rw [hfiles] at hlt
          exact absurd hlt (Nat.lt_irrefl _)
        · rintro (h | ⟨s, m', hs, -, hm, h⟩)
          · cases h
          · cases hs
            cases hm
            exact hrefuses h
    · rw [heq, htarget, hlast]
      refine iff_of_false ?_ ?_
      · rintro ⟨-, hpartition, -⟩
        have hlen := congrArg (fun q : Partition => q.segments.length) hpartition
        simp at hlen
      · rintro (h | ⟨s, m', hs, hroom, -⟩)
        · cases h
        · cases hs
          rw [hfull] at hroom
          cases hroom

end Whole

end Gaffa
