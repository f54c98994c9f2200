import Gaffa.Storage.Fidelity
import Gaffa.Storage.Offsets
import Gaffa.Storage.Topic

/-!
# Creating partitions over old files

`LogSegment::create` opens the log and the index without truncating them, while size, entry count
and next offset start from zero.  A partition over empty log files behaves like one in an empty
directory, whatever the old index files hold (`Over`): its index handles write over the old entries
from the front and count only their own.

* `created_fetch_exact`: fetches are exact as long as every log file that is created is empty.
-/

set_option autoImplicit false

namespace Gaffa

open ByteString DiskRecord OffsetIndex Transition Bisect

variable {K : Crates} {topicName : String} {partitionId : Nat}

/-! ## Index files -/

/-- A handle on a file whose front is the file of another handle: both count the same entries, and
write behind them. -/
structure OverIndex (file₀ : Bytes) (ix₀ : OffsetIndex) (file : Bytes) (ix : OffsetIndex) :
    Prop where
  size : ix.size = ix₀.size
  cursor : ix.cursor = ix₀.cursor
  straight : ix₀.cursor = file₀.length
  length : file₀.length = indexEntrySize * ix₀.size
  front : ∃ rest, file = file₀ ++ rest
  map : ix₀.size = 0 ∨ (ix.mmap = some file.length ∧ ix₀.mmap = some file₀.length)

section Index

variable {file₀ file file' : Bytes} {ix₀ ix ix' : OffsetIndex}

theorem OverIndex.append (h : OverIndex file₀ ix₀ file ix) {io : IndexIo} {offset position : Nat}
    (happ : OffsetIndex.append io offset position file ix = (.ok (), file', ix')) :
    ∃ file₀' ix₀', OffsetIndex.append io offset position file₀ ix₀ = (.ok (), file₀', ix₀') ∧
      OverIndex file₀' ix₀' file' ix' := by
  obtain ⟨rest, rfl⟩ := h.front
  obtain ⟨hfile, hix⟩ := OffsetIndex.append_ok happ
  rw [h.cursor, h.straight, writeAt_append] at hfile
  cases io with
  | done =>
    have hok := OffsetIndex.append_ok (show OffsetIndex.append .done offset position file₀ ix₀ =
      (.ok (), _, _) from rfl)
    refine ⟨_, _, rfl, ?_⟩
    rw [hok.2, hok.1, h.straight, writeAt_end]
    subst hfile hix
    refine ⟨?_, ?_, ?_, ?_, ⟨_, rfl⟩, Or.inr ⟨rfl, rfl⟩⟩
    · simp only [h.size]
    · simp only [h.cursor, h.straight]
    · simp only [List.length_append, length_entry]
    · simp only [List.length_append, length_entry, h.length, Nat.mul_add, Nat.mul_one]
  | writeFails k e => cases happ
  | syncFails e => cases happ
  | remapFails e => cases happ

/-- A lookup sees the entries that the handle counts. -/
theorem OverIndex.lookup (h : OverIndex file₀ ix₀ file ix) (target : Nat) :
    ix.lookup file target = ix₀.lookup file₀ target := by
  obtain ⟨rest, rfl⟩ := h.front
  unfold OffsetIndex.lookup
  rw [h.size]
  by_cases h0 : ix₀.size = 0
  · rw [if_pos h0, if_pos h0]
  · obtain ⟨hmap, hmap₀⟩ := h.map.resolve_left h0
    rw [if_neg h0, if_neg h0, hmap, hmap₀]
    simp only [List.take_length]
    have hprobe : ∀ i, i < ix₀.size → probe (file₀ ++ rest) target i = probe file₀ target i := by
      intro i hi
      have hin : indexEntrySize * (i + 1) ≤ file₀.length := by
        rw [h.length]
        exact Nat.mul_le_mul_left _ hi
      have hentry : entryAt (file₀ ++ rest) i = entryAt file₀ i := by
        simp only [entryAt, slot_append rest hin]
      rw [probe_eq target (Nat.le_trans hin (by simp)), probe_eq target hin, hentry]
    rw [bisect_congr hprobe _ _ _ _ (Nat.le_refl _)]

end Index

/-! ## Appending -/

/-- What the loop of an append works on, over old index entries. -/
structure OverState (st₀ st : LogSegment.AppendState) : Prop where
  log : st.log = st₀.log
  next : st.nextOffset = st₀.nextOffset
  position : st.currentPosition = st₀.currentPosition
  since : st.recordsSinceIndex = st₀.recordsSinceIndex
  index : OverIndex st₀.indexFile st₀.index st.indexFile st.index

section Append

variable {config : SegmentConfig} {st₀ st st' : LogSegment.AppendState}

theorem OverState.updateIndex (h : OverState st₀ st) {io : IndexIo}
    (hup : LogSegment.updateIndex config io st = (.ok (), st')) :
    ∃ st₀', LogSegment.updateIndex config io st₀ = (.ok (), st₀') ∧ OverState st₀' st' := by
  rcases updateIndex_ok hup with ⟨hlt, rfl⟩ | ⟨hge, file, ix, happ, rfl⟩
  · refine ⟨st₀, ?_, h⟩
    unfold LogSegment.updateIndex
    rw [if_neg (by rw [← h.since]; omega)]
  · rw [h.next, h.position] at happ
    obtain ⟨file₀, ix₀, happ₀, hover⟩ := h.index.append happ
    refine ⟨{ st₀ with indexFile := file₀, index := ix₀, recordsSinceIndex := 0 }, ?_,
      ⟨h.log, h.next, h.position, rfl, hover⟩⟩
    unfold LogSegment.updateIndex
    rw [if_pos (by rw [← h.since]; exact hge), happ₀]

theorem OverState.appendRecord (h : OverState st₀ st) {io : LogSegment.RecordIo} {m : Message}
    (hrec : LogSegment.appendRecord K config io m st = (.ok (), st')) :
    ∃ st₀', LogSegment.appendRecord K config io m st₀ = (.ok (), st₀') ∧ OverState st₀' st' := by
  unfold LogSegment.appendRecord at hrec
  split at hrec
  · cases hrec
  rename_i bs henc
  split at hrec
  · cases hrec
  rename_i hwrite
  split at hrec
  · cases hrec
  rename_i st₁ hup
  have h₁ : OverState { st₀ with log := st₀.log ++ bs } { st with log := st.log ++ bs } :=
    ⟨congrArg (· ++ bs) h.log, h.next, h.position, h.since, h.index⟩
  obtain ⟨st₀₁, hup₀, hover⟩ := h₁.updateIndex hup
  obtain ⟨hpos, hnext, rfl⟩ := advance_ok hrec
  rw [hover.position] at hpos
  rw [hover.next] at hnext
  have hsince : st₀₁.recordsSinceIndex + 1 < 2 ^ 32 := by
    unfold LogSegment.advance at hrec
    rw [checkedAdd_of_lt (by rw [hover.position]; exact hpos),
      checkedAdd_of_lt (by rw [hover.next]; exact hnext)] at hrec
    simp only at hrec
    split at hrec
    · cases hrec
    · rename_i since hchecked
      rw [← hover.since]
      obtain ⟨rfl, hlt⟩ := checkedAdd_ok hchecked
      exact hlt
  refine ⟨{ st₀₁ with
    currentPosition := st₀₁.currentPosition + bs.length
    nextOffset := st₀₁.nextOffset + 1
    recordsSinceIndex := st₀₁.recordsSinceIndex + 1 }, ?_, ?_⟩
  · rw [h.next] at henc
    unfold LogSegment.appendRecord
    simp only [henc, hwrite, hup₀, LogSegment.advance, checkedAdd_of_lt hpos, checkedAdd_of_lt hnext,
      checkedAdd_of_lt hsince]
  · refine ⟨hover.log, ?_, ?_, ?_, hover.index⟩
    · simp only [hover.next]
    · simp only [hover.position]
    · simp only [hover.since]

theorem OverState.appendLoop {messages : List Message} {io : Nat → LogSegment.RecordIo}
    (h : OverState st₀ st)
    (hloop : LogSegment.appendLoop K config io messages st = (.ok (), st')) :
    ∃ st₀', LogSegment.appendLoop K config io messages st₀ = (.ok (), st₀') ∧
      OverState st₀' st' := by
  induction messages generalizing io st₀ st with
  | nil =>
    cases hloop
    exact ⟨st₀, rfl, h⟩
  | cons m ms ih =>
    unfold LogSegment.appendLoop at hloop
    split at hloop
    · cases hloop
    · rename_i st₁ hrec
      obtain ⟨st₀₁, hrec₀, h₁⟩ := h.appendRecord hrec
      obtain ⟨st₀', hloop₀, h'⟩ := ih h₁ hloop
      refine ⟨st₀', ?_, h'⟩
      simp only [LogSegment.appendLoop, hrec₀, hloop₀]

end Append

/-! ## Segments -/

/-- Two segments that differ in their index handles only, over directories with the same log file
and old entries behind the index of one. -/
structure OverSegment (d₀ : Dir) (s₀ : LogSegment) (d : Dir) (s : LogSegment) : Prop where
  rest : s = { s₀ with index := s.index }
  log : content d (logPath s₀.baseOffset) = content d₀ (logPath s₀.baseOffset)
  index : OverIndex (content d₀ (indexPath s₀.baseOffset)) s₀.index
    (content d (indexPath s₀.baseOffset)) s.index

section Segment

variable {d₀ d d' : Dir} {s₀ s s' : LogSegment}

theorem OverSegment.frame {d₀' : Dir} (h : OverSegment d₀ s₀ d s)
    (h₀ : SameFiles d₀ d₀' s₀.baseOffset) (h₁ : SameFiles d d' s₀.baseOffset) :
    OverSegment d₀' s₀ d' s := by
  refine ⟨h.rest, ?_, ?_⟩
  · simp only [content, h₀.1, h₁.1]
    exact h.log
  · simp only [content, h₀.2, h₁.2]
    exact h.index

/-- A segment's append. -/
theorem OverSegment.append (h : OverSegment d₀ s₀ d s) {io : LogSegment.AppendIo}
    {messages : List Message} {n : Nat}
    (happ : LogSegment.append K io messages d s = (.ok n, d', s')) :
    ∃ d₀' s₀', LogSegment.append K io messages d₀ s₀ = (.ok n, d₀', s₀') ∧
      OverSegment d₀' s₀' d' s' ∧ s₀'.baseOffset = s₀.baseOffset ∧
      ∀ b, b ≠ s₀.baseOffset → SameFiles d₀ d₀' b ∧ SameFiles d d' b := by
  have hrest := h.rest
  have hstart : OverState (LogSegment.appendStart d₀ s₀) (LogSegment.appendStart d s) := by
    rw [hrest]
    exact ⟨h.log, rfl, rfl, rfl, h.index⟩
  have hbase : s.baseOffset = s₀.baseOffset := by rw [hrest]
  have hconfig : s.config = s₀.config := by rw [hrest]
  have hnext : s.nextOffset = s₀.nextOffset := by rw [hrest]
  unfold LogSegment.append at happ
  split at happ
  · cases happ
  rename_i hne
  split at happ
  · cases happ
  rename_i hseek
  split at happ
  · cases happ
  rename_i st hloop
  split at happ
  · cases happ
  rename_i hsync
  split at happ
  · cases happ
  rename_i hremap
  rw [Prod.mk.injEq, Prod.mk.injEq, Except.ok.injEq, hnext] at happ
  obtain ⟨hn, hd, hs'⟩ := happ
  rw [hconfig] at hloop
  obtain ⟨st₀, hloop₀, hover⟩ := hstart.appendLoop hloop
  refine ⟨LogSegment.appendDir d₀ s₀ st₀, LogSegment.remap st₀.log
    { LogSegment.appendEnd s₀ st₀ with size := st₀.currentPosition }, ?_, ?_, ?_, ?_⟩
  · unfold LogSegment.append
    rw [if_neg hne]
    simp only [hseek, hloop₀, hsync, hremap, hn]
  · have hbase₀ : (LogSegment.remap st₀.log
        { LogSegment.appendEnd s₀ st₀ with size := st₀.currentPosition }).baseOffset =
          s₀.baseOffset := by
      unfold LogSegment.remap
      split <;> rfl
    have hindex₀ : (LogSegment.remap st₀.log
        { LogSegment.appendEnd s₀ st₀ with size := st₀.currentPosition }).index = st₀.index := by
      unfold LogSegment.remap
      split <;> rfl
    have hindex : s'.index = st.index := by
      rw [← hs']
      unfold LogSegment.remap
      split <;> rfl
    refine ⟨?_, ?_, ?_⟩
    · rw [hindex, ← hs', hover.log, hover.position]
      simp only [LogSegment.appendEnd, hover.next, hover.since]
      rw [hrest]
      unfold LogSegment.remap
      split <;> rfl
    · rw [hbase₀, ← hd]
      simp only [content, LogSegment.appendDir, hbase,
        Table.get_insert_ne _ (logPath_ne_indexPath _ _), Table.get_insert_self, hover.log]
    · rw [hbase₀, hindex₀, hindex, ← hd]
      simp only [content, LogSegment.appendDir, hbase, Table.get_insert_self]
      exact hover.index
  · unfold LogSegment.remap
    split <;> rfl
  · intro b hb
    rw [← hd]
    exact ⟨sameFiles_appendDir st₀ hb, sameFiles_appendDir st (by rw [hbase]; exact hb)⟩

theorem OverSegment.readBatch (h : OverSegment d₀ s₀ d s) (start max : Nat) :
    LogSegment.readBatch K d s start max = LogSegment.readBatch K d₀ s₀ start max := by
  have hreader : LogSegment.readerAt d s start = LogSegment.readerAt d₀ s₀ start := by
    have hrest := h.rest
    have hlookup := h.index.lookup start
    rw [hrest] at hlookup ⊢
    simp only [LogSegment.readerAt, h.log, hlookup]
  have hrest := h.rest
  unfold LogSegment.readBatch
  rw [hreader, hrest]

end Segment

/-! ## Partitions -/

/-- A partition over old index entries, and one in a directory of its own that holds the same. -/
structure Over (K : Crates) (topicName : String) (partitionId : Nat) (s₀ s : LogState)
    (p₀ p : Partition) (sgs : List (LogSegment × LogSegment)) : Prop where
  kept : ∃ hs, Kept K topicName partitionId s₀ p₀ hs ∧ Straight hs
  partition : s.partition = some p
  rest : p = { p₀ with segments := p.segments }
  acked : s.acked = s₀.acked
  fst : p₀.segments = sgs.map Prod.fst
  snd : p.segments = sgs.map Prod.snd
  segments : ∀ sg ∈ sgs, OverSegment s₀.dir sg.1 s.dir sg.2
  apart : sgs.Pairwise fun a b => a.1.baseOffset < b.1.baseOffset
  maxSize : 0 < p₀.config.maxSize

/-- An append that rotates creates its log file empty. -/
def CreatesEmpty (s : LogState) (e : LogEvent) (_ : LogState) : Prop :=
  match e with
  | .append _ _ => ∀ p ∈ s.partition, ∀ active ∈ p.segments.getLast?, active.shouldRotate = true →
    content s.dir (logPath active.nextOffset) = []
  | _ => True

section Partition

variable {s₀ s t : LogState} {p₀ p p' : Partition} {sgs : List (LogSegment × LogSegment)}

theorem fetchLoop_over {d₀ d : Dir} :
    ∀ {sgs : List (LogSegment × LogSegment)}, (∀ sg ∈ sgs, OverSegment d₀ sg.1 d sg.2) →
    ∀ current remaining, Partition.fetchLoop K d (sgs.map Prod.snd) current remaining =
      Partition.fetchLoop K d₀ (sgs.map Prod.fst) current remaining
  | [], _, _, _ => rfl
  | sg :: sgs, h, current, remaining => by
    have hsg := h sg (List.mem_cons_self ..)
    simp only [List.map_cons, Partition.fetchLoop, hsg.readBatch,
      fetchLoop_over fun k hk => h k (List.mem_cons_of_mem _ hk)]

theorem findSegmentIndex_over {d₀ d : Dir} (h : ∀ sg ∈ sgs, OverSegment d₀ sg.1 d sg.2)
    (offset : Nat) : Partition.findSegmentIndex (sgs.map Prod.snd) offset =
      Partition.findSegmentIndex (sgs.map Prod.fst) offset := by
  have hbase : ∀ sg ∈ sgs, sg.2.baseOffset = sg.1.baseOffset := by
    intro sg hsg
    rw [(h sg hsg).rest]
  unfold Partition.findSegmentIndex
  simp only [List.length_map, List.getElem?_map]
  congr 1
  refine bisect_congr (fun mid _ => ?_) _ _ _ _ (Nat.le_refl _)
  cases hget : sgs[mid]? with
  | none => rfl
  | some sg => simp only [Option.map_some, hbase sg (List.mem_of_getElem? hget)]

/-- Fetches return the same. -/
theorem Over.fetch (h : Over K topicName partitionId s₀ s p₀ p sgs) (offset maxMessages : Nat) :
    p.fetch K s.dir offset maxMessages = p₀.fetch K s₀.dir offset maxMessages := by
  have hdrop : ∀ k, ∀ sg ∈ sgs.drop k, OverSegment s₀.dir sg.1 s.dir sg.2 := by
    intro k sg hsg
    exact h.segments sg (List.mem_of_mem_drop hsg)
  have hrecord : p.toRecord = p₀.toRecord := by
    rw [h.rest]
    rfl
  unfold Partition.fetch
  simp only [h.fst, h.snd, findSegmentIndex_over h.segments, ← List.map_drop,
    fetchLoop_over (hdrop _), hrecord]

theorem Over.fetchExact (h : Over K topicName partitionId s₀ s p₀ p sgs) :
    FetchExact K topicName partitionId s := by
  obtain ⟨hs, hkept, -⟩ := h.kept
  refine ⟨p, h.partition, ?_⟩
  intro offset maxMessages
  rw [h.fetch, hkept.fetch, LogState.messages, LogState.messages, h.acked]

theorem sameFiles_touch {b c : Nat} (d : Dir) (h : c ≠ b) :
    SameFiles d (touch (indexPath b) (touch (logPath b) d)) c := by
  constructor
  · rw [get_touch, if_neg (logPath_ne_indexPath _ _), get_touch, if_neg (by rwa [logPath_inj])]
  · rw [get_touch, if_neg (by rwa [indexPath_inj]), get_touch,
      if_neg (logPath_ne_indexPath _ _).symm]

/-- New handles on an empty log, one of them over old index entries. -/
theorem overSegment_created (config : SegmentConfig) {d₀ d : Dir} {b : Nat}
    (hlog₀ : content d₀ (logPath b) = []) (hindex₀ : content d₀ (indexPath b) = [])
    (hlog : content d (logPath b) = []) :
    OverSegment d₀ (createdSegment config b) d (createdSegment config b) := by
  refine ⟨rfl, hlog.trans hlog₀.symm, rfl, rfl, ?_, ?_, ⟨content d (indexPath b), ?_⟩, Or.inl rfl⟩
  all_goals
    simp only [createdSegment, hindex₀]
    rfl

theorem content_touch_log (d : Dir) (b : Nat) :
    content (touch (indexPath b) (touch (logPath b) d)) (logPath b) = content d (logPath b) := by
  simp only [content, get_touch, if_neg (logPath_ne_indexPath b b), if_pos, Option.getD_some]

theorem content_touch_index (d : Dir) (b : Nat) :
    content (touch (indexPath b) (touch (logPath b) d)) (indexPath b) =
      content d (indexPath b) := by
  simp only [content, get_touch, if_neg (logPath_ne_indexPath b b).symm, if_pos, Option.getD_some]

/-- The last segment of the partition in a directory of its own. -/
theorem Over.last (h : Over K topicName partitionId s₀ s p₀ p sgs)
    {init : List (LogSegment × LogSegment)} {a₀ a : LogSegment} (hsgs : sgs = init ++ [(a₀, a)]) :
    a₀.config = p₀.config ∧ (a₀.shouldRotate = true → a₀.baseOffset < a₀.nextOffset ∧
      (∀ sg ∈ sgs, sg.1.baseOffset ≠ a₀.nextOffset) ∧
      s₀.dir.get (logPath a₀.nextOffset) = none ∧ s₀.dir.get (indexPath a₀.nextOffset) = none) := by
  obtain ⟨hs, hkept, -⟩ := h.kept
  have hopen := hkept.agrees
  obtain ⟨hinit, g, rfl⟩ := (List.eq_nil_or_concat' hs).resolve_left hopen.ne_nil
  have hg : g.Ok K p₀.config s₀.dir := hopen.held g (by simp)
  have hlast : a₀ = g.segment := by
    have := hopen.getLast?
    rw [h.fst, hsgs, List.map_append, List.map_singleton, List.getLast?_concat] at this
    exact Option.some_inj.1 this
  rw [hlast]
  refine ⟨hg.config, ?_⟩
  intro hrot
  have hsize : 0 < g.view.bytes.length := by
    have hmax := h.maxSize
    unfold LogSegment.shouldRotate at hrot
    rw [hg.backed.size, hg.config, decide_eq_true_eq] at hrot
    omega
  have hlt : g.view.base < g.view.next := by
    refine Nat.lt_of_le_of_ne g.view.base_le_next fun heq => ?_
    rw [LogView.bytes_of_next_eq_base heq.symm] at hsize
    exact absurd hsize (Nat.lt_irrefl 0)
  have hdisk := hopen.disk
  rw [List.map_append, List.map_singleton] at hdisk
  rw [hg.backed.base, hg.backed.next]
  refine ⟨hlt, ?_, hdisk.get_next hlt⟩
  intro sg hsg
  have hmem : sg.1 ∈ p₀.segments := by
    rw [h.fst]
    exact List.mem_map_of_mem hsg
  rw [hopen.segments, List.mem_flatMap] at hmem
  obtain ⟨k, hk, hin⟩ := hmem
  rw [(hopen.held k hk).base sg.1 hin]
  apply hdisk.base_ne_next hlt
  simpa using List.mem_map_of_mem (f := Held.view) hk

/-- The active segments of an append, after a rotation if one was due. -/
theorem Over.rotate (h : Over K topicName partitionId s₀ s p₀ p sgs) {io : CreateIo}
    (hempty : ∀ active ∈ p.segments.getLast?, active.shouldRotate = true →
      content s.dir (logPath active.nextOffset) = [])
    {active : LogSegment} {d' : Dir} (hrot : Partition.rotate io s.dir p = (.ok active, d', p')) :
    ∃ init active₀ d₀' p₀', Partition.rotate io s₀.dir p₀ = (.ok active₀, d₀', p₀') ∧
      p' = { p₀' with segments := p'.segments } ∧ p₀'.config = p₀.config ∧
      p₀'.segments = (init ++ [(active₀, active)]).map Prod.fst ∧
      p'.segments = (init ++ [(active₀, active)]).map Prod.snd ∧
      (∀ sg ∈ init ++ [(active₀, active)], OverSegment d₀' sg.1 d' sg.2) ∧
      (init ++ [(active₀, active)]).Pairwise fun a b => a.1.baseOffset < b.1.baseOffset := by
  obtain rfl | ⟨init, ⟨a₀, a⟩, hsgs⟩ := List.eq_nil_or_concat' sgs
  · obtain ⟨last, hlast, -⟩ := rotate_ok hrot
    rw [h.snd] at hlast
    cases hlast
  have hlast₀ : p₀.segments.getLast? = some a₀ := by
    rw [h.fst, hsgs, List.map_append, List.map_singleton, List.getLast?_concat]
  have hlast : p.segments.getLast? = some a := by
    rw [h.snd, hsgs, List.map_append, List.map_singleton, List.getLast?_concat]
  have ha : OverSegment s₀.dir a₀ s.dir a := h.segments (a₀, a) (by simp [hsgs])
  have hrotates : a.shouldRotate = a₀.shouldRotate := by
    rw [ha.rest]
    rfl
  have hnext : a.nextOffset = a₀.nextOffset := by rw [ha.rest]
  have hconfig : p.config = p₀.config := by rw [h.rest]
  unfold Partition.rotate at hrot ⊢
  rw [hlast] at hrot
  rw [hlast₀]
  simp only [hrotates] at hrot ⊢
  by_cases hfull : a₀.shouldRotate = true
  · obtain ⟨hlt, hne, hlog₀, hindex₀⟩ := (h.last hsgs).2 hfull
    have hcontent := hempty a hlast (hrotates.trans hfull)
    rw [hnext] at hcontent
    rw [if_pos hfull] at hrot ⊢
    cases io with
    | logFails e => cases hrot
    | indexFails e => cases hrot
    | done =>
      cases hrot
      simp only [LogSegment.create, hnext]
      refine ⟨sgs, _, _, _, rfl, ?_, rfl, ?_, ?_, ?_, ?_⟩
      · rw [h.rest]
      · rw [h.fst, List.map_append]
        rfl
      · rw [h.snd, List.map_append]
        rfl
      · intro sg hsg
        rcases List.mem_append.1 hsg with hsg | hsg
        · exact (h.segments sg hsg).frame (sameFiles_touch _ (hne sg hsg))
            (sameFiles_touch _ (hne sg hsg))
        · rw [List.mem_singleton.1 hsg, hconfig]
          refine overSegment_created p₀.config ?_ ?_ ?_
          · rw [content_touch_log, content, hlog₀]
            rfl
          · rw [content_touch_index, content, hindex₀]
            rfl
          · rw [content_touch_log, hcontent]
      · refine List.pairwise_append.2 ⟨h.apart, List.pairwise_singleton .., ?_⟩
        intro sg hsg new hnew
        rw [List.mem_singleton.1 hnew]
        simp only
        have hapart := h.apart
        rw [hsgs] at hsg hapart
        rcases List.mem_append.1 hsg with hsg | hsg
        · have := (List.pairwise_append.1 hapart).2.2 sg hsg _ (List.mem_singleton.2 rfl)
          simp only at this
          omega
        · rw [List.mem_singleton.1 hsg]
          exact hlt
  · rw [if_neg hfull] at hrot ⊢
    cases hrot
    exact ⟨init, a₀, s₀.dir, p₀, rfl, h.rest, rfl, hsgs ▸ h.fst, hsgs ▸ h.snd,
      hsgs ▸ h.segments, hsgs ▸ h.apart⟩

/-- **An append** does what it does in a directory of its own. -/
theorem Over.append (hK : K.Lawful) (h : Over K topicName partitionId s₀ s p₀ p sgs)
    {io : PartitionIo} {batch : List Message} {n : Nat} {d' : Dir}
    (hfit : ∀ m ∈ batch, Fits K p.config.compression m)
    (hempty : ∀ active ∈ p.segments.getLast?, active.shouldRotate = true →
      content s.dir (logPath active.nextOffset) = [])
    (happ : Partition.append K io batch s.dir p = (.ok n, d', p')) :
    n = s.messages.length ∧ ∃ d₀' p₀' sgs', Over K topicName partitionId
      ⟨d₀', some p₀', s₀.acked ++ [(n, batch)]⟩ ⟨d', some p', s.acked ++ [(n, batch)]⟩
      p₀' p' sgs' := by
  obtain ⟨hne, active, d₁, p₁, s', hrot, hseg, rfl⟩ := partition_append_ok happ
  obtain ⟨init, active₀, d₀₁, p₀₁, hrot₀, hrest, hconfig, hfst, hsnd, hover, hapart⟩ :=
    h.rotate hempty hrot
  have hactive : OverSegment d₀₁ active₀ d₁ active := hover (active₀, active) (by simp)
  obtain ⟨d₀', s₀', hseg₀, hover', hbase, hframe⟩ := hactive.append hseg
  have happ₀ : Partition.append K io batch s₀.dir p₀ =
      (.ok n, d₀', { p₀₁ with segments := p₀₁.segments.dropLast ++ [s₀'] }) := by
    unfold Partition.append
    rw [if_neg hne, hrot₀]
    simp only [hseg₀]
  obtain ⟨hs, hkept, hstraight⟩ := h.kept
  have hcompression : p.config = p₀.config := by rw [h.rest]
  rw [hcompression] at hfit
  obtain ⟨hs', hkept', hstraight'⟩ := hkept.append hK hfit happ₀
    (hkept.cursorSafe (t := s₀) hstraight _)
  have hdrop : ∀ {f : LogSegment × LogSegment → LogSegment},
      ((init ++ [(active₀, active)]).map f).dropLast = init.map f := by
    intro f
    rw [List.map_append, List.map_singleton, List.dropLast_concat]
  refine ⟨?_, d₀', _, init ++ [(s₀', s')], ⟨hs', hkept', hstraight' hstraight⟩, rfl, ?_, ?_, ?_,
    ?_, ?_, ?_, ?_⟩
  · rw [(append_nextOffset happ₀).1, hkept.nextOffset, LogState.messages, LogState.messages, h.acked]
  · rw [hrest]
  · rw [h.acked]
  · simp only [hfst]
    rw [hdrop, List.map_append, List.map_singleton]
  · simp only [hsnd]
    rw [hdrop, List.map_append, List.map_singleton]
  · intro sg hsg
    rcases List.mem_append.1 hsg with hsg | hsg
    · have hlt := (List.pairwise_append.1 hapart).2.2 sg hsg _ (List.mem_singleton.2 rfl)
      obtain ⟨h₀, h₁⟩ := hframe sg.1.baseOffset (Nat.ne_of_lt hlt)
      exact (hover sg (List.mem_append_left _ hsg)).frame h₀ h₁
    · rw [List.mem_singleton.1 hsg]
      exact hover'
  · obtain ⟨hinit, -, hlast⟩ := List.pairwise_append.1 hapart
    refine List.pairwise_append.2 ⟨hinit, List.pairwise_singleton .., ?_⟩
    intro sg hsg new hnew
    rw [List.mem_singleton.1 hnew, hbase]
    exact hlast sg hsg _ (List.mem_singleton.2 rfl)
  · rw [hconfig]
    exact h.maxSize

end Partition

/-! ## Runs -/

/-- `Partition::with_config` in a directory with any content. -/
def LogState.created (topicName : String) (partitionId : Nat) (config : SegmentConfig) (d : Dir) :
    LogState :=
  let r := Partition.withConfig topicName partitionId config d
  ⟨r.1, some r.2, []⟩

theorem over_created (config : SegmentConfig) (hmax : 0 < config.maxSize) {d : Dir}
    (hempty : content d (logPath 0) = []) :
    ∃ p₀ p sgs, Over K topicName partitionId (LogState.init topicName partitionId config)
      (LogState.created topicName partitionId config d) p₀ p sgs := by
  refine ⟨_, _, [(createdSegment config 0, createdSegment config 0)],
    ⟨_, kept_init config, ?_⟩, rfl, rfl, ?_, rfl, rfl, ?_, List.pairwise_singleton .., hmax⟩
  · intro k hk
    obtain rfl := List.mem_singleton.1 hk
    rfl
  · rw [init_eq]
    rfl
  · intro sg hsg
    rw [List.mem_singleton.1 hsg, init_eq]
    refine overSegment_created config ?_ ?_ ?_
    · simp only [withFiles, content, Table.get_insert_ne _ (logPath_ne_indexPath 0 0),
        Table.get_insert_self, Option.getD_some]
    · simp only [withFiles, content, Table.get_insert_self, Option.getD_some]
    · exact (content_touch_log d 0).trans hempty

/-- The partition is as if it had started empty. -/
structure StartedEmpty (K : Crates) (topicName : String) (partitionId : Nat) (s : LogState) :
    Prop where
  first : ∀ a ∈ s.acked.head?, a.1 = 0
  fetch : FetchExact K topicName partitionId s

/-- Batches one behind the other, in a partition that is over one in a directory of its own. -/
def LikeNew (K : Crates) (topicName : String) (partitionId : Nat) (s : LogState) : Prop :=
  Consecutive 0 s.acked ∧ ∃ s₀ p₀ p sgs, Over K topicName partitionId s₀ s p₀ p sgs

theorem LikeNew.startedEmpty {s : LogState} (h : LikeNew K topicName partitionId s) :
    StartedEmpty K topicName partitionId s := by
  obtain ⟨hacked, s₀, p₀, p, sgs, hover⟩ := h
  refine ⟨?_, hover.fetchExact⟩
  intro a ha
  cases hlist : s.acked with
  | nil =>
    rw [hlist] at ha
    cases ha
  | cons b rest =>
    rw [hlist] at ha hacked
    cases ha
    exact hacked.1

theorem LikeNew.step (hK : K.Lawful) {s t : LogState} {e : LogEvent}
    (h : LikeNew K topicName partitionId s) (hstep : s.next K topicName partitionId e = some t)
    (happ : e.isAppend) (hfit : Fitting K s e t) (hcreates : CreatesEmpty s e t) :
    LikeNew K topicName partitionId t := by
  obtain ⟨hacked, s₀, p₀, p, sgs, hover⟩ := h
  cases e with
  | append io batch =>
    obtain ⟨q, n, d', p', hq, hok, rfl⟩ := next_append hstep
    obtain rfl := Option.some_inj.1 (hover.partition.symm.trans hq)
    obtain ⟨hn, d₀', p₀', sgs', hover'⟩ := hover.append hK (hfit _ hq) (hcreates _ hq) hok
    refine ⟨?_, _, p₀', p', sgs', hover'⟩
    have hsnoc := hacked.snoc batch
    rw [Nat.zero_add] at hsnoc
    rw [hn]
    exact hsnoc
  | flush => exact absurd happ id
  | reopen config listing => exact absurd happ id
  | crash batch cut indexed => exact absurd happ id

/-- **A partition created over empty log files**: in every run of appends, the first one reports
offset zero and fetches return what was appended since. -/
theorem created_started_empty (hK : K.Lawful) (config : SegmentConfig) (hmax : 0 < config.maxSize)
    {d : Dir} (hempty : content d (logPath 0) = []) {tr : List (LogEvent × LogState)}
    (hrun : Run (Steps (LogState.next K topicName partitionId))
      (LogState.created topicName partitionId config d) tr)
    (happ : EachStep (fun _ e _ => e.isAppend)
      (LogState.created topicName partitionId config d) tr)
    (hfit : EachStep (Fitting K) (LogState.created topicName partitionId config d) tr)
    (hcreates : EachStep CreatesEmpty (LogState.created topicName partitionId config d) tr) :
    Throughout (StartedEmpty K topicName partitionId)
      (LogState.created topicName partitionId config d) tr := by
  have hnew : LikeNew K topicName partitionId (LogState.created topicName partitionId config d) := by
    obtain ⟨p₀, p, sgs, hover⟩ := over_created config hmax hempty
    exact ⟨trivial, _, p₀, p, sgs, hover⟩
  refine Throughout.mono (fun s h => LikeNew.startedEmpty h) (throughout_of_inductive ?_ hnew
    (hrun.and (happ.and (hfit.and hcreates))))
  rintro s e t h ⟨hstep, he, hf, hc⟩
  exact h.step hK hstep he hf hc

/-! ## Topics -/

/-- What `Topic::new` makes: partitions in the directories of their numbers, each with what was in
its directory before. -/
theorem newTopic_ok {dirOf : String → Nat → Path} {io : Nat → CreateIo} {name : String}
    (hdirs : ∀ i j, dirOf name i = dirOf name j → i = j) :
    ∀ {rest made : List Nat} {tm tm' : TopicManager} {made' : List Nat}, rest.Nodup →
      tm.newTopic dirOf io name rest made = (.ok made', tm') →
      (∀ ref, ref < tm.nextObject → tm'.objects.get ref = tm.objects.get ref) ∧
      (∀ path, (∀ i ∈ rest, dirOf name i ≠ path) → tm'.dirAt path = tm.dirAt path) ∧
      ∃ refs : List Nat, made' = made ++ refs ∧ ∀ k i : Nat, rest[k]? = some i → ∃ ref,
        refs[k]? = some ref ∧
        tm'.objects.get ref = some ⟨dirOf name i,
          (Partition.withConfig name i SegmentConfig.default (tm.dirAt (dirOf name i))).2⟩ ∧
        tm'.dirAt (dirOf name i) =
          (Partition.withConfig name i SegmentConfig.default (tm.dirAt (dirOf name i))).1 := by
  intro rest
  induction rest with
  | nil =>
    intro made tm tm' made' _ h
    cases h
    refine ⟨fun _ _ => rfl, fun _ _ => rfl, [], (List.append_nil _).symm, ?_⟩
    intro k i hk
    cases hk
  | cons i rest ih =>
    intro made tm tm' made' hnodup h
    obtain ⟨hi, hrest⟩ := List.nodup_cons.1 hnodup
    unfold TopicManager.newTopic at h
    split at h
    · cases h
    · rename_i ref tm₁ hcreate
      obtain ⟨rfl, rfl⟩ : ref = tm.nextObject ∧
          tm₁ = (tm.createPartition .done (dirOf name i) name i).2 := by
        cases hio : io i with
        | done =>
          rw [hio] at hcreate
          cases hcreate
          exact ⟨rfl, rfl⟩
        | logFails e =>
          rw [hio] at hcreate
          cases hcreate
        | indexFails e =>
          rw [hio] at hcreate
          cases hcreate
      obtain ⟨hobjects, hdisk, refs, rfl, hmade⟩ := ih hrest h
      have hdir : ∀ path, (tm.createPartition .done (dirOf name i) name i).2.dirAt path =
          if path = dirOf name i then
            (Partition.withConfig name i SegmentConfig.default (tm.dirAt (dirOf name i))).1
          else tm.dirAt path := by
        intro path
        unfold TopicManager.createPartition TopicManager.dirAt
        simp only [Table.get_insert]
        split <;> rfl
      have hother : ∀ j ∈ rest, dirOf name j ≠ dirOf name i := by
        intro j hj heq
        rw [hdirs j i heq] at hj
        exact hi hj
      refine ⟨?_, ?_, tm.nextObject :: refs, by rw [List.append_assoc]; rfl, ?_⟩
      · intro ref href
        rw [hobjects ref (Nat.lt_succ_of_lt href)]
        exact Table.get_insert_ne _ (Nat.ne_of_lt href)
      · intro path hpath
        rw [hdisk path fun j hj => hpath j (List.mem_cons_of_mem _ hj), hdir,
          if_neg fun heq => hpath i (List.mem_cons_self ..) heq.symm]
      · intro k j hk
        cases k with
        | zero =>
          cases hk
          refine ⟨tm.nextObject, rfl, ?_, ?_⟩
          · rw [hobjects _ (Nat.lt_succ_self _)]
            exact Table.get_insert_self ..
          · rw [hdisk _ hother, hdir, if_pos rfl]
        | succ k =>
          obtain ⟨ref, href, hobject, hafter⟩ := hmade k j hk
          have hbefore : (tm.createPartition .done (dirOf name i) name i).2.dirAt (dirOf name j) =
              tm.dirAt (dirOf name j) := by
            rw [hdir, if_neg (hother j (List.mem_of_getElem? hk))]
          rw [hbefore] at hobject hafter
          exact ⟨ref, href, hobject, hafter⟩

/-- The state of a partition of a topic manager. -/
def TopicManager.logState (tm : TopicManager) (o : PartitionObject) : LogState :=
  ⟨tm.dirAt o.dir, some o.partition, []⟩

/-- The partition with a number, of a topic that was created. -/
theorem createTopic_partition {dirOf : String → Nat → Path} {io : Nat → CreateIo} {name : String}
    {partitions : Nat} {tm tm' : TopicManager} {t : Topic}
    (hdirs : ∀ i j, dirOf name i = dirOf name j → i = j)
    (h : tm.createTopic dirOf io name partitions = (.ok t, tm')) {i : Nat} (hi : i < partitions) :
    ∃ ref o, t.partitions[i]? = some ref ∧ tm'.objects.get ref = some o ∧
      tm'.logState o =
        LogState.created name i SegmentConfig.default (tm.dirAt (dirOf name i)) := by
  unfold TopicManager.createTopic at h
  split at h
  · cases h
  · split at h
    · cases h
    · rename_i made tm₁ hnew
      cases h
      obtain ⟨-, -, refs, rfl, hmade⟩ := newTopic_ok hdirs List.nodup_range hnew
      obtain ⟨ref, href, hobject, hdir⟩ := hmade i i (by simp [hi])
      refine ⟨ref, _, href, hobject, ?_⟩
      unfold TopicManager.logState LogState.created
      exact congrArg (LogState.mk · _ _) hdir

/-- **A new topic** whose partitions' log files are created empty starts empty, whatever else the
disk holds. -/
theorem created_topic_empty (hK : K.Lawful) {dirOf : String → Nat → Path} {io : Nat → CreateIo}
    {name : String} {partitions : Nat} {tm tm' : TopicManager} {t : Topic}
    (hdirs : ∀ i j, dirOf name i = dirOf name j → i = j)
    (h : tm.createTopic dirOf io name partitions = (.ok t, tm')) {i : Nat} (hi : i < partitions)
    (hempty : content (tm.dirAt (dirOf name i)) (logPath 0) = []) :
    ∃ ref o, t.partitions[i]? = some ref ∧ tm'.objects.get ref = some o ∧
      ∀ tr, Run (Steps (LogState.next K name i)) (tm'.logState o) tr →
        EachStep (fun _ e _ => e.isAppend) (tm'.logState o) tr →
        EachStep (Fitting K) (tm'.logState o) tr →
        EachStep CreatesEmpty (tm'.logState o) tr →
        Throughout (StartedEmpty K name i) (tm'.logState o) tr := by
  obtain ⟨ref, o, href, hobject, hstate⟩ := createTopic_partition hdirs h hi
  refine ⟨ref, o, href, hobject, ?_⟩
  rw [hstate]
  intro tr hrun happ hfit hcreates
  exact created_started_empty hK SegmentConfig.default (by decide) hempty hrun happ hfit hcreates

instance decidableCreatesEmpty (s : LogState) : ∀ (e : LogEvent) (t : LogState),
    Decidable (CreatesEmpty s e t)
  | .append .., _ => inferInstanceAs (Decidable (∀ p ∈ s.partition, ∀ active ∈ p.segments.getLast?,
      active.shouldRotate = true → content s.dir (logPath active.nextOffset) = []))
  | .flush, _ => isTrue trivial
  | .reopen .., _ => isTrue trivial
  | .crash .., _ => isTrue trivial

/-- A topic manager that skipped a topic, over what the topic left behind. -/
def skippedTopic (log index : Bytes) : TopicManager :=
  { TopicManager.new with
    disk := Table.empty.insert (plainDir "orders" 0)
      ((Table.empty.insert (logPath 0) log).insert (indexPath 0) index) }

/-- One message. -/
def oneAppend : List LogEvent := [.append .done [oneByte 1]]

theorem oneAppend_isAppend {s : LogState} {tr : List (LogEvent × LogState)}
    (h : trace (LogState.next plainCrates "orders" 0) s oneAppend = some tr) :
    EachStep (fun _ e _ => e.isAppend) s tr ∧ EachStep (Fitting plainCrates) s tr := by
  constructor
  · apply eachStep_of_trace h
    simp [oneAppend, LogEvent.isAppend]
  · apply eachStep_of_trace h
    intro e he s t
    refine fitting_plain ?_
    revert e
    decide

/-- Creating the topic again succeeds, and gives the partition of the created state. -/
theorem skippedTopic_created (log index : Bytes) :
    ∃ t tm', (skippedTopic log index).createTopic plainDir (fun _ => .done) "orders" 1 =
        (.ok t, tm') ∧
      (skippedTopic log index).dirAt (plainDir "orders" 0) =
        (Table.empty.insert (logPath 0) log).insert (indexPath 0) index := by
  refine ⟨_, _, rfl, ?_⟩
  simp only [skippedTopic, TopicManager.dirAt, Table.get_insert_self, Option.getD_some]

/-- An empty log, and an index with an entry and a torn one. -/
theorem created_topic_empty_index :
    ∃ t tm' ref o tr, (skippedTopic [] (List.replicate 20 255)).createTopic plainDir
        (fun _ => .done) "orders" 1 = (.ok t, tm') ∧
      t.partitions[0]? = some ref ∧ tm'.objects.get ref = some o ∧
      trace (LogState.next plainCrates "orders" 0) (tm'.logState o) oneAppend = some tr ∧
      Throughout (StartedEmpty plainCrates "orders" 0) (tm'.logState o) tr := by
  obtain ⟨t, tm', hcreate, hdir⟩ := skippedTopic_created [] (List.replicate 20 255)
  obtain ⟨ref, o, href, hobject, hall⟩ := created_topic_empty plainCrates_lawful
    plainDir_injective hcreate (show 0 < 1 by decide) (by rw [hdir]; decide)
  obtain ⟨ref', o', href', hobject', hstate⟩ := createTopic_partition plainDir_injective hcreate
    (show 0 < 1 by decide)
  obtain rfl := Option.some_inj.1 (href.symm.trans href')
  obtain rfl := Option.some_inj.1 (hobject.symm.trans hobject')
  rw [hdir] at hstate
  obtain ⟨tr, htr, hcreates⟩ := Option.map_eq_some_iff.1 (show (trace
    (LogState.next plainCrates "orders" 0) (LogState.created "orders" 0 SegmentConfig.default
      ((Table.empty.insert (logPath 0) []).insert (indexPath 0) (List.replicate 20 255)))
    oneAppend).map (fun tr => decide (EachStep CreatesEmpty (LogState.created "orders" 0
      SegmentConfig.default ((Table.empty.insert (logPath 0) []).insert (indexPath 0)
        (List.replicate 20 255))) tr)) = some true by decide +kernel)
  rw [← hstate] at htr hcreates
  obtain ⟨happ, hfit⟩ := oneAppend_isAppend htr
  exact ⟨t, tm', ref, o, tr, hcreate, href, hobject, htr,
    hall tr (run_of_trace htr) happ hfit (of_decide_eq_true hcreates)⟩

/-- A record of the old topic is returned with the first one of the new topic, both with
offset 0. -/
theorem old_record_returned : ¬ ∀ (tm tm' : TopicManager) (t : Topic),
    tm.createTopic plainDir (fun _ => .done) "orders" 1 = (.ok t, tm') → ∀ i, i < 1 →
    ∃ ref o, t.partitions[i]? = some ref ∧ tm'.objects.get ref = some o ∧
      ∀ tr, Run (Steps (LogState.next plainCrates "orders" i)) (tm'.logState o) tr →
        EachStep (fun _ e _ => e.isAppend) (tm'.logState o) tr →
        EachStep (Fitting plainCrates) (tm'.logState o) tr →
        Throughout (StartedEmpty plainCrates "orders" i) (tm'.logState o) tr := by
  intro h
  obtain ⟨t, tm', hcreate, hdir⟩ :=
    skippedTopic_created (encoded plainCrates ⟨0, 0, none, [9], .none⟩) []
  obtain ⟨ref, o, href, hobject, hall⟩ := h _ tm' t hcreate 0 (by decide)
  obtain ⟨ref', o', href', hobject', hstate⟩ := createTopic_partition plainDir_injective hcreate
    (show 0 < 1 by decide)
  obtain rfl := Option.some_inj.1 (href.symm.trans href')
  obtain rfl := Option.some_inj.1 (hobject.symm.trans hobject')
  rw [hdir] at hstate
  obtain ⟨tr, htr, hlast⟩ := Option.map_eq_some_iff.1 (show (trace
    (LogState.next plainCrates "orders" 0) (LogState.created "orders" 0 SegmentConfig.default
      ((Table.empty.insert (logPath 0) (encoded plainCrates ⟨0, 0, none, [9], .none⟩)).insert
        (indexPath 0) []))
    oneAppend).map (fun tr =>
      let s := last (LogState.created "orders" 0 SegmentConfig.default
        ((Table.empty.insert (logPath 0) (encoded plainCrates ⟨0, 0, none, [9], .none⟩)).insert
          (indexPath 0) [])) tr
      (s.messages.length, s.partition.map fun p =>
        (p.fetch plainCrates s.dir 0 10).map List.length)) = some (1, some (.ok 2)) by
    decide +kernel)
  rw [← hstate] at htr hlast
  obtain ⟨happ, hfit⟩ := oneAppend_isAppend htr
  obtain ⟨p, hp, hfetch⟩ := (hall tr (run_of_trace htr) happ hfit).at_last.fetch
  simp only [hp, hfetch, Option.map_some, Except.map, List.length_take, List.length_drop,
    length_referenceFrom, Prod.mk.injEq, Option.some_inj, Except.ok.injEq] at hlast
  omega

end Gaffa
