import Gaffa.Storage.LogRun

/-!
# Offsets are assigned once

Over appends, rotations and reopens the log files hold whole records numbered without a gap,
whatever the index files say (`Counted`), so a reopen finds the offset that the next append is to
report.

* `offsets_assigned_once`: every append reports the number of messages acknowledged before it.
-/

set_option autoImplicit false

namespace Gaffa

open ByteString DiskRecord Transition

variable {K : Crates} {topicName : String} {partitionId : Nat}

/-! ## Batches one behind the other -/

/-- Each batch has the offset at which the one before it ends. -/
def Consecutive : Nat → List (Nat × List Message) → Prop
  | _, [] => True
  | n, a :: rest => a.1 = n ∧ Consecutive (n + a.2.length) rest

theorem Consecutive.snoc (batch : List Message) : ∀ {n : Nat} {acked : List (Nat × List Message)},
    Consecutive n acked →
    Consecutive n (acked ++ [(n + (acked.flatMap Prod.snd).length, batch)])
  | _, [], _ => ⟨rfl, trivial⟩
  | n, a :: rest, h => by
    have hrest := h.2.snoc batch
    rw [List.flatMap_cons, List.length_append, ← Nat.add_assoc]
    exact ⟨h.1, hrest⟩

theorem Consecutive.base : ∀ {n m : Nat} {batch : List Message}
    {pre post : List (Nat × List Message)}, Consecutive n (pre ++ (m, batch) :: post) →
    m = n + (pre.flatMap Prod.snd).length
  | _, _, _, [], _, h => h.1
  | n, m, batch, a :: pre, post, h => by
    have hbase := h.2.base
    rw [List.flatMap_cons, List.length_append]
    omega

theorem Consecutive.ge : ∀ {n : Nat} {acked : List (Nat × List Message)}, Consecutive n acked →
    ∀ a ∈ acked, n ≤ a.1
  | _, [], _, a, ha => absurd ha List.not_mem_nil
  | n, b :: rest, h, a, ha => by
    rcases List.mem_cons.1 ha with rfl | ha
    · exact Nat.le_of_eq h.1.symm
    · have := h.2.ge a ha
      omega

theorem Consecutive.disjoint : ∀ {n : Nat} {acked : List (Nat × List Message)},
    Consecutive n acked → acked.Pairwise fun a b => a.1 + a.2.length ≤ b.1
  | _, [], _ => List.Pairwise.nil
  | n, a :: rest, h => by
    refine List.pairwise_cons.2 ⟨?_, h.2.disjoint⟩
    intro b hb
    rw [h.1]
    exact h.2.ge b hb

theorem Consecutive.cover : ∀ {n o : Nat} {acked : List (Nat × List Message)},
    Consecutive n acked → n ≤ o → o < n + (acked.flatMap Prod.snd).length →
    ∃ a ∈ acked, a.1 ≤ o ∧ o < a.1 + a.2.length
  | _, _, [], _, hlo, hhi => by
    simp only [List.flatMap_nil, List.length_nil] at hhi
    omega
  | n, o, a :: rest, h, hlo, hhi => by
    rw [List.flatMap_cons, List.length_append] at hhi
    have ha := h.1
    by_cases hin : o < n + a.2.length
    · exact ⟨a, List.mem_cons_self .., by omega, by omega⟩
    · obtain ⟨b, hb, hrange⟩ := h.2.cover (o := o) (by omega) (by omega)
      exact ⟨b, List.mem_cons_of_mem _ hb, hrange⟩

/-! ## Log files -/

/-- The log files of a directory hold the views, in whole records; the index files exist. -/
structure Logs (K : Crates) (d : Dir) (vs : List (LogView K)) : Prop where
  linked : Linked 0 vs
  whole : ∀ v ∈ vs, v.tail = []
  log : ∀ v ∈ vs, d.get (logPath v.base) = some v.bytes
  index : ∀ v ∈ vs, ∃ file, d.get (indexPath v.base) = some file
  next_lt : ∀ v ∈ vs, v.next < 2 ^ 64
  names : ∀ name, name ∈ d.keys ↔ ∃ v ∈ vs, name = logPath v.base ∨ name = indexPath v.base

/-- The active segment continues the last log, with the configuration of the partition. -/
def Continues (v : LogView K) (p : Partition) (sg : LogSegment) : Prop :=
  sg.baseOffset = v.base ∧ sg.nextOffset = v.next ∧ sg.config = p.config

section Logs

variable {d d' : Dir} {vs : List (LogView K)} {v : LogView K} {p p' : Partition}
  {active : LogSegment}

theorem Logs.base_ne (h : Logs K d (vs ++ [v])) : ∀ w ∈ vs, w.base < v.base := by
  intro w hw
  exact ((List.pairwise_append.1 h.linked.pairwise).2.2 w hw v (List.mem_singleton.2 rfl)).2

/-- The files of the offset behind the last log do not exist, unless that log is empty. -/
theorem Logs.get_next (h : Logs K d (vs ++ [v])) (hv : v.base < v.next) :
    (∀ w ∈ vs ++ [v], w.base ≠ v.next) ∧
      d.get (logPath v.next) = none ∧ d.get (indexPath v.next) = none := by
  have hne : ∀ w ∈ vs ++ [v], w.base ≠ v.next := by
    intro w hw
    rcases List.mem_append.1 hw with hw | hw
    · have := h.base_ne w hw
      omega
    · obtain rfl := List.mem_singleton.1 hw
      omega
  refine ⟨hne, ?_, ?_⟩
  · rw [← Table.not_mem_keys_iff]
    intro hmem
    obtain ⟨w, hw, heq | heq⟩ := (h.names _).1 hmem
    · exact hne w hw (logPath_inj.1 heq).symm
    · exact logPath_ne_indexPath _ _ heq
  · rw [← Table.not_mem_keys_iff]
    intro hmem
    obtain ⟨w, hw, heq | heq⟩ := (h.names _).1 hmem
    · exact logPath_ne_indexPath _ _ heq.symm
    · exact hne w hw (indexPath_inj.1 heq).symm

/-- Writes to the files of the last log, or of a new one behind it. -/
theorem Logs.replace {ws : List (LogView K)} {v' : LogView K} {log index : Bytes}
    (h : Logs K d ws) (hlinked : Linked 0 (vs ++ [v'])) (hwhole : v'.tail = [])
    (hlt : v'.next < 2 ^ 64) (hlog : log = v'.bytes) (hold : ∀ w ∈ vs, w ∈ ws)
    (hnames : ∀ b, (∃ w ∈ vs ++ [v'], w.base = b) ↔ b = v'.base ∨ ∃ w ∈ ws, w.base = b) :
    Logs K ((d.insert (logPath v'.base) log).insert (indexPath v'.base) index) (vs ++ [v']) := by
  have hne : ∀ w ∈ vs, w.base ≠ v'.base := by
    intro w hw
    have := ((List.pairwise_append.1 hlinked.pairwise).2.2 w hw v' (List.mem_singleton.2 rfl)).2
    omega
  constructor
  · exact hlinked
  · intro w hw
    rcases List.mem_append.1 hw with hw | hw
    · exact h.whole w (hold w hw)
    · rw [List.mem_singleton.1 hw]
      exact hwhole
  · intro w hw
    rcases List.mem_append.1 hw with hw | hw
    · rw [(sameFiles_insert log index (hne w hw)).1]
      exact h.log w (hold w hw)
    · obtain rfl := List.mem_singleton.1 hw
      rw [Table.get_insert_ne _ (logPath_ne_indexPath _ _), Table.get_insert_self, hlog]
  · intro w hw
    rcases List.mem_append.1 hw with hw | hw
    · rw [(sameFiles_insert log index (hne w hw)).2]
      exact h.index w (hold w hw)
    · obtain rfl := List.mem_singleton.1 hw
      exact ⟨index, Table.get_insert_self ..⟩
  · intro w hw
    rcases List.mem_append.1 hw with hw | hw
    · exact h.next_lt w (hold w hw)
    · rw [List.mem_singleton.1 hw]
      exact hlt
  · intro name
    rw [Table.keys_insert, Finset.mem_insert, Table.keys_insert, Finset.mem_insert, h.names name]
    constructor
    · rintro (rfl | rfl | ⟨w, hw, hname⟩)
      · exact ⟨v', by simp, Or.inr rfl⟩
      · exact ⟨v', by simp, Or.inl rfl⟩
      · obtain ⟨u, hu, hbase⟩ := (hnames w.base).2 (Or.inr ⟨w, hw, rfl⟩)
        rw [← hbase] at hname
        exact ⟨u, hu, hname⟩
    · rintro ⟨u, hu, hname⟩
      rcases (hnames u.base).1 ⟨u, hu, rfl⟩ with hbase | ⟨w, hw, hbase⟩
      · rw [hbase] at hname
        rcases hname with rfl | rfl
        · exact Or.inr (Or.inl rfl)
        · exact Or.inl rfl
      · rw [← hbase] at hname
        exact Or.inr (Or.inr ⟨w, hw, hname⟩)

/-- **A rotation** leaves the active segment behind the last record of the log. -/
theorem Logs.rotate (h : Logs K d (vs ++ [v])) {sg : LogSegment}
    (hlast : p.segments.getLast? = some sg) (hsg : Continues v p sg) {io : CreateIo}
    (hrot : Partition.rotate io d p = (.ok active, d', p')) :
    ∃ vs' v', Logs K d' (vs' ++ [v']) ∧ Continues v' p' active ∧ v'.next = v.next ∧
      p'.config = p.config := by
  obtain ⟨hbase, hnext, hconfig⟩ := hsg
  obtain ⟨last, hlast', hcases⟩ := rotate_ok hrot
  obtain rfl := Option.some_inj.1 (hlast.symm.trans hlast')
  rcases hcases with ⟨-, -, hcreate, rfl⟩ | ⟨-, rfl, rfl, rfl⟩
  · rw [LogSegment.create, hnext] at hcreate
    obtain ⟨rfl, rfl⟩ := Prod.mk.inj hcreate
    rcases Nat.lt_or_ge v.base v.next with hv | hv
    · obtain ⟨hne, hlog, hindex⟩ := h.get_next hv
      rw [touch_of_none hlog, touch_of_none (by
        rw [Table.get_insert_ne _ (logPath_ne_indexPath _ _).symm]; exact hindex)]
      refine ⟨vs ++ [v], LogView.empty K v.next, ?_, ⟨rfl, rfl, rfl⟩, rfl, rfl⟩
      have hlinked : Linked 0 (vs ++ [v] ++ [LogView.empty K v.next]) := h.linked.snoc rfl hv
      apply h.replace hlinked rfl (h.next_lt v (by simp)) rfl
      · intro w hw
        exact hw
      · intro b
        simp [LogView.empty, or_and_right, exists_or, or_comm, or_left_comm, eq_comm]
    · have hv : v.next = v.base := Nat.le_antisymm hv v.base_le_next
      obtain ⟨file, hfile⟩ := h.index v (by simp)
      rw [hv, touch_of_get (h.log v (by simp)), touch_of_get hfile]
      exact ⟨vs, v, h, ⟨rfl, hv.symm, rfl⟩, rfl.trans hv, rfl⟩
  · exact ⟨vs, v, h, ⟨hbase, hnext, hconfig⟩, rfl, rfl⟩

/-- The loop of an append writes the records of its messages behind the log. -/
theorem appendLoop_log (hK : K.Lawful) {config : SegmentConfig} {messages : List Message}
    {io : Nat → LogSegment.RecordIo} {st st' : LogSegment.AppendState}
    (hfit : ∀ m ∈ messages, Fits K config.compression m) (hlt : st.nextOffset < 2 ^ 64)
    (h : LogSegment.appendLoop K config io messages st = (.ok (), st')) :
    st'.log = st.log ++ encodedAll K (batchRecords config st.nextOffset messages) ∧
      ∀ r ∈ batchRecords config st.nextOffset messages, Storable K r := by
  induction messages generalizing io st with
  | nil =>
    cases h
    exact ⟨(List.append_nil _).symm, fun r hr => absurd hr List.not_mem_nil⟩
  | cons m ms ih =>
    obtain ⟨hm, hms⟩ := List.forall_mem_cons.1 hfit
    unfold LogSegment.appendLoop at h
    split at h
    · cases h
    · rename_i st₁ hrec
      obtain ⟨bs, st₂, henc, hix, hadv⟩ := appendRecord_ok hrec
      have hstorable := storable_of_fits hK hm hlt henc
      have hkeep : st₂.log = st.log ++ bs ∧ st₂.nextOffset = st.nextOffset := by
        rcases updateIndex_ok hix with ⟨-, rfl⟩ | ⟨-, file, ix, -, rfl⟩ <;> exact ⟨rfl, rfl⟩
      obtain ⟨-, hnext, rfl⟩ := advance_ok hadv
      rw [hkeep.2] at hnext
      have hlt₂ : st₂.nextOffset + 1 < 2 ^ 64 := by rw [hkeep.2]; exact hnext
      obtain ⟨hlog, hrest⟩ := ih hms hlt₂ h
      simp only [hkeep.1, hkeep.2] at hlog hrest
      constructor
      · rw [hlog, batchRecords, encodedAll_cons, encoded_of_encode henc, List.append_assoc]
      · intro r hr
        rcases List.mem_cons.1 hr with rfl | hr
        · exact hstorable
        · exact hrest r hr

/-- **A segment's append** continues the last log. -/
theorem Logs.append (hK : K.Lawful) (h : Logs K d (vs ++ [v])) (hactive : Continues v p active)
    {io : LogSegment.AppendIo} {messages : List Message} {n : Nat} {s' : LogSegment}
    (hfit : ∀ m ∈ messages, Fits K p.config.compression m)
    (happ : LogSegment.append K io messages d active = (.ok n, d', s')) :
    n = v.next ∧ ∃ v', Logs K d' (vs ++ [v']) ∧ Continues v' p s' ∧
      v'.next = v.next + messages.length := by
  obtain ⟨hbase, hnext, hconfig⟩ := hactive
  obtain ⟨hn, hnext', hlt⟩ := segment_append_nextOffset happ
  obtain ⟨-, -, st, hloop, hd, hs'⟩ := append_ok happ
  have hmem : v ∈ vs ++ [v] := by simp
  have hv : v.next = v.base + v.records.length := LogView.next_of_whole (h.whole v hmem)
  obtain ⟨hlog, hstorable⟩ := appendLoop_log hK (by rw [hconfig]; exact hfit)
    (show active.nextOffset < 2 ^ 64 by rw [hnext]; exact h.next_lt v hmem) hloop
  simp only [LogSegment.appendStart, hbase, hnext] at hlog hstorable
  rw [content, h.log v hmem] at hlog
  obtain ⟨v', hv'⟩ : ∃ v' : LogView K, v' = v.extend
      (batchRecords active.config v.next messages) []
      (by rw [← hv]; exact numbered_batchRecords _ _ _) hstorable (decode_nil K) := ⟨_, rfl⟩
  have hbase' : v'.base = v.base := by rw [hv']; rfl
  have hbytes : v'.bytes = v.bytes ++ encodedAll K (batchRecords active.config v.next messages) := by
    rw [hv']
    simp [LogView.bytes, LogView.extend, h.whole v hmem]
  have hwhole : v'.tail = [] := by rw [hv']; rfl
  have hcount : v'.records.length = v.records.length + messages.length := by
    rw [hv']
    simp [LogView.extend]
  have hlast : v'.next = v.next + messages.length := by
    rw [LogView.next_of_whole hwhole, hbase', hcount, hv, Nat.add_assoc]
  refine ⟨hn.trans hnext, v', ?_, ⟨?_, ?_, ?_⟩, hlast⟩
  · rw [hd, LogSegment.appendDir, hbase, ← hbase']
    apply h.replace (h.linked.replace_last hbase') hwhole
    · omega
    · rw [hlog, hbytes]
      rfl
    · intro w hw
      exact List.mem_append_left _ hw
    · intro b
      simp [hbase', or_and_right, exists_or, or_comm, eq_comm]
  · rw [hs', hbase', ← hbase]
    unfold LogSegment.remap
    split <;> rfl
  · rw [hnext', hn, hnext, hlast]
  · rw [hs', ← hconfig]
    unfold LogSegment.remap
    split <;> rfl

theorem openSegments_getLast {config : SegmentConfig} {bases : List Nat} {b : Nat}
    {segments : List LogSegment}
    (h : Partition.openSegments K config d (bases ++ [b]) = .ok segments) :
    ∃ sg, segments.getLast? = some sg ∧ LogSegment.open_ K b config d = .ok sg := by
  induction bases generalizing segments with
  | nil =>
    simp only [List.nil_append, Partition.openSegments] at h
    split at h
    · cases h
    · rename_i sg hsg
      cases h
      exact ⟨sg, rfl, hsg⟩
  | cons c bases ih =>
    simp only [List.cons_append, Partition.openSegments] at h
    split at h
    · cases h
    · split at h
      · cases h
      · rename_i rest hrest
        cases h
        obtain ⟨sg, hlast, hopen⟩ := ih hrest
        refine ⟨sg, ?_, hopen⟩
        rw [List.getLast?_cons, hlast]
        rfl

/-- **A reopen** finds the offset behind the last record. -/
theorem Logs.reopen (h : Logs K d (vs ++ [v])) {config : SegmentConfig} {listing : List FileName}
    (hl : d.Order listing)
    (hopen : Partition.openWithConfig K topicName partitionId config listing d = .ok p) :
    ∃ sg, p.segments.getLast? = some sg ∧ Continues v p sg := by
  unfold Partition.openWithConfig at hopen
  rw [segmentOffsets_spec h.linked h.next_lt h.names hl, List.map_append, List.map_singleton] at hopen
  split at hopen
  · cases hopen
  · split at hopen
    · cases hopen
    · rename_i segments hsegments
      cases hopen
      obtain ⟨sg, hlast, hsg⟩ := openSegments_getLast hsegments
      refine ⟨sg, hlast, ?_⟩
      obtain ⟨file, hfile⟩ := h.index v (by simp)
      unfold LogSegment.open_ at hsg
      rw [h.log v (by simp), hfile] at hsg
      simp only [v.scanForNextOffset_bytes (h.next_lt v (by simp))] at hsg
      cases hsg
      exact ⟨rfl, rfl, rfl⟩

end Logs

/-! ## Runs -/

/-- The logs hold as many records as were acknowledged, and the next append continues them. -/
structure Counted (K : Crates) (s : LogState) : Prop where
  acked : Consecutive 0 s.acked
  logs : ∃ vs v p sg, s.partition = some p ∧ Logs K s.dir (vs ++ [v]) ∧
    p.segments.getLast? = some sg ∧ Continues v p sg ∧ v.next = s.messages.length

/-- Each append reported the number of messages acknowledged before it; so the ranges of the
batches are disjoint and leave no gap. -/
structure AssignedOnce (s : LogState) : Prop where
  base : ∀ pre n batch post, s.acked = pre ++ (n, batch) :: post →
    n = (pre.flatMap Prod.snd).length
  disjoint : s.acked.Pairwise fun a b => a.1 + a.2.length ≤ b.1
  cover : ∀ offset, offset < s.messages.length →
    ∃ a ∈ s.acked, a.1 ≤ offset ∧ offset < a.1 + a.2.length

theorem Counted.assignedOnce {s : LogState} (h : Counted K s) : AssignedOnce s := by
  constructor
  · intro pre n batch post hacked
    have hc := h.acked
    rw [hacked] at hc
    rw [hc.base, Nat.zero_add]
  · exact h.acked.disjoint
  · intro offset hoffset
    exact h.acked.cover (Nat.zero_le _) (by rw [Nat.zero_add]; exact hoffset)

/-- **A step** without a crash. -/
theorem Counted.step (hK : K.Lawful) {s t : LogState} {e : LogEvent} (h : Counted K s)
    (hstep : s.next K topicName partitionId e = some t) (hfit : Fitting K s e t)
    (hcrash : ¬ e.isCrash) : Counted K t := by
  obtain ⟨vs, v, p, sg, hp, hlogs, hlast, hsg, htotal⟩ := h.logs
  cases e with
  | append io batch =>
    obtain ⟨q, n, d, p', hq, happ, rfl⟩ := next_append hstep
    obtain rfl := Option.some_inj.1 (hp.symm.trans hq)
    obtain ⟨-, active, d₁, p₁, s', hrot, hseg, rfl⟩ := partition_append_ok happ
    obtain ⟨vs', v', hlogs', hactive, hnext, hconfig⟩ := hlogs.rotate hlast hsg hrot
    obtain ⟨hn, v'', hlogs'', hs', hnext'⟩ := hlogs'.append hK hactive
      (by rw [hconfig]; exact hfit p hp) hseg
    have hbase : n = s.messages.length := by rw [hn, hnext, htotal]
    constructor
    · have hsnoc := h.acked.snoc batch
      rw [Nat.zero_add] at hsnoc
      rw [hbase]
      exact hsnoc
    · refine ⟨vs', v'', _, s', rfl, hlogs'', by simp, hs', ?_⟩
      rw [hnext', hnext, htotal]
      simp [LogState.messages]
  | flush =>
    obtain ⟨-, rfl⟩ := next_flush hstep
    exact h
  | reopen config listing =>
    obtain ⟨hl, q, hq, rfl⟩ := next_reopen hstep
    obtain ⟨sg', hlast', hsg'⟩ := hlogs.reopen hl hq
    exact ⟨h.acked, vs, v, q, sg', rfl, hlogs, hlast', hsg', htotal⟩
  | crash batch cut indexed => exact absurd trivial hcrash

theorem counted_init (config : SegmentConfig) :
    Counted K (LogState.init topicName partitionId config) := by
  have hopen := open_init K topicName partitionId config
  have hdisk : OnDisk K (withFiles Table.empty 0) [LogView.empty K 0] := hopen.disk
  rw [init_eq]
  refine ⟨trivial, [], LogView.empty K 0, _, createdSegment config 0, rfl, ?_, rfl, ⟨rfl, rfl, rfl⟩,
    rfl⟩
  refine ⟨hdisk.linked, ?_, fun v hv => (hdisk.stored v hv).log,
    fun v hv => ⟨_, (hdisk.stored v hv).index⟩, fun v hv => (hdisk.stored v hv).next_lt, hdisk.names⟩
  intro v hv
  obtain rfl := List.mem_singleton.1 hv
  rfl

/-- **Offsets are assigned once**: over any run of appends, flushes and reopens, every append
reports the number of messages acknowledged before it. -/
theorem offsets_assigned_once (hK : K.Lawful) (config : SegmentConfig)
    {tr : List (LogEvent × LogState)}
    (hrun : Run (Steps (LogState.next K topicName partitionId))
      (LogState.init topicName partitionId config) tr)
    (hcrash : EachStep (fun _ e _ => ¬ e.isCrash) (LogState.init topicName partitionId config) tr)
    (hfit : EachStep (Fitting K) (LogState.init topicName partitionId config) tr) :
    Throughout AssignedOnce (LogState.init topicName partitionId config) tr := by
  refine Throughout.mono (fun s h => Counted.assignedOnce h) (throughout_of_inductive ?_
    (counted_init (K := K) config) (hrun.and (hcrash.and hfit)))
  rintro s e t h ⟨hstep, hc, hf⟩
  exact h.step hK hstep hf hc

/-- Appends around a reopen of a segment whose index the second append spoils, and a rotation. -/
def reopenedRotation : List LogEvent :=
  [.append .done [oneByte 1, oneByte 2], .reopen denseConfig [logPath 0, indexPath 0],
    .append .done [oneByte 3, oneByte 4], .reopen smallConfig [indexPath 0, logPath 0],
    .append .done [oneByte 5]]

theorem offsets_assigned_once_reopened :
    ∃ tr, trace (LogState.next plainCrates "orders" 0) (LogState.init "orders" 0 denseConfig)
        reopenedRotation = some tr ∧
      Throughout AssignedOnce (LogState.init "orders" 0 denseConfig) tr := by
  obtain ⟨tr, htr⟩ := Option.isSome_iff_exists.1 (show (trace
    (LogState.next plainCrates "orders" 0) (LogState.init "orders" 0 denseConfig)
    reopenedRotation).isSome = true by decide +kernel)
  refine ⟨tr, htr, offsets_assigned_once plainCrates_lawful denseConfig (run_of_trace htr)
    (eachStep_of_trace htr ?_) (eachStep_of_trace htr ?_)⟩
  · simp [reopenedRotation, LogEvent.isCrash]
  · intro e he s t
    refine fitting_plain ?_
    revert e
    decide

end Gaffa
