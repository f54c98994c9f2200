import Gaffa.Storage.LogRun

/-!
# Crashes inside an append

After a crash the log may end in a torn record, and the index file may hold entries for records
that never reached the log.  Opening the partition again repairs neither.

* `crashedDir_whole`, `crashedDir_torn`: what a crash leaves is a log of whole records with a
  torn rest.
* `crash_durable`: acknowledged messages survive every run in which no acknowledged batch is
  written behind a torn rest or through a misplaced index handle, and none over index entries that
  it contradicts.
-/

set_option autoImplicit false

namespace Gaffa

open ByteString DiskRecord OffsetIndex Transition

variable {K : Crates} {topicName : String} {partitionId : Nat}

/-! ## Torn logs -/

/-- What the decoding of a log leaves over. -/
def tornTail (K : Crates) : Nat → Bytes → Bytes
  | 0, cursor => cursor
  | fuel + 1, cursor =>
    match decode K cursor with
    | .ok (_, cursor) => tornTail K fuel cursor
    | .error _ => cursor

theorem tornTail_encodedAll {tail : Bytes} (htail : ∃ e, decode K tail = .error (.error e)) :
    ∀ {fuel : Nat} {rs : List DiskRecord}, rs.length < fuel → (∀ r ∈ rs, Storable K r) →
      tornTail K fuel (encodedAll K rs ++ tail) = tail
  | 0, _, hf, _ => absurd hf (Nat.not_lt_zero _)
  | fuel + 1, [], _, _ => by
    obtain ⟨e, he⟩ := htail
    simp [tornTail, he]
  | fuel + 1, r :: rs, hf, hs => by
    obtain ⟨hr, hrs⟩ := List.forall_mem_cons.1 hs
    unfold tornTail
    rw [encodedAll_cons, List.append_assoc, decode_encoded hr]
    exact tornTail_encodedAll htail (by simpa using hf) hrs

theorem LogView.tornTail_bytes (v : LogView K) :
    tornTail K (v.bytes.length + 1) v.bytes = v.tail :=
  tornTail_encodedAll v.torn v.records_lt_fuel v.storable

/-- How many records are whole in the first `cut` bytes of their encodings. -/
def wholeWithin (K : Crates) : List DiskRecord → Nat → Nat
  | [], _ => 0
  | r :: rs, cut =>
    if (encoded K r).length ≤ cut then wholeWithin K rs (cut - (encoded K r).length) + 1 else 0

/-- A prefix of encodings: whole records and a rest that does not decode. -/
theorem take_encodedAll : ∀ {rs : List DiskRecord} (cut : Nat), (∀ r ∈ rs, Storable K r) →
    ∃ torn, (encodedAll K rs).take cut =
        encodedAll K (rs.take (wholeWithin K rs cut)) ++ torn ∧
      (∃ e, decode K torn = .error (.error e))
  | [], _, _ => ⟨[], by simp, decode_nil K⟩
  | r :: rs, cut, hs => by
    obtain ⟨hr, hrs⟩ := List.forall_mem_cons.1 hs
    unfold wholeWithin
    by_cases hle : (encoded K r).length ≤ cut
    · obtain ⟨torn, htake, htorn⟩ := take_encodedAll (cut - (encoded K r).length) hrs
      refine ⟨torn, ?_, htorn⟩
      rw [if_pos hle, List.take_succ_cons, encodedAll_cons, encodedAll_cons, List.append_assoc,
        ← htake, List.take_append, List.take_of_length_le hle]
    · rw [if_neg hle]
      refine ⟨(encoded K r).take cut, ?_, decode_torn hr (by omega)⟩
      rw [encodedAll_cons, List.take_append_of_le_length (by omega)]
      rfl

/-! ## What a crash leaves -/

section Crashed

variable {d d' : Dir} {p : Partition} {init : List (Held K)} {g : Held K}
  {batch : List Message} {cut indexed : Nat}

theorem crashedDir_eq {s : LogSegment} (h : crashedDir K batch cut indexed d s = some d') :
    ∃ full part,
      LogSegment.appendLoop K s.config LogSegment.AppendIo.done.record batch
        (LogSegment.appendStart d s) = (.ok (), full) ∧
      LogSegment.appendLoop K s.config LogSegment.AppendIo.done.record (batch.take indexed)
        (LogSegment.appendStart d s) = (.ok (), part) ∧
      d' = LogSegment.appendDir d s { full with
        log := full.log.take ((LogSegment.appendStart d s).log.length + cut)
        indexFile := part.indexFile } := by
  unfold crashedDir at h
  simp only at h
  split at h
  · rename_i full part hfull hpart
    cases h
    exact ⟨full, part, hfull, hpart, rfl⟩
  · cases h

/-- The log that a crash leaves: what it was, and the first `cut` bytes of the batch. -/
theorem crashed_log (cut : Nat) {s : LogSegment} {v : LogView K} {full : LogSegment.AppendState}
    {c m : Nat} {rs : List DiskRecord} (h : Backed K d v s)
    (hg : Grown K s.config ⟨v.bytes, indexFile d v, s.index, v.next, v.bytes.length,
      s.recordsSinceIndex⟩ c m rs full) :
    full.log.take ((LogSegment.appendStart d s).log.length + cut) =
        v.bytes ++ (encodedAll K rs).take cut ∧
      (v.bytes ++ (encodedAll K rs).take cut).length < 2 ^ 64 := by
  have hlt := hg.position_lt
  rw [hg.position] at hlt
  simp only at hlt
  refine ⟨by rw [h.appendStart, hg.log, List.take_length_add_append], ?_⟩
  rw [List.length_append, List.length_take]
  omega

/-- **A crash** inside an append to a log of whole records, over index entries that agree with the
records that reached the log. -/
theorem crashedDir_whole (hK : K.Lawful) (h : Open K d p (init ++ [g])) (ht : g.view.tail = [])
    (hfit : ∀ msg ∈ batch, Fits K p.config.compression msg)
    (hc : Consistent K (indexFile d g.view) g.view.next g.view.bytes.length
      ((batchRecords p.config g.view.next batch).take
        (wholeWithin K (batchRecords p.config g.view.next batch) cut)))
    (hcrash : crashedDir K batch cut indexed d g.segment = some d') :
    ∃ v' : LogView K, v'.base = g.view.base ∧ g.view.records <+: v'.records ∧
      OnDisk K d' (init.map Held.view ++ [v']) := by
  have hg : g.Ok K p.config d := h.held g (by simp)
  rw [← hg.config] at hfit hc
  obtain ⟨full, part, hfull, hpart, rfl⟩ := crashedDir_eq hcrash
  obtain ⟨c, m, -, hm, hcm, hgrown⟩ := hg.backed.appendLoop hK hfit hfull
  obtain ⟨c', m', -, hm', hcm', hgrown'⟩ := hg.backed.appendLoop hK
    (fun msg hmsg => hfit msg (List.mem_of_mem_take hmsg)) hpart
  obtain ⟨torn, htake, htorn⟩ := take_encodedAll cut hgrown.storable
  obtain ⟨hlog, hsize⟩ := crashed_log cut hg.backed hgrown
  generalize hrs : batchRecords g.segment.config g.view.next batch = brs at *
  generalize hk : wholeWithin K brs cut = k at *
  have hvn : g.view.next = g.view.base + g.view.records.length := LogView.next_of_whole ht
  have hnum : Numbered (g.view.base + g.view.records.length) (brs.take k) := by
    rw [← hvn, ← hrs]
    exact (numbered_batchRecords ..).take k
  let v' := g.view.extend (brs.take k) torn hnum
    (fun r hr => hgrown.storable r (List.mem_of_mem_take hr)) htorn
  have hbytes : g.view.bytes ++ (encodedAll K brs).take cut = v'.bytes := by
    rw [htake, ← List.append_assoc, bytes_of_whole ht, ← encodedAll_append]
    rfl
  have hnext : v'.next < 2 ^ 64 := by
    have hlt := hgrown.next_lt
    rw [hgrown.next] at hlt
    simp only at hlt
    unfold LogView.next
    rw [show v'.base = g.view.base from rfl, show v'.records = g.view.records ++ brs.take k from rfl,
      List.length_append, List.length_take]
    split
    · -- a torn first record is part of a batch that is not empty
      rename_i htl
      have hne : brs ≠ [] := by
        rintro hnil
        rw [hnil] at htake
        simp only [encodedAll_nil, List.take_nil, List.nil_append] at htake
        exact htl.2 htake.symm
      have := List.length_pos_iff.2 hne
      omega
    · omega
  have hdisk := h.disk
  rw [List.map_append, List.map_singleton] at hdisk
  refine ⟨v', rfl, List.prefix_append .., hdisk.replace_last hg.backed.base rfl ?_⟩
  refine hg.backed.toStored.write brs part.indexFile ht rfl rfl
    (List.take_prefix ..) hc ?_ ?_ hgrown'.aligned (fun i hi => ?_) hnext (hbytes ▸ hsize)
  · rw [← hbytes, ← hlog, ← hg.backed.base]
    exact get_appendDir_log ..
  · rw [← hg.backed.base]
    exact get_appendDir_index ..
  · rcases hgrown'.entries hm' hcm' hi with hold | ⟨j, hj, he⟩
    · exact .inl hold
    · refine .inr ⟨j, ?_⟩
      rw [take_batchRecords, List.length_take] at hj
      rw [he, take_batchRecords, List.take_take, Nat.min_eq_left (by omega), hrs]

/-- **A crash** inside an append to a log with a torn rest: the records stay the same if the rest
still does not decode. -/
theorem crashedDir_torn (hK : K.Lawful) (h : Open K d p (init ++ [g])) (ht : g.view.tail ≠ [])
    (hfit : ∀ msg ∈ batch, Fits K p.config.compression msg)
    (htorn : ∃ e, decode K (g.view.tail ++
      (encodedAll K (batchRecords p.config g.view.next batch)).take cut) = .error (.error e))
    (hcrash : crashedDir K batch cut indexed d g.segment = some d') :
    ∃ v' : LogView K, v'.base = g.view.base ∧ g.view.records <+: v'.records ∧
      OnDisk K d' (init.map Held.view ++ [v']) := by
  have hg : g.Ok K p.config d := h.held g (by simp)
  rw [← hg.config] at hfit htorn
  obtain ⟨full, part, hfull, hpart, rfl⟩ := crashedDir_eq hcrash
  obtain ⟨c, m, -, hm, hcm, hgrown⟩ := hg.backed.appendLoop hK hfit hfull
  obtain ⟨c', m', -, hm', hcm', hgrown'⟩ := hg.backed.appendLoop hK
    (fun msg hmsg => hfit msg (List.mem_of_mem_take hmsg)) hpart
  obtain ⟨hlog, hsize⟩ := crashed_log cut hg.backed hgrown
  let v' : LogView K := ⟨g.view.base, g.view.records, g.view.tail ++
    (encodedAll K (batchRecords g.segment.config g.view.next batch)).take cut, g.view.numbered,
    g.view.storable, htorn⟩
  have hbytes : g.view.bytes ++
      (encodedAll K (batchRecords g.segment.config g.view.next batch)).take cut = v'.bytes :=
    List.append_assoc ..
  have hnext : v'.next = g.view.next := by
    unfold LogView.next
    simp only [v', ne_eq, List.append_eq_nil_iff, ht, false_and, not_false_iff, and_true]
  have hbase : g.view.base < g.view.next := by
    have hle := g.view.base_le_next
    by_contra hlt
    have hbs := LogView.bytes_of_next_eq_base (v := g.view) (by omega)
    exact ht (List.append_eq_nil_iff.1 hbs).2
  have hindex := get_appendDir_index d g.segment { full with
    log := full.log.take ((LogSegment.appendStart d g.segment).log.length + cut)
    indexFile := part.indexFile }
  rw [hg.backed.base] at hindex
  have hix : indexFile (LogSegment.appendDir d g.segment { full with
      log := full.log.take ((LogSegment.appendStart d g.segment).log.length + cut)
      indexFile := part.indexFile }) v' = part.indexFile := by
    rw [indexFile, content, show v'.base = g.view.base from rfl, hindex]
    rfl
  have hdisk := h.disk
  rw [List.map_append, List.map_singleton] at hdisk
  refine ⟨v', rfl, List.prefix_refl _, hdisk.replace_last hg.backed.base rfl
    ⟨?_, by rw [hix]; exact hindex, hnext ▸ hg.backed.next_lt, hbytes ▸ hsize, ?_, ?_⟩⟩
  · rw [show v'.base = g.segment.baseOffset from hg.backed.base.symm, ← hbytes, ← hlog]
    exact get_appendDir_log ..
  · rw [hix]; exact hgrown'.aligned
  · -- the entries of the batch are all at or above the next offset
    rw [hix]
    intro i hi ho
    rw [hnext, show v'.base = g.view.base from rfl] at ho
    rcases hgrown'.entries hm' hcm' hi with ⟨hold, he⟩ | ⟨j, -, he⟩
    · rw [he] at ho ⊢
      exact hg.backed.truthful i hold ho
    · rw [he] at ho
      simp only at ho
      omega

end Crashed

/-! ## Which writes are safe -/

/-- The log of a segment ends in a whole record. -/
def Whole (K : Crates) (d : Dir) (s : LogSegment) : Prop :=
  tornTail K ((content d (logPath s.baseOffset)).length + 1)
    (content d (logPath s.baseOffset)) = []

/-- The entries that the index file of a segment already has for offsets of a batch give the
positions at which the batch puts its records. -/
def Agrees (K : Crates) (d : Dir) (s : LogSegment) (rs : List DiskRecord) : Prop :=
  Consistent K (content d (indexPath s.baseOffset)) s.nextOffset s.size rs

/-- The bytes do not decode, and the attempt does not panic. -/
def undecodable (K : Crates) (bs : Bytes) : Bool :=
  match decode K bs with
  | .error (.error _) => true
  | _ => false

/-- What a crash writes behind a torn rest leaves it torn. -/
def StaysTorn (K : Crates) (d : Dir) (s : LogSegment) (written : Bytes) : Prop :=
  ¬ Whole K d s ∧ undecodable K (tornTail K ((content d (logPath s.baseOffset)).length + 1)
    (content d (logPath s.baseOffset)) ++ written) = true

/-- No acknowledged batch is written behind a torn rest or through a misplaced index handle, and
none over index entries that contradict it. -/
def WriteSafe (K : Crates) (s : LogState) (e : LogEvent) (t : LogState) : Prop :=
  CursorSafe s e t ∧
  match e with
  | .append _ batch => ∀ at_ ∈ s.target, Whole K at_.2 at_.1 ∧
      Agrees K at_.2 at_.1 (batchRecords at_.1.config at_.1.nextOffset batch)
  | .crash batch cut _ => ∀ at_ ∈ s.target,
      (Whole K at_.2 at_.1 ∧
        Agrees K at_.2 at_.1 ((batchRecords at_.1.config at_.1.nextOffset batch).take
          (wholeWithin K (batchRecords at_.1.config at_.1.nextOffset batch) cut))) ∨
      StaysTorn K at_.2 at_.1
        ((encodedAll K (batchRecords at_.1.config at_.1.nextOffset batch)).take cut)
  | _ => True

section Decidable

variable (K : Crates) (d : Dir) (s : LogSegment)

instance (file : Bytes) (n pos : Nat) (rs : List DiskRecord) :
    Decidable (Consistent K file n pos rs) :=
  inferInstanceAs (Decidable (∀ i, i < file.length / indexEntrySize → _))

instance : Decidable (Whole K d s) := inferInstanceAs (Decidable (_ = _))

instance (rs : List DiskRecord) : Decidable (Agrees K d s rs) :=
  inferInstanceAs (Decidable (Consistent ..))

instance (written : Bytes) : Decidable (StaysTorn K d s written) :=
  inferInstanceAs (Decidable (_ ∧ _))

instance (s : LogState) (e : LogEvent) (t : LogState) : Decidable (WriteSafe K s e t) :=
  match e with
  | .append _ _ => inferInstanceAs (Decidable (_ ∧ ∀ _ ∈ s.target, _))
  | .flush => inferInstanceAs (Decidable (_ ∧ True))
  | .reopen _ _ => inferInstanceAs (Decidable (_ ∧ True))
  | .crash _ _ _ => inferInstanceAs (Decidable (_ ∧ ∀ _ ∈ s.target, _))

end Decidable

theorem of_undecodable {bs : Bytes} (h : undecodable K bs = true) :
    ∃ e, decode K bs = .error (.error e) := by
  unfold undecodable at h
  split at h
  · rename_i e he
    exact ⟨e, he⟩
  · cases h

theorem Backed.whole_iff {d : Dir} {v : LogView K} {s : LogSegment} (h : Backed K d v s) :
    Whole K d s ↔ v.tail = [] := by
  rw [Whole, h.base, h.content_log, v.tornTail_bytes]

theorem Backed.agrees_iff {d : Dir} {v : LogView K} {s : LogSegment} (h : Backed K d v s)
    (rs : List DiskRecord) :
    Agrees K d s rs ↔ Consistent K (indexFile d v) v.next v.bytes.length rs := by
  rw [Agrees, h.base, h.next, h.size]
  rfl

/-! ## What survives -/

/-- The directory holds views of logs, the open partition agrees with it, and every acknowledged
batch lies in one view at the offset that was reported. -/
structure Survives (K : Crates) (topicName : String) (partitionId : Nat) (s : LogState)
    (vs : List (LogView K)) : Prop where
  disk : OnDisk K s.dir vs
  partition : ∀ p, s.partition = some p → p.topicName = topicName ∧ p.partitionId = partitionId ∧
    ∃ hs : List (Held K), hs.map Held.view = vs ∧ Open K s.dir p hs
  nonempty : ∀ a ∈ s.acked, a.2 ≠ []
  acked : ∀ a ∈ s.acked, ∃ v ∈ vs, v.base ≤ a.1 ∧
    ((v.records.drop (a.1 - v.base)).take a.2.length).map DiskRecord.toMessage = a.2

/-- A batch stays where it is when views only grow. -/
theorem acked_mono {vs ws : List (LogView K)} {a : Nat × List Message}
    (hgrow : ∀ v ∈ vs, ∃ w ∈ ws, w.base = v.base ∧ v.records <+: w.records)
    (h : ∃ v ∈ vs, v.base ≤ a.1 ∧
      ((v.records.drop (a.1 - v.base)).take a.2.length).map DiskRecord.toMessage = a.2) :
    ∃ w ∈ ws, w.base ≤ a.1 ∧
      ((w.records.drop (a.1 - w.base)).take a.2.length).map DiskRecord.toMessage = a.2 := by
  obtain ⟨v, hv, hle, heq⟩ := h
  obtain ⟨w, hw, hb, more, hr⟩ := hgrow v hv
  refine ⟨w, hw, by omega, ?_⟩
  have hlen := congrArg List.length heq
  rw [List.length_map, List.length_take] at hlen
  rw [← hr, hb, List.drop_append, List.take_append_of_le_length (by omega), heq]

section Survives

variable {s t : LogState} {vs : List (LogView K)}

/-- A fetch at an offset inside a view starts with the records of the view. -/
theorem fetch_view {d : Dir} {p : Partition} {hs : List (Held K)} (h : Open K d p hs)
    {v : LogView K} (hv : v ∈ hs.map Held.view) {o : Nat} (hlo : v.base ≤ o)
    (hhi : o < v.base + v.records.length) :
    ∃ later, ∀ max, p.fetch K d o max =
      .ok (((v.records.drop (o - v.base) ++ later).take max).map p.toRecord) := by
  obtain ⟨pre, g, post, rfl, hg, hpost, hfetch⟩ := fetch_spec h o
  have hnext := v.next_ge
  have heq : g.view = v := by
    have hpair := h.disk.linked.pairwise
    rw [List.map_append, List.map_cons] at hpair hv
    rcases List.mem_append.1 hv with hv | hv
    · have := (List.pairwise_append.1 hpair).2.2 v hv _ (List.mem_cons_self ..)
      omega
    · rcases List.mem_cons.1 hv with rfl | hv
      · rfl
      · obtain ⟨k, hk, rfl⟩ := List.mem_map.1 hv
        have := hpost k hk
        omega
  rw [heq] at hfetch
  refine ⟨span post, fun max => ?_⟩
  rw [hfetch, reach, if_neg]
  rw [List.drop_eq_nil_iff]
  omega

/-- **Fetches of acknowledged messages.** A fetch at the offset that an append reported returns the
batch, and a fetch inside it begins with the message of that offset. -/
theorem Survives.fetch (h : Survives K topicName partitionId s vs) {p : Partition}
    (hp : s.partition = some p) {a : Nat × List Message} (ha : a ∈ s.acked) {i : Nat}
    {m : Message} (hi : a.2[i]? = some m) :
    p.fetch K s.dir a.1 a.2.length = .ok (referenceFrom topicName partitionId a.1 a.2) ∧
    ∀ max, 0 < max → ∃ later, p.fetch K s.dir (a.1 + i) max =
      .ok (⟨topicName, partitionId, a.1 + i, m⟩ :: later) := by
  obtain ⟨rfl, rfl, hs, rfl, hopen⟩ := h.partition p hp
  obtain ⟨v, hv, hle, heq⟩ := h.acked a ha
  have hlt := (List.getElem?_eq_some_iff.1 hi).1
  have hlen := congrArg List.length heq
  rw [List.length_map, List.length_take, List.length_drop] at hlen
  constructor
  · obtain ⟨later, hfetch⟩ := fetch_view hopen hv hle (by omega)
    have hnum := (v.numbered.drop (a.1 - v.base)).take a.2.length
    rw [show v.base + (a.1 - v.base) = a.1 by omega] at hnum
    rw [hfetch, List.take_append_of_le_length (by rw [List.length_drop]; omega),
      map_toRecord_of_numbered hnum, heq]
  · intro max hmax
    obtain ⟨later, hfetch⟩ := fetch_view hopen hv (o := a.1 + i) (by omega) (by omega)
    have hm : (v.records[a.1 + i - v.base]?).map DiskRecord.toMessage = some m := by
      rw [← heq, List.getElem?_map, List.getElem?_take_of_lt hlt, List.getElem?_drop] at hi
      rw [← hi]
      congr 2
      omega
    obtain ⟨r, hr, rfl⟩ := Option.map_eq_some_iff.1 hm
    obtain ⟨hin, hget⟩ := List.getElem?_eq_some_iff.1 hr
    obtain ⟨n, rfl⟩ : ∃ n, max = n + 1 := ⟨max - 1, by omega⟩
    have hoff := v.numbered.offset hr
    refine ⟨((v.records.drop (a.1 + i - v.base + 1) ++ later).take n).map p.toRecord, ?_⟩
    rw [hfetch, List.drop_eq_getElem_cons hin, hget, List.cons_append, List.take_succ_cons,
      List.map_cons, Partition.toRecord, hoff, show v.base + (a.1 + i - v.base) = a.1 + i by omega]

/-- A partition's state after opening any directory of views. -/
theorem Survives.reopen (h : Survives K topicName partitionId s vs) (config : SegmentConfig)
    {listing : List FileName} (hl : s.dir.Order listing) :
    ∃ p, Partition.openWithConfig K topicName partitionId config listing s.dir = .ok p ∧
      Survives K topicName partitionId ⟨s.dir, some p, s.acked⟩ vs := by
  obtain ⟨p, hp, ht, hid, -, hopen⟩ := openWithConfig_spec h.disk topicName partitionId config hl
  refine ⟨p, hp, h.disk, ?_, h.nonempty, h.acked⟩
  rintro q hq
  obtain rfl := Option.some_inj.1 hq
  refine ⟨ht, hid, _, ?_, hopen⟩
  rw [List.map_map]
  exact List.map_id' vs

/-- The views after a rotation: the same, and perhaps an empty one. -/
theorem grow_rotate {hs init : List (Held K)} {g : Held K} {v' : LogView K}
    {new : List (LogView K)} (hviews : (init ++ [g]).map Held.view = hs.map Held.view ++ new)
    (hb : v'.base = g.view.base) (hr : g.view.records <+: v'.records) :
    ∀ v ∈ hs.map Held.view, ∃ w ∈ init.map Held.view ++ [v'],
      w.base = v.base ∧ v.records <+: w.records := by
  intro v hv
  have hv' : v ∈ (init ++ [g]).map Held.view := by rw [hviews]; exact List.mem_append_left _ hv
  rw [List.map_append, List.map_singleton] at hv'
  rcases List.mem_append.1 hv' with hv' | hv'
  · exact ⟨v, List.mem_append_left _ hv', rfl, List.prefix_refl _⟩
  · obtain rfl := List.mem_singleton.1 hv'
    exact ⟨v', by simp, hb, hr⟩

/-- **A safe step** keeps every acknowledged batch. -/
theorem Survives.step (hK : K.Lawful) (h : Survives K topicName partitionId s vs) {e : LogEvent}
    (hstep : s.next K topicName partitionId e = some t) (hfit : Fitting K s e t)
    (hsafe : WriteSafe K s e t) : ∃ ws, Survives K topicName partitionId t ws := by
  cases e with
  | append io batch =>
    obtain ⟨p, n, d, p', hp, happ, rfl⟩ := next_append hstep
    obtain ⟨htn, hpi, hs, rfl, hopen⟩ := h.partition p hp
    obtain ⟨hne, active, d₁, p₁, s', hrot, happ, rfl⟩ := partition_append_ok happ
    obtain ⟨init, g, hopen₁, rfl, hcfg, htn₁, hpi₁, ⟨new, hviews, -⟩, -, -⟩ :=
      rotate_spec hopen hrot
    have hg : g.Ok K p₁.config d₁ := hopen₁.held g (by simp)
    have htarget := target_of_rotate hp hrot
    obtain ⟨hcursor, hwrite⟩ := hsafe
    obtain ⟨hwhole, hagrees⟩ := hwrite _ htarget
    have ht := hg.backed.whole_iff.1 hwhole
    rw [hg.backed.agrees_iff, hg.config, hg.backed.next] at hagrees
    have hix := (cursorSafe_append hp hrot).1 hcursor
    rw [hg.config] at hix
    obtain ⟨rfl, v', hr, hb, hopen₂, -, -⟩ := append_last hK hopen₁ ht
      (by rw [hcfg]; exact hfit p hp) hix hagrees happ
    have hgrow := grow_rotate hviews hb ⟨_, hr.symm⟩
    refine ⟨init.map Held.view ++ [v'], by simpa using hopen₂.disk, ?_, ?_, fun a ha => ?_⟩
    · rintro q hq
      obtain rfl := Option.some_inj.1 hq
      exact ⟨htn₁.trans htn, hpi₁.trans hpi, _, by simp, hopen₂⟩
    · simpa [or_imp, forall_and, hne] using h.nonempty
    · rcases List.mem_append.1 ha with ha | ha
      · exact acked_mono hgrow (h.acked a ha)
      · obtain rfl := List.mem_singleton.1 ha
        refine ⟨v', by simp, by rw [hb]; exact g.view.base_le_next, ?_⟩
        simp only
        rw [hr, hb, LogView.next_of_whole ht, Nat.add_sub_cancel_left, List.drop_left,
          List.take_of_length_le (by simp), map_toMessage_batchRecords]
  | flush =>
    obtain ⟨-, rfl⟩ := next_flush hstep
    exact ⟨vs, h⟩
  | reopen config listing =>
    obtain ⟨hl, q, hq, rfl⟩ := next_reopen hstep
    obtain ⟨p', hp', h'⟩ := h.reopen config hl
    obtain rfl := Except.ok.inj (hq.symm.trans hp')
    exact ⟨vs, h'⟩
  | crash batch cut indexed =>
    obtain ⟨p, active, d, p', d', hp, hrot, hcrash, rfl⟩ := next_crash hstep
    obtain ⟨htn, hpi, hs, rfl, hopen⟩ := h.partition p hp
    obtain ⟨init, g, hopen₁, rfl, hcfg, -, -, ⟨new, hviews, -⟩, -, -⟩ := rotate_spec hopen hrot
    have hg : g.Ok K p'.config d := hopen₁.held g (by simp)
    have hfit' : ∀ m ∈ batch, Fits K p'.config.compression m := by
      rw [hcfg]; exact hfit p hp
    obtain ⟨v', hb, hr, hdisk⟩ : ∃ v' : LogView K, v'.base = g.view.base ∧
        g.view.records <+: v'.records ∧ OnDisk K d' (init.map Held.view ++ [v']) := by
      rcases hsafe.2 _ (target_of_rotate hp hrot) with ⟨hwhole, hagrees⟩ | ⟨htorn, hdec⟩
      · rw [hg.backed.agrees_iff, hg.config, hg.backed.next] at hagrees
        exact crashedDir_whole hK hopen₁ (hg.backed.whole_iff.1 hwhole) hfit' hagrees hcrash
      · rw [hg.backed.whole_iff] at htorn
        rw [hg.backed.base, hg.backed.content_log, g.view.tornTail_bytes, hg.config,
          hg.backed.next] at hdec
        exact crashedDir_torn hK hopen₁ htorn hfit' (of_undecodable hdec) hcrash
    exact ⟨_, hdisk, fun q hq => (by cases hq), h.nonempty,
      fun a ha => acked_mono (grow_rotate hviews hb hr) (h.acked a ha)⟩

end Survives

/-- Every acknowledged message is returned by fetch at its offset, every acknowledged batch at the
offset that `append` reported, and the directory opens. -/
def Durable (K : Crates) (topicName : String) (partitionId : Nat) (s : LogState) : Prop :=
  (∀ p, s.partition = some p → ∀ a ∈ s.acked,
    p.fetch K s.dir a.1 a.2.length = .ok (referenceFrom topicName partitionId a.1 a.2) ∧
    ∀ i m, a.2[i]? = some m → ∀ max, 0 < max → ∃ later, p.fetch K s.dir (a.1 + i) max =
      .ok (⟨topicName, partitionId, a.1 + i, m⟩ :: later)) ∧
  Reopens K topicName partitionId s

theorem Survives.durable {s : LogState} {vs : List (LogView K)}
    (h : Survives K topicName partitionId s vs) : Durable K topicName partitionId s := by
  refine ⟨fun p hp a ha => ?_, fun config listing hl => ?_⟩
  · obtain ⟨m, hm⟩ : ∃ m, a.2[0]? = some m := by
      have := List.length_pos_iff.2 (h.nonempty a ha)
      exact ⟨_, List.getElem?_eq_getElem this⟩
    exact ⟨(h.fetch hp ha hm).1, fun i m hi => (h.fetch hp ha hi).2⟩
  · obtain ⟨p, hp, -⟩ := h.reopen config hl
    exact ⟨p, hp⟩

theorem survives_init (config : SegmentConfig) :
    Survives K topicName partitionId (LogState.init topicName partitionId config)
      [LogView.empty K 0] := by
  have hopen := open_init K topicName partitionId config
  rw [init_eq]
  refine ⟨hopen.disk, ?_, fun a ha => absurd ha List.not_mem_nil,
    fun a ha => absurd ha List.not_mem_nil⟩
  rintro p hp
  obtain rfl := Option.some_inj.1 hp
  exact ⟨rfl, rfl, [firstHeld K config], rfl, hopen⟩

/-- **Crash recovery.** In every run of appends, reopens and crashes whose writes are safe, every
state reached is durable. -/
theorem crash_durable (hK : K.Lawful) (config : SegmentConfig) {tr : List (LogEvent × LogState)}
    (hrun : Run (Steps (LogState.next K topicName partitionId))
      (LogState.init topicName partitionId config) tr)
    (hfit : EachStep (Fitting K) (LogState.init topicName partitionId config) tr)
    (hsafe : EachStep (WriteSafe K) (LogState.init topicName partitionId config) tr) :
    Throughout (Durable K topicName partitionId)
      (LogState.init topicName partitionId config) tr :=
  Throughout.mono (Q := fun s => ∃ vs, Survives K topicName partitionId s vs)
    (fun _ ⟨_, h⟩ => h.durable)
    (throughout_of_invariant (fun _ _ _ ⟨_, h⟩ hstep hp => h.step hK hstep hp.1 hp.2)
      ⟨_, survives_init config⟩ hrun (hfit.and hsafe))

/-- A crash twelve bytes into a record, a reopen that rotates, and another append. -/
def rotatedCrash : List LogEvent :=
  [.append .done [oneByte 1, oneByte 2], .crash [oneByte 3] 12 0,
    .reopen smallConfig [logPath 0, indexPath 0], .append .done [oneByte 4]]

theorem crash_durable_rotated :
    ∃ tr, trace (LogState.next plainCrates "orders" 0) (LogState.init "orders" 0 denseConfig)
        rotatedCrash = some tr ∧
      Throughout (Durable plainCrates "orders" 0) (LogState.init "orders" 0 denseConfig) tr := by
  obtain ⟨tr, htr, hsafe⟩ := Option.map_eq_some_iff.1 (show (trace
    (LogState.next plainCrates "orders" 0) (LogState.init "orders" 0 denseConfig)
    rotatedCrash).map (fun tr => decide
      (EachStep (WriteSafe plainCrates) (LogState.init "orders" 0 denseConfig) tr)) =
    some true by decide +kernel)
  refine ⟨tr, htr, crash_durable plainCrates_lawful denseConfig (run_of_trace htr)
    (eachStep_of_trace htr fun e he s t => fitting_plain ?_) (of_decide_eq_true hsafe)⟩
  revert e
  decide

/-- The same crash, and an append behind the torn record. -/
def tornCrash : List LogEvent :=
  [.append .done [oneByte 1, oneByte 2], .crash [oneByte 3] 12 0,
    .reopen denseConfig [logPath 0, indexPath 0], .append .done [oneByte 4]]

/-- Crash recovery fails: the message that is acknowledged behind a torn record is not returned. -/
theorem crash_not_durable : ¬ ∀ tr : List (LogEvent × LogState),
    Run (Steps (LogState.next plainCrates "orders" 0)) (LogState.init "orders" 0 denseConfig) tr →
    EachStep (Fitting plainCrates) (LogState.init "orders" 0 denseConfig) tr →
    Throughout (Durable plainCrates "orders" 0) (LogState.init "orders" 0 denseConfig) tr := by
  intro h
  obtain ⟨tr, htr, hlast⟩ := Option.map_eq_some_iff.1 (show (trace
    (LogState.next plainCrates "orders" 0) (LogState.init "orders" 0 denseConfig)
    tornCrash).map (fun tr =>
      let s := last (LogState.init "orders" 0 denseConfig) tr
      (s.acked, s.partition.map fun p => p.fetch plainCrates s.dir 2 1)) =
    some ([(0, [oneByte 1, oneByte 2]), (2, [oneByte 4])], some (.ok [])) by decide +kernel)
  obtain ⟨hacked, hfetch⟩ := Prod.mk.inj hlast
  obtain ⟨p, hp, hempty⟩ := Option.map_eq_some_iff.1 hfetch
  have hfit : EachStep (Fitting plainCrates) (LogState.init "orders" 0 denseConfig) tr :=
    eachStep_of_trace htr fun e he s t => fitting_plain (by revert e; decide)
  obtain ⟨hdur, -⟩ := (h tr (run_of_trace htr) hfit).at_last
  have := (hdur p hp (2, [oneByte 4]) (by rw [hacked]; simp)).1
  rw [show ([oneByte 4] : List Message).length = 1 from rfl, hempty] at this
  cases this

end Gaffa
