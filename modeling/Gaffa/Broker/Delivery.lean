import Gaffa.Broker.Visibility
import Gaffa.Protocol.Bincode
import Gaffa.Storage.Fidelity

/-!
# Delivery of stored messages

A log that was filled by `Produce` requests, and the responses to `Fetch` requests on it.  The frame
limit binds both, but a record in a response is larger than its message in a request, and the broker
has no limit on the bytes of a response.

* `fetch_delivered_iff`: the response to a fetch can be sent if and only if the messages that it asks
  for, with their topic and offsets, are within the limit.
-/

set_option autoImplicit false

namespace Gaffa

open ByteString Transition

variable {K : Crates} {R : Bincode Request} {S : Bincode Response} {topic : String} {partition : Nat}

/-- The batch of an append is that of a request to the partition that the codec decoded. -/
def FromProduce (R : Bincode Request) (topic : String) (partition : Nat) (_ : LogState)
    (e : LogEvent) (_ : LogState) : Prop :=
  ∃ io batch, e = .append io batch ∧ ∃ src rest,
    GaffaCodec.decode R src = (.ok (some (.produce topic partition batch)), rest)

/-- What `process_request` responds to a `Fetch` request on the log; nothing if it panicked. -/
def fetchResponse (K : Crates) (topic : String) (partition : Nat) (s : LogState)
    (offset maxMessages : Nat) : Option Response :=
  s.partition.bind fun p =>
    respond (.fetchSuccess topic partition) .fetchError (p.fetch K s.dir offset maxMessages)

/-- The response to the request is sent: the codec accepts it. -/
def Delivered (K : Crates) (S : Bincode Response) (topic : String) (partition : Nat) (s : LogState)
    (offset maxMessages : Nat) : Prop :=
  ∃ response, fetchResponse K topic partition s offset maxMessages = some response ∧
    ∀ dst, (GaffaCodec.encode S response dst).1 = .ok ()

/-- The messages that the request asks for are within the limit. -/
def WithinLimit (topic : String) (s : LogState) (offset maxMessages : Nat) : Prop :=
  Bincode.fetchSize topic ((s.messages.drop offset).take maxMessages) ≤ maxMessageSize

/-! ## Requests -/

/-- A decoded request is within the frame limit. -/
theorem decode_produce (hR : Bincode.ReadsProduce R) {src rest : Bytes} {messages : List Message}
    (h : GaffaCodec.decode R src = (.ok (some (.produce topic partition messages)), rest)) :
    ∃ data : Bytes, data.length ≤ maxMessageSize ∧
      Bincode.produce topic partition messages <+: data := by
  unfold GaffaCodec.decode decodeFrame at h
  simp only at h
  split at h
  · cases h
  split at h
  · cases h
  rename_i hlimit
  split at h
  · cases h
  split at h
  · cases h
  · rename_i request hrequest
    cases h
    refine ⟨_, ?_, hR _ _ _ _ hrequest⟩
    rw [List.length_take]
    omega

theorem framed_of_messageSize {m : Message} (h : Bincode.messageSize m ≤ maxMessageSize) :
    m.Framed := by
  unfold Bincode.messageSize at h
  constructor
  · intro k hk
    rw [hk, Option.elim_some] at h
    omega
  · omega

/-- The appends of the log are those that fidelity is about. -/
theorem FromProduce.fitting (hR : Bincode.ReadsProduce R) {s t : LogState} {e : LogEvent}
    (h : FromProduce R topic partition s e t)
    (hconfig : ∀ p, s.partition = some p → p.config = SegmentConfig.default) : Fitting K s e t := by
  obtain ⟨io, batch, rfl, src, rest, hdecode⟩ := h
  obtain ⟨data, hlength, hprefix⟩ := decode_produce hR hdecode
  intro p hp m hm
  rw [hconfig p hp]
  exact fits_of_framed (framed_of_messageSize
    (Nat.le_trans (Bincode.messageSize_le hprefix hm) hlength))

/-! ## Responses -/

theorem encode_fetchSuccess (hS : Bincode.WritesFetch S) (records : List Record) (dst : Bytes) :
    (GaffaCodec.encode S (.fetchSuccess topic partition records) dst).1 = .ok () ↔
      (Bincode.fetchSuccess topic partition records).length ≤ maxMessageSize := by
  unfold GaffaCodec.encode encodeFrame
  rw [hS]
  simp only
  split
  · rename_i hlong
    simp [hlong]
  · rename_i hshort
    simp [Nat.le_of_not_lt hshort]

theorem topic_of_mem_referenceFrom {n : Nat} {messages : List Message} {r : Record}
    (h : r ∈ referenceFrom topic partition n messages) : r.topic = topic := by
  obtain ⟨i, hi, rfl⟩ := List.mem_mapIdx.1 h
  rfl

theorem delivered_iff (hS : Bincode.WritesFetch S) {s : LogState}
    (h : FetchExact K topic partition s) (offset maxMessages : Nat) :
    Delivered K S topic partition s offset maxMessages ↔
      WithinLimit topic s offset maxMessages := by
  obtain ⟨p, hp, hfetch⟩ := h
  have hresponse : fetchResponse K topic partition s offset maxMessages =
      some (.fetchSuccess topic partition
        (((referenceFrom topic partition 0 s.messages).drop offset).take maxMessages)) := by
    unfold fetchResponse
    rw [hp, Option.bind_some, hfetch]
    rfl
  have hmessages : (((referenceFrom topic partition 0 s.messages).drop offset).take
      maxMessages).map Record.message = (s.messages.drop offset).take maxMessages := by
    rw [List.map_take, List.map_drop, map_message_referenceFrom]
  unfold Delivered WithinLimit
  rw [hresponse, ← hmessages, ← Bincode.length_fetchSuccess partition fun r hr =>
    topic_of_mem_referenceFrom (List.mem_of_mem_drop (List.mem_of_mem_take hr))]
  constructor
  · rintro ⟨response, hsome, hsent⟩
    obtain rfl := Option.some_inj.1 hsome
    exact (encode_fetchSuccess hS _ []).1 (hsent [])
  · intro hlimit
    exact ⟨_, rfl, fun dst => (encode_fetchSuccess hS _ dst).2 hlimit⟩

/-! ## Runs -/

/-- A log that is filled by decoded requests returns exactly their messages. -/
theorem fetchExact_of_produce (hK : K.Lawful) (hR : Bincode.ReadsProduce R)
    {tr : List (LogEvent × LogState)}
    (hrun : Run (Steps (LogState.next K topic partition))
      (LogState.init topic partition SegmentConfig.default) tr)
    (hproduce : EachStep (FromProduce R topic partition)
      (LogState.init topic partition SegmentConfig.default) tr) :
    Throughout (FetchExact K topic partition)
      (LogState.init topic partition SegmentConfig.default) tr := by
  have hfit : EachStep (Fitting K) (LogState.init topic partition SegmentConfig.default) tr := by
    refine eachStep_of_invariant
      (I := fun s => ∀ p, s.partition = some p → p.config = SegmentConfig.default)
      ?_ (fun s e t hconfig _ he => he.fitting hR hconfig) ?_ hrun hproduce
    · rintro s e t hconfig hstep ⟨io, batch, rfl, -⟩ q hq
      obtain ⟨p, n, d, p', hp, happ, rfl⟩ := next_append hstep
      obtain rfl := Option.some_inj.1 hq
      rw [← hconfig p hp]
      exact (append_nextOffset happ).2.2.2.2.2
    · intro p hp
      obtain rfl := Option.some_inj.1 hp
      rfl
  have happend : EachStep (fun _ e _ => e.isAppend)
      (LogState.init topic partition SegmentConfig.default) tr := by
    refine hproduce.mono ?_
    rintro s e t ⟨io, batch, rfl, -⟩
    trivial
  refine (kept_of_appends hK SegmentConfig.default hrun happend hfit).mono ?_
  rintro s ⟨p, hs, hkept, -⟩
  exact ⟨p, hkept.partition, hkept.fetch⟩

/-- **Delivery.**  In every state of a log that is filled by decoded `Produce` requests, the response
to a `Fetch` request is sent exactly when the messages that it asks for are within the limit. -/
theorem fetch_delivered_iff (hK : K.Lawful) (hR : Bincode.ReadsProduce R)
    (hS : Bincode.WritesFetch S) {tr : List (LogEvent × LogState)}
    (hrun : Run (Steps (LogState.next K topic partition))
      (LogState.init topic partition SegmentConfig.default) tr)
    (hproduce : EachStep (FromProduce R topic partition)
      (LogState.init topic partition SegmentConfig.default) tr) :
    Throughout (fun s => ∀ offset maxMessages, Delivered K S topic partition s offset maxMessages ↔
        WithinLimit topic s offset maxMessages)
      (LogState.init topic partition SegmentConfig.default) tr :=
  (fetchExact_of_produce hK hR hrun hproduce).mono
    fun _ hexact offset maxMessages => delivered_iff hS hexact offset maxMessages

/-! ## A message that is accepted and cannot be sent -/

/-- `bincode` at the request with one message. -/
def oneRequest (m : Message) : Bincode Request where
  serialize request :=
    if request = .produce "t" 0 [m] then .ok (Bincode.produce "t" 0 [m])
    else .error "not serialized here"
  deserialize data :=
    if data = Bincode.produce "t" 0 [m] then .ok (.produce "t" 0 [m])
    else .error "not deserialized here"

/-- `bincode` at the responses to fetches. -/
def fetchResponses : Bincode Response where
  serialize
    | .fetchSuccess topic partition records => .ok (Bincode.fetchSuccess topic partition records)
    | _ => .error "not serialized here"
  deserialize _ := .error "not deserialized here"

theorem oneRequest_reads (m : Message) : Bincode.ReadsProduce (oneRequest m) := by
  intro data topic partition messages h
  unfold oneRequest at h
  simp only at h
  split at h
  · rename_i hdata
    cases h
    rw [hdata]
  · cases h

theorem oneRequest_lawful (m : Message) : (oneRequest m).Lawful := by
  intro request data h
  unfold oneRequest at h ⊢
  simp only at h ⊢
  split at h
  · rename_i hrequest
    cases h
    rw [if_pos rfl, hrequest]
  · cases h

theorem fetchResponses_writes : Bincode.WritesFetch fetchResponses := fun _ _ _ => rfl

theorem encode_of_fits {m : Message} (hfit : Fits plainCrates .none m) :
    ∃ bs, (LogSegment.recordOf SegmentConfig.default 0 m).encode plainCrates = .ok bs ∧
      0 + bs.length < 2 ^ 64 := by
  refine ⟨_, rfl, ?_⟩
  have hbody := hfit.2 m.value rfl
  rw [Nat.zero_add, List.length_append, List.length_append, List.length_append,
    DiskRecord.length_dataToChecksum, length_toBe, length_toBe, length_toBe]
  have hsame : DiskRecord.bodySize (DiskRecord.new 0 m) m.value =
      DiskRecord.bodySize ⟨0, m.timestamp, m.key, m.value, .none⟩ m.value := rfl
  change 8 + (4 + (4 + (DiskRecord.bodySize (DiskRecord.new 0 m) m.value - 4))) < 2 ^ 64
  omega

/-- A first append of one message succeeds. -/
theorem segment_append_first {m : Message} (hfit : Fits plainCrates .none m) (d : Dir) :
    ∃ d' s', LogSegment.append plainCrates LogSegment.AppendIo.done [m] d
      (createdSegment SegmentConfig.default 0) = (.ok 0, d', s') := by
  obtain ⟨bs, hbs, hlength⟩ := encode_of_fits hfit
  let start := LogSegment.appendStart d (createdSegment SegmentConfig.default 0)
  let written : LogSegment.AppendState := { start with log := start.log ++ bs }
  have hadd : checkedAdd 64 0 bs.length = .ok (0 + bs.length) := checkedAdd_of_lt hlength
  have hadvance : LogSegment.advance bs.length written =
      (.ok (), { written with
        currentPosition := 0 + bs.length, nextOffset := 1, recordsSinceIndex := 1 }) := by
    unfold LogSegment.advance
    rw [show written.currentPosition = 0 from rfl, hadd]
    rfl
  have hrecord : LogSegment.appendRecord plainCrates SegmentConfig.default
      (LogSegment.AppendIo.done.record 0) m start = LogSegment.advance bs.length written := by
    unfold LogSegment.appendRecord
    rw [show start.nextOffset = 0 from rfl, hbs]
    rfl
  rw [hadvance] at hrecord
  have hloop : LogSegment.appendLoop plainCrates (createdSegment SegmentConfig.default 0).config
      LogSegment.AppendIo.done.record [m] start = (.ok (), { written with
        currentPosition := 0 + bs.length, nextOffset := 1, recordsSinceIndex := 1 }) := by
    simp only [LogSegment.appendLoop, show (createdSegment SegmentConfig.default 0).config =
      SegmentConfig.default from rfl, hrecord]
  unfold LogSegment.append
  simp only [if_neg (List.cons_ne_nil m []), hloop, start]
  exact ⟨_, _, rfl⟩

theorem append_first {m : Message} (hfit : Fits plainCrates .none m) :
    ∃ t, LogState.next plainCrates "t" 0 (LogState.init "t" 0 SegmentConfig.default)
      (.append .done [m]) = some t ∧ t.messages = [m] := by
  rw [init_eq]
  obtain ⟨d', s', happ⟩ := segment_append_first hfit (withFiles Table.empty 0)
  have hpartition : ∃ p', Partition.append plainCrates .done [m] (withFiles Table.empty 0)
      ⟨"t", 0, [createdSegment SegmentConfig.default 0], SegmentConfig.default⟩ =
        (.ok 0, d', p') := by
    unfold Partition.append
    rw [if_neg (List.cons_ne_nil m [])]
    have hrotate : Partition.rotate .done (withFiles Table.empty 0)
        ⟨"t", 0, [createdSegment SegmentConfig.default 0], SegmentConfig.default⟩ =
          (.ok (createdSegment SegmentConfig.default 0), withFiles Table.empty 0,
            ⟨"t", 0, [createdSegment SegmentConfig.default 0], SegmentConfig.default⟩) := rfl
    simp only [PartitionIo.done] at hrotate happ ⊢
    simp only [hrotate, happ]
    exact ⟨_, rfl⟩
  obtain ⟨p', hp'⟩ := hpartition
  refine ⟨⟨d', some p', [(0, [m])]⟩, ?_, rfl⟩
  unfold LogState.next
  simp only [hp']
  rfl

theorem nameSize_t : Bincode.nameSize "t" = 1 := by decide

/-- The codec decodes a request that is within the limit. -/
theorem decode_oneRequest {m : Message} (hsize : Bincode.messageSize m + 25 ≤ maxMessageSize) :
    GaffaCodec.decode (oneRequest m) (frame (Bincode.produce "t" 0 [m])) =
      (.ok (some (.produce "t" 0 [m])), []) := by
  have hlength : (Bincode.produce "t" 0 [m]).length ≤ maxMessageSize := by
    rw [Bincode.length_produce, List.map_singleton, List.sum_singleton, nameSize_t]
    omega
  have hframe : FrameOf (oneRequest m) (.produce "t" 0 [m]) (frame (Bincode.produce "t" 0 [m])) :=
    ⟨_, if_pos rfl, hlength, rfl⟩
  have hdecode := (frames_decodeFrame (oneRequest_lawful m)).whole _ _ hframe []
  rwa [List.append_nil] at hdecode

/-- The log of that request. -/
theorem run_oneRequest {m : Message} (hsize : Bincode.messageSize m + 25 ≤ maxMessageSize) :
    ∃ t, Run (Steps (LogState.next plainCrates "t" 0))
        (LogState.init "t" 0 SegmentConfig.default) [(.append .done [m], t)] ∧
      EachStep (FromProduce (oneRequest m) "t" 0) (LogState.init "t" 0 SegmentConfig.default)
        [(.append .done [m], t)] ∧
      t.messages = [m] := by
  have hfit : Fits plainCrates .none m := fits_of_framed (framed_of_messageSize (by omega))
  obtain ⟨t, ht, hmessages⟩ := append_first hfit
  exact ⟨t, ⟨ht, trivial⟩, ⟨⟨.done, [m], rfl, _, _, decode_oneRequest hsize⟩, trivial⟩, hmessages⟩

/-- A message whose request is as long as a request may be. -/
def longest : Message := ⟨none, List.replicate (maxMessageSize - 42) 0, 0⟩

theorem length_longest : longest.value.length = maxMessageSize - 42 := by
  unfold longest
  exact List.length_replicate

theorem messageSize_longest : Bincode.messageSize longest + 25 = maxMessageSize := by
  have hkey : longest.key = none := by
    unfold longest
    rfl
  have hsize := Bincode.messageSize_of_key_none hkey
  have hvalue := length_longest
  -- its ten million bytes are not to be looked at
  generalize longest = m at hsize hvalue ⊢
  unfold maxMessageSize at hvalue ⊢
  omega

/-- One message of that size is not within the limit of a response. -/
theorem not_withinLimit {s : LogState} {m : Message} (hmessages : s.messages = [m])
    (hsize : Bincode.messageSize m + 25 = maxMessageSize) : ¬ WithinLimit "t" s 0 1 := by
  unfold WithinLimit Bincode.fetchSize
  rw [hmessages, List.drop_zero, List.take_one, List.head?_cons, Option.toList_some,
    List.map_singleton, List.sum_singleton, nameSize_t]
  omega

theorem fetch_delivered_iff_longest :
    ∃ t, t.messages = [longest] ∧ (Delivered plainCrates fetchResponses "t" 0 t 0 1 ↔
      WithinLimit "t" t 0 1) := by
  obtain ⟨t, hrun, hproduce, hmessages⟩ := run_oneRequest (Nat.le_of_eq messageSize_longest)
  exact ⟨t, hmessages, (fetch_delivered_iff plainCrates_lawful (oneRequest_reads longest)
    fetchResponses_writes hrun hproduce).at_last 0 1⟩

/-- Delivery fails: a message that was accepted makes every response too large that holds it. -/
theorem longest_undelivered : ¬ ∀ tr : List (LogEvent × LogState),
    Run (Steps (LogState.next plainCrates "t" 0)) (LogState.init "t" 0 SegmentConfig.default) tr →
    EachStep (FromProduce (oneRequest longest) "t" 0)
      (LogState.init "t" 0 SegmentConfig.default) tr →
    Throughout (fun s => ∀ offset maxMessages, 1 ≤ maxMessages →
      Delivered plainCrates fetchResponses "t" 0 s offset maxMessages)
      (LogState.init "t" 0 SegmentConfig.default) tr := by
  intro h
  obtain ⟨t, hrun, hproduce, hmessages⟩ := run_oneRequest (Nat.le_of_eq messageSize_longest)
  have hdelivered := (h _ hrun hproduce).at_last 0 1 (Nat.le_refl 1)
  have hexact := (fetchExact_of_produce plainCrates_lawful (oneRequest_reads longest) hrun
    hproduce).at_last
  exact not_withinLimit hmessages messageSize_longest
    ((delivered_iff fetchResponses_writes hexact 0 1).1 hdelivered)

end Gaffa
