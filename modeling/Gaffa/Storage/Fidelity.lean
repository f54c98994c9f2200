import Gaffa.Storage.LogRun

/-!
# Fidelity of the log

* `append_fetch_exact`: in a run of appends, every fetch returns exactly the acknowledged messages
  from its offset on.
* `reopen_faithful_iff`: with reopens, fetches and reads stay exact in every state of a run
  exactly when no append writes index entries through a handle whose cursor is not at the end of
  the entries it counts.
-/

set_option autoImplicit false

namespace Gaffa

open ByteString DiskRecord OffsetIndex Transition

variable {K : Crates} {topicName : String} {partitionId : Nat}

/-! ## The records of all segments -/

/-- The records of a list of views. -/
def allRecords (hs : List (Held K)) : List DiskRecord := hs.flatMap fun h => h.view.records

theorem allRecords_append (gs hs : List (Held K)) :
    allRecords (gs ++ hs) = allRecords gs ++ allRecords hs := List.flatMap_append

theorem numbered_allRecords {d : Dir} : ∀ {b : Nat} {hs : List (Held K)},
    Linked b (hs.map Held.view) → Pristine d hs → Numbered b (allRecords hs)
  | _, [], _, _ => trivial
  | b, h :: hs, hl, hp => by
    rw [List.map_cons] at hl
    have hb : h.view.base = b := hl.head
    have hnum := h.view.numbered
    rw [hb] at hnum
    refine hnum.append ?_
    cases hs with
    | nil => trivial
    | cons g gs =>
      have ht := (hl.tail (by simp)).2
      rw [LogView.next_of_whole (hp h (by simp)).1.whole, hb] at ht
      exact numbered_allRecords ht fun k hk => hp k (List.mem_cons_of_mem _ hk)

/-- The records before a view number up to its base. -/
theorem length_allRecords {d : Dir} (g : Held K) (post : List (Held K)) :
    ∀ {b : Nat} (pre : List (Held K)), Linked b ((pre ++ g :: post).map Held.view) →
      Pristine d (pre ++ g :: post) → b + (allRecords pre).length = g.view.base
  | b, [], hl, _ => by
    rw [List.nil_append, List.map_cons] at hl
    exact hl.head.symm
  | b, h :: pre, hl, hp => by
    rw [List.cons_append, List.map_cons] at hl
    have hb : h.view.base = b := hl.head
    have ht := (hl.tail (by simp)).2
    rw [LogView.next_of_whole (hp h (by simp)).1.whole, hb] at ht
    have := length_allRecords g post pre ht fun k hk => hp k (List.mem_cons_of_mem _ hk)
    rw [← this, allRecords, List.flatMap_cons, List.length_append, ← allRecords]
    omega

/-- Behind the first offset no handle is superseded and no segment is empty, so nothing stops a
fetch. -/
theorem span_eq_allRecords {d : Dir} : ∀ {hs : List (Held K)}, Pristine d hs → Filled hs →
    (∀ h ∈ hs, 0 < h.view.base) → span hs = allRecords hs
  | [], _, _, _ => rfl
  | h :: hs, hp, hf, hb => by
    have hpos := hb h (List.mem_cons_self ..)
    have hst : h.stale = [] := by
      by_contra hne
      have := (hp h (by simp)).2 hne
      omega
    have hr : h.view.records ≠ [] := fun hr => by
      have := hf h (List.mem_cons_self ..) hr
      omega
    have ih := span_eq_allRecords (fun k hk => hp k (List.mem_cons_of_mem _ hk))
      (fun k hk => hf k (List.mem_cons_of_mem _ hk)) fun k hk => hb k (List.mem_cons_of_mem _ hk)
    rw [span, if_pos hst, reach, if_neg hr, ih]
    rfl

/-! ## What a run keeps -/

/-- The open partition holds exactly the acknowledged messages. -/
structure Kept (K : Crates) (topicName : String) (partitionId : Nat) (s : LogState)
    (p : Partition) (hs : List (Held K)) : Prop where
  partition : s.partition = some p
  topicName : p.topicName = topicName
  partitionId : p.partitionId = partitionId
  agrees : Open K s.dir p hs
  pristine : Pristine s.dir hs
  filled : Filled hs
  messages : (allRecords hs).map DiskRecord.toMessage = s.messages

section Kept

variable {s : LogState} {p : Partition} {hs : List (Held K)}

theorem Kept.numbered (h : Kept K topicName partitionId s p hs) : Numbered 0 (allRecords hs) :=
  numbered_allRecords h.agrees.disk.linked h.pristine

theorem Kept.reference (h : Kept K topicName partitionId s p hs) :
    (allRecords hs).map p.toRecord = referenceFrom topicName partitionId 0 s.messages := by
  rw [map_toRecord_of_numbered h.numbered, h.topicName, h.partitionId, h.messages]

/-- The records from an offset on are those that a fetch reaches. -/
theorem drop_allRecords (h : Kept K topicName partitionId s p hs) {pre post : List (Held K)}
    {g : Held K} {o : Nat} (hsplit : hs = pre ++ g :: post) (hlo : g.view.base ≤ o)
    (hpost : ∀ k ∈ post, o < k.view.base) :
    (allRecords hs).drop o = reach (g.view.records.drop (o - g.view.base)) (span post) := by
  subst hsplit
  have hlen := length_allRecords g post pre h.agrees.disk.linked h.pristine
  have hspan : span post = allRecords post := span_eq_allRecords
    (fun k hk => h.pristine k (by simp [hk])) (fun k hk => h.filled k (by simp [hk]))
    fun k hk => Nat.lt_of_le_of_lt (Nat.zero_le o) (hpost k hk)
  have hall : allRecords (pre ++ g :: post) =
      allRecords pre ++ (g.view.records ++ allRecords post) := allRecords_append ..
  have hdrop : (allRecords (pre ++ g :: post)).drop o =
      (g.view.records ++ allRecords post).drop (o - g.view.base) := by
    rw [hall, List.drop_append, List.drop_eq_nil_of_le (by omega), List.nil_append,
      show o - (allRecords pre).length = o - g.view.base by omega]
  rw [hdrop, hspan, reach]
  cases post with
  | nil =>
    rw [show allRecords ([] : List (Held K)) = [] from rfl, List.append_nil, List.append_nil]
    split
    · assumption
    · rfl
  | cons k ks =>
    -- the next segment starts where this one ends, so the offset is inside this one
    have hnext := length_allRecords k ks (pre ++ [g])
      (by simpa using h.agrees.disk.linked) (by simpa using h.pristine)
    rw [allRecords_append, List.length_append] at hnext
    have hk := hpost k (List.mem_cons_self ..)
    have hg : (allRecords [g]).length = g.view.records.length := by simp [allRecords]
    have hin : o - g.view.base < g.view.records.length := by omega
    rw [if_neg (by simpa [List.drop_eq_nil_iff] using hin),
      List.drop_append_of_le_length (Nat.le_of_lt hin)]

/-- **Fetches are exact.** -/
theorem Kept.fetch (h : Kept K topicName partitionId s p hs) (o max : Nat) :
    p.fetch K s.dir o max =
      .ok (((referenceFrom topicName partitionId 0 s.messages).drop o).take max) := by
  obtain ⟨pre, g, post, hsplit, hlo, hpost, hfetch⟩ := fetch_spec h.agrees o
  rw [hfetch, ← drop_allRecords h hsplit hlo hpost, List.map_take, List.map_drop, h.reference]

/-- The next offset counts the acknowledged messages. -/
theorem Kept.nextOffset (h : Kept K topicName partitionId s p hs) :
    p.nextOffset = s.messages.length := by
  rw [← h.messages, List.length_map]
  rcases List.eq_nil_or_concat' hs with rfl | ⟨init, g, rfl⟩
  · exact absurd rfl h.agrees.ne_nil
  · have hback := (h.agrees.held g (by simp)).backed
    have hbase := length_allRecords g [] init h.agrees.disk.linked h.pristine
    have hlast : (allRecords [g]).length = g.view.records.length := by simp [allRecords]
    unfold Partition.nextOffset
    rw [h.agrees.getLast?, allRecords_append, List.length_append, hlast]
    simp only
    rw [hback.next, LogView.next_of_whole (h.pristine g (by simp)).1.whole]
    omega

theorem getElem?_allRecords (h : Kept K topicName partitionId s p hs) {g : Held K} (hg : g ∈ hs)
    {o : Nat} {r : DiskRecord} (hlo : g.view.base ≤ o)
    (hr : g.view.records[o - g.view.base]? = some r) : (allRecords hs)[o]? = some r := by
  obtain ⟨pre, post, rfl⟩ := List.append_of_mem hg
  have hlen := length_allRecords g post pre h.agrees.disk.linked h.pristine
  have hlt := (List.getElem?_eq_some_iff.1 hr).1
  have hall : allRecords (pre ++ g :: post) =
      allRecords pre ++ (g.view.records ++ allRecords post) := allRecords_append ..
  rw [hall, List.getElem?_append_right (by omega), List.getElem?_append_left (by omega), ← hr]
  congr 1
  omega

/-- **Reads are exact**, segment by segment. -/
theorem Kept.read (h : Kept K topicName partitionId s p hs) {sg : LogSegment}
    (hsg : sg ∈ p.segments) (o : Nat) :
    (sg.baseOffset ≤ o → o < sg.nextOffset → ∃ r, sg.read K s.dir o = .ok r ∧
      (referenceFrom topicName partitionId 0 s.messages)[o]? = some (p.toRecord r)) ∧
    (o < sg.baseOffset ∨ sg.nextOffset ≤ o →
      sg.read K s.dir o = .error (.error (.invalidOffset o))) := by
  rw [h.agrees.segments] at hsg
  obtain ⟨g, hg, hsg⟩ := List.mem_flatMap.1 hsg
  have hok := h.agrees.held g hg
  rcases List.mem_append.1 hsg with hst | hlive
  · obtain ⟨hb, hn⟩ := hok.stale sg hst
    refine ⟨fun h1 h2 => by omega, fun ho => ?_⟩
    unfold LogSegment.read
    by_cases hlt : o < sg.baseOffset
    · rw [if_pos hlt]
    · rw [if_neg hlt, if_pos (by omega)]
  · obtain rfl := List.mem_singleton.1 hlive
    have hback := hok.backed
    rw [hback.base, hback.next]
    refine ⟨fun hlo hhi => ?_, read_out_of_range hback⟩
    rw [LogView.next_of_whole (h.pristine g hg).1.whole] at hhi
    obtain ⟨r, hr, hread⟩ := read_spec hback hlo hhi
    refine ⟨r, hread, ?_⟩
    rw [← h.reference, List.getElem?_map, getElem?_allRecords h hg hlo hr]
    rfl

/-- Every acknowledged offset is in some segment. -/
theorem Kept.covered (h : Kept K topicName partitionId s p hs) {o : Nat}
    (ho : o < s.messages.length) :
    ∃ sg ∈ p.segments, sg.baseOffset ≤ o ∧ o < sg.nextOffset := by
  obtain ⟨pre, g, post, rfl, hlo, hpost, -⟩ := fetch_spec h.agrees o
  have hg : g ∈ pre ++ g :: post := by simp
  have hback := (h.agrees.held g hg).backed
  refine ⟨g.segment, ?_, by rw [hback.base]; exact hlo, ?_⟩
  · rw [h.agrees.segments]
    exact List.mem_flatMap.2 ⟨g, hg, by simp [Held.segments]⟩
  · have hlen := length_allRecords g post pre h.agrees.disk.linked h.pristine
    rw [hback.next, LogView.next_of_whole (h.pristine g hg).1.whole]
    cases post with
    | nil =>
      have hn : (allRecords (pre ++ [g])).length = s.messages.length := by
        rw [← h.messages, List.length_map]
      rw [allRecords_append, List.length_append] at hn
      simp only [allRecords, List.flatMap_singleton] at hn hlen
      omega
    | cons k ks =>
      have hnext := length_allRecords k ks (pre ++ [g])
        (by simpa using h.agrees.disk.linked) (by simpa using h.pristine)
      rw [allRecords_append, List.length_append] at hnext
      have hk := hpost k (List.mem_cons_self ..)
      simp only [allRecords, List.flatMap_singleton] at hnext hlen
      omega

/-- The directory can be opened again. -/
theorem Kept.reopen (h : Kept K topicName partitionId s p hs) (config : SegmentConfig)
    {listing : List FileName} (hl : s.dir.Order listing) :
    ∃ p', Partition.openWithConfig K topicName partitionId config listing s.dir = .ok p' ∧
      Kept K topicName partitionId ⟨s.dir, some p', s.acked⟩ p'
        ((hs.map Held.view).map (reheld s.dir config)) := by
  obtain ⟨p', hp', ht, hid, -, hopen⟩ :=
    openWithConfig_spec h.agrees.disk topicName partitionId config hl
  have hview : ((hs.map Held.view).map (reheld s.dir config)).map Held.view = hs.map Held.view := by
    rw [List.map_map]; exact List.map_id' _
  refine ⟨p', hp', rfl, ht, hid, hopen, fun k hk => ?_, fun k hk => ?_, ?_⟩
  · obtain ⟨v, hv, rfl⟩ := List.mem_map.1 hk
    obtain ⟨g, hg, rfl⟩ := List.mem_map.1 hv
    have hc := (h.pristine g hg).1
    have hal := (h.agrees.held g hg).backed.aligned
    have hsize : (reheld s.dir config g.view).segment.index.size = g.segment.index.size :=
      Nat.div_eq_of_eq_mul_right (by decide) hc.count
    exact ⟨⟨hc.whole, by rw [hsize]; exact hc.count, by rw [hsize]; exact hc.written⟩,
      fun hne => absurd rfl hne⟩
  · obtain ⟨v, hv, rfl⟩ := List.mem_map.1 hk
    obtain ⟨g, hg, rfl⟩ := List.mem_map.1 hv
    exact h.filled g hg
  · have hall : allRecords ((hs.map Held.view).map (reheld s.dir config)) = allRecords hs := by
      unfold allRecords
      rw [← List.flatMap_map (f := Held.view) (g := LogView.records), hview, List.flatMap_map]
    rw [hall]
    exact h.messages

end Kept

/-! ## Steps -/

section Step

variable {s t : LogState} {p : Partition} {hs : List (Held K)}

/-- **An append step** through a safe handle. -/
theorem Kept.append (hK : K.Lawful) (h : Kept K topicName partitionId s p hs) {io : PartitionIo}
    {batch : List Message} (hfit : ∀ m ∈ batch, Fits K p.config.compression m)
    {n : Nat} {d : Dir} {p' : Partition}
    (happ : Partition.append K io batch s.dir p = (.ok n, d, p'))
    (hsafe : CursorSafe s (.append io batch) t) :
    ∃ hs', Kept K topicName partitionId ⟨d, some p', s.acked ++ [(n, batch)]⟩ p' hs' ∧
      (Straight hs → Straight hs') := by
  obtain ⟨hne, active, d₁, p₁, s', hrot, happ, rfl⟩ := partition_append_ok happ
  obtain ⟨init, g, hopen, rfl, hcfg, htn, hpi, ⟨new, hviews, hnew⟩, hclean, hstraight⟩ :=
    rotate_spec h.agrees hrot
  obtain ⟨hp, hf⟩ := hclean h.pristine h.filled
  have hg := (hp g (by simp)).1
  have hix := (cursorSafe_append h.partition hrot).1 hsafe
  rw [(hopen.held g (by simp)).config] at hix
  obtain ⟨-, v', hr, hb, hopen', hp', hst'⟩ := append_last hK hopen hg.whole
    (by rw [hcfg]; exact hfit) hix (hg.consistent _ _) happ
  have hold : allRecords (init ++ [g]) = allRecords hs := by
    have hview : ∀ gs : List (Held K), allRecords gs =
        (gs.map Held.view).flatMap LogView.records := fun gs => by
      rw [List.flatMap_map]; rfl
    rw [hview, hviews, List.flatMap_append, List.flatMap_eq_nil_iff.2 hnew, List.append_nil,
      ← hview]
  refine ⟨_, ⟨rfl, by rw [← h.topicName, ← htn], by rw [← h.partitionId, ← hpi], hopen', hp' hp,
    fun k hk hnil => ?_, ?_⟩, fun hst => hst' (hstraight hst)⟩
  · rcases List.mem_append.1 hk with hk | hk
    · exact hf k hk hnil
    · obtain rfl := List.mem_singleton.1 hk
      simp only [hr, List.append_eq_nil_iff] at hnil
      have := congrArg List.length hnil.2
      rw [length_batchRecords] at this
      exact absurd (List.eq_nil_of_length_eq_zero this) hne
  · have hall : allRecords (init ++ [⟨g.stale, s', v'⟩]) =
        allRecords hs ++ batchRecords p₁.config g.view.next batch := by
      rw [← hold, allRecords_append, allRecords_append]
      simp only [allRecords, List.flatMap_singleton, hr, List.append_assoc]
    rw [hall, List.map_append, map_toMessage_batchRecords, h.messages]
    simp [LogState.messages]

/-- **An append step** through an unsafe handle leaves a segment whose last record cannot be
read. -/
theorem Kept.append_unsafe (hK : K.Lawful) (h : Kept K topicName partitionId s p hs)
    {io : PartitionIo} {batch : List Message}
    (hfit : ∀ m ∈ batch, Fits K p.config.compression m) {n : Nat} {d : Dir} {p' : Partition}
    (happ : Partition.append K io batch s.dir p = (.ok n, d, p'))
    (hbad : ¬ CursorSafe s (.append io batch) t) :
    ∃ sg ∈ p'.segments, sg.baseOffset ≤ sg.nextOffset - 1 ∧ sg.nextOffset - 1 < sg.nextOffset ∧
      sg.read K d (sg.nextOffset - 1) =
        .error (.panic "range end index out of range for slice") := by
  obtain ⟨-, active, d₁, p₁, s', hrot, happ, rfl⟩ := partition_append_ok happ
  obtain ⟨init, g, hopen, rfl, hcfg, -, -, -, hclean, -⟩ := rotate_spec h.agrees hrot
  obtain ⟨hp, -⟩ := hclean h.pristine h.filled
  have hg : g.Ok K p₁.config d₁ := hopen.held g (by simp)
  rw [cursorSafe_append h.partition hrot, not_or, Nat.not_le] at hbad
  obtain ⟨hlt, hread⟩ := append_overruns hK hg.backed (hp g (by simp)).1
    (by rw [hg.config, hcfg]; exact hfit) hbad.1 hbad.2 happ
  exact ⟨s', by simp, by omega, by omega, hread⟩

theorem Kept.cursorSafe (h : Kept K topicName partitionId s p hs) (hst : Straight hs)
    (e : LogEvent) : CursorSafe s e t := by
  cases e with
  | append io batch =>
    rintro ⟨active, d'⟩ htarget
    obtain ⟨p', hrot⟩ := rotate_of_target h.partition htarget
    obtain ⟨init, g, -, rfl, -, -, -, -, -, hstraight⟩ := rotate_spec h.agrees hrot
    exact .inl (hstraight hst g (by simp))
  | _ => trivial

/-- The steps of a run without crashes. -/
theorem Kept.step (hK : K.Lawful) (h : Kept K topicName partitionId s p hs) {e : LogEvent}
    (hstep : s.next K topicName partitionId e = some t) (hfit : Fitting K s e t)
    (hcrash : ¬ e.isCrash) (hsafe : CursorSafe s e t) :
    ∃ p' hs', Kept K topicName partitionId t p' hs' := by
  cases e with
  | append io batch =>
    obtain ⟨q, n, d, p', hq, happ, rfl⟩ := next_append hstep
    obtain rfl := Option.some_inj.1 (h.partition.symm.trans hq)
    obtain ⟨hs', h', -⟩ := h.append hK (hfit _ hq) happ hsafe
    exact ⟨p', hs', h'⟩
  | flush =>
    obtain ⟨-, rfl⟩ := next_flush hstep
    exact ⟨p, hs, h⟩
  | reopen config listing =>
    obtain ⟨hl, q, hq, rfl⟩ := next_reopen hstep
    obtain ⟨p', hp', h'⟩ := h.reopen config hl
    obtain rfl := Except.ok.inj (hq.symm.trans hp')
    exact ⟨q, _, h'⟩
  | crash batch cut indexed => exact absurd trivial hcrash

end Step

theorem kept_init (config : SegmentConfig) :
    Kept K topicName partitionId (LogState.init topicName partitionId config)
      ⟨topicName, partitionId, [createdSegment config 0], config⟩ [firstHeld K config] := by
  rw [init_eq]
  refine ⟨rfl, rfl, rfl, open_init K topicName partitionId config, fun k hk => ?_, fun k hk => ?_,
    rfl⟩
  · obtain rfl := List.mem_singleton.1 hk
    exact ⟨⟨rfl, congrArg List.length (indexFile_withFiles Table.empty (LogView.empty K 0)),
      fun i hi => absurd hi (Nat.not_lt_zero i)⟩, fun hs => absurd rfl hs⟩
  · obtain rfl := List.mem_singleton.1 hk
    exact fun _ => rfl

/-! ## Without restart -/

/-- Every fetch returns exactly the acknowledged messages from its offset on, each under its own
number. -/
def FetchExact (K : Crates) (topicName : String) (partitionId : Nat) (s : LogState) : Prop :=
  ∃ p, s.partition = some p ∧ ∀ offset maxMessages, p.fetch K s.dir offset maxMessages =
    .ok (((referenceFrom topicName partitionId 0 s.messages).drop offset).take maxMessages)

/-- In a run of appends the open partition holds the acknowledged messages. -/
theorem kept_of_appends (hK : K.Lawful) (config : SegmentConfig)
    {tr : List (LogEvent × LogState)}
    (hrun : Run (Steps (LogState.next K topicName partitionId))
      (LogState.init topicName partitionId config) tr)
    (happ : EachStep (fun _ e _ => e.isAppend) (LogState.init topicName partitionId config) tr)
    (hfit : EachStep (Fitting K) (LogState.init topicName partitionId config) tr) :
    Throughout (fun s => ∃ p hs, Kept K topicName partitionId s p hs ∧ Straight hs)
      (LogState.init topicName partitionId config) tr := by
  refine throughout_of_invariant (P := fun s e t => e.isAppend ∧ Fitting K s e t) ?_
    ⟨_, _, kept_init config, ?_⟩ hrun (happ.and hfit)
  · rintro s e t ⟨p, hs, h, hst⟩ hstep ⟨he, hf⟩
    cases e with
    | append io batch =>
      obtain ⟨q, n, d, p', hq, happ, rfl⟩ := next_append hstep
      obtain rfl := Option.some_inj.1 (h.partition.symm.trans hq)
      obtain ⟨hs', h', hst'⟩ := h.append hK (hf _ hq) happ (h.cursorSafe (t := s) hst _)
      exact ⟨p', hs', h', hst' hst⟩
    | flush => exact absurd he id
    | reopen config listing => exact absurd he id
    | crash batch cut indexed => exact absurd he id
  · intro k hk
    obtain rfl := List.mem_singleton.1 hk
    rfl

/-- **Log fidelity without restart.** -/
theorem append_fetch_exact (hK : K.Lawful) (config : SegmentConfig)
    {tr : List (LogEvent × LogState)}
    (hrun : Run (Steps (LogState.next K topicName partitionId))
      (LogState.init topicName partitionId config) tr)
    (happ : EachStep (fun _ e _ => e.isAppend) (LogState.init topicName partitionId config) tr)
    (hfit : EachStep (Fitting K) (LogState.init topicName partitionId config) tr) :
    Throughout (FetchExact K topicName partitionId)
      (LogState.init topicName partitionId config) tr :=
  (kept_of_appends hK config hrun happ hfit).mono fun _ ⟨p, _, h, _⟩ => ⟨p, h.partition, h.fetch⟩

/-- Appends that rotate twice. -/
def rotatingAppends : List LogEvent :=
  [.append .done [oneByte 1, oneByte 2], .append .done [oneByte 3], .append .done [oneByte 4]]

theorem append_fetch_exact_rotating :
    ∃ tr, trace (LogState.next plainCrates "orders" 0) (LogState.init "orders" 0 smallConfig)
        rotatingAppends = some tr ∧
      Throughout (FetchExact plainCrates "orders" 0) (LogState.init "orders" 0 smallConfig) tr := by
  obtain ⟨tr, htr⟩ := Option.isSome_iff_exists.1 (show (trace
    (LogState.next plainCrates "orders" 0) (LogState.init "orders" 0 smallConfig)
    rotatingAppends).isSome = true by decide +kernel)
  refine ⟨tr, htr, append_fetch_exact plainCrates_lawful smallConfig (run_of_trace htr)
    (eachStep_of_trace htr ?_) (eachStep_of_trace htr ?_)⟩
  · simp [rotatingAppends, LogEvent.isAppend]
  · intro e he s t
    refine fitting_plain ?_
    revert e
    decide

/-! ## Across restarts -/

/-- Every `LogSegment::read` returns the message with the offset when the segment holds it, and
refuses the offset otherwise; every acknowledged offset is held by some segment. -/
def ReadExact (K : Crates) (topicName : String) (partitionId : Nat) (s : LogState) : Prop :=
  ∃ p, s.partition = some p ∧
    (∀ sg ∈ p.segments, ∀ offset,
      (sg.baseOffset ≤ offset → offset < sg.nextOffset → ∃ r, sg.read K s.dir offset = .ok r ∧
        (referenceFrom topicName partitionId 0 s.messages)[offset]? = some (p.toRecord r)) ∧
      (offset < sg.baseOffset ∨ sg.nextOffset ≤ offset →
        sg.read K s.dir offset = .error (.error (.invalidOffset offset)))) ∧
    ∀ offset, offset < s.messages.length →
      ∃ sg ∈ p.segments, sg.baseOffset ≤ offset ∧ offset < sg.nextOffset

/-- Fetches and reads are exact, and the directory opens. -/
def Faithful (K : Crates) (topicName : String) (partitionId : Nat) (s : LogState) : Prop :=
  FetchExact K topicName partitionId s ∧ ReadExact K topicName partitionId s ∧
    Reopens K topicName partitionId s

theorem Kept.faithful {s : LogState} {p : Partition} {hs : List (Held K)}
    (h : Kept K topicName partitionId s p hs) : Faithful K topicName partitionId s := by
  refine ⟨⟨p, h.partition, h.fetch⟩, ⟨p, h.partition, fun sg hsg o => h.read hsg o,
    fun o ho => h.covered ho⟩, fun config listing hl => ?_⟩
  obtain ⟨p', hp', -⟩ := h.reopen config hl
  exact ⟨p', hp'⟩

/-- **Log fidelity across restarts** holds in every state of a run without crashes exactly when
every append of the run is cursor-safe. -/
theorem reopen_faithful_iff (hK : K.Lawful) (config : SegmentConfig)
    {tr : List (LogEvent × LogState)}
    (hrun : Run (Steps (LogState.next K topicName partitionId))
      (LogState.init topicName partitionId config) tr)
    (hcrash : EachStep (fun _ e _ => ¬ e.isCrash) (LogState.init topicName partitionId config) tr)
    (hfit : EachStep (Fitting K) (LogState.init topicName partitionId config) tr) :
    Throughout (Faithful K topicName partitionId)
        (LogState.init topicName partitionId config) tr ↔
      EachStep CursorSafe (LogState.init topicName partitionId config) tr := by
  refine throughout_iff (I := fun s => ∃ p hs, Kept K topicName partitionId s p hs)
    ?_ (fun s ⟨p, hs, h⟩ => h.faithful) ?_ ⟨_, _, kept_init config⟩
    (hrun.and (hcrash.and hfit))
  · rintro s e t ⟨p, hs, h⟩ ⟨hstep, hc, hf⟩ hsafe
    exact h.step hK hstep hf hc hsafe
  · -- an unsafe append leaves a record that cannot be read
    rintro s e t ⟨p, hs, h⟩ ⟨hstep, hc, hf⟩ ⟨-, ⟨q, hq, hread, -⟩, -⟩
    cases e with
    | append io batch =>
      obtain ⟨p', n, d, q', hp', happ, rfl⟩ := next_append hstep
      obtain rfl := Option.some_inj.1 (h.partition.symm.trans hp')
      obtain rfl := Option.some_inj.1 hq
      by_contra hbad
      obtain ⟨sg, hsg, hlo, hhi, hpanic⟩ := h.append_unsafe hK (hf _ hp') happ hbad
      obtain ⟨r, hr, -⟩ := (hread sg hsg _).1 hlo hhi
      rw [hpanic] at hr
      cases hr
    | _ => trivial

/-- Two records, a reopen, and two more: the second index entry lands on the first one. -/
def reopenedAppends : List LogEvent :=
  [.append .done [oneByte 1, oneByte 2], .reopen denseConfig [logPath 0, indexPath 0],
    .append .done [oneByte 3, oneByte 4]]

theorem trace_reopenedAppends :
    ∃ tr, trace (LogState.next plainCrates "orders" 0) (LogState.init "orders" 0 denseConfig)
        reopenedAppends = some tr ∧
      EachStep (fun _ e _ => ¬ e.isCrash) (LogState.init "orders" 0 denseConfig) tr ∧
      EachStep (Fitting plainCrates) (LogState.init "orders" 0 denseConfig) tr ∧
      ((last (LogState.init "orders" 0 denseConfig) tr).partition.map fun p =>
        p.segments.map fun sg => (sg.nextOffset, sg.read plainCrates
          (last (LogState.init "orders" 0 denseConfig) tr).dir 3)) =
        some [(4, .error (.panic "range end index out of range for slice"))] := by
  obtain ⟨tr, htr, hlast⟩ := Option.map_eq_some_iff.1 (show (trace
    (LogState.next plainCrates "orders" 0) (LogState.init "orders" 0 denseConfig)
    reopenedAppends).map (fun tr =>
      (last (LogState.init "orders" 0 denseConfig) tr).partition.map fun p =>
        p.segments.map fun sg => (sg.nextOffset, sg.read plainCrates
          (last (LogState.init "orders" 0 denseConfig) tr).dir 3)) =
        some (some [(4, .error (.panic "range end index out of range for slice"))]) by
    decide +kernel)
  refine ⟨tr, htr, eachStep_of_trace htr ?_, eachStep_of_trace htr ?_, hlast⟩
  · simp [reopenedAppends, LogEvent.isCrash]
  · intro e he s t
    refine fitting_plain ?_
    revert e
    decide

theorem reopen_faithful_iff_reopened :
    ∃ tr, trace (LogState.next plainCrates "orders" 0) (LogState.init "orders" 0 denseConfig)
        reopenedAppends = some tr ∧
      (Throughout (Faithful plainCrates "orders" 0) (LogState.init "orders" 0 denseConfig) tr ↔
        EachStep CursorSafe (LogState.init "orders" 0 denseConfig) tr) := by
  obtain ⟨tr, htr, hcrash, hfit, -⟩ := trace_reopenedAppends
  exact ⟨tr, htr, reopen_faithful_iff plainCrates_lawful denseConfig (run_of_trace htr) hcrash hfit⟩

/-- Fidelity across restarts fails: after two records, a reopen and two more records, reading the
last one panics. -/
theorem reopen_unfaithful : ¬ ∀ tr : List (LogEvent × LogState),
    Run (Steps (LogState.next plainCrates "orders" 0)) (LogState.init "orders" 0 denseConfig) tr →
    EachStep (fun _ e _ => ¬ e.isCrash) (LogState.init "orders" 0 denseConfig) tr →
    EachStep (Fitting plainCrates) (LogState.init "orders" 0 denseConfig) tr →
    Throughout (Faithful plainCrates "orders" 0) (LogState.init "orders" 0 denseConfig) tr := by
  intro h
  obtain ⟨tr, htr, hcrash, hfit, hread⟩ := trace_reopenedAppends
  obtain ⟨-, ⟨p, hp, hexact, hcover⟩, -⟩ := (h tr (run_of_trace htr) hcrash hfit).at_last
  rw [hp, Option.map_some, Option.some_inj] at hread
  obtain ⟨sg, hsegs, hsg⟩ := List.map_eq_singleton_iff.1 hread
  obtain ⟨hnext, hpanic⟩ := Prod.mk.inj hsg
  have hmem : sg ∈ p.segments := by rw [hsegs]; exact List.mem_singleton.2 rfl
  by_cases hb : sg.baseOffset ≤ 3
  · obtain ⟨r, hr, -⟩ := (hexact sg hmem 3).1 hb (by omega)
    rw [hpanic] at hr
    cases hr
  · have := (hexact sg hmem 3).2 (.inl (by omega))
    rw [hpanic] at this
    cases this

end Gaffa
