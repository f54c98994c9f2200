import Gaffa.Storage.FailedAppend
import Gaffa.Storage.LogRun

/-!
# Runs of a segment whose appends may fail

A segment and its directory as a transition system: appends, whatever the file system answers, and
reopens.  `acked` keeps what the successful appends were given and answered.

* `failed_append_harmless`: in every run whose failed appends were refused before a byte of the log
  was written, a failed append moves no counter, and in every state each read returns exactly the
  acknowledged messages.
* `failed_append_harms`: an append that fails behind its first byte does not.
-/

set_option autoImplicit false

namespace Gaffa

open ByteString DiskRecord OffsetIndex Transition

variable {K : Crates}

/-! ## The system -/

/-- The directory, the open segment, and the acknowledged batches with the offsets that `append`
reported. -/
structure SegmentState where
  dir : Dir
  segment : LogSegment
  acked : List (Nat × List Message)

inductive SegmentEvent where
  | append (io : LogSegment.AppendIo) (batch : List Message)
  | reopen (config : SegmentConfig)

/-- The batch that an event writes. -/
def SegmentEvent.batch : SegmentEvent → List Message
  | .append _ batch => batch
  | .reopen _ => []

namespace SegmentState

/-- All acknowledged messages, in order. -/
def messages (s : SegmentState) : List Message := s.acked.flatMap Prod.snd

/-- `LogSegment::create` in a directory. -/
def init (base : Nat) (config : SegmentConfig) (d : Dir) : SegmentState :=
  ⟨(LogSegment.create base config d).1, (LogSegment.create base config d).2, []⟩

/-- The steps of a run: an append leaves what it leaves, and is acknowledged if it succeeds. -/
def next (K : Crates) (s : SegmentState) : SegmentEvent → Option SegmentState
  | .append io batch =>
    match LogSegment.append K io batch s.dir s.segment with
    | (.ok baseOffset, d, segment) => some ⟨d, segment, s.acked ++ [(baseOffset, batch)]⟩
    | (.error _, d, segment) => some ⟨d, segment, s.acked⟩
  | .reopen config =>
    match LogSegment.open_ K s.segment.baseOffset config s.dir with
    | .ok segment => some ⟨s.dir, segment, s.acked⟩
    | .error _ => none

end SegmentState

/-! ## What is claimed -/

/-- Every read returns exactly the acknowledged messages, at the offsets that were reported. -/
structure ReadsBack (K : Crates) (base : Nat) (s : SegmentState) : Prop where
  next : s.segment.nextOffset = base + s.messages.length
  reported : ∀ a ∈ s.acked, ∃ k, a.1 = base + k ∧ (s.messages.drop k).take a.2.length = a.2
  read : ∀ i m, s.messages[i]? = some m → ∃ r, s.segment.read K s.dir (base + i) = .ok r ∧
    r.offset = base + i ∧ r.toMessage = m
  readBatch : ∀ i count, ∃ rs, s.segment.readBatch K s.dir (base + i) count = .ok rs ∧
    Numbered (base + i) rs ∧ rs.map DiskRecord.toMessage = (s.messages.drop i).take count

/-- The append of an event fails. -/
def Fails (K : Crates) (s : SegmentState) : SegmentEvent → Prop
  | .append io batch => (LogSegment.append K io batch s.dir s.segment).1.isOk = false
  | .reopen _ => False

/-- A failed append moves neither the next offset nor the size. -/
def Unmoved (K : Crates) (s : SegmentState) (e : SegmentEvent) (t : SegmentState) : Prop :=
  Fails K s e → t.segment.nextOffset = s.segment.nextOffset ∧ t.segment.size = s.segment.size

/-- The messages fit their length fields. -/
def BatchFits (K : Crates) (s : SegmentState) (e : SegmentEvent) (_ : SegmentState) : Prop :=
  ∀ m ∈ e.batch, Fits K s.segment.config.compression m

/-- An append that fails has no message or was refused before a byte of the log was written. -/
def RefusedWhole (K : Crates) (s : SegmentState) (e : SegmentEvent) (_ : SegmentState) : Prop :=
  match e with
  | .append io batch => Fails K s (.append io batch) →
      ∀ m, batch.head? = some m → Refuses K io m s.segment
  | .reopen _ => True

/-- An index entry that is due goes behind the ones that the handle counts. -/
def InPlace (s : SegmentState) (e : SegmentEvent) (_ : SegmentState) : Prop :=
  match e with
  | .append _ batch => s.segment.index.cursor = indexEntrySize * s.segment.index.size ∨
      s.segment.recordsSinceIndex + batch.length ≤ s.segment.config.indexInterval
  | .reopen _ => True

instance (K : Crates) (s : SegmentState) : ∀ e, Decidable (Fails K s e)
  | .append io batch =>
    inferInstanceAs (Decidable ((LogSegment.append K io batch s.dir s.segment).1.isOk = false))
  | .reopen _ => isFalse id

instance (K : Crates) (s t : SegmentState) : ∀ e, Decidable (RefusedWhole K s e t)
  | .append io batch =>
    inferInstanceAs (Decidable (Fails K s (.append io batch) →
      ∀ m, batch.head? = some m → Refuses K io m s.segment))
  | .reopen _ => isTrue trivial

instance (s t : SegmentState) : ∀ e, Decidable (InPlace s e t)
  | .append _ _ => inferInstanceAs (Decidable (_ ∨ _))
  | .reopen _ => isTrue trivial

/-! ## The invariant -/

/-- The segment agrees with a log of whole records, which carry the acknowledged messages. -/
structure Carries (K : Crates) (base : Nat) (s : SegmentState) (v : LogView K) : Prop where
  backed : Backed K s.dir v s.segment
  clean : Clean s.dir v s.segment
  starts : v.base = base
  messages : v.records.map DiskRecord.toMessage = s.messages
  reported : ∀ a ∈ s.acked, ∃ k, a.1 = base + k ∧ (s.messages.drop k).take a.2.length = a.2

section Carries

variable {base : Nat} {s t : SegmentState} {v : LogView K}

theorem Carries.next (h : Carries K base s v) :
    s.segment.nextOffset = base + s.messages.length := by
  rw [h.backed.next, LogView.next_of_whole h.clean.whole, h.starts, ← h.messages, List.length_map]

/-- **What the invariant gives**: every read returns the acknowledged messages. -/
theorem Carries.readsBack (h : Carries K base s v) : ReadsBack K base s := by
  refine ⟨h.next, h.reported, ?_, ?_⟩
  · intro i m hi
    have hlen : i < v.records.length := by
      have := (List.getElem?_eq_some_iff.1 hi).1
      rwa [← h.messages, List.length_map] at this
    obtain ⟨r, hr, hread⟩ := read_spec (o := base + i) h.backed (by rw [h.starts]; omega)
      (by rw [h.starts]; omega)
    rw [h.starts, Nat.add_sub_cancel_left] at hr
    refine ⟨r, hread, ?_, ?_⟩
    · rw [← h.starts]
      exact v.numbered.offset hr
    · rw [← h.messages, List.getElem?_map, hr] at hi
      exact Option.some_inj.1 hi
  · intro i count
    refine ⟨_, readBatch_spec h.backed count (by rw [h.starts]; omega), ?_, ?_⟩
    · have hnum := (v.numbered.drop (base + i - v.base)).take count
      rwa [h.starts, Nat.add_sub_cancel_left] at hnum ⊢
    · rw [h.starts, Nat.add_sub_cancel_left, List.map_take, List.map_drop, h.messages]

/-- **A successful append** goes on from the invariant. -/
theorem Carries.append_ok (hK : K.Lawful) (h : Carries K base s v) {io : LogSegment.AppendIo}
    {batch : List Message} (hfit : ∀ m ∈ batch, Fits K s.segment.config.compression m)
    (hplace : InPlace s (.append io batch) t) {n : Nat} {d : Dir} {segment : LogSegment}
    (happ : LogSegment.append K io batch s.dir s.segment = (.ok n, d, segment)) :
    ∃ v', Carries K base ⟨d, segment, s.acked ++ [(n, batch)]⟩ v' := by
  obtain ⟨v', hbase, -, hrecords, hbacked, hclean⟩ := append_backed hK h.backed h.clean.whole
    hfit hplace (h.clean.consistent _ _) happ
  have hmessages : (s.acked ++ [(n, batch)]).flatMap Prod.snd = s.messages ++ batch := by
    simp [SegmentState.messages]
  refine ⟨v', hbacked, hclean h.clean, hbase.trans h.starts, ?_, ?_⟩
  · rw [hrecords, List.map_append, h.messages, map_toMessage_batchRecords]
    exact hmessages.symm
  · intro a ha
    show ∃ k, a.1 = base + k ∧ (((s.acked ++ [(n, batch)]).flatMap Prod.snd).drop k).take
      a.2.length = a.2
    rw [hmessages]
    rcases List.mem_append.1 ha with ha | ha
    · obtain ⟨k, hk, htake⟩ := h.reported a ha
      refine ⟨k, hk, ?_⟩
      have hlen := congrArg List.length htake
      rw [List.length_take] at hlen
      rw [List.drop_append, List.take_append_of_le_length (by omega), htake]
    · obtain rfl := List.mem_singleton.1 ha
      refine ⟨s.messages.length, ?_, by simp⟩
      rw [← h.next]
      exact (Gaffa.append_ok happ).2.1

/-- **A refused append** leaves everything as it was. -/
theorem Carries.refused (h : Carries K base s v) {io : LogSegment.AppendIo} {m : Message}
    (hr : Refuses K io m s.segment) (ms : List Message) :
    ∃ e, LogSegment.append K io (m :: ms) s.dir s.segment =
      (.error (.error e), s.dir, s.segment) := by
  obtain ⟨e, d', heq, rfl | rfl⟩ := hr.append_eq ms s.dir
  · exact ⟨e, heq⟩
  · refine ⟨e, ?_⟩
    rw [heq, appendDir_start]
    · rw [h.backed.base]; exact ⟨_, h.backed.log⟩
    · rw [h.backed.base]; exact ⟨_, h.backed.index⟩

/-- **A reopen** finds the same records. -/
theorem Carries.reopen (h : Carries K base s v) {config : SegmentConfig} {segment : LogSegment}
    (hopen : LogSegment.open_ K s.segment.baseOffset config s.dir = .ok segment) :
    Carries K base ⟨s.dir, segment, s.acked⟩ v := by
  obtain ⟨hok, hbacked⟩ := open_spec config h.backed.toStored
  rw [h.backed.base, hok] at hopen
  cases hopen
  have hsize : (openedSegment s.dir v config).index.size = s.segment.index.size :=
    Nat.div_eq_of_eq_mul_right (by decide) h.clean.count
  exact ⟨hbacked, ⟨h.clean.whole, by rw [hsize]; exact h.clean.count,
    by rw [hsize]; exact h.clean.written⟩, h.starts, h.messages, h.reported⟩

/-- **One step** under the conditions keeps the invariant, and a failed append changes nothing. -/
theorem Carries.step (hK : K.Lawful) (h : Carries K base s v) {e : SegmentEvent}
    (hstep : Steps (SegmentState.next K) s e t) (hfit : BatchFits K s e t)
    (hrefused : RefusedWhole K s e t) (hplace : InPlace s e t) :
    (∃ v', Carries K base t v') ∧ Unmoved K s e t := by
  unfold Steps at hstep
  cases e with
  | reopen config =>
    unfold SegmentState.next at hstep
    simp only at hstep
    split at hstep
    · rename_i segment hopen
      cases hstep
      exact ⟨⟨v, h.reopen hopen⟩, fun hfails => absurd hfails id⟩
    · cases hstep
  | append io batch =>
    cases happ : LogSegment.append K io batch s.dir s.segment with
    | mk out rest =>
    unfold SegmentState.next at hstep
    simp only [happ] at hstep
    cases out with
    | ok n =>
      cases hstep
      refine ⟨h.append_ok hK hfit hplace happ, fun hfails => ?_⟩
      have herror : (LogSegment.append K io batch s.dir s.segment).1.isOk = false := hfails
      rw [happ] at herror
      cases herror
    | error e =>
      cases hstep
      have hsame : rest = (s.dir, s.segment) := by
        cases batch with
        | nil =>
          have hempty : LogSegment.append K io [] s.dir s.segment =
            (.error (.error (.invalidMessage "No messages to append")), s.dir, s.segment) := rfl
          rw [hempty] at happ
          exact (Prod.mk.inj happ).2.symm
        | cons m ms =>
          have hfails : (LogSegment.append K io (m :: ms) s.dir s.segment).1.isOk = false := by
            rw [happ]
            rfl
          obtain ⟨e', heq⟩ := h.refused (hrefused hfails m rfl) ms
          rw [heq] at happ
          exact (Prod.mk.inj happ).2.symm
      subst hsame
      exact ⟨⟨v, h⟩, fun _ => ⟨rfl, rfl⟩⟩

/-- A segment that was just created, where its files did not exist. -/
theorem carries_init {d : Dir} (hbase : base < 2 ^ 64) (config : SegmentConfig)
    (hlog : d.get (logPath base) = none) (hindex : d.get (indexPath base) = none) :
    Carries K base (SegmentState.init base config d) (LogView.empty K base) := by
  have hdir : (LogSegment.create base config d).1 = withFiles d base := by
    have hindex' : (d.insert (logPath base) []).get (indexPath base) = none := by
      rw [Table.get_insert_ne _ (logPath_ne_indexPath _ _).symm, hindex]
    simp only [LogSegment.create, touch, hlog, hindex']
    rfl
  have hstored : Stored K (withFiles d base) (LogView.empty K base) :=
    stored_withFiles d hbase
  refine ⟨?_, ?_, rfl, rfl, fun a ha => absurd ha List.not_mem_nil⟩
  · show Backed K (LogSegment.create base config d).1 (LogView.empty K base)
      (createdSegment config base)
    rw [hdir]
    exact backed_created config hstored rfl
  · show Clean (LogSegment.create base config d).1 (LogView.empty K base)
      (createdSegment config base)
    rw [hdir]
    refine ⟨rfl, ?_, fun i hi => absurd hi (Nat.not_lt_zero i)⟩
    exact congrArg List.length (indexFile_withFiles d (LogView.empty K base))

end Carries

/-! ## Runs -/

/-- **Failed appends do no harm** in a run whose failed appends were refused before a byte of the
log was written: the counters do not move, and every read of every state returns exactly the
acknowledged messages. -/
theorem failed_append_harmless (hK : K.Lawful) {base : Nat} (hbase : base < 2 ^ 64)
    {config : SegmentConfig} {d : Dir} (hlog : d.get (logPath base) = none)
    (hindex : d.get (indexPath base) = none) {tr : List (SegmentEvent × SegmentState)}
    (hrun : Run (Steps (SegmentState.next K)) (SegmentState.init base config d) tr)
    (hfit : EachStep (BatchFits K) (SegmentState.init base config d) tr)
    (hplace : EachStep InPlace (SegmentState.init base config d) tr)
    (hrefused : EachStep (RefusedWhole K) (SegmentState.init base config d) tr) :
    EachStep (Unmoved K) (SegmentState.init base config d) tr ∧
      Throughout (ReadsBack K base) (SegmentState.init base config d) tr := by
  let I : SegmentState → Prop := fun s => ∃ v, Carries K base s v
  have hinit : I (SegmentState.init base config d) := ⟨_, carries_init hbase config hlog hindex⟩
  have hcond := hfit.and (hplace.and hrefused)
  constructor
  · exact eachStep_of_invariant (I := I)
      (fun _ _ _ ⟨_, h⟩ hstep hp => (h.step hK hstep hp.1 hp.2.2 hp.2.1).1)
      (fun _ _ _ ⟨_, h⟩ hstep hp => (h.step hK hstep hp.1 hp.2.2 hp.2.1).2) hinit hrun hcond
  · exact Throughout.mono (fun _ ⟨_, h⟩ => h.readsBack)
      (throughout_of_invariant (I := I)
        (fun _ _ _ ⟨_, h⟩ hstep hp => (h.step hK hstep hp.1 hp.2.2 hp.2.1).1) hinit hrun hcond)

theorem batchFits_plain {s t : SegmentState} {e : SegmentEvent}
    (h : ∀ m ∈ e.batch, m.key = none ∧ m.value.length < 2 ^ 31) : BatchFits plainCrates s e t := by
  intro m hm
  obtain ⟨hkey, hvalue⟩ := h m hm
  refine fits_plain _ (by rw [hkey]; simp) ?_
  rw [hkey]
  simp only [Option.elim_none]
  omega

/-- A file system whose first write of the log fails behind `written` bytes. -/
def diskFull (written : Nat) : LogSegment.AppendIo :=
  { LogSegment.AppendIo.done with
    record := fun _ => ⟨some (written, "No space left on device (os error 28)"), .done⟩ }

/-- A record, a refused one, another record, a reopen, and one more. -/
def refusedRun : List SegmentEvent :=
  [.append .done [oneByte 1], .append (diskFull 0) [oneByte 2], .append .done [oneByte 3],
    .reopen smallConfig, .append .done [oneByte 4]]

theorem failed_append_harmless_refused :
    ∃ tr, trace (SegmentState.next plainCrates) (SegmentState.init 0 smallConfig Table.empty)
        refusedRun = some tr ∧
      Throughout (ReadsBack plainCrates 0) (SegmentState.init 0 smallConfig Table.empty) tr := by
  obtain ⟨tr, htr, hcond⟩ := Option.map_eq_some_iff.1 (show (trace
    (SegmentState.next plainCrates) (SegmentState.init 0 smallConfig Table.empty)
    refusedRun).map (fun tr => decide
      (EachStep (RefusedWhole plainCrates) (SegmentState.init 0 smallConfig Table.empty) tr ∧
        EachStep InPlace (SegmentState.init 0 smallConfig Table.empty) tr)) =
    some true by decide +kernel)
  obtain ⟨hrefused, hplace⟩ := of_decide_eq_true hcond
  have hfit : EachStep (BatchFits plainCrates)
      (SegmentState.init 0 smallConfig Table.empty) tr :=
    eachStep_of_trace htr fun e he s t => batchFits_plain (by revert e; decide)
  exact ⟨tr, htr, (failed_append_harmless plainCrates_lawful (by decide) rfl rfl (run_of_trace htr)
    hfit hplace hrefused).2⟩

/-- A record, one whose write breaks off behind five bytes, and another record. -/
def tornRun : List SegmentEvent :=
  [.append .done [oneByte 1], .append (diskFull 5) [oneByte 2], .append .done [oneByte 3]]

/-- An append that fails behind its first bytes does harm: to read the message that is acknowledged
after it panics. -/
theorem failed_append_harms :
    (trace (SegmentState.next plainCrates) (SegmentState.init 0 smallConfig Table.empty)
        tornRun).map (fun tr =>
      let s := last (SegmentState.init 0 smallConfig Table.empty) tr
      (s.acked, s.segment.read plainCrates s.dir 1)) =
      some ([(0, [oneByte 1]), (1, [oneByte 3])],
        .error (.panic "attempt to subtract with overflow")) ∧
    ¬ ∀ tr : List (SegmentEvent × SegmentState),
      Run (Steps (SegmentState.next plainCrates)) (SegmentState.init 0 smallConfig Table.empty) tr →
      EachStep (BatchFits plainCrates) (SegmentState.init 0 smallConfig Table.empty) tr →
      EachStep InPlace (SegmentState.init 0 smallConfig Table.empty) tr →
      EachStep (Unmoved plainCrates) (SegmentState.init 0 smallConfig Table.empty) tr ∧
        Throughout (ReadsBack plainCrates 0) (SegmentState.init 0 smallConfig Table.empty) tr := by
  have hread : (trace (SegmentState.next plainCrates)
      (SegmentState.init 0 smallConfig Table.empty) tornRun).map (fun tr =>
        let s := last (SegmentState.init 0 smallConfig Table.empty) tr
        (s.acked, s.segment.read plainCrates s.dir 1)) =
      some ([(0, [oneByte 1]), (1, [oneByte 3])],
        .error (.panic "attempt to subtract with overflow")) := by decide +kernel
  refine ⟨hread, fun h => ?_⟩
  obtain ⟨tr, htr, hlast⟩ := Option.map_eq_some_iff.1 hread
  obtain ⟨hacked, hpanic⟩ := Prod.mk.inj hlast
  have hplace : EachStep InPlace (SegmentState.init 0 smallConfig Table.empty) tr := by
    refine of_decide_eq_true (Option.some_inj.1 ?_)
    rw [← Option.map_some (f := fun tr =>
      decide (EachStep InPlace (SegmentState.init 0 smallConfig Table.empty) tr)), ← htr]
    decide +kernel
  have hfit : EachStep (BatchFits plainCrates)
      (SegmentState.init 0 smallConfig Table.empty) tr :=
    eachStep_of_trace htr fun e he s t => batchFits_plain (by revert e; decide)
  have hreads := (h tr (run_of_trace htr) hfit hplace).2.at_last
  obtain ⟨r, hr, -⟩ := hreads.read 1 (oneByte 3) (by rw [SegmentState.messages, hacked]; rfl)
  rw [hpanic] at hr
  cases hr

end Gaffa
