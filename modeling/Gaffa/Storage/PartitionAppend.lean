import Gaffa.Storage.PartitionSpec

/-!
# Rotation and append keep a partition in agreement with its directory

* `rotate_spec`: a rotation adds a handle, and files for it when the active segment is not empty.
* `append_last`: an append to the last segment extends the last view and touches no other.
-/

set_option autoImplicit false

namespace Gaffa

open ByteString DiskRecord OffsetIndex

variable {K : Crates}

/-! ## Frames -/

/-- The two files of a base offset are the same in both directories. -/
def SameFiles (d d' : Dir) (b : Nat) : Prop :=
  d'.get (logPath b) = d.get (logPath b) ∧ d'.get (indexPath b) = d.get (indexPath b)

section Frame

variable {d d' : Dir} {v : LogView K} {s : LogSegment}

theorem SameFiles.indexFile (hd : SameFiles d d' v.base) : indexFile d' v = indexFile d v := by
  rw [Gaffa.indexFile, content, hd.2]
  rfl

theorem Stored.frame (h : Stored K d v) (hd : SameFiles d d' v.base) : Stored K d' v := by
  obtain ⟨hlog, hindex, hnext, hsize, haligned, htruthful⟩ := h
  rw [← hd.indexFile] at hindex haligned htruthful
  exact ⟨hd.1.trans hlog, hd.2.trans hindex, hnext, hsize, haligned, htruthful⟩

theorem Backed.frame (h : Backed K d v s) (hd : SameFiles d d' v.base) : Backed K d' v s := by
  refine ⟨h.toStored.frame hd, h.base, h.next, h.size, h.mmap, h.cursor, ?_, ?_, ?_⟩
  all_goals rw [hd.indexFile]
  · exact h.cursor_le
  · exact h.count_le
  · exact h.map

theorem Clean.frame (h : Clean d v s) (hd : SameFiles d d' v.base) : Clean d' v s := by
  refine ⟨h.whole, ?_, ?_⟩
  all_goals rw [hd.indexFile]
  · exact h.count
  · exact h.written

theorem Held.Ok.frame {config : SegmentConfig} {h : Held K} (ho : h.Ok K config d)
    (hd : SameFiles d d' h.view.base) : h.Ok K config d' :=
  ⟨ho.backed.frame hd, ho.config, ho.stale⟩

/-- The files of one base offset are the last two written; those of others stay. -/
theorem sameFiles_insert {b c : Nat} (log index : Bytes) (h : c ≠ b) :
    SameFiles d ((d.insert (logPath b) log).insert (indexPath b) index) c := by
  constructor
  · rw [Table.get_insert_ne _ (logPath_ne_indexPath _ _),
      Table.get_insert_ne _ (by rwa [ne_eq, logPath_inj])]
  · rw [Table.get_insert_ne _ (by rwa [ne_eq, indexPath_inj]),
      Table.get_insert_ne _ (logPath_ne_indexPath _ _).symm]

end Frame

/-! ## Partitions that no crash has touched -/

/-- Every segment is clean, and only the first offset has superseded handles. -/
def Pristine (d : Dir) (hs : List (Held K)) : Prop :=
  ∀ h ∈ hs, Clean d h.view h.segment ∧ (h.stale ≠ [] → h.view.base = 0)

/-- Only the segment of the first offset may be empty. -/
def Filled (hs : List (Held K)) : Prop := ∀ h ∈ hs, h.view.records = [] → h.view.base = 0

/-- Every index handle writes where it counts. -/
def Straight (hs : List (Held K)) : Prop :=
  ∀ h ∈ hs, h.segment.index.cursor = indexEntrySize * h.segment.index.size

/-! ## Rotation -/

theorem touch_of_get {d : Dir} {name : FileName} {bs : Bytes} (h : d.get name = some bs) :
    touch name d = d := by rw [touch, h]

theorem touch_of_none {d : Dir} {name : FileName} (h : d.get name = none) :
    touch name d = d.insert name [] := by rw [touch, h]

theorem get_touch (name : FileName) (d : Dir) (file : FileName) :
    (touch name d).get file =
      if file = name then some ((d.get name).getD []) else d.get file := by
  cases hget : d.get name with
  | none =>
    rw [touch_of_none hget, Table.get_insert]
    rfl
  | some bytes =>
    rw [touch_of_get hget]
    split
    · rename_i h
      rw [h, hget]
      rfl
    · rfl

theorem OnDisk.base_le_last {d : Dir} {vs : List (LogView K)} {v : LogView K}
    (h : OnDisk K d (vs ++ [v])) : ∀ w ∈ vs, w.base < v.base := fun w hw =>
  ((List.pairwise_append.1 h.linked.pairwise).2.2 w hw v (List.mem_singleton.2 rfl)).2

theorem Open.getLast? {d : Dir} {p : Partition} {init : List (Held K)} {g : Held K}
    (h : Open K d p (init ++ [g])) : p.segments.getLast? = some g.segment := by
  rw [h.segments]
  simp [Held.segments]

/-- The handle that `LogSegment::create` gives. -/
def createdSegment (config : SegmentConfig) (b : Nat) : LogSegment :=
  ⟨b, config, none, OffsetIndex.create, 0, b, 0⟩

section Rotate

variable {d d' : Dir} {p p' : Partition} {hs init : List (Held K)} {g : Held K}
  {active : LogSegment} {io : CreateIo}

/-- **What a rotation does** if it succeeds: it creates the next segment behind a full one. -/
theorem rotate_ok (hrot : Partition.rotate io d p = (.ok active, d', p')) :
    ∃ last, p.segments.getLast? = some last ∧
      ((last.shouldRotate = true ∧ io = .done ∧
          LogSegment.create last.nextOffset p.config d = (d', active) ∧
          p' = { p with segments := p.segments ++ [active] }) ∨
        (last.shouldRotate = false ∧ active = last ∧ d' = d ∧ p' = p)) := by
  unfold Partition.rotate at hrot
  cases hlast : p.segments.getLast? with
  | none =>
    rw [hlast] at hrot
    cases hrot
  | some last =>
    rw [hlast] at hrot
    refine ⟨last, rfl, ?_⟩
    cases hfull : last.shouldRotate with
    | false =>
      simp only [hfull, Bool.false_eq_true, if_false] at hrot
      cases hrot
      exact Or.inr ⟨rfl, rfl, rfl, rfl⟩
    | true =>
      simp only [hfull, if_true] at hrot
      cases io with
      | logFails e => cases hrot
      | indexFails e => cases hrot
      | done =>
        cases hrot
        exact Or.inl ⟨rfl, rfl, rfl, rfl⟩

/-- A second handle on the files of an empty view. -/
theorem backed_created {v : LogView K} (config : SegmentConfig) (h : Stored K d v)
    (hv : v.next = v.base) : Backed K d v (createdSegment config v.base) := by
  have hb := LogView.bytes_of_next_eq_base hv
  refine ⟨h, rfl, hv.symm, by rw [hb]; rfl, by rw [hb]; rfl, Dvd.intro 0 rfl, Nat.zero_le _,
    Nat.zero_le _, .inl rfl⟩

/-- The index file of an empty clean segment is empty. -/
theorem clean_created {v : LogView K} {s : LogSegment} (config : SegmentConfig)
    (h : Backed K d v s) (hc : Clean d v s) (hv : v.next = v.base) :
    Clean d v (createdSegment config v.base) := by
  have h0 : s.index.size = 0 := by
    by_contra hne
    have hw := hc.written 0 (by omega)
    have := (h.truthful 0 (by
      rw [hc.count]
      exact Nat.mul_le_mul_left _ (by omega)) (.inl hw)).1
    omega
  refine ⟨hc.whole, by rw [hc.count, h0]; rfl, fun i hi => absurd hi (Nat.not_lt_zero i)⟩

/-- A rotation while the active segment is empty. -/
theorem rotate_stale (h : Open K d p (init ++ [g])) (hv : g.view.next = g.view.base) :
    Open K d { p with segments := p.segments ++ [createdSegment p.config g.view.base] }
      (init ++ [⟨g.stale ++ [g.segment], createdSegment p.config g.view.base, g.view⟩]) := by
  have hg : g.Ok K p.config d := h.held g (by simp)
  refine ⟨by simpa using h.disk, ?_, fun k hk => ?_⟩
  · simp [h.segments, Held.segments]
  · rcases List.mem_append.1 hk with hk | hk
    · exact h.held k (by simp [hk])
    · obtain rfl := List.mem_singleton.1 hk
      refine ⟨backed_created p.config hg.backed.toStored hv, rfl, fun s hs => ?_⟩
      rcases List.mem_append.1 hs with hs | hs
      · exact hg.stale s hs
      · obtain rfl := List.mem_singleton.1 hs
        exact ⟨hg.backed.base, by rw [hg.backed.next]; exact hv⟩

/-- No view starts where the last one ends. -/
theorem OnDisk.base_ne_next {vs : List (LogView K)} {v : LogView K} (h : OnDisk K d (vs ++ [v]))
    (hv : v.base < v.next) : ∀ w ∈ vs ++ [v], w.base ≠ v.next := by
  intro w hw
  rcases List.mem_append.1 hw with hw | hw
  · have := h.base_le_last w hw
    omega
  · obtain rfl := List.mem_singleton.1 hw
    omega

/-- The files of the offset behind the last view do not exist. -/
theorem OnDisk.get_next {vs : List (LogView K)} {v : LogView K} (h : OnDisk K d (vs ++ [v]))
    (hv : v.base < v.next) :
    d.get (logPath v.next) = none ∧ d.get (indexPath v.next) = none := by
  constructor
  · refine Table.not_mem_keys_iff.1 fun hmem => ?_
    obtain ⟨w, hw, heq | heq⟩ := (h.names _).1 hmem
    · exact h.base_ne_next hv w hw (logPath_inj.1 heq).symm
    · exact logPath_ne_indexPath _ _ heq
  · refine Table.not_mem_keys_iff.1 fun hmem => ?_
    obtain ⟨w, hw, heq | heq⟩ := (h.names _).1 hmem
    · exact logPath_ne_indexPath _ _ heq.symm
    · exact h.base_ne_next hv w hw (indexPath_inj.1 heq).symm

/-- The directory with two new, empty files. -/
def withFiles (d : Dir) (b : Nat) : Dir := (d.insert (logPath b) []).insert (indexPath b) []

theorem indexFile_withFiles (d : Dir) (v : LogView K) : indexFile (withFiles d v.base) v = [] := by
  rw [indexFile, content, withFiles, Table.get_insert_self]
  rfl

theorem stored_withFiles (d : Dir) {b : Nat} (hb : b < 2 ^ 64) :
    Stored K (withFiles d b) (LogView.empty K b) := by
  have hix : indexFile (withFiles d b) (LogView.empty K b) = [] :=
    indexFile_withFiles d (LogView.empty K b)
  refine ⟨?_, ?_, hb, by simp [LogView.bytes, LogView.empty], ?_, ?_⟩
  · rw [withFiles, Table.get_insert_ne _ (logPath_ne_indexPath _ _)]
    exact Table.get_insert_self ..
  · exact hix ▸ Table.get_insert_self ..
  · exact hix ▸ Dvd.intro 0 rfl
  · intro i hi
    rw [hix] at hi
    exact absurd hi (by simp [indexEntrySize])

/-- New files behind the last view hold an empty one. -/
theorem OnDisk.snoc {vs : List (LogView K)} {v : LogView K} (h : OnDisk K d (vs ++ [v]))
    (hv : v.base < v.next) :
    OnDisk K (withFiles d v.next) (vs ++ [v] ++ [LogView.empty K v.next]) := by
  have hempty : Stored K (withFiles d v.next) (LogView.empty K v.next) :=
    stored_withFiles d (h.stored v (by simp)).next_lt
  refine ⟨by simp, h.linked.snoc rfl hv, fun w hw => ?_, fun name => ?_⟩
  · rcases List.mem_append.1 hw with hw | hw
    · exact (h.stored w hw).frame (sameFiles_insert _ _ (h.base_ne_next hv w hw))
    · obtain rfl := List.mem_singleton.1 hw
      exact hempty
  · rw [withFiles, Table.keys_insert, Finset.mem_insert, Table.keys_insert, Finset.mem_insert,
      h.names name]
    constructor
    · rintro (rfl | rfl | ⟨w, hw, hname⟩)
      · exact ⟨LogView.empty K v.next, by simp, .inr rfl⟩
      · exact ⟨LogView.empty K v.next, by simp, .inl rfl⟩
      · exact ⟨w, List.mem_append_left _ hw, hname⟩
    · rintro ⟨w, hw, hname⟩
      rcases List.mem_append.1 hw with hw | hw
      · exact .inr (.inr ⟨w, hw, hname⟩)
      · obtain rfl := List.mem_singleton.1 hw
        rcases hname with rfl | rfl
        · exact .inr (.inl rfl)
        · exact .inl rfl

/-- A rotation behind a segment that is not empty. -/
theorem rotate_fresh (h : Open K d p (init ++ [g])) (hv : g.view.base < g.view.next) :
    Open K (withFiles d g.view.next)
      { p with segments := p.segments ++ [createdSegment p.config g.view.next] }
      (init ++ [g] ++ [⟨[], createdSegment p.config g.view.next, LogView.empty K g.view.next⟩]) := by
  have hdisk := h.disk
  rw [List.map_append, List.map_singleton] at hdisk
  have hnew := hdisk.snoc hv
  refine ⟨by simpa using hnew, by simp [h.segments, Held.segments], fun k hk => ?_⟩
  rcases List.mem_append.1 hk with hk | hk
  · refine (h.held k hk).frame (sameFiles_insert _ _ (hdisk.base_ne_next hv _ ?_))
    simpa using List.mem_map_of_mem (f := Held.view) hk
  · obtain rfl := List.mem_singleton.1 hk
    exact ⟨backed_created p.config (hnew.stored _ (by simp)) rfl, rfl,
      fun s hs => absurd hs List.not_mem_nil⟩

/-- **The active segment of an append**, after a rotation if one was due. -/
theorem rotate_spec (h : Open K d p hs)
    (hrot : Partition.rotate io d p = (.ok active, d', p')) :
    ∃ init g, Open K d' p' (init ++ [g]) ∧ g.segment = active ∧ p'.config = p.config ∧
      p'.topicName = p.topicName ∧ p'.partitionId = p.partitionId ∧
      (∃ new, (init ++ [g]).map Held.view = hs.map Held.view ++ new ∧ ∀ v ∈ new, v.records = []) ∧
      (Pristine d hs → Filled hs → Pristine d' (init ++ [g]) ∧ Filled init) ∧
      (Straight hs → Straight (init ++ [g])) := by
  obtain ⟨init, g, rfl⟩ := List.eq_nil_or_concat'  hs |>.resolve_left h.ne_nil
  have hg : g.Ok K p.config d := h.held g (by simp)
  obtain ⟨last, hlast, hcases⟩ := rotate_ok hrot
  obtain rfl := Option.some_inj.1 (h.getLast?.symm.trans hlast)
  rcases hcases with ⟨-, -, hcreate, rfl⟩ | ⟨-, rfl, rfl, rfl⟩
  · rw [LogSegment.create, hg.backed.next] at hcreate
    obtain ⟨rfl, rfl⟩ := Prod.mk.inj hcreate
    rcases Nat.lt_or_ge g.view.base g.view.next with hv | hv
    · -- new files
      have hdisk := h.disk
      rw [List.map_append, List.map_singleton] at hdisk
      obtain ⟨hlog, hindex⟩ := hdisk.get_next hv
      rw [touch_of_none hlog, touch_of_none (by
        rw [Table.get_insert_ne _ (logPath_ne_indexPath _ _).symm]; exact hindex)]
      refine ⟨init ++ [g], _, rotate_fresh h hv, rfl, rfl, rfl, rfl,
        ⟨[LogView.empty K g.view.next], by simp, by simp [LogView.empty]⟩, ?_, ?_⟩
      · intro hp hf
        refine ⟨fun k hk => ?_, hf⟩
        rcases List.mem_append.1 hk with hk | hk
        · obtain ⟨hc, hs⟩ := hp k hk
          refine ⟨hc.frame (sameFiles_insert _ _ (hdisk.base_ne_next hv _ ?_)), hs⟩
          simpa using List.mem_map_of_mem (f := Held.view) hk
        · obtain rfl := List.mem_singleton.1 hk
          exact ⟨⟨rfl, congrArg List.length (indexFile_withFiles d (LogView.empty K g.view.next)),
            fun i hi => absurd hi (Nat.not_lt_zero i)⟩, fun hs => absurd rfl hs⟩
      · intro hst k hk
        rcases List.mem_append.1 hk with hk | hk
        · exact hst k hk
        · obtain rfl := List.mem_singleton.1 hk
          rfl
    · -- a second handle on the same files
      have hv : g.view.next = g.view.base := Nat.le_antisymm hv g.view.base_le_next
      rw [hv, touch_of_get hg.backed.log, touch_of_get hg.backed.index]
      refine ⟨init, _, rotate_stale h hv, rfl, rfl, rfl, rfl, ⟨[], by simp, by simp⟩, ?_, ?_⟩
      · intro hp hf
        refine ⟨fun k hk => ?_, fun k hk => hf k (by simp [hk])⟩
        rcases List.mem_append.1 hk with hk | hk
        · exact hp k (by simp [hk])
        · obtain rfl := List.mem_singleton.1 hk
          refine ⟨clean_created p.config hg.backed (hp g (by simp)).1 hv, fun _ => ?_⟩
          refine hf g (by simp) (List.eq_nil_of_length_eq_zero ?_)
          have := g.view.next_ge
          omega
      · intro hst k hk
        rcases List.mem_append.1 hk with hk | hk
        · exact hst k (by simp [hk])
        · obtain rfl := List.mem_singleton.1 hk
          rfl
  · exact ⟨init, g, h, rfl, rfl, rfl, rfl, ⟨[], by simp, by simp⟩,
      fun hp hf => ⟨hp, fun k hk => hf k (by simp [hk])⟩, fun hst => hst⟩

end Rotate

/-! ## Append -/

section Append

variable {d d' : Dir} {p p' : Partition} {init : List (Held K)} {g : Held K} {s' : LogSegment}
  {messages : List Message} {n : Nat}

theorem partition_append_ok {io : PartitionIo}
    (h : Partition.append K io messages d p = (.ok n, d', p')) :
    messages ≠ [] ∧ ∃ active d₁ p₁ s',
      Partition.rotate io.create d p = (.ok active, d₁, p₁) ∧
      LogSegment.append K io.append messages d₁ active = (.ok n, d', s') ∧
      p' = { p₁ with segments := p₁.segments.dropLast ++ [s'] } := by
  unfold Partition.append at h
  split at h
  · cases h
  rename_i hne
  split at h
  · cases h
  rename_i active d₁ p₁ hrot
  simp only [Prod.mk.injEq] at h
  obtain ⟨h1, rfl, rfl⟩ := h
  exact ⟨hne, active, d₁, p₁, _, hrot, by rw [← h1], rfl⟩

/-- A segment's append leaves the files of other segments alone. -/
theorem sameFiles_appendDir {s : LogSegment} (st : LogSegment.AppendState) {b : Nat}
    (hb : b ≠ s.baseOffset) : SameFiles d (LogSegment.appendDir d s st) b :=
  sameFiles_insert _ _ hb

/-- The directory after a write to the last segment's files. -/
theorem OnDisk.replace_last {vs : List (LogView K)} {v v' : LogView K} {s : LogSegment}
    {st : LogSegment.AppendState} (h : OnDisk K d (vs ++ [v])) (hs : s.baseOffset = v.base)
    (hv : v'.base = v.base) (hstored : Stored K (LogSegment.appendDir d s st) v') :
    OnDisk K (LogSegment.appendDir d s st) (vs ++ [v']) := by
  refine ⟨by simp, h.linked.replace_last hv, fun w hw => ?_, fun name => ?_⟩
  · rcases List.mem_append.1 hw with hw | hw
    · refine (h.stored w (List.mem_append_left _ hw)).frame (sameFiles_appendDir st ?_)
      have := h.base_le_last w hw
      omega
    · obtain rfl := List.mem_singleton.1 hw
      exact hstored
  · have hlog : logPath v.base ∈ d.keys := (h.names _).2 ⟨v, by simp, .inl rfl⟩
    have hindex : indexPath v.base ∈ d.keys := (h.names _).2 ⟨v, by simp, .inr rfl⟩
    have hkeys : (LogSegment.appendDir d s st).keys = d.keys := by
      rw [LogSegment.appendDir, hs, Table.keys_insert, Table.keys_insert,
        Finset.insert_eq_of_mem (by rwa [Finset.insert_eq_of_mem hlog]),
        Finset.insert_eq_of_mem hlog]
    rw [hkeys, h.names name]
    simp only [List.mem_append, List.mem_singleton, or_and_right, exists_or, exists_eq_left, hv]

/-- **A successful append** to the last segment, if its log is in whole records, its index handle
writes where it counts (or does not write), and its index entries agree with the batch. -/
theorem append_last {io : LogSegment.AppendIo} (hK : K.Lawful)
    (h : Open K d p (init ++ [g])) (ht : g.view.tail = [])
    (hfit : ∀ msg ∈ messages, Fits K p.config.compression msg)
    (hix : g.segment.index.cursor = indexEntrySize * g.segment.index.size ∨
      g.segment.recordsSinceIndex + messages.length ≤ p.config.indexInterval)
    (hc : Consistent K (indexFile d g.view) g.view.next g.view.bytes.length
      (batchRecords p.config g.view.next messages))
    (happ : LogSegment.append K io messages d g.segment = (.ok n, d', s')) :
    n = g.view.next ∧ ∃ v' : LogView K,
      v'.records = g.view.records ++ batchRecords p.config g.view.next messages ∧
      v'.base = g.view.base ∧
      Open K d' { p with segments := p.segments.dropLast ++ [s'] }
        (init ++ [⟨g.stale, s', v'⟩]) ∧
      (Pristine d (init ++ [g]) → Pristine d' (init ++ [⟨g.stale, s', v'⟩])) ∧
      (Straight (init ++ [g]) → Straight (init ++ [⟨g.stale, s', v'⟩])) := by
  have hg : g.Ok K p.config d := h.held g (by simp)
  have hcfg := hg.config
  rw [← hcfg] at hfit hix hc
  obtain ⟨-, hn, st, c, m, -, -, -, -, hd, hs'⟩ := append_grown hK hg.backed hfit happ
  obtain ⟨v', hb, -, hr, hback, hclean⟩ := append_backed hK hg.backed ht hfit hix hc happ
  have hdisk := h.disk
  rw [List.map_append, List.map_singleton] at hdisk
  have hframe : ∀ k ∈ init, SameFiles d d' k.view.base := by
    intro k hk
    rw [hd]
    refine sameFiles_appendDir st ?_
    have := hdisk.base_le_last _ (List.mem_map_of_mem hk)
    rw [hg.backed.base]
    omega
  refine ⟨hn, v', hcfg ▸ hr, hb, ⟨?_, ?_, fun k hk => ?_⟩, fun hp k hk => ?_, fun hst k hk => ?_⟩
  · have hst := hback.toStored
    rw [hd] at hst ⊢
    simpa using hdisk.replace_last hg.backed.base hb hst
  · rw [h.segments]
    simp [Held.segments, ← List.append_assoc]
  · rcases List.mem_append.1 hk with hk | hk
    · exact (h.held k (by simp [hk])).frame (hframe k hk)
    · obtain rfl := List.mem_singleton.1 hk
      refine ⟨hback, ?_, fun s hs => by simpa only [hb] using hg.stale s hs⟩
      rw [hs']
      exact hcfg
  · rcases List.mem_append.1 hk with hk | hk
    · exact ⟨(hp k (by simp [hk])).1.frame (hframe k hk), (hp k (by simp [hk])).2⟩
    · obtain rfl := List.mem_singleton.1 hk
      exact ⟨hclean (hp g (by simp)).1, fun hs => hb.trans ((hp g (by simp)).2 hs)⟩
  · rcases List.mem_append.1 hk with hk | hk
    · exact hst k (by simp [hk])
    · obtain rfl := List.mem_singleton.1 hk
      exact append_straight hK hg.backed hfit (hst g (by simp)) happ

/-- A clean segment has no index entries ahead of its log. -/
theorem Clean.consistent {v : LogView K} {s : LogSegment} (h : Clean d v s) (pos : Nat)
    (rs : List DiskRecord) : Consistent K (indexFile d v) v.next pos rs := by
  intro i hi hn
  rw [lt_entryCount, h.count] at hi
  have := h.written i (Nat.le_of_mul_le_mul_left hi (by decide))
  omega

end Append

/-! ## The next offset

What a successful append says about the counters, whatever the files hold. -/

theorem updateIndex_nextOffset {config : SegmentConfig} {io : IndexIo}
    {st st' : LogSegment.AppendState}
    (h : LogSegment.updateIndex config io st = (.ok (), st')) : st'.nextOffset = st.nextOffset := by
  rcases updateIndex_ok h with ⟨-, rfl⟩ | ⟨-, file, ix, -, rfl⟩
  · rfl
  · rfl

theorem appendLoop_nextOffset {config : SegmentConfig} {messages : List Message}
    {io : Nat → LogSegment.RecordIo} {st st' : LogSegment.AppendState}
    (h : LogSegment.appendLoop K config io messages st = (.ok (), st')) :
    st'.nextOffset = st.nextOffset + messages.length ∧
      (messages ≠ [] → st.nextOffset + messages.length < 2 ^ 64) := by
  induction messages generalizing io st with
  | nil =>
    cases h
    exact ⟨rfl, fun hne => absurd rfl hne⟩
  | cons m ms ih =>
    unfold LogSegment.appendLoop at h
    split at h
    · cases h
    · rename_i st₁ hrec
      obtain ⟨bs, st₂, -, hix, hadv⟩ := appendRecord_ok hrec
      obtain ⟨-, hlt, rfl⟩ := advance_ok hadv
      have hkeep := updateIndex_nextOffset hix
      simp only at hkeep
      obtain ⟨hnext, hlast⟩ := ih h
      rw [hnext, List.length_cons]
      simp only at hlast ⊢
      rw [hkeep] at hlast hlt ⊢
      refine ⟨by omega, ?_⟩
      intro _
      cases ms with
      | nil => simpa using hlt
      | cons m' ms =>
        have hms := hlast (List.cons_ne_nil m' ms)
        rw [List.length_cons] at hms ⊢
        omega

theorem segment_append_nextOffset {io : LogSegment.AppendIo} {messages : List Message}
    {d d' : Dir} {s s' : LogSegment} {n : Nat}
    (h : LogSegment.append K io messages d s = (.ok n, d', s')) :
    n = s.nextOffset ∧ s'.nextOffset = n + messages.length ∧ n + messages.length < 2 ^ 64 := by
  obtain ⟨hne, rfl, st, hloop, -, rfl⟩ := append_ok h
  obtain ⟨hnext, hlt⟩ := appendLoop_nextOffset hloop
  refine ⟨rfl, ?_, hlt hne⟩
  unfold LogSegment.remap LogSegment.appendEnd
  split <;> exact hnext

theorem rotate_nextOffset {io : CreateIo} {active : LogSegment} {d d₁ : Dir}
    {p p₁ : Partition} (h : Partition.rotate io d p = (.ok active, d₁, p₁)) :
    active.nextOffset = p.nextOffset ∧ p₁.topicName = p.topicName ∧
      p₁.partitionId = p.partitionId ∧ p₁.config = p.config := by
  obtain ⟨last, hlast, ⟨-, -, hcreate, rfl⟩ | ⟨-, rfl, -, rfl⟩⟩ := rotate_ok h
  · obtain ⟨-, rfl⟩ := Prod.mk.inj hcreate
    rw [Partition.nextOffset, hlast]
    exact ⟨rfl, rfl, rfl, rfl⟩
  · rw [Partition.nextOffset, hlast]
    exact ⟨rfl, rfl, rfl, rfl⟩

/-- **A successful append** reports the partition's next offset and advances it by the batch. -/
theorem append_nextOffset {io : PartitionIo} {messages : List Message} {d d' : Dir}
    {p p' : Partition} {n : Nat}
    (h : Partition.append K io messages d p = (.ok n, d', p')) :
    n = p.nextOffset ∧ p'.nextOffset = n + messages.length ∧ n + messages.length < 2 ^ 64 ∧
      p'.topicName = p.topicName ∧ p'.partitionId = p.partitionId ∧ p'.config = p.config := by
  obtain ⟨-, active, d₁, p₁, s', hrot, happ, rfl⟩ := partition_append_ok h
  obtain ⟨hactive, htopic, hpart, hconfig⟩ := rotate_nextOffset hrot
  obtain ⟨hn, hnext, hlt⟩ := segment_append_nextOffset happ
  refine ⟨hn.trans hactive, ?_, hlt, htopic, hpart, hconfig⟩
  rw [← hnext, Partition.nextOffset, List.getLast?_concat]

end Gaffa
