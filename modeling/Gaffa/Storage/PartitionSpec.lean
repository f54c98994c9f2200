import Gaffa.Storage.Partition
import Gaffa.Storage.AppendSpec

/-!
# What a partition holds

A partition directory is `OnDisk` when its files are those of a list of views that continue one
another, an open partition is `Open` when its handles agree with them.  A rotation of an empty
segment opens a second handle on the same files; the superseded handle stays in the list, and
`Held` keeps it with the handle in use.

* `findSegmentIndex_spec`: the binary search finds the last segment at or below the offset.
* `fetch_spec`: a fetch reads the view of that segment and the views behind it.
* `openWithConfig_spec`: opening a directory succeeds whatever order it is listed in.
* `fetch_from`: no fetch ends before the offset it starts at, whatever the files are.
-/

set_option autoImplicit false

namespace Gaffa

open ByteString DiskRecord OffsetIndex

variable {K : Crates}

/-! ## Views that continue one another -/

/-- The views start at offset `b`, and each but the last is followed by one that starts where it
ends. -/
def Linked : Nat → List (LogView K) → Prop
  | _, [] => True
  | b, [v] => v.base = b
  | b, v :: w :: vs => v.base = b ∧ v.base < v.next ∧ Linked v.next (w :: vs)

namespace Linked

theorem cons {b : Nat} {v : LogView K} {vs : List (LogView K)} (hv : v.base = b)
    (h : vs ≠ [] → v.base < v.next ∧ Linked v.next vs) : Linked b (v :: vs) := by
  cases vs with
  | nil => exact hv
  | cons w vs => exact ⟨hv, h (by simp)⟩

theorem head {b : Nat} {v : LogView K} {vs : List (LogView K)} (h : Linked b (v :: vs)) :
    v.base = b := by
  cases vs with
  | nil => exact h
  | cons w vs => exact h.1

theorem tail {b : Nat} {v : LogView K} {vs : List (LogView K)} (h : Linked b (v :: vs))
    (hne : vs ≠ []) : v.base < v.next ∧ Linked v.next vs := by
  cases vs with
  | nil => exact absurd rfl hne
  | cons w vs => exact h.2

theorem le_base : ∀ {b : Nat} {vs : List (LogView K)}, Linked b vs → ∀ v ∈ vs, b ≤ v.base
  | _, [], _, _, hv => absurd hv List.not_mem_nil
  | b, w :: ws, h, v, hv => by
    rcases List.mem_cons.1 hv with rfl | hv
    · exact Nat.le_of_eq h.head.symm
    · have ht := h.tail (List.ne_nil_of_mem hv)
      have := ht.2.le_base v hv
      have := h.head
      omega

/-- Earlier views end at or before later ones begin. -/
theorem pairwise : ∀ {b : Nat} {vs : List (LogView K)}, Linked b vs →
    vs.Pairwise fun v w => v.next ≤ w.base ∧ v.base < w.base
  | _, [], _ => List.Pairwise.nil
  | b, v :: vs, h => by
    refine List.pairwise_cons.2 ⟨fun w hw => ?_, ?_⟩
    · have ht := h.tail (List.ne_nil_of_mem hw)
      have := ht.2.le_base w hw
      exact ⟨this, by omega⟩
    · cases vs with
      | nil => exact List.Pairwise.nil
      | cons w ws => exact h.2.2.pairwise

/-- The last view replaced by one with the same base. -/
theorem replace_last {v v' : LogView K} (hv : v'.base = v.base) :
    ∀ {b : Nat} {vs : List (LogView K)}, Linked b (vs ++ [v]) → Linked b (vs ++ [v'])
  | _, [], h => hv.trans h
  | b, w :: ws, h => by
    rw [List.cons_append] at h
    have ht := h.tail (by simp)
    exact cons h.head fun _ => ⟨ht.1, ht.2.replace_last hv⟩

/-- One more view. -/
theorem snoc {v w : LogView K} (hw : w.base = v.next) (hlt : v.base < v.next) :
    ∀ {b : Nat} {vs : List (LogView K)}, Linked b (vs ++ [v]) → Linked b (vs ++ [v] ++ [w])
  | _, [], h => ⟨h, hlt, hw⟩
  | b, u :: us, h => by
    rw [List.cons_append] at h
    have ht := h.tail (by simp)
    exact cons h.head fun _ => ⟨ht.1, ht.2.snoc hw hlt⟩

/-- The view that an offset falls into: the last one that starts at or below it. -/
theorem split {o : Nat} : ∀ {b : Nat} {vs : List (LogView K)}, Linked b vs → vs ≠ [] → b ≤ o →
    ∃ pre v post, vs = pre ++ v :: post ∧ v.base ≤ o ∧ ∀ w ∈ post, o < w.base
  | _, [], _, hne, _ => absurd rfl hne
  | b, v :: vs, h, _, hb => by
    have hv := h.head
    by_cases hin : vs ≠ [] ∧ v.next ≤ o
    · obtain ⟨pre, u, post, rfl, hu, hpost⟩ := (h.tail hin.1).2.split hin.1 hin.2
      exact ⟨v :: pre, u, post, rfl, hu, hpost⟩
    · refine ⟨[], v, vs, rfl, by omega, fun w hw => ?_⟩
      have hne := List.ne_nil_of_mem hw
      have := (h.tail hne).2.le_base w hw
      by_contra hlt
      exact hin ⟨hne, by omega⟩

end Linked

/-! ## Directories and partitions -/

/-- The files of a directory are those of the views. -/
structure OnDisk (K : Crates) (d : Dir) (vs : List (LogView K)) : Prop where
  ne_nil : vs ≠ []
  linked : Linked 0 vs
  stored : ∀ v ∈ vs, Stored K d v
  names : ∀ name, name ∈ d.keys ↔ ∃ v ∈ vs, name = logPath v.base ∨ name = indexPath v.base

/-- What one base offset stands for in an open partition: superseded handles on files that were
empty, the handle in use, and the view that the files hold. -/
structure Held (K : Crates) where
  stale : List LogSegment
  segment : LogSegment
  view : LogView K

namespace Held

/-- The handles of a base offset, in the order of the partition's list. -/
def segments (h : Held K) : List LogSegment := h.stale ++ [h.segment]

/-- The handle in use agrees with the files, a superseded one is empty. -/
structure Ok (K : Crates) (config : SegmentConfig) (d : Dir) (h : Held K) : Prop where
  backed : Backed K d h.view h.segment
  config : h.segment.config = config
  stale : ∀ s ∈ h.stale, s.baseOffset = h.view.base ∧ s.nextOffset = h.view.base

theorem Ok.base {config : SegmentConfig} {d : Dir} {h : Held K} (ho : h.Ok K config d) :
    ∀ s ∈ h.segments, s.baseOffset = h.view.base := by
  intro s hs
  rcases List.mem_append.1 hs with hs | hs
  · exact (ho.stale s hs).1
  · rw [List.mem_singleton.1 hs]; exact ho.backed.base

end Held

/-- An open partition agrees with its directory. -/
structure Open (K : Crates) (d : Dir) (p : Partition) (hs : List (Held K)) : Prop where
  disk : OnDisk K d (hs.map Held.view)
  segments : p.segments = hs.flatMap Held.segments
  held : ∀ h ∈ hs, h.Ok K p.config d

theorem Open.ne_nil {d : Dir} {p : Partition} {hs : List (Held K)} (h : Open K d p hs) :
    hs ≠ [] := by
  rintro rfl
  exact h.disk.ne_nil rfl

/-! ## Finding the segment -/

theorem findSegmentIndex_spec {pre post : List LogSegment} {s : LogSegment} {o : Nat}
    (hpre : ∀ t ∈ pre, t.baseOffset ≤ o) (hs : s.baseOffset ≤ o)
    (hpost : ∀ t ∈ post, o < t.baseOffset) :
    Partition.findSegmentIndex (pre ++ s :: post) o = .ok pre.length := by
  unfold Partition.findSegmentIndex
  simp only
  rw [Bisect.bisect_boundary (f := fun _ => ()) (m := pre.length + 1) _ _ _ _ (by omega)
    (Nat.zero_le _) (by simp)]
  · simp
  · intro i _ hi
    by_cases hlt : i < pre.length
    · rw [List.getElem?_append_left hlt, List.getElem?_eq_getElem hlt]
      simp only
      rw [if_pos (hpre _ (List.getElem_mem hlt))]
    · rw [show i = pre.length by omega, List.getElem?_append_right (Nat.le_refl _)]
      simp [hs]
  · intro i hi hlt
    obtain ⟨k, rfl⟩ := Nat.exists_eq_add_of_le hi
    simp only [List.length_append, List.length_cons] at hlt
    have hk : k < post.length := by omega
    rw [List.getElem?_append_right (by omega),
      show pre.length + 1 + k - pre.length = k + 1 by omega, List.getElem?_cons_succ,
      List.getElem?_eq_getElem hk]
    have := hpost _ (List.getElem_mem hk)
    simp only
    rw [if_neg (by omega)]

theorem findSegmentIndex_none {ss : List LogSegment} {offset : Nat}
    (h : ∀ s ∈ ss, offset < s.baseOffset) :
    Partition.findSegmentIndex ss offset = .error (.error (.invalidOffset offset)) := by
  unfold Partition.findSegmentIndex
  simp only
  rw [Bisect.bisect_boundary (f := fun _ => ()) (m := 0) _ _ _ _ (by omega) (Nat.le_refl _)
    (Nat.zero_le _) (fun i _ hi => absurd hi (Nat.not_lt_zero _))]
  · rfl
  · intro i _ hi
    rw [List.getElem?_eq_getElem hi]
    have := h _ (List.getElem_mem hi)
    simp only
    rw [if_neg (by omega)]

/-! ## Fetching -/

/-- The records that a fetch can reach: it stops behind a segment that returns nothing. -/
def reach (got later : List DiskRecord) : List DiskRecord :=
  if got = [] then [] else got ++ later

/-- The records that a fetch reaches from the first handle of the list on; a superseded handle
returns nothing. -/
def span : List (Held K) → List DiskRecord
  | [] => []
  | h :: hs => if h.stale = [] then reach h.view.records (span hs) else []

section Fetch

variable {d : Dir} {v : LogView K} {s : LogSegment} {ss : List LogSegment}
  {l : List DiskRecord} {o : Nat}

/-- The loop of a fetch over a backed handle and what follows it. -/
theorem fetchLoop_backed (h : Backed K d v s) (hlo : v.base ≤ o)
    (hrest : ∀ rem, Partition.fetchLoop K d ss v.next rem = .ok (l.take rem)) (max : Nat) :
    Partition.fetchLoop K d (s :: ss) o max =
      .ok ((reach (v.records.drop (o - v.base)) l).take max) := by
  unfold Partition.fetchLoop
  by_cases h0 : max = 0
  · rw [if_pos h0, h0, List.take_zero]
  rw [if_neg h0, readBatch_spec h max hlo]
  simp only
  by_cases hgot : v.records.drop (o - v.base) = []
  · rw [hgot, List.take_nil]
    simp [reach]
  · have hne : (v.records.drop (o - v.base)).take max ≠ [] := by
      simp [List.take_eq_nil_iff, h0, hgot]
    rw [List.getLast?_eq_some_getLast hne]
    have hnum := (v.numbered.drop (o - v.base)).take max
    have hlast := hnum.getLast (List.getLast?_eq_some_getLast hne)
    have hrecs : v.records ≠ [] := by rintro h1; rw [h1, List.drop_nil] at hgot; exact hgot rfl
    have hnext := LogView.next_of_records hrecs
    have hlt := h.next_lt
    have hlen : (v.records.drop (o - v.base)).length = v.records.length - (o - v.base) :=
      List.length_drop
    have hpos := List.length_pos_iff.2 hgot
    simp only [List.length_take] at hlast ⊢
    rw [checkedAdd_of_lt (by omega), hlast]
    simp only
    have hreach : reach (v.records.drop (o - v.base)) l =
        v.records.drop (o - v.base) ++ l := if_neg hgot
    rw [hreach]
    by_cases hmax : max ≤ (v.records.drop (o - v.base)).length
    · have hstop : ∀ cur, Partition.fetchLoop K d ss cur 0 = .ok [] := by
        intro cur
        cases ss with
        | nil => rfl
        | cons t ts => unfold Partition.fetchLoop; rw [if_pos rfl]
      rw [Nat.min_eq_left hmax, Nat.sub_self, hstop, List.take_append_of_le_length hmax]
      simp only [List.append_nil]
    · rw [Nat.min_eq_right (by omega), show v.base + (o - v.base) +
        (v.records.drop (o - v.base)).length = v.next by omega, hrest]
      simp only
      rw [List.take_append, List.take_of_length_le (Nat.le_of_not_le hmax)]

/-- The loop of a fetch over the handles of views that continue one another. -/
theorem fetchLoop_held {config : SegmentConfig} : ∀ {b : Nat} {hs : List (Held K)},
    Linked b (hs.map Held.view) → (∀ h ∈ hs, h.Ok K config d) → ∀ rem,
      Partition.fetchLoop K d (hs.flatMap Held.segments) b rem = .ok ((span hs).take rem)
  | _, [], _, _, rem => by simp [Partition.fetchLoop, span]
  | b, h :: hs, hl, hok, rem => by
    obtain ⟨hh, hhs⟩ := List.forall_mem_cons.1 hok
    rw [List.map_cons] at hl
    have hb : h.view.base = b := hl.head
    rw [List.flatMap_cons, Held.segments, span]
    cases hst : h.stale with
    | nil =>
      simp only [List.nil_append, List.singleton_append, if_true]
      rw [fetchLoop_backed (l := span hs) hh.backed (Nat.le_of_eq hb), hb, Nat.sub_self,
        List.drop_zero]
      intro rem
      cases hs with
      | nil => simp [Partition.fetchLoop, span]
      | cons g gs => exact fetchLoop_held (hl.tail (by simp)).2 hhs rem
    | cons t ts =>
      obtain ⟨ht, hn⟩ := hh.stale t (by rw [hst]; exact List.mem_cons_self ..)
      simp only [List.cons_append, reduceCtorEq, if_false, List.take_nil]
      unfold Partition.fetchLoop LogSegment.readBatch
      by_cases h0 : rem = 0
      · rw [if_pos h0]
      · rw [if_neg h0, ht, hn, hb, if_neg (Nat.lt_irrefl b), if_pos (Nat.le_refl b)]
        rfl

/-- **A fetch** reads the view that the offset falls into and the views behind it. -/
theorem fetch_spec {p : Partition} {hs : List (Held K)} (h : Open K d p hs) (o : Nat) :
    ∃ pre g post, hs = pre ++ g :: post ∧ g.view.base ≤ o ∧ (∀ k ∈ post, o < k.view.base) ∧
      ∀ max, p.fetch K d o max = .ok (((reach (g.view.records.drop (o - g.view.base))
        (span post)).take max).map p.toRecord) := by
  obtain ⟨vpre, v, vpost, hsplit, hv, hpost⟩ :=
    h.disk.linked.split h.disk.ne_nil (Nat.zero_le o)
  obtain ⟨pre, rest, rfl, rfl, hrest⟩ := List.map_eq_append_iff.1 hsplit
  obtain ⟨g, post, rfl, rfl, rfl⟩ := List.map_eq_cons_iff.1 hrest
  have hpost' : ∀ k ∈ post, o < k.view.base := fun k hk =>
    hpost _ (List.mem_map_of_mem hk)
  refine ⟨pre, g, post, rfl, hv, hpost', fun max => ?_⟩
  have hok := h.held
  have hg : g.Ok K p.config d := hok g (by simp)
  have hpair := h.disk.linked.pairwise
  rw [List.map_append, List.map_cons] at hpair
  have hbelow : ∀ t ∈ pre.flatMap Held.segments ++ g.stale, t.baseOffset ≤ o := by
    intro t ht
    rcases List.mem_append.1 ht with ht | ht
    · obtain ⟨k, hk, htk⟩ := List.mem_flatMap.1 ht
      rw [(hok k (by simp [hk])).base t htk]
      have := (List.pairwise_append.1 hpair).2.2 _ (List.mem_map_of_mem hk) _
        (List.mem_cons_self ..)
      omega
    · rw [(hg.stale t ht).1]; exact hv
  have habove : ∀ t ∈ post.flatMap Held.segments, o < t.baseOffset := by
    intro t ht
    obtain ⟨k, hk, htk⟩ := List.mem_flatMap.1 ht
    rw [(hok k (by simp [hk])).base t htk]
    exact hpost' k hk
  have hsegs : p.segments = (pre.flatMap Held.segments ++ g.stale) ++
      g.segment :: post.flatMap Held.segments := by
    rw [h.segments]
    simp [Held.segments]
  unfold Partition.fetch
  rw [hsegs, findSegmentIndex_spec hbelow (by rw [hg.backed.base]; exact hv) habove]
  simp only [List.drop_left]
  rw [fetchLoop_backed (l := span post) hg.backed hv]
  intro rem
  cases post with
  | nil => simp [Partition.fetchLoop, span]
  | cons k ks =>
    have hlink : ∀ {b : Nat} {us : List (Held K)}, Linked b ((us ++ g :: k :: ks).map Held.view) →
        Linked g.view.next ((k :: ks).map Held.view) := by
      intro b us
      induction us generalizing b with
      | nil => exact fun hl => (Linked.tail hl (by simp)).2
      | cons u us ih => exact fun hl => ih (Linked.tail hl (by simp)).2
    exact fetchLoop_held (hlink h.disk.linked) (fun x hx => hok x (by simp [List.mem_cons.1 hx])) rem

end Fetch

/-! ## Opening a directory -/

/-- The handles that reopening gives a view. -/
def reheld (d : Dir) (config : SegmentConfig) (v : LogView K) : Held K :=
  ⟨[], openedSegment d v config, v⟩

theorem openSegments_spec {d : Dir} (config : SegmentConfig) :
    ∀ {vs : List (LogView K)}, (∀ v ∈ vs, Stored K d v) →
      Partition.openSegments K config d (vs.map LogView.base) =
        .ok (vs.map fun v => openedSegment d v config)
  | [], _ => rfl
  | v :: vs, h => by
    obtain ⟨hv, hvs⟩ := List.forall_mem_cons.1 h
    unfold Partition.openSegments
    simp only [List.map_cons, (open_spec config hv).1, openSegments_spec config hvs]

/-- The base offsets read from a directory, in whatever order it is listed. -/
theorem segmentOffsets_spec {d : Dir} {b : Nat} {vs : List (LogView K)} (hlinked : Linked b vs)
    (hlt : ∀ v ∈ vs, v.next < 2 ^ 64)
    (hnames : ∀ name, name ∈ d.keys ↔ ∃ v ∈ vs, name = logPath v.base ∨ name = indexPath v.base)
    {listing : List FileName} (hl : d.Order listing) :
    (listing.filterMap segmentOffset).mergeSort = vs.map LogView.base := by
  have hsorted : (vs.map LogView.base).Pairwise (· < ·) :=
    List.pairwise_map.2 (hlinked.pairwise.imp fun hp => hp.2)
  apply Table.mergeSort_filterMap (g := logPath) hl.nodup hsorted
  · intro name hname b
    rw [List.mem_map]
    obtain ⟨v, hv, rfl | rfl⟩ := (hnames name).1 ((hl.mem name).1 hname)
    · have hbase := Nat.lt_of_le_of_lt v.base_le_next (hlt v hv)
      rw [segmentOffset_logPath hbase, Option.some_inj, logPath_inj]
      exact ⟨fun hb => ⟨⟨v, hv, hb⟩, hb⟩, fun hb => hb.2⟩
    · rw [segmentOffset_indexPath]
      refine iff_of_false (by simp) fun hb => ?_
      exact logPath_ne_indexPath b v.base hb.2.symm
  · intro b hb
    obtain ⟨v, hv, rfl⟩ := List.mem_map.1 hb
    exact (hl.mem _).2 ((hnames _).2 ⟨v, hv, Or.inl rfl⟩)

/-- **Opening a directory** succeeds in whatever order it is listed. -/
theorem openWithConfig_spec {d : Dir} {vs : List (LogView K)} (h : OnDisk K d vs)
    (topicName : String) (partitionId : Nat) (config : SegmentConfig) {listing : List FileName}
    (hl : d.Order listing) :
    ∃ p, Partition.openWithConfig K topicName partitionId config listing d = .ok p ∧
      p.topicName = topicName ∧ p.partitionId = partitionId ∧ p.config = config ∧
      Open K d p (vs.map (reheld d config)) := by
  have hview : (vs.map (reheld d config)).map Held.view = vs := by
    rw [List.map_map]; exact List.map_id' vs
  refine ⟨⟨topicName, partitionId, vs.map fun v => openedSegment d v config, config⟩, ?_, rfl, rfl,
    rfl, by rw [hview]; exact h, ?_, ?_⟩
  · unfold Partition.openWithConfig
    have hopen := openSegments_spec config h.stored
    rw [segmentOffsets_spec h.linked (fun v hv => (h.stored v hv).next_lt) h.names hl]
    obtain ⟨v, vs, rfl⟩ := List.exists_cons_of_ne_nil h.ne_nil
    rw [List.map_cons] at hopen ⊢
    simp only [hopen]
  · rw [List.flatMap_map, List.map_eq_flatMap]
    rfl
  · intro g hg
    obtain ⟨v, hv, rfl⟩ := List.mem_map.1 hg
    exact ⟨(open_spec config (h.stored v hv)).2, rfl, fun s hs => absurd hs List.not_mem_nil⟩

/-! ## Any files -/

section Files

variable {d : Dir}

/-- A batch has no records from before its start. -/
theorem readBatchLoop_from {start : Nat} : ∀ {fuel n : Nat} {cursor : Bytes}
    {records : List DiskRecord}, LogSegment.readBatchLoop K start fuel n cursor = .ok records →
      ∀ r ∈ records, start ≤ r.offset
  | _, 0, _, _, h, r, hr => by
    unfold LogSegment.readBatchLoop at h
    cases h
    cases hr
  | 0, _ + 1, _, _, h, r, hr => by
    unfold LogSegment.readBatchLoop at h
    cases h
    cases hr
  | fuel + 1, n + 1, cursor, records, h, r, hr => by
    unfold LogSegment.readBatchLoop at h
    split at h
    · cases h
      cases hr
    · cases h
    · rename_i record rest hdecode
      split at h
      · rename_i hge
        split at h
        · cases h
        · rename_i later hlater
          cases h
          rcases List.mem_cons.1 hr with rfl | hr
          · exact hge
          · exact readBatchLoop_from hlater r hr
      · exact readBatchLoop_from h r hr

theorem readBatch_from {s : LogSegment} {start n : Nat} {records : List DiskRecord}
    (h : LogSegment.readBatch K d s start n = .ok records) : ∀ r ∈ records, start ≤ r.offset := by
  unfold LogSegment.readBatch at h
  split at h
  · cases h
  split at h
  · cases h
    exact fun r hr => absurd hr List.not_mem_nil
  split at h
  · cases h
  · exact readBatchLoop_from h

theorem fetchLoop_from : ∀ {ss : List LogSegment}
    {offset remaining : Nat} {records : List DiskRecord},
    Partition.fetchLoop K d ss offset remaining = .ok records → ∀ r, records.getLast? = some r →
      offset ≤ r.offset ∧ r.offset + 1 < 2 ^ 64
  | [], _, _, _, h, r, hr => by
    cases h
    cases hr
  | s :: ss, offset, remaining, records, h, r, hr => by
    unfold Partition.fetchLoop at h
    split at h
    · cases h
      cases hr
    split at h
    · cases h
    rename_i batch hbatch
    split at h
    · cases h
      cases hr
    rename_i lastRecord hlast
    split at h
    · cases h
    rename_i current hcurrent
    split at h
    · cases h
    rename_i later hlater
    cases h
    obtain ⟨rfl, hlt⟩ := checkedAdd_ok hcurrent
    have hfrom := readBatch_from hbatch lastRecord (List.mem_of_getLast? hlast)
    cases hend : later.getLast? with
    | none =>
      rw [List.getLast?_append, hend, hlast] at hr
      cases hr
      exact ⟨hfrom, hlt⟩
    | some r' =>
      rw [List.getLast?_append, hend] at hr
      cases hr
      obtain ⟨hle, hlt'⟩ := fetchLoop_from hlater r hend
      exact ⟨by omega, hlt'⟩

/-- **A fetch does not go back**, whatever the files are: its last record is not from before the
offset that was asked for. -/
theorem fetch_from {p : Partition} {offset maxMessages : Nat} {records : List Record}
    (h : p.fetch K d offset maxMessages = .ok records) :
    ∀ r, records.getLast? = some r → offset ≤ r.offset ∧ r.offset + 1 < 2 ^ 64 := by
  unfold Partition.fetch at h
  split at h
  · cases h
  split at h
  · cases h
  rename_i found hfound
  cases h
  intro r hr
  rw [List.getLast?_map] at hr
  obtain ⟨diskRecord, hlast, rfl⟩ := Option.map_eq_some_iff.1 hr
  exact fetchLoop_from hfound diskRecord hlast

end Files

end Gaffa
