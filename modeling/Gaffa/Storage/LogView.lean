import Gaffa.Storage.Segment

/-!
# What a log file holds

A log file read as data: the records that decode from its start, numbered from the segment's base
offset, and a rest that does not decode.  `LogView` carries these facts as fields; the loops of
`storage/src/segment.rs` are then functions of the view.

* `scanForNextOffset_bytes`: the scan finds the view's next offset.
* `readBatchLoop_encodedAll`: a batch read returns the records from the start offset on.
* `readLoop_encodedAll`: a single read returns the record with the offset.
-/

set_option autoImplicit false

namespace Gaffa

open ByteString DiskRecord

/-! ## Encodings of several records -/

/-- The encodings of a list of records, one after the other. -/
def encodedAll (K : Crates) (rs : List DiskRecord) : Bytes := rs.flatMap (encoded K)

@[simp] theorem encodedAll_nil (K : Crates) : encodedAll K [] = [] := rfl

@[simp] theorem encodedAll_cons (K : Crates) (r : DiskRecord) (rs : List DiskRecord) :
    encodedAll K (r :: rs) = encoded K r ++ encodedAll K rs := rfl

@[simp] theorem encodedAll_append (K : Crates) (rs qs : List DiskRecord) :
    encodedAll K (rs ++ qs) = encodedAll K rs ++ encodedAll K qs := List.flatMap_append

theorem length_le_encodedAll {K : Crates} :
    ∀ {rs : List DiskRecord}, (∀ r ∈ rs, Storable K r) → rs.length ≤ (encodedAll K rs).length
  | [], _ => Nat.le_refl _
  | r :: rs, h => by
    have hr := length_encoded_ge (h r (List.mem_cons_self ..))
    have ih := length_le_encodedAll fun q hq => h q (List.mem_cons_of_mem _ hq)
    simp only [encodedAll_cons, List.length_append, List.length_cons]
    omega

theorem drop_encodedAll (K : Crates) (rs : List DiskRecord) (k : Nat) (tail : Bytes) :
    (encodedAll K rs ++ tail).drop (encodedAll K (rs.take k)).length =
      encodedAll K (rs.drop k) ++ tail := by
  conv_lhs => rw [← List.take_append_drop k rs, encodedAll_append, List.append_assoc]
  rw [List.take_append_drop, List.drop_left]

/-! ## Consecutive offsets -/

/-- The records carry the offsets `n`, `n + 1`, … -/
def Numbered : Nat → List DiskRecord → Prop
  | _, [] => True
  | n, r :: rs => r.offset = n ∧ Numbered (n + 1) rs

theorem Numbered.append : ∀ {n : Nat} {rs qs : List DiskRecord},
    Numbered n rs → Numbered (n + rs.length) qs → Numbered n (rs ++ qs)
  | _, [], _, _, h => h
  | n, r :: rs, qs, h, hq => ⟨h.1, h.2.append (by
      rw [List.length_cons] at hq
      rwa [show n + 1 + rs.length = n + (rs.length + 1) by omega])⟩

theorem Numbered.drop : ∀ {n : Nat} {rs : List DiskRecord} (k : Nat),
    Numbered n rs → Numbered (n + k) (rs.drop k)
  | _, _, 0, h => h
  | _, [], _ + 1, _ => trivial
  | n, _ :: rs, k + 1, h => by
    rw [show n + (k + 1) = n + 1 + k by omega]
    exact h.2.drop k

theorem Numbered.take : ∀ {n : Nat} {rs : List DiskRecord} (k : Nat),
    Numbered n rs → Numbered n (rs.take k)
  | _, _, 0, _ => by simp [Numbered]
  | _, [], _ + 1, _ => trivial
  | _, _ :: _, k + 1, h => ⟨h.1, h.2.take k⟩

theorem Numbered.offset : ∀ {n i : Nat} {rs : List DiskRecord} {r : DiskRecord},
    Numbered n rs → rs[i]? = some r → r.offset = n + i
  | _, _, [], _, _, hi => by cases hi
  | _, 0, _ :: _, _, h, hi => by cases hi; exact h.1
  | n, i + 1, _ :: rs, r, h, hi => by
    have := h.2.offset (i := i) (r := r) (by simpa using hi)
    omega

theorem Numbered.getLast {n : Nat} {rs : List DiskRecord} {r : DiskRecord}
    (h : Numbered n rs) (hr : rs.getLast? = some r) : r.offset + 1 = n + rs.length := by
  have hne : rs ≠ [] := by rintro rfl; cases hr
  have hpos := List.length_pos_iff.2 hne
  rw [List.getLast?_eq_getElem?] at hr
  have := h.offset hr
  omega

/-! ## The loops over a log -/

section Loops

variable {K : Crates} {tail : Bytes}

theorem scanLoop_encodedAll (htail : ∃ e, decode K tail = .error (.error e)) :
    ∀ {fuel n last : Nat} {rs : List DiskRecord}, rs.length < fuel → Numbered n rs →
      (∀ r ∈ rs, Storable K r) →
      LogSegment.scanLoop K fuel (encodedAll K rs ++ tail) last =
        .ok (if rs = [] then last else n + rs.length - 1)
  | 0, _, _, _, hf, _, _ => absurd hf (Nat.not_lt_zero _)
  | fuel + 1, _, last, [], _, _, _ => by
    obtain ⟨e, he⟩ := htail
    simp [LogSegment.scanLoop, he]
  | fuel + 1, n, last, r :: rs, hf, hn, hs => by
    obtain ⟨hr, hrs⟩ := List.forall_mem_cons.1 hs
    unfold LogSegment.scanLoop
    rw [encodedAll_cons, List.append_assoc, decode_encoded hr]
    simp only
    rw [scanLoop_encodedAll htail (by simpa using hf) hn.2 hrs, hn.1]
    by_cases hnil : rs = []
    · simp [hnil]
    · have hpos := List.length_pos_iff.2 hnil
      simp only [if_neg hnil, reduceCtorEq, if_false, List.length_cons]
      congr 1
      omega

theorem readLoop_encodedAll {offset : Nat} :
    ∀ {fuel n : Nat} {rs : List DiskRecord}, rs.length < fuel → Numbered n rs →
      (∀ r ∈ rs, Storable K r) → n ≤ offset → offset < n + rs.length →
      ∃ r, rs[offset - n]? = some r ∧
        LogSegment.readLoop K offset fuel (encodedAll K rs ++ tail) = .ok r
  | 0, _, _, hf, _, _, _, _ => absurd hf (Nat.not_lt_zero _)
  | fuel + 1, n, [], _, _, _, h1, h2 => by
    simp only [List.length_nil] at h2
    omega
  | fuel + 1, n, r :: rs, hf, hn, hs, h1, h2 => by
    obtain ⟨hr, hrs⟩ := List.forall_mem_cons.1 hs
    simp only [List.length_cons] at hf h2
    unfold LogSegment.readLoop
    rw [encodedAll_cons, List.append_assoc, decode_encoded hr]
    simp only [hn.1]
    by_cases heq : n = offset
    · rw [if_pos heq]
      exact ⟨r, by simp [heq], rfl⟩
    · rw [if_neg heq, if_neg (by omega)]
      obtain ⟨q, hq, hl⟩ : ∃ q, rs[offset - (n + 1)]? = some q ∧
          LogSegment.readLoop K offset fuel (encodedAll K rs ++ tail) = .ok q :=
        readLoop_encodedAll (by omega) hn.2 hrs (by omega) (by omega)
      refine ⟨q, ?_, hl⟩
      rw [show offset - n = offset - (n + 1) + 1 by omega]
      simpa using hq

theorem readBatchLoop_encodedAll {start : Nat} (htail : ∃ e, decode K tail = .error (.error e)) :
    ∀ {fuel n count : Nat} {rs : List DiskRecord}, rs.length < fuel → Numbered n rs →
      (∀ r ∈ rs, Storable K r) →
      LogSegment.readBatchLoop K start fuel count (encodedAll K rs ++ tail) =
        .ok ((rs.drop (start - n)).take count)
  | _, _, 0, _, _, _, _ => by simp [LogSegment.readBatchLoop]
  | 0, _, _ + 1, _, hf, _, _ => absurd hf (Nat.not_lt_zero _)
  | fuel + 1, _, count + 1, [], _, _, _ => by
    obtain ⟨e, he⟩ := htail
    simp [LogSegment.readBatchLoop, he]
  | fuel + 1, n, count + 1, r :: rs, hf, hn, hs => by
    obtain ⟨hr, hrs⟩ := List.forall_mem_cons.1 hs
    simp only [List.length_cons, Nat.add_lt_add_iff_right] at hf
    unfold LogSegment.readBatchLoop
    rw [encodedAll_cons, List.append_assoc, decode_encoded hr]
    simp only [hn.1]
    by_cases hle : start ≤ n
    · rw [if_pos hle, readBatchLoop_encodedAll htail hf hn.2 hrs]
      simp [show start - n = 0 by omega, show start - (n + 1) = 0 by omega]
    · rw [if_neg hle, readBatchLoop_encodedAll htail hf hn.2 hrs,
        show start - n = start - (n + 1) + 1 by omega]
      rfl

end Loops

/-! ## Views -/

/-- A log read as data: records that decode, numbered from `base`, and a rest that does not. -/
structure LogView (K : Crates) where
  base : Nat
  records : List DiskRecord
  tail : Bytes
  numbered : Numbered base records
  storable : ∀ r ∈ records, Storable K r
  torn : ∃ e, decode K tail = .error (.error e)

namespace LogView

variable {K : Crates}

/-- The content of the log file. -/
def bytes (v : LogView K) : Bytes := encodedAll K v.records ++ v.tail

/-- The next offset that the scan of the log finds.  In a log without a whole record but with a
torn one, it is past an offset that was never written. -/
def next (v : LogView K) : Nat :=
  if v.records = [] ∧ v.tail ≠ [] then v.base + 1 else v.base + v.records.length

/-- The view of an empty log. -/
def empty (K : Crates) (base : Nat) : LogView K :=
  ⟨base, [], [], trivial, fun _ h => absurd h (List.not_mem_nil), decode_nil K⟩

/-- A log in whole records, with more records and a torn rest behind them. -/
def extend (v : LogView K) (rs : List DiskRecord) (tail : Bytes)
    (hn : Numbered (v.base + v.records.length) rs) (hs : ∀ r ∈ rs, Storable K r)
    (htail : ∃ e, decode K tail = .error (.error e)) : LogView K :=
  ⟨v.base, v.records ++ rs, tail, v.numbered.append hn, fun r hr =>
    (List.mem_append.1 hr).elim (v.storable r) (hs r), htail⟩

theorem next_ge (v : LogView K) : v.base + v.records.length ≤ v.next := by
  unfold next
  split
  · rename_i h
    rw [h.1]; simp
  · exact Nat.le_refl _

theorem base_le_next (v : LogView K) : v.base ≤ v.next :=
  Nat.le_trans (Nat.le_add_right _ _) v.next_ge

theorem next_of_records {v : LogView K} (h : v.records ≠ []) :
    v.next = v.base + v.records.length := if_neg fun hc => h hc.1

theorem next_of_whole {v : LogView K} (h : v.tail = []) :
    v.next = v.base + v.records.length := if_neg fun hc => hc.2 h

theorem bytes_ne_nil {v : LogView K} (h : v.base < v.next) : 0 < v.bytes.length := by
  unfold next at h
  unfold bytes
  rw [List.length_append]
  split at h
  · rename_i hc
    have := List.length_pos_iff.2 hc.2
    omega
  · have := length_le_encodedAll v.storable
    omega

theorem records_lt_fuel (v : LogView K) : v.records.length < v.bytes.length + 1 := by
  have := length_le_encodedAll v.storable
  unfold bytes
  rw [List.length_append]
  omega

theorem bytes_eq_nil {v : LogView K} (h : v.bytes.length = 0) : v.records = [] ∧ v.tail = [] := by
  have := v.records_lt_fuel
  unfold bytes at h
  rw [List.length_append] at h
  exact ⟨List.eq_nil_of_length_eq_zero (by have := length_le_encodedAll v.storable; omega),
    List.eq_nil_of_length_eq_zero (by omega)⟩

theorem bytes_of_next_eq_base {v : LogView K} (h : v.next = v.base) : v.bytes = [] := by
  unfold next at h
  split at h
  · omega
  · rename_i hc
    have hr : v.records = [] := List.eq_nil_of_length_eq_zero (by omega)
    have ht : v.tail = [] := by_contra fun ht => hc ⟨hr, ht⟩
    rw [bytes, hr, ht]
    rfl

theorem scanLoop_bytes (v : LogView K) (last : Nat) :
    LogSegment.scanLoop K (v.bytes.length + 1) v.bytes last =
      .ok (if v.records = [] then last else v.base + v.records.length - 1) :=
  scanLoop_encodedAll v.torn v.records_lt_fuel v.numbered v.storable

/-- **The scan** of a log finds its next offset. -/
theorem scanForNextOffset_bytes (v : LogView K) (h : v.next < 2 ^ 64) :
    LogSegment.scanForNextOffset K v.bytes v.base = .ok v.next := by
  unfold LogSegment.scanForNextOffset
  by_cases h0 : v.bytes.length = 0
  · obtain ⟨hr, ht⟩ := bytes_eq_nil h0
    rw [if_pos h0, next_of_whole ht, hr]
    rfl
  · rw [if_neg h0, v.scanLoop_bytes]
    by_cases hr : v.records = []
    · have ht : v.tail ≠ [] := by rintro ht; simp [bytes, hr, ht] at h0
      have hnext : v.next = v.base + 1 := if_pos ⟨hr, ht⟩
      rw [hnext] at h ⊢
      simp only [if_pos hr]
      exact checkedAdd_of_lt h
    · have hpos := List.length_pos_iff.2 hr
      rw [next_of_records hr] at h ⊢
      simp only [if_neg hr]
      rw [checkedAdd_of_lt (by omega)]
      congr 1
      omega

end LogView

end Gaffa
