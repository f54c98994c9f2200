import Gaffa.Lib.PrefixCode
import Gaffa.Storage.Segment

/-!
# What the loops read out of arbitrary bytes

A string of bytes is read as the records that decode from its front, one after the other, and the
rest at which decoding stops.  The loops of `storage/src/segment.rs` are functions of these two.

* `decode_panics_iff`: `decode` panics exactly on a record head whose length field is below 4.
* `scanLoop_eq`: the scan finds the offset of the last record.
* `readLoop_eq`, `readBatchLoop_eq`: what a read and a batch read return.
-/

set_option autoImplicit false

namespace Gaffa

open ByteString DiskRecord PrefixCode

variable {K : Crates}

/-! ## Outcomes of `decode` -/

theorem panicked_bind {α β : Type} {x : Except Fault α} {f : α → Except Fault β}
    (hx : panicked x = false) (hf : ∀ a, x = .ok a → panicked (f a) = false) :
    panicked (x >>= f) = false := by
  match x with
  | .ok a => exact hf a rfl
  | .error (.error e) => rfl
  | .error (.panic m) => cases hx

namespace DiskRecord

theorem readField_not_panicked (what : String) (n : Nat) (bs : Bytes) :
    panicked (readField what n bs) = false := by
  unfold readField
  split <;> rfl

theorem decompress_not_panicked (data : Bytes) (c : CompressionType) :
    panicked (decompress K data c) = false := by
  have herr : ∀ what (x : Except String Bytes), panicked (compressionError what x) = false := by
    intro what x
    cases x <;> rfl
  cases c
  · rfl
  · exact herr _ _
  · exact herr _ _
  · exact herr _ _

theorem fromU8_not_panicked (value : UInt8) : panicked (CompressionType.fromU8 value) = false := by
  unfold CompressionType.fromU8
  split <;> rfl

theorem parseData_not_panicked (offset : Nat) (data : Bytes) :
    panicked (parseData K offset data) = false := by
  unfold parseData
  refine panicked_bind (readField_not_panicked _ _ _) fun _ _ => ?_
  refine panicked_bind (fromU8_not_panicked _) fun _ _ => ?_
  refine panicked_bind (readField_not_panicked _ _ _) fun _ _ => ?_
  refine panicked_bind (readField_not_panicked _ _ _) fun p _ => ?_
  refine panicked_bind ?_ fun _ _ => ?_
  · unfold readKey
    split
    · have hread := readField_not_panicked "key" (ofBe p.1) p.2
      cases hkey : readField "key" (ofBe p.1) p.2 with
      | ok key => rfl
      | error e =>
        rw [hkey] at hread
        cases e with
        | error e => rfl
        | panic m => cases hread
    · rfl
  refine panicked_bind (readField_not_panicked _ _ _) fun _ _ => ?_
  refine panicked_bind (readField_not_panicked _ _ _) fun _ _ => ?_
  exact panicked_bind (decompress_not_panicked _ _) fun _ _ => rfl

/-- The number in the length field. -/
def lengthField (bs : Bytes) : Nat := ofBe ((bs.drop 8).take 4)

/-- A record head whose length field does not even cover the checksum. -/
def ShortLength (bs : Bytes) : Prop := 16 ≤ bs.length ∧ lengthField bs < 4

instance (bs : Bytes) : Decidable (ShortLength bs) := inferInstanceAs (Decidable (_ ∧ _))

/-- Fewer than sixteen bytes do not hold a record head. -/
theorem decode_short {bs : Bytes} (h : bs.length < 16) :
    ∃ e, decode K bs = .error (.error e) := by
  have hsplit : bs.take 8 ++ (bs.drop 8).take 4 ++ bs.drop 12 = bs := by
    rw [List.append_assoc, show bs.drop 12 = (bs.drop 8).drop 4 by simp, List.take_append_drop,
      List.take_append_drop]
  unfold decode
  by_cases h8 : bs.length < 8
  · obtain ⟨e, he⟩ := readField_short "offset" h8
    exact ⟨e, by rw [he]; rfl⟩
  rw [← hsplit, List.append_assoc, readField_append "offset" _ (by simp; omega)]
  simp only [ok_bind]
  by_cases h12 : bs.length < 12
  · obtain ⟨e, he⟩ := readField_short "length"
      (show ((bs.drop 8).take 4 ++ bs.drop 12).length < 4 by simp; omega)
    exact ⟨e, by rw [he]; rfl⟩
  rw [readField_append "length" _ (by simp; omega)]
  simp only [ok_bind]
  obtain ⟨e, he⟩ := readField_short "CRC" (show (bs.drop 12).length < 4 by simp; omega)
  exact ⟨e, by rw [he]; rfl⟩

theorem decode_shortLength {bs : Bytes} (h : ShortLength bs) :
    decode K bs = .error (.panic "attempt to subtract with overflow") := by
  obtain ⟨hlen, hlt⟩ := h
  have hsplit : bs = bs.take 8 ++ ((bs.drop 8).take 4 ++ ((bs.drop 12).take 4 ++ bs.drop 16)) := by
    rw [show bs.drop 16 = (bs.drop 12).drop 4 by simp, List.take_append_drop,
      show bs.drop 12 = (bs.drop 8).drop 4 by simp, List.take_append_drop, List.take_append_drop]
  rw [hsplit, decode_fields K (by simp; omega) (by simp; omega) (by simp; omega)]
  exact if_pos hlt

/-- **`decode` panics** exactly on a record head with a length below four. -/
theorem decode_panics_iff {bs : Bytes} : panicked (decode K bs) = true ↔ ShortLength bs := by
  constructor
  · intro h
    by_cases hlen : bs.length < 16
    · obtain ⟨e, he⟩ := decode_short (K := K) hlen
      rw [he] at h
      cases h
    refine ⟨by omega, ?_⟩
    by_contra hge
    have hsplit : bs = bs.take 8 ++ ((bs.drop 8).take 4 ++
        ((bs.drop 12).take 4 ++ bs.drop 16)) := by
      rw [show bs.drop 16 = (bs.drop 12).drop 4 by simp, List.take_append_drop,
        show bs.drop 12 = (bs.drop 8).drop 4 by simp, List.take_append_drop, List.take_append_drop]
    rw [hsplit, decode_fields K (by simp; omega) (by simp; omega) (by simp; omega),
      if_neg (show ¬ ofBe ((bs.drop 8).take 4) < 4 from hge)] at h
    refine absurd h (Bool.eq_false_iff.1 ?_)
    refine panicked_bind (readField_not_panicked _ _ _) fun p _ => ?_
    by_cases hcrc : (K.hash p.1).toNat ≠ ofBe ((bs.drop 12).take 4)
    · simp only [if_pos hcrc]
      rfl
    · simp only [if_neg hcrc]
      exact panicked_bind (parseData_not_panicked _ _) fun _ _ => rfl
  · intro h
    rw [decode_shortLength h]
    rfl

/-- **What `decode` can answer**: a record, an error, or the panic on a short length. -/
theorem decode_cases (K : Crates) (bs : Bytes) :
    (∃ r rest, decode K bs = .ok (r, rest)) ∨ (¬ ShortLength bs ∧ ∃ e, decode K bs = .error (.error e)) ∨
      (ShortLength bs ∧ decode K bs = .error (.panic "attempt to subtract with overflow")) := by
  by_cases hshort : ShortLength bs
  · exact .inr (.inr ⟨hshort, decode_shortLength hshort⟩)
  · have hcalm := mt (decode_panics_iff (K := K)).1 hshort
    match hd : decode K bs with
    | .ok (r, rest) => exact .inl ⟨r, rest, rfl⟩
    | .error (.error e) => exact .inr (.inl ⟨hshort, e, rfl⟩)
    | .error (.panic m) => rw [hd] at hcalm; exact absurd rfl hcalm

theorem consumes_decode (K : Crates) : Consumes (decode K) := by
  intro bs r rest h
  have := decode_consumes h
  omega

end DiskRecord

/-! ## The loops -/

/-- The panic of `length - 4`. -/
def shortLengthPanic : Fault := .panic "attempt to subtract with overflow"

/-- The records that decode one after the other from the front of the bytes. -/
def recordsIn (K : Crates) (bs : Bytes) : List DiskRecord :=
  (drain (decode K) (bs.length + 1) bs).1

/-- The bytes from which no further record decodes. -/
def stopIn (K : Crates) (bs : Bytes) : Bytes := (drain (decode K) (bs.length + 1) bs).2

theorem scanLoop_drain : ∀ {n : Nat} {bs : Bytes} (last : Nat), bs.length < n →
    LogSegment.scanLoop K n bs last =
      if ShortLength (drain (decode K) n bs).2 then .error shortLengthPanic
      else .ok (((drain (decode K) n bs).1.getLast?.map DiskRecord.offset).getD last)
  | 0, _, _, hn => absurd hn (Nat.not_lt_zero _)
  | n + 1, bs, last, hn => by
    unfold LogSegment.scanLoop
    rcases decode_cases K bs with ⟨r, rest, hd⟩ | ⟨hs, e, hd⟩ | ⟨hs, hd⟩
    · have hlt := consumes_decode K bs r rest hd
      rw [drain_ok hd, hd]
      simp only [scanLoop_drain r.offset (show rest.length < n by omega), List.getLast?_cons]
      cases (drain (decode K) n rest).1.getLast? <;> rfl
    · rw [drain_error hd, hd, if_neg hs]
      rfl
    · rw [drain_error hd, hd, if_pos hs]
      rfl

/-- **The scan** ends at the last record. -/
theorem scanLoop_eq (bs : Bytes) (last : Nat) :
    LogSegment.scanLoop K (bs.length + 1) bs last =
      if ShortLength (stopIn K bs) then .error shortLengthPanic
      else .ok (((recordsIn K bs).getLast?.map DiskRecord.offset).getD last) :=
  scanLoop_drain last (Nat.lt_succ_self _)

theorem readLoop_drain {offset : Nat} : ∀ {n : Nat} {bs : Bytes} {e : Fault}, bs.length < n →
    decode K (drain (decode K) n bs).2 = .error e →
    LogSegment.readLoop K offset n bs =
      match (drain (decode K) n bs).1.find? (fun r => offset ≤ r.offset) with
      | some r => if r.offset = offset then .ok r else .error (.error (.invalidOffset offset))
      | none => .error e
  | 0, _, _, hn, _ => absurd hn (Nat.not_lt_zero _)
  | n + 1, bs, e, hn, he => by
    unfold LogSegment.readLoop
    cases hd : decode K bs with
    | error e' =>
      rw [drain_error hd] at he ⊢
      rw [hd] at he
      cases he
      rfl
    | ok out =>
      obtain ⟨r, rest⟩ := out
      have hlt := consumes_decode K bs r rest hd
      rw [drain_ok hd] at he ⊢
      simp only [List.find?_cons]
      by_cases heq : r.offset = offset
      · simp [heq]
      by_cases hgt : r.offset > offset
      · simp [heq, hgt, Nat.le_of_lt hgt]
      · have hlow : ¬ offset ≤ r.offset := by omega
        simp only [heq, hgt, hlow, if_false, decide_false]
        exact readLoop_drain (by omega) he

/-- **A single read** returns the first record from the offset on, if it has the offset. -/
theorem readLoop_eq {offset : Nat} {bs : Bytes} {e : Fault}
    (he : decode K (stopIn K bs) = .error e) :
    LogSegment.readLoop K offset (bs.length + 1) bs =
      match (recordsIn K bs).find? (fun r => offset ≤ r.offset) with
      | some r => if r.offset = offset then .ok r else .error (.error (.invalidOffset offset))
      | none => .error e :=
  readLoop_drain (Nat.lt_succ_self _) he

theorem readBatchLoop_drain {start : Nat} : ∀ {n : Nat} {bs : Bytes} (count : Nat), bs.length < n →
    LogSegment.readBatchLoop K start n count bs =
      if ((drain (decode K) n bs).1.filter (fun r => start ≤ r.offset)).length < count ∧
          ShortLength (drain (decode K) n bs).2 then .error shortLengthPanic
      else .ok (((drain (decode K) n bs).1.filter (fun r => start ≤ r.offset)).take count)
  | 0, _, _, hn => absurd hn (Nat.not_lt_zero _)
  | n + 1, bs, 0, _ => by simp [LogSegment.readBatchLoop]
  | n + 1, bs, count + 1, hn => by
    unfold LogSegment.readBatchLoop
    rcases decode_cases K bs with ⟨r, rest, hd⟩ | ⟨hs, e, hd⟩ | ⟨hs, hd⟩
    · have hlt := consumes_decode K bs r rest hd
      rw [drain_ok hd, hd]
      simp only [List.filter_cons]
      by_cases hge : start ≤ r.offset
      · simp only [ge_iff_le, hge, if_true, decide_true,
          readBatchLoop_drain count (show rest.length < n by omega), List.length_cons,
          Nat.add_lt_add_iff_right, List.take_succ_cons]
        split_ifs <;> rfl
      · simp only [ge_iff_le, hge, if_false, decide_false, Bool.false_eq_true,
          readBatchLoop_drain (count + 1) (show rest.length < n by omega)]
    · rw [drain_error hd, hd, if_neg (fun h => hs h.2)]
      rfl
    · rw [drain_error hd, hd, if_pos ⟨Nat.succ_pos _, hs⟩]
      rfl

/-- **A batch read** returns the records from the start offset on, as many as asked for. -/
theorem readBatchLoop_eq (start count : Nat) (bs : Bytes) :
    LogSegment.readBatchLoop K start (bs.length + 1) count bs =
      if ((recordsIn K bs).filter (fun r => start ≤ r.offset)).length < count ∧
          ShortLength (stopIn K bs) then .error shortLengthPanic
      else .ok (((recordsIn K bs).filter (fun r => start ≤ r.offset)).take count) :=
  readBatchLoop_drain count (Nat.lt_succ_self _)

end Gaffa
