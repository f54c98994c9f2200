import Gaffa.Lib.Checksum
import Gaffa.Storage.Readout
import Gaffa.Storage.RecordStream

/-!
# One damaged byte in a stored record

`storage/src/record.rs`, `DiskRecord::decode` on an encoding of which one byte has changed.  The
checksum covers what stands behind it and nothing before it.

* `crc32_set_ne`: CRC-32 tells apart two strings that differ in one byte.
* `parseData_torn`: the checksummed part, cut short, does not parse, whatever its checksum says.
* `corruption_detected`: a change from the checksum field on, or one that leaves a length of at
  least four, is answered with an error; one in the offset gives the record another offset.
-/

set_option autoImplicit false

namespace Gaffa

open ByteString DiskRecord

/-! ## CRC-32 -/

/-- The bit step inside `crc32`. -/
def crcShift (c : UInt32) : UInt32 := if c &&& 1 = 1 then (c >>> 1) ^^^ 0xEDB88320 else c >>> 1

/-- The step of `crc32` by a byte. -/
def crcByte (c : UInt32) (b : UInt8) : UInt32 := Nat.iterate crcShift 8 (c ^^^ b.toUInt32)

theorem crc32_eq (data : Bytes) : crc32 data = data.foldl crcByte 0xFFFFFFFF ^^^ 0xFFFFFFFF := rfl

theorem and_one_eq_one (c : UInt32) : c &&& 1 = 1 ↔ c.toBitVec.getLsbD 0 = true := by
  rw [← UInt32.toBitVec_inj, UInt32.toBitVec_and]
  show c.toBitVec &&& 1#32 = 1#32 ↔ _
  rw [BitVec.and_one_eq_setWidth_ofBool_getLsbD]
  cases c.toBitVec.getLsbD 0 <;> decide

theorem crcShift_toBitVec (c : UInt32) :
    (crcShift c).toBitVec = Checksum.shift 0xEDB88320#32 c.toBitVec := by
  unfold crcShift Checksum.shift
  by_cases h : c &&& 1 = 1
  · rw [if_pos h, if_pos ((and_one_eq_one c).1 h)]
    simp
  · rw [if_neg h, if_neg (fun hl => h ((and_one_eq_one c).2 hl))]
    simp

theorem crcShift_injective : Function.Injective crcShift := by
  intro c c' heq
  have hshift := congrArg UInt32.toBitVec heq
  rw [crcShift_toBitVec, crcShift_toBitVec] at hshift
  exact UInt32.toBitVec_inj.1 (Checksum.shift_injective (by decide) hshift)

theorem sensitive_crcByte : Checksum.Sensitive crcByte where
  state b c c' heq := by
    have hxor : c ^^^ b.toUInt32 = c' ^^^ b.toUInt32 := crcShift_injective.iterate 8 heq
    exact (UInt32.xor_left_inj _).1 hxor
  byte c b b' heq := by
    have hxor : c ^^^ b.toUInt32 = c ^^^ b'.toUInt32 := crcShift_injective.iterate 8 heq
    have hword : b.toUInt32 = b'.toUInt32 := (UInt32.xor_right_inj _).1 hxor
    have hnat := congrArg UInt32.toNat hword
    exact UInt8.toNat_inj.1 (by simpa using hnat)

/-- **CRC-32 sees every change of one byte.** -/
theorem crc32_set_ne {data : Bytes} {i : Nat} {b : UInt8} (hne : data.set i b ≠ data) :
    crc32 (data.set i b) ≠ crc32 data := by
  intro heq
  rw [crc32_eq, crc32_eq] at heq
  exact sensitive_crcByte.foldl_set_ne 0xFFFFFFFF hne ((UInt32.xor_left_inj _).1 heq)

/-- A big-endian number changes with any of its bytes. -/
theorem ofBe_set_ne {field : Bytes} {i : Nat} {b : UInt8} (hne : field.set i b ≠ field) :
    ofBe (field.set i b) ≠ ofBe field := by
  have hstep : Checksum.Sensitive fun (n : Nat) (b : UInt8) => n * 256 + b.toNat :=
    { state := fun b n n' heq => by simpa using heq
      byte := fun n b b' heq => UInt8.toNat_inj.1 (by simpa using heq) }
  exact hstep.foldl_set_ne 0 hne

/-! ## The fields of an encoding -/

variable {K : Crates}

namespace DiskRecord

/-- The key field, cut: its length and the key are read, or the cut is inside one of them. -/
theorem readKey_take {key : Option Bytes} (hkey : ∀ k, key = some k → k.length < 2 ^ 31)
    (rest : Bytes) (k : Nat) :
    (∃ e, readField "key length" 4 ((keyField key ++ rest).take k) = .error (.error e)) ∨
    ∃ keyLenBuf cursor, 4 ≤ k ∧
      readField "key length" 4 ((keyField key ++ rest).take k) = .ok (keyLenBuf, cursor) ∧
      ((∃ e, readKey keyLenBuf cursor = .error (.error e)) ∨
        (keyField key).length ≤ k ∧
          readKey keyLenBuf cursor = .ok (key, rest.take (k - (keyField key).length))) := by
  cases key with
  | none =>
    have hneg : ofBe (toBe 4 (2 ^ 32 - 1)) = 2 ^ 32 - 1 := ofBe_toBe_of_lt (by decide)
    rcases readField_take "key length" rest (length_toBe 4 (2 ^ 32 - 1)) k with
      ⟨e, he, -⟩ | ⟨hk, hok⟩
    · exact .inl ⟨e, he⟩
    · refine .inr ⟨_, _, hk, hok, .inr ⟨by simpa [keyField] using hk, ?_⟩⟩
      unfold readKey
      rw [hneg, if_neg (by decide)]
      simp [keyField]
  | some key =>
    have hlt := hkey key rfl
    have hlen : ofBe (toBe 4 key.length) = key.length :=
      ofBe_toBe_of_lt (Nat.lt_trans hlt (by decide))
    have hsplit : keyField (some key) ++ rest = toBe 4 key.length ++ (key ++ rest) := by
      simp [keyField]
    have hfield : (keyField (some key)).length = 4 + key.length := by simp [keyField]
    rw [hsplit, hfield]
    rcases readField_take "key length" (key ++ rest) (length_toBe 4 key.length) k with
      ⟨e, he, -⟩ | ⟨hk, hok⟩
    · exact .inl ⟨e, he⟩
    · refine .inr ⟨_, _, hk, hok, ?_⟩
      unfold readKey
      rw [hlen, if_pos hlt]
      rcases readField_take "key" rest rfl (k - 4) with ⟨e, he, -⟩ | ⟨hk', hok'⟩
      · exact .inl ⟨e, by rw [he]⟩
      · exact .inr ⟨by omega, by rw [hok', Nat.sub_sub]⟩

/-- **The checksummed part, cut short,** does not parse: the value is always missing bytes. -/
theorem parseData_torn {r : DiskRecord} {z : Bytes}
    (hkey : ∀ key, r.key = some key → key.length < 2 ^ 31) (hlt : bodySize r z < 2 ^ 32)
    (offset : Nat) {k : Nat} (hk : k < (dataToChecksum r z).length) :
    ∃ e, parseData K offset ((dataToChecksum r z).take k) = .error (.error e) := by
  have hvlen : ofBe (toBe 4 z.length) = z.length :=
    ofBe_toBe_of_lt (by unfold bodySize at hlt; omega)
  have hsize : (dataToChecksum r z).length =
      1 + (8 + ((keyField r.key).length + (4 + z.length))) := by
    simp [dataToChecksum]; omega
  have hdata : dataToChecksum r z = [r.compression.toU8] ++ (toBe 8 r.timestamp.toNat ++
      (keyField r.key ++ (toBe 4 z.length ++ (z ++ [])))) := by simp [dataToChecksum]
  rw [hsize] at hk
  rw [hdata]
  unfold parseData
  rcases readField_take (n := 1) "compression type" (toBe 8 r.timestamp.toNat ++
      (keyField r.key ++ (toBe 4 z.length ++ (z ++ []))))
      (show [r.compression.toU8].length = 1 from rfl) k with
    ⟨e, he, -⟩ | ⟨h1, htag⟩
  · exact ⟨e, by rw [he]; rfl⟩
  rw [htag]
  simp only [ok_bind, List.headD_cons, CompressionType.fromU8_toU8]
  rcases readField_take "timestamp" (keyField r.key ++ (toBe 4 z.length ++ (z ++ [])))
      (length_toBe 8 r.timestamp.toNat) (k - 1) with
    ⟨e, he, -⟩ | ⟨h8, hts⟩
  · exact ⟨e, by rw [he]; rfl⟩
  rw [hts]
  simp only [ok_bind]
  rcases readKey_take hkey (toBe 4 z.length ++ (z ++ [])) (k - 1 - 8) with
    ⟨e, he⟩ | ⟨keyLenBuf, cursor, h4, hlen, ⟨e, he⟩ | ⟨hkl, hkv⟩⟩
  · exact ⟨e, by rw [he]; rfl⟩
  · exact ⟨e, by rw [hlen]; simp only [ok_bind, he]; rfl⟩
  rw [hlen]
  simp only [ok_bind, hkv]
  rcases readField_take "value length" (z ++ []) (length_toBe 4 z.length)
      (k - 1 - 8 - (keyField r.key).length) with ⟨e, he, -⟩ | ⟨hv, hvl⟩
  · exact ⟨e, by rw [he]; rfl⟩
  rw [hvl]
  simp only [ok_bind, hvlen]
  rcases readField_take "value" [] (rfl : z.length = z.length)
      (k - 1 - 8 - (keyField r.key).length - 4) with ⟨e, he, -⟩ | ⟨hz, -⟩
  · exact ⟨e, by rw [he]; rfl⟩
  · omega

/-- The four fields of an encoding. -/
theorem encode_fields {r : DiskRecord} {bs : Bytes} (henc : encode K r = .ok bs) :
    ∃ z, compress K r.value r.compression = .ok z ∧
      bs = toBe 8 r.offset ++ (toBe 4 (bodySize r z) ++
        (toBe 4 (K.hash (dataToChecksum r z)).toNat ++ dataToChecksum r z)) := by
  unfold DiskRecord.encode at henc
  split at henc
  · cases henc
  · rename_i z hz
    cases henc
    exact ⟨z, hz, rfl⟩

/-- A checksum field that is not the hash of the data behind it. -/
theorem decode_mismatch {o l c data : Bytes} (ho : o.length = 8) (hl : l.length = 4)
    (hc : c.length = 4) (hlen : ofBe l = data.length + 4) (hne : (K.hash data).toNat ≠ ofBe c) :
    ∃ e, decode K (o ++ (l ++ (c ++ data))) = .error (.error e) := by
  have hread : readField "record data" data.length data = .ok (data, []) := by
    simpa using readField_append "record data" [] (rfl : data.length = data.length)
  rw [decode_fields K ho hl hc, hlen, if_neg (by omega), Nat.add_sub_cancel, hread]
  simp only [ok_bind, if_pos hne]
  exact ⟨_, rfl⟩

/-- Another number in the offset field: the record comes back under it. -/
theorem decode_other_offset {r : DiskRecord} {z o : Bytes} (ho : o.length = 8)
    (hkey : ∀ key, r.key = some key → key.length < 2 ^ 31)
    (hz : decompress K z r.compression = .ok r.value) (hlt : bodySize r z < 2 ^ 32) :
    decode K (o ++ (toBe 4 (bodySize r z) ++
      (toBe 4 (K.hash (dataToChecksum r z)).toNat ++ dataToChecksum r z))) =
      .ok ({ r with offset := ofBe o }, []) := by
  have hparse : parseData K (ofBe o) (dataToChecksum r z) = .ok { r with offset := ofBe o } :=
    parseData_dataToChecksum (r := { r with offset := ofBe o }) hkey hz hlt
  have hcrc : ofBe (toBe 4 (K.hash (dataToChecksum r z)).toNat) =
      (K.hash (dataToChecksum r z)).toNat :=
    ofBe_toBe_of_lt (Nat.lt_of_lt_of_le (K.hash _).toNat_lt (by decide))
  have hread : readField "record data" (bodySize r z - 4) (dataToChecksum r z) =
      .ok (dataToChecksum r z, []) := by
    simpa using readField_append "record data" [] (length_dataToChecksum r z)
  have hge : ¬ bodySize r z < 4 := by unfold bodySize; omega
  rw [decode_fields K ho (length_toBe _ _) (length_toBe _ _),
    ofBe_toBe_of_lt (by simpa using hlt), if_neg hge, hread]
  simp only [ok_bind, hcrc, ne_eq, not_true_eq_false, if_false, hparse]

/-- Another number in the length field: a number above the length is read past the end, one of at
least four cuts the checksummed part short. -/
theorem decode_other_length {r : DiskRecord} {z l c : Bytes} {o : Bytes} (ho : o.length = 8)
    (hl : l.length = 4) (hc : c.length = 4)
    (hkey : ∀ key, r.key = some key → key.length < 2 ^ 31) (hlt : bodySize r z < 2 ^ 32)
    (hne : ofBe l ≠ bodySize r z) :
    (∃ e, decode K (o ++ (l ++ (c ++ dataToChecksum r z))) = .error (.error e)) ↔ 4 ≤ ofBe l := by
  rw [decode_fields K ho hl hc]
  by_cases h4 : ofBe l < 4
  · rw [if_pos h4]
    exact ⟨fun ⟨e, he⟩ => by simp at he, fun h => by omega⟩
  rw [if_neg h4]
  refine iff_of_true ?_ (by omega)
  have hlen := length_dataToChecksum r z
  have hbody : 4 ≤ bodySize r z := by unfold bodySize; omega
  by_cases hlong : bodySize r z < ofBe l
  · obtain ⟨e, he⟩ := readField_short "record data"
      (show (dataToChecksum r z).length < ofBe l - 4 by omega)
    exact ⟨e, by rw [he]; rfl⟩
  · have hread : readField "record data" (ofBe l - 4) (dataToChecksum r z) =
        .ok ((dataToChecksum r z).take (ofBe l - 4), (dataToChecksum r z).drop (ofBe l - 4)) := by
      have := readField_append "record data" ((dataToChecksum r z).drop (ofBe l - 4))
        (show ((dataToChecksum r z).take (ofBe l - 4)).length = ofBe l - 4 by
          rw [List.length_take]; omega)
      rwa [List.take_append_drop] at this
    rw [hread]
    simp only [ok_bind]
    split
    · exact ⟨_, rfl⟩
    · obtain ⟨e, he⟩ := parseData_torn hkey hlt (K := K) (ofBe o)
        (show ofBe l - 4 < (dataToChecksum r z).length by omega)
      exact ⟨e, by rw [he]; rfl⟩

/-- A changed checksum, or a changed byte behind it. -/
theorem decode_changed_data {r : DiskRecord} {z : Bytes} (hcrc : K.hash = crc32)
    (hlt : bodySize r z < 2 ^ 32) {j : Nat} {b : UInt8}
    (hne : (toBe 4 (K.hash (dataToChecksum r z)).toNat ++ dataToChecksum r z).set j b ≠
      toBe 4 (K.hash (dataToChecksum r z)).toNat ++ dataToChecksum r z) :
    ∃ e, decode K (toBe 8 r.offset ++ (toBe 4 (bodySize r z) ++
      (toBe 4 (K.hash (dataToChecksum r z)).toNat ++ dataToChecksum r z).set j b)) =
        .error (.error e) := by
  have hbody : ofBe (toBe 4 (bodySize r z)) = (dataToChecksum r z).length + 4 := by
    rw [ofBe_toBe_of_lt (by simpa using hlt), length_dataToChecksum]
    unfold bodySize
    omega
  have hhash : ofBe (toBe 4 (K.hash (dataToChecksum r z)).toNat) =
      (K.hash (dataToChecksum r z)).toNat :=
    ofBe_toBe_of_lt (Nat.lt_of_lt_of_le (K.hash _).toNat_lt (by decide))
  by_cases hj : j < 4
  · rw [List.set_append_left j b (by simpa using hj)] at hne ⊢
    refine decode_mismatch (length_toBe _ _) (length_toBe _ _) (by simp) hbody (fun heq => ?_)
    refine ofBe_set_ne (fun hset => hne (by rw [hset])) ?_
    rw [← heq, hhash]
  · rw [List.set_append_right j b (by simp; omega), length_toBe] at hne ⊢
    refine decode_mismatch (length_toBe _ _) (length_toBe _ _) (length_toBe _ _)
      (by simpa using hbody) (fun heq => ?_)
    rw [hhash] at heq
    have hsame := UInt32.toNat_inj.1 heq
    rw [hcrc] at hsame
    exact crc32_set_ne (fun hset => hne (by rw [hset])) hsame

/-! ## One changed byte -/


end DiskRecord

/-- **One changed byte** of a record's encoding.  From the checksum field on it is answered with an
error, and in the length field too if a length of at least four is left; the checksum does not
cover the offset, so there it gives the same record under another offset. -/
theorem corruption_detected (hK : K.Lawful) (hcrc : K.hash = crc32) {r : DiskRecord} {bs : Bytes}
    (henc : encode K r = .ok bs) {i : Nat} {b : UInt8} (hne : bs.set i b ≠ bs) :
    ((∀ z, compress K r.value r.compression = .ok z → bodySize r z < 2 ^ 32) → 12 ≤ i →
      ∃ e, decode K (bs.set i b) = .error (.error e)) ∧
    (Sized K r → 8 ≤ i → i < 12 → 4 ≤ lengthField (bs.set i b) →
      ∃ e, decode K (bs.set i b) = .error (.error e)) ∧
    (Sized K r → i < 8 →
      decode K (bs.set i b) = .ok ({ r with offset := ofBe ((bs.set i b).take 8) }, [])) := by
  obtain ⟨z, hz, rfl⟩ := encode_fields henc
  refine ⟨fun hfits h12 => ?_, fun hsized h8 h12 h4 => ?_, fun hsized h8 => ?_⟩
  · rw [List.set_append_right i b (by simp; omega), List.set_append_right _ b (by simp; omega)]
      at hne ⊢
    exact decode_changed_data hcrc (hfits z hz) (fun hset => hne (by rw [hset]))
  · have hlt := hsized.body_lt z hz
    rw [List.set_append_right i b (by simp; omega), List.set_append_left _ b (by simp; omega),
      length_toBe] at hne h4 ⊢
    have hlength : ofBe ((toBe 4 (bodySize r z)).set (i - 8) b) ≠ bodySize r z := by
      intro heq
      refine ofBe_set_ne (fun h => hne (by rw [h])) ?_
      rw [heq, ofBe_toBe_of_lt (by simpa using hlt)]
    unfold lengthField at h4
    rw [List.drop_left' (length_toBe _ _), List.take_left' (by simp)] at h4
    exact (decode_other_length (length_toBe _ _) (by simp) (length_toBe _ _) hsized.key_lt hlt
      hlength).2 h4
  · rw [List.set_append_left i b (by simp; omega), List.take_left' (by simp)]
    exact decode_other_offset (by simp) hsized.key_lt (hK _ _ _ hz) (hsized.body_lt z hz)

/-- A record of offset 5, with a key of one byte and a value of two. -/
def smallRecord : DiskRecord := ⟨5, 1, some [7], [1, 2], .none⟩

theorem sized_smallRecord : Sized plainCrates smallRecord := by
  refine ⟨by decide, ?_, ?_⟩
  · rintro key ⟨⟩
    decide
  · rintro z ⟨⟩
    decide

theorem corruption_detected_small :
    (∃ e, decode plainCrates ((encoded plainCrates smallRecord).set 35 3) = .error (.error e)) ∧
    (∃ e, decode plainCrates ((encoded plainCrates smallRecord).set 10 1) = .error (.error e)) ∧
      decode plainCrates ((encoded plainCrates smallRecord).set 0 128) =
        .ok ({ smallRecord with offset := 2 ^ 63 + 5 }, []) := by
  have henc : encode plainCrates smallRecord = .ok (encoded plainCrates smallRecord) := rfl
  refine ⟨?_, ?_, ?_⟩
  · refine (corruption_detected plainCrates_lawful rfl henc (by decide +kernel)).1 ?_ (by decide)
    exact sized_smallRecord.body_lt
  · exact (corruption_detected plainCrates_lawful rfl henc (by decide +kernel)).2.1
      sized_smallRecord (by decide) (by decide) (by decide +kernel)
  · exact (corruption_detected plainCrates_lawful rfl henc (by decide +kernel)).2.2
      sized_smallRecord (by decide)

/-- The last byte of the offset is 6 instead of 5: the record is returned as that of offset 6. -/
theorem corrupted_offset_accepted :
    ∃ (r r' : DiskRecord) (bs : Bytes) (i : Nat) (b : UInt8), encode plainCrates r = .ok bs ∧
      bs.set i b ≠ bs ∧ decode plainCrates (bs.set i b) = .ok (r', []) ∧ r' ≠ r :=
  ⟨smallRecord, { smallRecord with offset := 6 }, encoded plainCrates smallRecord, 7, 6,
    by decide +kernel⟩

end Gaffa
