import Gaffa.Protocol.Messages

/-!
# The on-disk record format

`storage/src/compression.rs` and `storage/src/record.rs`.  The compression crates and the
checksum crate are a parameter `Crates`; what the storage code relies on is `Crates.Lawful`
(decompression inverts compression), and nothing is assumed of the checksum.

* `decode_encoded`: decoding the encoding of a storable record, whatever follows it, returns the
  record and consumes exactly its encoding.
* `decode_torn`: a strict prefix of an encoding decodes to an error, never to a panic.
* `decode_consumes`: a decoded record has consumed at least sixteen bytes.
-/

set_option autoImplicit false

namespace Gaffa

open ByteString

/-! ## Compression -/

/-- `CompressionType`. -/
inductive CompressionType where
  | none
  | gzip
  | snappy
  | lz4
  deriving DecidableEq, Repr

/-- `CompressionType::to_u8`. -/
def CompressionType.toU8 : CompressionType → UInt8
  | .none => 0
  | .gzip => 1
  | .snappy => 2
  | .lz4 => 3

/-- `CompressionType::from_u8`. -/
def CompressionType.fromU8 (value : UInt8) : Except Fault CompressionType :=
  match value with
  | 0 => .ok .none
  | 1 => .ok .gzip
  | 2 => .ok .snappy
  | 3 => .ok .lz4
  | v => .error (.error (.invalidMessage ("Unknown compression type: " ++ toString v.toNat)))

theorem CompressionType.fromU8_toU8 (c : CompressionType) : fromU8 c.toU8 = .ok c := by
  cases c <;> rfl

/-- The third-party code behind the record format: `flate2`, `snap`, `lz4_flex`, `crc32fast`.
A failing call answers with the text of its error. -/
structure Crates where
  gzEncoder : Bytes → Except String Bytes
  gzDecoder : Bytes → Except String Bytes
  frameEncoder : Bytes → Except String Bytes
  frameDecoder : Bytes → Except String Bytes
  compressPrependSize : Bytes → Bytes
  decompressSizePrepended : Bytes → Except String Bytes
  hash : Bytes → UInt32

/-- `map_err(|e| GaffaError::Compression(..))`. -/
def compressionError (what : String) : Except String Bytes → Except Fault Bytes
  | .ok bs => .ok bs
  | .error e => .error (.error (.compression (what ++ " failed: " ++ e)))

/-- `compress`. -/
def compress (K : Crates) (data : Bytes) : CompressionType → Except Fault Bytes
  | .none => .ok data
  | .gzip => compressionError "Gzip compression" (K.gzEncoder data)
  | .snappy => compressionError "Snappy compression" (K.frameEncoder data)
  | .lz4 => .ok (K.compressPrependSize data)

/-- `decompress`. -/
def decompress (K : Crates) (data : Bytes) : CompressionType → Except Fault Bytes
  | .none => .ok data
  | .gzip => compressionError "Gzip decompression" (K.gzDecoder data)
  | .snappy => compressionError "Snappy decompression" (K.frameDecoder data)
  | .lz4 => compressionError "LZ4 decompression" (K.decompressSizePrepended data)

/-- Decompression inverts compression. -/
def Crates.Lawful (K : Crates) : Prop :=
  ∀ c data z, compress K data c = .ok z → decompress K z c = .ok data

/-- CRC-32, as `crc32fast::hash` computes it. -/
def crc32 (data : Bytes) : UInt32 :=
  let shift (c : UInt32) : UInt32 := if c &&& 1 = 1 then (c >>> 1) ^^^ 0xEDB88320 else c >>> 1
  data.foldl (fun c b => Nat.iterate shift 8 (c ^^^ b.toUInt32)) 0xFFFFFFFF ^^^ 0xFFFFFFFF

/-- The checksum crate, with codecs that leave the data as it is: for data that is stored
uncompressed these are the crates. -/
def plainCrates : Crates := ⟨.ok, .ok, .ok, .ok, id, .ok, crc32⟩

theorem plainCrates_lawful : plainCrates.Lawful := by
  intro c data z h
  cases c <;> cases h <;> rfl

/-! ## Records -/

/-- `DiskRecord`. -/
structure DiskRecord where
  offset : Nat
  timestamp : UInt64
  key : Option Bytes
  value : Bytes
  compression : CompressionType
  deriving DecidableEq, Repr

namespace DiskRecord

/-- `DiskRecord::new`. -/
def new (offset : Nat) (message : Message) : DiskRecord :=
  ⟨offset, message.timestamp, message.key, message.value, .none⟩

/-- `DiskRecord::new_with_compression`. -/
def newWithCompression (offset : Nat) (message : Message) (compression : CompressionType) :
    DiskRecord :=
  ⟨offset, message.timestamp, message.key, message.value, compression⟩

/-- `DiskRecord::to_message`. -/
def toMessage (r : DiskRecord) : Message := ⟨r.key, r.value, r.timestamp⟩

/-- Key length field and key; a missing key is the length `-1`. -/
def keyField : Option Bytes → Bytes
  | some key => toBe 4 key.length ++ key
  | none => toBe 4 (2 ^ 32 - 1)

/-- Everything behind the checksum field. -/
def dataToChecksum (r : DiskRecord) (valueData : Bytes) : Bytes :=
  r.compression.toU8 :: (toBe 8 r.timestamp.toNat ++ (keyField r.key ++
    (toBe 4 valueData.length ++ valueData)))

/-- Length of everything behind the length field. -/
def bodySize (r : DiskRecord) (valueData : Bytes) : Nat :=
  4 + 1 + 8 + 4 + (r.key.elim 0 List.length) + 4 + valueData.length

/-- `DiskRecord::encode`. -/
def encode (K : Crates) (r : DiskRecord) : Except Fault Bytes :=
  match compress K r.value r.compression with
  | .error e => .error e
  | .ok valueData =>
    .ok (toBe 8 r.offset ++ (toBe 4 (bodySize r valueData) ++
      (toBe 4 (K.hash (dataToChecksum r valueData)).toNat ++ dataToChecksum r valueData)))

/-- `read_exact(..).map_err(|e| GaffaError::Storage(format!("Failed to read {what}: {e}")))`. -/
def readField (what : String) (n : Nat) (reader : Bytes) : Except Fault (Bytes × Bytes) :=
  match readExact n reader with
  | some p => .ok p
  | none => .error (.error (.storage ("Failed to read " ++ what ++ ": failed to fill whole buffer")))

/-- The key behind its length field; a negative length is a missing key. -/
def readKey (keyLenBuf cursor : Bytes) : Except Fault (Option Bytes × Bytes) :=
  if ofBe keyLenBuf < 2 ^ 31 then
    match readField "key" (ofBe keyLenBuf) cursor with
    | .error e => .error e
    | .ok (key, cursor) => .ok (some key, cursor)
  else .ok (none, cursor)

/-- The part of `DiskRecord::decode` that parses the checksummed data. -/
def parseData (K : Crates) (offset : Nat) (data : Bytes) : Except Fault DiskRecord := do
  let (compressionBuf, cursor) ← readField "compression type" 1 data
  let compression ← CompressionType.fromU8 (compressionBuf.headD 0)
  let (timestampBuf, cursor) ← readField "timestamp" 8 cursor
  let (keyLenBuf, cursor) ← readField "key length" 4 cursor
  let (key, cursor) ← readKey keyLenBuf cursor
  let (valueLenBuf, cursor) ← readField "value length" 4 cursor
  let (valueData, _) ← readField "value" (ofBe valueLenBuf) cursor
  let value ← decompress K valueData compression
  .ok ⟨offset, UInt64.ofNat (ofBe timestampBuf), key, value, compression⟩

/-- `DiskRecord::decode`, with what it leaves in the reader.  A length field below 4 makes
`length - 4` underflow. -/
def decode (K : Crates) (reader : Bytes) : Except Fault (DiskRecord × Bytes) := do
  let (offsetBuf, reader) ← readField "offset" 8 reader
  let (lengthBuf, reader) ← readField "length" 4 reader
  let (crcBuf, reader) ← readField "CRC" 4 reader
  if ofBe lengthBuf < 4 then .error (.panic "attempt to subtract with overflow") else do
  let (data, reader) ← readField "record data" (ofBe lengthBuf - 4) reader
  if (K.hash data).toNat ≠ ofBe crcBuf then
    .error (.error (.corruption ("CRC mismatch at offset " ++ toString (ofBe offsetBuf) ++
      ": expected " ++ toString (ofBe crcBuf) ++ ", got " ++ toString (K.hash data).toNat)))
  else do
  let record ← parseData K (ofBe offsetBuf) data
  .ok (record, reader)

/-! ## Reading fields -/

theorem readField_append (what : String) {n : Nat} {field : Bytes} (rest : Bytes)
    (h : field.length = n) : readField what n (field ++ rest) = .ok (field, rest) := by
  simp [readField, readExact_append rest h]

theorem readField_short (what : String) {n : Nat} {bs : Bytes} (h : bs.length < n) :
    ∃ e, readField what n bs = .error (.error e) :=
  ⟨_, by simp only [readField, readExact_short h]; rfl⟩

theorem readField_ok {what : String} {n : Nat} {bs field rest : Bytes}
    (h : readField what n bs = .ok (field, rest)) : bs = field ++ rest ∧ field.length = n := by
  unfold readField at h
  split at h
  · rename_i p hp
    cases h
    exact readExact_some hp
  · cases h

theorem readField_length {what : String} {n : Nat} {bs field rest : Bytes}
    (h : readField what n bs = .ok (field, rest)) : bs.length = n + rest.length := by
  obtain ⟨rfl, hl⟩ := readField_ok h
  rw [List.length_append, hl]

/-- **`decode` behind the three fixed fields.** -/
theorem decode_fields (K : Crates) {o l c : Bytes} (ho : o.length = 8) (hl : l.length = 4)
    (hc : c.length = 4) (tail : Bytes) :
    decode K (o ++ (l ++ (c ++ tail))) =
      (if ofBe l < 4 then .error (.panic "attempt to subtract with overflow") else do
        let (data, reader) ← readField "record data" (ofBe l - 4) tail
        if (K.hash data).toNat ≠ ofBe c then
          .error (.error (.corruption ("CRC mismatch at offset " ++ toString (ofBe o) ++
            ": expected " ++ toString (ofBe c) ++ ", got " ++ toString (K.hash data).toNat)))
        else do
          let record ← parseData K (ofBe o) data
          .ok (record, reader)) := by
  unfold decode
  simp only [readField_append "offset" _ ho, readField_append "length" _ hl,
    readField_append "CRC" _ hc, ok_bind]

/-- A field of a string that is cut: it is read, or the cut is inside it. -/
theorem readField_take (what : String) {n : Nat} {field : Bytes} (rest : Bytes)
    (h : field.length = n) (k : Nat) :
    (∃ e, readField what n ((field ++ rest).take k) = .error (.error e) ∧ k < n) ∨
      n ≤ k ∧ readField what n ((field ++ rest).take k) = .ok (field, rest.take (k - n)) := by
  by_cases hk : k < n
  · obtain ⟨e, he⟩ := readField_short what
      (show ((field ++ rest).take k).length < n by simp; omega)
    exact .inl ⟨e, he, hk⟩
  · refine .inr ⟨by omega, ?_⟩
    rw [List.take_append, List.take_of_length_le (by omega), h]
    exact readField_append what _ h

/-! ## Round trip -/

/-- A record that the format can hold: its value compresses, and the fields fit their widths. -/
structure Storable (K : Crates) (r : DiskRecord) : Prop where
  offset_lt : r.offset < 2 ^ 64
  key_lt : ∀ key, r.key = some key → key.length < 2 ^ 31
  valueData : ∃ z, compress K r.value r.compression = .ok z ∧
    decompress K z r.compression = .ok r.value ∧ bodySize r z < 2 ^ 32

/-- The bytes of a record (nothing for a record whose value does not compress). -/
def encoded (K : Crates) (r : DiskRecord) : Bytes :=
  match encode K r with
  | .ok bs => bs
  | .error _ => []

theorem encoded_of_encode {K : Crates} {r : DiskRecord} {bs : Bytes}
    (h : encode K r = .ok bs) : encoded K r = bs := by simp [encoded, h]

theorem Storable.encode {K : Crates} {r : DiskRecord} (h : Storable K r) :
    encode K r = .ok (encoded K r) := by
  obtain ⟨z, hz, -, -⟩ := h.valueData
  unfold encoded DiskRecord.encode
  rw [hz]

theorem readKey_keyField {key : Option Bytes} (hkey : ∀ k, key = some k → k.length < 2 ^ 31)
    (rest : Bytes) : ∃ keyLenBuf, keyLenBuf.length = 4 ∧
      ∀ tail, keyField key ++ tail = keyLenBuf ++ (key.getD [] ++ tail) ∧
        readKey keyLenBuf (key.getD [] ++ rest) = .ok (key, rest) := by
  cases key with
  | none =>
    refine ⟨toBe 4 (2 ^ 32 - 1), length_toBe _ _, fun tail => ⟨rfl, ?_⟩⟩
    have hneg : ofBe (toBe 4 (2 ^ 32 - 1)) = 2 ^ 32 - 1 := ofBe_toBe_of_lt (by decide)
    unfold readKey
    rw [hneg, if_neg (by decide)]
    rfl
  | some k =>
    have hk := hkey k rfl
    have hlen : ofBe (toBe 4 k.length) = k.length :=
      ofBe_toBe_of_lt (Nat.lt_trans hk (by decide))
    refine ⟨toBe 4 k.length, by simp, fun tail => ⟨by simp [keyField], ?_⟩⟩
    simp only [readKey, hlen, if_pos hk, Option.getD_some, readField_append "key" rest rfl]

theorem parseData_dataToChecksum {K : Crates} {r : DiskRecord} {z : Bytes}
    (hkey : ∀ key, r.key = some key → key.length < 2 ^ 31)
    (hz : decompress K z r.compression = .ok r.value) (hlt : bodySize r z < 2 ^ 32) :
    parseData K r.offset (dataToChecksum r z) = .ok r := by
  have hvlen : ofBe (toBe 4 z.length) = z.length :=
    ofBe_toBe_of_lt (by unfold bodySize at hlt; omega)
  have hts : UInt64.ofNat (ofBe (toBe 8 r.timestamp.toNat)) = r.timestamp := by
    rw [ofBe_toBe_of_lt (Nat.lt_of_lt_of_le r.timestamp.toNat_lt (by decide))]
    simp
  obtain ⟨keyLenBuf, hkl, hkf⟩ := readKey_keyField hkey (toBe 4 z.length ++ z)
  obtain ⟨hsplit, hread⟩ := hkf (toBe 4 z.length ++ z)
  have hvalue : readField "value" z.length z = .ok (z, []) := by
    simpa using readField_append "value" [] (rfl : z.length = z.length)
  have htag : readField "compression type" 1 (dataToChecksum r z) =
      .ok ([r.compression.toU8], toBe 8 r.timestamp.toNat ++ (keyField r.key ++
        (toBe 4 z.length ++ z))) :=
    readField_append "compression type" _ (rfl : [r.compression.toU8].length = 1)
  unfold parseData
  simp only [htag, ok_bind, List.headD_cons, CompressionType.fromU8_toU8,
    readField_append "timestamp" _ (length_toBe 8 r.timestamp.toNat), hsplit,
    readField_append "key length" _ hkl, hread,
    readField_append "value length" _ (length_toBe 4 z.length), hvlen, hvalue, hz, hts]

theorem length_dataToChecksum (r : DiskRecord) (z : Bytes) :
    (dataToChecksum r z).length = bodySize r z - 4 := by
  unfold dataToChecksum bodySize keyField
  cases r.key <;> simp <;> omega

/-- **Decoding an encoding**, whatever follows it, gives the record back and consumes exactly the
encoding. -/
theorem decode_encoded {K : Crates} {r : DiskRecord} (h : Storable K r) (rest : Bytes) :
    decode K (encoded K r ++ rest) = .ok (r, rest) := by
  obtain ⟨z, hz, hd, hlt⟩ := h.valueData
  have henc : encoded K r = toBe 8 r.offset ++ (toBe 4 (bodySize r z) ++
      (toBe 4 (K.hash (dataToChecksum r z)).toNat ++ dataToChecksum r z)) := by
    simp only [encoded, DiskRecord.encode, hz]
  have hoff : ofBe (toBe 8 r.offset) = r.offset := ofBe_toBe_of_lt h.offset_lt
  have hlen : ofBe (toBe 4 (bodySize r z)) = bodySize r z := ofBe_toBe_of_lt hlt
  have hcrc : ofBe (toBe 4 (K.hash (dataToChecksum r z)).toNat) =
      (K.hash (dataToChecksum r z)).toNat :=
    ofBe_toBe_of_lt (Nat.lt_of_lt_of_le (K.hash _).toNat_lt (by decide))
  have hge : ¬ bodySize r z < 4 := by unfold bodySize; omega
  simp only [henc, List.append_assoc]
  rw [decode_fields K (length_toBe 8 r.offset) (length_toBe 4 _) (length_toBe 4 _), hlen, hcrc,
    if_neg hge, readField_append "record data" _ (length_dataToChecksum r z)]
  simp only [ok_bind, ne_eq, not_true_eq_false, if_false, hoff,
    parseData_dataToChecksum h.key_lt hd hlt]

/-! ## Torn records -/

/-- **A strict prefix of an encoding** decodes to an error, and not to a panic. -/
theorem decode_torn {K : Crates} {r : DiskRecord} (h : Storable K r) {k : Nat}
    (hk : k < (encoded K r).length) : ∃ e, decode K ((encoded K r).take k) = .error (.error e) := by
  obtain ⟨z, hz, -, hlt⟩ := h.valueData
  have henc : encoded K r = toBe 8 r.offset ++ (toBe 4 (bodySize r z) ++
      (toBe 4 (K.hash (dataToChecksum r z)).toNat ++ (dataToChecksum r z ++ []))) := by
    simp only [encoded, DiskRecord.encode, hz, List.append_nil]
  have hlen : ofBe (toBe 4 (bodySize r z)) = bodySize r z := ofBe_toBe_of_lt hlt
  have hge : ¬ bodySize r z < 4 := by unfold bodySize; omega
  rw [henc] at hk ⊢
  simp only [List.length_append, length_toBe, length_dataToChecksum, List.length_nil] at hk
  unfold decode
  rcases readField_take "offset" _ (length_toBe 8 r.offset) k with ⟨e, he, -⟩ | ⟨h8, hoffset⟩
  · exact ⟨e, by rw [he]; rfl⟩
  rw [hoffset]
  simp only [ok_bind]
  rcases readField_take "length" _ (length_toBe 4 (bodySize r z)) (k - 8) with
    ⟨e, he, -⟩ | ⟨h12, hlength⟩
  · exact ⟨e, by rw [he]; rfl⟩
  rw [hlength]
  simp only [ok_bind]
  rcases readField_take "CRC" _ (length_toBe 4 (K.hash (dataToChecksum r z)).toNat) (k - 8 - 4) with
    ⟨e, he, -⟩ | ⟨h16, hcrc⟩
  · exact ⟨e, by rw [he]; rfl⟩
  rw [hcrc]
  simp only [ok_bind, hlen, if_neg hge]
  rcases readField_take "record data" [] (length_dataToChecksum r z) (k - 8 - 4 - 4) with
    ⟨e, he, -⟩ | ⟨hall, -⟩
  · exact ⟨e, by rw [he]; rfl⟩
  · omega

theorem decode_nil (K : Crates) : ∃ e, decode K [] = .error (.error e) := by
  obtain ⟨e, he⟩ := readField_short "offset" (show ([] : Bytes).length < 8 by simp)
  exact ⟨e, by unfold decode; rw [he]; rfl⟩

/-! ## What a successful decode says -/

/-- A decoded record has consumed at least sixteen bytes of the reader. -/
theorem decode_consumes {K : Crates} {reader rest : Bytes} {r : DiskRecord}
    (h : decode K reader = .ok (r, rest)) : rest.length + 16 ≤ reader.length := by
  unfold decode at h
  obtain ⟨⟨offsetBuf, reader₁⟩, h1, h⟩ := bind_ok h
  obtain ⟨⟨lengthBuf, reader₂⟩, h2, h⟩ := bind_ok h
  obtain ⟨⟨crcBuf, reader₃⟩, h3, h⟩ := bind_ok h
  have l1 := readField_length h1
  have l2 := readField_length h2
  have l3 := readField_length h3
  simp only at h l1 l2 l3
  split at h
  · cases h
  obtain ⟨⟨data, reader₄⟩, h4, h⟩ := bind_ok h
  have l4 := readField_length h4
  simp only at h l4
  split at h
  · cases h
  obtain ⟨record, -, h⟩ := bind_ok h
  cases h
  omega

theorem length_encoded_ge {K : Crates} {r : DiskRecord} (h : Storable K r) :
    16 ≤ (encoded K r).length := by
  have := decode_consumes (decode_encoded h [])
  simpa using this

end DiskRecord

end Gaffa
