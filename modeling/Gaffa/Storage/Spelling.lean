import Gaffa.Storage.ArbitraryFiles

/-!
# What the reader accepts

The bytes that `DiskRecord::decode` takes for a record are more than those that `encode` writes: any
negative key length stands for a missing key, any compressed text that decompresses to the value for the
value, and bytes behind the value are passed over.  `Spells` says which they are.

* `precise_decode`: `decode` takes these bytes, and nothing else.
* `SpelledAs.encode_iff`: which of them `encode` would have written.
* `segment_reads`: every log file has one reading, and opening it and reading from it give that reading.
-/

set_option autoImplicit false

namespace Gaffa

open ByteString PrefixCode

variable {K : Crates} {r : DiskRecord} {field z behind data code : Bytes}

namespace DiskRecord

/-! ## The format -/

/-- The key length and the key; a missing key is any length that is negative as an `i32`. -/
def KeyField (field : Bytes) : Option Bytes → Prop
  | some key => key.length < 2 ^ 31 ∧ field = toBe 4 key.length ++ key
  | none => field.length = 4 ∧ 2 ^ 31 ≤ ofBe field

/-- Compression, timestamp, key, value, and whatever stands behind the value. -/
def dataOf (r : DiskRecord) (field z behind : Bytes) : Bytes :=
  [r.compression.toU8] ++ (toBe 8 r.timestamp.toNat ++ (field ++ (toBe 4 z.length ++ (z ++ behind))))

/-- Offset, length, checksum and the checksummed bytes. -/
def codeOf (K : Crates) (offset : Nat) (data : Bytes) : Bytes :=
  toBe 8 offset ++ (toBe 4 (data.length + 4) ++ (toBe 4 (K.hash data).toNat ++ data))

/-- The checksummed bytes of a record. -/
structure DataAs (K : Crates) (r : DiskRecord) (field z behind data : Bytes) : Prop where
  key : KeyField field r.key
  value_lt : z.length < 2 ^ 32
  value : decompress K z r.compression = .ok r.value
  data_eq : data = dataOf r field z behind

/-- The bytes of a record. -/
structure SpelledAs (K : Crates) (r : DiskRecord) (field z behind data code : Bytes) : Prop where
  checksummed : DataAs K r field z behind data
  offset_lt : r.offset < 2 ^ 64
  size_lt : data.length + 4 < 2 ^ 32
  code_eq : code = codeOf K r.offset data

/-- The bytes spell the record. -/
def Spells (K : Crates) (r : DiskRecord) (code : Bytes) : Prop :=
  ∃ field z behind data, SpelledAs K r field z behind data code

/-! ## `decode` takes the format -/

theorem readField_iff {what : String} {n : Nat} {bs rest : Bytes} :
    readField what n bs = .ok (field, rest) ↔ bs = field ++ rest ∧ field.length = n := by
  refine ⟨readField_ok, ?_⟩
  rintro ⟨rfl, h⟩
  exact readField_append what rest h

/-- The key behind its length. -/
theorem readKey_iff {keyLenBuf cursor rest : Bytes} {key : Option Bytes}
    (hlength : keyLenBuf.length = 4) :
    readKey keyLenBuf cursor = .ok (key, rest) ↔
      ∃ field, KeyField field key ∧ keyLenBuf ++ cursor = field ++ rest := by
  constructor
  · intro h
    unfold readKey at h
    split at h
    · rename_i hlt
      cases hread : readField "key" (ofBe keyLenBuf) cursor with
      | error e =>
        rw [hread] at h
        cases h
      | ok out =>
        rw [hread] at h
        cases h
        obtain ⟨rfl, hkey⟩ := readField_iff.1 hread
        refine ⟨keyLenBuf ++ out.1, ⟨by rwa [hkey], ?_⟩, (List.append_assoc ..).symm⟩
        rw [hkey, toBe_ofBe hlength]
    · rename_i hge
      cases h
      exact ⟨keyLenBuf, ⟨hlength, Nat.le_of_not_lt hge⟩, rfl⟩
  · rintro ⟨field, hfield, heq⟩
    cases key with
    | none =>
      obtain ⟨hfour, hge⟩ := hfield
      obtain ⟨rfl, rfl⟩ := List.append_inj heq (hlength.trans hfour.symm)
      exact if_neg (Nat.not_lt_of_le hge)
    | some key =>
      obtain ⟨hlt, rfl⟩ := hfield
      rw [List.append_assoc] at heq
      obtain ⟨rfl, rfl⟩ := List.append_inj heq (by rw [hlength, length_toBe])
      have hof : ofBe (toBe 4 key.length) = key.length :=
        ofBe_toBe_of_lt (Nat.lt_trans hlt (by decide))
      unfold readKey
      rw [hof, if_pos hlt, readField_append "key" rest rfl]

theorem fromU8_iff {value : UInt8} {c : CompressionType} :
    CompressionType.fromU8 value = .ok c ↔ value = c.toU8 := by
  constructor
  · intro h
    unfold CompressionType.fromU8 at h
    split at h <;> cases h <;> rfl
  · rintro rfl
    exact CompressionType.fromU8_toU8 c

/-- The checksummed bytes that parse. -/
theorem parseData_iff {offset : Nat} :
    parseData K offset data = .ok r ↔
      r.offset = offset ∧ ∃ field z behind, DataAs K r field z behind data := by
  constructor
  · intro hparse
    unfold parseData at hparse
    obtain ⟨⟨tag, cursor₁⟩, hread₁, h₁⟩ := bind_ok hparse
    obtain ⟨compression, hcompression, h₂⟩ := bind_ok h₁
    obtain ⟨⟨timestampBuf, cursor₂⟩, hread₂, h₃⟩ := bind_ok h₂
    obtain ⟨⟨keyLenBuf, cursor₃⟩, hread₃, h₄⟩ := bind_ok h₃
    obtain ⟨⟨key, cursor₄⟩, hread₄, h₅⟩ := bind_ok h₄
    obtain ⟨⟨valueLenBuf, cursor₅⟩, hread₅, h₆⟩ := bind_ok h₅
    obtain ⟨⟨valueData, behind⟩, hread₆, h₇⟩ := bind_ok h₆
    obtain ⟨value, hdecompress, h₈⟩ := bind_ok h₇
    cases h₈
    clear hparse h₁ h₂ h₃ h₄ h₅ h₆ h₇
    obtain ⟨rfl, htag⟩ := readField_iff.1 hread₁
    obtain ⟨rfl, htimestamp⟩ := readField_iff.1 hread₂
    obtain ⟨rfl, hkeyLen⟩ := readField_iff.1 hread₃
    obtain ⟨field, hfield, heq⟩ := (readKey_iff hkeyLen).1 hread₄
    obtain ⟨rfl, hvalueLen⟩ := readField_iff.1 hread₅
    obtain ⟨rfl, hvalue⟩ := readField_iff.1 hread₆
    obtain ⟨b, rfl⟩ := List.length_eq_one_iff.1 htag
    have hlt : ofBe valueLenBuf < 2 ^ 32 :=
      Nat.lt_of_lt_of_le (ofBe_lt hvalueLen) (by decide)
    have hstamp : (UInt64.ofNat (ofBe timestampBuf)).toNat = ofBe timestampBuf := by
      rw [UInt64.toNat_ofNat']
      exact Nat.mod_eq_of_lt (Nat.lt_of_lt_of_le (ofBe_lt htimestamp) (by decide))
    refine ⟨rfl, field, valueData, behind, hfield, by rwa [hvalue], hdecompress, ?_⟩
    have hb : b = compression.toU8 := fromU8_iff.1 hcompression
    rw [dataOf, hb, heq, hstamp, hvalue, toBe_ofBe hvalueLen, toBe_ofBe htimestamp]
  · rintro ⟨rfl, field, z, behind, hkey, hlt, hvalue, rfl⟩
    have hlen : ofBe (toBe 4 z.length) = z.length := ofBe_toBe_of_lt hlt
    have hstamp : UInt64.ofNat (ofBe (toBe 8 r.timestamp.toNat)) = r.timestamp := by
      rw [ofBe_toBe_of_lt (Nat.lt_of_lt_of_le r.timestamp.toNat_lt (by decide))]
      exact UInt64.ofNat_toNat
    obtain ⟨keyLenBuf, cursor, hkeyLen, hread, hfield⟩ : ∃ keyLenBuf cursor,
        keyLenBuf.length = 4 ∧
        readKey keyLenBuf cursor = .ok (r.key, toBe 4 z.length ++ (z ++ behind)) ∧
        field ++ (toBe 4 z.length ++ (z ++ behind)) = keyLenBuf ++ cursor := by
      have hfour : 4 ≤ field.length := by
        cases hkey' : r.key with
        | none =>
          rw [hkey'] at hkey
          exact hkey.1.ge
        | some key =>
          rw [hkey'] at hkey
          rw [hkey.2, List.length_append, length_toBe]
          exact Nat.le_add_right 4 _
      have hsplit : field ++ (toBe 4 z.length ++ (z ++ behind)) =
          field.take 4 ++ (field.drop 4 ++ (toBe 4 z.length ++ (z ++ behind))) := by
        rw [← List.append_assoc (field.take 4), List.take_append_drop]
      have htake : (field.take 4).length = 4 := List.length_take_of_le hfour
      exact ⟨_, _, htake, (readKey_iff htake).2 ⟨field, hkey, hsplit.symm⟩, hsplit⟩
    have htag : readField "compression type" 1 ([r.compression.toU8] ++ (toBe 8 r.timestamp.toNat ++
        (keyLenBuf ++ cursor))) = .ok ([r.compression.toU8], _) :=
      readField_append "compression type" _ rfl
    unfold parseData dataOf
    rw [hfield, htag]
    simp only [ok_bind, List.headD_cons, CompressionType.fromU8_toU8,
      readField_append "timestamp" _ (length_toBe 8 r.timestamp.toNat),
      readField_append "key length" _ hkeyLen, hread,
      readField_append "value length" _ (length_toBe 4 z.length), hlen,
      readField_append "value" behind (rfl : z.length = z.length), hvalue, hstamp]

/-- **`decode` takes the bytes that spell a record, and nothing else.** -/
theorem precise_decode (K : Crates) : Precise (decode K) (Spells K) := by
  intro bs r rest
  constructor
  · intro hdecode
    unfold decode at hdecode
    obtain ⟨⟨offsetBuf, reader₁⟩, hread₁, h₁⟩ := bind_ok hdecode
    obtain ⟨⟨lengthBuf, reader₂⟩, hread₂, h₂⟩ := bind_ok h₁
    obtain ⟨⟨crcBuf, reader₃⟩, hread₃, h₃⟩ := bind_ok h₂
    clear hdecode h₁ h₂
    obtain ⟨rfl, hoffset⟩ := readField_iff.1 hread₁
    obtain ⟨rfl, hlength⟩ := readField_iff.1 hread₂
    obtain ⟨rfl, hcrc⟩ := readField_iff.1 hread₃
    simp only at h₃
    split at h₃
    · cases h₃
    rename_i hge
    obtain ⟨⟨data, reader₄⟩, hread₄, h₄⟩ := bind_ok h₃
    clear h₃
    obtain ⟨rfl, hdata⟩ := readField_iff.1 hread₄
    simp only at h₄
    split at h₄
    · cases h₄
    rename_i hhash
    obtain ⟨record, hparse, h₅⟩ := bind_ok h₄
    cases h₅
    obtain ⟨hr, field, z, behind, hspelled⟩ := parseData_iff.1 hparse
    have hsize : data.length + 4 = ofBe lengthBuf := by omega
    refine ⟨offsetBuf ++ (lengthBuf ++ (crcBuf ++ data)), ⟨field, z, behind, data, hspelled, ?_, ?_, ?_⟩,
      by simp only [List.append_assoc]⟩
    · rw [hr]
      exact Nat.lt_of_lt_of_le (ofBe_lt hoffset) (by decide)
    · rw [hsize]
      exact Nat.lt_of_lt_of_le (ofBe_lt hlength) (by decide)
    · rw [codeOf, hr, hsize, not_not.1 hhash, toBe_ofBe hoffset, toBe_ofBe hlength, toBe_ofBe hcrc]
  · rintro ⟨code, ⟨field, z, behind, data, hspelled, hlt, hsize, rfl⟩, rfl⟩
    have hoffset : ofBe (toBe 8 r.offset) = r.offset := ofBe_toBe_of_lt hlt
    have hlength : ofBe (toBe 4 (data.length + 4)) = data.length + 4 := ofBe_toBe_of_lt hsize
    have hcrc : ofBe (toBe 4 (K.hash data).toNat) = (K.hash data).toNat :=
      ofBe_toBe_of_lt (Nat.lt_of_lt_of_le (K.hash data).toNat_lt (by decide))
    simp only [codeOf, List.append_assoc]
    rw [decode_fields K (length_toBe 8 _) (length_toBe 4 _) (length_toBe 4 _), hlength, hcrc, hoffset,
      if_neg (by omega), Nat.add_sub_cancel, readField_append "record data" rest rfl]
    simp only [ok_bind, ne_eq, not_true_eq_false, if_false,
      parseData_iff.2 ⟨rfl, field, z, behind, hspelled⟩]

/-! ## What `encode` writes of it -/

theorem KeyField.length_eq {key : Option Bytes} (h : KeyField field key) :
    field.length = (keyField key).length := by
  cases key with
  | none => rw [h.1, keyField, length_toBe]
  | some key => rw [h.2, keyField]

/-- The bytes that `encode` writes. -/
theorem encode_of_compress (h : compress K r.value r.compression = .ok z) :
    encode K r = .ok (codeOf K r.offset (dataOf r (keyField r.key) z [])) := by
  have hdata : dataToChecksum r z = dataOf r (keyField r.key) z [] := by
    rw [dataOf, List.append_nil]
    rfl
  have hsize : bodySize r z = (dataToChecksum r z).length + 4 := by
    rw [length_dataToChecksum]
    unfold bodySize
    omega
  unfold encode
  rw [h, codeOf, ← hdata, ← hsize]

theorem codeOf_inj {offset : Nat} {data' : Bytes} (h : codeOf K offset data = codeOf K offset data') :
    data = data' := by
  obtain ⟨-, h⟩ := List.append_inj h rfl
  obtain ⟨-, h⟩ := List.append_inj h (by rw [length_toBe, length_toBe])
  exact (List.append_inj h (by rw [length_toBe, length_toBe])).2

theorem length_dataOf : (dataOf r field z behind).length = 13 + field.length + z.length + behind.length := by
  simp only [dataOf, List.length_append, List.length_singleton, length_toBe]
  omega

/-- **What `encode` writes**: the bytes with the key length `-1` for a missing key, with the text that
the compressor gives, and with nothing behind it. -/
theorem SpelledAs.encode_iff (h : SpelledAs K r field z behind data code) :
    encode K r = .ok code ↔
      field = keyField r.key ∧ compress K r.value r.compression = .ok z ∧ behind = [] := by
  obtain ⟨⟨hkey, hz, -, rfl⟩, -, hsize, rfl⟩ := h
  constructor
  · intro hencode
    cases hcompress : compress K r.value r.compression with
    | error e =>
      unfold encode at hencode
      rw [hcompress] at hencode
      cases hencode
    | ok z' =>
      rw [encode_of_compress hcompress] at hencode
      have hdata := codeOf_inj (Except.ok.inj hencode)
      have hlength := congrArg List.length hdata
      rw [length_dataOf, length_dataOf, hkey.length_eq, List.length_nil] at hlength
      rw [length_dataOf] at hsize
      unfold dataOf at hdata
      obtain ⟨-, hdata⟩ := List.append_inj (List.append_cancel_left hdata) rfl
      obtain ⟨hfield, hdata⟩ := List.append_inj hdata hkey.length_eq.symm
      obtain ⟨hlen, hvalue⟩ := List.append_inj hdata (by rw [length_toBe, length_toBe])
      have hsame : z'.length = z.length := by
        rw [← ofBe_toBe_of_lt (w := 4) (show z'.length < 256 ^ 4 by omega), hlen, ofBe_toBe_of_lt hz]
      have hbehind : behind = [] := List.eq_nil_of_length_eq_zero (by omega)
      rw [hbehind, List.append_nil, List.append_nil] at hvalue
      exact ⟨hfield.symm, by rw [hvalue], hbehind⟩
  · rintro ⟨rfl, hcompress, rfl⟩
    exact encode_of_compress hcompress

end DiskRecord

open DiskRecord LogSegment

/-! ## What a segment says -/

section Readings

variable {bs tail : Bytes} {items : List DiskRecord} {codes : List Bytes}

theorem recordsIn_eq (h : Reading (Spells K) bs items codes tail) :
    recordsIn K bs = items ∧ stopIn K bs = tail := by
  have hlength : items.length < bs.length + 1 := by
    have hle := (precise_decode K).whole.length_le_flatten (consumes_decode K) h.spelled
    rw [h.stream_eq, List.length_append]
    omega
  have hdrain := (precise_decode K).drain_eq h hlength
  exact ⟨congrArg Prod.fst hdrain, congrArg Prod.snd hdrain⟩

/-- A single read over a reading. -/
theorem readLoop_ok_iff (h : Reading (Spells K) bs items codes tail) {offset : Nat} :
    readLoop K offset (bs.length + 1) bs = .ok r ↔
      items.find? (fun r => offset ≤ r.offset) = some r ∧ r.offset = offset := by
  obtain ⟨hitems, htail⟩ := recordsIn_eq h
  obtain ⟨e, he⟩ := ((precise_decode K).error_iff tail).2 h.stops
  rw [readLoop_eq (htail.symm ▸ he), hitems]
  cases items.find? (fun r => offset ≤ r.offset) with
  | none => exact ⟨fun h => (nomatch h), fun h => (nomatch h.1)⟩
  | some found =>
    simp only [Option.some.injEq]
    split_ifs with heq
    · constructor
      · rintro ⟨⟩
        exact ⟨rfl, heq⟩
      · rintro ⟨rfl, -⟩
        rfl
    · constructor
      · rintro ⟨⟩
      · rintro ⟨rfl, h⟩
        exact absurd h heq

/-- A batch read over a reading. -/
theorem readBatchLoop_ok_iff (h : Reading (Spells K) bs items codes tail) {start count : Nat}
    {rs : List DiskRecord} :
    readBatchLoop K start (bs.length + 1) count bs = .ok rs ↔
      rs = (items.filter (fun r => start ≤ r.offset)).take count ∧
        (ShortLength tail → count ≤ (items.filter (fun r => start ≤ r.offset)).length) := by
  obtain ⟨hitems, htail⟩ := recordsIn_eq h
  rw [readBatchLoop_eq, hitems, htail]
  split_ifs with hshort
  · exact ⟨fun h => (nomatch h), fun h => absurd (h.2 hshort.2) (Nat.not_le_of_lt hshort.1)⟩
  · rw [Except.ok.injEq]
    exact ⟨fun h => ⟨h.symm, fun hs => Nat.le_of_not_lt fun hlt => hshort ⟨hlt, hs⟩⟩, fun h => h.1.symm⟩

end Readings

section Segments

variable {base : Nat} {config : SegmentConfig} {d : Dir} {log indexFile tail : Bytes}
  {items : List DiskRecord} {codes : List Bytes}

/-- The offset behind the records. -/
def offsetBehind (base : Nat) (items : List DiskRecord) : Nat :=
  (items.getLast?.map DiskRecord.offset).getD base + 1

/-- Which logs open, and with which next offset. -/
theorem open_iff (hlog : d.get (logPath base) = some log)
    (hindex : d.get (indexPath base) = some indexFile) (h : Reading (Spells K) log items codes tail)
    (s : LogSegment) :
    open_ K base config d = .ok s ↔ s = segmentOver K base config log indexFile ∧
      ¬ ShortLength tail ∧ (log = [] ∨ offsetBehind base items < 2 ^ 64) := by
  obtain ⟨rfl, rfl⟩ := recordsIn_eq h
  have hbehind : lastOffset K base log + 1 = offsetBehind base (recordsIn K log) := rfl
  rw [open_eq hlog hindex, hbehind]
  split_ifs with hshort hfits
  · exact ⟨fun h => (nomatch h), fun h => absurd hshort h.2.1⟩
  · rw [Except.ok.injEq]
    exact ⟨fun h => ⟨h.symm, hshort, hfits⟩, fun h => h.1.symm⟩
  · exact ⟨fun h => (nomatch h), fun h => absurd h.2.2 hfits⟩

/-- A position behind the end of the log has nothing to read. -/
theorem items_nil_of_le {position : Nat} (hle : log.length ≤ position)
    (h : Reading (Spells K) (log.drop position) items codes tail) : items = [] := by
  rw [List.drop_eq_nil_of_le hle] at h
  obtain ⟨e, he⟩ := decode_nil K
  have hnil := (recordsIn_eq h).1
  rw [recordsIn, drain_error he] at hnil
  exact hnil.symm

/-- The offsets that a segment serves. -/
def LogSegment.Serves (s : LogSegment) (offset : Nat) : Prop :=
  s.baseOffset ≤ offset ∧ offset < s.nextOffset

/-- **A read** returns the record of the offset, if the first record from the offset on has it. -/
theorem read_ok_iff (hlog : d.get (logPath base) = some log)
    (hindex : d.get (indexPath base) = some indexFile) {offset : Nat}
    (hserves : (segmentOver K base config log indexFile).Serves offset)
    (h : Reading (Spells K) (log.drop (startFor indexFile offset)) items codes tail) :
    read K d (segmentOver K base config log indexFile) offset = .ok r ↔
      items.find? (fun r => offset ≤ r.offset) = some r ∧ r.offset = offset := by
  obtain ⟨hne, hle, hlast⟩ := served_opened
    ⟨Nat.not_lt_of_le hserves.1, Nat.not_le_of_lt hserves.2⟩
  by_cases hstart : startFor indexFile offset ≤ log.length
  · rw [read_opened hlog hindex hne hle hlast hstart]
    exact readLoop_ok_iff h
  · have hpanic : read K d (segmentOver K base config log indexFile) offset =
        .error (.panic "range start index out of range for slice") := by
      unfold LogSegment.read
      rw [if_neg (Nat.not_lt_of_le hserves.1), if_neg (Nat.not_le_of_lt hserves.2),
        readerAt_opened hlog hindex hne, if_neg hstart]
    rw [hpanic, items_nil_of_le (Nat.le_of_not_le hstart) h]
    exact ⟨fun h => (nomatch h), fun h => (nomatch h.1)⟩

/-- **A batch read** returns the records from the offset on, as many as asked for. -/
theorem readBatch_ok_iff (hlog : d.get (logPath base) = some log)
    (hindex : d.get (indexPath base) = some indexFile) {offset : Nat}
    (hserves : (segmentOver K base config log indexFile).Serves offset)
    (h : Reading (Spells K) (log.drop (startFor indexFile offset)) items codes tail) {count : Nat}
    {rs : List DiskRecord} :
    readBatch K d (segmentOver K base config log indexFile) offset count = .ok rs ↔
      startFor indexFile offset ≤ log.length ∧
      rs = (items.filter (fun r => offset ≤ r.offset)).take count ∧
      (ShortLength tail → count ≤ (items.filter (fun r => offset ≤ r.offset)).length) := by
  obtain ⟨hne, hle, hlast⟩ := served_opened
    ⟨Nat.not_lt_of_le hserves.1, Nat.not_le_of_lt hserves.2⟩
  rw [readBatch_opened hlog hindex hne hle hlast]
  split_ifs with hstart
  · rw [readBatchLoop_ok_iff h, and_iff_right hstart]
  · exact ⟨fun h => (nomatch h), fun h => absurd h.1 hstart⟩

end Segments

/-- **What a segment says**: whatever the two files hold, the log has from every position on one
reading, as codes of records and a tail that begins with none; and whether the segment opens, its next
offset, and what its reads return are what the readings say. -/
theorem segment_reads (K : Crates) (base : Nat) (config : SegmentConfig) {d : Dir}
    {log indexFile : Bytes} (hlog : d.get (logPath base) = some log)
    (hindex : d.get (indexPath base) = some indexFile) :
    (∀ position, ∃! reading : List DiskRecord × List Bytes × Bytes,
      Reading (Spells K) (log.drop position) reading.1 reading.2.1 reading.2.2) ∧
    (∀ items codes tail, Reading (Spells K) log items codes tail →
      ((∃ s, open_ K base config d = .ok s) ↔
        ¬ ShortLength tail ∧ (log = [] ∨ offsetBehind base items < 2 ^ 64)) ∧
      ∀ s, open_ K base config d = .ok s → s.baseOffset = base ∧
        s.nextOffset = if log = [] then base else offsetBehind base items) ∧
    ∀ s, open_ K base config d = .ok s → ∀ offset, s.Serves offset → ∀ items codes tail,
      Reading (Spells K) (log.drop (startFor indexFile offset)) items codes tail →
        (∀ r, read K d s offset = .ok r ↔
          items.find? (fun r => offset ≤ r.offset) = some r ∧ r.offset = offset) ∧
        ∀ count rs, readBatch K d s offset count = .ok rs ↔ startFor indexFile offset ≤ log.length ∧
          rs = (items.filter (fun r => offset ≤ r.offset)).take count ∧
          (ShortLength tail → count ≤ (items.filter (fun r => offset ≤ r.offset)).length) := by
  have hreading : ∀ stream, ∃! reading : List DiskRecord × List Bytes × Bytes,
      Reading (Spells K) stream reading.1 reading.2.1 reading.2.2 :=
    (precise_decode K).existsUnique_reading (consumes_decode K)
  refine ⟨fun position => hreading _, fun items codes tail h => ⟨?_, fun s hs => ?_⟩,
    fun s hs offset hserves items codes tail h => ?_⟩
  · constructor
    · rintro ⟨s, hs⟩
      exact ((open_iff hlog hindex h s).1 hs).2
    · exact fun hopens => ⟨_, (open_iff hlog hindex h _).2 ⟨rfl, hopens⟩⟩
  · obtain ⟨rfl, -⟩ := (open_iff hlog hindex h s).1 hs
    obtain ⟨rfl, -⟩ := recordsIn_eq h
    exact ⟨rfl, rfl⟩
  · obtain ⟨whole, hwhole, -⟩ := hreading log
    obtain ⟨rfl, -⟩ := (open_iff hlog hindex hwhole s).1 hs
    exact ⟨fun r => read_ok_iff hlog hindex hserves h,
      fun count rs => readBatch_ok_iff hlog hindex hserves h⟩

/-- A record without a key; the key length is `-2`, and a byte stands behind the value. -/
def oddRecord : DiskRecord := ⟨5, 1, none, [1, 2], .none⟩

/-- Its bytes. -/
def oddCode : Bytes := codeOf plainCrates 5 (dataOf oddRecord (toBe 4 (2 ^ 32 - 2)) [1, 2] [9])

theorem spelledAs_oddCode : SpelledAs plainCrates oddRecord (toBe 4 (2 ^ 32 - 2)) [1, 2] [9]
    (dataOf oddRecord (toBe 4 (2 ^ 32 - 2)) [1, 2] [9]) oddCode :=
  ⟨⟨⟨rfl, by decide⟩, by decide, rfl, rfl⟩, by decide, by decide, rfl⟩

theorem reading_oddCode : Reading (Spells plainCrates) oddCode [oddRecord] [oddCode] [] where
  spelled := .cons ⟨_, _, _, _, spelledAs_oddCode⟩ .nil
  stream_eq := by rw [List.flatten_singleton, List.append_nil]
  stops := ((precise_decode plainCrates).error_iff []).1 <| by
    obtain ⟨e, he⟩ := decode_nil plainCrates
    exact ⟨_, he⟩

theorem segment_reads_odd :
    encode plainCrates oddRecord ≠ .ok oddCode ∧
    ∃ s, open_ plainCrates 5 .default (twoFiles 5 oddCode []) = .ok s ∧ s.nextOffset = 6 ∧
      read plainCrates (twoFiles 5 oddCode []) s 5 = .ok oddRecord := by
  refine ⟨fun h => absurd (spelledAs_oddCode.encode_iff.1 h).2.2 (by decide), ?_⟩
  have hlog : (twoFiles 5 oddCode []).get (logPath 5) = some oddCode := by decide +kernel
  have hindex : (twoFiles 5 oddCode []).get (indexPath 5) = some [] := by decide +kernel
  obtain ⟨-, hopens, hreads⟩ := segment_reads plainCrates 5 .default hlog hindex
  obtain ⟨hopens, hstate⟩ := hopens _ _ _ reading_oddCode
  obtain ⟨s, hs⟩ := hopens.2 ⟨by decide, by decide⟩
  obtain ⟨hbase, hnext⟩ := hstate s hs
  have hsix : s.nextOffset = 6 := hnext
  have hread := (hreads s hs 5 ⟨hbase.le, by rw [hsix]; decide⟩ _ _ _ reading_oddCode).1 oddRecord
  exact ⟨s, hs, hsix, hread.2 ⟨by decide, rfl⟩⟩

end Gaffa
