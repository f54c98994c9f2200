import Gaffa.Lib.PrefixCode
import Gaffa.Storage.Record

/-!
# Records one after the other

A log file is the encodings of its records, without anything between them.

* `record_stream`: repeated decoding gives the records back, each decode takes exactly the bytes of
  its record, and a cut encoding is an error.
-/

set_option autoImplicit false

namespace Gaffa

open ByteString PrefixCode

variable {K : Crates}

namespace DiskRecord

/-- The record's fields fit the widths of the format: the key its signed length, and everything
behind the length field the length field. -/
structure Sized (K : Crates) (r : DiskRecord) : Prop where
  offset_lt : r.offset < 2 ^ 64
  key_lt : ∀ key, r.key = some key → key.length < 2 ^ 31
  body_lt : ∀ z, compress K r.value r.compression = .ok z → bodySize r z < 2 ^ 32

theorem Sized.storable {r : DiskRecord} {bs : Bytes} (hK : K.Lawful) (h : Sized K r)
    (henc : encode K r = .ok bs) : Storable K r := by
  refine ⟨h.offset_lt, h.key_lt, ?_⟩
  unfold DiskRecord.encode at henc
  split at henc
  · cases henc
  · rename_i z hz
    exact ⟨z, hz, hK _ _ _ hz, h.body_lt z hz⟩

/-- The encodings of records that fit. -/
def Encodes (K : Crates) (r : DiskRecord) (bs : Bytes) : Prop := Sized K r ∧ encode K r = .ok bs

theorem whole_decode (hK : K.Lawful) : Whole (decode K) (Encodes K) := by
  rintro r bs ⟨hsized, henc⟩ rest
  rw [← encoded_of_encode henc]
  exact decode_encoded (hsized.storable hK henc) rest

end DiskRecord

open DiskRecord

/-- **The record format is a prefix code.** -/
theorem record_stream (hK : K.Lawful) {records : List DiskRecord} {encodings : List Bytes}
    (hsized : ∀ r ∈ records, Sized K r)
    (hencode : List.Forall₂ (fun r bs => encode K r = .ok bs) records encodings) (suffix : Bytes) :
    decodes (decode K) records.length (encodings.flatten ++ suffix) = .ok (records, suffix) ∧
    (∀ i r, records[i]? = some r → decode K ((encodings.drop i).flatten ++ suffix) =
      .ok (r, (encodings.drop (i + 1)).flatten ++ suffix)) ∧
    ∀ bs ∈ encodings, ∀ k < bs.length, ∃ e, decode K (bs.take k) = .error (.error e) := by
  have hcodes : List.Forall₂ (Encodes K) records encodings :=
    (List.forall₂_and_left records encodings).2 ⟨hsized, hencode⟩
  refine ⟨(whole_decode hK).decodes_flatten hcodes suffix, ?_, ?_⟩
  · intro i r hi
    exact (whole_decode hK).decode_drop hcodes suffix hi
  · intro bs hbs k hk
    obtain ⟨r, hr, henc⟩ := exists_item hcodes hbs
    rw [← encoded_of_encode henc] at hk ⊢
    exact decode_torn (hr.storable hK henc) hk

/-- A record with an empty key and one without a key. -/
def twoRecords : List DiskRecord := [⟨7, 1, some [], [1, 2], .none⟩, ⟨8, 2, none, [], .lz4⟩]

theorem record_stream_two :
    decodes (decode plainCrates) 2 ((twoRecords.map (encoded plainCrates)).flatten ++ [0, 0]) =
      .ok (twoRecords, [0, 0]) := by
  have hsized : ∀ r ∈ twoRecords, Sized plainCrates r := by
    intro r hr
    simp only [twoRecords, List.mem_cons, List.not_mem_nil, or_false] at hr
    rcases hr with rfl | rfl
    · refine ⟨by decide, ?_, ?_⟩
      · rintro key ⟨⟩
        decide
      · rintro z ⟨⟩
        decide
    · refine ⟨by decide, ?_, ?_⟩
      · rintro key ⟨⟩
      · rintro z ⟨⟩
        decide
  exact (record_stream plainCrates_lawful hsized
    (.cons rfl (.cons rfl .nil)) [0, 0]).1

end Gaffa
