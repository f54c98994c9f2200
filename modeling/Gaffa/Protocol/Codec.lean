import Gaffa.Lib.Framing
import Gaffa.Protocol.Messages

/-!
# The codecs

`protocol/src/codec.rs`.  A message travels as four bytes of its length and the bytes that the
`bincode` crate makes of it; the crate is the parameter `Bincode`, and what the codecs rely on is
`Bincode.Lawful`.  Both codecs have the same code, for requests one way and for responses the other
way.

* `frames_decodeFrame`: a frame is decoded whole, and waited for otherwise.
* `codec_round_trip`: what one codec encodes, the other decodes, however the stream is cut.
-/

set_option autoImplicit false

namespace Gaffa

open ByteString Framing

/-- `MAX_MESSAGE_SIZE`. -/
def maxMessageSize : Nat := 10 * 1024 * 1024

/-- `bincode::serialize` and `bincode::deserialize` at a type; an error is its text. -/
structure Bincode (α : Type) where
  serialize : α → Except String Bytes
  deserialize : Bytes → Except String α

/-- What was serialized is read back. -/
def Bincode.Lawful {α : Type} (B : Bincode α) : Prop :=
  ∀ a data, B.serialize a = .ok data → B.deserialize data = .ok a

/-- The error of a message that is too large. -/
def tooLarge (length : Nat) : GaffaError :=
  .protocol ("Message too large: " ++ toString length ++ " bytes (max: " ++
    toString maxMessageSize ++ " bytes)")

section Frame

variable {α : Type}

/-- `Encoder::encode`: the outcome and `dst`. -/
def encodeFrame (B : Bincode α) (item : α) (dst : Bytes) : Except GaffaError Unit × Bytes :=
  match B.serialize item with
  | .error e => (.error (.serialization e), dst)
  | .ok data =>
    if maxMessageSize < data.length then (.error (tooLarge data.length), dst)
    else (.ok (), dst ++ toBe 4 data.length ++ data)

/-- `Decoder::decode`: the outcome and what is left of `src`. -/
def decodeFrame (B : Bincode α) (src : Bytes) : Except GaffaError (Option α) × Bytes :=
  if src.length < 4 then (.ok none, src)
  else
    let length := ofBe (src.take 4)
    if maxMessageSize < length then (.error (tooLarge length), src)
    else if src.length < 4 + length then (.ok none, src)
    else
      let src := src.drop 4
      match B.deserialize (src.take length) with
      | .error e => (.error (.serialization e), src.drop length)
      | .ok item => (.ok (some item), src.drop length)

/-- Messages encoded one after the other, if all are accepted. -/
def encodeAll (encode : α → Bytes → Except GaffaError Unit × Bytes) :
    List α → Bytes → Except GaffaError Bytes
  | [], dst => .ok dst
  | item :: items, dst =>
    match encode item dst with
    | (.error e, _) => .error e
    | (.ok (), dst) => encodeAll encode items dst

end Frame

/-- `GaffaCodec as Decoder`. -/
def GaffaCodec.decode (B : Bincode Request) : Bytes → Except GaffaError (Option Request) × Bytes :=
  decodeFrame B

/-- `GaffaCodec as Encoder<Response>`. -/
def GaffaCodec.encode (B : Bincode Response) :
    Response → Bytes → Except GaffaError Unit × Bytes := encodeFrame B

/-- `ClientCodec as Encoder<Request>`. -/
def ClientCodec.encode (B : Bincode Request) :
    Request → Bytes → Except GaffaError Unit × Bytes := encodeFrame B

/-- `ClientCodec as Decoder`. -/
def ClientCodec.decode (B : Bincode Response) :
    Bytes → Except GaffaError (Option Response) × Bytes := decodeFrame B

/-! ## Frames -/

/-- A frame: a length that is allowed, and as many bytes. -/
def frame (data : Bytes) : Bytes := toBe 4 data.length ++ data

/-- The frame of a message that is accepted. -/
def FrameOf {α : Type} (B : Bincode α) (item : α) (bytes : Bytes) : Prop :=
  ∃ data, B.serialize item = .ok data ∧ data.length ≤ maxMessageSize ∧ bytes = frame data

section Frame

variable {α : Type} {B : Bincode α}

/-- An encoder that accepts a message appends its frame. -/
theorem encodeFrame_ok {item : α} {dst dst' : Bytes} (h : encodeFrame B item dst = (.ok (), dst')) :
    ∃ bytes, FrameOf B item bytes ∧ dst' = dst ++ bytes := by
  unfold encodeFrame at h
  split at h
  · cases h
  · rename_i data hdata
    split at h
    · cases h
    · rename_i hlen
      cases h
      exact ⟨frame data, ⟨data, hdata, Nat.le_of_not_lt hlen, rfl⟩, List.append_assoc ..⟩

/-- A message that is rejected leaves `dst` alone. -/
theorem encodeFrame_error {item : α} {dst dst' : Bytes} {e : GaffaError}
    (h : encodeFrame B item dst = (.error e, dst')) : dst' = dst := by
  unfold encodeFrame at h
  split at h
  · cases h
    rfl
  · split at h
    · cases h
      rfl
    · cases h

theorem encodeAll_ok {items : List α} {dst stream : Bytes}
    (h : encodeAll (encodeFrame B) items dst = .ok stream) :
    ∃ frames, List.Forall₂ (FrameOf B) items frames ∧ stream = dst ++ frames.flatten := by
  induction items generalizing dst with
  | nil =>
    cases h
    exact ⟨[], List.Forall₂.nil, (List.append_nil _).symm⟩
  | cons item items ih =>
    simp only [encodeAll] at h
    split at h
    · cases h
    · rename_i dst' henc
      obtain ⟨bytes, hbytes, rfl⟩ := encodeFrame_ok henc
      obtain ⟨frames, hframes, rfl⟩ := ih h
      exact ⟨bytes :: frames, List.Forall₂.cons hbytes hframes, by
        rw [List.flatten_cons, List.append_assoc]⟩

theorem length_frame (data : Bytes) : (frame data).length = 4 + data.length := by
  simp [frame]

/-- The length that a frame announces. -/
theorem ofBe_take_frame {data : Bytes} (hlen : data.length ≤ maxMessageSize) (rest : Bytes) :
    ofBe ((frame data ++ rest).take 4) = data.length := by
  have htake : (frame data ++ rest).take 4 = toBe 4 data.length := by
    rw [frame, List.append_assoc, List.take_left' (length_toBe 4 _)]
  rw [htake]
  apply ofBe_toBe_of_lt
  unfold maxMessageSize at hlen
  omega

/-- A proper prefix of a frame is left in the buffer. -/
theorem decodeFrame_cut {data front back : Bytes} (hlen : data.length ≤ maxMessageSize)
    (hcut : frame data = front ++ back) (hback : back ≠ []) :
    decodeFrame B front = (.ok none, front) := by
  have hshort : front.length < 4 + data.length := by
    have hlength := congrArg List.length hcut
    have hpos := List.length_pos_iff.2 hback
    rw [length_frame, List.length_append] at hlength
    omega
  unfold decodeFrame
  by_cases hinitial : front.length < 4
  · rw [if_pos hinitial]
  · have htake : front.take 4 = (frame data ++ []).take 4 := by
      rw [List.append_nil, hcut, List.take_append_of_le_length (Nat.le_of_not_lt hinitial)]
    simp only [if_neg hinitial, htake, ofBe_take_frame hlen, if_neg (Nat.not_lt.2 hlen),
      if_pos hshort]

/-- **A frame** is decoded whole and waited for otherwise. -/
theorem frames_decodeFrame (hB : B.Lawful) : Frames (decodeFrame B) (FrameOf B) := by
  constructor
  · rintro item bytes ⟨data, -, -, rfl⟩ hnil
    have hlength := congrArg List.length hnil
    rw [length_frame, List.length_nil] at hlength
    omega
  · rfl
  · rintro item bytes ⟨data, hdata, hlen, rfl⟩ rest
    have htotal : (frame data ++ rest).length = 4 + data.length + rest.length := by
      rw [List.length_append, length_frame]
    have hdrop : (frame data ++ rest).drop 4 = data ++ rest := by
      rw [frame, List.append_assoc, List.drop_left' (length_toBe 4 _)]
    unfold decodeFrame
    simp only [if_neg (show ¬ (frame data ++ rest).length < 4 by omega), ofBe_take_frame hlen,
      if_neg (Nat.not_lt.2 hlen),
      if_neg (show ¬ (frame data ++ rest).length < 4 + data.length by omega), hdrop,
      List.take_left, List.drop_left, hB item data hdata]
  · rintro item bytes ⟨data, -, hlen, rfl⟩ front back hcut hback
    exact decodeFrame_cut hlen hcut hback

end Frame

/-! ## Round trips -/

/-- What an encoder and the decoder at the other end are to do together. -/
structure RoundTrip {α : Type} (encode : α → Bytes → Except GaffaError Unit × Bytes)
    (decode : Bytes → Except GaffaError (Option α) × Bytes) : Prop where
  /-- The messages arrive in order, however the stream is cut. -/
  stream : ∀ items stream, encodeAll encode items [] = .ok stream →
    ∀ chunks : List Bytes, chunks.flatten = stream →
      feed decode [] chunks = some (.ok items, [])
  /-- A frame that has not arrived whole stays in the buffer. -/
  incomplete : ∀ data : Bytes, data.length ≤ maxMessageSize → ∀ front back : Bytes,
    toBe 4 data.length ++ data = front ++ back → back ≠ [] → decode front = (.ok none, front)
  /-- A message that is rejected leaves `dst` alone. -/
  rejected : ∀ item dst e dst', encode item dst = (.error e, dst') → dst' = dst

theorem roundTrip_frame {α : Type} {B : Bincode α} (hB : B.Lawful) :
    RoundTrip (encodeFrame B) (decodeFrame B) := by
  constructor
  · intro items stream hstream chunks hchunks
    obtain ⟨frames, hframes, rfl⟩ := encodeAll_ok hstream
    exact (frames_decodeFrame hB).feed_flatten hframes hchunks
  · intro data hlen front back hcut hback
    exact decodeFrame_cut hlen hcut hback
  · intro item dst e dst' h
    exact encodeFrame_error h

/-- **The codecs** carry requests one way and responses the other way. -/
theorem codec_round_trip {R : Bincode Request} {S : Bincode Response} (hR : R.Lawful)
    (hS : S.Lawful) : RoundTrip (ClientCodec.encode R) (GaffaCodec.decode R) ∧
      RoundTrip (GaffaCodec.encode S) (ClientCodec.decode S) :=
  ⟨roundTrip_frame hR, roundTrip_frame hS⟩

/-- `bincode` at the requests without fields: their number in four bytes, least significant
first. -/
def plainRequests : Bincode Request where
  serialize
    | .listTopics => .ok [5, 0, 0, 0]
    | .getClusterMetadata => .ok [12, 0, 0, 0]
    | _ => .error "not serialized here"
  deserialize
    | [5, 0, 0, 0] => .ok .listTopics
    | [12, 0, 0, 0] => .ok .getClusterMetadata
    | _ => .error "not serialized here"

/-- `bincode` at the response without fields. -/
def plainResponses : Bincode Response where
  serialize
    | .heartbeatSuccess => .ok [16, 0, 0, 0]
    | _ => .error "not serialized here"
  deserialize
    | [16, 0, 0, 0] => .ok .heartbeatSuccess
    | _ => .error "not serialized here"

theorem plainRequests_lawful : plainRequests.Lawful := by
  intro a data h
  cases a <;> cases h <;> rfl

theorem plainResponses_lawful : plainResponses.Lawful := by
  intro a data h
  cases a <;> cases h
  rfl

/-- Two requests, cut inside the first length and inside the second message. -/
theorem codec_round_trip_cut :
    feed (GaffaCodec.decode plainRequests) []
      [[0, 0], [0, 4, 5, 0, 0, 0, 0, 0, 0, 4, 12, 0], [], [0, 0]] =
      some (.ok [.listTopics, .getClusterMetadata], []) :=
  (codec_round_trip plainRequests_lawful plainResponses_lawful).1.stream
    [.listTopics, .getClusterMetadata] _ (by decide) _ rfl

end Gaffa
