import Gaffa.Lib.Text
import Gaffa.Protocol.Codec

/-!
# The layout of bincode

What `bincode` makes of a `Produce` request and of a `FetchSuccess` response: integers in their fixed
width, least significant byte first, and the length of a string or a vector in eight bytes before it.
The request holds the topic once; in the response every record repeats it, with the partition and its
own offset.

* `length_fetchSuccess`: the size of a response, from its topic and its messages.
-/

set_option autoImplicit false

namespace Gaffa

open ByteString Text

namespace Bincode

/-- A `u32`, or the number of an enum's variant. -/
def u32 (n : Nat) : Bytes := (toBe 4 n).reverse

/-- A `u64`, or a length. -/
def u64 (n : Nat) : Bytes := (toBe 8 n).reverse

/-- A `Vec<u8>`. -/
def bytes (bs : Bytes) : Bytes := u64 bs.length ++ bs

/-- A `String`. -/
def string (s : String) : Bytes := bytes (utf8 s.toList)

/-- A `Vec`. -/
def vec {α : Type} (item : α → Bytes) (items : List α) : Bytes :=
  u64 items.length ++ items.flatMap item

/-- An `Option<Vec<u8>>`. -/
def key : Option Bytes → Bytes
  | none => [0]
  | some k => 1 :: bytes k

/-- A `Message`. -/
def message (m : Message) : Bytes := key m.key ++ bytes m.value ++ u64 m.timestamp.toNat

/-- A `Record`. -/
def record (r : Record) : Bytes :=
  string r.topic ++ u32 r.partition ++ u64 r.offset ++ message r.message

/-- `Request::Produce`, the second variant. -/
def produce (topic : String) (partition : Nat) (messages : List Message) : Bytes :=
  u32 1 ++ string topic ++ u32 partition ++ vec message messages

/-- `Response::FetchSuccess`, the fifth variant. -/
def fetchSuccess (topic : String) (partition : Nat) (records : List Record) : Bytes :=
  u32 4 ++ string topic ++ u32 partition ++ vec record records

/-- A `Produce` request is only read from its bytes; more may follow them. -/
def ReadsProduce (B : Bincode Request) : Prop :=
  ∀ data topic partition messages,
    B.deserialize data = .ok (.produce topic partition messages) →
      produce topic partition messages <+: data

/-- A `FetchSuccess` response is written as its bytes. -/
def WritesFetch (B : Bincode Response) : Prop :=
  ∀ topic partition records, B.serialize (.fetchSuccess topic partition records) =
    .ok (fetchSuccess topic partition records)

/-! ## Sizes -/

/-- The bytes of a topic's name. -/
def nameSize (topic : String) : Nat := (utf8 topic.toList).length

/-- The bytes of a message. -/
def messageSize (m : Message) : Nat := m.key.elim 1 (fun k => 9 + k.length) + m.value.length + 16

/-- The bytes of a response with these messages of a topic. -/
def fetchSize (topic : String) (messages : List Message) : Nat :=
  24 + nameSize topic + (messages.map fun m => 20 + nameSize topic + messageSize m).sum

@[simp] theorem length_u32 (n : Nat) : (u32 n).length = 4 := by simp [u32]

@[simp] theorem length_u64 (n : Nat) : (u64 n).length = 8 := by simp [u64]

@[simp] theorem length_bytes (bs : Bytes) : (bytes bs).length = 8 + bs.length := by simp [bytes]

@[simp] theorem length_string (s : String) : (string s).length = 8 + nameSize s := by
  simp [string, nameSize]

theorem length_message (m : Message) : (message m).length = messageSize m := by
  obtain ⟨_ | k, value, timestamp⟩ := m
  · simp [message, messageSize, key]
    omega
  · simp [message, messageSize, key]
    omega

theorem messageSize_of_key_none {m : Message} (h : m.key = none) :
    messageSize m = 1 + m.value.length + 16 := by
  unfold messageSize
  rw [h, Option.elim_none]

theorem length_record (r : Record) :
    (record r).length = 20 + nameSize r.topic + messageSize r.message := by
  simp [record, length_message]
  omega

theorem length_vec {α : Type} (item : α → Bytes) (items : List α) :
    (vec item items).length = 8 + (items.map fun a => (item a).length).sum := by
  simp [vec, List.length_flatMap]

theorem length_produce (topic : String) (partition : Nat) (messages : List Message) :
    (produce topic partition messages).length =
      24 + nameSize topic + (messages.map messageSize).sum := by
  have hmessages : (messages.map fun m => (message m).length) = messages.map messageSize :=
    List.map_congr_left fun m _ => length_message m
  simp only [produce, List.length_append, length_u32, length_string, length_vec, hmessages]
  omega

/-- **The size of a response** to a fetch, if all its records are of the topic. -/
theorem length_fetchSuccess {topic : String} (partition : Nat) {records : List Record}
    (h : ∀ r ∈ records, r.topic = topic) :
    (fetchSuccess topic partition records).length =
      fetchSize topic (records.map Record.message) := by
  have hrecords : records.map (fun r => (record r).length) =
      (records.map Record.message).map fun m => 20 + nameSize topic + messageSize m := by
    rw [List.map_map]
    apply List.map_congr_left
    intro r hr
    rw [length_record, h r hr]
    rfl
  simp only [fetchSuccess, fetchSize, List.length_append, length_u32, length_string, length_vec,
    hrecords]
  omega

/-- A message of a request is no larger than the request. -/
theorem messageSize_le {topic : String} {partition : Nat} {messages : List Message} {data : Bytes}
    (h : produce topic partition messages <+: data) {m : Message} (hm : m ∈ messages) :
    messageSize m ≤ data.length := by
  have hle := h.length_le
  obtain ⟨pre, post, rfl⟩ := List.append_of_mem hm
  rw [length_produce, List.map_append, List.map_cons, List.sum_append, List.sum_cons] at hle
  omega

end Bincode

end Gaffa
