import Gaffa.Client.Consumer
import Gaffa.Lib.Grouping

/-!
# The producer

`client/src/producer.rs`, for `send` and the sending of batches, with `KeyHashPartitioner` of
`client/src/partitioner.rs`.  As the consumer, the producer is a program that asks; besides the
connection it asks its partitioner, which may be shared and keep a state, and the map of the batches
for the order of its entries.
-/

set_option autoImplicit false

namespace Gaffa

open ByteString Grouping

namespace KeyHashPartitioner

/-- `KeyHashPartitioner::hash_bytes`; `finish` is what a new `DefaultHasher` makes of a slice. -/
def hashBytes (finish : Bytes → UInt64) (bytes : Bytes) : Nat := (finish bytes).toNat % 2 ^ 32

/-- `KeyHashPartitioner::partition`. -/
def partition (finish : Bytes → UInt64) (key : Option Bytes) (numPartitions : Nat) : Nat :=
  if numPartitions = 0 then 0
  else
    match key with
    | some k => if k ≠ [] then hashBytes finish k % numPartitions else 0
    | none => 0

end KeyHashPartitioner

/-- What the producer asks: a response, a partition, the order in which a map iterates. -/
inductive Inquiry where
  | exchange (request : Request)
  | partition (key : Option Bytes) (numPartitions : Nat)
  | iterate (batches : Table Nat (List Message))

/-- What it is told; a partitioner can panic, and a map gets to each of its keys once. -/
abbrev Inquiry.Answer : Inquiry → Type
  | .exchange _ => Reply
  | .partition _ _ => Except Fault Nat
  | .iterate batches => { order : List Nat // batches.Order order }

/-- An operation of a producer. -/
abbrev Sending (α : Type) := Dialogue Inquiry Inquiry.Answer α

/-- `Producer`, without its connection and its partitioner. -/
structure Producer where
  metadataCache : Table String Nat

namespace Producer

/-- `Producer::connect`. -/
def new : Producer := ⟨Table.empty⟩

/-- `send` and `next` on the connection. -/
def exchange (request : Request) : Sending Reply := Dialogue.question (Inquiry.exchange request)

/-- `self.partitioner.partition`. -/
def choose (key : Option Bytes) (numPartitions : Nat) : Sending (Except Fault Nat) :=
  Dialogue.question (Inquiry.partition key numPartitions)

/-- The start of a loop over the batches. -/
def iterate (batches : Table Nat (List Message)) :
    Sending { order : List Nat // batches.Order order } :=
  Dialogue.question (Inquiry.iterate batches)

/-- What `send` makes of a reply. -/
def sent : Reply → Except Fault Nat
  | .error e => .error (.error e)
  | .ok (.produceSuccess _ _ baseOffset _) => .ok baseOffset
  | .ok (.produceError error) => Consumer.protocolError error
  | .ok _ => Consumer.protocolError "Unexpected response"

/-- `Producer::send`. -/
def send (topic : String) (partition : Nat) (messages : List Message) :
    Sending (Except Fault Nat) := do
  let reply ← exchange (.produce topic partition messages)
  return sent reply

/-- What `refresh_metadata` makes of a reply; the count is cached under the topic that it names. -/
def refreshed (p : Producer) : Reply → Except Fault Unit × Producer
  | .error e => (.error (.error e), p)
  | .ok (.partitions topic count) =>
    (.ok (), { p with metadataCache := p.metadataCache.insert topic count })
  | .ok (.partitionsError error) => (Consumer.protocolError error, p)
  | .ok _ => (Consumer.protocolError "Unexpected response", p)

/-- `Producer::refresh_metadata`. -/
def refreshMetadata (topic : String) (p : Producer) : Sending (Except Fault Unit × Producer) := do
  let reply ← exchange (.getPartitions topic)
  return p.refreshed reply

/-- The refresh of `send_batch_auto`, made only for a topic that is not in the cache. -/
def refreshMissing (topic : String) (p : Producer) : Sending (Except Fault Unit × Producer) :=
  if (p.metadataCache.get topic).isSome then .done (.ok (), p) else p.refreshMetadata topic

/-- `self.metadata_cache.get`. -/
def cachedCount (topic : String) (p : Producer) : Except Fault Nat :=
  match p.metadataCache.get topic with
  | none => .error (.error (.topicNotFound topic))
  | some count => .ok count

/-- The number of partitions that `send_batch_auto` goes by. -/
def numPartitions (topic : String) (p : Producer) : Sending (Except Fault Nat × Producer) := do
  match ← p.refreshMissing topic with
  | (.error e, p) => return (.error e, p)
  | (.ok _, p) => return (p.cachedCount topic, p)

/-- The loop of `send_batch_auto` over the messages. -/
def group (numPartitions : Nat) :
    List Message → Table Nat (List Message) → Sending (Except Fault (Table Nat (List Message)))
  | [], batches => .done (.ok batches)
  | message :: messages, batches => do
    match ← choose message.key numPartitions with
    | .error e => return .error e
    | .ok partition => group numPartitions messages (push batches partition message)

/-- The loop of `send_batch_auto` over the batches. -/
def sendAll (topic : String) : List (Nat × List Message) → Nat → Sending (Except Fault Nat)
  | [], baseOffset => .done (.ok baseOffset)
  | (partition, batch) :: batches, baseOffset => do
    match ← send topic partition batch with
    | .error e => return .error e
    | .ok offset => sendAll topic batches (if baseOffset = 0 then offset else baseOffset)

/-- The entries of the map in their order. -/
def entriesIn (batches : Table Nat (List Message)) (order : List Nat) :
    List (Nat × List Message) :=
  order.filterMap fun partition => (batches.get partition).map fun batch => (partition, batch)

/-- `send_batch_auto` from the grouped batches on. -/
def sendGrouped (topic : String) (batches : Table Nat (List Message)) :
    Sending (Except Fault Nat) := do
  let order ← iterate batches
  sendAll topic (entriesIn batches order.1) 0

/-- `send_batch_auto` from the number of partitions on. -/
def sendBatches (topic : String) (messages : List Message) (numPartitions : Nat) :
    Sending (Except Fault Nat) := do
  match ← group numPartitions messages Table.empty with
  | .error e => return .error e
  | .ok batches => sendGrouped topic batches

/-- `Producer::send_batch_auto`. -/
def sendBatchAuto (topic : String) (messages : List Message) (p : Producer) :
    Sending (Except Fault Nat × Producer) := do
  match ← p.numPartitions topic with
  | (.error e, p) => return (.error e, p)
  | (.ok count, p) => do
    let result ← sendBatches topic messages count
    return (result, p)

/-- Calls of `send_batch_auto`, each with its topic and messages, until one returns an error. -/
def sendCalls : List (String × List Message) → Producer → Sending (Except Fault Unit × Producer)
  | [], p => .done (.ok (), p)
  | (topic, messages) :: calls, p => do
    match ← p.sendBatchAuto topic messages with
    | (.error e, p) => return (.error e, p)
    | (.ok _, p) => sendCalls calls p

end Producer

end Gaffa
