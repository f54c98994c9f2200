import Gaffa.Lib.ByteString
import Gaffa.Error

/-!
# Wire-level data: messages, records, requests and responses

`protocol/src/messages.rs`.  A timestamp is only ever copied and stays a `UInt64`; numbers that the
code computes with (offsets, partition and broker numbers, counts) are `Nat`.
-/

set_option autoImplicit false

namespace Gaffa

open ByteString

/-- `Message`. -/
structure Message where
  key : Option Bytes
  value : Bytes
  timestamp : UInt64
  deriving DecidableEq, Repr

/-- `Record`: a stored message with its topic, partition and offset. -/
structure Record where
  topic : String
  partition : Nat
  offset : Nat
  message : Message
  deriving DecidableEq, Repr

/-- `PartitionAssignment`. -/
structure PartitionAssignment where
  topic : String
  partition : Nat
  deriving DecidableEq, Repr

/-- `PartitionMetadata`. -/
structure PartitionMetadata where
  id : Nat
  leader : Nat
  replicas : List Nat
  isr : List Nat
  highWatermark : Nat
  deriving DecidableEq, Repr

/-- `TopicMetadata`. -/
structure TopicMetadata where
  name : String
  partitions : List PartitionMetadata
  deriving DecidableEq, Repr

/-- `PartitionMetadata::new`: "single-broker mode". -/
def PartitionMetadata.new (id : Nat) : PartitionMetadata := ⟨id, 0, [0], [0], 0⟩

/-- `TopicMetadata::new`. -/
def TopicMetadata.new (name : String) (partitionCount : Nat) : TopicMetadata :=
  ⟨name, (List.range partitionCount).map PartitionMetadata.new⟩

/-- `BrokerMetadata`. -/
structure BrokerMetadata where
  id : Nat
  host : String
  port : Nat
  deriving DecidableEq, Repr

/-- `TopicPartitionMetadata`. -/
structure TopicPartitionMetadata where
  topic : String
  partition : Nat
  leader : Nat
  replicas : List Nat
  isr : List Nat
  deriving DecidableEq, Repr

/-- `Request`. -/
inductive Request where
  | createTopic (name : String) (partitions : Nat)
  | produce (topic : String) (partition : Nat) (messages : List Message)
  | fetch (topic : String) (partition offset maxMessages : Nat)
  | getMetadata (topics : List String)
  | getPartitions (topic : String)
  | listTopics
  | joinGroup (groupId : String) (memberId : Option String) (topics : List String)
  | leaveGroup (groupId memberId : String)
  | heartbeat (groupId memberId : String)
  | commitOffset (groupId topic : String) (partition offset : Nat)
  | fetchOffset (groupId topic : String) (partition : Nat)
  | registerBroker (brokerId : Nat) (host : String) (port : Nat)
  | getClusterMetadata
  | replicationFetch (brokerId : Nat) (topic : String) (partition offset : Nat)
  deriving DecidableEq, Repr

/-- `Response`. -/
inductive Response where
  | createTopicSuccess (name : String) (partitions : Nat)
  | createTopicError (error : String)
  | produceSuccess (topic : String) (partition baseOffset count : Nat)
  | produceError (error : String)
  | fetchSuccess (topic : String) (partition : Nat) (records : List Record)
  | fetchError (error : String)
  | metadata (topics : List TopicMetadata)
  | metadataError (error : String)
  | partitions (topic : String) (count : Nat)
  | partitionsError (error : String)
  | topics (topics : List String)
  | topicsError (error : String)
  | joinGroupSuccess (groupId memberId : String) (assignments : List PartitionAssignment)
  | joinGroupError (error : String)
  | leaveGroupSuccess (groupId : String)
  | leaveGroupError (error : String)
  | heartbeatSuccess
  | heartbeatError (error : String) (needsRejoin : Bool)
  | commitOffsetSuccess (groupId topic : String) (partition offset : Nat)
  | commitOffsetError (error : String)
  | fetchOffsetSuccess (groupId topic : String) (partition offset : Nat)
  | fetchOffsetError (error : String)
  | registerBrokerSuccess (brokerId : Nat)
  | registerBrokerError (error : String)
  | clusterMetadata (brokers : List BrokerMetadata)
      (topicPartitions : List TopicPartitionMetadata)
  | clusterMetadataError (error : String)
  | replicationFetchSuccess (records : List Record) (highWatermark leaderEpoch : Nat)
  | replicationFetchError (error : String)
  deriving DecidableEq, Repr

/-- The response to a call: `ok` of its value, `err` of its error's text, none if it panicked. -/
def respond {α : Type} (ok : α → Response) (err : String → Response) :
    Except Fault α → Option Response
  | .ok a => some (ok a)
  | .error (.error e) => some (err e.display)
  | .error (.panic _) => none

end Gaffa
