import Gaffa.Lib.Dialogue
import Gaffa.Lib.Table
import Gaffa.Protocol.Messages

/-!
# The consumer

`client/src/consumer.rs`.  An operation sends requests one after the other and waits for the response
to each, so it is a program that asks; what the operation is given back is up to the connection.
Fields that no operation below reads are left out (the interval of the auto-commit), and a loop over a
map takes the order of its keys as an argument.
-/

set_option autoImplicit false

namespace Gaffa

/-- What an operation gets for a request: a response, or the error of `send` or `next`. -/
abbrev Reply := Except GaffaError Response

/-- What an operation does to the world: a request and the wait for its response, the start of a
heartbeat task, and the abort of one. -/
inductive Effect where
  | exchange (request : Request)
  | spawn (groupId memberId : String)
  | abort (task : Nat)
  deriving DecidableEq, Repr

/-- What comes back. -/
def Effect.Answer : Effect → Type
  | .exchange _ => Reply
  | .spawn _ _ => Nat
  | .abort _ => Unit

/-- An operation of a client. -/
abbrev Client (α : Type) := Dialogue Effect Effect.Answer α

/-- `send` and `next` under the lock of the connection. -/
def exchange (request : Request) : Client Reply := Dialogue.question (Effect.exchange request)

/-- `tokio::spawn` of a heartbeat task. -/
def spawn (groupId memberId : String) : Client Nat := Dialogue.question (Effect.spawn groupId memberId)

/-- `JoinHandle::abort`. -/
def abort (task : Nat) : Client Unit := Dialogue.question (Effect.abort task)

/-- A topic and a partition. -/
abbrev TopicPartition := String × Nat

/-- `Consumer`. -/
structure Consumer where
  subscriptions : Table String (List Nat)
  offsets : Table TopicPartition Nat
  groupId : Option String
  memberId : Option String
  assignments : List PartitionAssignment
  autoCommit : Bool
  heartbeatTask : Option Nat

namespace Consumer

/-- `Consumer::connect`, `with_group_id` and `with_auto_commit`. -/
def new (groupId : Option String) (autoCommit : Bool) : Consumer :=
  ⟨Table.empty, Table.empty, groupId, none, [], autoCommit, none⟩

/-- The offset that a poll fetches from. -/
def position (c : Consumer) (key : TopicPartition) : Nat := (c.offsets.get key).getD 0

/-- `self.offsets.insert`. -/
def setOffset (key : TopicPartition) (offset : Nat) (c : Consumer) : Consumer :=
  { c with offsets := c.offsets.insert key offset }

/-- The end of an operation, with its result and the consumer. -/
def finish {α : Type} (result : Except Fault α) (c : Consumer) :
    Client (Except Fault α × Consumer) := .done (result, c)

/-- `Err(GaffaError::Protocol(..))`. -/
def protocolError {α : Type} (error : String) : Except Fault α := .error (.error (.protocol error))

/-! ## Fetching -/

/-- What `fetch` makes of a reply. -/
def fetched : Reply → Except Fault (List Record)
  | .error e => .error (.error e)
  | .ok (.fetchSuccess _ _ records) => .ok records
  | .ok (.fetchError error) => protocolError error
  | .ok _ => protocolError "Unexpected response"

/-- `Consumer::fetch`. -/
def fetch (topic : String) (partition offset maxMessages : Nat) :
    Client (Except Fault (List Record)) := do
  let reply ← exchange (.fetch topic partition offset maxMessages)
  return fetched reply

/-- The update of the offset after a fetch. -/
def advance (overflowChecks : Bool) (key : TopicPartition) (records : List Record) (c : Consumer) :
    Except Fault Consumer :=
  match records.getLast? with
  | none => .ok c
  | some lastRecord =>
    (addWith overflowChecks 64 lastRecord.offset 1).map fun offset => c.setOffset key offset

/-- The loop of `poll` and of `poll_group` over their partitions. -/
def fetchAll (overflowChecks : Bool) (maxMessages : Nat) :
    List TopicPartition → List Record → Consumer → Client (Except Fault (List Record) × Consumer)
  | [], allRecords, c => finish (.ok allRecords) c
  | key :: keys, allRecords, c => do
    match ← fetch key.1 key.2 (c.position key) maxMessages with
    | .error e => finish (.error e) c
    | .ok records =>
      match c.advance overflowChecks key records with
      | .error e => finish (.error e) c
      | .ok c' => fetchAll overflowChecks maxMessages keys (allRecords ++ records) c'

/-- The partitions that `poll` visits, if the topics come in this order. -/
def subscribed (c : Consumer) (topics : List String) : List TopicPartition :=
  topics.flatMap fun topic => ((c.subscriptions.get topic).getD []).map fun p => (topic, p)

/-- `Consumer::poll`. -/
def poll (overflowChecks : Bool) (maxMessages : Nat) (topics : List String) (c : Consumer) :
    Client (Except Fault (List Record) × Consumer) :=
  fetchAll overflowChecks maxMessages (c.subscribed topics) [] c

/-! ## Committing -/

/-- What `commit_offsets` makes of a reply. -/
def committed : Reply → Except Fault Unit
  | .error e => .error (.error e)
  | .ok (.commitOffsetSuccess _ _ _ _) => .ok ()
  | .ok (.commitOffsetError error) => protocolError error
  | .ok _ => protocolError "Unexpected response"

/-- The loop of `commit_offsets` over the entries of the map. -/
def commitAll (groupId : String) : List (TopicPartition × Nat) → Client (Except Fault Unit)
  | [] => .done (.ok ())
  | (key, offset) :: entries => do
    match committed (← exchange (.commitOffset groupId key.1 key.2 offset)) with
    | .error e => return .error e
    | .ok _ => commitAll groupId entries

/-- The entries of the map, its keys in the order `order`. -/
def entriesIn (order : List TopicPartition) (c : Consumer) : List (TopicPartition × Nat) :=
  order.filterMap fun key => (c.offsets.get key).map fun offset => (key, offset)

/-- `Consumer::commit_offsets`. -/
def commitOffsets (order : List TopicPartition) (c : Consumer) : Client (Except Fault Unit) :=
  match c.groupId with
  | none => .done (protocolError "Not in a consumer group")
  | some groupId => commitAll groupId (c.entriesIn order)

/-- The partitions that `poll_group` visits. -/
def assigned (c : Consumer) : List TopicPartition := c.assignments.map fun a => (a.topic, a.partition)

/-- `Consumer::poll_group`; an error of the auto-commit is only logged. -/
def pollGroup (overflowChecks : Bool) (maxMessages : Nat) (order : List TopicPartition)
    (c : Consumer) : Client (Except Fault (List Record) × Consumer) :=
  if c.assignments = [] then finish (.ok []) c
  else do
    match ← fetchAll overflowChecks maxMessages c.assigned [] c with
    | (.error e, c') => finish (.error e) c'
    | (.ok allRecords, c') =>
      if c'.autoCommit = true ∧ allRecords ≠ [] then
        let _ ← c'.commitOffsets order
        finish (.ok allRecords) c'
      else finish (.ok allRecords) c'

/-! ## Group membership -/

/-- What `fetch_committed_offset` makes of a reply. -/
def fetchedOffset : Reply → Except Fault Nat
  | .error e => .error (.error e)
  | .ok (.fetchOffsetSuccess _ _ _ offset) => .ok offset
  | .ok (.fetchOffsetError error) => protocolError error
  | .ok _ => protocolError "Unexpected response"

/-- The loop of `join_group` over the assignments, and the start of the heartbeat task. -/
def initOffsets (groupId memberId : String) :
    List PartitionAssignment → Consumer → Client (Except Fault Unit × Consumer)
  | [], c => do
    let task ← spawn groupId memberId
    finish (.ok ()) { c with heartbeatTask := some task }
  | a :: assignments, c => do
    match fetchedOffset (← exchange (.fetchOffset groupId a.topic a.partition)) with
    | .error e => finish (.error e) c
    | .ok offset => initOffsets groupId memberId assignments (c.setOffset (a.topic, a.partition) offset)

/-- `Consumer::join_group`. -/
def joinGroup (topics : List String) (c : Consumer) : Client (Except Fault Unit × Consumer) :=
  match c.groupId with
  | none => finish (protocolError "Group ID not set") c
  | some groupId => do
    match ← exchange (.joinGroup groupId c.memberId topics) with
    | .error e => finish (.error (.error e)) c
    | .ok (.joinGroupSuccess _ memberId assignments) =>
      initOffsets groupId memberId assignments
        { c with memberId := some memberId, assignments := assignments }
    | .ok (.joinGroupError error) => finish (protocolError error) c
    | .ok _ => finish (protocolError "Unexpected response") c

/-- `leave_group` from the request on. -/
def sendLeave (groupId memberId : String) (c : Consumer) :
    Client (Except Fault Unit × Consumer) := do
  match ← exchange (.leaveGroup groupId memberId) with
  | .error e => finish (.error (.error e)) c
  | .ok (.leaveGroupSuccess _) => finish (.ok ()) { c with memberId := none, assignments := [] }
  | .ok (.leaveGroupError error) => finish (protocolError error) c
  | .ok _ => finish (protocolError "Unexpected response") c

/-- `Consumer::leave_group`. -/
def leaveGroup (c : Consumer) : Client (Except Fault Unit × Consumer) :=
  match c.groupId, c.memberId with
  | none, _ => finish (protocolError "Not in a group") c
  | some _, none => finish (protocolError "Member ID not set") c
  | some groupId, some memberId =>
    match c.heartbeatTask with
    | none => sendLeave groupId memberId c
    | some task => do
      abort task
      sendLeave groupId memberId { c with heartbeatTask := none }

/-! ## The operations of a group member -/

/-- An operation of a group member, with the order in which a commit takes the map's entries. -/
inductive Operation where
  | joinGroup (topics : List String)
  | leaveGroup
  | pollGroup (maxMessages : Nat) (order : List TopicPartition)
  | commitOffsets (order : List TopicPartition)
  deriving DecidableEq, Repr

/-- The operation, up to its result. -/
def Operation.client (overflowChecks : Bool) (c : Consumer) : Operation → Client Consumer
  | joinGroup topics => do return (← c.joinGroup topics).2
  | leaveGroup => do return (← c.leaveGroup).2
  | pollGroup maxMessages order => do return (← c.pollGroup overflowChecks maxMessages order).2
  | commitOffsets order => do
    let _ ← c.commitOffsets order
    return c

end Consumer

end Gaffa
