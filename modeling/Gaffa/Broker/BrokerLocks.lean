import Gaffa.Lib.LockOrder
import Gaffa.Storage.Deadlock

/-!
# The locks of a broker

Everything in a broker that is behind a readers-writer lock: the groups and the partition counts of
the coordinator, the offsets of the offset manager, what a follower has fetched, the list of segments
of each partition, and the fields of each segment.  The calls that a broker's tasks make, side by
side and any number of times, as the order in which they take and give up these locks.

A segment by itself can deadlock (`Gaffa.Storage.Deadlock`).  In a broker it does not, since a
partition appends with its list of segments locked to write, and reads with it locked to read.

* `keeps_program`: every call keeps to one discipline.
* `broker_calls_complete`: no run gets stuck, and whatever the schedule every call ends.
-/

set_option autoImplicit false

namespace Gaffa

open Locks Transition

/-- The locks: `GroupCoordinator::groups` and `topic_partitions`, `OffsetManager::offsets`,
`ReplicationManager::follower_state`, and of the partitions and their segments. -/
inductive BrokerLock where
  | groups
  | topicPartitions
  | offsets
  | followerState
  | segments (partition : Nat)
  | field (partition segment : Nat) (name : SegmentField)
  deriving DecidableEq, Repr

/-- The calls; those on a partition say which of its segments they get to. -/
inductive BrokerCall where
  | updateTopicPartitions
  | joinGroup
  | leaveGroup
  | heartbeat
  | checkHeartbeats
  | getGroups
  | getGroupSize
  | load
  | commitOffset
  | fetchOffset
  | getGroupOffsets
  | deleteGroup
  | append (partition active : Nat) (rotated : Option Nat)
  | fetch (partition : Nat) (segments : List Nat)
  | nextOffset (partition : Nat) (last : Option Nat)
  | flush (partition : Nat) (segments : List Nat)
  | followerReplication (partition : Nat) (last : Option Nat)
  deriving DecidableEq, Repr

namespace BrokerCall

/-- A call on a segment within one on its partition. -/
def onSegment (partition segment : Nat) (ops : List (Op SegmentField)) : List (Op BrokerLock) :=
  ops.map (Op.map (.field partition segment))

/-- `LogSegment::next_offset`. -/
def nextOffsetOps : List (Op SegmentField) := [.take .nextOffset .read, .drop .nextOffset]

/-- `LogSegment::should_rotate`. -/
def shouldRotateOps : List (Op SegmentField) := [.take .size .read, .drop .size]

/-- `GroupCoordinator::join_group`. -/
def joinGroupOps : List (Op BrokerLock) := [.take .groups .write, .take .topicPartitions .read]

/-- `GroupCoordinator::leave_group`, which rebalances only a group that it finds and does not leave
empty. -/
def leaveGroupOps : List (Op BrokerLock) :=
  [.take .groups .write, .work, .take .topicPartitions .read, .drop .topicPartitions]

/-- `GroupCoordinator::check_heartbeats`. -/
def checkHeartbeatsOps : List (Op BrokerLock) :=
  [.take .groups .write, .work, .take .topicPartitions .read, .work]

/-- `OffsetManager::persist_group`. -/
def persistGroupOps : List (Op BrokerLock) := [.take .offsets .read, .work]

/-- `OffsetManager::commit_offset`. -/
def commitOffsetOps : List (Op BrokerLock) :=
  [.take .offsets .write, .drop .offsets] ++ persistGroupOps

/-- `OffsetManager::delete_group`. -/
def deleteGroupOps : List (Op BrokerLock) := [.take .offsets .write, .drop .offsets, .work]

/-- The rotation in `Partition::append`, if it comes to one. -/
def rotateOps (partition active : Nat) : Option Nat → List (Op BrokerLock)
  | none => []
  | some _ => onSegment partition active nextOffsetOps ++ [.work]

/-- `Partition::append`. -/
def appendOps (partition active : Nat) (rotated : Option Nat) : List (Op BrokerLock) :=
  [.work, .take (.segments partition) .write, .work] ++
    onSegment partition active shouldRotateOps ++ rotateOps partition active rotated ++
    onSegment partition (rotated.getD active) Gaffa.appendOps

/-- `LogSegment::read_batch` in the loop of `Partition::fetch`. -/
def fetchOps (partition segment : Nat) : List (Op BrokerLock) :=
  onSegment partition segment (readBatchOps ++ [.drop .mmap])

/-- `LogSegment::flush` in the loop of `Partition::flush`. -/
def flushSegmentOps (partition segment : Nat) : List (Op BrokerLock) :=
  onSegment partition segment (flushOps ++ [.drop .index, .drop .logFile])

/-- `Partition::next_offset`. -/
def partitionNextOffsetOps (partition : Nat) (last : Option Nat) : List (Op BrokerLock) :=
  .take (.segments partition) .read ::
    (last.elim [] fun segment => onSegment partition segment nextOffsetOps) ++
    [.drop (.segments partition)]

/-- One round of `follower_replication_loop`. -/
def followerReplicationOps (partition : Nat) (last : Option Nat) : List (Op BrokerLock) :=
  [.work, .take .followerState .read, .drop .followerState, .work] ++
    partitionNextOffsetOps partition last ++ [.work, .take .followerState .write]

/-- The locks that a call takes and gives up; at its end it gives up what it has. -/
def program : BrokerCall → List (Op BrokerLock)
  | updateTopicPartitions => [.take .topicPartitions .write]
  | joinGroup => joinGroupOps
  | leaveGroup => leaveGroupOps
  | heartbeat => [.take .groups .write, .work]
  | checkHeartbeats => checkHeartbeatsOps
  | getGroups => [.take .groups .read]
  | getGroupSize => [.take .groups .read]
  | load => [.take .offsets .write, .work]
  | commitOffset => commitOffsetOps
  | fetchOffset => [.take .offsets .read]
  | getGroupOffsets => [.take .offsets .read]
  | deleteGroup => deleteGroupOps
  | append partition active rotated => appendOps partition active rotated
  | fetch partition segments =>
    .take (.segments partition) .read :: .work :: segments.flatMap (fetchOps partition)
  | nextOffset partition last => partitionNextOffsetOps partition last
  | flush partition segments =>
    .take (.segments partition) .read :: segments.flatMap (flushSegmentOps partition)
  | followerReplication partition last => followerReplicationOps partition last

end BrokerCall

open BrokerCall

/-! ## The discipline -/

/-- The level of a field: `index` comes after the others. -/
def SegmentField.level : SegmentField → Nat
  | .index => 2
  | _ => 1

/-- `topic_partitions` comes after `groups`, and the fields of segments after the list of segments,
which guards them. -/
def brokerLocks : Discipline BrokerLock where
  level
    | .topicPartitions => 1
    | .field _ _ name => name.level
    | _ => 0
  guard
    | .field partition _ _ => some (.segments partition)
    | _ => none

section Calls

variable (partition segment : Nat)

/-- **The loop body of a fetch** takes the fields of a segment upwards, and gives them back. -/
theorem keeps_fetchOps :
    brokerLocks.Keeps [(.segments partition, .read)] (fetchOps partition segment) ∧
      holding [(.segments partition, .read)] (fetchOps partition segment) =
        [(.segments partition, .read)] := by
  simp [fetchOps, onSegment, readBatchOps, Op.map, Discipline.Keeps, Discipline.mayTake_iff, holding,
    brokerLocks, SegmentField.level]

theorem keeps_flushSegmentOps :
    brokerLocks.Keeps [(.segments partition, .read)] (flushSegmentOps partition segment) ∧
      holding [(.segments partition, .read)] (flushSegmentOps partition segment) =
        [(.segments partition, .read)] := by
  simp [flushSegmentOps, onSegment, flushOps, Op.map, Discipline.Keeps, Discipline.mayTake_iff,
    holding, brokerLocks, SegmentField.level]

/-- **An append** takes the fields of a segment in any order behind the list of segments. -/
theorem keeps_appendOps (active : Nat) (rotated : Option Nat) :
    brokerLocks.Keeps [] (BrokerCall.appendOps partition active rotated) := by
  cases rotated <;>
    simp [BrokerCall.appendOps, rotateOps, onSegment, shouldRotateOps, nextOffsetOps, Gaffa.appendOps,
      remapOps, Op.map, Discipline.Keeps, Discipline.mayTake_iff, brokerLocks, SegmentField.level]

end Calls

/-- **Every call keeps to the discipline.** -/
theorem keeps_program (call : BrokerCall) : brokerLocks.Keeps [] call.program := by
  have hsegments : ∀ partition : Nat, brokerLocks.MayTake [] (.segments partition) := by
    simp [Discipline.mayTake_iff, brokerLocks]
  cases call with
  | append partition active rotated => exact keeps_appendOps partition active rotated
  | fetch partition segments =>
    exact ⟨hsegments partition, Discipline.keeps_flatMap segments
      (fun segment _ => (keeps_fetchOps partition segment).1)
      fun segment _ => (keeps_fetchOps partition segment).2⟩
  | flush partition segments =>
    exact ⟨hsegments partition, Discipline.keeps_flatMap segments
      (fun segment _ => (keeps_flushSegmentOps partition segment).1)
      fun segment _ => (keeps_flushSegmentOps partition segment).2⟩
  | nextOffset partition last =>
    cases last <;>
      simp [program, partitionNextOffsetOps, onSegment, nextOffsetOps, Op.map, Discipline.Keeps,
        Discipline.mayTake_iff, brokerLocks, SegmentField.level]
  | followerReplication partition last =>
    cases last <;>
      simp [program, followerReplicationOps, partitionNextOffsetOps, onSegment, nextOffsetOps, Op.map,
        Discipline.Keeps, Discipline.mayTake_iff, brokerLocks, SegmentField.level]
  | _ =>
    simp [program, joinGroupOps, leaveGroupOps, checkHeartbeatsOps, commitOffsetOps, persistGroupOps,
      deleteGroupOps, Discipline.Keeps, Discipline.mayTake_iff, brokerLocks]

/-! ## Runs -/

variable {ι : Type} [DecidableEq ι]

/-- The calls in progress, by task. -/
abbrev BrokerCalls (ι : Type) := Table ι (Locks.Task BrokerCall BrokerLock)

/-- **A broker never deadlocks**: in every run of any number of calls on its coordinator, its offset
manager, its partitions and its follower state, however they are interleaved and wherever they fail,
no calls wait for each other, also not in the queues of the locks; and whenever no new calls come, those
in progress all end, after a number of steps that is known beforehand. -/
theorem broker_calls_complete {tr : List (Locks.Event ι BrokerCall × BrokerCalls ι)}
    (hrun : Run (Steps (Locks.next program)) Table.empty tr) :
    Throughout (fun s => ¬ Stuck s ∧ Completes program s) Table.empty tr :=
  completes_of_discipline keeps_program hrun

/-- A partition rotates its segment while a fetch waits for it, and a member joins while another one's
group is checked. -/
def rotatedUnderFetch : List (Locks.Event Nat BrokerCall) :=
  [.call 0 (.append 7 0 (some 100)), .step 0, .step 0, .call 1 (.fetch 7 [0, 100]), .call 2 .joinGroup,
    .call 3 .checkHeartbeats, .step 2, .step 2] ++ List.replicate 26 (.step 0) ++
  List.replicate 5 (.step 1) ++ [.step 2, .step 2, .step 2, .step 3]

theorem broker_calls_complete_rotated :
    ∃ tr, trace (Locks.next program) (Table.empty : BrokerCalls Nat) rotatedUnderFetch = some tr ∧
      (last Table.empty tr).keys = {1, 3} ∧
      Throughout (fun s => ¬ Stuck s ∧ Completes program s) (Table.empty : BrokerCalls Nat) tr := by
  obtain ⟨tr, htr⟩ := Option.isSome_iff_exists.1 (show (trace (Locks.next program)
    (Table.empty : BrokerCalls Nat) rotatedUnderFetch).isSome = true by decide +kernel)
  have hkeys : ∀ tr ∈ trace (Locks.next program) (Table.empty : BrokerCalls Nat) rotatedUnderFetch,
      (last Table.empty tr).keys = {1, 3} := by
    decide +kernel
  exact ⟨tr, htr, hkeys tr htr, broker_calls_complete (run_of_trace htr)⟩

end Gaffa
