import Gaffa.Client.Obligations
import Mathlib.Data.Set.BooleanAlgebra
import Mathlib.Order.CompletePartialOrder
import Mathlib.Order.Interval.Set.Basic

/-!
# What a group member owes the messages

A member must not commit an offset that leaves a message behind which no member has read, since the
group never goes back to it.  The operations of a group member keep to that as well: a member fetches
from its position on, and its position goes only as far as it has read, or as others have committed.

* `operation_passes`: every operation of a group member leaves nothing unread behind its positions.
-/

set_option autoImplicit false

namespace Gaffa

open Dialogue

/-- For each partition the offsets that no member has read. -/
abbrev Unread := TopicPartition → Set Nat

/-- A request of a member of the group leaves nothing unread behind. -/
def Passes (group : String) (k : Unread) : Effect → Prop
  | .exchange (.commitOffset groupId topic partition offset) =>
    groupId = group ∧ k (topic, partition) ⊆ Set.Ici offset
  | .exchange (.fetch topic partition offset _) => k (topic, partition) ⊆ Set.Ici offset
  | .exchange (.fetchOffset groupId _ _) => groupId = group
  | _ => True

/-- What is unread after an answer: not the records of a fetch, and nothing below a committed offset. -/
def unreadAfter (k : Unread) : (e : Effect) → e.Answer → Unread
  | .exchange (.fetch topic partition offset _), .ok (.fetchSuccess _ _ records) =>
    Function.update k (topic, partition)
      (k (topic, partition) \ Set.Ico offset (offset + records.length))
  | .exchange (.fetchOffset _ topic partition), .ok (.fetchOffsetSuccess _ _ _ offset) =>
    Function.update k (topic, partition) (k (topic, partition) ∩ Set.Ici offset)
  | _, _ => k

/-- What a member of the group owes the messages that are unread. -/
def readingContract (group : String) : Contract Effect Effect.Answer Unread where
  respects := Passes group
  expects := HonestFetch
  after := unreadAfter
  respects_anti := by
    intro k k' e hk h
    unfold Passes at h ⊢
    split
    · exact ⟨h.1, (hk _).trans h.2⟩
    · exact (hk _).trans h
    · exact h
    · exact trivial
  after_mono := by
    intro k k' e r hk
    unfold unreadAfter
    split
    · exact update_le_update_iff.2 ⟨Set.sdiff_subset_sdiff_left (hk _), fun key _ => hk key⟩
    · exact update_le_update_iff.2 ⟨Set.inter_subset_inter_left _ (hk _), fun key _ => hk key⟩
    · exact hk

/-- The member has nothing unread behind its positions. -/
def Behind (group : String) (k : Unread) (c : Consumer) : Prop :=
  c.groupId = some group ∧ ∀ key, k key ⊆ Set.Ici (c.position key)

section Operations

variable {group : String} {k k' : Unread} {c c' : Consumer} {key : TopicPartition}

theorem Behind.anti (hk : k' ≤ k) (h : Behind group k c) : Behind group k' c :=
  ⟨h.1, fun key => (hk key).trans (h.2 key)⟩

theorem behind_new (group : String) (autoCommit : Bool) (k : Unread) :
    Behind group k (Consumer.new (some group) autoCommit) :=
  ⟨rfl, fun _ _ _ => Nat.zero_le _⟩

/-- The position of one partition goes on to what is unread then. -/
theorem Behind.update (h : Behind group k c) (hgroup : c'.groupId = c.groupId) {unread : Set Nat}
    (hother : ∀ key', key' ≠ key → c'.position key' = c.position key')
    (hunread : unread ⊆ Set.Ici (c'.position key)) : Behind group (Function.update k key unread) c' := by
  refine ⟨hgroup.trans h.1, fun key' => ?_⟩
  by_cases hkey : key' = key
  · subst hkey
    rw [Function.update_self]
    exact hunread
  · rw [Function.update_of_ne hkey, hother key' hkey]
    exact h.2 key'

theorem Behind.setOffset (h : Behind group k c) (key : TopicPartition) (offset : Nat) :
    Behind group (Function.update k key (k key ∩ Set.Ici offset)) (c.setOffset key offset) := by
  have hgroup : (c.setOffset key offset).groupId = c.groupId := rfl
  refine h.update hgroup (fun key' hkey => ?_) ?_
  · rw [position_setOffset, if_neg hkey]
  · rw [position_setOffset, if_pos rfl]
    exact Set.inter_subset_right

theorem groupId_of_advance {overflowChecks : Bool} {records : List Record}
    (h : c.advance overflowChecks key records = .ok c') : c'.groupId = c.groupId := by
  unfold Consumer.advance at h
  split at h
  · cases h
    rfl
  · obtain ⟨offset, -, rfl⟩ := Table.except_map_ok h
    rfl

/-- After a fetch the position is behind its records. -/
theorem Behind.advance (overflowChecks : Bool) {records : List Record} (h : Behind group k c)
    (hrecords : Follows key.1 key.2 (c.position key) records) :
    ∃ c', c.advance overflowChecks key records = .ok c' ∧ Behind group (Function.update k key
      (k key \ Set.Ico (c.position key) (c.position key + records.length))) c' := by
  obtain ⟨c', hadvance, hpolled, -⟩ := advance_of_follows overflowChecks hrecords
  refine ⟨c', hadvance, h.update (groupId_of_advance hadvance) (fun key' hkey => ?_) ?_⟩
  · rw [hpolled.position, filter_of_follows hrecords, if_neg hkey]
    rfl
  · rw [hpolled.position, filter_of_follows hrecords, if_pos rfl]
    rintro offset ⟨hunread, hnot⟩
    have hle : c.position key ≤ offset := h.2 key hunread
    exact not_lt.1 fun hlt => hnot ⟨hle, hlt⟩

/-- A reply that is no success of a fetch tells nothing of its partition. -/
theorem unreadAfter_of_failed {topic : String} {partition offset maxMessages : Nat} {reply : Reply}
    {f : Fault} (h : Consumer.fetched reply = .error f) :
    unreadAfter k (.exchange (.fetch topic partition offset maxMessages)) reply = k := by
  cases reply with
  | error e => rfl
  | ok response =>
    cases response with
    | fetchSuccess _ _ records => cases h
    | _ => rfl

theorem fetchAll_passes {overflowChecks : Bool} {maxMessages : Nat} {keys : List TopicPartition}
    {allRecords : List Record} (h : Behind group k c) :
    Meets (readingContract group) (fun k r => Behind group k r.2) k
      (Consumer.fetchAll overflowChecks maxMessages keys allRecords c) := by
  induction keys generalizing allRecords k c with
  | nil => exact h
  | cons key keys ih =>
    rw [fetchAll_cons]
    refine ⟨h.2 key, fun reply hreply => ?_⟩
    beta_reduce
    cases hfetched : Consumer.fetched reply with
    | error f =>
      rw [show (readingContract group).after k _ reply = k from unreadAfter_of_failed hfetched]
      exact h
    | ok records =>
      obtain ⟨topic, partition, rfl⟩ := reply_of_fetched hfetched
      obtain ⟨c', hadvance, hbehind⟩ := h.advance overflowChecks hreply
      simp only [hadvance]
      exact ih hbehind

/-- A commit of positions. -/
theorem commitAll_passes {entries : List (TopicPartition × Nat)} (h : Behind group k c)
    (hentries : ∀ entry ∈ entries, entry.2 = c.position entry.1) :
    Meets (readingContract group) (fun k _ => Behind group k c) k
      (Consumer.commitAll group entries) := by
  induction entries with
  | nil => exact h
  | cons entry entries ih =>
    obtain ⟨key, offset⟩ := entry
    obtain ⟨hfirst, hrest⟩ := List.forall_mem_cons.1 hentries
    obtain rfl : offset = c.position key := hfirst
    rw [commitAll_cons]
    refine ⟨⟨rfl, h.2 key⟩, fun reply _ => ?_⟩
    beta_reduce
    cases Consumer.committed reply with
    | error e => exact h
    | ok _ => exact ih hrest

theorem commitOffsets_passes (order : List TopicPartition) (h : Behind group k c) :
    Meets (readingContract group) (fun k _ => Behind group k c) k (c.commitOffsets order) := by
  unfold Consumer.commitOffsets
  rw [h.1]
  refine commitAll_passes h ?_
  rintro ⟨key, offset⟩ hmem
  obtain ⟨key', -, hget⟩ := List.mem_filterMap.1 hmem
  obtain ⟨offset', hoffset, heq⟩ := Option.map_eq_some_iff.1 hget
  cases heq
  simp [Consumer.position, hoffset]

theorem pollGroup_passes (overflowChecks : Bool) (maxMessages : Nat) (order : List TopicPartition)
    (h : Behind group k c) :
    Meets (readingContract group) (fun k r => Behind group k r.2) k
      (c.pollGroup overflowChecks maxMessages order) := by
  unfold Consumer.pollGroup
  split
  · exact h
  · refine Meets.bind ((fetchAll_passes h).mono ?_)
    rintro k ⟨result, c'⟩ hbehind
    cases result with
    | error e => exact hbehind
    | ok allRecords =>
      simp only
      split
      · exact Meets.bind ((commitOffsets_passes order hbehind).mono fun k _ hk => hk)
      · exact hbehind

theorem unreadAfter_of_unknown {groupId topic : String} {partition : Nat} {reply : Reply} {f : Fault}
    (h : Consumer.fetchedOffset reply = .error f) :
    unreadAfter k (.exchange (.fetchOffset groupId topic partition)) reply = k := by
  cases reply with
  | error e => rfl
  | ok response =>
    cases response with
    | fetchOffsetSuccess _ _ _ offset => cases h
    | _ => rfl

theorem initOffsets_passes (memberId : String) {assignments : List PartitionAssignment}
    (h : Behind group k c) :
    Meets (readingContract group) (fun k r => Behind group k r.2) k
      (Consumer.initOffsets group memberId assignments c) := by
  induction assignments generalizing k c with
  | nil => exact ⟨trivial, fun task _ => h⟩
  | cons a assignments ih =>
    rw [initOffsets_cons]
    refine ⟨rfl, fun reply _ => ?_⟩
    beta_reduce
    cases hoffset : Consumer.fetchedOffset reply with
    | error f =>
      rw [show (readingContract group).after k _ reply = k from unreadAfter_of_unknown hoffset]
      exact h
    | ok offset =>
      obtain ⟨groupId, topic, partition, rfl⟩ := reply_of_fetchedOffset hoffset
      exact ih (h.setOffset (a.topic, a.partition) offset)

theorem joinGroup_passes (topics : List String) (h : Behind group k c) :
    Meets (readingContract group) (fun k r => Behind group k r.2) k (c.joinGroup topics) := by
  unfold Consumer.joinGroup
  rw [h.1]
  refine ⟨trivial, fun reply _ => ?_⟩
  cases reply with
  | error e => exact h
  | ok response =>
    cases response with
    | joinGroupSuccess groupId memberId assignments => exact initOffsets_passes memberId ⟨rfl, h.2⟩
    | _ => exact h

theorem sendLeave_passes (groupId memberId : String) (h : Behind group k c) :
    Meets (readingContract group) (fun k r => Behind group k r.2) k
      (c.sendLeave groupId memberId) := by
  refine ⟨trivial, fun reply _ => ?_⟩
  cases reply with
  | error e => exact h
  | ok response => cases response <;> exact h

theorem leaveGroup_passes (h : Behind group k c) :
    Meets (readingContract group) (fun k r => Behind group k r.2) k c.leaveGroup := by
  unfold Consumer.leaveGroup
  split
  · exact h
  · exact h
  · split
    · exact sendLeave_passes _ _ h
    · exact ⟨trivial, fun _ _ => sendLeave_passes _ _ ⟨h.1, h.2⟩⟩

/-- **Every operation** of a group member leaves nothing unread behind its requests and its positions. -/
theorem operation_passes (overflowChecks : Bool) (operation : Consumer.Operation)
    (h : Behind group k c) :
    Meets (readingContract group) (Behind group) k (operation.client overflowChecks c) := by
  cases operation with
  | joinGroup topics => exact Meets.bind (joinGroup_passes topics h)
  | leaveGroup => exact Meets.bind (leaveGroup_passes h)
  | pollGroup maxMessages order =>
    exact Meets.bind (pollGroup_passes overflowChecks maxMessages order h)
  | commitOffsets order => exact Meets.bind (commitOffsets_passes order h)

end Operations

end Gaffa
