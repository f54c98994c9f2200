import Gaffa.Client.Polls

/-!
# What a group member owes the committed offsets

A member that has heard of a committed offset must not commit a smaller one.  The operations of a group
member keep to that: whatever the replies are, as long as the last record of a fetch is not before the
offset that was fetched from, the position of a partition never falls below an offset that the member
has fetched or committed itself, and what it commits is its position.

* `operation_meets`: every operation of a group member respects the bounds it starts with.
-/

set_option autoImplicit false

namespace Gaffa

open Dialogue

/-- For each partition an offset that the member must not commit less than, if there is one. -/
abbrev Bounds := TopicPartition → WithBot Nat

/-- The last record is not before the offset, and the next offset fits in a `u64`. -/
def FromOffset (offset : Nat) (records : List Record) : Prop :=
  ∀ r, records.getLast? = some r → offset ≤ r.offset ∧ r.offset + 1 < 2 ^ 64

/-- A request of a member of the group respects the bounds: it commits no less. -/
def Respects (group : String) (k : Bounds) : Effect → Prop
  | .exchange (.commitOffset groupId topic partition offset) =>
    groupId = group ∧ k (topic, partition) ≤ (offset : WithBot Nat)
  | .exchange (.fetchOffset groupId _ _) => groupId = group
  | _ => True

/-- What a member expects of the answer to a fetch. -/
def Expects : (e : Effect) → e.Answer → Prop
  | .exchange (.fetch _ _ offset _), .ok (.fetchSuccess _ _ records) => FromOffset offset records
  | _, _ => True

/-- The bounds after an answer: an offset that was committed or fetched is one. -/
def boundsAfter (k : Bounds) : (e : Effect) → e.Answer → Bounds
  | .exchange (.commitOffset _ topic partition offset), _ =>
    Function.update k (topic, partition) (offset : WithBot Nat)
  | .exchange (.fetchOffset _ topic partition), .ok (.fetchOffsetSuccess _ _ _ offset) =>
    Function.update k (topic, partition) (offset : WithBot Nat)
  | _, _ => k

theorem boundsAfter_commit (k : Bounds) (groupId topic : String) (partition offset : Nat)
    (reply : Reply) : boundsAfter k (.exchange (.commitOffset groupId topic partition offset)) reply =
      Function.update k (topic, partition) (offset : WithBot Nat) := rfl

/-- The obligations of a member of the group. -/
def groupContract (group : String) : Contract Effect Effect.Answer Bounds where
  respects := Respects group
  expects := Expects
  after := boundsAfter
  respects_anti := by
    intro k k' e hk h
    unfold Respects at h ⊢
    split
    · exact ⟨h.1, (hk _).trans h.2⟩
    · exact h
    · exact trivial
  after_mono := by
    intro k k' e r hk
    unfold boundsAfter
    split
    · exact update_le_update_iff.2 ⟨le_rfl, fun key _ => hk key⟩
    · exact update_le_update_iff.2 ⟨le_rfl, fun key _ => hk key⟩
    · exact hk

/-- The member's positions respect the bounds. -/
def Ahead (group : String) (k : Bounds) (c : Consumer) : Prop :=
  c.groupId = some group ∧ ∀ key, k key ≤ (c.position key : WithBot Nat)

section Operations

variable {group : String} {k k' : Bounds} {c c' : Consumer} {key : TopicPartition}

theorem Ahead.anti (hk : k' ≤ k) (h : Ahead group k c) : Ahead group k' c :=
  ⟨h.1, fun key => (hk key).trans (h.2 key)⟩

theorem Ahead.setOffset (h : Ahead group k c) (key : TopicPartition) (offset : Nat) :
    Ahead group (Function.update k key (offset : WithBot Nat)) (c.setOffset key offset) := by
  refine ⟨h.1, fun key' => ?_⟩
  rw [position_setOffset]
  by_cases hkey : key' = key
  · rw [hkey, Function.update_self, if_pos rfl]
  · rw [Function.update_of_ne hkey, if_neg hkey]
    exact h.2 key'

/-- An offset that a fetch ended with is not below the bound. -/
theorem Ahead.advance (overflowChecks : Bool) {records : List Record} (h : Ahead group k c)
    (hrecords : FromOffset (c.position key) records) :
    ∃ c', c.advance overflowChecks key records = .ok c' ∧ Ahead group k c' := by
  unfold Consumer.advance
  cases hlast : records.getLast? with
  | none => exact ⟨c, rfl, h⟩
  | some r =>
    obtain ⟨hle, hlt⟩ := hrecords r hlast
    have hadvance : (addWith overflowChecks 64 r.offset 1).map (fun offset => c.setOffset key offset) =
        .ok (c.setOffset key (r.offset + 1)) := by
      rw [addWith_of_lt overflowChecks hlt, Except.map]
    refine ⟨c.setOffset key (r.offset + 1), hadvance, h.1, ?_⟩
    intro key'
    rw [position_setOffset]
    split
    · rename_i hkey
      rw [hkey]
      exact (h.2 key).trans (WithBot.coe_le_coe.2 (Nat.le_succ_of_le hle))
    · exact h.2 key'

theorem fetchAll_meets {overflowChecks : Bool} {maxMessages : Nat} {keys : List TopicPartition}
    {allRecords : List Record} (h : Ahead group k c) :
    Meets (groupContract group) (fun k r => Ahead group k r.2) k
      (Consumer.fetchAll overflowChecks maxMessages keys allRecords c) := by
  induction keys generalizing allRecords c with
  | nil => exact h
  | cons key keys ih =>
    rw [fetchAll_cons]
    refine ⟨trivial, fun reply hreply => ?_⟩
    beta_reduce
    cases hfetched : Consumer.fetched reply with
    | error f => exact h
    | ok records =>
      obtain ⟨topic, partition, rfl⟩ := reply_of_fetched hfetched
      obtain ⟨c', hadvance, hahead⟩ := h.advance overflowChecks hreply
      simp only [hadvance]
      exact ih hahead

theorem commitAll_cons (key : TopicPartition) (offset : Nat)
    (entries : List (TopicPartition × Nat)) :
    Consumer.commitAll group ((key, offset) :: entries) =
      .ask (.exchange (.commitOffset group key.1 key.2 offset)) fun reply =>
        match Consumer.committed reply with
        | .error e => .done (.error e)
        | .ok _ => Consumer.commitAll group entries := rfl

/-- A commit of positions. -/
theorem commitAll_meets {entries : List (TopicPartition × Nat)} (h : Ahead group k c)
    (hentries : ∀ entry ∈ entries, entry.2 = c.position entry.1) :
    Meets (groupContract group) (fun k _ => Ahead group k c) k
      (Consumer.commitAll group entries) := by
  induction entries generalizing k with
  | nil => exact h
  | cons entry entries ih =>
    obtain ⟨key, offset⟩ := entry
    obtain ⟨hfirst, hrest⟩ := List.forall_mem_cons.1 hentries
    obtain rfl : offset = c.position key := hfirst
    rw [commitAll_cons]
    refine ⟨⟨rfl, h.2 key⟩, fun reply _ => ?_⟩
    have hahead : Ahead group (Function.update k key (c.position key : WithBot Nat)) c := by
      refine ⟨h.1, fun key' => ?_⟩
      by_cases hkey : key' = key
      · rw [hkey, Function.update_self]
      · rw [Function.update_of_ne hkey]
        exact h.2 key'
    beta_reduce
    cases Consumer.committed reply with
    | error e => exact hahead
    | ok _ => exact ih hahead hrest

theorem commitOffsets_meets (order : List TopicPartition) (h : Ahead group k c) :
    Meets (groupContract group) (fun k _ => Ahead group k c) k (c.commitOffsets order) := by
  unfold Consumer.commitOffsets
  rw [h.1]
  refine commitAll_meets h ?_
  rintro ⟨key, offset⟩ hmem
  obtain ⟨key', -, hget⟩ := List.mem_filterMap.1 hmem
  obtain ⟨offset', hoffset, heq⟩ := Option.map_eq_some_iff.1 hget
  cases heq
  simp [Consumer.position, hoffset]

theorem pollGroup_meets (overflowChecks : Bool) (maxMessages : Nat) (order : List TopicPartition)
    (h : Ahead group k c) :
    Meets (groupContract group) (fun k r => Ahead group k r.2) k
      (c.pollGroup overflowChecks maxMessages order) := by
  unfold Consumer.pollGroup
  split
  · exact h
  · refine Meets.bind ((fetchAll_meets h).mono ?_)
    rintro k ⟨result, c'⟩ hahead
    cases result with
    | error e => exact hahead
    | ok allRecords =>
      simp only
      split
      · exact Meets.bind ((commitOffsets_meets order hahead).mono fun k _ hk => hk)
      · exact hahead

theorem reply_of_fetchedOffset {reply : Reply} {offset : Nat}
    (h : Consumer.fetchedOffset reply = .ok offset) :
    ∃ groupId topic partition, reply = .ok (.fetchOffsetSuccess groupId topic partition offset) := by
  unfold Consumer.fetchedOffset at h
  split at h <;> cases h
  exact ⟨_, _, _, rfl⟩

theorem boundsAfter_of_error (k : Bounds) (groupId topic : String) (partition : Nat)
    {reply : Reply} {f : Fault} (h : Consumer.fetchedOffset reply = .error f) :
    boundsAfter k (.exchange (.fetchOffset groupId topic partition)) reply = k := by
  cases reply with
  | error e => rfl
  | ok response =>
    cases response with
    | fetchOffsetSuccess _ _ _ offset => cases h
    | _ => rfl

theorem initOffsets_cons (memberId : String) (a : PartitionAssignment)
    (assignments : List PartitionAssignment) (c : Consumer) :
    Consumer.initOffsets group memberId (a :: assignments) c =
      .ask (.exchange (.fetchOffset group a.topic a.partition)) fun reply =>
        match Consumer.fetchedOffset reply with
        | .error e => Consumer.finish (.error e) c
        | .ok offset =>
          Consumer.initOffsets group memberId assignments (c.setOffset (a.topic, a.partition) offset) :=
  rfl

theorem initOffsets_meets (memberId : String) {assignments : List PartitionAssignment}
    (h : Ahead group k c) :
    Meets (groupContract group) (fun k r => Ahead group k r.2) k
      (Consumer.initOffsets group memberId assignments c) := by
  induction assignments generalizing k c with
  | nil => exact ⟨trivial, fun task _ => h⟩
  | cons a assignments ih =>
    rw [initOffsets_cons]
    refine ⟨rfl, fun reply _ => ?_⟩
    beta_reduce
    cases hoffset : Consumer.fetchedOffset reply with
    | error f =>
      rw [show (groupContract group).after k _ reply = k from
        boundsAfter_of_error k group a.topic a.partition hoffset]
      exact h
    | ok offset =>
      obtain ⟨groupId, topic, partition, rfl⟩ := reply_of_fetchedOffset hoffset
      exact ih (h.setOffset (a.topic, a.partition) offset)

theorem joinGroup_meets (topics : List String) (h : Ahead group k c) :
    Meets (groupContract group) (fun k r => Ahead group k r.2) k (c.joinGroup topics) := by
  unfold Consumer.joinGroup
  rw [h.1]
  refine ⟨trivial, fun reply _ => ?_⟩
  cases reply with
  | error e => exact h
  | ok response =>
    cases response with
    | joinGroupSuccess groupId memberId assignments => exact initOffsets_meets memberId ⟨rfl, h.2⟩
    | _ => exact h

theorem sendLeave_meets (groupId memberId : String) (h : Ahead group k c) :
    Meets (groupContract group) (fun k r => Ahead group k r.2) k
      (c.sendLeave groupId memberId) := by
  refine ⟨trivial, fun reply _ => ?_⟩
  cases reply with
  | error e => exact h
  | ok response => cases response <;> exact h

theorem leaveGroup_meets (h : Ahead group k c) :
    Meets (groupContract group) (fun k r => Ahead group k r.2) k c.leaveGroup := by
  unfold Consumer.leaveGroup
  split
  · exact h
  · exact h
  · split
    · exact sendLeave_meets _ _ h
    · exact ⟨trivial, fun _ _ => sendLeave_meets _ _ ⟨h.1, h.2⟩⟩

/-- **Every operation** of a group member respects its bounds, and so do the positions it leaves. -/
theorem operation_meets (overflowChecks : Bool) (operation : Consumer.Operation)
    (h : Ahead group k c) :
    Meets (groupContract group) (Ahead group) k (operation.client overflowChecks c) := by
  cases operation with
  | joinGroup topics => exact Meets.bind (joinGroup_meets topics h)
  | leaveGroup => exact Meets.bind (leaveGroup_meets h)
  | pollGroup maxMessages order =>
    exact Meets.bind (pollGroup_meets overflowChecks maxMessages order h)
  | commitOffsets order => exact Meets.bind (commitOffsets_meets order h)

end Operations

end Gaffa
