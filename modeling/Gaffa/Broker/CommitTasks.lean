import Gaffa.Lib.Transition
import Gaffa.Broker.OffsetFiles

/-!
# Concurrent commits

Any number of `commit_offset` calls at the same time.  Each inserts its entry under the write lock of
the map, then takes the read lock and rewrites the file of its group through a handle of its own:
truncate, one write for each line, sync.  Readers share the lock, so several calls may write one file
at the same time, over and between each other's lines.  A write that fails is reported to the next one;
the last one of a call is lost, and the call returns `Ok`.

* `commits_reach_disk`: once all calls have returned, every file has the lines of its group, unless a
  write was lost.
* `commit_lost`: a lost one may leave no line at all.
-/

set_option autoImplicit false

namespace Gaffa

open ByteString FileSystem Text Transition OffsetManager

variable {ι : Type}

/-- Where a call of `commit_offset` is. -/
inductive CommitTask where
  /-- Before the write lock. -/
  | inserting (key : OffsetKey) (offset : Nat)
  /-- Before the read lock. -/
  | locking (groupId : String)
  /-- With the read lock and the entries of the group, before `File::create`. -/
  | creating (groupId : String) (left : List Bytes)
  /-- With a file handle at `position`, and these lines left to write. -/
  | writing (groupId : String) (loc : Location) (position : Nat) (left : List Bytes)
  /-- Synced, before the read lock is released. -/
  | synced (groupId : String)

/-- The call holds the read lock. -/
def CommitTask.reads : CommitTask → Bool
  | .inserting .. => false
  | .locking _ => false
  | .creating .. => true
  | .writing .. => true
  | .synced _ => true

/-- The map with the order in which it is iterated, the files, and the calls under way. -/
structure CommitState (ι : Type) where
  offsets : Table OffsetKey Nat
  order : List OffsetKey
  files : Files
  tasks : Table ι CommitTask

/-- The steps of the calls; an insert may change the order of the map. -/
inductive CommitEvent (ι : Type) where
  | call (i : ι) (c : Commit)
  | insert (i : ι) (order : List OffsetKey)
  | lock (i : ι)
  | create (i : ι)
  | write (i : ι)
  /-- The write of the last line fails behind `stored` bytes. -/
  | lose (i : ι) (stored : Nat)
  | sync (i : ι)
  | release (i : ι)

/-- The keys of a group, in the order of the map. -/
def CommitState.groupKeys (s : CommitState ι) (groupId : String) : List OffsetKey :=
  s.order.filter fun key => key.groupId = groupId

/-- The lines that `persist_group` writes for a group. -/
def CommitState.lines (s : CommitState ι) (groupId : String) : List Bytes :=
  (s.groupKeys groupId).map fun key => utf8 (entryLine s.offsets key)

/-- No call has the read lock. -/
def CommitState.NoReader (s : CommitState ι) : Prop :=
  ∀ i t, s.tasks.get i = some t → t.reads = false

instance (s : CommitState ι) : Decidable s.NoReader :=
  decidable_of_iff (∀ i ∈ s.tasks.keys, ∀ t ∈ s.tasks.get i, t.reads = false) (by
    constructor
    · intro h i t ht
      exact h i (Table.mem_keys_iff.2 ⟨t, ht⟩) t ht
    · intro h i _ t ht
      exact h i t ht)

variable [DecidableEq ι]

/-- A step of a run in which no call returns `Err`: a write may only fail in the last buffer of the last
line. -/
def CommitState.next (os : Os) (dataDir : Location) (s : CommitState ι) :
    CommitEvent ι → Option (CommitState ι)
  | .call i c =>
    match s.tasks.get i with
    | some _ => none
    | none => some { s with tasks := s.tasks.insert i (.inserting c.key c.offset) }
  | .insert i order =>
    match s.tasks.get i with
    | some (.inserting key offset) =>
      if s.NoReader ∧ (s.offsets.insert key offset).Order order then
        some { s with
          offsets := s.offsets.insert key offset
          order := order
          tasks := s.tasks.insert i (.locking key.groupId) }
      else none
    | _ => none
  | .lock i =>
    match s.tasks.get i with
    | some (.locking groupId) =>
      some { s with tasks := s.tasks.insert i (.creating groupId (s.lines groupId)) }
    | _ => none
  | .create i =>
    match s.tasks.get i with
    | some (.creating groupId left) =>
      match FileSystem.create os dataDir (fileName groupId) with
      | none => none
      | some loc => some { s with
          files := s.files.insert loc []
          tasks := s.tasks.insert i (.writing groupId loc 0 left) }
    | _ => none
  | .write i =>
    match s.tasks.get i with
    | some (.writing groupId loc position (line :: left)) => some { s with
        files := s.files.insert loc (writeAt ((s.files.get loc).getD []) position line)
        tasks := s.tasks.insert i (.writing groupId loc (position + line.length) left) }
    | _ => none
  | .lose i stored =>
    match s.tasks.get i with
    | some (.writing groupId loc position [line]) =>
      if lastBuffer line ≤ stored ∧ stored < line.length then some { s with
        files := if stored = 0 then s.files
          else s.files.insert loc
            (writeAt ((s.files.get loc).getD []) position (line.take stored))
        tasks := s.tasks.insert i (.writing groupId loc (position + stored) []) }
      else none
    | _ => none
  | .sync i =>
    match s.tasks.get i with
    | some (.writing groupId _ _ []) =>
      some { s with tasks := s.tasks.insert i (.synced groupId) }
    | _ => none
  | .release i =>
    match s.tasks.get i with
    | some (.synced _) => some { s with tasks := s.tasks.remove i }
    | _ => none

/-- What each step needs, and what it does. -/
inductive CommitStep (os : Os) (dataDir : Location) (s : CommitState ι) :
    CommitEvent ι → CommitState ι → Prop
  | call {i : ι} {c : Commit} (hget : s.tasks.get i = none) : CommitStep os dataDir s (.call i c)
      { s with tasks := s.tasks.insert i (.inserting c.key c.offset) }
  | insert {i : ι} {key : OffsetKey} {offset : Nat} {order : List OffsetKey}
      (hget : s.tasks.get i = some (.inserting key offset)) (hreader : s.NoReader)
      (horder : (s.offsets.insert key offset).Order order) :
      CommitStep os dataDir s (.insert i order) ⟨s.offsets.insert key offset, order, s.files,
        s.tasks.insert i (.locking key.groupId)⟩
  | lock {i : ι} {groupId : String} (hget : s.tasks.get i = some (.locking groupId)) :
      CommitStep os dataDir s (.lock i)
        { s with tasks := s.tasks.insert i (.creating groupId (s.lines groupId)) }
  | create {i : ι} {groupId : String} {left : List Bytes} {loc : Location}
      (hget : s.tasks.get i = some (.creating groupId left))
      (hloc : FileSystem.create os dataDir (fileName groupId) = some loc) :
      CommitStep os dataDir s (.create i) ⟨s.offsets, s.order, s.files.insert loc [],
        s.tasks.insert i (.writing groupId loc 0 left)⟩
  | write {i : ι} {groupId : String} {loc : Location} {position : Nat} {line : Bytes}
      {left : List Bytes} (hget : s.tasks.get i = some (.writing groupId loc position (line :: left))) :
      CommitStep os dataDir s (.write i) ⟨s.offsets, s.order,
        s.files.insert loc (writeAt ((s.files.get loc).getD []) position line),
        s.tasks.insert i (.writing groupId loc (position + line.length) left)⟩
  | lose {i : ι} {stored : Nat} {groupId : String} {loc : Location} {position : Nat} {line : Bytes}
      (hget : s.tasks.get i = some (.writing groupId loc position [line]))
      (hlast : lastBuffer line ≤ stored) (hlost : stored < line.length) :
      CommitStep os dataDir s (.lose i stored) ⟨s.offsets, s.order,
        if stored = 0 then s.files
          else s.files.insert loc
            (writeAt ((s.files.get loc).getD []) position (line.take stored)),
        s.tasks.insert i (.writing groupId loc (position + stored) [])⟩
  | sync {i : ι} {groupId : String} {loc : Location} {position : Nat}
      (hget : s.tasks.get i = some (.writing groupId loc position [])) :
      CommitStep os dataDir s (.sync i) { s with tasks := s.tasks.insert i (.synced groupId) }
  | release {i : ι} {groupId : String} (hget : s.tasks.get i = some (.synced groupId)) :
      CommitStep os dataDir s (.release i) { s with tasks := s.tasks.remove i }

theorem commitStep_iff {os : Os} {dataDir : Location} {s t : CommitState ι} {e : CommitEvent ι} :
    s.next os dataDir e = some t ↔ CommitStep os dataDir s e t := by
  constructor
  · intro h
    cases e with
    | call i c =>
      simp only [CommitState.next] at h
      split at h
      · cases h
      · rename_i hget
        cases h
        exact .call hget
    | insert i order =>
      simp only [CommitState.next] at h
      split at h
      · rename_i key offset hget
        obtain ⟨⟨hreader, horder⟩, h⟩ := Option.ite_none_right_eq_some.1 h
        cases h
        exact .insert hget hreader horder
      · cases h
    | lock i =>
      simp only [CommitState.next] at h
      split at h
      · rename_i groupId hget
        cases h
        exact .lock hget
      · cases h
    | create i =>
      simp only [CommitState.next] at h
      split at h
      · rename_i groupId left hget
        split at h
        · cases h
        · rename_i loc hloc
          cases h
          exact .create hget hloc
      · cases h
    | write i =>
      simp only [CommitState.next] at h
      split at h
      · rename_i groupId loc position line left hget
        cases h
        exact .write hget
      · cases h
    | lose i stored =>
      simp only [CommitState.next] at h
      split at h
      · rename_i groupId loc position line hget
        obtain ⟨⟨hlast, hlost⟩, h⟩ := Option.ite_none_right_eq_some.1 h
        cases h
        exact .lose hget hlast hlost
      · cases h
    | sync i =>
      simp only [CommitState.next] at h
      split at h
      · rename_i groupId loc position hget
        cases h
        exact .sync hget
      · cases h
    | release i =>
      simp only [CommitState.next] at h
      split at h
      · rename_i groupId hget
        cases h
        exact .release hget
      · cases h
  · rintro (hget | ⟨hget, hreader, horder⟩ | hget | ⟨hget, hloc⟩ | hget | ⟨hget, hlast, hlost⟩ | hget |
      hget)
    · simp only [CommitState.next, hget]
    · simp only [CommitState.next, hget]
      exact if_pos ⟨hreader, horder⟩
    · simp only [CommitState.next, hget]
    · simp only [CommitState.next, hget, hloc]
    · simp only [CommitState.next, hget]
    · simp only [CommitState.next, hget]
      exact if_pos ⟨hlast, hlost⟩
    · simp only [CommitState.next, hget]
    · simp only [CommitState.next, hget]

/-! ## What holds in between -/

/-- The content of a group's file; a file that does not exist has none. -/
def CommitState.file (dataDir : Location) (s : CommitState ι) (groupId : String) : Bytes :=
  (s.files.get (dataDir ++ [fileName groupId])).getD []

/-- The file has exactly one line for each entry of the group, in some order. -/
def CommitState.Written (dataDir : Location) (s : CommitState ι) (groupId : String) : Prop :=
  ∃ keys, (groupOffsets groupId s.offsets).Order keys ∧
    s.file dataDir groupId = utf8 (groupText s.offsets keys)

/-- Some call has still to create the file. -/
def CommitState.Pending (s : CommitState ι) (groupId : String) : Prop :=
  ∃ i, s.tasks.get i = some (.locking groupId) ∨
    ∃ left, s.tasks.get i = some (.creating groupId left)

/-- Some call has a handle of the file. -/
def CommitState.Writer (s : CommitState ι) (groupId : String) (position : Nat) : Prop :=
  ∃ i loc left, s.tasks.get i = some (.writing groupId loc position left)

/-- The file has what the map spells up to the position of some writer, or all of it, and nothing
behind: the holes that the last truncation left are refilled by the one who truncated. -/
def CommitState.Refilled (dataDir : Location) (s : CommitState ι) (groupId : String) : Prop :=
  ∃ q, q ≤ (s.lines groupId).flatten.length ∧
    (s.file dataDir groupId).take q = (s.lines groupId).flatten.take q ∧
    (s.file dataDir groupId).length ≤ (s.lines groupId).flatten.length ∧
    (q = (s.lines groupId).flatten.length ∨ s.Writer groupId q)

/-- What is known of a call: the lines that it writes are those of the map. -/
def CommitState.TaskOk (dataDir : Location) (s : CommitState ι) : CommitTask → Prop
  | .inserting key _ => PlainGroup key.groupId
  | .locking groupId => PlainGroup groupId
  | .creating groupId left => PlainGroup groupId ∧ left = s.lines groupId
  | .writing groupId loc position left => PlainGroup groupId ∧
      loc = dataDir ++ [fileName groupId] ∧
      ∃ written, s.lines groupId = written ++ left ∧ position = written.flatten.length
  | .synced _ => True

/-- The invariant of a run. -/
structure CommitState.Ok (dataDir : Location) (s : CommitState ι) : Prop where
  order : s.offsets.Order s.order
  tasks : ∀ i t, s.tasks.get i = some t → s.TaskOk dataDir t
  groups : ∀ groupId, PlainGroup groupId → s.Pending groupId ∨ s.Refilled dataDir groupId ∨
    (s.Written dataDir groupId ∧ ∀ q, ¬ s.Writer groupId q)

section Step

variable {os : Os} {dataDir : Location} {s t : CommitState ι} {i : ι} {groupId : String}

omit [DecidableEq ι] in
theorem flatten_lines (s : CommitState ι) (groupId : String) :
    (s.lines groupId).flatten = utf8 (groupText s.offsets (s.groupKeys groupId)) :=
  flatten_entryLines s.offsets (s.groupKeys groupId)

omit [DecidableEq ι] in
theorem groupKeys_order (h : s.offsets.Order s.order) (groupId : String) :
    (groupOffsets groupId s.offsets).Order (s.groupKeys groupId) := by
  refine ⟨h.nodup.filter _, fun key => ?_⟩
  rw [CommitState.groupKeys, List.mem_filter, h.mem_iff, Table.mem_keys_iff]
  simp only [groupOffsets, Table.get_retain, Option.filter_eq_some_iff, decide_eq_true_eq]
  constructor
  · rintro ⟨⟨offset, hget⟩, hgroup⟩
    exact ⟨offset, hget, hgroup⟩
  · rintro ⟨offset, hget, hgroup⟩
    exact ⟨⟨offset, hget⟩, hgroup⟩

omit [DecidableEq ι] in
/-- A file that is filled up is written. -/
theorem Refilled.written (h : s.Refilled dataDir groupId) (horder : s.offsets.Order s.order)
    (hnone : ∀ q, ¬ s.Writer groupId q) : s.Written dataDir groupId := by
  obtain ⟨q, -, htake, hlen, hq | hq⟩ := h
  · refine ⟨s.groupKeys groupId, groupKeys_order horder groupId, ?_⟩
    rw [hq, List.take_length, List.take_of_length_le hlen] at htake
    rw [htake, flatten_lines]
  · exact absurd hq (hnone q)

/-! ## The task of one call changes -/

/-- The other calls are where they were. -/
def OnlyTask (i : ι) (s t : CommitState ι) : Prop := ∀ k, k ≠ i → t.tasks.get k = s.tasks.get k

theorem OnlyTask.insert (s : CommitState ι) (task : CommitTask) (offsets : Table OffsetKey Nat)
    (order : List OffsetKey) (files : Files) :
    OnlyTask i s ⟨offsets, order, files, s.tasks.insert i task⟩ :=
  fun _ hk => Table.get_insert_ne task hk

omit [DecidableEq ι] in
theorem OnlyTask.pending (h : OnlyTask i s t) (hlock : s.tasks.get i ≠ some (.locking groupId))
    (hcreate : ∀ left, s.tasks.get i ≠ some (.creating groupId left)) (hp : s.Pending groupId) :
    t.Pending groupId := by
  obtain ⟨k, hk | ⟨left, hk⟩⟩ := hp
  · refine ⟨k, Or.inl ?_⟩
    rw [h k (fun heq => hlock (heq ▸ hk)), hk]
  · refine ⟨k, Or.inr ⟨left, ?_⟩⟩
    rw [h k (fun heq => hcreate left (heq ▸ hk)), hk]

omit [DecidableEq ι] in
theorem OnlyTask.writer (h : OnlyTask i s t) {q : Nat}
    (hi : ∀ loc left, s.tasks.get i ≠ some (.writing groupId loc q left))
    (hw : s.Writer groupId q) : t.Writer groupId q := by
  obtain ⟨k, loc, left, hk⟩ := hw
  refine ⟨k, loc, left, ?_⟩
  rw [h k (fun heq => hi loc left (heq ▸ hk)), hk]

omit [DecidableEq ι] in
theorem OnlyTask.writer_back (h : OnlyTask i s t) {q : Nat} (hw : t.Writer groupId q)
    (hi : ∀ loc left, t.tasks.get i ≠ some (.writing groupId loc q left)) :
    s.Writer groupId q := by
  obtain ⟨k, loc, left, hk⟩ := hw
  refine ⟨k, loc, left, ?_⟩
  rw [← h k (fun heq => hi loc left (heq ▸ hk)), hk]

omit [DecidableEq ι] in
/-- What a group that the call has nothing to do with, or is done with, keeps. -/
theorem CommitState.Ok.keep (h : s.Ok dataDir) (honly : OnlyTask i s t)
    (hoffsets : t.offsets = s.offsets) (horder : t.order = s.order)
    (hfile : t.file dataDir groupId = s.file dataDir groupId) (hplain : PlainGroup groupId)
    (hlock : s.tasks.get i ≠ some (.locking groupId))
    (hcreate : ∀ left, s.tasks.get i ≠ some (.creating groupId left))
    (hbefore : ∀ loc q left, s.tasks.get i = some (.writing groupId loc q left) →
      q = (s.lines groupId).flatten.length)
    (hafter : ∀ loc q left, t.tasks.get i ≠ some (.writing groupId loc q left)) :
    t.Pending groupId ∨ t.Refilled dataDir groupId ∨
      (t.Written dataDir groupId ∧ ∀ q, ¬ t.Writer groupId q) := by
  have hlines : t.lines groupId = s.lines groupId := by
    rw [CommitState.lines, CommitState.lines, CommitState.groupKeys, CommitState.groupKeys,
      hoffsets, horder]
  rcases h.groups groupId hplain with hp | hr | ⟨hw, hnone⟩
  · exact Or.inl (honly.pending hlock hcreate hp)
  · obtain ⟨q, hq, htake, hlen, hfull⟩ := hr
    refine Or.inr (Or.inl ⟨q, ?_, ?_, ?_, ?_⟩)
    · rw [hlines]; exact hq
    · rw [hlines, hfile]; exact htake
    · rw [hlines, hfile]; exact hlen
    · rw [hlines]
      by_cases hall : q = (s.lines groupId).flatten.length
      · exact Or.inl hall
      · refine Or.inr (honly.writer ?_ (hfull.resolve_left hall))
        intro loc left hi
        exact hall (hbefore loc q left hi)
  · refine Or.inr (Or.inr ⟨?_, fun q hq => hnone q (honly.writer_back hq fun loc => hafter loc q)⟩)
    obtain ⟨keys, hkeys, hbytes⟩ := hw
    exact ⟨keys, by rw [hoffsets]; exact hkeys, by rw [hoffsets, hfile]; exact hbytes⟩

/-- The calls that stay where they are still write the lines of the map. -/
theorem CommitState.Ok.keepTasks (h : s.Ok dataDir) (honly : OnlyTask i s t)
    (hoffsets : t.offsets = s.offsets) (horder : t.order = s.order)
    (hi : ∀ task, t.tasks.get i = some task → t.TaskOk dataDir task) :
    ∀ k task, t.tasks.get k = some task → t.TaskOk dataDir task := by
  have hlines : ∀ g, t.lines g = s.lines g := by
    intro g
    rw [CommitState.lines, CommitState.lines, CommitState.groupKeys, CommitState.groupKeys,
      hoffsets, horder]
  intro k task hk
  by_cases hki : k = i
  · subst hki
    exact hi task hk
  · rw [honly k hki] at hk
    have htask := h.tasks k task hk
    cases task with
    | inserting key offset => exact htask
    | locking g => exact htask
    | creating g left =>
      refine ⟨htask.1, ?_⟩
      rw [hlines]
      exact htask.2
    | writing g loc position left =>
      refine ⟨htask.1, htask.2.1, ?_⟩
      rw [hlines]
      exact htask.2.2
    | synced g => exact trivial

/-! ## The steps -/

theorem CommitState.Ok.call (h : s.Ok dataDir) {c : Commit} (hc : PlainGroup c.key.groupId)
    (hget : s.tasks.get i = none) :
    CommitState.Ok dataDir
      { s with tasks := s.tasks.insert i (.inserting c.key c.offset) } := by
  have honly := OnlyTask.insert (i := i) s (.inserting c.key c.offset) s.offsets s.order s.files
  refine ⟨h.order, h.keepTasks honly rfl rfl ?_, ?_⟩
  · intro task htask
    rw [Table.get_insert_self] at htask
    cases htask
    exact hc
  · intro g hg
    refine h.keep honly rfl rfl rfl hg ?_ ?_ ?_ ?_ <;> simp [hget]

/-- An insert waits until no call reads, so that every file is written and stays so. -/
theorem CommitState.Ok.insert (h : s.Ok dataDir) {key : OffsetKey} {offset : Nat}
    {order : List OffsetKey} (hget : s.tasks.get i = some (.inserting key offset))
    (hreader : s.NoReader) (horder : (s.offsets.insert key offset).Order order) :
    CommitState.Ok dataDir
      ⟨s.offsets.insert key offset, order, s.files, s.tasks.insert i (.locking key.groupId)⟩ := by
  have honly := OnlyTask.insert (i := i) s (.locking key.groupId) (s.offsets.insert key offset) order
    s.files
  have hkey : PlainGroup key.groupId := h.tasks i _ hget
  have hnone : ∀ g q, ¬ s.Writer g q := by
    rintro g q ⟨k, loc, left, hk⟩
    exact absurd (hreader k _ hk) (by simp [CommitTask.reads])
  refine ⟨horder, ?_, ?_⟩
  · intro k task hk
    rcases Table.get_insert_cases hk with ⟨-, rfl⟩ | ⟨-, hk⟩
    · exact hkey
    · have htask := h.tasks k task hk
      have hreads := hreader k task hk
      cases task with
      | inserting key' offset' => exact htask
      | locking g => exact htask
      | creating g left => cases hreads
      | writing g loc position left => cases hreads
      | synced g => exact trivial
  · intro g hg
    by_cases hkg : key.groupId = g
    · exact Or.inl ⟨i, Or.inl (by rw [← hkg]; exact Table.get_insert_self ..)⟩
    · have hkeep : s.Written dataDir g → CommitState.Written dataDir
          ⟨s.offsets.insert key offset, order, s.files, s.tasks.insert i (.locking key.groupId)⟩
          g := by
        rintro ⟨keys, hkeys, hbytes⟩
        refine ⟨keys, by rw [groupOffsets_insert hkg]; exact hkeys, ?_⟩
        rw [groupText_insert hkg hkeys]
        exact hbytes
      rcases h.groups g hg with hp | hr | ⟨hw, -⟩
      · exact Or.inl (honly.pending (by simp [hget]) (by simp [hget]) hp)
      · refine Or.inr (Or.inr ⟨hkeep (Refilled.written hr h.order (hnone g)), fun q hq => ?_⟩)
        exact hnone g q (honly.writer_back hq (by simp))
      · refine Or.inr (Or.inr ⟨hkeep hw, fun q hq => ?_⟩)
        exact hnone g q (honly.writer_back hq (by simp))

theorem CommitState.Ok.lock (h : s.Ok dataDir) (hget : s.tasks.get i = some (.locking groupId)) :
    CommitState.Ok dataDir
      { s with tasks := s.tasks.insert i (.creating groupId (s.lines groupId)) } := by
  have honly := OnlyTask.insert (i := i) s (.creating groupId (s.lines groupId)) s.offsets s.order
    s.files
  refine ⟨h.order, h.keepTasks honly rfl rfl ?_, ?_⟩
  · intro task htask
    rw [Table.get_insert_self] at htask
    cases htask
    exact ⟨h.tasks i _ hget, rfl⟩
  · intro g hg
    by_cases hgg : groupId = g
    · subst hgg
      exact Or.inl ⟨i, Or.inr ⟨_, Table.get_insert_self ..⟩⟩
    · refine h.keep honly rfl rfl rfl hg ?_ ?_ ?_ ?_ <;> simp [hget, hgg]

omit [DecidableEq ι] in
/-- The content of the file that was written, and of every other one. -/
theorem file_insert {bytes : Bytes} {tasks : Table ι CommitTask} (groupId g : String) :
    CommitState.file dataDir ⟨s.offsets, s.order,
        s.files.insert (dataDir ++ [fileName groupId]) bytes, tasks⟩ g =
      if groupId = g then bytes else s.file dataDir g := by
  simp only [CommitState.file, Table.get_insert, List.append_right_inj, List.cons.injEq, and_true]
  by_cases hg : groupId = g
  · rw [if_pos hg, if_pos (by rw [hg])]
    rfl
  · rw [if_neg hg, if_neg (fun heq => hg (fileName_inj heq).symm)]

/-- A truncation leaves a writer at the front of an empty file. -/
theorem CommitState.Ok.create (h : s.Ok dataDir) {left : List Bytes}
    (hget : s.tasks.get i = some (.creating groupId left)) :
    CommitState.Ok dataDir ⟨s.offsets, s.order, s.files.insert (dataDir ++ [fileName groupId]) [],
      s.tasks.insert i (.writing groupId (dataDir ++ [fileName groupId]) 0 left)⟩ := by
  have honly := OnlyTask.insert (i := i) s (.writing groupId (dataDir ++ [fileName groupId]) 0 left)
    s.offsets s.order (s.files.insert (dataDir ++ [fileName groupId]) [])
  obtain ⟨hplain, hleft⟩ := h.tasks i _ hget
  refine ⟨h.order, h.keepTasks honly rfl rfl ?_, ?_⟩
  · intro task htask
    rw [Table.get_insert_self] at htask
    cases htask
    exact ⟨hplain, rfl, [], hleft.symm, rfl⟩
  · intro g hg
    by_cases hgg : groupId = g
    · subst hgg
      refine Or.inr (Or.inl ⟨0, Nat.zero_le _, rfl, ?_, ?_⟩)
      · rw [file_insert, if_pos rfl]
        exact Nat.zero_le _
      · exact Or.inr ⟨i, _, _, Table.get_insert_self ..⟩
    · refine h.keep honly rfl rfl ?_ hg ?_ ?_ ?_ ?_
      · rw [file_insert, if_neg hgg]
      all_goals simp [hget, hgg]

/-- A write of the writer that refills moves the front; one of any other writer keeps it. -/
theorem CommitState.Ok.write (h : s.Ok dataDir) {loc : Location} {position : Nat} {line : Bytes}
    {left : List Bytes} (hget : s.tasks.get i = some (.writing groupId loc position (line :: left))) :
    CommitState.Ok dataDir ⟨s.offsets, s.order,
      s.files.insert loc (writeAt ((s.files.get loc).getD []) position line),
      s.tasks.insert i (.writing groupId loc (position + line.length) left)⟩ := by
  obtain ⟨hplain, rfl, written, hlines, rfl⟩ := h.tasks i _ hget
  change CommitState.Ok dataDir ⟨s.offsets, s.order, s.files.insert (dataDir ++ [fileName groupId])
    (writeAt (s.file dataDir groupId) written.flatten.length line), _⟩
  have honly := OnlyTask.insert (i := i) s (.writing groupId (dataDir ++ [fileName groupId])
    (written.flatten.length + line.length) left) s.offsets s.order (s.files.insert
      (dataDir ++ [fileName groupId]) (writeAt (s.file dataDir groupId) written.flatten.length line))
  refine ⟨h.order, h.keepTasks honly rfl rfl ?_, ?_⟩
  · intro task htask
    rw [Table.get_insert_self] at htask
    cases htask
    refine ⟨hplain, rfl, written ++ [line], ?_, ?_⟩
    · rw [List.append_assoc]
      exact hlines
    · simp
  · intro g hg
    by_cases hgg : groupId = g
    · subst hgg
      have htotal : (s.lines groupId).flatten = written.flatten ++ line ++ left.flatten := by
        rw [hlines]
        simp
      rcases h.groups groupId hg with hp | ⟨q, hq, htake, hlen, hfull⟩ | ⟨-, hnone⟩
      · exact Or.inl (honly.pending (by simp [hget]) (by simp [hget]) hp)
      · refine Or.inr (Or.inl ?_)
        have hlength : (writeAt (s.file dataDir groupId) written.flatten.length line).length ≤
            (s.lines groupId).flatten.length := by
          rw [length_writeAt, htotal]
          rw [htotal] at hlen
          simp only [List.length_append] at hlen ⊢
          omega
        by_cases hown : q = written.flatten.length
        · subst hown
          refine ⟨written.flatten.length + line.length, ?_, ?_, ?_, ?_⟩
          · change _ ≤ (s.lines groupId).flatten.length
            rw [htotal]
            simp only [List.length_append]
            omega
          · change _ = (s.lines groupId).flatten.take _
            rw [file_insert, if_pos rfl, take_writeAt_next line, htotal, ← List.length_append,
              List.take_left']
            · rfl
            · rw [htake, htotal, List.append_assoc, List.take_left']
              rfl
          · rw [file_insert, if_pos rfl]
            exact hlength
          · exact Or.inr ⟨i, _, _, Table.get_insert_self ..⟩
        · refine ⟨q, hq, ?_, ?_, ?_⟩
          · change _ = (s.lines groupId).flatten.take q
            rw [htotal] at htake hq ⊢
            rw [file_insert, if_pos rfl, take_writeAt_piece htake hq]
          · rw [file_insert, if_pos rfl]
            exact hlength
          · refine hfull.imp id (honly.writer ?_)
            intro loc left' hi
            rw [hget] at hi
            cases hi
            exact hown rfl
      · exact absurd ⟨i, _, _, hget⟩ (hnone written.flatten.length)
    · refine h.keep honly rfl rfl ?_ hg ?_ ?_ ?_ ?_
      · rw [file_insert, if_neg hgg]
      all_goals simp [hget, hgg]

theorem CommitState.Ok.sync (h : s.Ok dataDir) {loc : Location} {position : Nat}
    (hget : s.tasks.get i = some (.writing groupId loc position [])) :
    CommitState.Ok dataDir { s with tasks := s.tasks.insert i (.synced groupId) } := by
  have honly := OnlyTask.insert (i := i) s (.synced groupId) s.offsets s.order s.files
  obtain ⟨-, -, written, hlines, hposition⟩ := h.tasks i _ hget
  refine ⟨h.order, h.keepTasks honly rfl rfl ?_, ?_⟩
  · intro task htask
    rw [Table.get_insert_self] at htask
    cases htask
    exact trivial
  · intro g hg
    refine h.keep honly rfl rfl rfl hg (by simp [hget]) (by simp [hget]) ?_ (by simp)
    intro loc' q left hi
    rw [hget] at hi
    cases hi
    rw [hlines, List.append_nil, hposition]

theorem CommitState.Ok.release (h : s.Ok dataDir) (hget : s.tasks.get i = some (.synced groupId)) :
    CommitState.Ok dataDir { s with tasks := s.tasks.remove i } := by
  have honly : OnlyTask i s { s with tasks := s.tasks.remove i } := fun _ hk => Table.get_remove_ne hk
  refine ⟨h.order, h.keepTasks honly rfl rfl ?_, ?_⟩
  · intro task htask
    rw [Table.get_remove_self] at htask
    cases htask
  · intro g hg
    refine h.keep honly rfl rfl rfl hg ?_ ?_ ?_ ?_ <;> simp [hget]

/-- The groups of the calls are file names. -/
def CommitEvent.Plain : CommitEvent ι → Prop
  | .call _ c => PlainGroup c.key.groupId
  | _ => True

instance : DecidablePred (CommitEvent.Plain (ι := ι)) := fun e => by
  cases e <;> unfold CommitEvent.Plain <;> infer_instance

/-- The event is no lost write. -/
def CommitEvent.Stores : CommitEvent ι → Prop
  | .lose .. => False
  | _ => True

instance : DecidablePred (CommitEvent.Stores (ι := ι)) := fun e => by
  cases e <;> unfold CommitEvent.Stores <;> infer_instance

/-- **One step** that loses no write keeps the invariant. -/
theorem CommitState.Ok.step {e : CommitEvent ι} (h : s.Ok dataDir) (hplain : e.Plain)
    (hstores : e.Stores) (hstep : s.next os dataDir e = some t) : t.Ok dataDir := by
  cases commitStep_iff.1 hstep with
  | call hget => exact h.call hplain hget
  | insert hget hreader horder => exact h.insert hget hreader horder
  | lock hget => exact h.lock hget
  | create hget hloc =>
    obtain rfl := create_plain (not_mem_fileName (h.tasks _ _ hget).1) hloc
    exact h.create hget
  | write hget => exact h.write hget
  | lose => exact hstores.elim
  | sync hget => exact h.sync hget
  | release hget => exact h.release hget

/-- No call is under way. -/
def CommitState.Quiet (s : CommitState ι) : Prop := ∀ i, s.tasks.get i = none

instance (s : CommitState ι) : Decidable s.Quiet := decidable_of_iff _ Table.isEmpty_iff

omit [DecidableEq ι] in
theorem CommitState.Quiet.noWriter (h : s.Quiet) (g : String) (q : Nat) : ¬ s.Writer g q := by
  rintro ⟨k, loc, left, hk⟩
  rw [h k] at hk
  cases hk

omit [DecidableEq ι] in
theorem CommitState.Quiet.ok (h : s.Quiet) (horder : s.offsets.Order s.order)
    (hwritten : ∀ g, PlainGroup g → s.Written dataDir g) : s.Ok dataDir := by
  refine ⟨horder, ?_, fun g hg => Or.inr (Or.inr ⟨hwritten g hg, h.noWriter g⟩)⟩
  intro k task hk
  rw [h k] at hk
  cases hk

omit [DecidableEq ι] in
theorem CommitState.Ok.written (h : s.Ok dataDir) (hquiet : s.Quiet) {g : String}
    (hg : PlainGroup g) : s.Written dataDir g := by
  rcases h.groups g hg with ⟨k, hk⟩ | hr | ⟨hw, -⟩
  · simp [hquiet k] at hk
  · exact Refilled.written hr h.order (hquiet.noWriter g)
  · exact hw

end Step

/-- **Concurrent commits reach the disk.**  From files that agree with the map, whatever the calls do
to the files of their groups at the same time: once all have returned `Ok`, and none of them lost a
write, the file of every group has one line for each entry of the group, and nothing else. -/
theorem commits_reach_disk {os : Os} {dataDir : Location} {s : CommitState ι}
    {tr : List (CommitEvent ι × CommitState ι)} (hquiet : s.Quiet)
    (horder : s.offsets.Order s.order) (hagree : ∀ g, PlainGroup g → s.Written dataDir g)
    (hrun : Run (Steps (CommitState.next os dataDir)) s tr)
    (hplain : EachStep (fun _ e _ => e.Plain) s tr)
    (hstores : EachStep (fun _ e _ => e.Stores) s tr) (hend : (last s tr).Quiet) :
    ∀ g, PlainGroup g → (last s tr).Written dataDir g := by
  intro g hg
  have hok : Throughout (CommitState.Ok dataDir) s tr :=
    throughout_of_invariant (fun _ _ _ h hstep hp => h.step hp.1 hp.2 hstep)
      (hquiet.ok horder hagree) hrun (hplain.and hstores)
  exact hok.at_last.written hend hg

/-- A manager without offsets, and no files. -/
def CommitState.init : CommitState ι := ⟨Table.empty, [], Table.empty, Table.empty⟩

theorem five_fits : 5 < 2 ^ 64 := by decide

theorem seven_fits : 7 < 2 ^ 64 := by decide

/-- Two commits of one group: the second truncates the file between the two lines of the first, which
leaves a hole in front of its second line. -/
def overlappingCommits : List (CommitEvent Nat) :=
  [.call 0 (ordersCommit "a" "orders" 5 five_fits), .call 1 (ordersCommit "a" "" 7 seven_fits),
    .insert 0 [⟨"a", "orders", 0⟩], .insert 1 [⟨"a", "", 0⟩, ⟨"a", "orders", 0⟩], .lock 0, .lock 1,
    .create 0, .write 0, .create 1, .write 0, .sync 0, .write 1, .release 0, .write 1, .sync 1,
    .release 1]

theorem init_written (g : String) : CommitState.init.Written (ι := Nat) [['d'], ['o']] g :=
  ⟨[], ⟨List.nodup_nil, by simp [CommitState.init, groupOffsets, Table.mem_keys_iff]⟩, rfl⟩

theorem commits_reach_disk_overlapping :
    ∃ tr, trace (CommitState.next plainOs [['d'], ['o']]) .init overlappingCommits = some tr ∧
      ∀ g, PlainGroup g → (last .init tr).Written [['d'], ['o']] g := by
  obtain ⟨tr, htr, hquiet⟩ := Option.map_eq_some_iff.1 (show (trace (CommitState.next plainOs
    [['d'], ['o']]) CommitState.init overlappingCommits).map (fun tr =>
      decide (last .init tr).Quiet) = some true by decide +kernel)
  have hevents : ∀ e ∈ overlappingCommits, e.Plain ∧ e.Stores := by decide +kernel
  exact ⟨tr, htr, commits_reach_disk (by decide) ⟨List.nodup_nil, by simp [CommitState.init]⟩
    (fun g _ => init_written g) (run_of_trace htr)
    (eachStep_of_trace htr fun e he _ _ => (hevents e he).1)
    (eachStep_of_trace htr fun e he _ _ => (hevents e he).2) (of_decide_eq_true hquiet)⟩

/-- A commit whose only line is lost. -/
def lostCommit : List (CommitEvent Nat) :=
  [.call 0 (ordersCommit "a" "orders" 5 five_fits), .insert 0 [⟨"a", "orders", 0⟩], .lock 0,
    .create 0, .lose 0 0, .sync 0, .release 0]

/-- All calls have returned `Ok`, and the file is empty. -/
theorem commit_lost : ¬ ∀ tr : List (CommitEvent Nat × CommitState Nat),
    Run (Steps (CommitState.next plainOs [['d'], ['o']])) .init tr →
    EachStep (fun _ e _ => e.Plain) .init tr → (last .init tr).Quiet →
    ∀ g, PlainGroup g → (last .init tr).Written [['d'], ['o']] g := by
  intro h
  obtain ⟨tr, htr, hends⟩ := Option.map_eq_some_iff.1 (show (trace (CommitState.next plainOs
    [['d'], ['o']]) CommitState.init lostCommit).map (fun tr =>
      (decide (last .init tr).Quiet, (last .init tr).file [['d'], ['o']] "a",
        (last .init tr).offsets.get ⟨"a", "orders", 0⟩)) = some (true, [], some 5) by
    decide +kernel)
  simp only [Prod.mk.injEq, decide_eq_true_eq] at hends
  obtain ⟨hquiet, hfile, hmemory⟩ := hends
  have hplain : ∀ e ∈ lostCommit, e.Plain := by decide +kernel
  obtain ⟨keys, hkeys, hwritten⟩ := h tr (run_of_trace htr)
    (eachStep_of_trace htr fun e he _ _ => hplain e he) hquiet "a" (by decide)
  have hmem : (⟨"a", "orders", 0⟩ : OffsetKey) ∈ keys :=
    (mem_groupOffsets hkeys _).2 ⟨rfl, 5, hmemory⟩
  have hnewline : '\n' ∈ groupText (last .init tr).offsets keys :=
    List.mem_flatMap.2 ⟨_, hmem, by simp [entryLine, hmemory]⟩
  obtain ⟨c, cs, hcs⟩ := List.exists_cons_of_ne_nil (List.ne_nil_of_mem hnewline)
  have hlength : 0 < (utf8 (c :: cs)).length := length_utf8_pos
  rw [← hcs, ← hwritten, hfile] at hlength
  exact absurd hlength (Nat.lt_irrefl 0)

end Gaffa
