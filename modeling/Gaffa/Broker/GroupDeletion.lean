import Gaffa.Broker.CommitTasks

/-!
# The deletion of a group among its commits

`delete_group` of `broker/src/offset_manager.rs` takes the entries of the group out of the map, and
without a lock looks for the file of the group and removes it.  Calls of `commit_offset` go on in
between; one that has opened the file writes on into a file that has no name any more.

* `view_step`: the calls are as if such a file had been synced when it was removed.
* `deletion_agrees_iff`: once all calls have returned, and no write was lost, a load finds the offsets of
  the group that are in memory, exactly when the removal of the file takes no line of an entry with it
  for good.
-/

set_option autoImplicit false

namespace Gaffa

open ByteString FileSystem Text Transition OffsetManager

variable {ι : Type}

/-- Where the call of `delete_group` is. -/
inductive DeleteTask where
  /-- Before the write lock. -/
  | retaining
  /-- Before `exists`. -/
  | checking
  /-- Before `remove_file`. -/
  | unlinking
  | returned
  deriving DecidableEq, Repr

/-- The calls of `commit_offset`, those whose file has been removed, and the call of
`delete_group`. -/
structure DeletionState (ι : Type) where
  commits : CommitState ι
  detached : Finset ι
  deletion : DeleteTask

/-- A step of a commit, or of the deletion; the map may have another order when entries are gone. -/
inductive DeletionEvent (ι : Type) where
  | commit (e : CommitEvent ι)
  | retain (order : List OffsetKey)
  | check
  | unlink

/-- The call has a handle of the file at the location. -/
def CommitTask.hasHandle (loc : Location) : CommitTask → Bool
  | .writing _ loc' _ _ => loc' == loc
  | _ => false

/-- The entries of the other groups. -/
def otherOffsets (groupId : String) (offsets : Table OffsetKey Nat) : Table OffsetKey Nat :=
  offsets.retain fun key _ => key.groupId ≠ groupId

variable [DecidableEq ι]

/-- A step of a run in which no call returns `Err`.  What is written to a file without a name is not
found by anyone else. -/
def DeletionState.next (os : Os) (dataDir : Location) (groupId : String) (s : DeletionState ι) :
    DeletionEvent ι → Option (DeletionState ι)
  | .commit (.write i) => (s.commits.next os dataDir (.write i)).map fun t => { s with
      commits := if i ∈ s.detached then { t with files := s.commits.files } else t }
  | .commit (.lose i stored) => (s.commits.next os dataDir (.lose i stored)).map fun t => { s with
      commits := if i ∈ s.detached then { t with files := s.commits.files } else t }
  | .commit (.release i) => (s.commits.next os dataDir (.release i)).map fun t =>
      { s with commits := t, detached := s.detached.erase i }
  | .commit e => (s.commits.next os dataDir e).map fun t => { s with commits := t }
  | .retain order =>
    if s.deletion = .retaining ∧ s.commits.NoReader ∧
        (otherOffsets groupId s.commits.offsets).Order order then
      some { s with
        commits := { s.commits with
          offsets := otherOffsets groupId s.commits.offsets
          order := order }
        deletion := .checking }
    else none
  | .check =>
    if s.deletion = .checking then some { s with
      deletion := if os.isDir (dataDir ++ [fileName groupId]) = true ∨
          (s.commits.files.get (dataDir ++ [fileName groupId])).isSome = true then .unlinking
        else .returned }
    else none
  | .unlink =>
    if s.deletion = .unlinking ∧
        (s.commits.files.get (dataDir ++ [fileName groupId])).isSome = true then
      some ⟨{ s.commits with files := s.commits.files.remove (dataDir ++ [fileName groupId]) },
        s.detached ∪ s.commits.tasks.keys.filter (fun i =>
          (s.commits.tasks.get i).any (CommitTask.hasHandle (dataDir ++ [fileName groupId]))),
        .returned⟩
    else none

/-! ## Files without a name -/

/-- A call that writes counts as one that has synced. -/
def CommitTask.settled : CommitTask → CommitTask
  | .writing groupId _ _ _ => .synced groupId
  | t => t

/-- The calls, those that write a file without a name taken as synced. -/
def DeletionState.view (s : DeletionState ι) : CommitState ι :=
  { s.commits with
    tasks := s.commits.tasks.mapValues fun i t => if i ∈ s.detached then t.settled else t }

/-- The calls whose file has been removed have opened it. -/
def DeletionState.Opened (s : DeletionState ι) : Prop :=
  ∀ i ∈ s.detached, ∃ groupId, s.commits.tasks.get i = some (.synced groupId) ∨
    ∃ loc position left, s.commits.tasks.get i = some (.writing groupId loc position left)

section View

variable {os : Os} {dataDir : Location} {groupId : String} {s t : DeletionState ι} {i : ι}

theorem get_view (s : DeletionState ι) (i : ι) : s.view.tasks.get i =
    (s.commits.tasks.get i).map fun t => if i ∈ s.detached then t.settled else t :=
  Table.get_mapValues ..

theorem get_view_of_not_mem (h : i ∉ s.detached) :
    s.view.tasks.get i = s.commits.tasks.get i := by
  rw [get_view, funext fun t => if_neg h]
  exact Option.map_id'

theorem reads_settled (t : CommitTask) : t.settled.reads = t.reads := by
  cases t <;> rfl

theorem noReader_view (h : s.commits.NoReader) : s.view.NoReader := by
  intro i t ht
  rw [get_view] at ht
  obtain ⟨task, htask, rfl⟩ := Option.map_eq_some_iff.1 ht
  split
  · rw [reads_settled]
    exact h i task htask
  · exact h i task htask

/-- A call whose file has not been removed takes its step in the view. -/
theorem view_insert (h : i ∉ s.detached) (task : CommitTask) (offsets : Table OffsetKey Nat)
    (order : List OffsetKey) (files : Files) :
    DeletionState.view ⟨⟨offsets, order, files, s.commits.tasks.insert i task⟩, s.detached,
      s.deletion⟩ = ⟨offsets, order, files, s.view.tasks.insert i task⟩ := by
  unfold DeletionState.view
  rw [Table.mapValues_insert, if_neg h]

/-- A write to a file without a name, or its sync, is not seen. -/
theorem view_insert_detached (hi : i ∈ s.detached) {old : CommitTask} (task : CommitTask)
    (hget : s.commits.tasks.get i = some old) (hsame : task.settled = old.settled) :
    DeletionState.view ⟨{ s.commits with tasks := s.commits.tasks.insert i task }, s.detached,
      s.deletion⟩ = s.view := by
  unfold DeletionState.view
  simp only [CommitState.mk.injEq, true_and]
  ext1 k
  rw [Table.mapValues_insert, Table.get_insert]
  split
  · rename_i hk
    rw [hk, Table.get_mapValues, hget, Option.map_some, if_pos hi, hsame]
  · rfl

omit [DecidableEq ι] in
theorem DeletionState.Opened.not_mem (h : s.Opened) {task : Option CommitTask}
    (hget : s.commits.tasks.get i = task) (hsynced : ∀ g, task ≠ some (.synced g))
    (hwriting : ∀ g loc q left, task ≠ some (.writing g loc q left)) : i ∉ s.detached := by
  intro hi
  obtain ⟨g, hg | ⟨loc, q, left, hg⟩⟩ := h i hi
  · exact hsynced g (hget.symm.trans hg)
  · exact hwriting g loc q left (hget.symm.trans hg)

/-- A call moves on, and its file is not removed. -/
theorem opened_insert (h : s.Opened) (hi : i ∉ s.detached) (task : CommitTask)
    (offsets : Table OffsetKey Nat) (order : List OffsetKey) (files : Files) :
    DeletionState.Opened ⟨⟨offsets, order, files, s.commits.tasks.insert i task⟩, s.detached,
      s.deletion⟩ := by
  intro k hk
  have hne : k ≠ i := fun heq => hi (heq ▸ hk)
  obtain ⟨g, hg⟩ := h k hk
  refine ⟨g, ?_⟩
  simp only [Table.get_insert_ne _ hne]
  exact hg

/-- A call that goes on with a file without a name still has it open. -/
theorem opened_detached (h : s.Opened) {task : CommitTask} (htask : task = .synced groupId ∨
    ∃ loc position left, task = .writing groupId loc position left)
    (offsets : Table OffsetKey Nat) (order : List OffsetKey) (files : Files) :
    DeletionState.Opened ⟨⟨offsets, order, files, s.commits.tasks.insert i task⟩, s.detached,
      s.deletion⟩ := by
  intro k hk
  simp only [Table.get_insert]
  split
  · obtain rfl | ⟨loc, position, left, rfl⟩ := htask
    · exact ⟨groupId, Or.inl rfl⟩
    · exact ⟨groupId, Or.inr ⟨loc, position, left, rfl⟩⟩
  · exact h k hk

/-- **A step of a commit** is one in the view, or changes nothing there. -/
theorem view_step {e : CommitEvent ι} (h : s.Opened)
    (hstep : s.next os dataDir groupId (.commit e) = some t) :
    t.Opened ∧ t.deletion = s.deletion ∧
      (t.view = s.view ∨ s.view.next os dataDir e = some t.view) := by
  cases e with
  | call i c =>
    obtain ⟨t', ht', rfl⟩ := Option.map_eq_some_iff.1 hstep
    cases commitStep_iff.1 ht' with | call hget
    have hi := h.not_mem hget (fun _ => by simp) fun _ _ _ _ => by simp
    refine ⟨opened_insert h hi _ _ _ _, rfl, Or.inr (commitStep_iff.2 ?_)⟩
    rw [view_insert hi]
    exact .call ((get_view_of_not_mem hi).trans hget)
  | insert i order =>
    obtain ⟨t', ht', rfl⟩ := Option.map_eq_some_iff.1 hstep
    cases commitStep_iff.1 ht' with | insert hget hreader horder
    have hi := h.not_mem hget (fun _ => by simp) fun _ _ _ _ => by simp
    refine ⟨opened_insert h hi _ _ _ _, rfl, Or.inr (commitStep_iff.2 ?_)⟩
    rw [view_insert hi]
    exact .insert ((get_view_of_not_mem hi).trans hget) (noReader_view hreader) horder
  | lock i =>
    obtain ⟨t', ht', rfl⟩ := Option.map_eq_some_iff.1 hstep
    cases commitStep_iff.1 ht' with | lock hget
    have hi := h.not_mem hget (fun _ => by simp) fun _ _ _ _ => by simp
    refine ⟨opened_insert h hi _ _ _ _, rfl, Or.inr (commitStep_iff.2 ?_)⟩
    rw [view_insert hi]
    exact .lock ((get_view_of_not_mem hi).trans hget)
  | create i =>
    obtain ⟨t', ht', rfl⟩ := Option.map_eq_some_iff.1 hstep
    cases commitStep_iff.1 ht' with | create hget hloc
    have hi := h.not_mem hget (fun _ => by simp) fun _ _ _ _ => by simp
    refine ⟨opened_insert h hi _ _ _ _, rfl, Or.inr (commitStep_iff.2 ?_)⟩
    rw [view_insert hi]
    exact .create ((get_view_of_not_mem hi).trans hget) hloc
  | write i =>
    obtain ⟨t', ht', rfl⟩ := Option.map_eq_some_iff.1 hstep
    cases commitStep_iff.1 ht' with | write hget
    by_cases hi : i ∈ s.detached
    · rw [if_pos hi]
      exact ⟨opened_detached h (Or.inr ⟨_, _, _, rfl⟩) _ _ _, rfl,
        Or.inl (view_insert_detached hi _ hget rfl)⟩
    · rw [if_neg hi]
      refine ⟨opened_insert h hi _ _ _ _, rfl, Or.inr (commitStep_iff.2 ?_)⟩
      rw [view_insert hi]
      exact .write ((get_view_of_not_mem hi).trans hget)
  | lose i stored =>
    obtain ⟨t', ht', rfl⟩ := Option.map_eq_some_iff.1 hstep
    cases commitStep_iff.1 ht' with | lose hget hlast hlost
    by_cases hi : i ∈ s.detached
    · rw [if_pos hi]
      exact ⟨opened_detached h (Or.inr ⟨_, _, _, rfl⟩) _ _ _, rfl,
        Or.inl (view_insert_detached hi _ hget rfl)⟩
    · rw [if_neg hi]
      refine ⟨opened_insert h hi _ _ _ _, rfl, Or.inr (commitStep_iff.2 ?_)⟩
      rw [view_insert hi]
      exact .lose ((get_view_of_not_mem hi).trans hget) hlast hlost
  | sync i =>
    obtain ⟨t', ht', rfl⟩ := Option.map_eq_some_iff.1 hstep
    cases commitStep_iff.1 ht' with | sync hget
    refine ⟨opened_detached h (Or.inl rfl) _ _ _, rfl, ?_⟩
    by_cases hi : i ∈ s.detached
    · exact Or.inl (view_insert_detached hi _ hget rfl)
    · refine Or.inr (commitStep_iff.2 ?_)
      rw [view_insert hi]
      exact .sync ((get_view_of_not_mem hi).trans hget)
  | release i =>
    obtain ⟨t', ht', rfl⟩ := Option.map_eq_some_iff.1 hstep
    cases commitStep_iff.1 ht' with | @release i g hget
    have hview : s.view.tasks.get i = some (.synced g) := by
      rw [get_view, hget, Option.map_some]
      split <;> rfl
    refine ⟨?_, rfl, Or.inr ((commitStep_iff.2 (.release hview)).trans (congrArg some ?_))⟩
    · intro k hk
      obtain ⟨hne, hk⟩ := Finset.mem_erase.1 hk
      obtain ⟨g', hg'⟩ := h k hk
      refine ⟨g', ?_⟩
      simp only [Table.get_remove_ne hne]
      exact hg'
    · unfold DeletionState.view
      simp only [CommitState.mk.injEq, true_and]
      ext1 k
      rw [Table.get_remove, Table.get_mapValues, Table.get_mapValues, Table.get_remove]
      by_cases hk : k = i
      · rw [if_pos hk, if_pos hk]
        rfl
      · rw [if_neg hk, if_neg hk]
        simp only [Finset.mem_erase, ne_eq, hk, not_false_eq_true, true_and]

end View

/-! ## One group apart -/

/-- What an invariant of the commits says of one group. -/
def CommitState.GroupOk (dataDir : Location) (s : CommitState ι) (groupId : String) : Prop :=
  s.Pending groupId ∨ s.Refilled dataDir groupId ∨
    (s.Written dataDir groupId ∧ ∀ q, ¬ s.Writer groupId q)

/-- The invariant of the commits for all groups but one. -/
structure CommitState.OkBut (dataDir : Location) (groupId : String) (s : CommitState ι) : Prop where
  order : s.offsets.Order s.order
  tasks : ∀ i t, s.tasks.get i = some t → s.TaskOk dataDir t
  groups : ∀ g, PlainGroup g → g ≠ groupId → s.GroupOk dataDir g

/-- The call has still to create the file of the group, or to write it. -/
def CommitTask.Busy (groupId : String) : CommitTask → Prop
  | .locking g => g = groupId
  | .creating g _ => g = groupId
  | .writing g _ _ _ => g = groupId
  | _ => False

/-- No call has still to create the file of the group, or to write it. -/
def CommitState.Idle (groupId : String) (s : CommitState ι) : Prop :=
  ∀ i t, s.tasks.get i = some t → ¬ t.Busy groupId

/-- The map has no entry of the group. -/
def CommitState.Empty (groupId : String) (s : CommitState ι) : Prop :=
  ∀ key : OffsetKey, key.groupId = groupId → s.offsets.get key = none

/-- The file of the group has another content. -/
def CommitState.withFile (dataDir : Location) (groupId : String) (bytes : Bytes)
    (s : CommitState ι) : CommitState ι :=
  { s with files := s.files.insert (dataDir ++ [fileName groupId]) bytes }

section Apart

variable {os : Os} {dataDir : Location} {groupId g : String} {s t : CommitState ι} {i : ι}

omit [DecidableEq ι] in
/-- Only the file of a group matters for the group. -/
theorem CommitState.GroupOk.congr {files : Files} (h : s.GroupOk dataDir g)
    (hfile : CommitState.file dataDir { s with files := files } g = s.file dataDir g) :
    CommitState.GroupOk dataDir { s with files := files } g := by
  rcases h with hp | ⟨q, hq, htake, hlen, hfull⟩ | ⟨⟨keys, hkeys, hbytes⟩, hnone⟩
  · exact Or.inl hp
  · exact Or.inr (Or.inl ⟨q, hq, by rw [hfile]; exact htake, by rw [hfile]; exact hlen, hfull⟩)
  · exact Or.inr (Or.inr ⟨⟨keys, hkeys, by rw [hfile]; exact hbytes⟩, hnone⟩)

omit [DecidableEq ι] in
/-- The lines that a call writes are those of the map, whatever the files hold. -/
theorem CommitState.TaskOk.congr {files : Files} {tasks : Table ι CommitTask} {task : CommitTask}
    (h : s.TaskOk dataDir task) :
    CommitState.TaskOk dataDir { s with files := files, tasks := tasks } task := by
  cases task with
  | inserting key offset => exact h
  | locking g => exact h
  | creating g left => exact h
  | writing g loc position left => exact h
  | synced g => exact trivial

omit [DecidableEq ι] in
theorem CommitState.Ok.but (h : s.Ok dataDir) (groupId : String) : s.OkBut dataDir groupId :=
  ⟨h.order, h.tasks, fun g hg _ => h.groups g hg⟩

omit [DecidableEq ι] in
theorem CommitState.OkBut.ok (h : s.OkBut dataDir groupId)
    (hgroup : s.GroupOk dataDir groupId) : s.Ok dataDir := by
  refine ⟨h.order, h.tasks, fun g hg => ?_⟩
  by_cases hne : g = groupId
  · rw [hne]
    exact hgroup
  · exact h.groups g hg hne

omit [DecidableEq ι] in
theorem CommitState.Idle.noWriter (h : s.Idle groupId) (q : Nat) : ¬ s.Writer groupId q := by
  rintro ⟨i, loc, left, hi⟩
  exact h i _ hi rfl

omit [DecidableEq ι] in
theorem CommitState.Idle.not_pending (h : s.Idle groupId) : ¬ s.Pending groupId := by
  rintro ⟨i, hi | ⟨left, hi⟩⟩
  · exact h i _ hi rfl
  · exact h i _ hi rfl

omit [DecidableEq ι] in
theorem CommitState.Quiet.idle (h : s.Quiet) (groupId : String) : s.Idle groupId := by
  intro i t ht
  rw [h i] at ht
  cases ht

omit [DecidableEq ι] in
/-- A group without entries and without a file. -/
theorem CommitState.Empty.written (h : s.Empty groupId) (hfile : s.file dataDir groupId = []) :
    s.Written dataDir groupId := by
  refine ⟨[], ⟨List.nodup_nil, fun key => iff_of_false List.not_mem_nil ?_⟩, by rw [hfile]; rfl⟩
  rw [Table.not_mem_keys_iff, groupOffsets, Table.get_retain]
  by_cases hkey : key.groupId = groupId
  · rw [h key hkey]
    rfl
  · cases s.offsets.get key with
    | none => rfl
    | some offset => exact Option.filter_some_neg (by simpa using hkey)

omit [DecidableEq ι] in
/-- With a file that is written whole the group is like the others. -/
theorem CommitState.OkBut.withFile (h : s.OkBut dataDir groupId) (hidle : s.Idle groupId) :
    (s.withFile dataDir groupId (utf8 (groupText s.offsets (s.groupKeys groupId)))).Ok dataDir := by
  have hfile : ∀ g, (s.withFile dataDir groupId
      (utf8 (groupText s.offsets (s.groupKeys groupId)))).file dataDir g =
        if groupId = g then utf8 (groupText s.offsets (s.groupKeys groupId))
          else s.file dataDir g := fun g => file_insert groupId g
  refine ⟨h.order, fun i t ht => (h.tasks i t ht).congr, fun g hg => ?_⟩
  by_cases hne : g = groupId
  · subst hne
    refine Or.inr (Or.inr ⟨⟨s.groupKeys g, groupKeys_order h.order g, ?_⟩, hidle.noWriter⟩)
    rw [hfile, if_pos rfl]
    rfl
  · exact (h.groups g hg hne).congr ((hfile g).trans (if_neg (Ne.symm hne)))

omit [DecidableEq ι] in
theorem CommitState.Ok.of_withFile {bytes : Bytes}
    (h : (s.withFile dataDir groupId bytes).Ok dataDir) : s.OkBut dataDir groupId := by
  refine ⟨h.order, fun i t ht => (h.tasks i t ht).congr, fun g hg hne => ?_⟩
  have hgroup : (s.withFile dataDir groupId bytes).GroupOk dataDir g := h.groups g hg
  exact hgroup.congr ((file_insert groupId g).trans (if_neg (Ne.symm hne))).symm

/-- **A step** is the same when the file of a group has another content. -/
theorem next_withFile {e : CommitEvent ι} (groupId : String) (bytes : Bytes) (hstores : e.Stores)
    (hstep : s.next os dataDir e = some t) : ∃ bytes',
      (s.withFile dataDir groupId bytes).next os dataDir e =
        some (t.withFile dataDir groupId bytes') := by
  cases commitStep_iff.1 hstep with
  | call hget => exact ⟨bytes, commitStep_iff.2 (.call hget)⟩
  | insert hget hreader horder => exact ⟨bytes, commitStep_iff.2 (.insert hget hreader horder)⟩
  | lock hget => exact ⟨bytes, commitStep_iff.2 (.lock hget)⟩
  | @create i g left loc hget hloc =>
    simp only [CommitState.next, CommitState.withFile, hget, hloc, Option.some.injEq,
      CommitState.mk.injEq, true_and, and_true]
    by_cases heq : dataDir ++ [fileName groupId] = loc
    · exact ⟨[], by rw [heq, Table.insert_insert, Table.insert_insert]⟩
    · exact ⟨bytes, Table.insert_comm _ heq bytes []⟩
  | @write i g loc position line left hget =>
    simp only [CommitState.next, CommitState.withFile, hget, Option.some.injEq,
      CommitState.mk.injEq, true_and, and_true]
    by_cases heq : dataDir ++ [fileName groupId] = loc
    · exact ⟨_, by rw [heq, Table.insert_insert, Table.insert_insert]⟩
    · refine ⟨bytes, ?_⟩
      rw [Table.get_insert_ne _ (Ne.symm heq)]
      exact Table.insert_comm _ heq bytes _
  | lose => exact hstores.elim
  | sync hget => exact ⟨bytes, commitStep_iff.2 (.sync hget)⟩
  | release hget => exact ⟨bytes, commitStep_iff.2 (.release hget)⟩

theorem CommitState.OkBut.step {e : CommitEvent ι} (h : s.OkBut dataDir groupId)
    (hidle : s.Idle groupId) (hplain : e.Plain) (hstores : e.Stores)
    (hstep : s.next os dataDir e = some t) : t.OkBut dataDir groupId := by
  obtain ⟨bytes, hbytes⟩ := next_withFile groupId
    (utf8 (groupText s.offsets (s.groupKeys groupId))) hstores hstep
  exact ((h.withFile hidle).step hplain hstores hbytes).of_withFile

/-- Tasks that are not busy with a group stay so when one of them goes on with something else. -/
theorem CommitState.Idle.insert (h : s.Idle groupId) (task : CommitTask)
    (htask : ¬ task.Busy groupId) (offsets : Table OffsetKey Nat) (order : List OffsetKey)
    (files : Files) :
    CommitState.Idle groupId ⟨offsets, order, files, s.tasks.insert i task⟩ := by
  intro k t hk
  rcases Table.get_insert_cases hk with ⟨-, rfl⟩ | ⟨-, hk⟩
  · exact htask
  · exact h k t hk

/-- **While no call is busy with a group**, a step inserts an entry of the group or leaves the group
alone. -/
theorem CommitState.Idle.step {e : CommitEvent ι} (h : s.OkBut dataDir groupId)
    (hidle : s.Idle groupId) (hstores : e.Stores) (hstep : s.next os dataDir e = some t) :
    t.Pending groupId ∨ (t.Idle groupId ∧ t.file dataDir groupId = s.file dataDir groupId ∧
      ∀ key : OffsetKey, key.groupId = groupId → t.offsets.get key = s.offsets.get key) := by
  cases commitStep_iff.1 hstep with
  | @call i c hget =>
    exact Or.inr ⟨hidle.insert (.inserting c.key c.offset) id _ _ _, rfl, fun _ _ => rfl⟩
  | @insert i key offset order hget hreader horder =>
    by_cases hkey : key.groupId = groupId
    · exact Or.inl ⟨i, Or.inl (by rw [← hkey]; exact Table.get_insert_self ..)⟩
    · refine Or.inr ⟨hidle.insert (.locking key.groupId) hkey _ _ _, rfl, fun key' hkey' => ?_⟩
      exact Table.get_insert_ne offset (fun heq => hkey (heq ▸ hkey'))
  | @lock i g hget =>
    have hne : ¬ g = groupId := hidle i _ hget
    exact Or.inr ⟨hidle.insert (.creating g _) hne _ _ _, rfl, fun _ _ => rfl⟩
  | @create i g left loc hget hloc =>
    have hne : ¬ g = groupId := hidle i _ hget
    obtain rfl := create_plain (not_mem_fileName (h.tasks i _ hget).1) hloc
    refine Or.inr ⟨hidle.insert (.writing g _ _ left) hne _ _ _, ?_, fun _ _ => rfl⟩
    exact (file_insert g groupId).trans (if_neg hne)
  | @write i g loc position line left hget =>
    have hne : ¬ g = groupId := hidle i _ hget
    obtain rfl := (h.tasks i _ hget).2.1
    refine Or.inr ⟨hidle.insert (.writing g _ _ left) hne _ _ _, ?_, fun _ _ => rfl⟩
    exact (file_insert g groupId).trans (if_neg hne)
  | lose => exact hstores.elim
  | @sync i g loc position hget =>
    exact Or.inr ⟨hidle.insert (.synced g) id _ _ _, rfl, fun _ _ => rfl⟩
  | release hget =>
    refine Or.inr ⟨fun k task hk => ?_, rfl, fun _ _ => rfl⟩
    exact hidle k task (Table.get_remove_cases hk).2

end Apart

/-! ## The steps of the deletion -/

/-- The entries are gone, the file is still there. -/
def CommitState.Emptied (dataDir : Location) (groupId : String) (s : CommitState ι) : Prop :=
  s.OkBut dataDir groupId ∧ s.Idle groupId ∧ s.Empty groupId

/-- There are entries, and no file. -/
def CommitState.Lost (dataDir : Location) (groupId : String) (s : CommitState ι) : Prop :=
  s.OkBut dataDir groupId ∧ s.Idle groupId ∧ s.file dataDir groupId = [] ∧ ¬ s.Empty groupId

/-- What is known of the calls, by how far the deletion is. -/
def DeletionState.Phase (dataDir : Location) (groupId : String) (s : DeletionState ι) : Prop :=
  match s.deletion with
  | .retaining => s.view.Ok dataDir
  | .returned => s.view.Ok dataDir ∨ s.view.Lost dataDir groupId
  | _ => s.view.Ok dataDir ∨ s.view.Emptied dataDir groupId

section Deletion

variable {os : Os} {dataDir : Location} {groupId g : String} {s t : CommitState ι} {i : ι}

omit [DecidableEq ι] in
theorem CommitState.OkBut.ok_of_pending (h : s.OkBut dataDir groupId) (hp : s.Pending groupId) :
    s.Ok dataDir :=
  h.ok (Or.inl hp)

omit [DecidableEq ι] in
theorem CommitState.OkBut.ok_of_empty (h : s.OkBut dataDir groupId) (hidle : s.Idle groupId)
    (hempty : s.Empty groupId) (hfile : s.file dataDir groupId = []) : s.Ok dataDir :=
  h.ok (Or.inr (Or.inr ⟨hempty.written hfile, hidle.noWriter⟩))

omit [DecidableEq ι] in
theorem idle_of_noReader (h : s.NoReader) (hp : ¬ s.Pending groupId) : s.Idle groupId := by
  intro i task hi hbusy
  have hreads := h i task hi
  cases task with
  | inserting key offset => exact hbusy
  | locking g =>
    obtain rfl : g = groupId := hbusy
    exact hp ⟨i, Or.inl hi⟩
  | creating g left => cases hreads
  | writing g loc position left => cases hreads
  | synced g => exact hbusy

omit [DecidableEq ι] in
theorem groupOffsets_otherOffsets {offsets : Table OffsetKey Nat} (h : g ≠ groupId) :
    groupOffsets g (otherOffsets groupId offsets) = groupOffsets g offsets := by
  ext key
  simp only [groupOffsets, otherOffsets, Table.get_retain]
  cases offsets.get key with
  | none => rfl
  | some offset =>
    by_cases hkey : key.groupId = g
    · simp [hkey, h]
    · by_cases hother : key.groupId = groupId
      · simp [hother, h.symm]
      · simp [hkey, hother]

omit [DecidableEq ι] in
theorem empty_otherOffsets {order : List OffsetKey} {files : Files} {tasks : Table ι CommitTask} :
    CommitState.Empty groupId ⟨otherOffsets groupId s.offsets, order, files, tasks⟩ := by
  intro key hkey
  simp only [otherOffsets, Table.get_retain]
  cases s.offsets.get key with
  | none => rfl
  | some offset => simp [hkey]

omit [DecidableEq ι] in
/-- **The entries are removed** under the write lock. -/
theorem CommitState.Ok.retain (h : s.Ok dataDir) (hreader : s.NoReader) {order : List OffsetKey}
    (horder : (otherOffsets groupId s.offsets).Order order) :
    CommitState.OkBut dataDir groupId
      { s with offsets := otherOffsets groupId s.offsets, order := order } := by
  have hnone : ∀ g q, ¬ s.Writer g q := by
    rintro g q ⟨k, loc, left, hk⟩
    exact absurd (hreader k _ hk) (by simp [CommitTask.reads])
  refine ⟨horder, ?_, fun g hg hne => ?_⟩
  · intro i task hi
    have htask := h.tasks i task hi
    have hreads := hreader i task hi
    cases task with
    | inserting key offset => exact htask
    | locking g => exact htask
    | creating g left => cases hreads
    | writing g loc position left => cases hreads
    | synced g => exact trivial
  · have hkeep : s.Written dataDir g → CommitState.Written dataDir
        { s with offsets := otherOffsets groupId s.offsets, order := order } g := by
      rintro ⟨keys, hkeys, hbytes⟩
      refine ⟨keys, by rw [groupOffsets_otherOffsets hne]; exact hkeys, ?_⟩
      rw [groupText_congr fun k hk => ?_]
      · exact hbytes
      · have hgroup := ((mem_groupOffsets hkeys k).1 hk).1
        simp only [otherOffsets, Table.get_retain]
        cases s.offsets.get k with
        | none => rfl
        | some offset => simp [hgroup, hne]
    rcases h.groups g hg with hp | hr | ⟨hw, -⟩
    · exact Or.inl hp
    · exact Or.inr (Or.inr ⟨hkeep (Refilled.written hr h.order (hnone g)), hnone g⟩)
    · exact Or.inr (Or.inr ⟨hkeep hw, hnone g⟩)

/-- The file is removed, and those who have it open write a file without a name. -/
def CommitState.unlink (loc : Location) (s : CommitState ι) : CommitState ι :=
  { s with
    files := s.files.remove loc
    tasks := s.tasks.mapValues fun _ t => if t.hasHandle loc = true then t.settled else t }

omit [DecidableEq ι] in
theorem get_unlink (loc : Location) (s : CommitState ι) (i : ι) :
    (s.unlink loc).tasks.get i =
      (s.tasks.get i).map fun t => if t.hasHandle loc = true then t.settled else t :=
  Table.get_mapValues ..

omit [DecidableEq ι] in
theorem hasHandle_settled (t : CommitTask) (loc : Location) : t.settled.hasHandle loc = false := by
  cases t <;> rfl

omit [DecidableEq ι] in
/-- Who has still to create the file does so after the removal. -/
theorem CommitState.Pending.unlink {g : String} (h : s.Pending g) (loc : Location) :
    (s.unlink loc).Pending g := by
  obtain ⟨k, hk | ⟨left, hk⟩⟩ := h
  · exact ⟨k, Or.inl (by rw [get_unlink, hk]; rfl)⟩
  · exact ⟨k, Or.inr ⟨left, by rw [get_unlink, hk]; rfl⟩⟩

omit [DecidableEq ι] in
/-- Who writes after the removal wrote before. -/
theorem writer_of_unlink {loc : Location} {g : String} {q : Nat} (h : (s.unlink loc).Writer g q) :
    s.Writer g q := by
  obtain ⟨k, loc', left, hk⟩ := h
  rw [get_unlink] at hk
  obtain ⟨task, htask, heq⟩ := Option.map_eq_some_iff.1 hk
  split at heq
  · cases task <;> cases heq
  · exact ⟨k, loc', left, heq ▸ htask⟩

omit [DecidableEq ι] in
/-- The removal settles the calls that have the file open, and leaves the others as they are. -/
theorem taskOk_unlink {loc : Location} (htasks : ∀ i t, s.tasks.get i = some t → s.TaskOk dataDir t)
    {i : ι} {task : CommitTask} (hi : (s.unlink loc).tasks.get i = some task) :
    (s.unlink loc).TaskOk dataDir task := by
  rw [get_unlink] at hi
  obtain ⟨old, hold, rfl⟩ := Option.map_eq_some_iff.1 hi
  have hok := htasks i old hold
  split
  · cases old with
    | writing g loc position left => exact trivial
    | inserting key offset => exact hok
    | locking g => exact hok
    | creating g left => exact hok
    | synced g => exact trivial
  · exact hok.congr

omit [DecidableEq ι] in
/-- The file of another group has what it had, and those who wrote it go on. -/
theorem CommitState.OkBut.groupOk_unlink (h : s.OkBut dataDir groupId) {g : String}
    (hg : PlainGroup g) (hne : g ≠ groupId) :
    (s.unlink (dataDir ++ [fileName groupId])).GroupOk dataDir g := by
  have hloc : dataDir ++ [fileName g] ≠ dataDir ++ [fileName groupId] := by
    intro heq
    have hname := List.append_cancel_left heq
    exact hne (fileName_inj (List.cons.inj hname).1)
  have hfile : (s.unlink (dataDir ++ [fileName groupId])).file dataDir g = s.file dataDir g :=
    congrArg (fun bytes => Option.getD bytes []) (Table.get_remove_ne hloc)
  rcases h.groups g hg hne with hpending | ⟨q, hq, htake, hlen, hfull⟩ |
    ⟨⟨keys, hkeys, hbytes⟩, hnone⟩
  · exact Or.inl (hpending.unlink _)
  · refine Or.inr (Or.inl ⟨q, hq, by rw [hfile]; exact htake, by rw [hfile]; exact hlen, ?_⟩)
    refine hfull.imp id ?_
    rintro ⟨k, loc, left, hk⟩
    obtain rfl := (h.tasks k _ hk).2.1
    refine ⟨k, dataDir ++ [fileName g], left, ?_⟩
    rw [get_unlink, hk, Option.map_some, if_neg]
    exact fun heq => hloc (eq_of_beq heq)
  · exact Or.inr (Or.inr ⟨⟨keys, hkeys, by rw [hfile]; exact hbytes⟩,
      fun q hq => hnone q (writer_of_unlink hq)⟩)

omit [DecidableEq ι] in
/-- Only a call that has still to create the file can be busy with the group. -/
theorem CommitState.OkBut.idle_unlink (h : s.OkBut dataDir groupId)
    (hp : ¬ (s.unlink (dataDir ++ [fileName groupId])).Pending groupId) :
    (s.unlink (dataDir ++ [fileName groupId])).Idle groupId := by
  intro k task hk hbusy
  cases task with
  | inserting key offset => exact hbusy
  | locking g =>
    obtain rfl : g = groupId := hbusy
    exact hp ⟨k, Or.inl hk⟩
  | creating g left =>
    obtain rfl : g = groupId := hbusy
    exact hp ⟨k, Or.inr ⟨left, hk⟩⟩
  | writing g loc position left =>
    obtain rfl : g = groupId := hbusy
    rw [get_unlink] at hk
    obtain ⟨old, hold, heq⟩ := Option.map_eq_some_iff.1 hk
    split at heq
    · cases old <;> cases heq
    · rename_i hnot
      subst heq
      obtain rfl := (h.tasks k _ hold).2.1
      exact hnot (beq_self_eq_true _)
  | synced g => exact hbusy

omit [DecidableEq ι] in
/-- **The removal of the file** leaves the other groups alone, and only a call that has still to
create the file can be busy with the group. -/
theorem CommitState.OkBut.unlink (h : s.OkBut dataDir groupId) :
    (s.unlink (dataDir ++ [fileName groupId])).OkBut dataDir groupId ∧
      (s.unlink (dataDir ++ [fileName groupId])).file dataDir groupId = [] ∧
      (¬ (s.unlink (dataDir ++ [fileName groupId])).Pending groupId →
        (s.unlink (dataDir ++ [fileName groupId])).Idle groupId) := by
  refine ⟨⟨h.order, fun i task hi => ?_, fun g hg hne => ?_⟩, ?_, ?_⟩
  · exact taskOk_unlink h.tasks hi
  · exact h.groupOk_unlink hg hne
  · exact congrArg (fun bytes => Option.getD bytes []) (Table.get_remove_self ..)
  · exact h.idle_unlink

/-- The removal in the view. -/
theorem view_unlink (s : DeletionState ι) (loc : Location) (deletion : DeleteTask) :
    DeletionState.view ⟨{ s.commits with files := s.commits.files.remove loc },
      s.detached ∪ s.commits.tasks.keys.filter (fun i =>
        (s.commits.tasks.get i).any (CommitTask.hasHandle loc)), deletion⟩ = s.view.unlink loc := by
  unfold DeletionState.view CommitState.unlink
  simp only [CommitState.mk.injEq, true_and]
  ext1 i
  rw [Table.get_mapValues, Table.get_mapValues, Table.get_mapValues]
  cases hget : s.commits.tasks.get i with
  | none => rfl
  | some task =>
    have hmem : i ∈ s.commits.tasks.keys := Table.mem_keys_iff.2 ⟨task, hget⟩
    simp only [Option.map_some, Finset.mem_union, Finset.mem_filter, hmem, hget, true_and,
      Option.any_some]
    by_cases hi : i ∈ s.detached
    · rw [if_pos (Or.inl hi), if_pos hi, hasHandle_settled, if_neg Bool.false_ne_true]
    · rw [if_neg hi]
      simp only [hi, false_or]

end Deletion

/-! ## Runs -/

/-- The call writes the file of the group. -/
def CommitTask.writes (groupId : String) : CommitTask → Bool
  | .writing g _ _ _ => g == groupId
  | _ => false

/-- A call on the group creates its file. -/
def CreatesFile (groupId : String) : DeletionEvent ι × DeletionState ι → Prop
  | (.commit (.create i), t) => (t.commits.tasks.get i).any (CommitTask.writes groupId) = true
  | _ => False

omit [DecidableEq ι] in
theorem createsFile_iff {groupId : String} {e : DeletionEvent ι} {t : DeletionState ι} :
    CreatesFile groupId (e, t) ↔ ∃ i loc position left, e = .commit (.create i) ∧
      t.commits.tasks.get i = some (.writing groupId loc position left) := by
  unfold CreatesFile
  split
  · rename_i i t' heq
    cases heq
    rw [Option.any_eq_true]
    constructor
    · rintro ⟨task, hi, htask⟩
      cases task with
      | writing g loc position left =>
        obtain rfl : g = groupId := eq_of_beq htask
        exact ⟨i, loc, position, left, rfl, hi⟩
      | _ => cases htask
    · rintro ⟨k, loc, position, left, hk, hi⟩
      cases hk
      exact ⟨_, hi, beq_self_eq_true _⟩
  · rename_i hne
    exact iff_of_false id fun ⟨i, _, _, _, he, _⟩ => hne i t (by rw [he])

/-- When the file of the group is removed, the map has no entry of the group, or a call creates the
file again. -/
def KeepsEntries (groupId : String) :
    DeletionState ι → List (DeletionEvent ι × DeletionState ι) → Prop
  | _, [] => True
  | s, (e, t) :: tr =>
    (e = .unlink → s.commits.Empty groupId ∨ ∃ x ∈ tr, CreatesFile groupId x) ∧
      KeepsEntries groupId t tr

omit [DecidableEq ι] in
theorem empty_iff {s : CommitState ι} {groupId : String} :
    s.Empty groupId ↔ ∀ key ∈ s.offsets.keys, key.groupId ≠ groupId := by
  constructor
  · intro h key hkey hgroup
    exact Table.not_mem_keys_iff.2 (h key hgroup) hkey
  · intro h key hgroup
    exact Table.not_mem_keys_iff.1 fun hkey => h key hkey hgroup

instance (s : CommitState ι) (groupId : String) : Decidable (s.Empty groupId) :=
  decidable_of_iff _ empty_iff.symm

instance (groupId : String) : DecidablePred (CreatesFile (ι := ι) groupId) := fun x => by
  unfold CreatesFile
  split <;> infer_instance

/-- The condition can be computed. -/
def keepsEntriesDecidable (groupId : String) : ∀ (s : DeletionState ι)
    (tr : List (DeletionEvent ι × DeletionState ι)), Decidable (KeepsEntries groupId s tr)
  | _, [] => isTrue trivial
  | s, (e, t) :: tr =>
    have := keepsEntriesDecidable groupId t tr
    match e with
    | .unlink => decidable_of_iff ((s.commits.Empty groupId ∨ ∃ x ∈ tr, CreatesFile groupId x) ∧
        KeepsEntries groupId t tr) (and_congr_left' (imp_iff_right rfl).symm)
    | .commit _ => decidable_of_iff (KeepsEntries groupId t tr)
        (and_iff_right fun habsurd => by cases habsurd).symm
    | .retain _ => decidable_of_iff (KeepsEntries groupId t tr)
        (and_iff_right fun habsurd => by cases habsurd).symm
    | .check => decidable_of_iff (KeepsEntries groupId t tr)
        (and_iff_right fun habsurd => by cases habsurd).symm

instance (groupId : String) (s : DeletionState ι) (tr : List (DeletionEvent ι × DeletionState ι)) :
    Decidable (KeepsEntries groupId s tr) :=
  keepsEntriesDecidable groupId s tr

/-- The names of the commits are plain. -/
def DeletionEvent.Plain : DeletionEvent ι → Prop
  | .commit (.call _ c) => c.Plain
  | _ => True

instance : DecidablePred (DeletionEvent.Plain (ι := ι)) := fun e => by
  unfold DeletionEvent.Plain
  split <;> infer_instance

/-- The commits lose no write. -/
def DeletionEvent.Stores : DeletionEvent ι → Prop
  | .commit e => e.Stores
  | _ => True

instance : DecidablePred (DeletionEvent.Stores (ι := ι)) := fun e => by
  cases e <;> unfold DeletionEvent.Stores <;> infer_instance

/-- An entry that can be written and read back. -/
def OffsetKey.Storable (key : OffsetKey) (offset : Nat) : Prop :=
  PlainTopic key.topic ∧ key.partition < 2 ^ 32 ∧ offset < 2 ^ 64

/-- What can be loaded: the entries of the map and of the calls can be written, and a file of offsets
that is of no group is text. -/
structure CommitState.Tidy (dataDir : Location) (s : CommitState ι) : Prop where
  writable : Writable s.offsets
  inserting : ∀ i key offset, s.tasks.get i = some (.inserting key offset) → key.Storable offset
  strangers : ∀ name bytes stem, s.files.get (dataDir ++ [name]) = some bytes →
    splitExtension name = (stem, some extension) → '/' ∈ name →
    ∃ contents, readToString bytes = some contents

/-- The invariant of a run. -/
structure DeletionState.Sound (dataDir : Location) (groupId : String) (s : DeletionState ι) :
    Prop where
  opened : s.Opened
  tidy : s.view.Tidy dataDir
  phase : s.Phase dataDir groupId

section Run

variable {os : Os} {dataDir : Location} {groupId : String} {s t : DeletionState ι}
  {e : DeletionEvent ι}

omit [DecidableEq ι] in
/-- The calls that insert stay the same when another one moves on to something else. -/
theorem inserting_insert [DecidableEq ι] {tasks : Table ι CommitTask} {i : ι} {task : CommitTask}
    (h : ∀ i key offset, tasks.get i = some (.inserting key offset) → key.Storable offset)
    (htask : ∀ key offset, task = .inserting key offset → key.Storable offset) :
    ∀ k key offset, (tasks.insert i task).get k = some (.inserting key offset) →
      key.Storable offset := by
  intro k key offset hk
  rcases Table.get_insert_cases hk with ⟨-, heq⟩ | ⟨-, hk⟩
  · exact htask key offset heq.symm
  · exact h k key offset hk

omit [DecidableEq ι] in
/-- A file of a group has no slash in its name. -/
theorem strangers_insert {files : Files} {bytes : Bytes} {g : String} (hg : PlainGroup g)
    (h : ∀ name bytes stem, files.get (dataDir ++ [name]) = some bytes →
      splitExtension name = (stem, some extension) → '/' ∈ name →
      ∃ contents, readToString bytes = some contents) :
    ∀ name bytes' stem, (files.insert (dataDir ++ [fileName g]) bytes).get (dataDir ++ [name]) =
      some bytes' → splitExtension name = (stem, some extension) → '/' ∈ name →
      ∃ contents, readToString bytes' = some contents := by
  intro name bytes' stem hget hsplit hslash
  rcases Table.get_insert_cases hget with ⟨heq, -⟩ | ⟨-, hget⟩
  · obtain rfl : name = fileName g := (List.cons.inj (List.append_cancel_left heq)).1
    exact absurd hslash (not_mem_fileName hg)
  · exact h name bytes' stem hget hsplit hslash

theorem CommitState.Tidy.step {s t : CommitState ι} {e : CommitEvent ι} (h : s.Tidy dataDir)
    (htasks : ∀ i task, s.tasks.get i = some task → s.TaskOk dataDir task)
    (hplain : (DeletionEvent.commit e).Plain) (hstores : e.Stores)
    (hstep : s.next os dataDir e = some t) : t.Tidy dataDir := by
  cases commitStep_iff.1 hstep with
  | @call i c hget =>
    refine ⟨h.writable, inserting_insert h.inserting ?_, h.strangers⟩
    rintro key offset ⟨⟩
    exact ⟨hplain.2, c.partition_lt, c.offset_lt⟩
  | @insert i key offset order hget hreader horder =>
    refine ⟨?_, inserting_insert h.inserting fun _ _ habsurd => (by cases habsurd), h.strangers⟩
    intro key' offset' hget'
    rcases Table.get_insert_cases hget' with ⟨rfl, rfl⟩ | ⟨-, hget'⟩
    · exact h.inserting i _ _ hget
    · exact h.writable key' offset' hget'
  | lock hget =>
    exact ⟨h.writable, inserting_insert h.inserting fun _ _ habsurd => (by cases habsurd),
      h.strangers⟩
  | create hget hloc =>
    have hg := (htasks _ _ hget).1
    obtain rfl := create_plain (not_mem_fileName hg) hloc
    exact ⟨h.writable, inserting_insert h.inserting fun _ _ habsurd => (by cases habsurd),
      strangers_insert hg h.strangers⟩
  | write hget =>
    obtain ⟨hg, rfl, -⟩ := htasks _ _ hget
    exact ⟨h.writable, inserting_insert h.inserting fun _ _ habsurd => (by cases habsurd),
      strangers_insert hg h.strangers⟩
  | lose => exact hstores.elim
  | sync hget =>
    exact ⟨h.writable, inserting_insert h.inserting fun _ _ habsurd => (by cases habsurd),
      h.strangers⟩
  | release hget =>
    exact ⟨h.writable, fun k key offset hk => h.inserting k key offset
      (Table.get_remove_cases hk).2, h.strangers⟩

/-- **What a step is**, in the view. -/
theorem deletion_cases (hopened : s.Opened) (hstep : s.next os dataDir groupId e = some t) :
    t.Opened ∧
    ((∃ c, e = .commit c ∧ t.deletion = s.deletion ∧
        (t.view = s.view ∨ s.view.next os dataDir c = some t.view)) ∨
      (∃ order, e = .retain order ∧ s.deletion = .retaining ∧ t.deletion = .checking ∧
        s.view.NoReader ∧ (otherOffsets groupId s.view.offsets).Order order ∧
        t.view = { s.view with offsets := otherOffsets groupId s.view.offsets, order := order }) ∨
      (e = .check ∧ s.deletion = .checking ∧ t.view = s.view ∧ (t.deletion = .unlinking ∨
        t.deletion = .returned ∧ s.view.file dataDir groupId = [])) ∨
      (e = .unlink ∧ s.deletion = .unlinking ∧ t.deletion = .returned ∧
        t.view = s.view.unlink (dataDir ++ [fileName groupId]))) := by
  cases e with
  | commit c =>
    obtain ⟨hopened', hdeletion, hview⟩ := view_step hopened hstep
    exact ⟨hopened', Or.inl ⟨c, rfl, hdeletion, hview⟩⟩
  | retain order =>
    obtain ⟨⟨hdeletion, hreader, horder⟩, hstep⟩ := Option.ite_none_right_eq_some.1 hstep
    cases hstep
    exact ⟨hopened, Or.inr (Or.inl ⟨order, rfl, hdeletion, rfl, noReader_view hreader, horder,
      rfl⟩)⟩
  | check =>
    obtain ⟨hdeletion, hstep⟩ := Option.ite_none_right_eq_some.1 hstep
    cases hstep
    refine ⟨hopened, Or.inr (Or.inr (Or.inl ⟨rfl, hdeletion, rfl, ?_⟩))⟩
    by_cases hexists : os.isDir (dataDir ++ [fileName groupId]) = true ∨
        (s.commits.files.get (dataDir ++ [fileName groupId])).isSome = true
    · exact Or.inl (if_pos hexists)
    · refine Or.inr ⟨if_neg hexists, ?_⟩
      have hnone := Option.not_isSome_iff_eq_none.1 (not_or.1 hexists).2
      exact congrArg (fun bytes => Option.getD bytes []) hnone
  | unlink =>
    obtain ⟨⟨hdeletion, -⟩, hstep⟩ := Option.ite_none_right_eq_some.1 hstep
    cases hstep
    refine ⟨?_, Or.inr (Or.inr (Or.inr ⟨rfl, hdeletion, rfl, view_unlink s _ _⟩))⟩
    intro i hi
    rcases Finset.mem_union.1 hi with hi | hi
    · exact hopened i hi
    · obtain ⟨-, hhandle⟩ := Finset.mem_filter.1 hi
      obtain ⟨task, htask, hhandle⟩ := (Option.any_eq_true _ _).1 hhandle
      cases task with
      | writing g loc position left => exact ⟨g, Or.inr ⟨loc, position, left, htask⟩⟩
      | _ => cases hhandle

omit [DecidableEq ι] in
theorem CommitState.Tidy.retain {s : CommitState ι} (h : s.Tidy dataDir) (order : List OffsetKey) :
    CommitState.Tidy dataDir
      { s with offsets := otherOffsets groupId s.offsets, order := order } := by
  refine ⟨fun key offset hget => ?_, h.inserting, h.strangers⟩
  have hget : (otherOffsets groupId s.offsets).get key = some offset := hget
  rw [otherOffsets, Table.get_retain, Option.filter_eq_some_iff] at hget
  exact h.writable key offset hget.1

omit [DecidableEq ι] in
theorem CommitState.Tidy.unlink {s : CommitState ι} (h : s.Tidy dataDir) (loc : Location) :
    (s.unlink loc).Tidy dataDir := by
  refine ⟨h.writable, fun i key offset hi => ?_, fun name bytes stem hget => ?_⟩
  · rw [get_unlink] at hi
    obtain ⟨task, htask, heq⟩ := Option.map_eq_some_iff.1 hi
    split at heq
    · cases task with
      | inserting key' offset' => exact h.inserting i key offset (heq ▸ htask)
      | _ => cases heq
    · exact h.inserting i key offset (heq ▸ htask)
  · exact h.strangers name bytes stem (Table.get_remove_cases hget).2

omit [DecidableEq ι] in
theorem DeletionState.Phase.okBut [DecidableEq ι] (h : s.Phase dataDir groupId) :
    s.view.OkBut dataDir groupId := by
  unfold DeletionState.Phase at h
  split at h
  · exact h.but groupId
  · exact h.elim (fun hok => hok.but groupId) And.left
  · exact h.elim (fun hok => hok.but groupId) And.left

/-- A group that nobody was busy with, after a step. -/
theorem idle_step {s t : CommitState ι} {c : CommitEvent ι} (hbut : s.OkBut dataDir groupId)
    (hidle : s.Idle groupId) (hplain : c.Plain) (hstores : c.Stores)
    (hstep : s.next os dataDir c = some t) : (t.Pending groupId ∧ t.Ok dataDir) ∨ (t.OkBut dataDir groupId ∧ t.Idle groupId ∧
      t.file dataDir groupId = s.file dataDir groupId ∧ (t.Empty groupId ↔ s.Empty groupId)) := by
  have hnext := hbut.step hidle hplain hstores hstep
  rcases hidle.step hbut hstores hstep with hp | ⟨hidle', hfile, hmemory⟩
  · exact Or.inl ⟨hp, hnext.ok_of_pending hp⟩
  · refine Or.inr ⟨hnext, hidle', hfile, forall_congr' fun key => imp_congr_right fun hkey => ?_⟩
    rw [hmemory key hkey]

/-- **One step** keeps what is known of the calls. -/
theorem DeletionState.Phase.step (h : s.Phase dataDir groupId) (hopened : s.Opened)
    (hplain : e.Plain) (hstores : e.Stores) (hstep : s.next os dataDir groupId e = some t) :
    t.Phase dataDir groupId := by
  have hbut := h.okBut
  obtain ⟨-, ⟨c, rfl, hdeletion, hview⟩ | ⟨order, rfl, hs, ht, hreader, horder, hview⟩ |
    ⟨rfl, hs, hview, ht⟩ | ⟨rfl, hs, ht, hview⟩⟩ := deletion_cases hopened hstep
  · have hc : c.Plain := by
      cases c with
      | call i c => exact hplain.1
      | _ => exact trivial
    unfold DeletionState.Phase at h ⊢
    rw [hdeletion]
    rcases hview with hview | hnext
    · rw [hview]
      exact h
    · split at h
      · exact h.step hc hstores hnext
      · rcases h with hok | ⟨hbut, hidle, hfile, hne⟩
        · exact Or.inl (hok.step hc hstores hnext)
        · exact (idle_step hbut hidle hc hstores hnext).imp And.right fun ⟨hbut', hidle', hfile', hiff⟩ =>
            ⟨hbut', hidle', hfile'.trans hfile, fun hempty => hne (hiff.1 hempty)⟩
      · rcases h with hok | ⟨hbut, hidle, hempty⟩
        · exact Or.inl (hok.step hc hstores hnext)
        · exact (idle_step hbut hidle hc hstores hnext).imp And.right fun ⟨hbut', hidle', _, hiff⟩ =>
            ⟨hbut', hidle', hiff.2 hempty⟩
  · unfold DeletionState.Phase at h ⊢
    rw [hs] at h
    rw [ht, hview]
    have hbut' := h.retain hreader horder
    by_cases hp : s.view.Pending groupId
    · exact Or.inl (hbut'.ok_of_pending hp)
    · exact Or.inr ⟨hbut', idle_of_noReader hreader hp, empty_otherOffsets⟩
  · unfold DeletionState.Phase at h ⊢
    rw [hs] at h
    rcases ht with ht | ⟨ht, hfile⟩
    · rw [ht, hview]
      exact h
    · rw [ht, hview]
      rcases h with hok | ⟨hbut, hidle, hempty⟩
      · exact Or.inl hok
      · exact Or.inl (hbut.ok_of_empty hidle hempty hfile)
  · unfold DeletionState.Phase
    rw [ht, hview]
    obtain ⟨hbut', hfile, hidle⟩ := hbut.unlink
    by_cases hp : (s.view.unlink (dataDir ++ [fileName groupId])).Pending groupId
    · exact Or.inl (hbut'.ok_of_pending hp)
    · by_cases hempty : (s.view.unlink (dataDir ++ [fileName groupId])).Empty groupId
      · exact Or.inl (hbut'.ok_of_empty (hidle hp) hempty hfile)
      · exact Or.inr ⟨hbut', hidle hp, hfile, hempty⟩

/-- **One step** keeps the invariant. -/
theorem DeletionState.Sound.step (h : s.Sound dataDir groupId) (hplain : e.Plain)
    (hstores : e.Stores) (hstep : s.next os dataDir groupId e = some t) : t.Sound dataDir groupId := by
  have hphase := h.phase.step h.opened hplain hstores hstep
  obtain ⟨hopened, hcases⟩ := deletion_cases h.opened hstep
  refine ⟨hopened, ?_, hphase⟩
  rcases hcases with ⟨c, rfl, -, hview | hnext⟩ | ⟨order, rfl, -, -, -, -, hview⟩ |
    ⟨rfl, -, hview, -⟩ | ⟨rfl, -, -, hview⟩
  · rw [hview]
    exact h.tidy
  · exact h.tidy.step h.phase.okBut.tasks hplain hstores hnext
  · rw [hview]
    exact h.tidy.retain order
  · rw [hview]
    exact h.tidy
  · rw [hview]
    exact h.tidy.unlink _

/-- A call that has still to create the file creates it, or has it still before it. -/
theorem pending_step {s t : CommitState ι} {c : CommitEvent ι} (hp : s.Pending groupId)
    (hstep : s.next os dataDir c = some t) : t.Pending groupId ∨
      ∃ i loc left, c = .create i ∧ t.tasks.get i = some (.writing groupId loc 0 left) := by
  cases commitStep_iff.1 hstep with
  | call hget =>
    exact Or.inl ((OnlyTask.insert s _ _ _ _).pending (by simp [hget]) (by simp [hget]) hp)
  | insert hget hreader horder =>
    exact Or.inl ((OnlyTask.insert s _ _ _ _).pending (by simp [hget]) (by simp [hget]) hp)
  | @lock i g hget =>
    by_cases hg : g = groupId
    · subst hg
      exact Or.inl ⟨i, Or.inr ⟨_, Table.get_insert_self ..⟩⟩
    · exact Or.inl ((OnlyTask.insert s _ _ _ _).pending (by simp [hget, hg]) (by simp [hget]) hp)
  | @create i g left loc hget hloc =>
    by_cases hg : g = groupId
    · subst hg
      exact Or.inr ⟨i, loc, left, rfl, Table.get_insert_self ..⟩
    · exact Or.inl ((OnlyTask.insert s _ _ _ _).pending (by simp [hget]) (by simp [hget, hg]) hp)
  | write hget =>
    exact Or.inl ((OnlyTask.insert s _ _ _ _).pending (by simp [hget]) (by simp [hget]) hp)
  | lose hget hlast hlost =>
    exact Or.inl ((OnlyTask.insert s _ _ _ _).pending (by simp [hget]) (by simp [hget]) hp)
  | sync hget =>
    exact Or.inl ((OnlyTask.insert s _ _ _ _).pending (by simp [hget]) (by simp [hget]) hp)
  | @release i g hget =>
    have honly : OnlyTask i s { s with tasks := s.tasks.remove i } :=
      fun _ hk => Table.get_remove_ne hk
    exact Or.inl (honly.pending (by simp [hget]) (by simp [hget]) hp)

/-- A call that writes in the view writes a file that has its name. -/
theorem writing_of_view {i : ι} {g : String} {loc : Location} {position : Nat} {left : List Bytes}
    (h : s.view.tasks.get i = some (.writing g loc position left)) :
    s.commits.tasks.get i = some (.writing g loc position left) := by
  rw [get_view] at h
  obtain ⟨task, htask, heq⟩ := Option.map_eq_some_iff.1 h
  split at heq
  · cases task <;> cases heq
  · exact heq ▸ htask

/-- **A call that has still to create the file** goes on to do so. -/
theorem pending_next (hopened : s.Opened) (hp : s.view.Pending groupId)
    (hstep : s.next os dataDir groupId e = some t) :
    t.view.Pending groupId ∨ CreatesFile groupId (e, t) := by
  obtain ⟨-, ⟨c, rfl, -, hview | hnext⟩ | ⟨order, rfl, -, -, -, -, hview⟩ | ⟨rfl, -, hview, -⟩ |
    ⟨rfl, -, -, hview⟩⟩ := deletion_cases hopened hstep
  · exact Or.inl (hview ▸ hp)
  · rcases pending_step hp hnext with hp' | ⟨i, loc, left, rfl, hi⟩
    · exact Or.inl hp'
    · exact Or.inr (createsFile_iff.2 ⟨i, loc, 0, left, rfl, writing_of_view hi⟩)
  · rw [hview]
    exact Or.inl hp
  · exact Or.inl (hview ▸ hp)
  · rw [hview]
    exact Or.inl (hp.unlink _)

/-- Who creates the file had that still before it. -/
theorem pending_of_creates (hstep : s.next os dataDir groupId e = some t)
    (hcreates : CreatesFile groupId (e, t)) : s.view.Pending groupId := by
  obtain ⟨i, loc, position, left, rfl, hi⟩ := createsFile_iff.1 hcreates
  obtain ⟨t', ht', rfl⟩ := Option.map_eq_some_iff.1 hstep
  cases commitStep_iff.1 ht' with | create hget hloc
  rw [Table.get_insert_self] at hi
  cases hi
  refine ⟨i, Or.inr ⟨left, ?_⟩⟩
  rw [get_view, hget, Option.map_some]
  split <;> rfl

omit [DecidableEq ι] in
/-- A file without lines is that of a group without entries. -/
theorem CommitState.Written.empty {s : CommitState ι} (h : s.Written dataDir groupId)
    (hfile : s.file dataDir groupId = []) : s.Empty groupId := by
  obtain ⟨keys, hkeys, hbytes⟩ := h
  intro key hkey
  by_contra hsome
  obtain ⟨offset, hget⟩ := Option.ne_none_iff_exists'.1 hsome
  have hmem : key ∈ keys := (mem_groupOffsets hkeys key).2 ⟨hkey, offset, hget⟩
  have hempty : groupText s.offsets keys = [] := by
    have hread := readToString_utf8 (groupText s.offsets keys)
    rw [← hbytes, hfile] at hread
    exact (Option.some_inj.1 hread).symm
  rw [groupText, List.flatMap_eq_nil_iff] at hempty
  have hline := hempty key hmem
  rw [entryLine, hget] at hline
  exact List.cons_ne_nil _ _ (List.append_eq_nil_iff.1 hline).2

omit [DecidableEq ι] in
/-- A group without a file has lost its entries. -/
theorem CommitState.Lost.not_ok {s : CommitState ι} (hg : PlainGroup groupId)
    (h : s.Lost dataDir groupId) : ¬ s.Ok dataDir := by
  obtain ⟨-, hidle, hfile, hne⟩ := h
  intro hok
  apply hne
  rcases hok.groups groupId hg with hp | hr | ⟨hw, -⟩
  · exact absurd hp hidle.not_pending
  · exact (Refilled.written hr hok.order hidle.noWriter).empty hfile
  · exact hw.empty hfile

/-- When no call is under way, all files that are written have their names. -/
theorem view_of_quiet (h : s.commits.Quiet) : s.view = s.commits := by
  have htasks : (s.commits.tasks.mapValues fun i t => if i ∈ s.detached then t.settled else t) =
      s.commits.tasks := by
    ext1 i
    rw [Table.get_mapValues, h i]
    rfl
  rw [DeletionState.view, htasks]

/-- Before all calls return, who has still to create the file does so. -/
theorem creates_of_pending : ∀ {tr : List (DeletionEvent ι × DeletionState ι)}
    {s : DeletionState ι}, s.Opened → s.view.Pending groupId →
    Run (Steps (DeletionState.next os dataDir groupId)) s tr → (last s tr).commits.Quiet →
    ∃ x ∈ tr, CreatesFile groupId x
  | [], s, _, hp, _, hend => by
    have hquiet : s.commits.Quiet := hend
    rw [view_of_quiet hquiet] at hp
    exact absurd hp (hquiet.idle groupId).not_pending
  | (e, t) :: tr, s, hopened, hp, hrun, hend => by
    rcases pending_next hopened hp hrun.1 with hp' | hcreates
    · obtain ⟨x, hx, hcreates⟩ :=
        creates_of_pending (deletion_cases hopened hrun.1).1 hp' hrun.2 hend
      exact ⟨x, List.mem_cons_of_mem _ hx, hcreates⟩
    · exact ⟨_, List.mem_cons_self .., hcreates⟩

/-- After the deletion there are only commits. -/
theorem returned_next (hopened : s.Opened) (hdeletion : s.deletion = .returned)
    (hstep : s.next os dataDir groupId e = some t) : t.deletion = .returned ∧ ∃ c, e = .commit c ∧
      (t.view = s.view ∨ s.view.next os dataDir c = some t.view) := by
  obtain ⟨-, ⟨c, rfl, ht, hview⟩ | ⟨order, -, hs, -⟩ | ⟨-, hs, -⟩ | ⟨-, hs, -⟩⟩ :=
    deletion_cases hopened hstep
  · exact ⟨ht.trans hdeletion, c, rfl, hview⟩
  · rw [hdeletion] at hs
    cases hs
  · rw [hdeletion] at hs
    cases hs
  · rw [hdeletion] at hs
    cases hs

omit [DecidableEq ι] in
theorem plain_commit {c : CommitEvent ι} (h : (DeletionEvent.commit c).Plain) : c.Plain := by
  cases c with
  | call i c => exact h.1
  | _ => exact trivial

/-- After the deletion the commits keep to themselves. -/
theorem ok_returned : ∀ {tr : List (DeletionEvent ι × DeletionState ι)} {s : DeletionState ι},
    s.Opened → s.deletion = .returned → s.view.Ok dataDir →
    Run (Steps (DeletionState.next os dataDir groupId)) s tr →
    EachStep (fun _ e _ => e.Plain) s tr → EachStep (fun _ e _ => e.Stores) s tr →
    (last s tr).view.Ok dataDir
  | [], _, _, _, hok, _, _, _ => hok
  | (e, t) :: tr, s, hopened, hdeletion, hok, hrun, hplain, hstores => by
    obtain ⟨ht, c, rfl, hview⟩ := returned_next hopened hdeletion hrun.1
    have hok' : t.view.Ok dataDir := by
      rcases hview with hview | hnext
      · rw [hview]
        exact hok
      · exact hok.step (plain_commit hplain.1) hstores.1 hnext
    have hrest : (last t tr).view.Ok dataDir :=
      ok_returned (deletion_cases hopened hrun.1).1 ht hok' hrun.2 hplain.2 hstores.2
    exact hrest

/-- Nothing is removed after the deletion. -/
theorem keepsEntries_returned : ∀ {tr : List (DeletionEvent ι × DeletionState ι)}
    {s : DeletionState ι}, s.Opened → s.deletion = .returned →
    Run (Steps (DeletionState.next os dataDir groupId)) s tr → KeepsEntries groupId s tr
  | [], _, _, _, _ => trivial
  | (e, t) :: tr, s, hopened, hdeletion, hrun => by
    obtain ⟨ht, c, rfl, -⟩ := returned_next hopened hdeletion hrun.1
    exact ⟨fun habsurd => (by cases habsurd),
      keepsEntries_returned (deletion_cases hopened hrun.1).1 ht hrun.2⟩

/-- **Lost entries** come back exactly when some call creates the file. -/
theorem lost_run_iff (hg : PlainGroup groupId) :
    ∀ {tr : List (DeletionEvent ι × DeletionState ι)} {s : DeletionState ι},
      s.Opened → s.deletion = .returned → s.view.Lost dataDir groupId →
      Run (Steps (DeletionState.next os dataDir groupId)) s tr →
      EachStep (fun _ e _ => e.Plain) s tr → EachStep (fun _ e _ => e.Stores) s tr →
      (last s tr).commits.Quiet → ((last s tr).view.Ok dataDir ↔ ∃ x ∈ tr, CreatesFile groupId x)
  | [], _, _, _, hlost, _, _, _, _ =>
    iff_of_false (hlost.not_ok hg) fun ⟨x, hx, _⟩ => List.not_mem_nil hx
  | (e, t) :: tr, s, hopened, hdeletion, hlost, hrun, hplain, hstores, hend => by
    have hopened' := (deletion_cases hopened hrun.1).1
    have hhead : ¬ CreatesFile groupId (e, t) :=
      fun hcreates => hlost.2.1.not_pending (pending_of_creates hrun.1 hcreates)
    have htail : (∃ x ∈ (e, t) :: tr, CreatesFile groupId x) ↔ ∃ x ∈ tr, CreatesFile groupId x := by
      simp only [List.mem_cons, exists_eq_or_imp, hhead, false_or]
    rw [htail]
    obtain ⟨ht, c, rfl, hview | hnext⟩ := returned_next hopened hdeletion hrun.1
    · exact lost_run_iff hg hopened' ht (hview ▸ hlost) hrun.2 hplain.2 hstores.2 hend
    · obtain ⟨hbut, hidle, hfile, hne⟩ := hlost
      rcases idle_step hbut hidle (plain_commit hplain.1) hstores.1 hnext with
        ⟨hp, hok⟩ | ⟨hbut', hidle', hfile', hiff⟩
      · have hrest : (last t tr).view.Ok dataDir :=
          ok_returned hopened' ht hok hrun.2 hplain.2 hstores.2
        exact iff_of_true hrest (creates_of_pending hopened' hp hrun.2 hend)
      · exact lost_run_iff hg hopened' ht ⟨hbut', hidle', hfile'.trans hfile,
          fun hempty => hne (hiff.1 hempty)⟩ hrun.2 hplain.2 hstores.2 hend

/-- **Over a run** the commits are in order in the end exactly when the removal of the file keeps the
entries. -/
theorem ok_last_iff (hg : PlainGroup groupId) :
    ∀ {tr : List (DeletionEvent ι × DeletionState ι)} {s : DeletionState ι},
      s.Opened → s.Phase dataDir groupId → s.deletion ≠ .returned ∨ s.view.Ok dataDir →
      Run (Steps (DeletionState.next os dataDir groupId)) s tr →
      EachStep (fun _ e _ => e.Plain) s tr → EachStep (fun _ e _ => e.Stores) s tr →
      (last s tr).commits.Quiet → (last s tr).deletion = .returned →
      ((last s tr).view.Ok dataDir ↔ KeepsEntries groupId s tr)
  | [], _, _, _, hstart, _, _, _, _, hreturned =>
    iff_of_true (hstart.resolve_left fun hne => hne hreturned) trivial
  | (e, t) :: tr, s, hopened, hphase, hstart, hrun, hplain, hstores, hend, hreturned => by
    have hopened' := (deletion_cases hopened hrun.1).1
    have hphase' := hphase.step hopened hplain.1 hstores.1 hrun.1
    have hrest : t.deletion ≠ .returned ∨ t.view.Ok dataDir →
        ((last t tr).view.Ok dataDir ↔ KeepsEntries groupId t tr) := fun h =>
      ok_last_iff hg hopened' hphase' h hrun.2 hplain.2 hstores.2 hend hreturned
    rw [KeepsEntries]
    obtain ⟨-, ⟨c, rfl, ht, hview⟩ | ⟨order, rfl, -, ht, -⟩ | ⟨rfl, hs, hview, ht⟩ |
      ⟨rfl, hs, ht, hview⟩⟩ := deletion_cases hopened hrun.1
    · have hnext : t.deletion ≠ .returned ∨ t.view.Ok dataDir := by
        rw [ht]
        refine hstart.imp id fun hok => ?_
        rcases hview with hview | hnext
        · rw [hview]
          exact hok
        · exact hok.step (plain_commit hplain.1) hstores.1 hnext
      exact (hrest hnext).trans (and_iff_right fun habsurd => by cases habsurd).symm
    · have hnext : t.deletion ≠ .returned := by rw [ht]; exact fun habsurd => by cases habsurd
      exact (hrest (Or.inl hnext)).trans (and_iff_right fun habsurd => by cases habsurd).symm
    · have hnext : t.deletion ≠ .returned ∨ t.view.Ok dataDir := by
        rcases ht with ht | ⟨ht, hfile⟩
        · rw [ht]
          exact Or.inl fun habsurd => by cases habsurd
        · unfold DeletionState.Phase at hphase
          rw [hs] at hphase
          rw [hview]
          rcases hphase with hok | ⟨hbut, hidle, hempty⟩
          · exact Or.inr hok
          · exact Or.inr (hbut.ok_of_empty hidle hempty hfile)
      exact (hrest hnext).trans (and_iff_right fun habsurd => by cases habsurd).symm
    · rw [and_iff_left (keepsEntries_returned hopened' ht hrun.2), imp_iff_right rfl]
      obtain ⟨hbut, hfile, hidle⟩ := hphase.okBut.unlink
      rw [← hview] at hbut hfile hidle
      have hempty : t.view.Empty groupId ↔ s.commits.Empty groupId := by
        rw [hview]
        exact Iff.rfl
      rw [← hempty]
      by_cases hp : t.view.Pending groupId
      · have hok : (last t tr).view.Ok dataDir :=
          ok_returned hopened' ht (hbut.ok_of_pending hp) hrun.2 hplain.2 hstores.2
        exact iff_of_true hok (Or.inr (creates_of_pending hopened' hp hrun.2 hend))
      · by_cases hnone : t.view.Empty groupId
        · have hok : (last t tr).view.Ok dataDir := ok_returned hopened' ht
            (hbut.ok_of_empty (hidle hp) hnone hfile) hrun.2 hplain.2 hstores.2
          exact iff_of_true hok (Or.inl hnone)
        · rw [or_iff_right hnone]
          exact lost_run_iff hg hopened' ht ⟨hbut, hidle hp, hfile, hnone⟩ hrun.2 hplain.2
            hstores.2 hend

end Run

/-! ## Loading -/

/-- A load finds the offsets of the group that are in memory, however the directory is listed. -/
def CommitState.Loads (dataDir : Location) (groupId : String) (s : CommitState ι) : Prop :=
  ∀ listing, (entries s.files dataDir).Order listing → ∀ key : OffsetKey, key.groupId = groupId →
    (load s.files listing (new dataDir)).2.fetchOffset key = s.offsets.get key

section Load

variable {dataDir : Location} {groupId : String} {s : CommitState ι}

omit [DecidableEq ι] in
/-- The files of the other groups are text. -/
theorem CommitState.OkBut.othersRead (h : s.OkBut dataDir groupId) (htidy : s.Tidy dataDir)
    (hquiet : s.Quiet) : OthersRead (entries s.files dataDir) groupId := by
  intro name bytes stem hget hsplit hne
  rw [get_entries] at hget
  by_cases hslash : '/' ∈ name
  · exact htidy.strangers name bytes stem hget hsplit hslash
  · obtain ⟨rfl, hstem⟩ := eq_fileName hsplit
    have hg : PlainGroup (String.ofList stem) := by
      refine ⟨by rw [String.toList_ofList]; exact hstem, fun hmem => hslash ?_⟩
      exact List.mem_append_left _ hmem
    have hother : String.ofList stem ≠ groupId := fun heq => hne (congrArg fileName heq)
    have hbytes : s.file dataDir (String.ofList stem) = bytes := by
      rw [CommitState.file, hget]
      rfl
    obtain ⟨keys, -, hwritten⟩ : s.Written dataDir (String.ofList stem) := by
      rcases h.groups _ hg hother with hp | hr | ⟨hw, -⟩
      · exact absurd hp (hquiet.idle _).not_pending
      · exact Refilled.written hr h.order (hquiet.noWriter _)
      · exact hw
    exact ⟨_, by rw [← hbytes, hwritten, readToString_utf8]⟩

omit [DecidableEq ι] in
/-- What a load finds is what the file of the group spells. -/
theorem load_file (hg : PlainGroup groupId) (hothers : OthersRead (entries s.files dataDir) groupId)
    {listing : List Name} (hlisting : (entries s.files dataDir).Order listing) {key : OffsetKey}
    (hkey : key.groupId = groupId) :
    (load s.files listing (new dataDir)).2.fetchOffset key =
      (fileTable groupId (s.file dataDir groupId)).get key := by
  subst hkey
  rw [get_load hg.1 hothers hlisting, CommitState.file]
  cases s.files.get (dataDir ++ [fileName key.groupId]) with
  | none => rfl
  | some bytes => rfl

omit [DecidableEq ι] in
/-- **Once all calls have returned**, a load finds what is in memory unless the file is lost. -/
theorem loads_iff_ok (hg : PlainGroup groupId) (htidy : s.Tidy dataDir) (hquiet : s.Quiet)
    (hs : s.Ok dataDir ∨ s.Lost dataDir groupId) : s.Loads dataDir groupId ↔ s.Ok dataDir := by
  have hbut : s.OkBut dataDir groupId := hs.elim (fun hok => hok.but groupId) And.left
  have hothers := hbut.othersRead htidy hquiet
  constructor
  · intro hloads
    refine hs.resolve_right fun ⟨_, _, hfile, hne⟩ => hne fun key hkey => ?_
    obtain ⟨listing, hlisting⟩ := (entries s.files dataDir).exists_order
    rw [← hloads listing hlisting key hkey, load_file hg hothers hlisting hkey, hfile]
    rfl
  · intro hok listing hlisting key hkey
    obtain ⟨keys, hkeys, hbytes⟩ := hok.written hquiet hg
    rw [load_file hg hothers hlisting hkey, hbytes]
    exact fileTable_groupText htidy.writable hkeys hkey

end Load

/-- **Deletion among commits.**  From files that agree with the map, for every interleaving of the
steps of a deletion and of commits: once all calls have returned `Ok`, and none of them lost a write, a
load finds the offsets of the group that are in memory exactly when, at the removal of the file, the map
has no entry of the group or a call has still to create the file. -/
theorem deletion_agrees_iff {os : Os} {dataDir : Location} {groupId : String} {s : CommitState ι}
    {tr : List (DeletionEvent ι × DeletionState ι)} (hg : PlainGroup groupId) (hquiet : s.Quiet)
    (horder : s.offsets.Order s.order) (hagree : ∀ g, PlainGroup g → s.Written dataDir g)
    (htidy : s.Tidy dataDir)
    (hrun : Run (Steps (DeletionState.next os dataDir groupId)) ⟨s, ∅, .retaining⟩ tr)
    (hplain : EachStep (fun _ e _ => e.Plain) ⟨s, ∅, .retaining⟩ tr)
    (hstores : EachStep (fun _ e _ => e.Stores) ⟨s, ∅, .retaining⟩ tr)
    (hend : (last ⟨s, ∅, .retaining⟩ tr).commits.Quiet)
    (hreturned : (last ⟨s, ∅, .retaining⟩ tr).deletion = .returned) :
    (last ⟨s, ∅, .retaining⟩ tr).commits.Loads dataDir groupId ↔
      KeepsEntries groupId ⟨s, ∅, .retaining⟩ tr := by
  have hview : DeletionState.view ⟨s, ∅, .retaining⟩ = s := view_of_quiet hquiet
  have hstart : DeletionState.Sound dataDir groupId ⟨s, ∅, .retaining⟩ := by
    refine ⟨fun i hi => absurd hi (Finset.notMem_empty i), by rw [hview]; exact htidy, ?_⟩
    show (DeletionState.view ⟨s, ∅, .retaining⟩).Ok dataDir
    rw [hview]
    exact hquiet.ok horder hagree
  have hsound : Throughout (DeletionState.Sound dataDir groupId) ⟨s, ∅, .retaining⟩ tr :=
    throughout_of_invariant (fun _ _ _ h hstep hp => h.step hp.1 hp.2 hstep) hstart hrun
      (hplain.and hstores)
  have hlast := hsound.at_last
  have hphase := hlast.phase
  have htidy' := hlast.tidy
  unfold DeletionState.Phase at hphase
  rw [hreturned] at hphase
  rw [view_of_quiet hend] at hphase htidy'
  rw [loads_iff_ok hg htidy' hend hphase, ← view_of_quiet hend]
  exact ok_last_iff hg hstart.opened hstart.phase (Or.inl (by simp)) hrun hplain hstores hend
    hreturned

/-- A deletion from nothing, with one entry inserted before the file is looked for. -/
def deletionOfOrders (events : List (DeletionEvent Nat)) :
    Option (List (DeletionEvent Nat × DeletionState Nat)) :=
  trace (DeletionState.next plainOs [['d'], ['o']] "a") ⟨.init, ∅, .retaining⟩ events

/-- The first commit creates the file.  The second inserts its entry when the others are gone, and
creates the file again when it is removed. -/
def commitRecreates : List (DeletionEvent Nat) :=
  [.commit (.call 0 (ordersCommit "a" "orders" 5 five_fits)),
    .commit (.insert 0 [⟨"a", "orders", 0⟩]), .commit (.lock 0), .commit (.create 0),
    .commit (.write 0), .commit (.sync 0), .commit (.release 0),
    .commit (.call 1 (ordersCommit "a" "orders" 7 seven_fits)), .retain [],
    .commit (.insert 1 [⟨"a", "orders", 0⟩]), .check, .unlink, .commit (.lock 1),
    .commit (.create 1), .commit (.write 1), .commit (.sync 1), .commit (.release 1)]

theorem init_tidy : CommitState.init.Tidy (ι := Nat) [['d'], ['o']] :=
  ⟨fun _ _ hget => (by cases hget), fun _ _ _ hget => (by cases hget),
    fun _ _ _ hget => (by cases hget)⟩

theorem deletion_agrees_iff_recreated : ∃ tr, deletionOfOrders commitRecreates = some tr ∧
    (last ⟨.init, ∅, .retaining⟩ tr).commits.Loads [['d'], ['o']] "a" := by
  obtain ⟨tr, htr⟩ := Option.isSome_iff_exists.1 (show
    (deletionOfOrders commitRecreates).isSome = true by decide +kernel)
  have hfacts : ∀ tr ∈ deletionOfOrders commitRecreates,
      (last ⟨.init, ∅, .retaining⟩ tr).commits.Quiet ∧
        (last ⟨.init, ∅, .retaining⟩ tr).deletion = .returned ∧
        KeepsEntries "a" ⟨.init, ∅, .retaining⟩ tr := by decide +kernel
  obtain ⟨hquiet, hreturned, hkeeps⟩ := hfacts tr htr
  have hevents : ∀ e ∈ commitRecreates, e.Plain ∧ e.Stores := by decide +kernel
  refine ⟨tr, htr, (deletion_agrees_iff (by decide) (by decide) ⟨List.nodup_nil, by
    simp [CommitState.init]⟩ (fun g _ => init_written g) init_tidy (run_of_trace htr)
    (eachStep_of_trace htr fun e he _ _ => (hevents e he).1)
    (eachStep_of_trace htr fun e he _ _ => (hevents e he).2) hquiet hreturned).2 hkeeps⟩

/-- The whole commit comes between the two halves of the deletion. -/
def commitBetween : List (DeletionEvent Nat) :=
  [.commit (.call 0 (ordersCommit "a" "orders" 5 five_fits)), .retain [],
    .commit (.insert 0 [⟨"a", "orders", 0⟩]), .commit (.lock 0), .commit (.create 0),
    .commit (.write 0), .commit (.sync 0), .commit (.release 0), .check, .unlink]

theorem deletion_loses_commit : ¬ ∀ (tr : List (DeletionEvent Nat × DeletionState Nat)),
    Run (Steps (DeletionState.next plainOs [['d'], ['o']] "a")) ⟨.init, ∅, .retaining⟩ tr →
    EachStep (fun _ e _ => e.Plain) ⟨.init, ∅, .retaining⟩ tr →
    (last ⟨.init, ∅, .retaining⟩ tr).commits.Quiet →
    (last ⟨.init, ∅, .retaining⟩ tr).deletion = .returned →
    (last ⟨.init, ∅, .retaining⟩ tr).commits.Loads [['d'], ['o']] "a" := by
  intro h
  obtain ⟨tr, htr⟩ := Option.isSome_iff_exists.1 (show
    (deletionOfOrders commitBetween).isSome = true by decide +kernel)
  have hfacts : ∀ tr ∈ deletionOfOrders commitBetween,
      (last ⟨.init, ∅, .retaining⟩ tr).commits.Quiet ∧
        (last ⟨.init, ∅, .retaining⟩ tr).deletion = .returned ∧
        (last ⟨.init, ∅, .retaining⟩ tr).commits.files.keys = ∅ ∧
        (last ⟨.init, ∅, .retaining⟩ tr).commits.offsets.get ⟨"a", "orders", 0⟩ = some 5 := by
    decide +kernel
  obtain ⟨hquiet, hreturned, hfiles, hmemory⟩ := hfacts tr htr
  have hplain : ∀ e ∈ commitBetween, e.Plain := by decide +kernel
  have hloads := h tr (run_of_trace htr) (eachStep_of_trace htr fun e he _ _ => hplain e he) hquiet
    hreturned
  generalize (last ⟨.init, ∅, .retaining⟩ tr).commits = s at hloads hfiles hmemory
  -- there is no file any more
  have hnone : ∀ loc, s.files.get loc = none := fun loc =>
    Table.not_mem_keys_iff.1 (by rw [hfiles]; exact Finset.notMem_empty loc)
  have hothers : OthersRead (entries s.files [['d'], ['o']]) "a" := by
    intro name bytes stem hget
    rw [get_entries, hnone] at hget
    cases hget
  obtain ⟨listing, hlisting⟩ := (entries s.files [['d'], ['o']]).exists_order
  have hkey := hloads listing hlisting ⟨"a", "orders", 0⟩ rfl
  rw [hmemory, load_file (by decide) hothers hlisting rfl, CommitState.file, hnone] at hkey
  cases hkey

end Gaffa
