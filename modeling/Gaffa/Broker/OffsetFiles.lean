import Gaffa.Lib.Transition
import Gaffa.Broker.OffsetManager

/-!
# The files of offsets

Commits that return `Ok`, what they leave in the directory of the offset manager, and what a new one
loads of it.

* `next_commit`: what a commit does to the map and to the file of its group.
* `FilesAgree.step`, `FilesAgree.load`: while no write fails, the files of plain groups hold what the
  map does, and a new manager finds it.
-/

set_option autoImplicit false

namespace Gaffa

open ByteString FileSystem Text Transition OffsetManager

/-- A `commit_offset` request. -/
structure Commit where
  key : OffsetKey
  offset : Nat
  partition_lt : key.partition < 2 ^ 32
  offset_lt : offset < 2 ^ 64

/-- Group and topic are plain names. -/
def Commit.Plain (c : Commit) : Prop := PlainGroup c.key.groupId ∧ PlainTopic c.key.topic

instance (c : Commit) : Decidable c.Plain := inferInstanceAs (Decidable (_ ∧ _))

/-- The offset of the last commit of a key. -/
def lastCommitted (commits : List Commit) (key : OffsetKey) : Option Nat :=
  commits.foldl (fun last c => if c.key = key then some c.offset else last) none

theorem lastCommitted_snoc (commits : List Commit) (c : Commit) (key : OffsetKey) :
    lastCommitted (commits ++ [c]) key =
      if c.key = key then some c.offset else lastCommitted commits key := by
  rw [lastCommitted, List.foldl_append]
  rfl

theorem mem_of_lastCommitted {commits : List Commit} {c : Commit} (h : c ∈ commits) :
    ∃ offset, lastCommitted commits c.key = some offset := by
  induction commits using List.reverseRecOn with
  | nil => cases h
  | append_singleton commits c' ih =>
    rw [lastCommitted_snoc]
    split
    · exact ⟨_, rfl⟩
    · rename_i hne
      rcases List.mem_append.1 h with h | h
      · exact ih h
      · rw [List.mem_singleton.1 h] at hne
        exact absurd rfl hne

/-- A manager and the file system. -/
structure OffsetStore where
  manager : OffsetManager
  files : Files

/-- A commit, the order in which the map is iterated, and the answers of the file system. -/
abbrev CommitCall := Commit × List OffsetKey × PersistIo

/-- A commit that returns `Ok`. -/
def OffsetStore.next (os : Os) (s : OffsetStore) : CommitCall → Option OffsetStore
  | (c, order, io) =>
    if (groupOffsets c.key.groupId (s.manager.offsets.insert c.key c.offset)).Order order then
      match s.manager.commitOffset os io c.key c.offset order s.files with
      | (.ok (), manager, files) => some ⟨manager, files⟩
      | (.error _, _, _) => none
    else none

theorem next_commit {os : Os} {s t : OffsetStore} {c : Commit} {order : List OffsetKey}
    {io : PersistIo} (h : s.next os (c, order, io) = some t) :
    (groupOffsets c.key.groupId (s.manager.offsets.insert c.key c.offset)).Order order ∧
      ∃ loc, create os s.manager.dataDir (fileName c.key.groupId) = some loc ∧
        t = ⟨s.manager.insertOffset c.key c.offset, s.files.insert loc
          (io.kept (utf8 (groupText (s.manager.offsets.insert c.key c.offset) order)))⟩ := by
  unfold OffsetStore.next commitOffset at h
  simp only at h
  split at h
  · rename_i horder
    refine ⟨horder, ?_⟩
    rcases persistGroup_cases os io c.key.groupId order (s.manager.insertOffset c.key c.offset)
      s.files with ⟨-, hnone⟩ | ⟨loc, hloc, hfiles, -⟩
    · simp only [hnone] at h
      cases h
    · refine ⟨loc, hloc, ?_⟩
      rw [hfiles] at h
      cases hout : (persistGroup os io c.key.groupId order (s.manager.insertOffset c.key c.offset)
        s.files).1 with
      | error e =>
        rw [hout] at h
        cases h
      | ok _ =>
        rw [hout] at h
        cases h
        rfl
  · cases h

/-- No file of the directory looks like a file of offsets, and names have no slash. -/
def FreshDir (files : Files) (dataDir : Location) : Prop :=
  ∀ name bytes, files.get (dataDir ++ [name]) = some bytes →
    '/' ∉ name ∧ (splitExtension name).2 ≠ some extension

/-- The map holds what was committed last; the names of the files have no slash. -/
structure Remembers (dataDir : Location) (commits : List Commit) (s : OffsetStore) : Prop where
  dir : s.manager.dataDir = dataDir
  offsets : ∀ key, s.manager.offsets.get key = lastCommitted commits key
  names : ∀ name bytes, s.files.get (dataDir ++ [name]) = some bytes → '/' ∉ name

/-- The files hold what the map does, each the entries of its group. -/
structure FilesAgree (dataDir : Location) (s : OffsetStore) : Prop where
  dir : s.manager.dataDir = dataDir
  groups : ∀ key offset, s.manager.offsets.get key = some offset → PlainGroup key.groupId
  writable : Writable s.manager.offsets
  files : ∀ name bytes stem, s.files.get (dataDir ++ [name]) = some bytes →
    splitExtension name = (stem, some extension) →
    ∃ order, (groupOffsets (String.ofList stem) s.manager.offsets).Order order ∧
      bytes = utf8 (groupText s.manager.offsets order)
  present : ∀ key offset, s.manager.offsets.get key = some offset →
    ∃ bytes, s.files.get (dataDir ++ [fileName key.groupId]) = some bytes

section Step

variable {os : Os} {dataDir : Location} {commits : List Commit} {s t : OffsetStore} {c : Commit}
  {order : List OffsetKey} {io : PersistIo}

/-- **Any commit** is remembered. -/
theorem Remembers.step (h : Remembers dataDir commits s)
    (hstep : s.next os (c, order, io) = some t) :
    Remembers dataDir (commits ++ [c]) t := by
  obtain ⟨-, loc, hloc, rfl⟩ := next_commit hstep
  obtain ⟨parent, name, hname, hslash⟩ := create_name hloc
  constructor
  · exact h.dir
  · intro key
    simp only [insertOffset, Table.get_insert, lastCommitted_snoc, h.offsets, eq_comm]
  · intro name' bytes hget
    simp only [Table.get_insert] at hget
    split at hget
    · rename_i hloc'
      rw [hname] at hloc'
      obtain ⟨-, hlast⟩ := List.append_inj' hloc' rfl
      rw [(List.cons.inj hlast).1]
      exact hslash
    · exact h.names name' bytes hget

theorem groupText_congr {offsets offsets' : Table OffsetKey Nat} {keys : List OffsetKey}
    (h : ∀ k ∈ keys, offsets'.get k = offsets.get k) :
    groupText offsets' keys = groupText offsets keys := by
  apply List.flatMap_congr
  intro k hk
  rw [entryLine, entryLine, h k hk]

theorem groupOffsets_insert {offsets : Table OffsetKey Nat} {groupId : String} {key : OffsetKey}
    {offset : Nat} (h : key.groupId ≠ groupId) :
    groupOffsets groupId (offsets.insert key offset) = groupOffsets groupId offsets := by
  ext k
  simp only [groupOffsets, Table.get_retain, Table.get_insert]
  split
  · rename_i hk
    rw [hk]
    simp [h]
  · rfl

/-- An insert into another group leaves the lines of a group alone. -/
theorem groupText_insert {offsets : Table OffsetKey Nat} {groupId : String} {key : OffsetKey}
    {offset : Nat} {order : List OffsetKey} (h : key.groupId ≠ groupId)
    (horder : (groupOffsets groupId offsets).Order order) :
    groupText (offsets.insert key offset) order = groupText offsets order := by
  apply groupText_congr
  intro k hk
  refine Table.get_insert_ne offset ?_
  rintro rfl
  exact h ((mem_groupOffsets horder k).1 hk).1

theorem not_mem_fileName {groupId : String} (h : PlainGroup groupId) : '/' ∉ fileName groupId := by
  simp only [fileName, List.mem_append, not_or]
  exact ⟨h.2, by decide⟩

theorem fileName_inj {g g' : String} (h : fileName g = fileName g') : g = g' :=
  String.toList_inj.1 (List.append_cancel_right h)

/-- The file of offsets that was written, and every other one. -/
theorem file_insert_cases {files : Files} {groupId : String} {written : Bytes} {name stem : Name}
    {bytes : Bytes}
    (hget : (files.insert (dataDir ++ [fileName groupId]) written).get (dataDir ++ [name]) =
      some bytes) (hsplit : splitExtension name = (stem, some extension)) :
    (groupId = String.ofList stem ∧ bytes = written) ∨
      (groupId ≠ String.ofList stem ∧ files.get (dataDir ++ [name]) = some bytes) := by
  obtain ⟨hstem, -⟩ := eq_fileName hsplit
  simp only [Table.get_insert, List.append_right_inj, List.cons.injEq, and_true] at hget
  split at hget
  · rename_i hname
    cases hget
    exact .inl ⟨fileName_inj (hname.symm.trans hstem), rfl⟩
  · rename_i hname
    refine .inr ⟨?_, hget⟩
    rintro rfl
    exact hname hstem

/-- The entries of the other groups are not touched. -/
theorem FilesAgree.file_of_ne (h : FilesAgree dataDir s) {key : OffsetKey} {offset : Nat}
    {name stem : Name} {bytes : Bytes} (hget : s.files.get (dataDir ++ [name]) = some bytes)
    (hsplit : splitExtension name = (stem, some extension))
    (hgroup : key.groupId ≠ String.ofList stem) :
    ∃ order, (groupOffsets (String.ofList stem) (s.manager.offsets.insert key offset)).Order order ∧
      bytes = utf8 (groupText (s.manager.offsets.insert key offset) order) := by
  obtain ⟨order, horder, hbytes⟩ := h.files name bytes stem hget hsplit
  refine ⟨order, by rw [groupOffsets_insert hgroup]; exact horder, ?_⟩
  rw [hbytes, groupText_insert hgroup horder]

/-- A plain entry can be written. -/
theorem writable_insert {offsets : Table OffsetKey Nat} (h : Writable offsets) (hc : c.Plain) :
    Writable (offsets.insert c.key c.offset) := by
  intro key offset hget
  rcases Table.get_insert_cases hget with ⟨rfl, rfl⟩ | ⟨-, hget⟩
  · exact ⟨hc.2, c.partition_lt, c.offset_lt⟩
  · exact h key offset hget

theorem plainGroups_insert {offsets : Table OffsetKey Nat}
    (h : ∀ key offset, offsets.get key = some offset → PlainGroup key.groupId) (hc : c.Plain) :
    ∀ key offset, (offsets.insert c.key c.offset).get key = some offset →
      PlainGroup key.groupId := by
  intro key offset hget
  rcases Table.get_insert_cases hget with ⟨rfl, -⟩ | ⟨-, hget⟩
  · exact hc.1
  · exact h key offset hget

/-- Behind a commit its group has a file, and so have the groups that had one. -/
theorem present_insert {offsets : Table OffsetKey Nat} {files : Files}
    (h : ∀ key offset, offsets.get key = some offset →
      ∃ bytes, files.get (dataDir ++ [fileName key.groupId]) = some bytes) (written : Bytes) :
    ∀ key offset, (offsets.insert c.key c.offset).get key = some offset →
      ∃ bytes, (files.insert (dataDir ++ [fileName c.key.groupId]) written).get
        (dataDir ++ [fileName key.groupId]) = some bytes := by
  intro key offset hget
  simp only [Table.get_insert, List.append_right_inj, List.cons.injEq, and_true] at hget ⊢
  split
  · exact ⟨_, rfl⟩
  · rename_i hname
    split at hget
    · rename_i hkey
      rw [hkey] at hname
      exact absurd rfl hname
    · exact h key offset hget

/-- **A plain commit** whose lines are written keeps files and map together. -/
theorem FilesAgree.step (h : FilesAgree dataDir s) (hc : c.Plain) (hwrite : io.write = none)
    (hstep : s.next os (c, order, io) = some t) : FilesAgree dataDir t := by
  obtain ⟨horder, loc, hloc, rfl⟩ := next_commit hstep
  obtain rfl : loc = dataDir ++ [fileName c.key.groupId] := by
    rw [h.dir] at hloc
    exact create_plain (not_mem_fileName hc.1) hloc
  refine ⟨h.dir, plainGroups_insert h.groups hc, writable_insert h.writable hc, ?_,
    present_insert h.present _⟩
  intro name bytes stem hget hsplit
  rcases file_insert_cases hget hsplit with ⟨hgroup, rfl⟩ | ⟨hgroup, hget⟩
  · rw [← hgroup]
    exact ⟨order, horder, PersistIo.kept_of_none hwrite _⟩
  · exact h.file_of_ne hget hsplit hgroup

end Step

/-! ## Loading -/

section Load

variable {dataDir : Location} {s : OffsetStore}

theorem loadLoop_ok {d : Dir} (h : ∀ name bytes stem, d.get name = some bytes →
      splitExtension name = (stem, some extension) →
      ∃ contents, readToString bytes = some contents)
    (names : List Name) (offsets : Table OffsetKey Nat) : (loadLoop d names offsets).1 = .ok () := by
  induction names generalizing offsets with
  | nil => rfl
  | cons name names ih =>
    rcases loadLoop_cons d name names offsets with
      ⟨_, _, _, -, -, -, hloop⟩ | ⟨bytes, stem, hget, hsplit, hread, -⟩ | ⟨-, hloop⟩
    · rw [hloop]
      exact ih _
    · obtain ⟨contents, htext⟩ := h name bytes stem hget hsplit
      rw [hread] at htext
      cases htext
    · rw [hloop]
      exact ih offsets

theorem FilesAgree.readable (h : FilesAgree dataDir s) :
    ∀ name bytes stem, s.files.get (dataDir ++ [name]) = some bytes →
      splitExtension name = (stem, some extension) →
      ∃ contents, readToString bytes = some contents := by
  intro name bytes stem hget hsplit
  obtain ⟨order, -, rfl⟩ := h.files name bytes stem hget hsplit
  exact ⟨_, readToString_utf8 _⟩

theorem FilesAgree.othersRead (h : FilesAgree dataDir s) (groupId : String) :
    OthersRead (entries s.files dataDir) groupId :=
  fun name bytes stem hget hsplit _ => h.readable name bytes stem hget hsplit

/-- What a restart finds when the files agree with the map. -/
theorem FilesAgree.load (h : FilesAgree dataDir s) {key : OffsetKey}
    (hgroup : key.groupId.toList ≠ []) {listing : List Name}
    (hlisting : (entries s.files dataDir).Order listing) :
    (OffsetManager.load s.files listing (new dataDir)).2.fetchOffset key =
      s.manager.offsets.get key := by
  rw [get_load hgroup (h.othersRead _) hlisting]
  cases hget : s.files.get (dataDir ++ [fileName key.groupId]) with
  | none =>
    rw [Option.bind_none, Eq.comm, Option.eq_none_iff_forall_ne_some]
    intro offset hmemory
    obtain ⟨bytes, hbytes⟩ := h.present key offset hmemory
    rw [hget] at hbytes
    cases hbytes
  | some bytes =>
    obtain ⟨order, horder, rfl⟩ := h.files _ _ _ hget (splitExtension_fileName hgroup)
    rw [String.ofList_toList] at horder
    exact fileTable_groupText h.writable horder rfl

end Load

/-! ## The start -/

section Start

variable {dataDir : Location} {files : Files}

/-- A new manager in a fresh directory. -/
def OffsetStore.init (dataDir : Location) (files : Files) : OffsetStore := ⟨new dataDir, files⟩

theorem remembers_init (hfresh : FreshDir files dataDir) :
    Remembers dataDir [] (OffsetStore.init dataDir files) :=
  ⟨rfl, fun _ => rfl, fun name bytes hget => (hfresh name bytes hget).1⟩

theorem agrees_init (hfresh : FreshDir files dataDir) :
    FilesAgree dataDir (OffsetStore.init dataDir files) := by
  refine ⟨rfl, ?_, ?_, ?_, ?_⟩
  · intro key offset hget
    cases hget
  · intro key offset hget
    cases hget
  · intro name bytes stem hget hsplit
    exact absurd (by rw [hsplit]) (hfresh name bytes hget).2
  · intro key offset hget
    cases hget

end Start

/-- A directory for offsets and one above it. -/
def plainOs : Os := ⟨fun l => l = [] ∨ l = [['d']] ∨ l = [['d'], ['o']], fun _ => false⟩

def ordersCommit (groupId topic : String) (offset : Nat) (h : offset < 2 ^ 64) : Commit :=
  ⟨⟨groupId, topic, 0⟩, offset, by show 0 < 2 ^ 32; decide, h⟩

theorem freshDir_empty (dataDir : Location) : FreshDir Table.empty dataDir := by
  intro name bytes hget
  cases hget

end Gaffa
