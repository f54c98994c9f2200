import Gaffa.Lib.Durable
import Gaffa.Broker.OffsetFiles
import Gaffa.Broker.GroupDeletion

/-!
# The offset manager over its whole life

Commits that succeed, that cannot create their file or that cannot sync it, deletions of groups and
restarts of the broker, in any order.  A commit is in memory even when its file cannot be created; the
next commit of its group that succeeds writes it out with the others, and a restart before that forgets
it.  So the manager is a map with a saved half, whose parts are the groups, as long as no line write
fails: behind one the file has a piece of its lines.

* `Refines.call`: one call makes the changes that `ManagerCall.changes` lists.
* `manager_refines`: the manager answers from the memory of that map, and a restart finds its saved
  half.
-/

set_option autoImplicit false

namespace Gaffa

open ByteString FileSystem Text Transition OffsetManager Durable

/-! ## Calls -/

/-- `OffsetManager::delete_group`, when nothing fails but the removal of a directory. -/
def OffsetManager.deleteGroup (os : Os) (groupId : String) (m : OffsetManager) (files : Files) :
    Except GaffaError Unit × OffsetManager × Files :=
  let m := { m with offsets := otherOffsets groupId m.offsets }
  match locate os m.dataDir (fileName groupId) with
  | none => (.ok (), m, files)
  | some loc =>
    if os.isDir loc then (.error (.io "Is a directory"), m, files)
    else if (files.get loc).isSome then (.ok (), m, files.remove loc)
    else (.ok (), m, files)

/-- A call, or a restart of the broker; `order` and `listing` are how the map and the directory are
iterated, `full` says that no file can be created just then, and `io` what becomes of the writes. -/
inductive ManagerCall where
  | commit (full : Bool) (io : PersistIo) (c : Commit) (order : List OffsetKey)
  | deleteGroup (groupId : String)
  | restart (listing : List Name)

/-- What a call leaves behind, whatever it returns.  `BrokerServer::run` only warns of a load that
fails. -/
def OffsetStore.call (os : Os) (s : OffsetStore) : ManagerCall → Option OffsetStore
  | .commit full io c order =>
    if (groupOffsets c.key.groupId (s.manager.offsets.insert c.key c.offset)).Order order then
      let r := s.manager.commitOffset (if full then os.exhausted else os) io c.key c.offset order
        s.files
      some ⟨r.2.1, r.2.2⟩
    else none
  | .deleteGroup groupId =>
    let r := s.manager.deleteGroup os groupId s.files
    some ⟨r.2.1, r.2.2⟩
  | .restart listing =>
    if (entries s.files s.manager.dataDir).Order listing then
      some ⟨(load s.files listing (new s.manager.dataDir)).2, s.files⟩
    else none

/-- What a call does to the map and to its saved half. -/
def ManagerCall.changes (os : Os) (dataDir : Location) :
    ManagerCall → List (Change OffsetKey String Nat)
  | .commit full _ c _ =>
    if full = false ∧ (create os dataDir (fileName c.key.groupId)).isSome then
      [.put c.key c.offset, .save c.key.groupId]
    else [.put c.key c.offset]
  | .deleteGroup groupId => [.drop groupId]
  | .restart _ => [.restart]

/-- No topic has a separator in its name, and the groups that reach the disk are file names. -/
def ManagerCall.Plain (os : Os) (dataDir : Location) : ManagerCall → Prop
  | .commit _ _ c _ => PlainTopic c.key.topic ∧
      ((create os dataDir (fileName c.key.groupId)).isSome = true → PlainGroup c.key.groupId)
  | .deleteGroup groupId =>
      PlainGroup groupId ∨ (locate os dataDir (fileName groupId)).isSome = false
  | .restart _ => True

instance (os : Os) (dataDir : Location) :
    ∀ call : ManagerCall, Decidable (call.Plain os dataDir)
  | .commit .. => inferInstanceAs (Decidable (_ ∧ _))
  | .deleteGroup _ => inferInstanceAs (Decidable (_ ∨ _))
  | .restart _ => isTrue trivial

/-- No line write of the call fails. -/
def ManagerCall.Stores : ManagerCall → Prop
  | .commit _ io _ _ => io.write = none
  | _ => True

instance : ∀ call : ManagerCall, Decidable call.Stores
  | .commit _ io _ _ => inferInstanceAs (Decidable (io.write = none))
  | .deleteGroup _ => isTrue trivial
  | .restart _ => isTrue trivial

/-! ## One call -/

/-- The manager is in the memory of the map, and the files are its saved half. -/
structure Refines (os : Os) (dataDir : Location) (s : OffsetStore) (h : Halves OffsetKey Nat) :
    Prop where
  dir : s.manager.dataDir = dataDir
  memory : ∀ key, s.manager.offsets.get key = h.memory key
  writable : Writable s.manager.offsets
  names : ∀ name bytes, s.files.get (dataDir ++ [name]) = some bytes → '/' ∉ name
  saved : ∃ table : Table OffsetKey Nat, (∀ key, table.get key = h.saved key) ∧
    FilesAgree dataDir ⟨⟨table, dataDir⟩, s.files⟩
  created : ∀ key offset, h.saved key = some offset →
    (create os dataDir (fileName key.groupId)).isSome = true

section Files

variable {dataDir : Location} {files : Files} {table table' : Table OffsetKey Nat}

theorem get_otherOffsets (groupId : String) (table : Table OffsetKey Nat) (key : OffsetKey) :
    (otherOffsets groupId table).get key =
      if key.groupId = groupId then none else table.get key := by
  simp only [otherOffsets, Table.get_retain]
  cases table.get key <;> simp [Option.filter]

theorem groupOffsets_congr {groupId : String}
    (h : ∀ key, key.groupId = groupId → table'.get key = table.get key) :
    groupOffsets groupId table' = groupOffsets groupId table := by
  ext key
  simp only [groupOffsets, Table.get_retain]
  by_cases hkey : key.groupId = groupId
  · rw [h key hkey]
  · simp [hkey]

/-- A file stays as good as it is while no entry of its group changes. -/
theorem FilesAgree.file_congr (h : FilesAgree dataDir ⟨⟨table, dataDir⟩, files⟩) {name stem : Name}
    {bytes : Bytes} (hget : files.get (dataDir ++ [name]) = some bytes)
    (hsplit : splitExtension name = (stem, some extension))
    (hsame : ∀ key, key.groupId = String.ofList stem → table'.get key = table.get key) :
    ∃ order, (groupOffsets (String.ofList stem) table').Order order ∧
      bytes = utf8 (groupText table' order) := by
  obtain ⟨order, horder, rfl⟩ := h.files name bytes stem hget hsplit
  refine ⟨order, by rw [groupOffsets_congr hsame]; exact horder, ?_⟩
  rw [groupText_congr fun key hkey => hsame key ((mem_groupOffsets horder key).1 hkey).1]

theorem fileName_proper (groupId : String) :
    fileName groupId ≠ [] ∧ fileName groupId ≠ ['.'] ∧ fileName groupId ≠ ['.', '.'] := by
  have hlength : 8 ≤ (fileName groupId).length := by simp [fileName, extension]
  refine ⟨?_, ?_, ?_⟩ <;> intro hname <;> rw [hname] at hlength <;> simp at hlength

theorem ne_fileName {name stem : Name} {groupId : String}
    (hsplit : splitExtension name = (stem, some extension)) (hne : name ≠ fileName groupId) :
    String.ofList stem ≠ groupId := by
  rintro rfl
  exact hne (eq_fileName hsplit).1

/-- The file of a group is written whole. -/
theorem FilesAgree.save (h : FilesAgree dataDir ⟨⟨table, dataDir⟩, files⟩) {groupId : String}
    {memory : Table OffsetKey Nat} {order : List OffsetKey} (hgroup : PlainGroup groupId)
    (hwritable : Writable memory) (horder : (groupOffsets groupId memory).Order order) :
    FilesAgree dataDir ⟨⟨Table.splice (fun key => key.groupId = groupId) memory table, dataDir⟩,
      files.insert (dataDir ++ [fileName groupId]) (utf8 (groupText memory order))⟩ := by
  constructor
  · rfl
  · intro key offset hget
    simp only [Table.get_splice, decide_eq_true_eq] at hget
    split at hget
    · rename_i hkey
      rw [hkey]
      exact hgroup
    · exact h.groups key offset hget
  · intro key offset hget
    simp only [Table.get_splice, decide_eq_true_eq] at hget
    split at hget
    · exact hwritable key offset hget
    · exact h.writable key offset hget
  · intro name bytes stem hget hsplit
    simp only [Table.get_insert, List.append_right_inj, List.cons.injEq, and_true] at hget
    split at hget
    · rename_i hname
      cases hget
      obtain ⟨hstem, -⟩ := eq_fileName hsplit
      obtain rfl : groupId = String.ofList stem := fileName_inj (hname.symm.trans hstem)
      have hsame : ∀ key : OffsetKey, key.groupId = String.ofList stem →
          (Table.splice (fun key => key.groupId = String.ofList stem) memory table).get key =
            memory.get key := by
        intro key hkey
        simp [hkey]
      refine ⟨order, by rw [groupOffsets_congr hsame]; exact horder, ?_⟩
      rw [groupText_congr fun key hkey => hsame key ((mem_groupOffsets horder key).1 hkey).1]
    · rename_i hname
      refine h.file_congr hget hsplit fun key hkey => ?_
      have hne : key.groupId ≠ groupId := by
        rw [hkey]
        exact ne_fileName hsplit hname
      simp [hne]
  · intro key offset hget
    simp only [Table.get_splice, Table.get_insert, List.append_right_inj, List.cons.injEq, and_true,
      decide_eq_true_eq] at hget ⊢
    by_cases hkey : key.groupId = groupId
    · rw [if_pos (congrArg fileName hkey)]
      exact ⟨_, rfl⟩
    · rw [if_neg hkey] at hget
      rw [if_neg fun hname => hkey (fileName_inj hname)]
      exact h.present key offset hget

/-- The file of a group is removed. -/
theorem FilesAgree.drop (h : FilesAgree dataDir ⟨⟨table, dataDir⟩, files⟩) (groupId : String) :
    FilesAgree dataDir ⟨⟨otherOffsets groupId table, dataDir⟩,
      files.remove (dataDir ++ [fileName groupId])⟩ := by
  constructor
  · rfl
  · intro key offset hget
    exact h.groups key offset (Option.filter_eq_some_iff.1 hget).1
  · intro key offset hget
    exact h.writable key offset (Option.filter_eq_some_iff.1 hget).1
  · intro name bytes stem hget hsplit
    obtain ⟨hloc, hget⟩ := Table.get_remove_cases hget
    have hname : name ≠ fileName groupId := by
      rintro rfl
      exact hloc rfl
    refine h.file_congr hget hsplit fun key hkey => ?_
    have hne : key.groupId ≠ groupId := by
      rw [hkey]
      exact ne_fileName hsplit hname
    simp [get_otherOffsets, hne]
  · intro key offset hget
    obtain ⟨hkept, hne⟩ := Option.filter_eq_some_iff.1 hget
    obtain ⟨bytes, hbytes⟩ := h.present key offset hkept
    refine ⟨bytes, ?_⟩
    rw [Table.get_remove_ne]
    · exact hbytes
    · simp only [ne_eq, List.append_right_inj, List.cons.injEq, and_true]
      intro hname
      exact (of_decide_eq_true hne) (fileName_inj hname)

/-- **A restart** finds what the files hold. -/
theorem FilesAgree.load_exact (h : FilesAgree dataDir ⟨⟨table, dataDir⟩, files⟩)
    (hnames : ∀ name bytes, files.get (dataDir ++ [name]) = some bytes → '/' ∉ name)
    {listing : List Name} (hlisting : (entries files dataDir).Order listing) :
    (OffsetManager.load files listing (new dataDir)).1 = .ok () ∧
      ∀ key, (OffsetManager.load files listing (new dataDir)).2.fetchOffset key =
        table.get key := by
  constructor
  · refine loadLoop_ok (fun name bytes stem hget hsplit => ?_) listing _
    obtain ⟨order, -, rfl⟩ := h.files name bytes stem hget hsplit
    exact ⟨_, readToString_utf8 _⟩
  · intro key
    by_cases hgroup : key.groupId.toList = []
    · have hsaved : table.get key = none := by
        rw [Option.eq_none_iff_forall_ne_some]
        intro offset hget
        exact (h.groups key offset hget).1 hgroup
      rw [hsaved, Option.eq_none_iff_forall_ne_some]
      intro offset hget
      rcases plain_of_loadLoop hnames hget with hnew | ⟨hplain, -⟩
      · cases hnew
      · exact hplain.1 hgroup
    · exact h.load hgroup hlisting

end Files

section Call

variable {os : Os} {dataDir : Location} {s t : OffsetStore} {h : Halves OffsetKey Nat}

/-- A commit is in memory, and the files are what they were. -/
theorem Refines.put (hs : Refines os dataDir s h) {c : Commit} (htopic : PlainTopic c.key.topic) :
    Refines os dataDir ⟨s.manager.insertOffset c.key c.offset, s.files⟩
      (h.change OffsetKey.groupId (.put c.key c.offset)) where
  dir := hs.dir
  memory key := by
    simp only [insertOffset, Halves.change, Table.get_insert, Function.update_apply, hs.memory]
  writable key offset hget := by
    rcases Table.get_insert_cases hget with ⟨rfl, rfl⟩ | ⟨-, hget⟩
    · exact ⟨htopic, c.partition_lt, c.offset_lt⟩
    · exact hs.writable key offset hget
  names := hs.names
  saved := hs.saved
  created := hs.created

/-- The group is in its file as it is in memory. -/
theorem Refines.save (hs : Refines os dataDir s h) {groupId : String} {order : List OffsetKey}
    {loc : Location} (hloc : create os dataDir (fileName groupId) = some loc)
    (hgroup : PlainGroup groupId)
    (horder : (groupOffsets groupId s.manager.offsets).Order order) :
    Refines os dataDir
      ⟨s.manager, s.files.insert loc (utf8 (groupText s.manager.offsets order))⟩
      (h.change OffsetKey.groupId (.save groupId)) := by
  obtain rfl : loc = dataDir ++ [fileName groupId] := create_plain (not_mem_fileName hgroup) hloc
  obtain ⟨table, htable, hfiles⟩ := hs.saved
  refine ⟨hs.dir, hs.memory, hs.writable, ?_,
    ⟨_, ?_, hfiles.save hgroup hs.writable horder⟩, ?_⟩
  · intro name bytes hget
    rcases Table.get_insert_cases hget with ⟨hname, -⟩ | ⟨-, hget⟩
    · simp only [List.append_right_inj, List.cons.injEq, and_true] at hname
      rw [hname]
      exact not_mem_fileName hgroup
    · exact hs.names name bytes hget
  · intro key
    simp [Halves.change, hs.memory, htable]
  · intro key offset hget
    simp only [Halves.change] at hget
    split at hget
    · rename_i hkey
      rw [hkey, hloc]
      rfl
    · exact hs.created key offset hget

/-- The entries of the group are gone from memory. -/
theorem Refines.forget (hs : Refines os dataDir s h) (groupId : String)
    (hsaved : ∀ key, key.groupId = groupId → h.saved key = none) :
    Refines os dataDir
      ⟨{ s.manager with offsets := otherOffsets groupId s.manager.offsets }, s.files⟩
      (h.change OffsetKey.groupId (.drop groupId)) := by
  have hhalf : (h.change OffsetKey.groupId (.drop groupId : Change OffsetKey String Nat)).saved =
      h.saved := by
    funext key
    simp only [Halves.change]
    split
    · rename_i hkey
      exact (hsaved key hkey).symm
    · rfl
  refine ⟨hs.dir, ?_, ?_, hs.names, ?_, ?_⟩
  · intro key
    simp only [get_otherOffsets, Halves.change, hs.memory]
  · intro key offset hget
    exact hs.writable key offset (Option.filter_eq_some_iff.1 hget).1
  · rw [hhalf]
    exact hs.saved
  · rw [hhalf]
    exact hs.created

/-- The entries of the group are gone with its file. -/
theorem Refines.drop (hs : Refines os dataDir s h) (groupId : String) :
    Refines os dataDir
      ⟨{ s.manager with offsets := otherOffsets groupId s.manager.offsets },
        s.files.remove (dataDir ++ [fileName groupId])⟩
      (h.change OffsetKey.groupId (.drop groupId)) := by
  obtain ⟨table, htable, hfiles⟩ := hs.saved
  refine ⟨hs.dir, ?_, ?_, ?_, ⟨_, ?_, hfiles.drop groupId⟩, ?_⟩
  · intro key
    simp only [get_otherOffsets, Halves.change, hs.memory]
  · intro key offset hget
    exact hs.writable key offset (Option.filter_eq_some_iff.1 hget).1
  · intro name bytes hget
    exact hs.names name bytes (Table.get_remove_cases hget).2
  · intro key
    simp only [get_otherOffsets, Halves.change, htable]
  · intro key offset hget
    simp only [Halves.change, Option.ite_none_left_eq_some] at hget
    exact hs.created key offset hget.2

/-- What is saved is in a file, and that is not a directory. -/
theorem Refines.located (hs : Refines os dataDir s h) {key : OffsetKey} {offset : Nat}
    (hget : h.saved key = some offset) :
    locate os dataDir (fileName key.groupId) = some (dataDir ++ [fileName key.groupId]) ∧
      os.isDir (dataDir ++ [fileName key.groupId]) = false ∧
      (s.files.get (dataDir ++ [fileName key.groupId])).isSome = true := by
  obtain ⟨table, htable, hfiles⟩ := hs.saved
  rw [← htable] at hget
  have hgroup : PlainGroup key.groupId := hfiles.groups key offset hget
  obtain ⟨loc, hloc⟩ := Option.isSome_iff_exists.1 (hs.created key offset (by rw [← htable, hget]))
  obtain rfl := create_plain (not_mem_fileName hgroup) hloc
  obtain ⟨bytes, hbytes⟩ := hfiles.present key offset hget
  exact ⟨locate_create hloc, isDir_create hloc, Option.isSome_iff_exists.2 ⟨bytes, hbytes⟩⟩

/-- `delete_group` forgets the entries of the group, and removes the file if it finds one. -/
theorem deleteGroup_cases (os : Os) (groupId : String) (m : OffsetManager) (files : Files) :
    ((m.deleteGroup os groupId files).2.2 = files ∧
      (m.deleteGroup os groupId files).2.1 =
        { m with offsets := otherOffsets groupId m.offsets } ∧
      ∀ loc, locate os m.dataDir (fileName groupId) = some loc →
        os.isDir loc = true ∨ files.get loc = none) ∨
    ∃ loc, locate os m.dataDir (fileName groupId) = some loc ∧
      (m.deleteGroup os groupId files).2.2 = files.remove loc ∧
      (m.deleteGroup os groupId files).2.1 =
        { m with offsets := otherOffsets groupId m.offsets } := by
  simp only [OffsetManager.deleteGroup]
  cases hlocate : locate os m.dataDir (fileName groupId) with
  | none => exact .inl ⟨rfl, rfl, nofun⟩
  | some loc =>
    cases hdir : os.isDir loc with
    | true =>
      refine .inl ⟨by simp [hdir], by simp [hdir], ?_⟩
      rintro _ ⟨⟩
      exact .inl hdir
    | false =>
      cases hfile : files.get loc with
      | none =>
        refine .inl ⟨by simp [hdir, hfile], by simp [hdir, hfile], ?_⟩
        rintro _ ⟨⟩
        exact .inr hfile
      | some bytes => exact .inr ⟨loc, rfl, by simp [hdir, hfile], by simp [hdir, hfile]⟩

theorem Refines.deleteGroup (hs : Refines os dataDir s h) {groupId : String}
    (hplain : PlainGroup groupId ∨ (locate os dataDir (fileName groupId)).isSome = false) :
    Refines os dataDir ⟨(s.manager.deleteGroup os groupId s.files).2.1,
        (s.manager.deleteGroup os groupId s.files).2.2⟩
      (h.change OffsetKey.groupId (.drop groupId)) := by
  obtain rfl := hs.dir
  rcases deleteGroup_cases os groupId s.manager s.files with
    ⟨hfiles, hmanager, habsent⟩ | ⟨loc, hlocate, hfiles, hmanager⟩
  · rw [hfiles, hmanager]
    refine hs.forget groupId fun key hkey => ?_
    rw [Option.eq_none_iff_forall_ne_some]
    rintro offset hsaved
    subst hkey
    obtain ⟨hlocate, hdir, hfile⟩ := hs.located hsaved
    rcases habsent _ hlocate with hisDir | hnone
    · rw [hdir] at hisDir
      cases hisDir
    · rw [hnone] at hfile
      cases hfile
  · rw [hfiles, hmanager]
    rcases hplain with hplain | hnowhere
    · obtain rfl := locate_plain (not_mem_fileName hplain) (fileName_proper groupId) hlocate
      exact hs.drop groupId
    · rw [hlocate] at hnowhere
      cases hnowhere

/-- **A restart** makes the saved half the memory. -/
theorem Refines.restart (hs : Refines os dataDir s h) {listing : List Name}
    (hlisting : (entries s.files dataDir).Order listing) :
    Refines os dataDir ⟨(load s.files listing (new dataDir)).2, s.files⟩
      (h.change OffsetKey.groupId (.restart : Change OffsetKey String Nat)) := by
  obtain ⟨table, htable, hfiles⟩ := hs.saved
  obtain ⟨-, hload⟩ := hfiles.load_exact hs.names hlisting
  refine ⟨rfl, fun key => (hload key).trans (htable key), ?_, hs.names, ⟨table, htable, hfiles⟩,
    hs.created⟩
  intro key offset hget
  exact hfiles.writable key offset ((hload key).symm.trans hget)

/-- **One call** makes its changes to the map and its saved half. -/
theorem Refines.call (hs : Refines os dataDir s h) {call : ManagerCall}
    (hplain : call.Plain os dataDir) (hstores : call.Stores) (hstep : s.call os call = some t) :
    Refines os dataDir t (h.changes OffsetKey.groupId (call.changes os dataDir)) := by
  obtain rfl := hs.dir
  cases call with
  | commit full io c order =>
    simp only [OffsetStore.call, Option.ite_none_right_eq_some, Option.some.injEq] at hstep
    obtain ⟨horder, rfl⟩ := hstep
    obtain ⟨htopic, hgroup⟩ := hplain
    have hput := hs.put htopic
    simp only [commitOffset]
    rcases persistGroup_cases (if full then os.exhausted else os) io c.key.groupId order
      (s.manager.insertOffset c.key c.offset) s.files with ⟨hloc, hnone⟩ | ⟨loc, hloc, hfiles, -⟩
    · have hmissing : ¬ (full = false ∧
          (create os s.manager.dataDir (fileName c.key.groupId)).isSome = true) := by
        rintro ⟨rfl, hsome⟩
        rw [show create os s.manager.dataDir (fileName c.key.groupId) = none from hloc] at hsome
        cases hsome
      rw [hnone, ManagerCall.changes, if_neg hmissing]
      exact hput
    · cases full with
      | true =>
        rw [if_pos rfl, create_exhausted] at hloc
        cases hloc
      | false =>
        have hcreate : create os s.manager.dataDir (fileName c.key.groupId) = some loc := hloc
        have hsome : (create os s.manager.dataDir (fileName c.key.groupId)).isSome = true := by
          rw [hcreate]
          rfl
        rw [hfiles, PersistIo.kept_of_none hstores, ManagerCall.changes, if_pos ⟨rfl, hsome⟩]
        exact hput.save hcreate (hgroup hsome) horder
  | deleteGroup groupId =>
    cases hstep
    exact hs.deleteGroup hplain
  | restart listing =>
    simp only [OffsetStore.call, Option.ite_none_right_eq_some] at hstep
    obtain ⟨hlisting, hstep⟩ := hstep
    cases hstep
    exact hs.restart hlisting

end Call

/-! ## Runs -/

/-- The changes of the calls of a run. -/
def changesOf (os : Os) (dataDir : Location) (tr : List (ManagerCall × OffsetStore)) :
    List (Change OffsetKey String Nat) :=
  tr.flatMap fun e => e.1.changes os dataDir

/-- What the offset manager says, and what one says that loads the files. -/
structure Answers (dataDir : Location) (s : OffsetStore) (h : Halves OffsetKey Nat) : Prop where
  fetched : ∀ key, s.manager.fetchOffset key = h.memory key
  group : ∀ groupId topic partition, (s.manager.getGroupOffsets groupId).get (topic, partition) =
    h.memory ⟨groupId, topic, partition⟩
  restarted : ∀ listing, (entries s.files dataDir).Order listing →
    (load s.files listing (new dataDir)).1 = .ok () ∧
      ∀ key, (load s.files listing (new dataDir)).2.fetchOffset key = h.saved key

section Run

variable {os : Os} {dataDir : Location} {files : Files}

theorem Refines.answers {s : OffsetStore} {h : Halves OffsetKey Nat}
    (hs : Refines os dataDir s h) : Answers dataDir s h where
  fetched := hs.memory
  group _ _ _ := hs.memory _
  restarted listing hlisting := by
    obtain ⟨table, htable, hfiles⟩ := hs.saved
    obtain ⟨hok, hload⟩ := hfiles.load_exact hs.names hlisting
    exact ⟨hok, fun key => (hload key).trans (htable key)⟩

theorem refines_init (hfresh : FreshDir files dataDir) :
    Refines os dataDir (OffsetStore.init dataDir files) Halves.empty where
  dir := rfl
  memory _ := rfl
  writable _ _ hget := by cases hget
  names name bytes hget := (hfresh name bytes hget).1
  saved := ⟨Table.empty, fun _ => rfl, agrees_init hfresh⟩
  created _ _ hget := by cases hget

theorem Refines.run : ∀ {tr : List (ManagerCall × OffsetStore)} {s : OffsetStore}
    {h : Halves OffsetKey Nat}, Refines os dataDir s h → Run (Steps (OffsetStore.call os)) s tr →
    (∀ e ∈ tr, e.1.Plain os dataDir) → (∀ e ∈ tr, e.1.Stores) →
    Refines os dataDir (last s tr) (h.changes OffsetKey.groupId (changesOf os dataDir tr))
  | [], _, _, hs, _, _, _ => hs
  | (call, t) :: tr, s, h, hs, hrun, hplain, hstores => by
    obtain ⟨hcall, hrest⟩ := List.forall_mem_cons.1 hplain
    obtain ⟨hwrites, hleft⟩ := List.forall_mem_cons.1 hstores
    have hend := (hs.call hcall hwrites hrun.1).run hrun.2 hrest hleft
    rw [← changes_append] at hend
    exact hend

/-- **The offset manager is a map with a saved half**, over every run of commits whose line writes do
not fail, deletions and restarts.  A group is found again as it is if its last commit created its
file, and nothing is found that was not in memory before. -/
theorem manager_refines (hfresh : FreshDir files dataDir)
    {tr : List (ManagerCall × OffsetStore)}
    (hrun : Run (Steps (OffsetStore.call os)) (OffsetStore.init dataDir files) tr)
    (hplain : ∀ e ∈ tr, e.1.Plain os dataDir) (hstores : ∀ e ∈ tr, e.1.Stores) :
    Answers dataDir (last (OffsetStore.init dataDir files) tr)
        (Halves.empty.changes OffsetKey.groupId (changesOf os dataDir tr)) ∧
      (∀ groupId, unsaved OffsetKey.groupId groupId (changesOf os dataDir tr) = false →
        Clean OffsetKey.groupId
          (Halves.empty.changes OffsetKey.groupId (changesOf os dataDir tr)) groupId) ∧
      ∀ key, ∃ past, past <+: changesOf os dataDir tr ∧
        (Halves.empty.changes OffsetKey.groupId past).memory key =
          (Halves.empty.changes OffsetKey.groupId (changesOf os dataDir tr)).saved key := by
  refine ⟨((refines_init hfresh).run hrun hplain hstores).answers, ?_, ?_⟩
  · intro groupId hsaved
    exact clean_changes (fun _ _ => rfl) hsaved
  · intro key
    exact saved_was_memory rfl _

end Run

/-- Everything is written, and the sync fails. -/
def unsynced : PersistIo := ⟨none, some "Input/output error (os error 5)"⟩

/-- A commit that fails and is forgotten, one that fails and is written out later by one whose sync
fails, and a group that is deleted. -/
def forgetfulCalls : List ManagerCall :=
  [.commit false .done (ordersCommit "a" "orders" 5 five_fits) [⟨"a", "orders", 0⟩],
    .commit true .done (ordersCommit "a" "orders" 7 seven_fits) [⟨"a", "orders", 0⟩],
    .restart [fileName "a"],
    .commit true .done (ordersCommit "a" "orders" 7 seven_fits) [⟨"a", "orders", 0⟩],
    .commit false .done (ordersCommit "b" "a b" 7 seven_fits) [⟨"b", "a b", 0⟩],
    .commit false unsynced (ordersCommit "a" "" 5 five_fits) [⟨"a", "", 0⟩, ⟨"a", "orders", 0⟩],
    .deleteGroup "b",
    .restart [fileName "a"]]

theorem manager_refines_forgetful :
    ∃ tr, trace (OffsetStore.call plainOs) (OffsetStore.init [['d'], ['o']] Table.empty)
        forgetfulCalls = some tr ∧
      Answers [['d'], ['o']] (last (OffsetStore.init [['d'], ['o']] Table.empty) tr)
        (Halves.empty.changes OffsetKey.groupId (changesOf plainOs [['d'], ['o']] tr)) := by
  obtain ⟨tr, htr⟩ := Option.isSome_iff_exists.1 (show (trace (OffsetStore.call plainOs)
    (OffsetStore.init [['d'], ['o']] Table.empty) forgetfulCalls).isSome = true by decide +kernel)
  have hcalls : ∀ call ∈ forgetfulCalls, call.Plain plainOs [['d'], ['o']] ∧ call.Stores := by
    decide +kernel
  rw [← events_of_trace htr] at hcalls
  refine ⟨tr, htr, (manager_refines (freshDir_empty _) (run_of_trace htr) (fun e he => ?_)
    fun e he => ?_).1⟩
  · exact (hcalls e.1 (List.mem_map_of_mem he)).1
  · exact (hcalls e.1 (List.mem_map_of_mem he)).2

end Gaffa
