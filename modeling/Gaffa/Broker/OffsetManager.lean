import Gaffa.Error
import Gaffa.Lib.FileSystem
import Gaffa.Lib.Text
import Gaffa.Storage.FileName

/-!
# The offset manager

`broker/src/offset_manager.rs`.  The committed offsets are a map in memory; each commit rewrites the
file of its group, one line for each entry, and `load` reads the files back.  A loop over the map
visits its keys in some order, so whatever iterates takes the order as an argument.

* `persistGroup_cases`: what a commit writes, and what of it when a write fails.
* `get_load`: the offsets that a load finds are those that the files of their groups spell.
* `fileTable_groupText`: a file that was written whole spells what it was written from.
-/

set_option autoImplicit false

namespace Gaffa

open ByteString FileSystem Text

/-- `OffsetKey`. -/
structure OffsetKey where
  groupId : String
  topic : String
  partition : Nat
  deriving DecidableEq, Repr

/-- `OffsetManager`. -/
structure OffsetManager where
  offsets : Table OffsetKey Nat
  dataDir : Location

namespace OffsetManager

/-- `OffsetManager::new`, in a directory that exists. -/
def new (dataDir : Location) : OffsetManager := ⟨Table.empty, dataDir⟩

/-! ## The text format -/

/-- `offsets`. -/
def extension : Name := ['o', 'f', 'f', 's', 'e', 't', 's']

/-- `format!("{}.offsets", group_id)`. -/
def fileName (groupId : String) : Name := groupId.toList ++ '.' :: extension

/-- The line of an entry up to the offset. -/
def lineHead (key : OffsetKey) : List Char :=
  key.topic.toList ++ ':' :: digits key.partition ++ ['=']

/-- `format!("{}:{}={}\n", topic, partition, offset)`, before the line break. -/
def lineBody (key : OffsetKey) (offset : Nat) : List Char := lineHead key ++ digits offset

/-- What `load` makes of a line. -/
def parseLine (line : List Char) : Option (String × Nat × Nat) :=
  match splitOnce '=' line with
  | none => none
  | some (key, value) =>
    match splitOnce ':' key with
    | none => none
    | some (topic, partition) =>
      match parseUnsigned 32 partition, parseUnsigned 64 value with
      | some partition, some offset => some (String.ofList topic, partition, offset)
      | _, _ => none

/-! ## Loading -/

/-- The loop of `load` over the lines of one file. -/
def insertLines (groupId : String) (ls : List (List Char)) (offsets : Table OffsetKey Nat) :
    Table OffsetKey Nat :=
  ls.foldl (fun offsets line =>
    match parseLine line with
    | some (topic, partition, offset) => offsets.insert ⟨groupId, topic, partition⟩ offset
    | none => offsets) offsets

/-- The loop of `load` over the directory, whose entries come in the order of `listing`. -/
def loadLoop (d : Dir) : List Name → Table OffsetKey Nat →
    Except GaffaError Unit × Table OffsetKey Nat
  | [], offsets => (.ok (), offsets)
  | name :: names, offsets =>
    match d.get name, splitExtension name with
    | some bytes, (stem, some ext) =>
      if ext = extension then
        match readToString bytes with
        | none => (.error (.io "stream did not contain valid UTF-8"), offsets)
        | some contents =>
          loadLoop d names (insertLines (String.ofList stem) (lines contents) offsets)
      else loadLoop d names offsets
    | _, _ => loadLoop d names offsets

/-- `OffsetManager::load`. -/
def load (files : Files) (listing : List Name) (m : OffsetManager) :
    Except GaffaError Unit × OffsetManager :=
  let r := loadLoop (entries files m.dataDir) listing m.offsets
  (r.1, { m with offsets := r.2 })

/-! ## Committing -/

/-- The entries of a group. -/
def groupOffsets (groupId : String) (offsets : Table OffsetKey Nat) : Table OffsetKey Nat :=
  offsets.retain fun key _ => key.groupId = groupId

/-- The line that `persist_group` writes for a key. -/
def entryLine (offsets : Table OffsetKey Nat) (key : OffsetKey) : List Char :=
  match offsets.get key with
  | none => []
  | some offset => lineBody key offset ++ ['\n']

/-- What `persist_group` writes, with the entries in the order `order`. -/
def groupText (offsets : Table OffsetKey Nat) (order : List OffsetKey) : List Char :=
  order.flatMap (entryLine offsets)

/-- The answers of the file system to `persist_group` behind `File::create`: `write` is how many bytes
are written before a write fails, if one does, and its error. -/
structure PersistIo where
  write : Option (Nat × String)
  sync : Option String
  deriving DecidableEq, Repr

def PersistIo.done : PersistIo := ⟨none, none⟩

/-- A file handle takes a line in buffers of at most this size. -/
def maxBufSize : Nat := 2 * 1024 * 1024

/-- Where the last buffer of a line starts. -/
def lastBuffer (line : Bytes) : Nat := (line.length - 1) / maxBufSize * maxBufSize

/-- The loop of `persist_group` over the lines, and what of them is written.  `write_all` hands its
buffer to a task in the background, and the next buffer is told if that fails; nobody is told of the
last one. -/
def writeLines : Option (Nat × String) → List Bytes → Except GaffaError Unit × Bytes
  | _, [] => (.ok (), [])
  | none, line :: left =>
    let r := writeLines none left
    (r.1, line ++ r.2)
  | some (written, e), line :: left =>
    if written < line.length then
      (if left = [] ∧ lastBuffer line ≤ written then .ok () else .error (.io e), line.take written)
    else
      let r := writeLines (some (written - line.length, e)) left
      (r.1, line ++ r.2)

/-- `file.sync_all()`, which drops the error of a write before it. -/
def PersistIo.syncAll (io : PersistIo) : Except GaffaError Unit :=
  match io.sync with
  | some e => .error (.io e)
  | none => .ok ()

/-- `OffsetManager::persist_group`. -/
def persistGroup (os : Os) (io : PersistIo) (groupId : String) (order : List OffsetKey)
    (m : OffsetManager) (files : Files) : Except GaffaError Unit × Files :=
  match create os m.dataDir (fileName groupId) with
  | none => (.error (.io "the file cannot be created"), files)
  | some loc =>
    let r := writeLines io.write (order.map fun key => utf8 (entryLine m.offsets key))
    (r.1.bind fun _ => io.syncAll, files.insert loc r.2)

/-- The first half of `OffsetManager::commit_offset`. -/
def insertOffset (key : OffsetKey) (offset : Nat) (m : OffsetManager) : OffsetManager :=
  { m with offsets := m.offsets.insert key offset }

/-- `OffsetManager::commit_offset`. -/
def commitOffset (os : Os) (io : PersistIo) (key : OffsetKey) (offset : Nat)
    (order : List OffsetKey) (m : OffsetManager) (files : Files) :
    Except GaffaError Unit × OffsetManager × Files :=
  let m := m.insertOffset key offset
  let r := m.persistGroup os io key.groupId order files
  (r.1, m, r.2)

/-- `OffsetManager::fetch_offset`. -/
def fetchOffset (key : OffsetKey) (m : OffsetManager) : Option Nat := m.offsets.get key

/-- `OffsetManager::get_group_offsets`. -/
def getGroupOffsets (groupId : String) (m : OffsetManager) : Table (String × Nat) Nat where
  get k := m.offsets.get ⟨groupId, k.1, k.2⟩
  keys := (m.offsets.keys.filter fun key => key.groupId = groupId).image fun key =>
    (key.topic, key.partition)
  mem_keys k := by
    rw [← m.offsets.mem_keys]
    simp only [Finset.mem_image, Finset.mem_filter]
    constructor
    · rintro ⟨key, ⟨hkey, rfl⟩, rfl⟩
      exact hkey
    · intro h
      exact ⟨⟨groupId, k.1, k.2⟩, ⟨h, rfl⟩, rfl⟩

/-! ## What a commit writes -/

section Writing

variable {offsets : Table OffsetKey Nat} {order : List OffsetKey}

/-- As much of a text as is written before a write fails. -/
def PersistIo.kept (io : PersistIo) (bytes : Bytes) : Bytes :=
  match io.write with
  | none => bytes
  | some (written, _) => bytes.take written

theorem flatten_entryLines (offsets : Table OffsetKey Nat) (order : List OffsetKey) :
    (order.map fun key => utf8 (entryLine offsets key)).flatten = utf8 (groupText offsets order) := by
  induction order with
  | nil => rfl
  | cons key keys ih =>
    rw [List.map_cons, List.flatten_cons, ih, groupText, groupText, List.flatMap_cons, utf8_append]

theorem writeLines_none (lines : List Bytes) : writeLines none lines = (.ok (), lines.flatten) := by
  induction lines with
  | nil => rfl
  | cons line left ih => rw [writeLines, ih, List.flatten_cons]

theorem writeLines_some (written : Nat) (e : String) (lines : List Bytes) :
    (writeLines (some (written, e)) lines).2 = lines.flatten.take written := by
  induction lines generalizing written with
  | nil => simp [writeLines]
  | cons line left ih =>
    rw [writeLines, List.flatten_cons]
    split
    · rename_i hlt
      rw [List.take_append_of_le_length (Nat.le_of_lt hlt)]
    · rename_i hle
      simp only [ih, List.take_append, List.take_of_length_le (Nat.le_of_not_lt hle)]

/-- **A failing write goes unreported** only in the last buffer of the last line. -/
theorem writeLines_ok {written : Nat} {e : String} {lines : List Bytes}
    (h : (writeLines (some (written, e)) lines).1 = .ok ()) :
    lines.flatten.length ≤ written ∨ ∃ init line, lines = init ++ [line] ∧
      init.flatten.length + lastBuffer line ≤ written := by
  induction lines generalizing written with
  | nil => exact .inl (Nat.zero_le _)
  | cons line left ih =>
    rw [writeLines] at h
    split at h
    · split at h
      · rename_i hlast
        obtain ⟨rfl, hle⟩ := hlast
        exact .inr ⟨[], line, rfl, by simpa using hle⟩
      · cases h
    · rename_i hle
      rw [List.flatten_cons, List.length_append]
      rcases ih h with hall | ⟨init, last, rfl, hlast⟩
      · exact .inl (by omega)
      · refine .inr ⟨line :: init, last, rfl, ?_⟩
        rw [List.flatten_cons, List.length_append]
        omega

/-- **What `persist_group` does**: nothing, when the file cannot be created; else the file has as much
of the lines as was written, all of them if no write failed. -/
theorem persistGroup_cases (os : Os) (io : PersistIo) (groupId : String) (order : List OffsetKey)
    (m : OffsetManager) (files : Files) :
    (create os m.dataDir (fileName groupId) = none ∧
      m.persistGroup os io groupId order files =
        (.error (.io "the file cannot be created"), files)) ∨
    ∃ loc, create os m.dataDir (fileName groupId) = some loc ∧
      (m.persistGroup os io groupId order files).2 =
        files.insert loc (io.kept (utf8 (groupText m.offsets order))) ∧
      (io.write = none → (m.persistGroup os io groupId order files).1 = io.syncAll) := by
  unfold persistGroup
  cases hloc : create os m.dataDir (fileName groupId) with
  | none => exact .inl ⟨rfl, rfl⟩
  | some loc =>
    refine .inr ⟨loc, rfl, ?_, fun hwrite => by rw [hwrite, writeLines_none]; rfl⟩
    simp only
    unfold PersistIo.kept
    cases hwrite : io.write with
    | none => rw [writeLines_none, flatten_entryLines]
    | some failure => rw [writeLines_some, flatten_entryLines]

/-- What is kept of a text is a piece of it. -/
theorem PersistIo.kept_eq_take (io : PersistIo) (bytes : Bytes) :
    ∃ n, io.kept bytes = bytes.take n := by
  unfold PersistIo.kept
  split
  · exact ⟨bytes.length, List.take_length.symm⟩
  · exact ⟨_, rfl⟩

theorem PersistIo.kept_of_none {io : PersistIo} (h : io.write = none) (bytes : Bytes) :
    io.kept bytes = bytes := by
  rw [PersistIo.kept, h]

end Writing

/-! ## Reading lines back -/

/-- A topic name without a separator. -/
def PlainTopic (topic : String) : Prop :=
  '\n' ∉ topic.toList ∧ '=' ∉ topic.toList ∧ ':' ∉ topic.toList

/-- A group id that is a file name. -/
def PlainGroup (groupId : String) : Prop := groupId.toList ≠ [] ∧ '/' ∉ groupId.toList

instance (topic : String) : Decidable (PlainTopic topic) :=
  inferInstanceAs (Decidable (_ ∧ _))

instance (groupId : String) : Decidable (PlainGroup groupId) :=
  inferInstanceAs (Decidable (_ ∧ _))

section Lines

variable {key : OffsetKey} {offset : Nat}

theorem lineHead_eq (key : OffsetKey) (rest : List Char) :
    lineHead key ++ rest = (key.topic.toList ++ ':' :: digits key.partition) ++ '=' :: rest := by
  simp [lineHead]

theorem equals_not_mem (h : PlainTopic key.topic) :
    '=' ∉ key.topic.toList ++ ':' :: digits key.partition := by
  simp only [List.mem_append, List.mem_cons, not_or]
  exact ⟨h.2.1, by decide, not_mem_digits (by decide)⟩

/-- **A line**, as far as it was written: with some digits of the offset it is an entry. -/
theorem parseLine_head (h : PlainTopic key.topic) (hp : key.partition < 2 ^ 32)
    (value : List Char) :
    parseLine (lineHead key ++ value) =
      (parseUnsigned 64 value).map fun offset => (key.topic, key.partition, offset) := by
  unfold parseLine
  rw [lineHead_eq, splitOnce_append _ (equals_not_mem h)]
  simp only [splitOnce_append _ h.2.2, parseUnsigned_digits hp]
  cases parseUnsigned 64 value with
  | none => rfl
  | some offset => simp

theorem parseLine_body (h : PlainTopic key.topic) (hp : key.partition < 2 ^ 32)
    (ho : offset < 2 ^ 64) :
    parseLine (lineBody key offset) = some (key.topic, key.partition, offset) := by
  rw [lineBody, parseLine_head h hp, parseUnsigned_digits ho]
  rfl

theorem parseLine_without_equals {line : List Char} (h : '=' ∉ line) : parseLine line = none := by
  unfold parseLine
  rw [splitOnce_none h]

/-- The topic of an entry has no separator, whatever the line is. -/
theorem plainTopic_of_parseLine {line : List Char} {topic : String} {partition offset : Nat}
    (hline : '\n' ∉ line) (h : parseLine line = some (topic, partition, offset)) :
    PlainTopic topic := by
  unfold parseLine at h
  split at h
  · cases h
  rename_i head value hequals
  split at h
  · cases h
  rename_i name number hcolon
  split at h
  · cases h
    obtain ⟨rfl, hhead⟩ := splitOnce_some hequals
    obtain ⟨rfl, hname⟩ := splitOnce_some hcolon
    simp only [List.mem_append, List.mem_cons, not_or] at hline hhead
    simp only [PlainTopic, String.toList_ofList]
    exact ⟨hline.1.1, hhead.1, hname⟩
  · cases h

end Lines

/-! ## What a file spells -/

/-- The entries that `load` finds in a file. -/
def fileTable (groupId : String) (bytes : Bytes) : Table OffsetKey Nat :=
  match readToString bytes with
  | none => Table.empty
  | some contents => insertLines groupId (lines contents) Table.empty

section Tables

variable {groupId : String} {key : OffsetKey}

theorem insertLines_cons (line : List Char) (ls : List (List Char))
    (offsets : Table OffsetKey Nat) :
    insertLines groupId (line :: ls) offsets =
      insertLines groupId ls (insertLines groupId [line] offsets) := rfl

theorem get_insertLines_singleton (line : List Char) (offsets : Table OffsetKey Nat)
    (key : OffsetKey) :
    (insertLines groupId [line] offsets).get key =
      ((insertLines groupId [line] Table.empty).get key).or (offsets.get key) := by
  simp only [insertLines, List.foldl_cons, List.foldl_nil]
  split
  · simp only [Table.get_insert]
    split <;> rfl
  · rfl

/-- The entries of the lines hide those that were there. -/
theorem get_insertLines (ls : List (List Char)) (offsets : Table OffsetKey Nat)
    (key : OffsetKey) :
    (insertLines groupId ls offsets).get key =
      ((insertLines groupId ls Table.empty).get key).or (offsets.get key) := by
  induction ls generalizing offsets with
  | nil => rfl
  | cons line ls ih =>
    rw [insertLines_cons, ih, insertLines_cons line ls Table.empty,
      ih (insertLines groupId [line] Table.empty), get_insertLines_singleton line offsets,
      Option.or_assoc]

theorem entry_of_insertLines {ls : List (List Char)} {offset : Nat}
    (h : (insertLines groupId ls Table.empty).get key = some offset) :
    key.groupId = groupId ∧ ∃ line ∈ ls, parseLine line = some (key.topic, key.partition, offset) := by
  induction ls with
  | nil => cases h
  | cons line ls ih =>
    rw [insertLines_cons, get_insertLines, Option.or_eq_some_iff] at h
    rcases h with h | ⟨-, h⟩
    · obtain ⟨hgroup, l, hl, hparse⟩ := ih h
      exact ⟨hgroup, l, List.mem_cons_of_mem _ hl, hparse⟩
    · simp only [insertLines, List.foldl_cons, List.foldl_nil] at h
      split at h
      · rename_i topic partition v hparse
        rw [Table.get_insert] at h
        split at h
        · rename_i hkey
          cases h
          subst hkey
          exact ⟨rfl, line, List.mem_cons_self .., hparse⟩
        · cases h
      · cases h

theorem insertLines_other {ls : List (List Char)} {offsets : Table OffsetKey Nat}
    (h : key.groupId ≠ groupId) : (insertLines groupId ls offsets).get key = offsets.get key := by
  rw [get_insertLines]
  cases hget : (insertLines groupId ls Table.empty).get key with
  | none => rfl
  | some offset => exact absurd (entry_of_insertLines hget).1 h

theorem splitExtension_fileName (h : groupId.toList ≠ []) :
    splitExtension (fileName groupId) = (groupId.toList, some extension) :=
  splitExtension_append h (by decide)

/-- The files that `load` reads are those of some group. -/
theorem eq_fileName {name stem : Name} (h : splitExtension name = (stem, some extension)) :
    name = fileName (String.ofList stem) ∧ stem ≠ [] := by
  obtain ⟨hname, hstem⟩ := splitExtension_some h
  refine ⟨?_, hstem⟩
  rw [fileName, String.toList_ofList]
  exact hname

/-- The files of the other groups are text. -/
def OthersRead (d : Dir) (groupId : String) : Prop :=
  ∀ name bytes stem, d.get name = some bytes → splitExtension name = (stem, some extension) →
    name ≠ fileName groupId → ∃ contents, readToString bytes = some contents

/-- One round of the loop: a file of offsets is read, or ends the load, and any other entry is
passed over. -/
theorem loadLoop_cons (d : Dir) (name : Name) (names : List Name) (offsets : Table OffsetKey Nat) :
    (∃ bytes stem contents, d.get name = some bytes ∧
        splitExtension name = (stem, some extension) ∧ readToString bytes = some contents ∧
        loadLoop d (name :: names) offsets =
          loadLoop d names (insertLines (String.ofList stem) (lines contents) offsets)) ∨
      (∃ bytes stem, d.get name = some bytes ∧ splitExtension name = (stem, some extension) ∧
        readToString bytes = none ∧
        loadLoop d (name :: names) offsets =
          (.error (.io "stream did not contain valid UTF-8"), offsets)) ∨
      ((∀ bytes stem, d.get name = some bytes → splitExtension name ≠ (stem, some extension)) ∧
        loadLoop d (name :: names) offsets = loadLoop d names offsets) := by
  rw [loadLoop]
  split
  · rename_i bytes stem ext hget hsplit
    by_cases hext : ext = extension
    · subst hext
      rw [if_pos rfl]
      cases hread : readToString bytes with
      | none => exact Or.inr (Or.inl ⟨bytes, stem, hget, hsplit, hread, rfl⟩)
      | some contents => exact Or.inl ⟨bytes, stem, contents, hget, hsplit, hread, rfl⟩
    · rw [if_neg hext]
      refine Or.inr (Or.inr ⟨fun _ stem' _ hsplit' => hext ?_, rfl⟩)
      exact Option.some_inj.1 (congrArg Prod.snd (hsplit.symm.trans hsplit'))
  · rename_i hother
    exact Or.inr (Or.inr ⟨fun bytes stem hget hsplit => hother bytes stem _ hget hsplit, rfl⟩)

theorem get_loadLoop {d : Dir} (hgroup : key.groupId.toList ≠ [])
    (hothers : OthersRead d key.groupId) {names : List Name} (hnodup : names.Nodup)
    (offsets : Table OffsetKey Nat) :
    (loadLoop d names offsets).2.get key =
      if fileName key.groupId ∈ names then
        ((d.get (fileName key.groupId)).bind fun bytes =>
          (fileTable key.groupId bytes).get key).or (offsets.get key)
      else offsets.get key := by
  induction names generalizing offsets with
  | nil => rfl
  | cons name names ih =>
    obtain ⟨hname, hrest⟩ := List.nodup_cons.1 hnodup
    by_cases hfile : name = fileName key.groupId
    · subst hfile
      rw [if_pos (List.mem_cons_self ..), loadLoop, splitExtension_fileName hgroup]
      cases hget : d.get (fileName key.groupId) with
      | none =>
        simp only [ih hrest, if_neg hname]
        rfl
      | some bytes =>
        simp only [Option.bind_some, if_true, fileTable]
        cases hread : readToString bytes with
        | none => rfl
        | some contents =>
          simp only [ih hrest, if_neg hname, String.ofList_toList]
          exact get_insertLines ..
    · have hmem : fileName key.groupId ∈ name :: names ↔ fileName key.groupId ∈ names := by
        simp [Ne.symm hfile]
      simp only [hmem]
      rcases loadLoop_cons d name names offsets with
        ⟨bytes, stem, contents, hget, hsplit, hread, hloop⟩ | ⟨bytes, stem, hget, hsplit, hread, -⟩ |
        ⟨-, hloop⟩
      · have hstem : key.groupId ≠ String.ofList stem := by
          intro heq
          exact hfile (by rw [heq]; exact (eq_fileName hsplit).1)
        simp only [hloop, ih hrest, insertLines_other hstem]
      · obtain ⟨contents, htext⟩ := hothers name bytes stem hget hsplit hfile
        rw [hread] at htext
        cases htext
      · rw [hloop]
        exact ih hrest offsets

/-- **A load** finds the entries that the file of the group spells. -/
theorem get_load {files : Files} {dataDir : Location} {listing : List Name}
    (hgroup : key.groupId.toList ≠ []) (hothers : OthersRead (entries files dataDir) key.groupId)
    (hlisting : (entries files dataDir).Order listing) :
    (load files listing (new dataDir)).2.fetchOffset key =
      (files.get (dataDir ++ [fileName key.groupId])).bind fun bytes =>
        (fileTable key.groupId bytes).get key := by
  simp only [load, fetchOffset, new, get_loadLoop hgroup hothers hlisting.nodup, get_entries,
    Table.get_empty, Option.or_none]
  split
  · rfl
  · rename_i hmem
    rw [hlisting.mem, Table.not_mem_keys_iff, get_entries] at hmem
    rw [hmem]
    rfl

/-- Whatever a directory holds, the keys that a load finds have plain names. -/
theorem plain_of_loadLoop {d : Dir} {names : List Name} {offsets : Table OffsetKey Nat}
    {offset : Nat} (hslash : ∀ name bytes, d.get name = some bytes → '/' ∉ name)
    (h : (loadLoop d names offsets).2.get key = some offset) :
    offsets.get key = some offset ∨ (PlainGroup key.groupId ∧ PlainTopic key.topic) := by
  induction names generalizing offsets with
  | nil => exact Or.inl h
  | cons name names ih =>
    rcases loadLoop_cons d name names offsets with
      ⟨bytes, stem, contents, hget, hsplit, -, hloop⟩ | ⟨bytes, stem, -, -, -, hloop⟩ | ⟨-, hloop⟩
    · rw [hloop] at h
      rcases ih h with h | h
      · rw [get_insertLines, Option.or_eq_some_iff] at h
        rcases h with h | ⟨-, h⟩
        · obtain ⟨hgroup, line, hline, hparse⟩ := entry_of_insertLines h
          obtain ⟨hname, hstem⟩ := splitExtension_some hsplit
          refine Or.inr ⟨?_, plainTopic_of_parseLine (newline_not_mem_lines line hline) hparse⟩
          rw [hgroup, PlainGroup, String.toList_ofList]
          refine ⟨hstem, ?_⟩
          have := hslash name bytes hget
          rw [hname, List.mem_append, not_or] at this
          exact this.1
        · exact Or.inl h
      · exact Or.inr h
    · rw [hloop] at h
      exact Or.inl h
    · rw [hloop] at h
      exact ih h

end Tables

/-! ## Files that were written whole -/

/-- The entries of the keys have the types of the wire protocol and plain topics. -/
def Writable (offsets : Table OffsetKey Nat) : Prop :=
  ∀ key offset, offsets.get key = some offset →
    PlainTopic key.topic ∧ key.partition < 2 ^ 32 ∧ offset < 2 ^ 64

section Whole

variable {offsets : Table OffsetKey Nat} {groupId : String} {key : OffsetKey}

/-- The line of an entry, before the line break. -/
def entryBody (offsets : Table OffsetKey Nat) (key : OffsetKey) : List Char :=
  match offsets.get key with
  | none => []
  | some offset => lineBody key offset

theorem newline_not_mem_lineBody {offset : Nat} (h : PlainTopic key.topic) :
    '\n' ∉ lineBody key offset := by
  simp only [lineBody, lineHead, List.mem_append, List.mem_cons, List.not_mem_nil, or_false, not_or]
  exact ⟨⟨⟨h.1, by decide, not_mem_digits (by decide)⟩, by decide⟩, not_mem_digits (by decide)⟩

theorem getLast?_lineBody {offset : Nat} : (lineBody key offset).getLast? ≠ some '\r' := by
  intro h
  rw [lineBody, List.getLast?_append_of_ne_nil _ (digits_ne_nil offset)] at h
  exact not_mem_digits (by decide) (List.mem_of_getLast? h)

theorem groupText_eq {keys : List OffsetKey} (h : ∀ k ∈ keys, ∃ o, offsets.get k = some o) :
    groupText offsets keys = (keys.map (entryBody offsets)).flatMap (· ++ ['\n']) := by
  rw [groupText, List.flatMap_map]
  apply List.flatMap_congr
  intro k hk
  obtain ⟨o, ho⟩ := h k hk
  simp only [entryLine, entryBody, ho]

/-- **Lines** that were written, and what stands behind the last line break. -/
theorem lines_groupText (hw : Writable offsets) {keys : List OffsetKey} (rest : List Char)
    (h : ∀ k ∈ keys, ∃ o, offsets.get k = some o) (hrest : '\n' ∉ rest) :
    lines (groupText offsets keys ++ rest) =
      keys.map (entryBody offsets) ++ if rest = [] then [] else [rest] := by
  rw [groupText_eq h]
  apply lines_unlines ?_ hrest
  intro l hl
  obtain ⟨k, hk, rfl⟩ := List.mem_map.1 hl
  obtain ⟨o, ho⟩ := h k hk
  simp only [entryBody, ho]
  exact ⟨newline_not_mem_lineBody (hw k o ho).1, getLast?_lineBody⟩

/-- The entries of whole lines. -/
theorem insertLines_bodies (hw : Writable offsets) {keys : List OffsetKey}
    (h : ∀ k ∈ keys, k.groupId = groupId ∧ ∃ o, offsets.get k = some o)
    (before : Table OffsetKey Nat) (key : OffsetKey) :
    (insertLines groupId (keys.map (entryBody offsets)) before).get key =
      if key ∈ keys then offsets.get key else before.get key := by
  induction keys generalizing before with
  | nil => rfl
  | cons k keys ih =>
    obtain ⟨⟨hgroup, o, ho⟩, hkeys⟩ := List.forall_mem_cons.1 h
    obtain ⟨htopic, hpartition, hoffset⟩ := hw k o ho
    have hline : insertLines groupId [entryBody offsets k] before = before.insert k o := by
      simp only [insertLines, List.foldl_cons, List.foldl_nil, entryBody, ho,
        parseLine_body htopic hpartition hoffset]
      rw [← hgroup]
    rw [List.map_cons, insertLines_cons, hline, ih hkeys]
    simp only [Table.get_insert, List.mem_cons]
    by_cases hkey : key = k
    · subst hkey
      simp [ho]
    · simp [hkey]

theorem mem_groupOffsets {order : List OffsetKey} (h : (groupOffsets groupId offsets).Order order)
    (k : OffsetKey) : k ∈ order ↔ k.groupId = groupId ∧ ∃ o, offsets.get k = some o := by
  rw [h.mem, Table.mem_keys_iff]
  simp only [groupOffsets, Table.get_retain, Option.filter_eq_some_iff, decide_eq_true_eq]
  constructor
  · rintro ⟨o, ho, hk⟩
    exact ⟨hk, o, ho⟩
  · rintro ⟨hk, o, ho⟩
    exact ⟨o, ho, hk⟩

/-- **A whole file** spells the entries of its group. -/
theorem fileTable_groupText (hw : Writable offsets) {order : List OffsetKey}
    (h : (groupOffsets groupId offsets).Order order) (hkey : key.groupId = groupId) :
    (fileTable groupId (utf8 (groupText offsets order))).get key = offsets.get key := by
  have hmem := mem_groupOffsets h
  have hlines := lines_groupText hw [] (fun k hk => ((hmem k).1 hk).2) List.not_mem_nil
  simp only [List.append_nil, if_true] at hlines
  rw [fileTable, readToString_utf8]
  simp only
  rw [hlines, insertLines_bodies hw (fun k hk => (hmem k).1 hk)]
  split
  · rfl
  · rename_i hnot
    rw [hmem, not_and, not_exists] at hnot
    rw [Table.get_empty, Eq.comm, Option.eq_none_iff_forall_ne_some]
    exact hnot hkey

end Whole

end OffsetManager

end Gaffa
