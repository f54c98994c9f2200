import Gaffa.Broker.TornCommit

/-!
# Rejected commits

`commit_offset` of `broker/src/offset_manager.rs` inserts the entry into the map and rewrites the file
of the group.  When the file cannot be created, a line cannot be written or the sync fails, it
returns `Err`, and neither is undone.

* `rejected_commit_iff`: exactly when nothing of such a commit is seen, in the manager or in a new
  one.
-/

set_option autoImplicit false

namespace Gaffa

open ByteString FileSystem Text OffsetManager

/-! ## What is seen of a commit -/

/-- A commit that returns `Err`.  What is left of the file is what a crash would leave: no file was
created, or some of the bytes are written, all of them when only the sync fails. -/
def OffsetStore.reject (os : Os) (s : OffsetStore) (c : Commit) (order : List OffsetKey)
    (point : CrashPoint) : Option OffsetStore :=
  (crashFiles os s c order point).map fun files =>
    ⟨s.manager.insertOffset c.key c.offset, files⟩

/-- Two managers give the same answers. -/
def OffsetManager.SameAnswers (m m' : OffsetManager) : Prop :=
  (∀ key, m.fetchOffset key = m'.fetchOffset key) ∧
    ∀ groupId, m.getGroupOffsets groupId = m'.getGroupOffsets groupId

/-- Nothing is seen of what happened: the manager gives the same answers as before, and so does a new
one after a load, which returns what it would have returned before, however the directory is
listed. -/
structure NoEffect (s t : OffsetStore) : Prop where
  answers : t.manager.SameAnswers s.manager
  fresh : ∀ listing, (entries t.files s.manager.dataDir).Order listing →
    (load t.files listing (new s.manager.dataDir)).1 =
        (load s.files listing (new s.manager.dataDir)).1 ∧
      SameAnswers (load t.files listing (new s.manager.dataDir)).2
        (load s.files listing (new s.manager.dataDir)).2

/-- What a load makes of the file of a group: nothing changes if there is none, and it fails if it is
no text. -/
def OffsetManager.readFile (groupId : String) (offsets : Table OffsetKey Nat) :
    Option Bytes → Option (Table OffsetKey Nat)
  | none => some offsets
  | some bytes => (readToString bytes).map fun contents =>
      insertLines groupId (lines contents) offsets

/-- The file at the location is none that a load reads, or it reads of the new content what it read
of the old one. -/
def ReadsAlike (dataDir : Location) (files : Files) (loc : Location) (bytes : Bytes) : Prop :=
  ∀ name stem, loc = dataDir ++ [name] → splitExtension name = (stem, some extension) →
    readFile (String.ofList stem) Table.empty (some bytes) =
      readFile (String.ofList stem) Table.empty (files.get loc)

/-- A load does not notice what a commit has done to its file. -/
def Unnoticed (os : Os) (s : OffsetStore) (c : Commit) (order : List OffsetKey) :
    CrashPoint → Prop
  | .beforeCreate => True
  | .written n => ∀ loc, create os s.manager.dataDir (fileName c.key.groupId) = some loc →
      ReadsAlike s.manager.dataDir s.files loc ((c.bytes s.manager.offsets order).take n)

/-- The file was not created, or it lacks at most the last of its bytes. -/
def CrashPoint.Whole (total : Nat) : CrashPoint → Prop
  | .beforeCreate => True
  | .written n => total ≤ n + 1

instance (total : Nat) : DecidablePred (CrashPoint.Whole total) := fun point => by
  unfold CrashPoint.Whole
  split <;> infer_instance

/-- The files of offsets can be loaded. -/
structure OffsetStore.Loadable (s : OffsetStore) : Prop where
  names : ∀ name bytes, s.files.get (s.manager.dataDir ++ [name]) = some bytes → '/' ∉ name
  text : ∀ name bytes stem, s.files.get (s.manager.dataDir ++ [name]) = some bytes →
    splitExtension name = (stem, some extension) → ∃ contents, readToString bytes = some contents

/-- A new manager finds the entries of the group that are in memory. -/
def OffsetStore.Stored (s : OffsetStore) (groupId : String) : Prop :=
  ∀ listing, (entries s.files s.manager.dataDir).Order listing →
    ∀ key : OffsetKey, key.groupId = groupId →
      (load s.files listing (new s.manager.dataDir)).2.fetchOffset key = s.manager.fetchOffset key

/-! ## Loading with one file changed -/

section Reading

variable {groupId : String} {key : OffsetKey} {d d' : Dir}

theorem sameAnswers_iff {m m' : OffsetManager} :
    m.SameAnswers m' ↔ ∀ key, m.fetchOffset key = m'.fetchOffset key := by
  refine ⟨And.left, fun h => ⟨h, fun groupId => ?_⟩⟩
  ext1 k
  exact h ⟨groupId, k.1, k.2⟩

/-- An entry that a load finds is one of the file, or was there before. -/
theorem get_readFile {file : Option Bytes} {offsets found : Table OffsetKey Nat}
    (h : readFile groupId offsets file = some found) (key : OffsetKey) :
    found.get key =
      (file.bind fun bytes => (fileTable groupId bytes).get key).or (offsets.get key) := by
  cases file with
  | none =>
    cases h
    rfl
  | some bytes =>
    obtain ⟨contents, hread, rfl⟩ := Option.map_eq_some_iff.1 h
    rw [get_insertLines, Option.bind_some, fileTable, hread]

theorem fileTable_other {bytes : Bytes} (h : key.groupId ≠ groupId) :
    (fileTable groupId bytes).get key = none := by
  rw [fileTable]
  split
  · rfl
  · exact insertLines_other h

theorem readFile_of_text {bytes : Bytes} {contents : List Char}
    (h : readToString bytes = some contents) :
    readFile groupId Table.empty (some bytes) = some (fileTable groupId bytes) := by
  simp only [readFile, fileTable, h, Option.map_some]

theorem readFile_eq_none_iff {file : Option Bytes} {offsets : Table OffsetKey Nat} :
    readFile groupId offsets file = none ↔
      ∃ bytes, file = some bytes ∧ readToString bytes = none := by
  cases file <;> simp [readFile]

/-- Files are alike when the same of them is text, and they spell the same entries. -/
theorem readFile_eq_iff {file file' : Option Bytes} {offsets : Table OffsetKey Nat}
    {found : Table OffsetKey Nat} (h : readFile groupId offsets file = some found) :
    readFile groupId offsets file = readFile groupId offsets file' ↔
      readFile groupId offsets file' ≠ none ∧
        ∀ key, ((file.bind fun bytes => (fileTable groupId bytes).get key).or (offsets.get key)) =
          (file'.bind fun bytes => (fileTable groupId bytes).get key).or (offsets.get key) := by
  rw [h]
  constructor
  · intro h'
    refine ⟨by rw [← h']; exact Option.some_ne_none found, fun key => ?_⟩
    rw [← get_readFile h, get_readFile h'.symm]
  · rintro ⟨hne, hkeys⟩
    obtain ⟨found', h'⟩ := Option.ne_none_iff_exists'.1 hne
    rw [h']
    congr 1
    ext1 key
    rw [get_readFile h, get_readFile h', hkeys]

/-- Files that are alike for a new manager are so for any. -/
theorem readFile_congr {file file' : Option Bytes} (offsets : Table OffsetKey Nat)
    (h : readFile groupId Table.empty file = readFile groupId Table.empty file') :
    readFile groupId offsets file = readFile groupId offsets file' := by
  have hnone : ∀ {file'' : Option Bytes}, readFile groupId offsets file'' = none ↔
      readFile groupId Table.empty file'' = none := by
    intro file''
    rw [readFile_eq_none_iff, readFile_eq_none_iff]
  cases hfound : readFile groupId offsets file with
  | none => rw [Eq.comm, hnone, ← h, ← hnone, hfound]
  | some found =>
    obtain ⟨entries, hentries⟩ := Option.ne_none_iff_exists'.1 fun hempty =>
      Option.some_ne_none found (hfound.symm.trans (hnone.2 hempty))
    obtain ⟨hne, hkeys⟩ := (readFile_eq_iff hentries).1 h
    rw [← hfound, readFile_eq_iff hfound]
    refine ⟨fun hempty => hne (hnone.1 hempty), fun key => ?_⟩
    have hkey := hkeys key
    rw [Table.get_empty, Option.or_none, Option.or_none] at hkey
    rw [hkey]

/-- The loop over one more file. -/
theorem loadLoop_read {name stem : Name} {names : List Name} {offsets : Table OffsetKey Nat}
    (hsplit : splitExtension name = (stem, some extension)) :
    loadLoop d (name :: names) offsets =
      match readFile (String.ofList stem) offsets (d.get name) with
      | none => (.error (.io "stream did not contain valid UTF-8"), offsets)
      | some offsets => loadLoop d names offsets := by
  rw [loadLoop, hsplit]
  cases d.get name with
  | none => rfl
  | some bytes =>
    simp only [if_true, readFile]
    cases readToString bytes <;> rfl

/-- The loop over a file that is none of offsets. -/
theorem loadLoop_skip {name : Name} {names : List Name} {offsets : Table OffsetKey Nat}
    (hext : (splitExtension name).2 ≠ some extension) :
    loadLoop d (name :: names) offsets = loadLoop d names offsets := by
  rcases loadLoop_cons d name names offsets with
    ⟨_, _, _, -, hsplit, -⟩ | ⟨_, _, -, hsplit, -⟩ | ⟨-, hloop⟩
  · exact absurd (congrArg Prod.snd hsplit) hext
  · exact absurd (congrArg Prod.snd hsplit) hext
  · exact hloop

/-- **A load** depends on what it reads of each file of offsets. -/
theorem loadLoop_congr (h : ∀ name stem, splitExtension name = (stem, some extension) →
      readFile (String.ofList stem) Table.empty (d.get name) =
        readFile (String.ofList stem) Table.empty (d'.get name))
    (names : List Name) (offsets : Table OffsetKey Nat) :
    loadLoop d names offsets = loadLoop d' names offsets := by
  induction names generalizing offsets with
  | nil => rfl
  | cons name names ih =>
    by_cases hext : (splitExtension name).2 = some extension
    · have hsplit : splitExtension name = ((splitExtension name).1, some extension) :=
        Prod.ext rfl hext
      rw [loadLoop_read hsplit, loadLoop_read hsplit, readFile_congr offsets (h name _ hsplit)]
      split
      · rfl
      · exact ih _
    · rw [loadLoop_skip hext, loadLoop_skip hext]
      exact ih offsets

/-- A load that returns `Ok` has read all files. -/
theorem text_of_loadLoop {names : List Name} {offsets : Table OffsetKey Nat}
    (h : (loadLoop d names offsets).1 = .ok ()) {name stem : Name} (hname : name ∈ names)
    (hsplit : splitExtension name = (stem, some extension)) {bytes : Bytes}
    (hget : d.get name = some bytes) : ∃ contents, readToString bytes = some contents := by
  induction names generalizing offsets with
  | nil => cases hname
  | cons first names ih =>
    rcases List.mem_cons.1 hname with rfl | hname
    · rw [loadLoop_read hsplit, hget] at h
      cases hread : readToString bytes with
      | none =>
        simp only [readFile, hread] at h
        cases h
      | some contents => exact ⟨contents, rfl⟩
    · by_cases hext : (splitExtension first).2 = some extension
      · have hfirst : splitExtension first = ((splitExtension first).1, some extension) :=
          Prod.ext rfl hext
        rw [loadLoop_read hfirst] at h
        split at h
        · cases h
        · exact ih h hname
      · rw [loadLoop_skip hext] at h
        exact ih h hname

end Reading

/-! ## Rejections -/

section Reject

variable {os : Os} {s t : OffsetStore} {c : Commit} {order : List OffsetKey} {point : CrashPoint}

/-- What a rejected commit leaves. -/
theorem reject_cases (h : s.reject os c order point = some t) :
    t.manager = s.manager.insertOffset c.key c.offset ∧
      ((point = .beforeCreate ∧ t.files = s.files) ∨
        ∃ n loc, point = .written n ∧
          create os s.manager.dataDir (fileName c.key.groupId) = some loc ∧
          t.files = s.files.insert loc ((c.bytes s.manager.offsets order).take n)) := by
  obtain ⟨files, hfiles, rfl⟩ := Option.map_eq_some_iff.1 h
  refine ⟨rfl, ?_⟩
  cases point with
  | beforeCreate =>
    cases hfiles
    exact Or.inl ⟨rfl, rfl⟩
  | written n =>
    obtain ⟨loc, hloc, rfl⟩ := Option.map_eq_some_iff.1 hfiles
    exact Or.inr ⟨n, loc, rfl, hloc, rfl⟩

/-- **Every commit that returns `Err`** is rejected at some point. -/
theorem reject_of_commitOffset {io : PersistIo} {e : GaffaError} {m : OffsetManager} {files : Files}
    (h : s.manager.commitOffset os io c.key c.offset order s.files = (.error e, m, files)) :
    ∃ point, s.reject os c order point = some ⟨m, files⟩ := by
  simp only [commitOffset, Prod.mk.injEq] at h
  obtain ⟨-, rfl, rfl⟩ := h
  rcases persistGroup_cases os io c.key.groupId order (s.manager.insertOffset c.key c.offset)
    s.files with ⟨-, hnone⟩ | ⟨loc, hloc, hfiles, -⟩
  · exact ⟨.beforeCreate, by rw [hnone]; rfl⟩
  · obtain ⟨n, hn⟩ := io.kept_eq_take (c.bytes s.manager.offsets order)
    refine ⟨.written n, ?_⟩
    have hloc' : create os s.manager.dataDir (fileName c.key.groupId) = some loc := hloc
    rw [OffsetStore.reject, crashFiles, hloc', Option.map_some, Option.map_some, hfiles, ← hn]
    rfl

/-- **In memory** nothing is seen of the commit if the key has this offset already. -/
theorem sameAnswers_insertOffset_iff {m : OffsetManager} {key : OffsetKey} {offset : Nat} :
    (m.insertOffset key offset).SameAnswers m ↔ m.fetchOffset key = some offset := by
  rw [sameAnswers_iff]
  constructor
  · intro h
    rw [← h key]
    exact Table.get_insert_self ..
  · intro h key'
    show (m.offsets.insert key offset).get key' = m.offsets.get key'
    rw [Table.get_insert]
    split
    · rename_i heq
      rw [heq]
      exact h.symm
    · rfl

/-- A file that can be loaded is read. -/
theorem OffsetStore.Loadable.readFile_ne_none (h : s.Loadable) {name stem : Name}
    (hsplit : splitExtension name = (stem, some extension)) (groupId : String) :
    readFile groupId Table.empty (s.files.get (s.manager.dataDir ++ [name])) ≠ none := by
  rw [ne_eq, readFile_eq_none_iff]
  rintro ⟨bytes, hget, hnone⟩
  obtain ⟨contents, hread⟩ := h.text name bytes stem hget hsplit
  rw [hnone] at hread
  cases hread

/-- A file that a load reads as before is not noticed. -/
theorem ReadsAlike.load_eq {dataDir loc : Location} {files : Files} {bytes : Bytes}
    (h : ReadsAlike dataDir files loc bytes) (listing : List Name) :
    load (files.insert loc bytes) listing (new dataDir) = load files listing (new dataDir) := by
  have hloop : loadLoop (entries (files.insert loc bytes) dataDir) listing Table.empty =
      loadLoop (entries files dataDir) listing Table.empty := by
    apply loadLoop_congr
    intro name stem hsplit
    rw [get_entries, get_entries, Table.get_insert]
    split
    · rename_i heq
      rw [heq]
      exact h name stem heq.symm hsplit
    · rfl
  simp only [load, new, hloop]

/-- **On disk**: if a load gives the same answers, it reads of the file what it read before. -/
theorem readsAlike_of_load (hload : s.Loadable) {loc : Location} {bytes : Bytes}
    (h : ∀ listing, (entries (s.files.insert loc bytes) s.manager.dataDir).Order listing →
      (load (s.files.insert loc bytes) listing (new s.manager.dataDir)).1 =
          (load s.files listing (new s.manager.dataDir)).1 ∧
        ∀ key, (load (s.files.insert loc bytes) listing (new s.manager.dataDir)).2.fetchOffset key =
          (load s.files listing (new s.manager.dataDir)).2.fetchOffset key) :
    ReadsAlike s.manager.dataDir s.files loc bytes := by
  rintro name stem rfl hsplit
  obtain ⟨hname, hstem⟩ := eq_fileName hsplit
  obtain ⟨listing, hlisting⟩ :=
    (entries (s.files.insert (s.manager.dataDir ++ [name]) bytes) s.manager.dataDir).exists_order
  obtain ⟨hresult, hfetch⟩ := h listing hlisting
  have hmem : name ∈ listing := by
    rw [hlisting.mem_iff]
    exact ⟨bytes, by rw [get_entries, Table.get_insert_self]⟩
  -- the load of the old files returns `Ok`, so the new content is text
  have hok : (loadLoop (entries s.files s.manager.dataDir) listing Table.empty).1 = .ok () :=
    loadLoop_ok hload.text listing _
  obtain ⟨contents, hread⟩ : ∃ contents, readToString bytes = some contents := by
    exact text_of_loadLoop (hresult.trans hok) hmem hsplit (Table.get_insert_self ..)
  refine (readFile_eq_iff (readFile_of_text hread)).2 ⟨hload.readFile_ne_none hsplit _, fun key => ?_⟩
  rw [Table.get_empty, Option.or_none, Option.or_none]
  by_cases hkey : key.groupId = String.ofList stem
  · have hgroup : key.groupId.toList ≠ [] := by
      rw [hkey, String.toList_ofList]
      exact hstem
    have hothers : OthersRead (entries s.files s.manager.dataDir) key.groupId :=
      fun name bytes stem hget hsplit _ => hload.text name bytes stem hget hsplit
    have hothers' : OthersRead (entries (s.files.insert (s.manager.dataDir ++ [name]) bytes)
        s.manager.dataDir) key.groupId := by
      intro name' bytes' stem' hget hsplit' hne
      rw [hkey, ← hname] at hne
      rw [entries_insert, Table.get_insert_ne _ hne] at hget
      exact hload.text name' bytes' stem' hget hsplit'
    have hboth := hfetch key
    simp only [load, fetchOffset, new, get_loadLoop hgroup hothers hlisting.nodup,
      get_loadLoop hgroup hothers' hlisting.nodup, hkey, ← hname, if_pos hmem, get_entries,
      Table.get_insert_self, Table.get_empty, Option.or_none] at hboth
    exact hboth
  · simp only [fileTable_other hkey, Option.bind_fun_none]

/-- **What is seen of a rejected commit**, in memory and on disk. -/
theorem noEffect_iff (hreject : s.reject os c order point = some t)
    (hload : point ≠ .beforeCreate → s.Loadable) :
    NoEffect s t ↔ s.manager.fetchOffset c.key = some c.offset ∧ Unnoticed os s c order point := by
  obtain ⟨hmanager, ⟨rfl, hfiles⟩ | ⟨n, loc, rfl, hloc, hfiles⟩⟩ := reject_cases hreject
  · constructor
    · intro h
      have hanswers := h.answers
      rw [hmanager] at hanswers
      exact ⟨sameAnswers_insertOffset_iff.1 hanswers, trivial⟩
    · rintro ⟨hmemory, -⟩
      refine ⟨by rw [hmanager]; exact sameAnswers_insertOffset_iff.2 hmemory, fun listing _ => ?_⟩
      rw [hfiles]
      exact ⟨rfl, sameAnswers_iff.2 fun _ => rfl⟩
  · have hunnoticed : Unnoticed os s c order (.written n) ↔ ReadsAlike s.manager.dataDir s.files loc
        ((c.bytes s.manager.offsets order).take n) := by
      constructor
      · intro h
        exact h loc hloc
      · intro h loc' hloc'
        obtain rfl := Option.some_inj.1 (hloc.symm.trans hloc')
        exact h
    rw [hunnoticed]
    constructor
    · intro h
      have hanswers := h.answers
      rw [hmanager] at hanswers
      refine ⟨sameAnswers_insertOffset_iff.1 hanswers, ?_⟩
      apply readsAlike_of_load (hload (by simp))
      intro listing hlisting
      have hfresh := h.fresh listing (by rw [hfiles]; exact hlisting)
      rw [hfiles] at hfresh
      exact ⟨hfresh.1, sameAnswers_iff.1 hfresh.2⟩
    · rintro ⟨hmemory, halike⟩
      refine ⟨by rw [hmanager]; exact sameAnswers_insertOffset_iff.2 hmemory, fun listing _ => ?_⟩
      rw [hfiles, halike.load_eq]
      exact ⟨rfl, sameAnswers_iff.2 fun _ => rfl⟩

end Reject

/-! ## Where the file held what is in memory -/

section Stored

variable {os : Os} {s : OffsetStore} {c : Commit} {order : List OffsetKey} {n : Nat}

theorem lt_of_parseUnsigned {w n : Nat} {ds : List Char} (h : parseUnsigned w ds = some n) :
    n < 2 ^ w := by
  unfold parseUnsigned at h
  obtain ⟨⟨-, -, hlt⟩, h⟩ := Option.ite_none_right_eq_some.1 h
  exact Option.some_inj.1 h ▸ hlt

/-- The numbers of an entry fit their types. -/
theorem bounds_of_parseLine {line : List Char} {topic : String} {partition offset : Nat}
    (h : parseLine line = some (topic, partition, offset)) :
    partition < 2 ^ 32 ∧ offset < 2 ^ 64 := by
  unfold parseLine at h
  split at h
  · cases h
  split at h
  · cases h
  split at h
  · rename_i hpartition hoffset
    cases h
    exact ⟨lt_of_parseUnsigned hpartition, lt_of_parseUnsigned hoffset⟩
  · cases h

/-- Whatever a file spells can be written again. -/
theorem writable_fileTable (groupId : String) (bytes : Bytes) :
    Writable (fileTable groupId bytes) := by
  intro key offset hget
  rw [fileTable] at hget
  split at hget
  · cases hget
  · obtain ⟨-, line, hline, hparse⟩ := entry_of_insertLines hget
    exact ⟨plainTopic_of_parseLine (newline_not_mem_lines line hline) hparse,
      bounds_of_parseLine hparse⟩

/-- The file of the group spells the entries that are in memory. -/
theorem OffsetStore.Stored.file (h : s.Stored c.key.groupId) (hload : s.Loadable)
    (hgroup : c.key.groupId.toList ≠ []) {key : OffsetKey} (hkey : key.groupId = c.key.groupId) :
    ((s.files.get (s.manager.dataDir ++ [fileName c.key.groupId])).bind fun bytes =>
      (fileTable c.key.groupId bytes).get key) = s.manager.offsets.get key := by
  obtain ⟨listing, hlisting⟩ := (entries s.files s.manager.dataDir).exists_order
  have hothers : OthersRead (entries s.files s.manager.dataDir) key.groupId :=
    fun name bytes stem hget hsplit _ => hload.text name bytes stem hget hsplit
  have hfresh := h listing hlisting key hkey
  rw [get_load (by rw [hkey]; exact hgroup) hothers hlisting, hkey] at hfresh
  exact hfresh

/-- A commit of an offset that a new manager finds has plain names. -/
theorem OffsetStore.Stored.plain (h : s.Stored c.key.groupId) (hload : s.Loadable)
    (hmemory : s.manager.fetchOffset c.key = some c.offset) : c.Plain := by
  obtain ⟨listing, hlisting⟩ := (entries s.files s.manager.dataDir).exists_order
  have hfresh := (h listing hlisting c.key rfl).trans hmemory
  rcases plain_of_loadLoop hload.names hfresh with hnew | hplain
  · cases hnew
  · exact hplain

/-- A commit of the offset that the key has already is harmless only if it lacks at most the last
line break. -/
theorem harmless_iff_whole {offsets : Table OffsetKey Nat}
    (hmemory : offsets.get c.key = some c.offset) :
    Harmless offsets c order (.written n) ↔ (c.bytes offsets order).length ≤ n + 1 := by
  refine or_iff_left_of_imp ?_
  rintro ⟨others, rfl, -, ⟨hnone, -⟩ | ⟨k, hk, hn, hvalue⟩⟩
  · rw [hmemory] at hnone
    cases hnone
  · rw [hmemory, Option.some_inj] at hvalue
    have hbody : lineHead c.key ++ firstDigits k c.offset = lineBody c.key c.offset :=
      eq_body_of_value hk rfl hvalue.symm
    have hsplit : (c.bytes offsets (others ++ [c.key])).length = _ :=
      length_bytes_split (Table.get_insert_self ..)
    have hnil : (utf8 (groupText (c.insertInto offsets) [])).length = 0 := rfl
    rw [List.append_assoc, hbody, utf8_append, List.length_append] at hn
    omega

/-- A commit writes the entries of its group, and no others. -/
theorem get_groupOffsets {offsets : Table OffsetKey Nat} {groupId : String} {key : OffsetKey}
    (h : key.groupId = groupId) : (groupOffsets groupId offsets).get key = offsets.get key := by
  rw [groupOffsets, Table.get_retain]
  cases offsets.get key with
  | none => rfl
  | some offset => exact Option.filter_some_pos (by simpa using h)

theorem groupOffsets_insertInto (c : Commit) (offsets : Table OffsetKey Nat) :
    groupOffsets c.key.groupId (c.insertInto (groupOffsets c.key.groupId offsets)) =
      groupOffsets c.key.groupId (c.insertInto offsets) := by
  ext1 key
  by_cases hkey : key.groupId = c.key.groupId
  · rw [get_groupOffsets hkey, get_groupOffsets hkey]
    simp only [Table.get_insert, get_groupOffsets hkey]
  · simp [groupOffsets, Table.get_retain, hkey]

theorem bytes_groupOffsets {offsets : Table OffsetKey Nat}
    (horder : (groupOffsets c.key.groupId (c.insertInto offsets)).Order order) :
    c.bytes (groupOffsets c.key.groupId offsets) order = c.bytes offsets order := by
  refine congrArg utf8 (groupText_congr fun key hkey => ?_)
  have hgroup := ((mem_groupOffsets horder key).1 hkey).1
  simp only [Table.get_insert, get_groupOffsets hgroup]

/-- Entries that a new manager finds can be written. -/
theorem OffsetStore.Stored.writable (h : s.Stored c.key.groupId) (hload : s.Loadable)
    (hplain : c.Plain) :
    Writable (c.insertInto (groupOffsets c.key.groupId s.manager.offsets)) := by
  intro key offset hget
  rcases Table.get_insert_cases hget with ⟨rfl, rfl⟩ | ⟨-, hget⟩
  · exact ⟨hplain.2, c.partition_lt, c.offset_lt⟩
  · rw [groupOffsets, Table.get_retain, Option.filter_eq_some_iff, decide_eq_true_eq] at hget
    rw [← h.file hload hplain.1.1 hget.2, Option.bind_eq_some_iff] at hget
    obtain ⟨⟨bytes, -, hget⟩, -⟩ := hget
    exact writable_fileTable _ bytes key offset hget

/-- **A file that held the entries of the group** reads the same when it is written again but for
the last line break. -/
theorem readsAlike_iff_whole
    (horder : (groupOffsets c.key.groupId (c.insertInto s.manager.offsets)).Order order)
    (hload : s.Loadable) (hstored : s.Stored c.key.groupId)
    (hmemory : s.manager.fetchOffset c.key = some c.offset) {loc : Location}
    (hloc : create os s.manager.dataDir (fileName c.key.groupId) = some loc) :
    ReadsAlike s.manager.dataDir s.files loc ((c.bytes s.manager.offsets order).take n) ↔
      (c.bytes s.manager.offsets order).length ≤ n + 1 := by
  have hplain := hstored.plain hload hmemory
  obtain rfl := create_plain (not_mem_fileName hplain.1) hloc
  have hsplit := splitExtension_fileName hplain.1.1
  have hw := hstored.writable hload hplain
  have hfile : ∀ key : OffsetKey, key.groupId = c.key.groupId →
      ((s.files.get (s.manager.dataDir ++ [fileName c.key.groupId])).bind fun bytes =>
        (fileTable c.key.groupId bytes).get key) =
          (groupOffsets c.key.groupId s.manager.offsets).get key := by
    intro key hkey
    rw [hstored.file hload hplain.1.1 hkey, get_groupOffsets hkey]
  have hkeyed : (groupOffsets c.key.groupId s.manager.offsets).get c.key = some c.offset :=
    (get_groupOffsets rfl).trans hmemory
  rw [← bytes_groupOffsets horder, ← harmless_iff_whole hkeyed]
  rw [← groupOffsets_insertInto] at horder
  rw [← cut_iff hw horder n]
  constructor
  · intro halike
    have hread := halike _ _ rfl hsplit
    rw [String.ofList_toList] at hread
    obtain ⟨old, hold⟩ := Option.ne_none_iff_exists'.1 (hload.readFile_ne_none hsplit c.key.groupId)
    have hfound : ∀ key : OffsetKey, key.groupId = c.key.groupId → (fileTable c.key.groupId
        ((c.bytes (groupOffsets c.key.groupId s.manager.offsets) order).take n)).get key =
          (groupOffsets c.key.groupId s.manager.offsets).get key := by
      intro key hkey
      have hboth := ((readFile_eq_iff hold).1 hread.symm).2 key
      rw [Table.get_empty, Option.or_none, Option.or_none, hfile key hkey, Option.bind_some] at hboth
      exact hboth.symm
    exact ⟨fun key hkey _ => hfound key hkey, Or.inl (hfound c.key rfl)⟩
  · intro hsame name stem hname hsplit'
    obtain rfl : fileName c.key.groupId = name :=
      (List.cons.inj (List.append_cancel_left hname)).1
    obtain rfl : c.key.groupId.toList = stem := congrArg Prod.fst (hsplit.symm.trans hsplit')
    have hwhole := (harmless_iff_whole hkeyed).1 ((cut_iff hw horder n).1 hsame)
    obtain ⟨contents, hread⟩ := readable_of_whole horder hwhole
    rw [String.ofList_toList]
    refine (readFile_eq_iff (readFile_of_text hread)).2
      ⟨hload.readFile_ne_none hsplit _, fun key => ?_⟩
    rw [Table.get_empty, Option.or_none, Option.or_none, Option.bind_some]
    by_cases hkey : key.groupId = c.key.groupId
    · rw [hfile key hkey]
      by_cases hne : key = c.key
      · subst hne
        rcases hsame.2 with hold | hnew
        · exact hold
        · exact hnew.trans hkeyed.symm
      · exact hsame.1 key hkey hne
    · simp only [fileTable_other hkey, Option.bind_fun_none]

end Stored

/-- **Rejected commits.**  In every state, wherever the error is: nothing is seen of the commit
exactly when the key had this offset already and a load does not notice what was written of the file.
Where the file held the entries of the group that are in memory, that is when it was not created or
lacks at most the last line break. -/
theorem rejected_commit_iff {os : Os} {s t : OffsetStore} {c : Commit} {order : List OffsetKey}
    {point : CrashPoint}
    (horder : (groupOffsets c.key.groupId (c.insertInto s.manager.offsets)).Order order)
    (hreject : s.reject os c order point = some t) (hload : point ≠ .beforeCreate → s.Loadable) :
    (NoEffect s t ↔ s.manager.fetchOffset c.key = some c.offset ∧ Unnoticed os s c order point) ∧
      (s.Stored c.key.groupId → (NoEffect s t ↔ s.manager.fetchOffset c.key = some c.offset ∧
        point.Whole (c.bytes s.manager.offsets order).length)) := by
  have hiff := noEffect_iff hreject hload
  refine ⟨hiff, fun hstored => hiff.trans (and_congr_right fun hmemory => ?_)⟩
  obtain ⟨-, ⟨rfl, -⟩ | ⟨n, loc, rfl, hloc, -⟩⟩ := reject_cases hreject
  · exact Iff.rfl
  · have hload := hload (by simp)
    constructor
    · intro h
      exact (readsAlike_iff_whole horder hload hstored hmemory hloc).1 (h loc hloc)
    · intro h loc' hloc'
      exact (readsAlike_iff_whole horder hload hstored hmemory hloc').2 h

/-- The sync fails when an offset is committed again. -/
theorem rejected_commit_iff_again : ∃ s t, s.manager.fetchOffset ⟨"a", "orders", 0⟩ = some 5 ∧
    s.reject plainOs (ordersCommit "a" "orders" 5 (by decide)) [⟨"a", "orders", 0⟩]
      (.written 11) = some t ∧ NoEffect s t := by
  obtain ⟨s, hs⟩ := Option.isSome_iff_exists.1 (show ((OffsetStore.init [['d'], ['o']]
    Table.empty).next plainOs (ordersCommit "a" "orders" 5 (by decide),
      [⟨"a", "orders", 0⟩], .done)).isSome = true by decide +kernel)
  have hagree := (agrees_init (freshDir_empty [['d'], ['o']])).step (by decide) rfl hs
  have hremembers := (remembers_init (freshDir_empty [['d'], ['o']])).step hs
  have hload : s.Loadable := by
    constructor
    · rw [hagree.dir]
      exact hremembers.names
    · rw [hagree.dir]
      exact hagree.readable
  have hstored : s.Stored "a" := by
    intro listing hlisting key hkey
    rw [hagree.dir] at hlisting ⊢
    exact hagree.load (by rw [hkey]; decide) hlisting
  obtain ⟨-, loc, -, hmanager⟩ := next_commit hs
  have hmanager : s.manager = (new [['d'], ['o']]).insertOffset ⟨"a", "orders", 0⟩ 5 :=
    congrArg OffsetStore.manager hmanager
  obtain ⟨t, ht⟩ : ∃ t, s.reject plainOs (ordersCommit "a" "orders" 5 (by decide))
      [⟨"a", "orders", 0⟩] (.written 11) = some t := by
    rw [← Option.isSome_iff_exists, OffsetStore.reject, Option.isSome_map, crashFiles,
      Option.isSome_map, hmanager]
    decide +kernel
  have horder : (groupOffsets "a" ((ordersCommit "a" "orders" 5 (by decide)).insertInto
      s.manager.offsets)).Order [⟨"a", "orders", 0⟩] := by
    rw [hmanager]
    decide +kernel
  refine ⟨s, t, by rw [hmanager]; decide +kernel, ht,
    ((rejected_commit_iff horder ht fun _ => hload).2 hstored).2 ⟨?_, ?_⟩⟩
  · rw [hmanager]
    decide +kernel
  · rw [hmanager]
    decide +kernel

/-- The commit of a group whose file cannot be created is remembered. -/
theorem rejected_commit_stays : ¬ ∀ (s t : OffsetStore) (c : Commit) (order : List OffsetKey)
    (e : GaffaError), (groupOffsets c.key.groupId (c.insertInto s.manager.offsets)).Order order →
    s.manager.commitOffset plainOs .done c.key c.offset order s.files =
      (.error e, t.manager, t.files) →
    NoEffect s t := by
  intro h
  have hnone : create plainOs (new [['d'], ['o']]).dataDir (fileName "a/b") = none := by
    decide +kernel
  have heffect := h (OffsetStore.init [['d'], ['o']] Table.empty)
    ⟨(new [['d'], ['o']]).insertOffset ⟨"a/b", "orders", 0⟩ 5, Table.empty⟩
    (ordersCommit "a/b" "orders" 5 (by decide)) [⟨"a/b", "orders", 0⟩]
    (.io "the file cannot be created") (by decide +kernel) (by
      simp only [commitOffset, persistGroup, insertOffset, OffsetStore.init, ordersCommit, hnone])
  have hkey := heffect.answers.1 ⟨"a/b", "orders", 0⟩
  exact absurd hkey (by decide +kernel)

end Gaffa
