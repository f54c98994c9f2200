import Gaffa.Broker.RejectedCommit

/-!
# Committed offsets over a restart

Runs of commits that return `Ok`, and a new offset manager that loads what they left behind.  The
last write of a commit may fail without an error, so that `Ok` does not say that the last line is
there.

* `spells_iff`: a file from which the end is missing spells what was written exactly when nothing but
  the last line break is missing.
* `restart_exact_iff`: the new manager has exactly the last committed offsets if and only if every
  commit named a group that is a file name and a topic without a separator, and the last one of each
  group was written out.
-/

set_option autoImplicit false

namespace Gaffa

open ByteString FileSystem Text Transition OffsetManager

/-! ## What a file spells from which the end is missing -/

section Spells

variable {offsets : Table OffsetKey Nat} {groupId : String} {order : List OffsetKey} {key : OffsetKey}
  {offset n : Nat}

/-- Every entry could have been written by a commit of the same offset. -/
theorem exists_commit (hw : Writable offsets) (hget : offsets.get key = some offset) :
    ∃ c : Commit, c.key = key ∧ offsets.get c.key = some c.offset ∧
      c.insertInto offsets = offsets := by
  obtain ⟨-, hpartition, hoffset⟩ := hw key offset hget
  refine ⟨⟨key, offset, hpartition, hoffset⟩, rfl, hget, ?_⟩
  ext1 k
  rw [Table.get_insert]
  split
  · rename_i hk
    rw [hk, hget]
  · rfl

/-- **A file without its end** spells the entries of its group exactly when it lacks at most the last
line break. -/
theorem spells_iff (hw : Writable offsets) (horder : (groupOffsets groupId offsets).Order order)
    (hkey : key.groupId = groupId) (hget : offsets.get key = some offset) :
    (∀ k : OffsetKey, k.groupId = groupId →
        (fileTable groupId ((utf8 (groupText offsets order)).take n)).get k = offsets.get k) ↔
      (utf8 (groupText offsets order)).length ≤ n + 1 := by
  subst hkey
  obtain ⟨c, rfl, hmemory, hsame⟩ := exists_commit hw hget
  have hcut := cut_iff (c := c) (by rw [hsame]; exact hw) (by rw [hsame]; exact horder) n
  rw [harmless_iff_whole hmemory, Commit.bytes, hsame] at hcut
  rw [← hcut]
  constructor
  · intro h
    exact ⟨fun k hk _ => h k hk, .inl (h c.key rfl)⟩
  · rintro ⟨hothers, hown⟩ k hk
    by_cases hne : k = c.key
    · subst hne
      rcases hown with hold | hnew
      · exact hold
      · exact hnew.trans hmemory.symm
    · exact hothers k hk hne

/-- A file that lacks at most the last line break is text, and spells the entries of its group. -/
theorem spells_of_whole (hw : Writable offsets) (horder : (groupOffsets groupId offsets).Order order)
    {bytes : Bytes} (hpiece : bytes <+: utf8 (groupText offsets order))
    (hwhole : (utf8 (groupText offsets order)).length ≤ bytes.length + 1) :
    (∃ contents, readToString bytes = some contents) ∧
      ∀ k : OffsetKey, k.groupId = groupId → (fileTable groupId bytes).get k = offsets.get k := by
  cases order with
  | nil =>
    obtain rfl : bytes = utf8 (groupText offsets []) := List.prefix_nil.1 hpiece
    exact ⟨⟨_, readToString_utf8 _⟩, fun k hk => fileTable_groupText hw horder hk⟩
  | cons key keys =>
    obtain ⟨rfl, offset, hget⟩ := (mem_groupOffsets horder key).1 (List.mem_cons_self ..)
    obtain ⟨c, rfl, -, hsame⟩ := exists_commit hw hget
    rw [List.prefix_iff_eq_take.1 hpiece]
    refine ⟨?_, (spells_iff hw horder rfl hget).2 hwhole⟩
    have hread : ∃ ds, readToString ((c.bytes offsets (c.key :: keys)).take bytes.length) = some ds :=
      readable_of_whole (by rw [hsame]; exact horder) (by rw [Commit.bytes, hsame]; exact hwhole)
    rw [Commit.bytes, hsame] at hread
    exact hread

end Spells

/-! ## What commits leave -/

/-- The steps of a run. -/
abbrev CommitTrace := List (CommitCall × OffsetStore)

/-- The commits of a run. -/
def commitsOf (tr : CommitTrace) : List Commit := tr.map fun e => e.1.1

/-- The last commit of a group. -/
def lastOf (tr : CommitTrace) (groupId : String) : Option (CommitCall × OffsetStore) :=
  (tr.filter fun e => e.1.1.key.groupId = groupId).getLast?

theorem mem_of_lastOf {tr : CommitTrace} {groupId : String} {e : CommitCall × OffsetStore}
    (h : lastOf tr groupId = some e) : e ∈ tr ∧ e.1.1.key.groupId = groupId := by
  obtain ⟨hmem, hgroup⟩ := List.mem_filter.1 (List.mem_of_getLast? h)
  exact ⟨hmem, of_decide_eq_true hgroup⟩

/-- The file has everything that the commit was to write, but for at most the last line break. -/
def WritesOut : CommitCall × OffsetStore → Prop
  | ((_, order, io), t) => (utf8 (groupText t.manager.offsets order)).length ≤
      (io.kept (utf8 (groupText t.manager.offsets order))).length + 1

instance : DecidablePred WritesOut := fun _ => inferInstanceAs (Decidable (_ ≤ _))

/-- The last commit of a group, if it has one, is written out. -/
def WrittenOut (tr : CommitTrace) (groupId : String) : Prop :=
  ∀ e, lastOf tr groupId = some e → WritesOut e

/-- The files of the groups have what the map does, as far as the last commit of the group wrote
it. -/
structure FilesCut (dataDir : Location) (past : CommitTrace) (s : OffsetStore) : Prop where
  dir : s.manager.dataDir = dataDir
  groups : ∀ key offset, s.manager.offsets.get key = some offset → PlainGroup key.groupId
  writable : Writable s.manager.offsets
  files : ∀ name bytes stem, s.files.get (dataDir ++ [name]) = some bytes →
    splitExtension name = (stem, some extension) →
    ∃ order, (groupOffsets (String.ofList stem) s.manager.offsets).Order order ∧
      bytes <+: utf8 (groupText s.manager.offsets order) ∧
      ((utf8 (groupText s.manager.offsets order)).length ≤ bytes.length + 1 ↔
        WrittenOut past (String.ofList stem))
  present : ∀ key offset, s.manager.offsets.get key = some offset →
    ∃ bytes, s.files.get (dataDir ++ [fileName key.groupId]) = some bytes

section Step

variable {os : Os} {dataDir : Location} {past : CommitTrace} {s t : OffsetStore} {c : Commit}
  {order : List OffsetKey} {io : PersistIo} {groupId : String}

theorem lastOf_snoc (past : CommitTrace) (e : CommitCall × OffsetStore) (groupId : String) :
    lastOf (past ++ [e]) groupId =
      if e.1.1.key.groupId = groupId then some e else lastOf past groupId := by
  unfold lastOf
  rw [List.filter_append]
  split
  · rename_i h
    simp [h]
  · rename_i h
    simp [h]

theorem kept_prefix (io : PersistIo) (bytes : Bytes) : io.kept bytes <+: bytes := by
  obtain ⟨n, hn⟩ := io.kept_eq_take bytes
  rw [hn]
  exact List.take_prefix n bytes

/-- **A plain commit** leaves what it wrote in the file of its group, and the others alone. -/
theorem FilesCut.step (h : FilesCut dataDir past s) (hc : c.Plain)
    (hstep : s.next os (c, order, io) = some t) :
    FilesCut dataDir (past ++ [((c, order, io), t)]) t := by
  obtain ⟨horder, loc, hloc, rfl⟩ := next_commit hstep
  obtain rfl : loc = dataDir ++ [fileName c.key.groupId] := by
    rw [h.dir] at hloc
    exact create_plain (not_mem_fileName hc.1) hloc
  refine ⟨h.dir, plainGroups_insert h.groups hc, writable_insert h.writable hc, ?_,
    present_insert h.present _⟩
  intro name bytes stem hget hsplit
  unfold WrittenOut
  rw [lastOf_snoc]
  rcases file_insert_cases hget hsplit with ⟨hgroup, rfl⟩ | ⟨hgroup, hget⟩
  · refine ⟨order, by rw [← hgroup]; exact horder, kept_prefix io _, ?_⟩
    simp only [if_pos hgroup, Option.some.injEq, forall_eq']
    rfl
  · obtain ⟨keys, hkeys, hpiece, hwhole⟩ := h.files name bytes stem hget hsplit
    refine ⟨keys, by rw [insertOffset, groupOffsets_insert hgroup]; exact hkeys, ?_⟩
    rw [if_neg hgroup, insertOffset, groupText_insert hgroup hkeys]
    exact ⟨hpiece, hwhole⟩

end Step

/-! ## A restart -/

/-- A new manager has exactly the last committed offsets. -/
def Restored (dataDir : Location) (commits : List Commit) (s : OffsetStore) : Prop :=
  ∀ listing, (entries s.files dataDir).Order listing →
    (load s.files listing (new dataDir)).1 = .ok () ∧
      ∀ key, (load s.files listing (new dataDir)).2.fetchOffset key = lastCommitted commits key

section Load

variable {dataDir : Location} {commits : List Commit} {past : CommitTrace} {s : OffsetStore}

/-- Only plain names are restored. -/
theorem Restored.plain (h : Restored dataDir commits s) (hr : Remembers dataDir commits s) :
    ∀ c ∈ commits, c.Plain := by
  intro c hc
  obtain ⟨listing, hlisting⟩ := (entries s.files dataDir).exists_order
  obtain ⟨offset, hlast⟩ := mem_of_lastCommitted hc
  have hfetch := (h listing hlisting).2 c.key
  rw [hlast] at hfetch
  rcases plain_of_loadLoop hr.names hfetch with hnew | hplain
  · cases hnew
  · exact hplain

/-- **Plain names** whose last lines are written out are restored. -/
theorem FilesCut.restored (h : FilesCut dataDir past s) (hr : Remembers dataDir commits s)
    (hout : ∀ groupId, WrittenOut past groupId) : Restored dataDir commits s := by
  have hspells : ∀ name bytes stem, s.files.get (dataDir ++ [name]) = some bytes →
      splitExtension name = (stem, some extension) →
      (∃ contents, readToString bytes = some contents) ∧
        ∀ k : OffsetKey, k.groupId = String.ofList stem →
          (fileTable (String.ofList stem) bytes).get k = s.manager.offsets.get k := by
    intro name bytes stem hget hsplit
    obtain ⟨order, horder, hpiece, hwhole⟩ := h.files name bytes stem hget hsplit
    exact spells_of_whole h.writable horder hpiece (hwhole.2 (hout _))
  have hread : ∀ name bytes stem, s.files.get (dataDir ++ [name]) = some bytes →
      splitExtension name = (stem, some extension) →
      ∃ contents, readToString bytes = some contents :=
    fun name bytes stem hget hsplit => (hspells name bytes stem hget hsplit).1
  intro listing hlisting
  refine ⟨loadLoop_ok hread listing _, fun key => ?_⟩
  rw [← hr.offsets key]
  by_cases hgroup : key.groupId.toList = []
  · have hmemory : s.manager.offsets.get key = none := by
      rw [Option.eq_none_iff_forall_ne_some]
      intro offset hget
      exact (h.groups key offset hget).1 hgroup
    rw [hmemory, Option.eq_none_iff_forall_ne_some]
    intro offset hget
    rcases plain_of_loadLoop hr.names hget with hnew | ⟨hplain, -⟩
    · cases hnew
    · exact hplain.1 hgroup
  · rw [get_load hgroup (fun name bytes stem hget hsplit _ => hread name bytes stem hget hsplit)
      hlisting]
    cases hget : s.files.get (dataDir ++ [fileName key.groupId]) with
    | none =>
      rw [Option.bind_none, Eq.comm, Option.eq_none_iff_forall_ne_some]
      intro offset hmemory
      obtain ⟨bytes, hbytes⟩ := h.present key offset hmemory
      rw [hget] at hbytes
      cases hbytes
    | some bytes =>
      have hfile := (hspells _ _ _ hget (splitExtension_fileName hgroup)).2 key
      rw [String.ofList_toList] at hfile
      exact hfile rfl

/-- A group is only restored if its last lines are written out. -/
theorem FilesCut.writtenOut (h : FilesCut dataDir past s)
    (hr : Remembers dataDir (commitsOf past) s) (hrestored : Restored dataDir (commitsOf past) s)
    (groupId : String) : WrittenOut past groupId := by
  intro e he
  obtain ⟨hmem, rfl⟩ := mem_of_lastOf he
  -- the group has an entry, and so a file
  obtain ⟨offset, hoffset⟩ := mem_of_lastCommitted
    (show e.1.1 ∈ commitsOf past from List.mem_map_of_mem hmem)
  rw [← hr.offsets] at hoffset
  have hplain := h.groups _ offset hoffset
  obtain ⟨bytes, hget⟩ := h.present _ offset hoffset
  have hsplit := splitExtension_fileName hplain.1
  obtain ⟨order, horder, hpiece, hwhole⟩ := h.files _ bytes _ hget hsplit
  rw [String.ofList_toList] at horder hwhole
  refine hwhole.1 ?_ e he
  obtain ⟨listing, hlisting⟩ := (entries s.files dataDir).exists_order
  obtain ⟨hok, hfetch⟩ := hrestored listing hlisting
  have hothers : OthersRead (entries s.files dataDir) e.1.1.key.groupId := by
    intro name bytes' stem hget' hsplit' _
    exact text_of_loadLoop hok (hlisting.mem_iff.2 ⟨bytes', hget'⟩) hsplit' hget'
  rw [List.prefix_iff_eq_take.1 hpiece] at hget
  refine (spells_iff h.writable horder rfl hoffset).1 fun k hk => ?_
  have hload := hfetch k
  rw [get_load (by rw [hk]; exact hplain.1) (by rw [hk]; exact hothers) hlisting, hk, hget,
    Option.bind_some, ← hr.offsets] at hload
  exact hload

end Load

/-! ## Runs -/

section Run

variable {os : Os} {dataDir : Location} {files : Files}

theorem remembers_run : ∀ {tr : CommitTrace} {s : OffsetStore}
    {commits : List Commit}, Remembers dataDir commits s → Run (Steps (OffsetStore.next os)) s tr →
    Remembers dataDir (commits ++ commitsOf tr) (last s tr)
  | [], s, commits, h, _ => by
    rw [commitsOf, List.map_nil, List.append_nil]
    exact h
  | ((c, order, io), t) :: tr, s, commits, h, hrun => by
    have hrest := remembers_run (h.step hrun.1) hrun.2
    rw [List.append_assoc] at hrest
    exact hrest

theorem cut_run : ∀ {tr past : CommitTrace} {s : OffsetStore},
    FilesCut dataDir past s → Run (Steps (OffsetStore.next os)) s tr →
    (∀ c ∈ commitsOf tr, c.Plain) → FilesCut dataDir (past ++ tr) (last s tr)
  | [], past, s, h, _, _ => by
    rw [List.append_nil]
    exact h
  | ((c, order, io), t) :: tr, past, s, h, hrun, hplain => by
    obtain ⟨hc, hrest⟩ : c.Plain ∧ _ := List.forall_mem_cons.1 hplain
    have hend := cut_run (h.step hc hrun.1) hrun.2 hrest
    rw [List.append_assoc] at hend
    exact hend

theorem cut_init (hfresh : FreshDir files dataDir) :
    FilesCut dataDir [] (OffsetStore.init dataDir files) := by
  refine ⟨rfl, ?_, ?_, ?_, ?_⟩
  · intro key offset hget
    cases hget
  · intro key offset hget
    cases hget
  · intro name bytes stem hget hsplit
    exact absurd (by rw [hsplit]) (hfresh name bytes hget).2
  · intro key offset hget
    cases hget

/-- **A restart is exact** if and only if all names were plain and the last commit of each group was
written out, but for at most the last line break: for every sequence of commits that return `Ok`,
however the map and the directory are iterated, and whichever writes fail. -/
theorem restart_exact_iff (hfresh : FreshDir files dataDir) {tr : CommitTrace}
    (hrun : Run (Steps (OffsetStore.next os)) (OffsetStore.init dataDir files) tr) :
    Restored dataDir (commitsOf tr) (last (OffsetStore.init dataDir files) tr) ↔
      (∀ c ∈ commitsOf tr, c.Plain) ∧ ∀ groupId, WrittenOut tr groupId := by
  have hr : Remembers dataDir (commitsOf tr) _ := remembers_run (remembers_init hfresh) hrun
  constructor
  · intro h
    have hplain := h.plain hr
    have hcut : FilesCut dataDir tr _ := cut_run (cut_init hfresh) hrun hplain
    exact ⟨hplain, hcut.writtenOut hr h⟩
  · rintro ⟨hplain, hout⟩
    have hcut : FilesCut dataDir tr _ := cut_run (cut_init hfresh) hrun hplain
    exact hcut.restored hr hout

end Run

/-! ## Two runs -/

/-- The disk is full behind these bytes. -/
def fullBehind (written : Nat) : PersistIo :=
  ⟨some (written, "No space left on device (os error 28)"), none⟩

/-- Two groups, a key that is committed twice, and a commit that loses its line but is not the last
one of its group. -/
def plainCommits : List CommitCall :=
  [(ordersCommit "a" "orders" 5 (by decide), [⟨"a", "orders", 0⟩], .done),
    (ordersCommit "b" "a b" 7 (by decide), [⟨"b", "a b", 0⟩], .done),
    (ordersCommit "a" "" 1 (by decide), [⟨"a", "", 0⟩, ⟨"a", "orders", 0⟩], fullBehind 9),
    (ordersCommit "a" "orders" 6 (by decide), [⟨"a", "orders", 0⟩, ⟨"a", "", 0⟩], .done)]

theorem commitsOf_trace {s : OffsetStore} {events : List CommitCall} {tr : CommitTrace}
    (h : trace (OffsetStore.next plainOs) s events = some tr) :
    commitsOf tr = events.map Prod.fst := by
  rw [← events_of_trace h, List.map_map]
  rfl

theorem restart_exact_iff_plain :
    ∃ tr, trace (OffsetStore.next plainOs) (OffsetStore.init [['d'], ['o']] Table.empty)
        plainCommits = some tr ∧
      Restored [['d'], ['o']] (commitsOf tr)
        (last (OffsetStore.init [['d'], ['o']] Table.empty) tr) := by
  obtain ⟨tr, htr, hout⟩ := Option.map_eq_some_iff.1 (show (trace (OffsetStore.next plainOs)
    (OffsetStore.init [['d'], ['o']] Table.empty) plainCommits).map (fun tr => decide
      (∀ e ∈ tr, ∀ e' ∈ lastOf tr e.1.1.key.groupId, WritesOut e')) = some true by decide +kernel)
  refine ⟨tr, htr, (restart_exact_iff (freshDir_empty _) (run_of_trace htr)).2 ⟨?_, ?_⟩⟩
  · rw [commitsOf_trace htr]
    decide +kernel
  · intro groupId e he
    obtain ⟨hmem, hgroup⟩ := mem_of_lastOf he
    exact of_decide_eq_true hout e hmem e (by rw [hgroup]; exact he)

/-- A group whose name climbs out of the directory. -/
def climbingCommit : List CommitCall :=
  [(ordersCommit "../a" "orders" 5 (by decide), [⟨"../a", "orders", 0⟩], .done)]

theorem climbing_commit_lost : ¬ ∀ tr : CommitTrace,
    Run (Steps (OffsetStore.next plainOs)) (OffsetStore.init [['d'], ['o']] Table.empty) tr →
    Restored [['d'], ['o']] (commitsOf tr)
      (last (OffsetStore.init [['d'], ['o']] Table.empty) tr) := by
  intro h
  obtain ⟨tr, htr⟩ := Option.isSome_iff_exists.1 (show (trace (OffsetStore.next plainOs)
    (OffsetStore.init [['d'], ['o']] Table.empty) climbingCommit).isSome = true by decide +kernel)
  have hplain := (h tr (run_of_trace htr)).plain
    (remembers_run (remembers_init (freshDir_empty _)) (run_of_trace htr))
  rw [commitsOf_trace htr] at hplain
  exact absurd hplain (by decide +kernel)

end Gaffa
