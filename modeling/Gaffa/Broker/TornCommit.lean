import Gaffa.Broker.OffsetFiles

/-!
# A crash while a commit is written

`persist_group` truncates the file of the group and writes its lines again, so a crash leaves a
piece of the new file.

* `torn_commit_iff`: exactly which pieces leave every key of the group with an offset that it had or
  was to get.
-/

set_option autoImplicit false

namespace Gaffa

open ByteString FileSystem Text OffsetManager

/-! ## Pieces of a text -/

theorem length_utf8_le {l m : List Char} (h : l <+: m) : (utf8 l).length ≤ (utf8 m).length := by
  obtain ⟨r, rfl⟩ := h
  rw [utf8_append, List.length_append]
  exact Nat.le_add_right ..

theorem eq_of_length_utf8_le {l m : List Char} (h : l <+: m)
    (hlen : (utf8 m).length ≤ (utf8 l).length) : l = m := by
  obtain ⟨r, rfl⟩ := h
  rw [utf8_append, List.length_append] at hlen
  cases r with
  | nil => exact (List.append_nil l).symm
  | cons c r =>
    have : 0 < (utf8 (c :: r)).length := length_utf8_pos
    omega

/-- Digits of an offset, as many as were written. -/
def firstDigits (k offset : Nat) : List Char := (digits offset).take k

/-- **A piece of a line** is an entry once it has a digit of the offset. -/
theorem parseLine_piece {key : OffsetKey} {offset : Nat} {piece : List Char}
    (h : PlainTopic key.topic) (hp : key.partition < 2 ^ 32) (ho : offset < 2 ^ 64)
    (hpiece : piece <+: lineBody key offset) :
    (piece <+: lineHead key ∧ parseLine piece = none) ∨
      ∃ k, 0 < k ∧ k ≤ (digits offset).length ∧
        piece = lineHead key ++ firstDigits k offset ∧
        parseLine piece =
          some (key.topic, key.partition, Nat.ofDigitChars 10 (firstDigits k offset) 0) := by
  have hhead : parseLine (lineHead key) = none := by
    rw [← List.append_nil (lineHead key), parseLine_head h hp, parseUnsigned_nil]
    rfl
  rcases List.prefix_or_prefix_of_prefix hpiece (List.prefix_append _ _) with hpre | ⟨r, rfl⟩
  · refine Or.inl ⟨hpre, ?_⟩
    rcases List.prefix_concat_iff.1 hpre with rfl | hpre
    · exact hhead
    · apply parseLine_without_equals
      intro hmem
      exact equals_not_mem h (hpre.subset hmem)
  · have hr : r = firstDigits r.length offset :=
      List.prefix_iff_eq_take.1 ((List.prefix_append_right_inj _).1 hpiece)
    cases hlen : r.length with
    | zero =>
      rw [List.eq_nil_of_length_eq_zero hlen, List.append_nil]
      exact Or.inl ⟨List.prefix_refl _, hhead⟩
    | succ k =>
      rw [hlen] at hr
      have hdigits : ∀ c ∈ firstDigits (k + 1) offset, c.isDigit = true :=
        fun c hc => isDigit_of_mem_digits (List.mem_of_mem_take hc)
      have hle : Nat.ofDigitChars 10 (firstDigits (k + 1) offset) 0 ≤ offset :=
        ofDigitChars_take_le (k + 1) offset
      refine Or.inr ⟨k + 1, Nat.succ_pos k, ?_, by rw [← hr], ?_⟩
      · have := congrArg List.length hr
        rw [firstDigits, List.length_take] at this
        omega
      · rw [parseLine_head h hp, hr, parseUnsigned_of_digits hdigits
          (by rw [← hr]; exact List.ne_nil_of_length_pos (by omega)) (by omega)]
        rfl

section Text

variable {offsets : Table OffsetKey Nat} {keys : List OffsetKey}

theorem groupText_cons {key : OffsetKey} (h : ∃ o, offsets.get key = some o)
    (keys : List OffsetKey) : groupText offsets (key :: keys) =
      (entryBody offsets key ++ ['\n']) ++ groupText offsets keys := by
  obtain ⟨o, ho⟩ := h
  simp only [groupText, List.flatMap_cons, entryLine, entryBody, ho]

/-- **A piece of a file** is some whole lines and a piece of the next one. -/
theorem prefix_groupText (h : ∀ k ∈ keys, ∃ o, offsets.get k = some o) {ds : List Char}
    (hds : ds <+: groupText offsets keys) :
    ds = groupText offsets keys ∨ ∃ before key after piece, keys = before ++ key :: after ∧
      piece <+: entryBody offsets key ∧ ds = groupText offsets before ++ piece := by
  induction keys generalizing ds with
  | nil => exact Or.inl (List.prefix_nil.1 hds)
  | cons key keys ih =>
    obtain ⟨hkey, hkeys⟩ := List.forall_mem_cons.1 h
    rw [groupText_cons hkey] at hds ⊢
    have hcases : ds <+: entryBody offsets key ∨
        ∃ r, ds = (entryBody offsets key ++ ['\n']) ++ r := by
      rcases List.prefix_or_prefix_of_prefix hds (List.prefix_append _ _) with hpre | ⟨r, rfl⟩
      · rcases List.prefix_concat_iff.1 hpre with rfl | hpre
        · exact Or.inr ⟨[], (List.append_nil _).symm⟩
        · exact Or.inl hpre
      · exact Or.inr ⟨r, rfl⟩
    rcases hcases with hpre | ⟨r, rfl⟩
    · exact Or.inr ⟨[], key, keys, ds, rfl, hpre, rfl⟩
    · have hr : r <+: groupText offsets keys := (List.prefix_append_right_inj _).1 hds
      rcases ih hkeys hr with rfl | ⟨before, k, after, piece, rfl, hpiece, rfl⟩
      · exact Or.inl rfl
      · refine Or.inr ⟨key :: before, k, after, piece, rfl, hpiece, ?_⟩
        simp only [groupText_cons hkey, List.append_assoc]

/-- **What a torn file spells**: the entries of its whole lines, and what the piece behind them
spells. -/
theorem get_fileTable_piece (hw : Writable offsets) {groupId : String}
    {before after : List OffsetKey} {key x : OffsetKey} {piece : List Char}
    (h : ∀ k ∈ before ++ key :: after, k.groupId = groupId ∧ ∃ o, offsets.get k = some o)
    (hnodup : (before ++ key :: after).Nodup) (hpiece : piece <+: entryBody offsets key)
    {value : Option Nat}
    (hvalue : parseLine piece = value.map fun v => (key.topic, key.partition, v)) :
    (fileTable groupId (utf8 (groupText offsets before ++ piece))).get x =
      if x ∈ before then offsets.get x else if x = key then value else none := by
  have hbefore : ∀ k ∈ before, k.groupId = groupId ∧ ∃ o, offsets.get k = some o :=
    fun k hk => h k (List.mem_append_left _ hk)
  obtain ⟨hgroup, o, ho⟩ := h key (by simp)
  have hnew : '\n' ∉ piece := by
    intro hmem
    have hbody := hpiece.subset hmem
    simp only [entryBody, ho] at hbody
    exact newline_not_mem_lineBody (hw key o ho).1 hbody
  have hnot : key ∉ before := by
    intro hmem
    exact (List.nodup_append.1 hnodup).2.2 key hmem key (List.mem_cons_self ..) rfl
  have hlast : ∀ t : Table OffsetKey Nat,
      insertLines groupId (if piece = [] then [] else [piece]) t =
        insertLines groupId [piece] t := by
    intro t
    split
    · rename_i hnil
      rw [hnil]
      rfl
    · rfl
  have hsplit : insertLines groupId (lines (groupText offsets before ++ piece)) Table.empty =
      insertLines groupId [piece]
        (insertLines groupId (before.map (entryBody offsets)) Table.empty) := by
    rw [lines_groupText hw _ (fun k hk => (hbefore k hk).2) hnew, ← hlast]
    exact List.foldl_append
  rw [fileTable, readToString_utf8]
  simp only
  rw [hsplit, get_insertLines, insertLines_bodies hw hbefore]
  simp only [insertLines, List.foldl_cons, List.foldl_nil, hvalue, Table.get_empty]
  cases value with
  | none => simp
  | some v =>
    simp only [Option.map_some, ← hgroup, Table.get_insert]
    by_cases hx : x = key
    · subst hx
      simp [hnot]
    · simp [hx]

end Text

theorem utf8Size_of_isDigit {c : Char} (h : c.isDigit = true) : c.utf8Size = 1 := by
  simp only [Char.isDigit, Bool.and_eq_true, decide_eq_true_eq] at h
  have hle : c.val ≤ 0x7f := by
    have := h.2
    rw [UInt32.le_iff_toNat_le] at this ⊢
    exact Nat.le_trans this (by decide)
  unfold Char.utf8Size
  exact if_pos hle

/-- Text of single bytes can be cut anywhere. -/
theorem take_utf8_ascii {r : List Char} (h : ∀ c ∈ r, c.utf8Size = 1) (j : Nat) :
    (utf8 r).take j = utf8 (r.take j) := by
  induction r generalizing j with
  | nil => simp
  | cons c r ih =>
    obtain ⟨hc, hr⟩ := List.forall_mem_cons.1 h
    have hlen : (String.utf8EncodeChar c).length = 1 := by
      rw [String.length_utf8EncodeChar, hc]
    obtain ⟨b, hb⟩ := List.length_eq_one_iff.1 hlen
    cases j with
    | zero => rfl
    | succ j =>
      have hih := ih hr j
      simp only [utf8, List.flatMap_cons, hb, List.take_succ_cons, List.singleton_append] at hih ⊢
      rw [hih]

/-! ## Crashes -/

/-- Where a crash hits `persist_group`: before the file is created, or with `n` bytes written. -/
inductive CrashPoint where
  | beforeCreate
  | written (n : Nat)

/-- The entries after the first half of a commit. -/
abbrev Commit.insertInto (c : Commit) (offsets : Table OffsetKey Nat) : Table OffsetKey Nat :=
  offsets.insert c.key c.offset

/-- The bytes that a commit writes. -/
def Commit.bytes (c : Commit) (offsets : Table OffsetKey Nat) (order : List OffsetKey) : Bytes :=
  utf8 (groupText (c.insertInto offsets) order)

/-- The files that a crash leaves. -/
def crashFiles (os : Os) (s : OffsetStore) (c : Commit) (order : List OffsetKey) :
    CrashPoint → Option Files
  | .beforeCreate => some s.files
  | .written n => (create os s.manager.dataDir (fileName c.key.groupId)).map fun loc =>
      s.files.insert loc ((c.bytes s.manager.offsets order).take n)

/-- Every other key of the group has its offset, and the committed one its old or its new offset. -/
def OldOrNew (offsets : Table OffsetKey Nat) (c : Commit) (found : OffsetKey → Option Nat) : Prop :=
  (∀ key, key.groupId = c.key.groupId → key ≠ c.key → found key = offsets.get key) ∧
    (found c.key = offsets.get c.key ∨ found c.key = some c.offset)

/-- A restart, in whatever order the directory is listed, finds old or new offsets. -/
def AtomicCommit (dataDir : Location) (s : OffsetStore) (c : Commit) (files : Files) : Prop :=
  ∀ listing, (entries files dataDir).Order listing →
    OldOrNew s.manager.offsets c fun key => (load files listing (new dataDir)).2.fetchOffset key

/-- The committed key has the last line, the lines before it are there but for a line break, and
what was written of the last line spells the old offset: no offset, with no character cut in two
unless the line is the only one; or one with fewer digits. -/
def SpellsOld (offsets : Table OffsetKey Nat) (c : Commit) (order : List OffsetKey) (n : Nat) :
    Prop :=
  ∃ others, order = others ++ [c.key] ∧
    (utf8 (groupText (c.insertInto offsets) others)).length ≤ n + 1 ∧
    ((offsets.get c.key = none ∧
        n ≤ (utf8 (groupText (c.insertInto offsets) others ++ lineHead c.key)).length ∧
        (others = [] ∨ ∃ piece, piece <+: groupText (c.insertInto offsets) order ∧
          n = (utf8 piece).length)) ∨
      ∃ k, 0 < k ∧
        n = (utf8 (groupText (c.insertInto offsets) others ++ lineHead c.key ++
          firstDigits k c.offset)).length ∧
        offsets.get c.key = some (Nat.ofDigitChars 10 (firstDigits k c.offset) 0))

/-- The crashes that do no harm: the old file is there, or the new one but for the last line break,
or one that spells the old offset. -/
def Harmless (offsets : Table OffsetKey Nat) (c : Commit) (order : List OffsetKey) :
    CrashPoint → Prop
  | .beforeCreate => True
  | .written n => (c.bytes offsets order).length ≤ n + 1 ∨ SpellsOld offsets c order n

section Torn

variable {offsets : Table OffsetKey Nat} {c : Commit} {order : List OffsetKey} {n : Nat}

theorem key_mem_order (horder : (groupOffsets c.key.groupId (c.insertInto offsets)).Order order) :
    c.key ∈ order :=
  (mem_groupOffsets horder c.key).2 ⟨rfl, c.offset, Table.get_insert_self ..⟩

theorem get_insertInto_ne {key : OffsetKey} (h : key ≠ c.key) :
    (c.insertInto offsets).get key = offsets.get key := Table.get_insert_ne _ h

/-- The text of a commit ends in a line break. -/
theorem bytes_ends (horder : (groupOffsets c.key.groupId (c.insertInto offsets)).Order order) :
    ∃ cs, groupText (c.insertInto offsets) order = cs ++ ['\n'] := by
  rcases List.eq_nil_or_concat' order with rfl | ⟨init, key, rfl⟩
  · exact absurd (key_mem_order horder) List.not_mem_nil
  · obtain ⟨-, o, ho⟩ := (mem_groupOffsets horder key).1 (by simp)
    refine ⟨groupText (c.insertInto offsets) init ++ lineBody key o, ?_⟩
    simp only [groupText, List.flatMap_append, List.flatMap_singleton, entryLine, ho,
      List.append_assoc]

/-- A piece that lacks at most the last line break is text. -/
theorem readable_of_whole
    (horder : (groupOffsets c.key.groupId (c.insertInto offsets)).Order order)
    (h : (c.bytes offsets order).length ≤ n + 1) :
    ∃ ds, readToString ((c.bytes offsets order).take n) = some ds := by
  obtain ⟨cs, hcs⟩ := bytes_ends horder
  have hnewline : (utf8 ['\n']).length = 1 := by decide
  by_cases hn : (c.bytes offsets order).length ≤ n
  · rw [List.take_of_length_le hn]
    exact ⟨_, readToString_utf8 _⟩
  · refine ⟨cs, ?_⟩
    rw [Commit.bytes, hcs, utf8_append, List.length_append, hnewline] at h hn
    rw [Commit.bytes, hcs, utf8_append, List.take_append_of_le_length (by omega),
      List.take_of_length_le (by omega), readToString_utf8]

theorem readable_of_initial {piece : List Char}
    (hpiece : piece <+: groupText (c.insertInto offsets) order) (hn : n = (utf8 piece).length) :
    ∃ ds, readToString ((c.bytes offsets order).take n) = some ds := by
  obtain ⟨r, hr⟩ := hpiece
  refine ⟨piece, ?_⟩
  rw [Commit.bytes, ← hr, utf8_append, hn, List.take_left, readToString_utf8]

/-- A group of one key has one line. -/
theorem order_singleton
    (horder : (groupOffsets c.key.groupId (c.insertInto offsets)).Order order)
    (h : ∀ key ∈ order, key = c.key) : order = [c.key] := by
  cases order with
  | nil => exact absurd (key_mem_order horder) List.not_mem_nil
  | cons key keys =>
    have hkey := h key (List.mem_cons_self ..)
    cases keys with
    | nil => rw [hkey]
    | cons key' keys =>
      have hkey' := h key' (by simp)
      have hnot := (List.nodup_cons.1 horder.nodup).1
      rw [hkey, hkey'] at hnot
      exact absurd (List.mem_cons_self ..) hnot

/-- **A file that is not text** spells nothing. -/
theorem torn_character_iff
    (horder : (groupOffsets c.key.groupId (c.insertInto offsets)).Order order)
    (htorn : readToString ((c.bytes offsets order).take n) = none) :
    OldOrNew offsets c (fun _ => none) ↔ Harmless offsets c order (.written n) := by
  have hunread : ¬ ∃ ds, readToString ((c.bytes offsets order).take n) = some ds := by
    rintro ⟨ds, hds⟩
    rw [htorn] at hds
    cases hds
  constructor
  · rintro ⟨hothers, hkey⟩
    have horder' : order = [c.key] := by
      apply order_singleton horder
      intro key hkey
      obtain ⟨hgroup, o, ho⟩ := (mem_groupOffsets horder key).1 hkey
      by_contra hne
      rw [get_insertInto_ne hne, ← hothers key hgroup hne] at ho
      cases ho
    have hnone : offsets.get c.key = none := by
      rcases hkey with hkey | hkey
      · exact hkey.symm
      · cases hkey
    refine Or.inr ⟨[], by rw [horder']; rfl, by simp [groupText], Or.inl ⟨hnone, ?_, Or.inl rfl⟩⟩
    by_contra hn
    apply hunread
    rw [Nat.not_le] at hn
    simp only [groupText, List.flatMap_nil, List.nil_append] at hn
    have hline : groupText (c.insertInto offsets) order =
        lineHead c.key ++ (digits c.offset ++ ['\n']) := by
      rw [horder']
      simp [groupText, entryLine, lineBody]
    have hascii : ∀ a ∈ digits c.offset ++ ['\n'], a.utf8Size = 1 := by
      intro a ha
      rcases List.mem_append.1 ha with ha | ha
      · exact utf8Size_of_isDigit (isDigit_of_mem_digits ha)
      · rw [List.mem_singleton.1 ha]
        decide
    refine ⟨lineHead c.key ++
      (digits c.offset ++ ['\n']).take (n - (utf8 (lineHead c.key)).length), ?_⟩
    rw [Commit.bytes, hline, utf8_append, List.take_append, take_utf8_ascii hascii,
      List.take_of_length_le (Nat.le_of_lt hn), ← utf8_append, readToString_utf8]
  · rintro (hwhole | ⟨others, rfl, -, hold⟩)
    · exact absurd (readable_of_whole horder hwhole) hunread
    · have hc : (c.insertInto offsets).get c.key = some c.offset := Table.get_insert_self ..
      rcases hold with ⟨hnone, -, rfl | ⟨piece, hpiece, hn⟩⟩ | ⟨k, -, hn, -⟩
      · refine ⟨fun key hgroup hne => ?_, Or.inl hnone.symm⟩
        rw [Eq.comm, Option.eq_none_iff_forall_ne_some]
        intro o ho
        rw [← get_insertInto_ne (c := c) hne] at ho
        have hmem := (mem_groupOffsets horder key).2 ⟨hgroup, o, ho⟩
        exact hne (by simpa using hmem)
      · exact absurd (readable_of_initial hpiece hn) hunread
      · refine absurd (readable_of_initial ?_ hn) hunread
        have hline : groupText (c.insertInto offsets) (others ++ [c.key]) =
            groupText (c.insertInto offsets) others ++ lineHead c.key ++
              (digits c.offset ++ ['\n']) := by
          simp [groupText, entryLine, lineBody]
        rw [hline]
        exact (List.prefix_append_right_inj _).2
          ((List.take_prefix _ _).trans (List.prefix_append _ _))

/-- What is read of a piece of the committed key's file: the whole lines `before`, and a value for
the key of the next one. -/
def foundIn (offsets : Table OffsetKey Nat) (before : List OffsetKey) (key : OffsetKey)
    (value : Option Nat) (x : OffsetKey) : Option Nat :=
  if x ∈ before then offsets.get x else if x = key then value else none

/-- The offset that a piece of a line spells is that of the whole line only if all digits are
there. -/
theorem eq_body_of_value {key : OffsetKey} {offset k : Nat} {piece : List Char}
    (hk : 0 < k) (hpiece : piece = lineHead key ++ firstDigits k offset)
    (hvalue : Nat.ofDigitChars 10 (firstDigits k offset) 0 = offset) :
    piece = lineBody key offset := by
  rw [hpiece, lineBody]
  congr 1
  by_contra hne
  have hlt : k < (digits offset).length := by
    by_contra hlen
    exact hne (List.take_of_length_le (Nat.not_lt.1 hlen))
  have := ofDigitChars_take_lt hk hlt
  rw [firstDigits] at hvalue
  omega

section Piece

variable {before after : List OffsetKey} {key : OffsetKey} {o : Nat} {piece : List Char}
  {value : Option Nat}

/-- How many bytes the lines of a file have. -/
theorem length_bytes_split (ho : (c.insertInto offsets).get key = some o) :
    (c.bytes offsets (before ++ key :: after)).length =
      (utf8 (groupText (c.insertInto offsets) before)).length + (utf8 (lineBody key o)).length + 1 +
        (utf8 (groupText (c.insertInto offsets) after)).length := by
  have hnewline : (utf8 ['\n']).length = 1 := by decide
  simp only [Commit.bytes, groupText, List.flatMap_append, List.flatMap_cons, entryLine, ho,
    utf8_append, List.length_append, hnewline]
  omega

theorem length_groupText_pos {keys : List OffsetKey} (hne : keys ≠ [])
    (h : ∀ k ∈ keys, ∃ o, (c.insertInto offsets).get k = some o) :
    0 < (utf8 (groupText (c.insertInto offsets) keys)).length := by
  obtain ⟨k, ks, rfl⟩ := List.exists_cons_of_ne_nil hne
  obtain ⟨o, ho⟩ := h k (List.mem_cons_self ..)
  have hnewline : (utf8 ['\n']).length = 1 := by decide
  simp only [groupText, List.flatMap_cons, entryLine, ho, utf8_append, List.length_append, hnewline]
  omega

/-- The value that a piece of a line has, as `parseLine_piece` finds it. -/
def PieceValue (key : OffsetKey) (o : Nat) (piece : List Char) (value : Option Nat) : Prop :=
  (piece <+: lineHead key ∧ value = none) ∨
    ∃ k, 0 < k ∧ piece = lineHead key ++ firstDigits k o ∧
      value = some (Nat.ofDigitChars 10 (firstDigits k o) 0)

theorem length_utf8_firstDigits_pos {k : Nat} (hk : 0 < k) (o : Nat) :
    0 < (firstDigits k o).length ∧ 0 < (utf8 (firstDigits k o)).length := by
  obtain ⟨a, as, has⟩ := List.exists_cons_of_ne_nil (digits_ne_nil o)
  obtain ⟨k, rfl⟩ := Nat.exists_eq_succ_of_ne_zero (Nat.pos_iff_ne_zero.1 hk)
  rw [firstDigits, has, List.take_succ_cons]
  exact ⟨Nat.succ_pos _, length_utf8_pos⟩

/-- The whole line spells its offset. -/
theorem PieceValue.of_whole (h : PieceValue key o piece value) (hpiece : piece <+: lineBody key o)
    (hlen : (utf8 (lineBody key o)).length ≤ (utf8 piece).length) : value = some o := by
  have hbody := eq_of_length_utf8_le hpiece hlen
  rcases h with ⟨hhead, -⟩ | ⟨k, -, hp, hv⟩
  · have hshort := hhead.length_le
    rw [hbody, lineBody, List.length_append] at hshort
    have := List.length_pos_of_ne_nil (digits_ne_nil o)
    omega
  · rw [hbody, lineBody] at hp
    rw [hv, ← List.append_cancel_left hp, ofDigitChars_digits]

/-- A line that was cut inside its head spells no offset. -/
theorem PieceValue.of_head (h : PieceValue key o piece value)
    (hlen : (utf8 piece).length ≤ (utf8 (lineHead key)).length) : value = none := by
  rcases h with ⟨-, hv⟩ | ⟨k, hk, hp, -⟩
  · exact hv
  · have hdigit := (length_utf8_firstDigits_pos hk o).2
    rw [hp, utf8_append, List.length_append] at hlen
    omega

/-- A line that was cut behind some digits spells these. -/
theorem PieceValue.of_digits (h : PieceValue key o piece value) (hpiece : piece <+: lineBody key o)
    {k : Nat} (hk : 0 < k)
    (hlen : (utf8 piece).length = (utf8 (lineHead key ++ firstDigits k o)).length) :
    value = some (Nat.ofDigitChars 10 (firstDigits k o) 0) := by
  have hinitial : lineHead key ++ firstDigits k o <+: lineBody key o :=
    (List.prefix_append_right_inj _).2 (List.take_prefix _ _)
  have heq : piece = lineHead key ++ firstDigits k o := by
    rcases List.prefix_or_prefix_of_prefix hpiece hinitial with hp | hp
    · exact eq_of_length_utf8_le hp (Nat.le_of_eq hlen.symm)
    · exact (eq_of_length_utf8_le hp (Nat.le_of_eq hlen)).symm
  rcases h with ⟨hhead, -⟩ | ⟨j, -, hp, hv⟩
  · have hshort := hhead.length_le
    have hdigit := (length_utf8_firstDigits_pos hk o).1
    rw [heq, List.length_append] at hshort
    omega
  · rw [heq] at hp
    rw [hv, List.append_cancel_left hp]

/-- The key of the piece has no other line. -/
theorem not_mem_of_nodup (hnodup : (before ++ key :: after).Nodup) :
    key ∉ before ∧ ∀ x ∈ after, x ∉ before ∧ x ≠ key := by
  obtain ⟨-, hafter, hdisjoint⟩ := List.nodup_append.1 hnodup
  refine ⟨fun hb => hdisjoint key hb key (List.mem_cons_self ..) rfl, fun x hx => ⟨?_, ?_⟩⟩
  · exact fun hb => hdisjoint x hb x (List.mem_cons_of_mem _ hx) rfl
  · rintro rfl
    exact (List.nodup_cons.1 hafter).1 hx

/-- **If nothing is lost**, the crash did no harm. -/
theorem harmless_of_oldOrNew
    (horder : (groupOffsets c.key.groupId (c.insertInto offsets)).Order (before ++ key :: after))
    (ho : (c.insertInto offsets).get key = some o) (hpiece : piece <+: lineBody key o)
    (hvalue : PieceValue key o piece value)
    (hn : n = (utf8 (groupText (c.insertInto offsets) before)).length + (utf8 piece).length)
    (h : OldOrNew offsets c (foundIn (c.insertInto offsets) before key value)) :
    Harmless offsets c (before ++ key :: after) (.written n) := by
  obtain ⟨hothers, hkey⟩ := h
  have hmem := mem_groupOffsets horder
  obtain ⟨hnot, hafter⟩ := not_mem_of_nodup horder.nodup
  -- a line behind the piece is lost, so it can only be the committed one
  have honly : ∀ x ∈ after, x = c.key := by
    intro x hx
    obtain ⟨hgroup, o', ho'⟩ := (hmem x).1 (by simp [hx])
    by_contra hne
    have hfound := hothers x hgroup hne
    rw [foundIn, if_neg (hafter x hx).1, if_neg (hafter x hx).2, ← get_insertInto_ne (c := c) hne,
      ho'] at hfound
    cases hfound
  -- the line of another key is there, but for the line break
  have hwhole : key ≠ c.key → piece = lineBody key o := by
    intro hne
    have hfound := hothers key ((hmem key).1 (by simp)).1 hne
    rw [foundIn, if_neg hnot, if_pos rfl, ← get_insertInto_ne (c := c) hne, ho] at hfound
    rcases hvalue with ⟨-, hv⟩ | ⟨k, hk, hp, hv⟩
    · rw [hv] at hfound
      cases hfound
    · rw [hv] at hfound
      exact eq_body_of_value hk hp (Option.some_inj.1 hfound)
  have hlength : (c.bytes offsets (before ++ key :: after)).length = _ := length_bytes_split ho
  have hinitial : groupText (c.insertInto offsets) before ++ piece <+:
      groupText (c.insertInto offsets) (before ++ key :: after) := by
    obtain ⟨r, hr⟩ := hpiece
    refine ⟨r ++ '\n' :: groupText (c.insertInto offsets) after, ?_⟩
    simp [groupText, entryLine, ho, ← hr]
  have hboundary : n = (utf8 (groupText (c.insertInto offsets) before ++ piece)).length := by
    rw [hn, utf8_append, List.length_append]
  cases after with
  | nil =>
    have hnil : (utf8 (groupText (c.insertInto offsets) [])).length = 0 := rfl
    by_cases hne : key = c.key
    · subst hne
      obtain rfl : c.offset = o := by
        rw [Table.get_insert_self] at ho
        exact Option.some_inj.1 ho
      rw [foundIn, if_neg hnot, if_pos rfl] at hkey
      rcases hvalue with ⟨hhead, hv⟩ | ⟨k, hk, hp, hv⟩
      · rw [hv] at hkey
        have hold : offsets.get c.key = none := by
          rcases hkey with hkey | hkey
          · exact hkey.symm
          · cases hkey
        have := length_utf8_le hhead
        refine Or.inr ⟨before, rfl, by omega, Or.inl ⟨hold, ?_, Or.inr ⟨_, hinitial, hboundary⟩⟩⟩
        rw [utf8_append, List.length_append]
        omega
      · rw [hv] at hkey
        rcases hkey with hkey | hkey
        · refine Or.inr ⟨before, rfl, by omega, Or.inr ⟨k, hk, ?_, hkey.symm⟩⟩
          simp only [hn, hp, utf8_append, List.length_append, Nat.add_assoc]
        · have hbody := eq_body_of_value hk hp (Option.some_inj.1 hkey)
          refine Or.inl ?_
          rw [hlength, hn, hbody]
          omega
    · refine Or.inl ?_
      rw [hlength, hn, hwhole hne]
      omega
  | cons x rest =>
    have hx := honly x (List.mem_cons_self ..)
    obtain rfl : rest = [] := by
      cases rest with
      | nil => rfl
      | cons y rest =>
        have hy := honly y (by simp)
        have hnodup := (List.nodup_cons.1 (List.nodup_cons.1
          (List.nodup_append.1 horder.nodup).2.1).2).1
        rw [hx, hy] at hnodup
        exact absurd (List.mem_cons_self ..) hnodup
    subst hx
    obtain ⟨hcnot, hne⟩ := hafter c.key (by simp)
    have hbody := hwhole (Ne.symm hne)
    have hold : offsets.get c.key = none := by
      rw [foundIn, if_neg hcnot, if_neg hne] at hkey
      rcases hkey with hkey | hkey
      · exact hkey.symm
      · cases hkey
    have hothers' : (utf8 (groupText (c.insertInto offsets) (before ++ [key]))).length = n + 1 := by
      have hnewline : (utf8 ['\n']).length = 1 := by decide
      simp only [groupText, List.flatMap_append, List.flatMap_singleton, entryLine, ho,
        utf8_append, List.length_append, hnewline, hn, hbody]
      omega
    refine Or.inr ⟨before ++ [key], by simp, by omega, Or.inl ⟨hold, ?_,
      Or.inr ⟨_, hinitial, hboundary⟩⟩⟩
    rw [utf8_append, List.length_append]
    omega

/-- Nothing of another key is lost, if its line is whole and only the committed line is behind it. -/
theorem foundIn_others
    (horder : (groupOffsets c.key.groupId (c.insertInto offsets)).Order (before ++ key :: after))
    (ho : (c.insertInto offsets).get key = some o) (hafter : ∀ x ∈ after, x = c.key)
    (hvalue : key ≠ c.key → value = some o) {x : OffsetKey} (hgroup : x.groupId = c.key.groupId)
    (hne : x ≠ c.key) :
    foundIn (c.insertInto offsets) before key value x = offsets.get x := by
  obtain ⟨hnot, -⟩ := not_mem_of_nodup horder.nodup
  by_cases hx : x ∈ before
  · rw [foundIn, if_pos hx, get_insertInto_ne hne]
  · by_cases hxk : x = key
    · subst hxk
      rw [foundIn, if_neg hnot, if_pos rfl, hvalue hne, ← ho, get_insertInto_ne hne]
    · rw [foundIn, if_neg hx, if_neg hxk, Eq.comm, Option.eq_none_iff_forall_ne_some]
      intro o' ho'
      rw [← get_insertInto_ne (c := c) hne] at ho'
      have hmem := (mem_groupOffsets horder x).2 ⟨hgroup, o', ho'⟩
      rw [List.mem_append, List.mem_cons] at hmem
      rcases hmem with hmem | hmem | hmem
      · exact hx hmem
      · exact hxk hmem
      · exact hne (hafter x hmem)

/-- **A file that lacks** at most the last line break spells the new offset. -/
theorem oldOrNew_of_whole
    (horder : (groupOffsets c.key.groupId (c.insertInto offsets)).Order (before ++ key :: after))
    (ho : (c.insertInto offsets).get key = some o) (hpiece : piece <+: lineBody key o)
    (hvalue : PieceValue key o piece value)
    (hn : n = (utf8 (groupText (c.insertInto offsets) before)).length + (utf8 piece).length)
    (hwhole : (c.bytes offsets (before ++ key :: after)).length ≤ n + 1) :
    OldOrNew offsets c (foundIn (c.insertInto offsets) before key value) := by
  have hlength : (c.bytes offsets (before ++ key :: after)).length = _ := length_bytes_split ho
  have hle := length_utf8_le hpiece
  obtain rfl : after = [] := by
    by_contra hne
    have := length_groupText_pos hne fun k hk => ((mem_groupOffsets horder k).1 (by simp [hk])).2
    omega
  have hv : value = some o := hvalue.of_whole hpiece (by omega)
  refine ⟨fun x hgroup hne => ?_, Or.inr ?_⟩
  · exact foundIn_others horder ho (fun x hx => absurd hx List.not_mem_nil) (fun _ => hv) hgroup hne
  · by_cases hc : c.key ∈ before
    · rw [foundIn, if_pos hc, Table.get_insert_self]
    · have hkey : c.key = key := by
        have := key_mem_order horder
        simpa [hc] using this
      rw [foundIn, if_neg hc, if_pos hkey, hv, ← ho, ← hkey, Table.get_insert_self]

/-- **A piece of the committed line** that spells the old offset. -/
theorem oldOrNew_of_own
    (horder : (groupOffsets c.key.groupId (c.insertInto offsets)).Order (before ++ [c.key]))
    (hold : value = offsets.get c.key) :
    OldOrNew offsets c (foundIn (c.insertInto offsets) before c.key value) := by
  have hc : (c.insertInto offsets).get c.key = some c.offset := Table.get_insert_self ..
  refine ⟨fun x hgroup hne => ?_, Or.inl ?_⟩
  · exact foundIn_others horder hc (fun x hx => absurd hx List.not_mem_nil)
      (fun hne => absurd rfl hne) hgroup hne
  · rw [foundIn, if_neg (not_mem_of_nodup horder.nodup).1, if_pos rfl, hold]

/-- **The committed line is lost**, and all the others are there. -/
theorem oldOrNew_of_lost
    (horder : (groupOffsets c.key.groupId (c.insertInto offsets)).Order
      (before ++ key :: [c.key]))
    (ho : (c.insertInto offsets).get key = some o) (hv : value = some o)
    (hnone : offsets.get c.key = none) :
    OldOrNew offsets c (foundIn (c.insertInto offsets) before key value) := by
  obtain ⟨-, hafter⟩ := not_mem_of_nodup horder.nodup
  obtain ⟨hcnot, hne⟩ := hafter c.key (List.mem_cons_self ..)
  refine ⟨fun x hgroup hxc => ?_, Or.inl ?_⟩
  · exact foundIn_others horder ho (fun x hx => List.mem_singleton.1 hx) (fun _ => hv) hgroup hxc
  · rw [foundIn, if_neg hcnot, if_neg hne, hnone]

/-- **A harmless crash** loses nothing. -/
theorem oldOrNew_of_harmless
    (horder : (groupOffsets c.key.groupId (c.insertInto offsets)).Order (before ++ key :: after))
    (ho : (c.insertInto offsets).get key = some o) (hpiece : piece <+: lineBody key o)
    (hvalue : PieceValue key o piece value)
    (hn : n = (utf8 (groupText (c.insertInto offsets) before)).length + (utf8 piece).length)
    (h : Harmless offsets c (before ++ key :: after) (.written n)) :
    OldOrNew offsets c (foundIn (c.insertInto offsets) before key value) := by
  rcases h with hwhole | ⟨others, hlist, hothers, hold⟩
  · exact oldOrNew_of_whole horder ho hpiece hvalue hn hwhole
  rcases List.eq_nil_or_concat' after with rfl | ⟨init, y, rfl⟩
  · obtain ⟨rfl, hkey⟩ := List.append_inj' hlist rfl
    obtain rfl := (List.cons.inj hkey).1
    obtain rfl : c.offset = o := by
      rw [Table.get_insert_self] at ho
      exact Option.some_inj.1 ho
    apply oldOrNew_of_own horder
    rcases hold with ⟨hnone, hhead, -⟩ | ⟨k, hk, hlen, hsome⟩
    · rw [hnone]
      apply hvalue.of_head
      rw [hn, utf8_append, List.length_append] at hhead
      omega
    · rw [hsome]
      apply hvalue.of_digits hpiece hk
      rw [hn] at hlen
      simp only [utf8_append, List.length_append] at hlen ⊢
      omega
  · have hlist' : (before ++ key :: init) ++ [y] = others ++ [c.key] := by
      rw [← hlist]
      simp
    obtain ⟨rfl, hy⟩ := List.append_inj' hlist' rfl
    obtain rfl := (List.cons.inj hy).1
    have hle := length_utf8_le hpiece
    have hsplit : (utf8 (groupText (c.insertInto offsets) (before ++ key :: init))).length =
        (utf8 (groupText (c.insertInto offsets) before)).length + (utf8 (lineBody key o)).length +
          1 + (utf8 (groupText (c.insertInto offsets) init)).length :=
      length_bytes_split ho
    obtain rfl : init = [] := by
      by_contra hne
      have := length_groupText_pos hne fun k hk => ((mem_groupOffsets horder k).1 (by simp [hk])).2
      omega
    refine oldOrNew_of_lost horder ho (hvalue.of_whole hpiece (by omega)) ?_
    rcases hold with ⟨hnone, -, -⟩ | ⟨k, hk, hlen, -⟩
    · exact hnone
    · have hdigit := (length_utf8_firstDigits_pos hk c.offset).2
      simp only [utf8_append, List.length_append] at hlen
      omega

end Piece

theorem oldOrNew_congr {found found' : OffsetKey → Option Nat}
    (h : ∀ key, key.groupId = c.key.groupId → found key = found' key) :
    OldOrNew offsets c found ↔ OldOrNew offsets c found' := by
  have hkeys : (∀ key, key.groupId = c.key.groupId → key ≠ c.key → found key = offsets.get key) ↔
      ∀ key, key.groupId = c.key.groupId → key ≠ c.key → found' key = offsets.get key := by
    apply forall_congr'
    intro key
    apply imp_congr_right
    intro hgroup
    rw [h key hgroup]
  unfold OldOrNew
  rw [hkeys, h c.key rfl]

/-- **Every cut** of the new file. -/
theorem cut_iff (hw : Writable (c.insertInto offsets))
    (horder : (groupOffsets c.key.groupId (c.insertInto offsets)).Order order) (n : Nat) :
    OldOrNew offsets c (fun key =>
        (fileTable c.key.groupId ((c.bytes offsets order).take n)).get key) ↔
      Harmless offsets c order (.written n) := by
  have hmem := mem_groupOffsets horder
  cases hread : readToString ((c.bytes offsets order).take n) with
  | none =>
    have hempty : fileTable c.key.groupId ((c.bytes offsets order).take n) = Table.empty := by
      simp only [fileTable, hread]
    rw [hempty]
    exact torn_character_iff horder hread
  | some ds =>
    obtain ⟨hinitial, hds⟩ := readToString_take hread
    rw [← Commit.bytes] at hds
    have hlen := congrArg List.length hds
    rw [List.length_take] at hlen
    rw [← hds]
    rcases prefix_groupText (fun k hk => ((hmem k).1 hk).2) hinitial with
      rfl | ⟨before, key, after, piece, rfl, hpiece, rfl⟩
    · rw [← Commit.bytes] at hlen
      refine iff_of_true ?_ (Or.inl (by omega))
      refine ⟨fun key hgroup hne => ?_, Or.inr ?_⟩
      · exact (fileTable_groupText hw horder hgroup).trans (get_insertInto_ne hne)
      · exact (fileTable_groupText hw horder rfl).trans (Table.get_insert_self ..)
    · obtain ⟨-, o, ho⟩ := (hmem key).1 (by simp)
      obtain ⟨htopic, hpartition, hoffset⟩ := hw key o ho
      have hbody : piece <+: lineBody key o := by
        simpa only [entryBody, ho] using hpiece
      have hsplit : (c.bytes offsets (before ++ key :: after)).length = _ := length_bytes_split ho
      have hle := length_utf8_le hbody
      rw [utf8_append, List.length_append] at hlen
      have hn : n = (utf8 (groupText (c.insertInto offsets) before)).length +
          (utf8 piece).length := by
        omega
      obtain ⟨value, hvalue, hparse⟩ : ∃ value, PieceValue key o piece value ∧
          parseLine piece = value.map fun v => (key.topic, key.partition, v) := by
        rcases parseLine_piece htopic hpartition hoffset hbody with
          ⟨hhead, hnone⟩ | ⟨k, hk, -, hp, hsome⟩
        · exact ⟨none, Or.inl ⟨hhead, rfl⟩, hnone⟩
        · exact ⟨_, Or.inr ⟨k, hk, hp, rfl⟩, hsome⟩
      have hfound : ∀ x, x.groupId = c.key.groupId → (fileTable c.key.groupId
            (utf8 (groupText (c.insertInto offsets) before ++ piece))).get x =
          foundIn (c.insertInto offsets) before key value x :=
        fun x _ => get_fileTable_piece hw (fun k hk => (hmem k).1 hk) horder.nodup hpiece hparse
      rw [oldOrNew_congr hfound]
      exact ⟨harmless_of_oldOrNew horder ho hbody hvalue hn,
        oldOrNew_of_harmless horder ho hbody hvalue hn⟩

end Torn

/-! ## Restarts -/

section Restart

variable {os : Os} {dataDir : Location} {s : OffsetStore} {c : Commit} {order : List OffsetKey}
  {files : Files}

/-- **A crash inside a commit** of a plain key leaves every key of the group with its old or its new
offset if and only if it is harmless. -/
theorem torn_commit_iff (hagree : FilesAgree dataDir s) (hc : c.Plain)
    (horder : (groupOffsets c.key.groupId (c.insertInto s.manager.offsets)).Order order)
    (point : CrashPoint) (hcrash : crashFiles os s c order point = some files) :
    AtomicCommit dataDir s c files ↔ Harmless s.manager.offsets c order point := by
  obtain ⟨listing₀, hlisting₀⟩ := (entries files dataDir).exists_order
  cases point with
  | beforeCreate =>
    cases hcrash
    refine iff_of_true ?_ trivial
    intro listing hlisting
    refine ⟨fun key hgroup _ => hagree.load (by rw [hgroup]; exact hc.1.1) hlisting, Or.inl ?_⟩
    exact hagree.load hc.1.1 hlisting
  | written n =>
    obtain ⟨loc, hloc, rfl⟩ := Option.map_eq_some_iff.1 hcrash
    rw [hagree.dir] at hloc
    obtain rfl := create_plain (not_mem_fileName hc.1) hloc
    have hothers : OthersRead (entries (s.files.insert (dataDir ++ [fileName c.key.groupId])
        ((c.bytes s.manager.offsets order).take n)) dataDir) c.key.groupId := by
      intro name bytes stem hget hsplit hne
      rw [entries_insert, Table.get_insert_ne _ hne] at hget
      exact hagree.othersRead c.key.groupId name bytes stem hget hsplit hne
    have hload : ∀ listing, (entries (s.files.insert (dataDir ++ [fileName c.key.groupId])
          ((c.bytes s.manager.offsets order).take n)) dataDir).Order listing →
        ∀ key : OffsetKey, key.groupId = c.key.groupId →
          (load (s.files.insert (dataDir ++ [fileName c.key.groupId])
              ((c.bytes s.manager.offsets order).take n)) listing (new dataDir)).2.fetchOffset key =
            (fileTable c.key.groupId ((c.bytes s.manager.offsets order).take n)).get key := by
      intro listing hlisting key hgroup
      rw [get_load (by rw [hgroup]; exact hc.1.1) (by rw [hgroup]; exact hothers) hlisting, hgroup,
        Table.get_insert_self]
      rfl
    rw [← cut_iff (writable_insert hagree.writable hc) horder n]
    constructor
    · intro h
      exact (oldOrNew_congr (hload listing₀ hlisting₀)).1 (h listing₀ hlisting₀)
    · intro h listing hlisting
      exact (oldOrNew_congr (hload listing hlisting)).2 h

end Restart

/-! ## Two crashes -/

/-- A group with one offset. -/
theorem exists_stored : ∃ s, FilesAgree [['d'], ['o']] s ∧
    s.manager = (new [['d'], ['o']]).insertOffset ⟨"a", "orders", 0⟩ 5 := by
  obtain ⟨s, hs⟩ := Option.isSome_iff_exists.1 (show ((OffsetStore.init [['d'], ['o']]
    Table.empty).next plainOs (ordersCommit "a" "orders" 5 (by decide),
      [⟨"a", "orders", 0⟩], .done)).isSome = true by decide +kernel)
  have hagree := (agrees_init (freshDir_empty [['d'], ['o']])).step (by decide) rfl hs
  obtain ⟨-, loc, -, rfl⟩ := next_commit hs
  exact ⟨_, hagree, rfl⟩

/-- The crash comes behind the first digit of the new offset, which is the old one. -/
theorem torn_commit_iff_digit : ∃ s files,
    crashFiles plainOs s (ordersCommit "a" "orders" 57 (by decide)) [⟨"a", "orders", 0⟩]
      (.written 10) = some files ∧
    AtomicCommit [['d'], ['o']] s (ordersCommit "a" "orders" 57 (by decide)) files := by
  obtain ⟨s, hagree, hs⟩ := exists_stored
  obtain ⟨files, hfiles⟩ : ∃ files, crashFiles plainOs s
      (ordersCommit "a" "orders" 57 (by decide)) [⟨"a", "orders", 0⟩] (.written 10) =
      some files := by
    rw [← Option.isSome_iff_exists, crashFiles, Option.isSome_map, hs]
    decide +kernel
  refine ⟨s, files, hfiles, (torn_commit_iff hagree (by decide) ?_ _ hfiles).2 ?_⟩
  · rw [hs]
    decide +kernel
  · rw [hs]
    refine Or.inr ⟨[], rfl, by decide +kernel, Or.inr ⟨1, by decide, by decide +kernel, ?_⟩⟩
    decide +kernel

/-- The crash comes right behind the truncation. -/
theorem torn_commit_loses : ¬ ∀ (s : OffsetStore) (c : Commit) (order : List OffsetKey)
    (point : CrashPoint) (files : Files), FilesAgree [['d'], ['o']] s → c.Plain →
    (groupOffsets c.key.groupId (c.insertInto s.manager.offsets)).Order order →
    crashFiles plainOs s c order point = some files → AtomicCommit [['d'], ['o']] s c files := by
  intro h
  obtain ⟨s, hagree, hs⟩ := exists_stored
  have hplain : (ordersCommit "a" "logs" 1 (by decide)).Plain := by decide
  have horder : (groupOffsets "a" ((ordersCommit "a" "logs" 1 (by decide)).insertInto
      s.manager.offsets)).Order [⟨"a", "logs", 0⟩, ⟨"a", "orders", 0⟩] := by
    rw [hs]
    decide +kernel
  obtain ⟨files, hfiles⟩ : ∃ files, crashFiles plainOs s (ordersCommit "a" "logs" 1 (by decide))
      [⟨"a", "logs", 0⟩, ⟨"a", "orders", 0⟩] (.written 0) = some files := by
    rw [← Option.isSome_iff_exists, crashFiles, Option.isSome_map, hs]
    decide +kernel
  have hatomic := h s _ _ _ files hagree hplain horder hfiles
  rcases (torn_commit_iff hagree hplain horder _ hfiles).1 hatomic with
    hwhole | ⟨others, hothers, -⟩
  · rw [hs] at hwhole
    exact absurd hwhole (by decide +kernel)
  · have hlast := congrArg List.getLast? hothers
    rw [List.getLast?_concat] at hlast
    exact absurd hlast (by decide)

end Gaffa
