import Gaffa.Lib.Transition
import Gaffa.Storage.DataDir
import Gaffa.Storage.LogRun

/-!
# Which topics come back

`TopicManager::open` reads the topics from the names of the directories that `create_topic` made.
A name that is not the name of a directory entry is not read back, and a creation that fails leaves
the partitions it has made.

* `createPartition_plain`, `newTopic_plain`: what a creation leaves in the directory of its topic.
* `openTopic_whole`, `openTopic_leftover`: what is opened, and what is skipped.
* `topics_survive`: when the topics that come back are those that were created.
-/

set_option autoImplicit false

namespace Gaffa

open ByteString FileSystem DirTree Transition TopicStore

variable {K : Crates} {dataDir : Location} {t t' : Tree} {name : String}

/-! ## The shape of the data directory -/

/-- The data directory holds topic directories, these hold partition directories, and neither holds
a file. -/
structure Laid (dataDir : Location) (t : Tree) : Prop where
  root : t.get dataDir = some Table.empty
  topic : ∀ x content, t.get (dataDir ++ [x]) = some content →
    content = Table.empty ∧ Normal x ∧ '/' ∉ x
  partition : ∀ x entry, isDir t (dataDir ++ [x, entry]) = true →
    isDir t (dataDir ++ [x]) = true ∧ ∃ id < 2 ^ 32, entry = partitionName id
  deep : ∀ x entry below, isDir t (dataDir ++ [x, entry, below]) = false

/-- What the directory of a partition holds. -/
def contents (t : Tree) (dataDir : Location) (x : Name) (id : Nat) : Option Dir :=
  t.get (dataDir ++ [x, partitionName id])

theorem Laid.files_root (h : Laid dataDir t) : files t dataDir = Table.empty :=
  files_of_get h.root

theorem Laid.files_topic (h : Laid dataDir t) (x : Name) :
    files t (dataDir ++ [x]) = Table.empty := by
  unfold files
  cases hget : t.get (dataDir ++ [x]) with
  | none => rfl
  | some content => exact (h.topic x content hget).1

/-- Making or changing one partition directory keeps the shape. -/
theorem Laid.change (h : Laid dataDir t) {x : Name} {id : Nat} (hx : Normal x ∧ '/' ∉ x)
    (hid : id < 2 ^ 32)
    (hother : ∀ loc, loc ≠ dataDir ++ [x] → loc ≠ dataDir ++ [x, partitionName id] →
      t'.get loc = t.get loc)
    (htopic : t'.get (dataDir ++ [x]) = some Table.empty ∨
      t'.get (dataDir ++ [x]) = t.get (dataDir ++ [x]))
    (hparent : isDir t' (dataDir ++ [x, partitionName id]) = true →
      isDir t' (dataDir ++ [x]) = true) : Laid dataDir t' := by
  refine ⟨?_, ?_, ?_, ?_⟩
  · rw [hother dataDir (by simp) (by simp)]
    exact h.root
  · intro y content hget
    by_cases hy : y = x
    · subst hy
      rcases htopic with hnew | hold
      · rw [hnew] at hget
        cases hget
        exact ⟨rfl, hx⟩
      · rw [hold] at hget
        exact h.topic y content hget
    · rw [hother _ (by simpa using hy) (by simp)] at hget
      exact h.topic y content hget
  · intro y entry hdir
    by_cases hloc : dataDir ++ [y, entry] = dataDir ++ [x, partitionName id]
    · obtain ⟨rfl, rfl⟩ : y = x ∧ entry = partitionName id := by simpa using hloc
      exact ⟨hparent hdir, id, hid, rfl⟩
    · have hsame := hother _ (by simp) hloc
      rw [isDir, hsame] at hdir
      obtain ⟨htop, hname⟩ := h.partition y entry hdir
      refine ⟨?_, hname⟩
      by_cases hy : y = x
      · subst hy
        rcases htopic with hnew | hold
        · rw [isDir, hnew]
          rfl
        · rw [isDir, hold]
          exact htop
      · rw [isDir, hother _ (by simpa using hy) (by simp)]
        exact htop
  · intro y entry below
    rw [isDir, hother _ (by simp) (by simp)]
    exact h.deep y entry below

/-! ## What a creation leaves -/

/-- The files of a partition's first segment. -/
def made : Dir := (LogSegment.create 0 SegmentConfig.default Table.empty).1

/-- The log without the index. -/
def logOnly : Dir := touch (logPath 0) Table.empty

/-- What one iteration of `Topic::new` leaves in the directory of the partition. -/
def laid (io : SetupIo) (old : Option Dir) : Option Dir :=
  match io.mkdir, io.files with
  | .fails _ _, _ => old
  | .done, .logFails _ => some (old.getD Table.empty)
  | .done, .indexFails _ => some (touch (logPath 0) (old.getD Table.empty))
  | .done, .done => some (LogSegment.create 0 SegmentConfig.default (old.getD Table.empty)).1

theorem unlessDir_laid (h : Laid dataDir t) (x entry : Name) (io : CreateIo) :
    unlessDir t (dataDir ++ [x, entry]) 0 io = io := by
  unfold unlessDir
  rw [List.append_assoc, List.append_assoc]
  cases io <;> simp [h.deep]

/-- The directories of a partition's path, made. -/
theorem mkdirAll_laid (h : Laid dataDir t) {x : Name} (hx : Normal x) (id : Nat) :
    mkdirAll dataDir [x, partitionName id] t =
      (some (dataDir ++ [x, partitionName id]),
        mkdir (dataDir ++ [x, partitionName id]) (mkdir (dataDir ++ [x]) t)) := by
  obtain ⟨hnil, hdot, hdots⟩ := hx
  obtain ⟨hnil', hdot', hdots'⟩ := normal_partitionName id
  simp [mkdirAll, hnil, hdot, hdots, hnil', hdot', hdots', isFile, h.files_root, h.files_topic]

theorem mkdirAll_topic (h : Laid dataDir t) {x : Name} (hx : Normal x) (after : Nat) :
    (mkdirAll dataDir ([x].take after) t).2 = t ∨
      (mkdirAll dataDir ([x].take after) t).2 = mkdir (dataDir ++ [x]) t := by
  obtain ⟨hnil, hdot, hdots⟩ := hx
  cases after with
  | zero => exact Or.inl rfl
  | succ after =>
    right
    simp [mkdirAll, hnil, hdot, hdots, isFile, h.files_root]

/-- The directory of a topic is made. -/
theorem Laid.enter (h : Laid dataDir t) {x : Name} (hx : Normal x ∧ '/' ∉ x) :
    Laid dataDir (mkdir (dataDir ++ [x]) t) ∧
      ∀ y j, contents (mkdir (dataDir ++ [x]) t) dataDir y j = contents t dataDir y j := by
  have hother : ∀ loc, loc ≠ dataDir ++ [x] → (mkdir (dataDir ++ [x]) t).get loc = t.get loc := by
    intro loc hne
    rw [get_mkdir, if_neg hne]
  have htopic : (mkdir (dataDir ++ [x]) t).get (dataDir ++ [x]) = some Table.empty := by
    rw [get_mkdir, if_pos rfl, h.files_topic]
  have hparent : isDir (mkdir (dataDir ++ [x]) t) (dataDir ++ [x, partitionName 0]) = true →
      isDir (mkdir (dataDir ++ [x]) t) (dataDir ++ [x]) = true := by
    intro _
    rw [isDir, htopic]
    rfl
  refine ⟨h.change hx (by decide) (fun loc hne _ => hother loc hne) (Or.inl htopic) hparent, ?_⟩
  · intro y j
    exact hother _ (by simp)

/-- The directory of a partition is made, and holds `d`. -/
theorem Laid.place (h : Laid dataDir t) {x : Name} (hx : Normal x ∧ '/' ∉ x) {id : Nat}
    (hid : id < 2 ^ 32) {d : Dir}
    (hget : ∀ loc, t'.get loc = if loc = dataDir ++ [x, partitionName id] then some d
      else if loc = dataDir ++ [x] then some Table.empty else t.get loc) :
    Laid dataDir t' ∧ ∀ y j, contents t' dataDir y j =
      if y = x ∧ j = id then some d else contents t dataDir y j := by
  have htopic : t'.get (dataDir ++ [x]) = some Table.empty := by
    rw [hget, if_neg (by simp), if_pos rfl]
  refine ⟨h.change hx hid ?_ (Or.inl htopic) ?_, ?_⟩
  · intro loc hne hne'
    rw [hget, if_neg hne', if_neg hne]
  · intro _
    rw [isDir, htopic]
    rfl
  · intro y j
    unfold contents
    rw [hget]
    simp [partitionName_inj]

/-- **One iteration** of `Topic::new`, for a plain name. -/
theorem createPartition_plain (h : Laid dataDir t) (hname : Plain name) {id : Nat}
    (hid : id < 2 ^ 32) (io : SetupIo) :
    Laid dataDir (createPartition io dataDir name id t).2 ∧
      (∀ x j, contents (createPartition io dataDir name id t).2 dataDir x j =
        if x = name.toList ∧ j = id then laid io (contents t dataDir x j)
        else contents t dataDir x j) ∧
      ((∃ p, (createPartition io dataDir name id t).1 = .ok p) ↔ io = .done) := by
  obtain ⟨mkdirIo, filesIo⟩ := io
  cases mkdirIo with
  | fails after e =>
    have htree : Laid dataDir (createPartition ⟨.fails after e, filesIo⟩ dataDir name id t).2 ∧
        ∀ x j, contents (createPartition ⟨.fails after e, filesIo⟩ dataDir name id t).2 dataDir x j
          = contents t dataDir x j := by
      have hdrop : (partitionPath name id).dropLast = [name.toList] := by
        rw [hname.partitionPath]
        rfl
      simp only [createPartition, makePartitionDir, hdrop, hname.joinStart]
      rcases mkdirAll_topic h hname.1 after with hsame | henter
      · rw [hsame]
        exact ⟨h, fun _ _ => rfl⟩
      · rw [henter]
        exact h.enter hname
    refine ⟨htree.1, ?_, ?_⟩
    · intro x j
      rw [htree.2, laid, ite_self]
    · refine iff_of_false ?_ (by simp [SetupIo.done])
      rintro ⟨p, hp⟩
      simp only [createPartition, makePartitionDir] at hp
      cases hp
  | done =>
    obtain ⟨t₁, ht₁⟩ : ∃ t₁, t₁ = mkdir (dataDir ++ [name.toList, partitionName id])
      (mkdir (dataDir ++ [name.toList]) t) := ⟨_, rfl⟩
    have hdir : makePartitionDir .done dataDir name id t =
        (.ok (dataDir ++ [name.toList, partitionName id]), t₁) := by
      simp only [makePartitionDir, hname.joinStart, hname.partitionPath, mkdirAll_laid h hname.1,
        ht₁]
    have hold : files t₁ (dataDir ++ [name.toList, partitionName id]) =
        (contents t dataDir name.toList id).getD Table.empty := by
      rw [ht₁, files_mkdir, files_mkdir]
      rfl
    have hget : ∀ loc, t₁.get loc = if loc = dataDir ++ [name.toList, partitionName id]
        then some ((contents t dataDir name.toList id).getD Table.empty)
        else if loc = dataDir ++ [name.toList] then some Table.empty else t.get loc := by
      intro loc
      rw [ht₁, get_mkdir, get_mkdir, files_mkdir, h.files_topic]
      rfl
    have hput : ∀ d loc, (t₁.insert (dataDir ++ [name.toList, partitionName id]) d).get loc =
        if loc = dataDir ++ [name.toList, partitionName id] then some d
        else if loc = dataDir ++ [name.toList] then some Table.empty else t.get loc := by
      intro d loc
      rw [Table.get_insert, hget]
      split
      · rfl
      · rfl
    have hcontents : ∀ {d : Dir} {filesIo : CreateIo} {t' : Tree},
        laid ⟨.done, filesIo⟩ (contents t dataDir name.toList id) = some d →
        (∀ y j, contents t' dataDir y j =
          if y = name.toList ∧ j = id then some d else contents t dataDir y j) →
        ∀ x j, contents t' dataDir x j = if x = name.toList ∧ j = id
          then laid ⟨.done, filesIo⟩ (contents t dataDir x j) else contents t dataDir x j := by
      intro d filesIo t' hlaid hplace x j
      rw [hplace]
      split
      · rename_i heq
        obtain ⟨rfl, rfl⟩ := heq
        rw [hlaid]
      · rfl
    obtain ⟨hlaid₁, hcontents₁⟩ := h.place hname hid hget
    unfold createPartition
    simp only [hdir, unlessDir_laid hlaid₁, hold]
    cases filesIo with
    | logFails e =>
      exact ⟨hlaid₁, hcontents rfl hcontents₁, iff_of_false (by simp) (by simp [SetupIo.done])⟩
    | indexFails e =>
      obtain ⟨hlaid, hplace⟩ := h.place hname hid (hput _)
      exact ⟨hlaid, hcontents rfl hplace, iff_of_false (by simp) (by simp [SetupIo.done])⟩
    | done =>
      obtain ⟨hlaid, hplace⟩ := h.place hname hid (hput _)
      exact ⟨hlaid, hcontents rfl hplace, iff_of_true ⟨_, rfl⟩ rfl⟩

/-- **The loop** of `Topic::new`, for a plain name: it stops at the first partition that the file
system refuses. -/
theorem newTopic_plain (hname : Plain name) (io : Nat → SetupIo) : ∀ (m start : Nat) {t : Tree},
    start + m ≤ 2 ^ 32 → Laid dataDir t →
    Laid dataDir (newTopic io dataDir name (List.range' start m) t).2 ∧
      ∃ stop, start ≤ stop ∧ stop ≤ start + m ∧ (∀ i, start ≤ i → i < stop → io i = .done) ∧
        ((stop = start + m ∧
            ∃ ps, (newTopic io dataDir name (List.range' start m) t).1 = .ok ps) ∨
          (stop < start + m ∧ io stop ≠ .done ∧
            ∃ e, (newTopic io dataDir name (List.range' start m) t).1 = .error e)) ∧
        ∀ x j, contents (newTopic io dataDir name (List.range' start m) t).2 dataDir x j =
          if x = name.toList ∧ start ≤ j ∧ j < start + m ∧ j ≤ stop
          then laid (io j) (contents t dataDir x j) else contents t dataDir x j
  | 0, start, t, _, h => by
    refine ⟨h, start, Nat.le_refl _, Nat.le_refl _, ?_, Or.inl ⟨rfl, [], rfl⟩, ?_⟩
    · intro i hle hlt
      omega
    · intro x j
      rw [if_neg (by omega)]
      rfl
  | m + 1, start, t, hbound, h => by
    obtain ⟨hlaid, hcontents, hok⟩ :=
      createPartition_plain h hname (show start < 2 ^ 32 by omega) (io start)
    rw [List.range'_succ]
    unfold newTopic
    cases hcreate : createPartition (io start) dataDir name start t with
    | mk out t₁ =>
      rw [hcreate] at hlaid hcontents hok
      cases out with
      | error e =>
        have hne : io start ≠ .done := by
          intro hdone
          obtain ⟨p, hp⟩ := hok.2 hdone
          cases hp
        refine ⟨hlaid, start, Nat.le_refl _, by omega, ?_, Or.inr ⟨by omega, hne, e, rfl⟩, ?_⟩
        · intro i hle hlt
          omega
        · intro x j
          rw [hcontents]
          split
          · rename_i heq
            obtain ⟨rfl, rfl⟩ := heq
            rw [if_pos ⟨rfl, Nat.le_refl _, by omega, Nat.le_refl _⟩]
          · rename_i hne
            rw [if_neg]
            rintro ⟨rfl, hj⟩
            exact hne ⟨rfl, by omega⟩
      | ok p =>
        have hdone : io start = .done := hok.1 ⟨p, rfl⟩
        obtain ⟨hlaid', stop, hle, hle', hdones, hout, hrest⟩ :=
          newTopic_plain hname io m (start + 1) (t := t₁) (by omega) hlaid
        have hcontents' : ∀ x j,
            contents (newTopic io dataDir name (List.range' (start + 1) m) t₁).2 dataDir x j =
              if x = name.toList ∧ start ≤ j ∧ j < start + (m + 1) ∧ j ≤ stop
              then laid (io j) (contents t dataDir x j) else contents t dataDir x j := by
          intro x j
          rw [hrest, hcontents]
          by_cases hstart : x = name.toList ∧ j = start
          · -- the partition of this iteration, which the later ones leave alone
            obtain ⟨rfl, rfl⟩ := hstart
            rw [if_neg (by omega), if_pos ⟨rfl, rfl⟩, if_pos ⟨rfl, by omega⟩]
          · rw [if_neg hstart]
            by_cases hlater : x = name.toList ∧ start + 1 ≤ j ∧ j < start + 1 + m ∧ j ≤ stop
            · rw [if_pos hlater, if_pos ⟨hlater.1, by omega⟩]
            · rw [if_neg hlater, if_neg]
              rintro ⟨rfl, hj⟩
              have hne : j ≠ start := fun heq => hstart ⟨rfl, heq⟩
              exact hlater ⟨rfl, by omega⟩
        have hdones' : ∀ i, start ≤ i → i < stop → io i = .done := by
          intro i hi hlt
          rcases Nat.eq_or_lt_of_le hi with rfl | hi
          · exact hdone
          · exact hdones i hi hlt
        cases hnew : newTopic io dataDir name (List.range' (start + 1) m) t₁ with
        | mk out' t₂ =>
          rw [hnew] at hlaid' hout hcontents'
          rcases hout with ⟨hstop, ps, hps⟩ | ⟨hstop, hne, e, he⟩
          · simp only at hps
            subst hps
            simp only [hnew]
            exact ⟨hlaid', stop, by omega, by omega, hdones',
              Or.inl ⟨by omega, _, rfl⟩, hcontents'⟩
          · simp only at he
            subst he
            simp only [hnew]
            exact ⟨hlaid', stop, by omega, by omega, hdones',
              Or.inr ⟨by omega, hne, _, rfl⟩, hcontents'⟩

/-! ## What is opened -/

/-- A topic whose partitions are all there. -/
def AllMade (c : Nat → Option Dir) (n : Nat) : Prop := ∀ i, c i = if i < n then some made else none

/-- What creations that failed have left: the last partition has no index. -/
structure Leftover (c : Nat → Option Dir) (k : Nat) : Prop where
  absent : ∀ i, k ≤ i → c i = none
  whole : ∀ i, i + 1 < k → c i = some made
  cut : ∀ i, i + 1 = k → c i = some Table.empty ∨ c i = some logOnly

theorem Leftover.isSome_iff {c : Nat → Option Dir} {k : Nat} (h : Leftover c k) (i : Nat) :
    (c i).isSome = true ↔ i < k := by
  rcases Nat.lt_or_ge i k with hlt | hge
  · refine iff_of_true ?_ hlt
    rcases Nat.eq_or_lt_of_le hlt with hlast | hlt
    · rcases h.cut i hlast with hempty | hlog
      · rw [hempty]
        rfl
      · rw [hlog]
        rfl
    · rw [h.whole i hlt]
      rfl
  · rw [h.absent i hge]
    exact iff_of_false (by simp) (by omega)

theorem AllMade.isSome_iff {c : Nat → Option Dir} {n : Nat} (h : AllMade c n) (i : Nat) :
    (c i).isSome = true ↔ i < n := by
  rw [h i]
  split
  · exact iff_of_true rfl (by assumption)
  · exact iff_of_false (by simp) (by assumption)

theorem get_logOnly (file : FileName) :
    logOnly.get file = if file = logPath 0 then some [] else none := get_touch ..

theorem get_made (file : FileName) :
    made.get file = if file = indexPath 0 then some [] else logOnly.get file := by
  have hindex : logOnly.get (indexPath 0) = none := by
    rw [get_logOnly, if_neg (logPath_ne_indexPath 0 0).symm]
  unfold made LogSegment.create
  rw [get_touch, show (touch (logPath 0) Table.empty).get (indexPath 0) = none from hindex]
  rfl

theorem touch_log_made : touch (logPath 0) made = made := by
  have hlog : made.get (logPath 0) = some [] := by
    rw [get_made, if_neg (logPath_ne_indexPath 0 0), get_logOnly, if_pos rfl]
  exact touch_of_get hlog

theorem touch_log_logOnly : touch (logPath 0) logOnly = logOnly := by
  have hlog : logOnly.get (logPath 0) = some [] := by
    rw [get_logOnly, if_pos rfl]
  exact touch_of_get hlog

theorem laid_made (io : SetupIo) : laid io (some made) = some made := by
  have hcreate : (LogSegment.create 0 SegmentConfig.default made).1 = made := by
    have hindex : made.get (indexPath 0) = some [] := by
      rw [get_made, if_pos rfl]
    unfold LogSegment.create
    rw [touch_log_made, touch_of_get hindex]
  unfold laid
  split
  · rfl
  · rfl
  · rw [Option.getD_some, touch_log_made]
  · rw [Option.getD_some, hcreate]

theorem laid_done {old : Option Dir}
    (h : old = none ∨ old = some Table.empty ∨ old = some logOnly) :
    laid .done old = some made := by
  have hlog : touch (logPath 0) (old.getD Table.empty) = logOnly := by
    rcases h with rfl | rfl | rfl
    · rfl
    · rfl
    · exact touch_log_logOnly
  simp only [laid, SetupIo.done, LogSegment.create, hlog]
  rfl

theorem laid_cut {io : SetupIo} (hne : io ≠ .done) (hmkdir : io.mkdir = .done)
    {old : Option Dir} (h : old = none ∨ old = some Table.empty ∨ old = some logOnly) :
    laid io old = some Table.empty ∨ laid io old = some logOnly := by
  obtain ⟨mkdirIo, filesIo⟩ := io
  simp only at hmkdir
  subst hmkdir
  cases filesIo with
  | done => exact absurd rfl hne
  | logFails e =>
    rcases h with rfl | rfl | rfl
    · exact Or.inl rfl
    · exact Or.inl rfl
    · exact Or.inr rfl
  | indexFails e =>
    right
    rcases h with rfl | rfl | rfl
    · rfl
    · rfl
    · exact congrArg some touch_log_logOnly

section Settle

variable {c c' : Nat → Option Dir} {k n stop : Nat} {io : Nat → SetupIo}

/-- The iterations before the one that fails complete their partitions. -/
theorem Leftover.completed (h : Leftover c k) (hdone : io n = .done) :
    laid (io n) (c n) = some made := by
  rw [hdone]
  rcases Nat.lt_or_ge (n + 1) k with hlt | hge
  · rw [h.whole n hlt]
    exact laid_made _
  · rcases Nat.eq_or_lt_of_le hge with heq | hlt
    · exact laid_done (Or.inr (h.cut n heq.symm))
    · exact laid_done (Or.inl (h.absent n (by omega)))

/-- **A creation that succeeds** over what others left. -/
theorem Leftover.succeeds (h : Leftover c k) (hk : k ≤ n) (hdone : ∀ i, i < n → io i = .done)
    (hc' : ∀ j, c' j = if j < n then laid (io j) (c j) else c j) : AllMade c' n := by
  intro i
  rw [hc']
  split
  · rename_i hlt
    exact h.completed (hdone i hlt)
  · rename_i hge
    exact h.absent i (by omega)

/-- **A creation that fails** after what others left. -/
theorem Leftover.fails (h : Leftover c k) (hdone : ∀ i, i < stop → io i = .done)
    (hne : io stop ≠ .done) (hmkdir : (io stop).mkdir ≠ .done → stop = 0 ∨ stop < k)
    (hc' : ∀ j, c' j = if j ≤ stop then laid (io j) (c j) else c j) : ∃ k', Leftover c' k' := by
  have hbefore : ∀ i, i < stop → c' i = some made := by
    intro i hlt
    rw [hc', if_pos (Nat.le_of_lt hlt)]
    exact h.completed (hdone i hlt)
  have hafter : ∀ i, stop < i → c' i = c i := by
    intro i hlt
    rw [hc', if_neg (Nat.not_le_of_lt hlt)]
  have hat : c' stop = laid (io stop) (c stop) := by rw [hc', if_pos (Nat.le_refl _)]
  have hmade : stop + 1 < k → c' stop = some made := by
    intro hlt
    rw [hat, h.whole stop hlt]
    exact laid_made _
  by_cases hdir : (io stop).mkdir = .done
  · -- the directory of the partition is there, its index is not
    have hcut : k ≤ stop + 1 → c' stop = some Table.empty ∨ c' stop = some logOnly := by
      intro hle
      rw [hat]
      apply laid_cut hne hdir
      rcases Nat.eq_or_lt_of_le hle with heq | hlt
      · exact Or.inr (h.cut stop heq.symm)
      · exact Or.inl (h.absent stop (by omega))
    refine ⟨max k (stop + 1), ?_, ?_, ?_⟩
    · intro i hi
      rw [hafter i (by omega)]
      exact h.absent i (by omega)
    · intro i hi
      rcases Nat.lt_trichotomy i stop with hlt | rfl | hlt
      · exact hbefore i hlt
      · exact hmade (by omega)
      · rw [hafter i hlt]
        exact h.whole i (by omega)
    · intro i hi
      rcases Nat.lt_trichotomy i stop with hlt | rfl | hlt
      · omega
      · exact hcut (by omega)
      · rw [hafter i hlt]
        exact h.cut i (by omega)
  · -- no directory is made, and the last one of before still has no index
    have hsame : c' stop = c stop := by
      rw [hat]
      unfold laid
      split
      · rfl
      all_goals exact absurd (by assumption) hdir
    have hstop := hmkdir hdir
    have hrest : ∀ i, k ≤ i + 1 → c' i = c i := by
      intro i hi
      rcases Nat.lt_trichotomy i stop with hlt | rfl | hlt
      · omega
      · exact hsame
      · exact hafter i hlt
    refine ⟨k, ?_, ?_, ?_⟩
    · intro i hi
      rw [hrest i (by omega)]
      exact h.absent i hi
    · intro i hi
      rcases Nat.lt_trichotomy i stop with hlt | rfl | hlt
      · exact hbefore i hlt
      · exact hmade hi
      · rw [hafter i hlt]
        exact h.whole i hi
    · intro i hi
      rw [hrest i (by omega)]
      exact h.cut i hi

end Settle

section Reopen

variable {listing : Listing} {id k n : Nat}

/-- The segments that `Partition::open` finds: the one whose log is there. -/
theorem segmentOffsets_laid (h : Laid dataDir t) (hlists : Lists t listing) {x : Name} {d : Dir}
    (hd : contents t dataDir x id = some d)
    (hfiles : ∀ file bytes, d.get file = some bytes → file = indexPath 0 ∨ file = logPath 0) :
    ((listing (dataDir ++ [x, partitionName id])).filterMap segmentOffset).mergeSort =
      if (d.get (logPath 0)).isSome then [0] else [] := by
  have hdir : isDir t (dataDir ++ [x, partitionName id]) = true := isDir_iff.2 ⟨d, hd⟩
  have hmem : ∀ file, file ∈ listing (dataDir ++ [x, partitionName id]) ↔
      (d.get file).isSome = true := by
    intro file
    rw [hlists.mem_iff hdir, isFile, files_of_get hd, List.append_assoc]
    simp [h.deep]
  apply Table.mergeSort_filterMap (g := logPath) (hlists.nodup _ ((t.mem_keys _).2 hdir))
  · split <;> simp
  · intro file hfile offset
    obtain ⟨bytes, hbytes⟩ := Option.isSome_iff_exists.1 ((hmem file).1 hfile)
    rcases hfiles file bytes hbytes with rfl | rfl
    · rw [segmentOffset_indexPath]
      refine iff_of_false (by simp) ?_
      rintro ⟨-, hlog⟩
      exact logPath_ne_indexPath _ _ hlog.symm
    · rw [segmentOffset_logPath (by decide), if_pos (Option.isSome_iff_exists.2 ⟨bytes, hbytes⟩),
        List.mem_singleton, Option.some_inj, logPath_inj]
      exact ⟨fun h => ⟨h.symm, h⟩, fun h => h.2⟩
  · intro offset hoffset
    split at hoffset
    · rename_i hlog
      rw [List.mem_singleton.1 hoffset]
      exact (hmem _).2 hlog
    · cases hoffset

theorem openPartition_whole (h : Laid dataDir t) (hlists : Lists t listing) (hname : Plain name)
    (hmade : contents t dataDir name.toList id = some made) :
    ∃ p, openPartition K listing t dataDir name id = .ok p := by
  have hlog : made.get (logPath 0) = some [] := by
    rw [get_made, if_neg (logPath_ne_indexPath 0 0), get_logOnly, if_pos rfl]
  have hindex : made.get (indexPath 0) = some [] := by
    rw [get_made, if_pos rfl]
  have hoffsets := segmentOffsets_laid h hlists hmade (by
    intro file bytes hget
    rw [get_made] at hget
    split at hget
    · exact Or.inl (by assumption)
    · rw [get_logOnly] at hget
      split at hget
      · exact Or.inr (by assumption)
      · cases hget)
  rw [hlog, Option.isSome_some, if_pos rfl] at hoffsets
  have hsegment : ∃ segment, LogSegment.open_ K 0 SegmentConfig.default made = .ok segment := by
    unfold LogSegment.open_
    rw [hlog, hindex]
    exact ⟨_, rfl⟩
  obtain ⟨segment, hsegment⟩ := hsegment
  unfold openPartition
  rw [hname.topicDir, List.append_assoc]
  simp only [List.cons_append, List.nil_append]
  rw [if_pos (isDir_iff.2 ⟨made, hmade⟩), files_of_get hmade]
  unfold Partition.openWithConfig
  rw [hoffsets]
  simp only [Partition.openSegments, hsegment]
  exact ⟨_, rfl⟩

theorem openPartition_cut (h : Laid dataDir t) (hlists : Lists t listing) (hname : Plain name)
    (hcut : contents t dataDir name.toList id = some Table.empty ∨
      contents t dataDir name.toList id = some logOnly) :
    ∃ e, openPartition K listing t dataDir name id = .error (.error e) := by
  unfold openPartition
  rw [hname.topicDir, List.append_assoc]
  simp only [List.cons_append, List.nil_append]
  rcases hcut with hempty | hlog
  · have hoffsets := segmentOffsets_laid h hlists hempty (by
      intro file bytes hget
      cases hget)
    rw [Table.get_empty, Option.isSome_none, if_neg Bool.false_ne_true] at hoffsets
    rw [if_pos (isDir_iff.2 ⟨_, hempty⟩), files_of_get hempty]
    unfold Partition.openWithConfig
    rw [hoffsets]
    exact ⟨_, rfl⟩
  · have hget : logOnly.get (logPath 0) = some [] := by
      rw [get_logOnly, if_pos rfl]
    have hoffsets := segmentOffsets_laid h hlists hlog (by
      intro file bytes hget
      rw [get_logOnly] at hget
      split at hget
      · exact Or.inr (by assumption)
      · cases hget)
    rw [hget, Option.isSome_some, if_pos rfl] at hoffsets
    have hsegment : LogSegment.open_ K 0 SegmentConfig.default logOnly =
        .error LogSegment.noSuchFile := by
      unfold LogSegment.open_
      rw [hget, get_logOnly, if_neg (logPath_ne_indexPath 0 0).symm]
    rw [if_pos (isDir_iff.2 ⟨_, hlog⟩), files_of_get hlog]
    unfold Partition.openWithConfig
    rw [hoffsets]
    simp only [Partition.openSegments, hsegment]
    exact ⟨_, rfl⟩

/-- The partitions that `Topic::open` finds, in order. -/
theorem partitionIds_laid (h : Laid dataDir t) (hlists : Lists t listing) {x : Name}
    (hdir : isDir t (dataDir ++ [x]) = true)
    (hk : ∀ i, (contents t dataDir x i).isSome = true ↔ i < k) :
    partitionIds listing t (dataDir ++ [x]) = List.range k := by
  have hentry : ∀ entry, isDir t (dataDir ++ [x] ++ [entry]) = true →
      ∃ i < 2 ^ 32, entry = partitionName i := by
    intro entry hentry
    rw [List.append_assoc] at hentry
    exact (h.partition x entry hentry).2
  have hisDir : ∀ i, isDir t (dataDir ++ [x] ++ [partitionName i]) = true ↔ i < k := by
    intro i
    rw [List.append_assoc]
    exact hk i
  unfold partitionIds
  have hnodup := (hlists.nodup _ ((t.mem_keys _).2 hdir)).filter
    fun entry => isDir t (dataDir ++ [x] ++ [entry])
  apply Table.mergeSort_filterMap (g := partitionName) hnodup List.pairwise_lt_range
  · intro entry hmem i
    have hentryDir := (List.mem_filter.1 hmem).2
    obtain ⟨j, hj, rfl⟩ := hentry entry hentryDir
    rw [partitionId_partitionName hj, Option.some_inj, partitionName_inj, List.mem_range]
    constructor
    · rintro rfl
      exact ⟨(hisDir j).1 hentryDir, rfl⟩
    · rintro ⟨-, rfl⟩
      rfl
  · intro i hi
    have hentryDir := (hisDir i).2 (List.mem_range.1 hi)
    exact List.mem_filter.2 ⟨(hlists.mem_iff hdir).2 (Or.inr hentryDir), hentryDir⟩

theorem openPartitions_whole (h : Laid dataDir t) (hlists : Lists t listing) (hname : Plain name) :
    ∀ {ids : List Nat}, (∀ i ∈ ids, contents t dataDir name.toList i = some made) →
      ∃ ps, openPartitions K listing t dataDir name ids = .ok ps
  | [], _ => ⟨[], rfl⟩
  | id :: ids, hids => by
    obtain ⟨hid, hids⟩ := List.forall_mem_cons.1 hids
    obtain ⟨p, hp⟩ := openPartition_whole (K := K) h hlists hname hid
    obtain ⟨ps, hps⟩ := openPartitions_whole h hlists hname hids
    refine ⟨p :: ps, ?_⟩
    unfold openPartitions
    rw [hp]
    simp only [hps]

theorem openPartitions_cut (h : Laid dataDir t) (hlists : Lists t listing) (hname : Plain name)
    (hcut : contents t dataDir name.toList id = some Table.empty ∨
      contents t dataDir name.toList id = some logOnly) :
    ∀ {ids : List Nat}, (∀ i ∈ ids, contents t dataDir name.toList i = some made) →
      ∃ e, openPartitions K listing t dataDir name (ids ++ [id]) = .error (.error e)
  | [], _ => by
    obtain ⟨e, he⟩ := openPartition_cut (K := K) h hlists hname hcut
    refine ⟨e, ?_⟩
    rw [List.nil_append]
    unfold openPartitions
    rw [he]
  | i :: ids, hids => by
    obtain ⟨hi, hids⟩ := List.forall_mem_cons.1 hids
    obtain ⟨p, hp⟩ := openPartition_whole (K := K) h hlists hname hi
    obtain ⟨e, he⟩ := openPartitions_cut h hlists hname hcut hids
    refine ⟨e, ?_⟩
    rw [List.cons_append]
    unfold openPartitions
    rw [hp]
    simp only [he]

/-- **A topic whose partitions are all there** is opened with all of them. -/
theorem openTopic_whole (h : Laid dataDir t) (hlists : Lists t listing) (hname : Plain name)
    (hn : 0 < n) (hmade : AllMade (contents t dataDir name.toList) n) :
    isDir t (dataDir ++ [name.toList]) = true ∧
      ∃ topic, openTopic K listing t dataDir name = .ok topic ∧ topic.partitions.length = n ∧
        ∀ i < n, ∃ p, topic.getPartition i = .ok p ∧ p.partition.partitionId = i := by
  have hfirst : isDir t (dataDir ++ [name.toList, partitionName 0]) = true :=
    (hmade.isSome_iff 0).2 hn
  have hdir := (h.partition _ _ hfirst).1
  have hids := partitionIds_laid h hlists hdir hmade.isSome_iff
  obtain ⟨ps, hps⟩ : ∃ ps, openPartitions K listing t dataDir name (List.range n) = .ok ps := by
    apply openPartitions_whole h hlists hname
    intro i hi
    rw [hmade i, if_pos (List.mem_range.1 hi)]
  have hopen : openTopic K listing t dataDir name = .ok ⟨name, ps⟩ := by
    unfold openTopic
    rw [hname.topicDir, hids]
    cases hrange : List.range n with
    | nil =>
      rw [List.range_eq_nil] at hrange
      omega
    | cons id ids =>
      rw [hrange] at hps
      simp only [hps]
  obtain ⟨-, -, hforall⟩ := openTopic_ok hopen
  rw [hname.topicDir, hids] at hforall
  have hlength : ps.length = n := by
    rw [← hforall.length_eq, List.length_range]
  refine ⟨hdir, _, hopen, hlength, fun i hi => ?_⟩
  have hps : i < ps.length := by omega
  have hp := List.forall₂_iff_get.1 hforall
  refine ⟨ps[i], ?_, ?_⟩
  · unfold StoredTopic.getPartition
    rw [List.getElem?_eq_getElem hps]
  · have hget := hp.2 i (by simpa using hi) hps
    simpa using (openPartition_ok hget).2.2

/-- **What a failed creation has left** is not opened. -/
theorem openTopic_leftover (h : Laid dataDir t) (hlists : Lists t listing) (hname : Plain name)
    (hdir : isDir t (dataDir ++ [name.toList]) = true)
    (hleft : Leftover (contents t dataDir name.toList) k) :
    ∃ e, openTopic K listing t dataDir name = .error (.error e) := by
  have hids := partitionIds_laid h hlists hdir hleft.isSome_iff
  unfold openTopic
  rw [hname.topicDir, hids]
  cases k with
  | zero => exact ⟨_, rfl⟩
  | succ k =>
    obtain ⟨e, he⟩ : ∃ e, openPartitions K listing t dataDir name (List.range k ++ [k]) =
        .error (.error e) := by
      apply openPartitions_cut h hlists hname (hleft.cut k rfl)
      intro i hi
      exact hleft.whole i (Nat.succ_lt_succ (List.mem_range.1 hi))
    rw [List.range_succ]
    cases hrange : List.range k ++ [k] with
    | nil => simp at hrange
    | cons id ids =>
      rw [hrange] at he
      simp only [he]
      exact ⟨e, rfl⟩

end Reopen

/-! ## Runs of creations -/

/-- A call of `create_topic`; the number of partitions is a `u32`. -/
structure Creation where
  name : String
  partitions : Nat
  bound : partitions < 2 ^ 32
  io : Nat → SetupIo

/-- The topic manager, and what was asked of it by the calls that succeeded. -/
structure CreationState where
  store : TopicStore
  created : Table String Nat

/-- A topic manager on a data directory. -/
def CreationState.new (t : Tree) : CreationState := ⟨⟨Table.empty, t⟩, Table.empty⟩

/-- One call. -/
def creationNext (dataDir : Location) (s : CreationState) (call : Creation) :
    Option CreationState :=
  let r := s.store.createTopic call.io dataDir call.name call.partitions
  some ⟨r.2, match r.1 with
    | .ok _ => s.created.insert call.name call.partitions
    | .error _ => s.created⟩

/-- `TopicManager::open` yields the topics that were created, with their partitions. -/
def ComesBack (K : Crates) (dataDir : Location) (s : CreationState) : Prop :=
  ∀ listing, Lists s.store.tree listing →
    ∃ opened, open_ K listing dataDir s.store.tree = .ok opened ∧
      (∀ name, (opened.topics.get name).map StoredTopic.numPartitions = s.created.get name) ∧
      ∀ name topic, opened.topics.get name = some topic → ∀ i < topic.numPartitions,
        ∃ p, topic.getPartition i = .ok p ∧ p.partition.partitionId = i

/-- The call is refused; or it makes nothing; or its name is a plain one, and it creates at least
one partition and no fewer than are there, or fails without leaving complete partitions only. -/
def Lasting (dataDir : Location) (s : CreationState) (call : Creation) (_ : CreationState) : Prop :=
  (s.store.topics.get call.name).isSome = true ∨
  (0 < call.partitions ∧ (call.io 0).mkdir.refuses = true) ∨
  (Plain call.name ∧
    ((∀ i < call.partitions, call.io i = .done) → 0 < call.partitions ∧
      ∀ entry ∈ subdirectories s.store.tree (dataDir ++ [call.name.toList]),
        ∃ i < call.partitions, entry = partitionName i) ∧
    ∀ i < call.partitions, (∀ j < i, call.io j = .done) → (call.io i).mkdir ≠ .done →
      i = 0 ∨ isDir s.store.tree (dataDir ++ [call.name.toList, partitionName i]) = true)

instance decidableLasting (s : CreationState) (call : Creation) (s' : CreationState) :
    Decidable (Lasting dataDir s call s') :=
  inferInstanceAs (Decidable (_ ∨ _ ∨ _))

/-- What the calls so far have made. -/
structure Stocked (dataDir : Location) (s : CreationState) : Prop where
  laid : Laid dataDir s.store.tree
  served : ∀ name topic, s.store.topics.get name = some topic → Plain name ∧
    ∃ n, s.created.get name = some n ∧ 0 < n ∧ n < 2 ^ 32 ∧
      AllMade (contents s.store.tree dataDir name.toList) n
  rest : ∀ name, s.store.topics.get name = none → s.created.get name = none ∧
    ∃ k, Leftover (contents s.store.tree dataDir name.toList) k

theorem Laid.plain (h : Laid dataDir t) (hdir : isDir t (dataDir ++ [name.toList]) = true) :
    Plain name := by
  obtain ⟨content, hget⟩ := isDir_iff.1 hdir
  exact (h.topic _ content hget).2

/-- What the entries of the data directory open to. -/
theorem Stocked.openTopic {s : CreationState} (h : Stocked dataDir s) {listing : Listing}
    (hlists : Lists s.store.tree listing)
    (hdir : isDir s.store.tree (dataDir ++ [name.toList]) = true) :
    (∃ topic n, openTopic K listing s.store.tree dataDir name = .ok topic ∧
      s.created.get name = some n) ∨
    (s.created.get name = none ∧
      ∃ e, openTopic K listing s.store.tree dataDir name = .error (.error e)) := by
  cases hget : s.store.topics.get name with
  | some topic =>
    obtain ⟨hname, n, hn, hpos, -, hmade⟩ := h.served name topic hget
    obtain ⟨-, opened, hopen, -⟩ := openTopic_whole (K := K) h.laid hlists hname hpos hmade
    exact Or.inl ⟨opened, n, hopen, hn⟩
  | none =>
    obtain ⟨hnone, k, hleft⟩ := h.rest name hget
    exact Or.inr ⟨hnone, openTopic_leftover h.laid hlists (h.laid.plain hdir) hdir hleft⟩

theorem Stocked.comesBack {s : CreationState} (h : Stocked dataDir s) : ComesBack K dataDir s := by
  intro listing hlists
  have hroot : isDir s.store.tree dataDir = true := isDir_iff.2 ⟨_, h.laid.root⟩
  obtain ⟨topics, htopics⟩ : ∃ topics,
      openTopics K listing s.store.tree dataDir (listing dataDir) Table.empty = .ok topics := by
    apply openTopics_total
    intro entry hentry
    have hdir : isDir s.store.tree (dataDir ++ [(String.ofList entry).toList]) = true := by
      rw [String.toList_ofList]
      refine ((hlists.mem_iff hroot).1 hentry).resolve_left ?_
      rw [isFile, h.laid.files_root]
      simp
    rcases h.openTopic (K := K) hlists hdir with ⟨topic, -, hopen, -⟩ | ⟨-, e, hopen⟩
    · rw [hopen]
      rfl
    · rw [hopen]
      rfl
  have hopen : open_ K listing dataDir s.store.tree = .ok ⟨topics, s.store.tree⟩ := by
    unfold open_
    rw [if_pos hroot, htopics]
  have hserved := (served_iff hlists hroot hopen).2
  refine ⟨_, hopen, ?_, ?_⟩
  · intro name
    cases hget : s.store.topics.get name with
    | some topic =>
      obtain ⟨hname, n, hn, hpos, hbound, hmade⟩ := h.served name topic hget
      obtain ⟨hdir, opened, hopened, hlength, -⟩ :=
        openTopic_whole (K := K) h.laid hlists hname hpos hmade
      rw [(hserved name opened).2 ⟨hdir, hopened⟩, hn, Option.map_some, StoredTopic.numPartitions,
        hlength, Nat.mod_eq_of_lt hbound]
    | none =>
      rw [(h.rest name hget).1, Option.map_eq_none_iff, Option.eq_none_iff_forall_ne_some]
      intro topic htopic
      obtain ⟨hdir, hopened⟩ := (hserved name topic).1 htopic
      rcases h.openTopic (K := K) hlists hdir with ⟨-, n, -, hn⟩ | ⟨-, e, he⟩
      · rw [(h.rest name hget).1] at hn
        cases hn
      · rw [hopened] at he
        cases he
  · intro name topic htopic
    obtain ⟨hdir, hopened⟩ := (hserved name topic).1 htopic
    cases hget : s.store.topics.get name with
    | some _ =>
      obtain ⟨hname, n, -, hpos, hbound, hmade⟩ := h.served name _ hget
      obtain ⟨-, topic', hopened', hlength, hparts⟩ :=
        openTopic_whole (K := K) h.laid hlists hname hpos hmade
      obtain rfl : topic = topic' := by
        rw [hopened] at hopened'
        exact Except.ok.inj hopened'
      rw [StoredTopic.numPartitions, hlength, Nat.mod_eq_of_lt hbound]
      exact hparts
    | none =>
      obtain ⟨-, k, hleft⟩ := h.rest name hget
      obtain ⟨e, he⟩ := openTopic_leftover (K := K) h.laid hlists (h.laid.plain hdir) hdir hleft
      rw [hopened] at he
      cases he

/-- A call whose first directory is refused leaves the file system as it is. -/
theorem newTopic_refused {io : Nat → SetupIo} {partitions : Nat} (dataDir : Location)
    (name : String) (t : Tree) (hpos : 0 < partitions)
    (hio : (io 0).mkdir.refuses = true) :
    ∃ e, newTopic io dataDir name (List.range partitions) t = (.error e, t) := by
  obtain ⟨n, rfl⟩ := Nat.exists_eq_succ_of_ne_zero (Nat.pos_iff_ne_zero.1 hpos)
  rw [List.range_succ_eq_map]
  unfold MkdirIo.refuses at hio
  split at hio
  · rename_i e heq
    refine ⟨.io e, ?_⟩
    simp only [newTopic, createPartition, heq, makePartitionDir, List.take_zero, mkdirAll]
  · cases hio

/-- Other topics keep their directories. -/
theorem Stocked.others {s : CreationState} (h : Stocked dataDir s)
    {topics : Table String StoredTopic} {created : Table String Nat} (name : String)
    (hlaid : Laid dataDir t)
    (htopics : ∀ other, other ≠ name → topics.get other = s.store.topics.get other)
    (hcreated : ∀ other, other ≠ name → created.get other = s.created.get other)
    (hcontents : ∀ other, other ≠ name → ∀ id,
      contents t dataDir other.toList id = contents s.store.tree dataDir other.toList id)
    (hthis : (∃ topic n, topics.get name = some topic ∧ Plain name ∧ created.get name = some n ∧
        0 < n ∧ n < 2 ^ 32 ∧ AllMade (contents t dataDir name.toList) n) ∨
      (topics.get name = none ∧ created.get name = none ∧
        ∃ k, Leftover (contents t dataDir name.toList) k)) :
    Stocked dataDir ⟨⟨topics, t⟩, created⟩ := by
  have hsame : ∀ other, other ≠ name → contents t dataDir other.toList =
      contents s.store.tree dataDir other.toList := by
    intro other hne
    funext id
    exact hcontents other hne id
  refine ⟨hlaid, ?_, ?_⟩
  · intro other topic hget
    by_cases hother : other = name
    · subst hother
      rcases hthis with ⟨topic', n, htopic, hname, hn⟩ | ⟨hnone, -⟩
      · exact ⟨hname, n, hn⟩
      · rw [hnone] at hget
        cases hget
    · simp only [htopics other hother] at hget
      obtain ⟨hname, n, hn, hpos, hbound, hmade⟩ := h.served other topic hget
      exact ⟨hname, n, (hcreated other hother).trans hn, hpos, hbound, hsame other hother ▸ hmade⟩
  · intro other hget
    by_cases hother : other = name
    · subst hother
      rcases hthis with ⟨topic', n, htopic, -⟩ | ⟨-, hnone, hleft⟩
      · rw [htopic] at hget
        cases hget
      · exact ⟨hnone, hleft⟩
    · simp only [htopics other hother] at hget
      obtain ⟨hnone, k, hleft⟩ := h.rest other hget
      exact ⟨(hcreated other hother).trans hnone, k, hsame other hother ▸ hleft⟩

/-- The whole loop of `Topic::new`: it makes every partition or stops at one; other topics keep
their directories. -/
theorem newTopic_range (hname : Plain name) {io : Nat → SetupIo} {n : Nat} (hn : n < 2 ^ 32)
    (h : Laid dataDir t) {result : Except GaffaError (List StoredPartition)} {t' : Tree}
    (hnew : newTopic io dataDir name (List.range n) t = (result, t')) :
    Laid dataDir t' ∧
      (∀ other, other ≠ name → ∀ id,
        contents t' dataDir other.toList id = contents t dataDir other.toList id) ∧
      ((∃ ps, result = .ok ps ∧ (∀ i, i < n → io i = .done) ∧
          ∀ j, contents t' dataDir name.toList j = if j < n
            then laid (io j) (contents t dataDir name.toList j)
            else contents t dataDir name.toList j) ∨
        (∃ e stop, result = .error e ∧ stop < n ∧ io stop ≠ .done ∧ (∀ i, i < stop → io i = .done) ∧
          ∀ j, contents t' dataDir name.toList j = if j ≤ stop
            then laid (io j) (contents t dataDir name.toList j)
            else contents t dataDir name.toList j)) := by
  obtain ⟨hlaid, stop, -, -, hdones, hout, hcontents⟩ :=
    newTopic_plain hname io n 0 (by omega) h
  rw [← List.range_eq_range', hnew] at hlaid hout hcontents
  refine ⟨hlaid, ?_, ?_⟩
  · intro other hother id
    rw [hcontents, if_neg]
    rintro ⟨heq, -⟩
    exact hother (String.toList_inj.1 heq)
  · rcases hout with ⟨hall, ps, hps⟩ | ⟨hlt, hne, e, he⟩
    · refine Or.inl ⟨ps, hps, fun i hi => hdones i (by omega) (by omega), ?_⟩
      intro j
      simp only [hcontents, true_and]
      congr 1
      simp only [eq_iff_iff]
      omega
    · refine Or.inr ⟨e, stop, he, by omega, hne, fun i hi => hdones i (by omega) hi, ?_⟩
      intro j
      simp only [hcontents, true_and]
      congr 1
      simp only [eq_iff_iff]
      omega

theorem Stocked.next {s s' : CreationState} {call : Creation} (h : Stocked dataDir s)
    (hstep : creationNext dataDir s call = some s') (hlasting : Lasting dataDir s call s') :
    Stocked dataDir s' := by
  cases hstep
  rcases createTopic_cases call.io dataDir call.name call.partitions s.store with
    ⟨-, e, hrefused⟩ | ⟨hnone, e, t, hnew, hfailed⟩ | ⟨hnone, ps, t, hnew, hdone⟩
  · rw [hrefused]
    exact h
  · rw [hfailed]
    obtain ⟨hcreated, k, hleft⟩ := h.rest _ hnone
    rcases hlasting with hsome | ⟨hpos, hio⟩ | ⟨hname, -, hmkdir⟩
    · rw [hnone] at hsome
      cases hsome
    · obtain ⟨e', hrefused⟩ := newTopic_refused dataDir call.name s.store.tree hpos hio
      rw [hrefused] at hnew
      cases hnew
      exact h
    · obtain ⟨hlaid, hothers, ⟨ps, hps, -⟩ | ⟨e', stop, -, hlt, hne, hdones, hcontents⟩⟩ :=
        newTopic_range hname call.bound h.laid hnew
      · cases hps
      · refine h.others call.name hlaid (fun _ _ => rfl) (fun _ _ => rfl) hothers
          (Or.inr ⟨hnone, hcreated, ?_⟩)
        apply hleft.fails hdones hne ?_ hcontents
        intro hmk
        rcases hmkdir stop hlt hdones hmk with hzero | hdir
        · exact Or.inl hzero
        · exact Or.inr ((hleft.isSome_iff stop).1 hdir)
  · rw [hdone]
    obtain ⟨-, k, hleft⟩ := h.rest _ hnone
    rcases hlasting with hsome | ⟨hpos, hio⟩ | ⟨hname, hfits, -⟩
    · rw [hnone] at hsome
      cases hsome
    · obtain ⟨e', hrefused⟩ := newTopic_refused dataDir call.name s.store.tree hpos hio
      rw [hrefused] at hnew
      cases hnew
    · obtain ⟨hlaid, hothers, ⟨ps', -, hdones, hcontents⟩ | ⟨e', stop, he, -⟩⟩ :=
        newTopic_range hname call.bound h.laid hnew
      · obtain ⟨hpos, hentries⟩ := hfits hdones
        have hk : k ≤ call.partitions := by
          by_contra hlt
          have hdir := (hleft.isSome_iff call.partitions).2 (by omega)
          obtain ⟨i, hi, heq⟩ := hentries (partitionName call.partitions) (by
            rw [mem_subdirectories, List.append_assoc]
            exact hdir)
          rw [partitionName_inj] at heq
          omega
        exact h.others call.name hlaid (fun _ hne => Table.get_insert_ne _ hne)
          (fun _ hne => Table.get_insert_ne _ hne) hothers
          (Or.inl ⟨_, call.partitions, Table.get_insert_self .., hname, Table.get_insert_self ..,
            hpos, call.bound, hleft.succeeds hk hdones hcontents⟩)
      · cases he

/-- An empty data directory. -/
def Fresh (dataDir : Location) (t : Tree) : Prop :=
  t.get dataDir = some Table.empty ∧ ∀ loc ∈ t.keys, dataDir <+: loc → loc = dataDir

theorem Fresh.isDir (h : Fresh dataDir t) (below : Location) (hne : below ≠ []) :
    isDir t (dataDir ++ below) = false := by
  rw [← Bool.not_eq_true]
  intro hdir
  have hkey := (t.mem_keys _).2 hdir
  have heq := h.2 _ hkey (List.prefix_append ..)
  exact hne (List.append_right_eq_self.1 heq)

theorem Fresh.laid (h : Fresh dataDir t) : Laid dataDir t := by
  refine ⟨h.1, ?_, ?_, ?_⟩
  · intro x content hget
    have hdir := h.isDir [x] (by simp)
    rw [DirTree.isDir, hget] at hdir
    cases hdir
  · intro x entry hdir
    rw [h.isDir [x, entry] (by simp)] at hdir
    cases hdir
  · intro x entry below
    exact h.isDir [x, entry, below] (by simp)

theorem Fresh.contents (h : Fresh dataDir t) (x : Name) (id : Nat) :
    contents t dataDir x id = none := by
  have hdir := h.isDir [x, partitionName id] (by simp)
  exact Option.not_isSome_iff_eq_none.1 (Bool.not_eq_true _ ▸ hdir)

theorem stocked_new (h : Fresh dataDir t) : Stocked dataDir (CreationState.new t) := by
  refine ⟨h.laid, ?_, ?_⟩
  · intro name topic hget
    cases hget
  · intro name _
    exact ⟨rfl, 0, fun i _ => h.contents _ i, fun _ _ => by omega, fun _ _ => by omega⟩

/-- **Topics come back exactly**, on every run of calls that each leave what lasts. -/
theorem topics_survive (hfresh : Fresh dataDir t) {tr : List (Creation × CreationState)}
    (hrun : Run (Steps (creationNext dataDir)) (CreationState.new t) tr)
    (hlasting : EachStep (Lasting dataDir) (CreationState.new t) tr) :
    Throughout (ComesBack K dataDir) (CreationState.new t) tr := by
  have hstocked : Throughout (Stocked dataDir) (CreationState.new t) tr := by
    apply throughout_of_invariant _ (stocked_new hfresh) hrun hlasting
    intro s call s' h hstep hcall
    exact h.next hstep hcall
  exact hstocked.mono fun s h => h.comesBack

/-! ## Two runs -/

/-- An empty data directory `/d`. -/
def emptyDataDir : Tree := (Table.empty.insert [] Table.empty).insert [['d']] Table.empty

theorem fresh_emptyDataDir : Fresh [['d']] emptyDataDir := by
  refine ⟨rfl, ?_⟩
  decide

def SetupIo.indexFails : SetupIo := ⟨.done, .indexFails "No space left on device (os error 28)"⟩

/-- A creation that fails at its second partition and is tried again, and one that is refused. -/
def retriedCreations : List Creation :=
  [⟨"a", 2, by decide, fun i => if i = 1 then .indexFails else .done⟩,
    ⟨"b/c", 1, by decide, fun _ => ⟨.fails 0 "Permission denied (os error 13)", .done⟩⟩,
    ⟨"a", 3, by decide, fun _ => .done⟩]

theorem topics_survive_retried :
    ∃ tr, trace (creationNext [['d']]) (CreationState.new emptyDataDir) retriedCreations = some tr ∧
      Throughout (ComesBack plainCrates [['d']]) (CreationState.new emptyDataDir) tr := by
  obtain ⟨tr, htr⟩ := Option.isSome_iff_exists.1 (show (trace (creationNext [['d']])
    (CreationState.new emptyDataDir) retriedCreations).isSome = true by decide +kernel)
  have hlasting : ∀ tr ∈ trace (creationNext [['d']]) (CreationState.new emptyDataDir)
      retriedCreations, EachStep (Lasting [['d']]) (CreationState.new emptyDataDir) tr := by
    decide +kernel
  exact ⟨tr, htr, topics_survive fresh_emptyDataDir (run_of_trace htr) (hlasting tr htr)⟩

/-- A name that is a path of two components. -/
def nestedCreation : List Creation := [⟨"a/b", 1, by decide, fun _ => .done⟩]

/-- Its directory is `/d/a/b`, and `/d/a` holds no partitions. -/
theorem nested_topic_lost : ¬ ∀ tr : List (Creation × CreationState),
    Run (Steps (creationNext [['d']])) (CreationState.new emptyDataDir) tr →
    Throughout (ComesBack plainCrates [['d']]) (CreationState.new emptyDataDir) tr := by
  intro h
  obtain ⟨tr, htr⟩ := Option.isSome_iff_exists.1 (show (trace (creationNext [['d']])
    (CreationState.new emptyDataDir) nestedCreation).isSome = true by decide +kernel)
  have hlast : ∀ tr ∈ trace (creationNext [['d']]) (CreationState.new emptyDataDir) nestedCreation,
      (last (CreationState.new emptyDataDir) tr).created.get "a/b" = some 1 ∧
      isDir (last (CreationState.new emptyDataDir) tr).store.tree [['d']] = true ∧
      isDir (last (CreationState.new emptyDataDir) tr).store.tree [['d'], ['a', '/', 'b']] = false := by
    decide +kernel
  obtain ⟨hcreated, hroot, hnodir⟩ := hlast tr htr
  obtain ⟨listing, hlists⟩ := exists_lists (last (CreationState.new emptyDataDir) tr).store.tree
  obtain ⟨opened, hopen, hnames, -⟩ := (h tr (run_of_trace htr)).at_last listing hlists
  have hname := hnames "a/b"
  rw [hcreated, Option.map_eq_some_iff] at hname
  obtain ⟨topic, htopic, -⟩ := hname
  obtain ⟨hdir, -⟩ := ((served_iff hlists hroot hopen).2 "a/b" topic).1 htopic
  exact absurd (hnodir.symm.trans hdir) (by decide)

end Gaffa
