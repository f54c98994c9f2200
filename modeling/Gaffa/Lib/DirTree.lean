import Gaffa.Lib.FileSystem

/-!
# Directory trees

The directories of a file system, each with its files.  Directories are made along a path, which is
resolved component by component, and are never removed.

* `mkdirAll_location`: a path that can be made leads where it resolves to.
* `get_mkdirAll`: directories that exist stay as they are, the new ones are empty.
* `exists_lists`: every tree can be listed.
-/

set_option autoImplicit false

namespace DirTree

open ByteString FileSystem

abbrev Tree := Table Location (Table Name Bytes)

/-- An order in which each directory is listed. -/
abbrev Listing := Location → List Name

/-- The files of a directory; one that does not exist has none. -/
def files (t : Tree) (dir : Location) : Table Name Bytes := (t.get dir).getD Table.empty

def isDir (t : Tree) (dir : Location) : Bool := (t.get dir).isSome

def isFile (t : Tree) (dir : Location) (name : Name) : Bool := ((files t dir).get name).isSome

/-- The directory is made, unless it is there. -/
def mkdir (dir : Location) (t : Tree) : Tree :=
  match t.get dir with
  | some _ => t
  | none => t.insert dir Table.empty

/-- A component that names an entry of a directory. -/
def Normal (name : Name) : Prop := name ≠ [] ∧ name ≠ ['.'] ∧ name ≠ ['.', '.']

instance decidableNormal (name : Name) : Decidable (Normal name) :=
  inferInstanceAs (Decidable (_ ∧ _))

/-- Where the names lead. -/
def resolve : Location → List Name → Location
  | at_, [] => at_
  | at_, name :: names =>
    if name = [] ∨ name = ['.'] then resolve at_ names
    else if name = ['.', '.'] then resolve at_.dropLast names
    else resolve (at_ ++ [name]) names

/-- `create_dir_all`: the directories on the way are made, up to a name that a file has. -/
def mkdirAll : Location → List Name → Tree → Option Location × Tree
  | at_, [], t => (some at_, t)
  | at_, name :: names, t =>
    if name = [] ∨ name = ['.'] then mkdirAll at_ names t
    else if name = ['.', '.'] then mkdirAll at_.dropLast names t
    else if isFile t at_ name then (none, t)
    else mkdirAll (at_ ++ [name]) names (mkdir (at_ ++ [name]) t)

/-- How making the directories of a path ends: with an error, the components before the `after`-th
may have been made. -/
inductive MkdirIo where
  | done
  | fails (after : Nat) (e : String)
  deriving DecidableEq, Repr

/-- The file system refuses before anything is made. -/
def MkdirIo.refuses : MkdirIo → Bool
  | .fails 0 _ => true
  | _ => false

/-- The directories that a directory has. -/
def subdirectories (t : Tree) (dir : Location) : Finset Name :=
  (t.keys.filter fun l => l.dropLast = dir ∧ l ≠ []).image fun l => l.getLastD []

/-- `read_dir` lists every entry of a directory once, in some order. -/
structure Lists (t : Tree) (listing : Listing) : Prop where
  nodup : ∀ dir ∈ t.keys, (listing dir).Nodup
  mem : ∀ dir ∈ t.keys, ∀ name,
    name ∈ listing dir ↔ name ∈ (files t dir).keys ∨ name ∈ subdirectories t dir

theorem lists_iff {t : Tree} {listing : Listing} :
    Lists t listing ↔ ∀ dir ∈ t.keys, (listing dir).Nodup ∧
      (listing dir).toFinset = (files t dir).keys ∪ subdirectories t dir := by
  constructor
  · intro h dir hdir
    refine ⟨h.nodup dir hdir, ?_⟩
    ext name
    rw [List.mem_toFinset, h.mem dir hdir, Finset.mem_union]
  · intro h
    refine ⟨fun dir hdir => (h dir hdir).1, fun dir hdir name => ?_⟩
    rw [← Finset.mem_union, ← (h dir hdir).2, List.mem_toFinset]

instance decidableLists (t : Tree) (listing : Listing) : Decidable (Lists t listing) :=
  decidable_of_iff _ lists_iff.symm

theorem exists_lists (t : Tree) : ∃ listing, Lists t listing :=
  ⟨fun dir => ((files t dir).keys ∪ subdirectories t dir).toList,
    fun _ _ => Finset.nodup_toList _, fun _ _ _ => by simp⟩

@[simp] theorem mem_subdirectories {t : Tree} {dir : Location} {name : Name} :
    name ∈ subdirectories t dir ↔ isDir t (dir ++ [name]) = true := by
  unfold subdirectories isDir
  rw [← t.mem_keys, Finset.mem_image]
  constructor
  · rintro ⟨l, hl, rfl⟩
    obtain ⟨hkey, hdrop, hne⟩ := Finset.mem_filter.1 hl
    rw [← hdrop, List.getLastD_eq_getLast?, List.getLast?_eq_some_getLast hne, Option.getD_some,
      List.dropLast_append_getLast hne]
    exact hkey
  · intro h
    exact ⟨dir ++ [name], Finset.mem_filter.2 ⟨h, by simp, by simp⟩, by simp⟩

theorem Lists.mem_iff {t : Tree} {listing : Listing} (h : Lists t listing) {dir : Location}
    (hdir : isDir t dir = true) {name : Name} :
    name ∈ listing dir ↔ isFile t dir name = true ∨ isDir t (dir ++ [name]) = true := by
  rw [h.mem dir ((t.mem_keys dir).2 hdir), mem_subdirectories, Table.mem_keys, isFile]

/-- Two listings of one directory differ in their order only. -/
theorem Lists.perm {t u : Tree} {listing listing' : Listing} (h : Lists t listing)
    (h' : Lists u listing') {dir : Location} (ht : isDir t dir = true) (hu : isDir u dir = true)
    (hentries : ∀ name, (isFile t dir name = true ∨ isDir t (dir ++ [name]) = true) ↔
      (isFile u dir name = true ∨ isDir u (dir ++ [name]) = true)) :
    (listing dir).Perm (listing' dir) := by
  have hnodup := h.nodup dir ((t.mem_keys dir).2 ht)
  have hnodup' := h'.nodup dir ((u.mem_keys dir).2 hu)
  rw [List.perm_ext_iff_of_nodup hnodup hnodup']
  intro name
  rw [h.mem_iff ht, h'.mem_iff hu, hentries]

/-! ## Making directories -/

theorem isDir_iff {t : Tree} {dir : Location} :
    isDir t dir = true ↔ ∃ content, t.get dir = some content := Option.isSome_iff_exists

theorem files_of_get {t : Tree} {dir : Location} {content : Table Name Bytes}
    (h : t.get dir = some content) : files t dir = content := by
  rw [files, h, Option.getD_some]

theorem get_mkdir (dir loc : Location) (t : Tree) :
    (mkdir dir t).get loc = if loc = dir then some (files t dir) else t.get loc := by
  unfold mkdir files
  split
  · rename_i content hget
    rw [hget, Option.getD_some]
    split
    · rename_i heq
      rw [heq, hget]
    · rfl
  · rename_i hget
    rw [hget, Option.getD_none, Table.get_insert]

@[simp] theorem files_mkdir (dir loc : Location) (t : Tree) :
    files (mkdir dir t) loc = files t loc := by
  rw [files, get_mkdir]
  split
  · rename_i heq
    rw [heq, Option.getD_some]
  · rfl

theorem resolve_append (at_ : Location) (names more : List Name) :
    resolve at_ (names ++ more) = resolve (resolve at_ names) more := by
  induction names generalizing at_ with
  | nil => rfl
  | cons name names ih =>
    simp only [List.cons_append, resolve]
    split
    · exact ih at_
    · split
      · exact ih _
      · exact ih _

theorem resolve_normal (at_ : Location) {name : Name} (h : Normal name) :
    resolve at_ [name] = at_ ++ [name] := by
  obtain ⟨hnil, hdot, hdots⟩ := h
  simp [resolve, hnil, hdot, hdots]

/-- **A path that can be made** leads where it resolves to. -/
theorem mkdirAll_location {names : List Name} : ∀ {at_ loc : Location} {t : Tree},
    (mkdirAll at_ names t).1 = some loc → loc = resolve at_ names := by
  induction names with
  | nil =>
    intro at_ loc t h
    exact (Option.some_inj.1 h).symm
  | cons name names ih =>
    intro at_ loc t h
    unfold mkdirAll at h
    unfold resolve
    split at h
    · rename_i hskip
      rw [if_pos hskip]
      exact ih h
    · rename_i hskip
      rw [if_neg hskip]
      split at h
      · rename_i hdots
        rw [if_pos hdots]
        exact ih h
      · rename_i hdots
        rw [if_neg hdots]
        split at h
        · cases h
        · exact ih h

/-- **What making a path changes**: new directories appear, under names of the path. -/
theorem get_mkdirAll (loc : Location) (names : List Name) : ∀ (at_ : Location) (t : Tree),
    (mkdirAll at_ names t).2.get loc = t.get loc ∨
      t.get loc = none ∧ (mkdirAll at_ names t).2.get loc = some Table.empty ∧
        ∃ parent, ∃ name ∈ names, Normal name ∧ loc = parent ++ [name] := by
  induction names with
  | nil =>
    intro at_ t
    exact Or.inl rfl
  | cons name names ih =>
    intro at_ t
    have later : ∀ (at_ : Location) (t : Tree),
        (mkdirAll at_ names t).2.get loc = t.get loc ∨
          t.get loc = none ∧ (mkdirAll at_ names t).2.get loc = some Table.empty ∧
            ∃ parent, ∃ name' ∈ name :: names, Normal name' ∧ loc = parent ++ [name'] := by
      intro at_ t
      refine (ih at_ t).imp id ?_
      rintro ⟨hnone, hnew, parent, name', hmem, hnormal, hloc⟩
      exact ⟨hnone, hnew, parent, name', List.mem_cons_of_mem _ hmem, hnormal, hloc⟩
    unfold mkdirAll
    split
    · exact later at_ t
    · rename_i hskip
      split
      · exact later _ t
      · rename_i hdots
        split
        · exact Or.inl rfl
        · have hnormal : Normal name := ⟨fun h => hskip (Or.inl h), fun h => hskip (Or.inr h), hdots⟩
          by_cases hloc : loc = at_ ++ [name]
          · -- the directory of this component: made now, or here before
            rcases later (at_ ++ [name]) (mkdir (at_ ++ [name]) t) with hsame | hnew
            · rw [hsame, get_mkdir, if_pos hloc, files, hloc]
              cases hget : t.get (at_ ++ [name]) with
              | some content => exact Or.inl rfl
              | none =>
                exact Or.inr ⟨rfl, rfl, at_, name, List.mem_cons_self .., hnormal, rfl⟩
            · obtain ⟨hnone, -⟩ := hnew
              rw [get_mkdir, if_pos hloc] at hnone
              cases hnone
          · rcases later (at_ ++ [name]) (mkdir (at_ ++ [name]) t) with hsame | hnew
            · rw [hsame, get_mkdir, if_neg hloc]
              exact Or.inl rfl
            · rw [get_mkdir, if_neg hloc] at hnew
              exact Or.inr hnew

@[simp] theorem files_mkdirAll (names : List Name) (at_ loc : Location) (t : Tree) :
    files (mkdirAll at_ names t).2 loc = files t loc := by
  rcases get_mkdirAll loc names at_ t with hsame | ⟨hnone, hnew, -⟩
  · rw [files, hsame, files]
  · rw [files, hnew, files, hnone]
    rfl

/-- Every directory below another has a name. -/
def WellNamed (t : Tree) : Prop :=
  ∀ parent name, isDir t (parent ++ [name]) = true → Normal name ∧ '/' ∉ name

theorem eq_of_concat_eq {parent parent' : Location} {name name' : Name}
    (h : parent ++ [name] = parent' ++ [name']) : parent = parent' ∧ name = name' :=
  ⟨List.append_inj_left' h rfl, List.singleton_inj.1 (List.append_inj_right' h rfl)⟩

/-- Directories appear, under names, and none goes away. -/
structure Grows (t t' : Tree) : Prop where
  kept : ∀ loc, isDir t loc = true → isDir t' loc = true
  named : WellNamed t → WellNamed t'

theorem Grows.refl (t : Tree) : Grows t t := ⟨fun _ h => h, fun h => h⟩

theorem Grows.trans {t t' t'' : Tree} (h : Grows t t') (h' : Grows t' t'') : Grows t t'' :=
  ⟨fun loc hdir => h'.kept loc (h.kept loc hdir), fun hnamed => h'.named (h.named hnamed)⟩

theorem isDir_insert (dir loc : Location) (content : Table Name Bytes) (t : Tree) :
    isDir (t.insert dir content) loc = (decide (loc = dir) || isDir t loc) := by
  rw [isDir, Table.get_insert]
  split
  · rename_i h
    simp [h]
  · rename_i h
    simp [h, isDir]

/-- The content of a directory is set. -/
theorem grows_insert {parent : Location} {name : Name} (h : Normal name ∧ '/' ∉ name)
    (content : Table Name Bytes) (t : Tree) : Grows t (t.insert (parent ++ [name]) content) := by
  constructor
  · intro loc hdir
    rw [isDir_insert, hdir, Bool.or_true]
  · intro hnamed parent' name' hdir
    rw [isDir_insert, Bool.or_eq_true, decide_eq_true_eq] at hdir
    rcases hdir with heq | hdir
    · obtain ⟨-, rfl⟩ := eq_of_concat_eq heq
      exact h
    · exact hnamed parent' name' hdir

/-- The directories of a path are made. -/
theorem grows_mkdirAll {names : List Name} (at_ : Location) (t : Tree)
    (hnames : ∀ name ∈ names, '/' ∉ name) : Grows t (mkdirAll at_ names t).2 := by
  constructor
  · intro loc hdir
    rcases get_mkdirAll loc names at_ t with hsame | ⟨-, hnew, -⟩
    · rw [isDir, hsame]
      exact hdir
    · rw [isDir, hnew]
      rfl
  · intro hnamed parent name hdir
    rcases get_mkdirAll (parent ++ [name]) names at_ t with
      hsame | ⟨-, -, parent', name', hmem, hnormal, heq⟩
    · rw [isDir, hsame] at hdir
      exact hnamed parent name hdir
    · obtain ⟨-, rfl⟩ := eq_of_concat_eq heq
      exact ⟨hnormal, hnames name hmem⟩

end DirTree
