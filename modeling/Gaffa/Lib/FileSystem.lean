import Gaffa.Lib.ByteString
import Gaffa.Lib.Table
import Mathlib.Data.Finset.Image

/-!
# Files and paths

Files are bytes at locations; a path is resolved component by component, in the usual way.

* `create_plain`, `locate_plain`: a path without a slash names a file in the directory it is joined
  to.
* `create_name`: whatever the path, the name of a file has no slash.
* `get_entries`, `entries_insert`: the files of one directory.
-/

set_option autoImplicit false

namespace FileSystem

open ByteString

abbrev Name := List Char

/-- The names on the way from the root. -/
abbrev Location := List Name

abbrev Files := Table Location Bytes

/-- What writing files does not change: which locations are directories, and which paths the system
refuses (for a character or a length that it does not support). -/
structure Os where
  isDir : Location → Bool
  refuses : List Char → Bool

/-- The system while it creates no file. -/
def Os.exhausted (os : Os) : Os := { os with refuses := fun _ => true }

/-- The names between the slashes of a path. -/
def components : List Char → List Name
  | [] => [[]]
  | c :: cs =>
    match components cs with
    | [] => [[c]]
    | name :: names => if c = '/' then [] :: name :: names else (c :: name) :: names

/-- The directory that the names lead to. -/
def walk (os : Os) : Location → List Name → Option Location
  | at_, [] => some at_
  | at_, name :: names =>
    if name = [] ∨ name = ['.'] then walk os at_ names
    else if name = ['.', '.'] then walk os at_.dropLast names
    else if os.isDir (at_ ++ [name]) then walk os (at_ ++ [name]) names
    else none

/-- Where `File::create(dir.join(path))` creates its file, if it succeeds; an absolute path does not
start from `dir`. -/
def create (os : Os) (dir : Location) (path : List Char) : Option Location :=
  let names := components path
  match walk os (if path.head? = some '/' then [] else dir) names.dropLast, names.getLast? with
  | some parent, some name =>
    if name = [] ∨ name = ['.'] ∨ name = ['.', '.'] then none
    else if os.isDir (parent ++ [name]) ∨ os.refuses path then none
    else some (parent ++ [name])
  | _, _ => none

/-- Where `dir.join(path)` leads, whether or not something is there. -/
def locate (os : Os) (dir : Location) (path : List Char) : Option Location :=
  let names := components path
  match walk os (if path.head? = some '/' then [] else dir) names.dropLast, names.getLast? with
  | some parent, some name =>
    if os.refuses path then none
    else if name = [] ∨ name = ['.'] then some parent
    else if name = ['.', '.'] then some parent.dropLast
    else some (parent ++ [name])
  | _, _ => none

/-- The files of a directory. -/
def entries (files : Files) (dir : Location) : Table Name Bytes where
  get name := files.get (dir ++ [name])
  keys := (files.keys.filter fun l => l.dropLast = dir ∧ l ≠ []).image fun l => l.getLastD []
  mem_keys name := by
    rw [← files.mem_keys]
    simp only [Finset.mem_image, Finset.mem_filter]
    constructor
    · rintro ⟨l, ⟨hl, rfl, hne⟩, rfl⟩
      rw [List.getLastD_eq_getLast?, List.getLast?_eq_some_getLast hne, Option.getD_some,
        List.dropLast_append_getLast hne]
      exact hl
    · intro h
      exact ⟨dir ++ [name], ⟨h, by simp, by simp⟩, by simp⟩

@[simp] theorem get_entries (files : Files) (dir : Location) (name : Name) :
    (entries files dir).get name = files.get (dir ++ [name]) := rfl

theorem entries_insert (files : Files) (dir : Location) (name : Name) (bytes : Bytes) :
    entries (files.insert (dir ++ [name]) bytes) dir = (entries files dir).insert name bytes := by
  ext1 name'
  rw [get_entries, Table.get_insert, Table.get_insert, get_entries]
  simp

theorem components_ne_nil (path : List Char) : components path ≠ [] := by
  cases path with
  | nil => simp [components]
  | cons c cs =>
    rw [components]
    split
    · simp
    · split <;> simp

theorem components_plain {path : List Char} (h : '/' ∉ path) : components path = [path] := by
  induction path with
  | nil => rfl
  | cons c cs ih =>
    obtain ⟨hc, hcs⟩ : '/' ≠ c ∧ '/' ∉ cs := by simpa only [List.mem_cons, not_or] using h
    rw [components, ih hcs]
    simp [Ne.symm hc]

theorem not_mem_components {path : List Char} : ∀ name ∈ components path, '/' ∉ name := by
  induction path with
  | nil => simp [components]
  | cons c cs ih =>
    rw [components]
    split
    · rename_i hnil
      exact absurd hnil (components_ne_nil cs)
    · rename_i name names hcs
      rw [hcs] at ih
      obtain ⟨hname, hnames⟩ := List.forall_mem_cons.1 ih
      split
      · exact List.forall_mem_cons.2 ⟨List.not_mem_nil, ih⟩
      · rename_i hc
        refine List.forall_mem_cons.2 ⟨?_, hnames⟩
        simpa only [List.mem_cons, not_or] using ⟨Ne.symm hc, hname⟩

/-- **A path without a slash** names a file in the directory. -/
theorem create_plain {os : Os} {dir loc : Location} {path : List Char} (h : '/' ∉ path)
    (hcreate : create os dir path = some loc) : loc = dir ++ [path] := by
  have hhead : path.head? ≠ some '/' := by
    intro hhead
    exact h (List.mem_of_mem_head? hhead)
  unfold create at hcreate
  rw [components_plain h, if_neg hhead] at hcreate
  simp only [List.dropLast_singleton, walk, List.getLast?_singleton] at hcreate
  split at hcreate
  · cases hcreate
  · split at hcreate
    · cases hcreate
    · exact (Option.some_inj.1 hcreate).symm

/-- A file is found where it was created. -/
theorem locate_create {os : Os} {dir loc : Location} {path : List Char}
    (hcreate : create os dir path = some loc) : locate os dir path = some loc := by
  unfold create at hcreate
  unfold locate
  simp only at hcreate ⊢
  split at hcreate
  · split at hcreate
    · cases hcreate
    · rename_i hproper
      simp only [not_or] at hproper
      split at hcreate
      · cases hcreate
      · rename_i hfile
        cases hcreate
        simp only [not_or] at hfile
        simp [hproper, hfile]
  · cases hcreate

theorem isDir_create {os : Os} {dir loc : Location} {path : List Char}
    (hcreate : create os dir path = some loc) : os.isDir loc = false := by
  unfold create at hcreate
  simp only at hcreate
  split at hcreate
  · split at hcreate
    · cases hcreate
    · split at hcreate
      · cases hcreate
      · rename_i hfile
        cases hcreate
        simp only [not_or, Bool.not_eq_true] at hfile
        exact hfile.1
  · cases hcreate

theorem create_exhausted (os : Os) (dir : Location) (path : List Char) :
    create os.exhausted dir path = none := by
  unfold create
  simp only
  split
  · simp [Os.exhausted]
  · rfl

theorem locate_plain {os : Os} {dir loc : Location} {path : List Char} (h : '/' ∉ path)
    (hproper : path ≠ [] ∧ path ≠ ['.'] ∧ path ≠ ['.', '.'])
    (hlocate : locate os dir path = some loc) : loc = dir ++ [path] := by
  have hhead : path.head? ≠ some '/' := by
    intro hhead
    exact h (List.mem_of_mem_head? hhead)
  unfold locate at hlocate
  rw [components_plain h, if_neg hhead] at hlocate
  simp only [List.dropLast_singleton, walk, List.getLast?_singleton, hproper, false_or, if_false,
    Option.ite_none_left_eq_some, Option.some.injEq] at hlocate
  exact hlocate.2.symm

/-- **Names have no slash**, and they are the last component of the path. -/
theorem create_name {os : Os} {dir loc : Location} {path : List Char}
    (hcreate : create os dir path = some loc) :
    ∃ parent name, loc = parent ++ [name] ∧ '/' ∉ name := by
  unfold create at hcreate
  simp only at hcreate
  split at hcreate
  · rename_i parent name _ hname
    split at hcreate
    · cases hcreate
    · split at hcreate
      · cases hcreate
      · cases hcreate
        exact ⟨parent, name, rfl, not_mem_components name (List.mem_of_getLast? hname)⟩
  · cases hcreate

end FileSystem
