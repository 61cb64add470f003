import Mathlib.Algebra.GroupWithZero.Nat
import Palmira.Foundation.FileTree

/-!
# Path names with links

How a path string finds a file when a component may be a link. The entries of a
directory are given by what they lead to, links followed to their end, so nothing is
said of how the links are stored. A directory has an absolute name without links, which
may not find it any more: a directory above it may have been closed to searches.
-/

namespace PathLookup

open FileTree (Name Path IsName enter)

/-- Files and directories, which of these the process may search, and the name of each
directory. -/
structure Directories (N : Type*) where
  root : N
  isDir : N → Bool
  searchable : N → Bool
  entry : N → List Char → Option N
  name : N → List Char

namespace Directories

variable {N : Type*} (fs : Directories N)

/-- One component of a path string. The empty component, as behind a last separator, needs a
directory before it. -/
def step (n : N) (component : List Char) : Option N :=
  if component = [] then
    if fs.isDir n then some n else none
  else fs.entry n component

/-- The components of a path string, one after the other. -/
def walk (n : N) (str : List Char) : Option N := (str.splitOn '/').foldlM fs.step n

/-- What a path string finds from a current directory. -/
def lookup (cwd : N) (str : List Char) : Option N :=
  if str = [] then none
  else fs.walk (if str.head? = some '/' then fs.root else cwd) str

/-- The directory that a path string finds, if the process may search it. -/
def chdir (cwd : N) (str : List Char) : Option N :=
  ((fs.lookup cwd str).filter fs.isDir).filter fs.searchable

/-- The name of the current directory, if it fits in a buffer of this size. -/
def getcwd (cwd : N) (size : ℕ) : Option (List Char) :=
  if (fs.name cwd).length < size then some (fs.name cwd) else none

/-- The directory is found by its name. -/
def FoundByName (d : N) : Prop := fs.walk fs.root (fs.name d) = some d

/-- The process can go to the directory by its name. -/
def Enterable (d : N) : Prop := fs.FoundByName d ∧ fs.searchable d = true

end Directories

/-- Nothing is found in a directory that may not be searched; the laws of `.` and `..`; and the name
of a directory leads to no other one. -/
structure FileSystem (N : Type*) extends Directories N where
  root_isDir : isDir root = true
  closed : ∀ d component, searchable d = false → entry d component = none
  dot : ∀ d, isDir d = true → searchable d = true → entry d ['.'] = some d
  root_dotdot : searchable root = true → entry root ['.', '.'] = some root
  name_head : ∀ d, isDir d = true → (name d).head? = some '/'
  walk_name : ∀ d found, isDir d = true → toDirectories.walk root (name d) = some found → found = d

section Lookup

variable {N : Type*} {fs : Directories N}

theorem walk_component {component : List Char} (hslash : '/' ∉ component) (n : N) :
    fs.walk n component = fs.step n component := by
  rw [Directories.walk, List.splitOn_eq_singleton hslash, List.foldlM_cons]
  exact bind_pure _

theorem walk_append (n : N) (dir file : List Char) :
    fs.walk n (dir ++ '/' :: file) = (fs.walk n dir).bind (fs.walk · file) := by
  rw [Directories.walk, List.splitOn_append_cons_self, List.foldlM_append]
  rfl

theorem lookup_append {dir : List Char} (hdir : dir ≠ []) (cwd : N) (file : List Char) :
    fs.lookup cwd (dir ++ '/' :: file) = (fs.lookup cwd dir).bind (fs.walk · file) := by
  have hhead : (dir ++ '/' :: file).head? = dir.head? := by
    rw [List.head?_append_of_ne_nil _ hdir]
  have hne : dir ++ '/' :: file ≠ [] := List.append_ne_nil_of_left_ne_nil hdir _
  rw [Directories.lookup, if_neg hne, Directories.lookup, if_neg hdir, hhead, walk_append]

theorem lookup_relative {file : List Char} (hne : file ≠ []) (hslash : '/' ∉ file) (cwd : N) :
    fs.lookup cwd file = fs.step cwd file := by
  have hhead : file.head? ≠ some '/' := fun hhead => hslash (List.mem_of_mem_head? hhead)
  rw [Directories.lookup, if_neg hne, if_neg hhead, walk_component hslash]

/-- A last separator asks for a directory. -/
theorem lookup_separator {dir : List Char} (hdir : dir ≠ []) (cwd : N) :
    fs.lookup cwd (dir ++ ['/']) = (fs.lookup cwd dir).filter fs.isDir := by
  rw [lookup_append hdir]
  cases fs.lookup cwd dir with
  | none => rfl
  | some n =>
      have hwalk : fs.walk n [] = if fs.isDir n then some n else none := by
        rw [walk_component List.not_mem_nil, Directories.step, if_pos rfl]
      rw [Option.bind_some, hwalk, Option.filter_some]

end Lookup

namespace FileSystem

variable {N : Type*} (fs : FileSystem N)

theorem lookup_root (cwd : N) (file : List Char) :
    fs.lookup cwd ('/' :: file) = fs.walk fs.root file := by
  have hroot : fs.walk fs.root [] = some fs.root := by
    rw [walk_component List.not_mem_nil, Directories.step, if_pos rfl, if_pos fs.root_isDir]
  have happend : fs.walk fs.root ([] ++ '/' :: file) = _ := walk_append fs.root [] file
  rw [List.nil_append, hroot, Option.bind_some] at happend
  rw [Directories.lookup, if_neg (List.cons_ne_nil _ _), List.head?_cons, if_pos rfl, happend]

variable {fs} {d : N} (hd : fs.isDir d = true)

include hd in
theorem name_ne_nil : fs.name d ≠ [] := by
  intro hnil
  have hhead := fs.name_head d hd
  rw [hnil] at hhead
  cases hhead

include hd in
theorem lookup_name (cwd : N) : fs.lookup cwd (fs.name d) = fs.walk fs.root (fs.name d) := by
  rw [Directories.lookup, if_neg (name_ne_nil hd), if_pos (fs.name_head d hd)]

include hd in
/-- From wherever a directory's name is followed, it leads there or nowhere. -/
theorem chdir_name (cwd : N) :
    (fs.Enterable d ∧ fs.chdir cwd (fs.name d) = some d) ∨
      (¬ fs.Enterable d ∧ fs.chdir cwd (fs.name d) = none) := by
  unfold Directories.chdir Directories.Enterable Directories.FoundByName
  rw [lookup_name hd]
  cases hwalk : fs.walk fs.root (fs.name d) with
  | none => exact .inr ⟨fun henter => (Option.some_ne_none d) henter.1.symm, rfl⟩
  | some found =>
      obtain rfl := fs.walk_name d found hd hwalk
      rw [Option.filter_some, if_pos hd, Option.filter_some]
      cases hsearch : fs.searchable found with
      | true => exact .inl ⟨⟨rfl, rfl⟩, rfl⟩
      | false => exact .inr ⟨fun henter => Bool.false_ne_true henter.2, rfl⟩

include hd in
/-- A path behind a directory's name starts from the directory, if the name leads there. -/
theorem lookup_name_append (cwd : N) (file : List Char) :
    fs.lookup cwd (fs.name d ++ '/' :: file) =
      (fs.walk fs.root (fs.name d)).bind (fs.walk · file) := by
  rw [lookup_append (name_ne_nil hd), lookup_name hd]

end FileSystem

/-! ## All names -/

/-- The name of a directory that is not the root. -/
def below (path : Path) : List Char := path.flatMap fun name => '/' :: name.1

theorem below_append (path : Path) (name : Name) :
    below (path ++ [name]) = below path ++ '/' :: name := by
  simp [below]

/-- Every name is there in every directory, and leads to a directory that may be searched. -/
def allNames : Directories Path where
  root := []
  isDir _ := true
  searchable _ := true
  entry path component := some (enter path component)
  name path := if path = [] then ['/'] else below path

theorem allNames_step (path : Path) (component : List Char) :
    allNames.step path component = some (enter path component) := by
  unfold Directories.step
  split
  next hnil => rw [hnil, FileTree.enter_nil]; rfl
  next => rfl

theorem allNames_walk_eq_some (path : Path) (str : List Char) :
    ∃ found, allNames.walk path str = some found := by
  unfold Directories.walk
  induction str.splitOn '/' generalizing path with
  | nil => exact ⟨path, rfl⟩
  | cons component rest ih =>
      rw [List.foldlM_cons, allNames_step]
      exact ih (enter path component)

theorem allNames_walk_below (path : Path) : allNames.walk [] (below path) = some path := by
  induction path using List.reverseRecOn with
  | nil => rfl
  | append_singleton path name ih =>
      rw [below_append, walk_append, ih, Option.bind_some, walk_component name.2.1, allNames_step,
        FileTree.enter_name]

theorem below_head {path : Path} (hpath : path ≠ []) : (below path).head? = some '/' := by
  cases path with
  | nil => exact absurd rfl hpath
  | cons => rfl

theorem allNames_foundByName (path : Path) : allNames.FoundByName path := by
  change allNames.walk [] (if path = [] then ['/'] else below path) = some path
  split
  next hpath => rw [hpath]; rfl
  next => exact allNames_walk_below path

/-- The file system in which every name is there. -/
def allNamesSystem : FileSystem Path where
  toDirectories := allNames
  root_isDir := rfl
  closed _ _ hclosed := by cases hclosed
  dot _ _ _ := rfl
  root_dotdot _ := rfl
  name_head path _ := by
    change (if path = [] then ['/'] else below path).head? = some '/'
    split
    next => rfl
    next hpath => exact below_head hpath
  walk_name path _ _ hwalk := Option.some.inj (hwalk.symm.trans (allNames_foundByName path))

/-! ### Where a component leads -/

/-- A component leads one directory down or to a directory above. -/
theorem enter_cases (path : Path) (component : List Char) :
    (∃ hname, enter path component = path ++ [⟨component, hname⟩]) ∨
      enter path component <+: path := by
  unfold enter
  split
  next hname => exact .inl ⟨hname, rfl⟩
  next =>
    right
    split
    · exact List.dropLast_prefix path
    · exact List.prefix_refl path

/-- A name leads elsewhere than its two parts, one after the other. -/
theorem enter_enter_ne {first rest : List Char} {c : Char} (hname : IsName (first ++ c :: rest))
    (path : Path) : enter (enter path first) rest ≠ enter path (first ++ c :: rest) := by
  have hlength : (first ++ c :: rest).length = first.length + rest.length + 1 := by
    rw [List.length_append, List.length_cons]
    omega
  have hwhole : enter path (first ++ c :: rest) = path ++ [⟨_, hname⟩] :=
    FileTree.enter_name path ⟨_, hname⟩
  rw [hwhole]
  intro heq
  have hcount := congrArg List.length heq
  rw [List.length_append, List.length_singleton] at hcount
  rcases enter_cases path first with ⟨hfirst, hdown⟩ | hup
  · rw [hdown] at heq hcount
    rcases enter_cases (path ++ [⟨first, hfirst⟩]) rest with ⟨_, hrest⟩ | hrest
    · rw [hrest] at hcount
      simp at hcount
    · rw [heq] at hrest
      have hsame := hrest.eq_of_length (by simp)
      have hlast := (List.append_inj hsame rfl).2
      have hchars := congrArg (fun name : Path => name.map (·.1.length)) hlast
      simp at hchars
  · have hle := hup.length_le
    rcases enter_cases (enter path first) rest with ⟨hrest, hdown⟩ | hrest
    · rw [hdown] at heq hcount
      rw [List.length_append, List.length_singleton] at hcount
      have hlast := (List.append_inj heq (by omega)).2
      have hchars := congrArg (fun name : Path => name.map (·.1.length)) hlast
      simp at hchars
      omega
    · have hle' := hrest.length_le
      omega

theorem length_below_enter (path : Path) (component : List Char) :
    (below (enter path component)).length ≤ (below path).length + (component.length + 1) := by
  rcases enter_cases path component with ⟨hname, henter⟩ | ⟨rest, hrest⟩
  · rw [henter, below_append, List.length_append, List.length_cons]
  · have hbelow : below path = below (enter path component) ++ below rest := by
      conv_lhs => rw [← hrest]
      exact List.flatMap_append
    rw [hbelow, List.length_append]
    omega

theorem length_splitOn (str : List Char) :
    ((str.splitOn '/').map fun component => component.length + 1).sum = str.length + 1 := by
  induction str with
  | nil => rfl
  | cons c rest ih =>
      rw [List.splitOn_cons_eq_if_modifyHead]
      split
      next => rw [List.map_cons, List.sum_cons, ih, List.length_cons, List.length_nil]; omega
      next =>
        cases hsplit : rest.splitOn '/' with
        | nil => exact absurd hsplit (List.splitOn_ne_nil _ _)
        | cons first others =>
            rw [hsplit, List.map_cons, List.sum_cons] at ih
            rw [List.modifyHead_cons, List.map_cons, List.sum_cons, List.length_cons,
              List.length_cons]
            omega

theorem length_below_foldlM (components : List (List Char)) {path found : Path}
    (hfound : components.foldlM allNames.step path = some found) :
    (below found).length ≤
      (below path).length + (components.map fun component => component.length + 1).sum := by
  induction components generalizing path with
  | nil =>
      cases hfound
      exact Nat.le_add_right _ _
  | cons component rest ih =>
      rw [List.foldlM_cons, allNames_step, Option.bind_eq_bind, Option.bind_some] at hfound
      have hrest := ih hfound
      have henter := length_below_enter path component
      rw [List.map_cons, List.sum_cons]
      omega

/-- A name is no longer than the path string that leads to it from the root, and one more. -/
theorem length_name_le {str : List Char} {found : Path}
    (hfound : allNames.walk [] str = some found) :
    (allNames.name found).length ≤ str.length + 1 := by
  have hbelow := length_below_foldlM (str.splitOn '/') hfound
  rw [length_splitOn] at hbelow
  change (if found = [] then ['/'] else below found).length ≤ str.length + 1
  split
  next => exact Nat.le_add_left _ _
  next => exact le_of_le_of_eq hbelow (Nat.zero_add _)

end PathLookup
