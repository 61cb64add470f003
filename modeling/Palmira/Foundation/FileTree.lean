import Mathlib.Data.List.Infix
import Mathlib.Data.List.Basic

/-!
# File trees

Files and directories under their paths. An inode is the file itself, whatever its
path is at the moment, and is never given twice. A path string is read one component
after the other; there are no symbolic links, so it means what its components say.
-/

namespace FileTree

/-- A component that names an entry of a directory. -/
def IsName (chars : List Char) : Prop :=
  '/' ∉ chars ∧ chars ≠ [] ∧ chars ≠ ['.'] ∧ chars ≠ ['.', '.']

instance : DecidablePred IsName := fun _ => inferInstanceAs (Decidable (_ ∧ _))

abbrev Name := {chars : List Char // IsName chars}

abbrev Path := List Name

/-! ## Path strings -/

/-- Where a component leads to. -/
def enter (path : Path) (component : List Char) : Path :=
  if hname : IsName component then path ++ [⟨component, hname⟩]
  else if component = ['.', '.'] then path.dropLast
  else path

/-- Where the reading of a path string starts. -/
def base (cwd : Path) (str : List Char) : Path := if str.head? = some '/' then [] else cwd

/-- The path a string means. -/
def resolve (cwd : Path) (str : List Char) : Path :=
  (str.splitOn '/').foldl enter (base cwd str)

@[simp] theorem enter_nil (path : Path) : enter path [] = path := by
  simp [enter, IsName]

@[simp] theorem enter_name (path : Path) (name : Name) : enter path name = path ++ [name] := by
  simp [enter, name.2]

/-- Behind a separator a name leads one directory further. -/
theorem resolve_append (cwd : Path) (dir : List Char) (name : Name) :
    resolve cwd (dir ++ ['/'] ++ name) = resolve cwd (dir ++ ['/']) ++ [name] := by
  have hbase : base cwd (dir ++ ['/'] ++ name) = base cwd (dir ++ ['/']) := by
    cases dir <;> rfl
  have hsplit : (dir ++ ['/'] ++ name).splitOn '/' = dir.splitOn '/' ++ [name.1] := by
    rw [List.append_assoc, List.singleton_append, List.splitOn_append_cons_self,
      List.splitOn_eq_singleton name.2.1]
  have hdir : (dir ++ ['/']).splitOn '/' = dir.splitOn '/' ++ [[]] :=
    List.splitOn_append_cons_self dir []
  unfold resolve
  rw [hbase, hsplit, hdir, List.foldl_append, List.foldl_append]
  simp

/-- A last separator means nothing. -/
theorem resolve_separator {dir : List Char} (hne : dir ≠ []) (cwd : Path) :
    resolve cwd (dir ++ ['/']) = resolve cwd dir := by
  have hbase : base cwd (dir ++ ['/']) = base cwd dir := by
    rw [base, base, List.head?_append_of_ne_nil _ hne]
  have hsplit : (dir ++ ['/']).splitOn '/' = dir.splitOn '/' ++ [[]] :=
    List.splitOn_append_cons_self dir []
  rw [resolve, hbase, hsplit, List.foldl_append, List.foldl_cons, enter_nil]
  rfl

/-! ## Trees -/

structure Node where
  path : Path
  inode : ℕ
  isDir : Bool
  deriving DecidableEq

structure Tree where
  nodes : List Node
  nextInode : ℕ
  fresh : ∀ node ∈ nodes, node.inode < nextInode
  unique : ∀ a ∈ nodes, ∀ b ∈ nodes, a.inode = b.inode → a = b

namespace Tree

def find? (tree : Tree) (path : Path) : Option Node :=
  tree.nodes.find? fun node => node.path = path

/-- One component of a path string: the node before it has to be a directory. -/
def descend (tree : Tree) (path : Path) (component : List Char) : Option Path :=
  match tree.find? path with
  | some node =>
      if node.isDir = true ∧ (tree.find? (enter path component)).isSome = true then
        some (enter path component)
      else none
  | none => none

/-- What a path string finds. -/
def lookup (tree : Tree) (cwd : Path) (str : List Char) : Option Node :=
  if str = [] then none
  else ((str.splitOn '/').foldlM tree.descend (base cwd str)).bind tree.find?

/-- A new file or directory. -/
def add (tree : Tree) (path : Path) (isDir : Bool) : Tree where
  nodes := tree.nodes ++ [⟨path, tree.nextInode, isDir⟩]
  nextInode := tree.nextInode + 1
  fresh := by
    intro node hnode
    rcases List.mem_append.mp hnode with hold | hnew
    · exact Nat.lt_succ_of_lt (tree.fresh node hold)
    · obtain rfl := List.mem_singleton.mp hnew
      exact Nat.lt_succ_self _
  unique := by
    intro a ha b hb heq
    rcases List.mem_append.mp ha with ha | ha <;> rcases List.mem_append.mp hb with hb | hb
    · exact tree.unique a ha b hb heq
    · obtain rfl := List.mem_singleton.mp hb
      exact absurd heq (tree.fresh a ha).ne
    · obtain rfl := List.mem_singleton.mp ha
      exact absurd heq (tree.fresh b hb).ne'
    · rw [List.mem_singleton.mp ha, List.mem_singleton.mp hb]

/-- The file is gone. -/
def remove (tree : Tree) (inode : ℕ) : Tree where
  nodes := tree.nodes.filter fun node => node.inode ≠ inode
  nextInode := tree.nextInode
  fresh node hnode := tree.fresh node (List.mem_of_mem_filter hnode)
  unique a ha b hb := tree.unique a (List.mem_of_mem_filter ha) b (List.mem_of_mem_filter hb)

/-- Where a node is once `source` is called `target`. -/
def moved (source target : Path) (node : Node) : Node :=
  if source <+: node.path then
    { node with path := target ++ node.path.drop source.length }
  else node

@[simp] theorem moved_inode (source target : Path) (node : Node) :
    (moved source target node).inode = node.inode := by
  unfold moved
  split <;> rfl

/-- A file or directory gets another path, with everything below it. -/
def move (tree : Tree) (source target : Path) : Tree where
  nodes := tree.nodes.map (moved source target)
  nextInode := tree.nextInode
  fresh := by
    intro node hnode
    obtain ⟨old, hold, rfl⟩ := List.mem_map.mp hnode
    rw [moved_inode]
    exact tree.fresh old hold
  unique := by
    intro a ha b hb heq
    obtain ⟨old, hold, rfl⟩ := List.mem_map.mp ha
    obtain ⟨other, hother, rfl⟩ := List.mem_map.mp hb
    rw [moved_inode, moved_inode] at heq
    rw [tree.unique old hold other hother heq]

/-- No entry below the path. -/
def isEmpty (tree : Tree) (path : Path) : Bool :=
  tree.nodes.all fun node => ¬ (path <+: node.path ∧ path ≠ node.path)

/-! ## What the operations keep -/

variable {tree : Tree} {path source target : Path} {node : Node} {inode : ℕ} {isDir : Bool}

theorem mem_of_find? (hfind : tree.find? path = some node) : node ∈ tree.nodes :=
  List.mem_of_find?_eq_some hfind

theorem path_of_find? (hfind : tree.find? path = some node) : node.path = path := by
  simpa using List.find?_some hfind

theorem foldlM_descend {components : List (List Char)} {found : Path}
    (hfound : components.foldlM tree.descend path = some found) :
    found = components.foldl enter path := by
  induction components generalizing path with
  | nil => exact (Option.some.inj hfound).symm
  | cons component rest ih =>
      obtain ⟨next, hnext, hrest⟩ := Option.bind_eq_some_iff.mp hfound
      have henter : next = enter path component := by
        unfold descend at hnext
        split at hnext
        next =>
          split at hnext
          · exact (Option.some.inj hnext).symm
          · cases hnext
        next => cases hnext
      rw [ih hrest, henter]
      rfl

/-- What a string finds has the path it means. -/
theorem lookup_spec {cwd : Path} {str : List Char} (hlookup : tree.lookup cwd str = some node) :
    node ∈ tree.nodes ∧ node.path = resolve cwd str := by
  unfold lookup at hlookup
  split at hlookup
  · cases hlookup
  · obtain ⟨found, hfound, hfind⟩ := Option.bind_eq_some_iff.mp hlookup
    refine ⟨mem_of_find? hfind, ?_⟩
    rw [path_of_find? hfind, foldlM_descend hfound]
    rfl

theorem mem_remove : node ∈ (tree.remove inode).nodes ↔ node ∈ tree.nodes ∧ node.inode ≠ inode := by
  simp [remove]

theorem mem_add : node ∈ (tree.add path isDir).nodes ↔
    node ∈ tree.nodes ∨ node = ⟨path, tree.nextInode, isDir⟩ := by
  simp [add]

theorem mem_move : node ∈ (tree.move source target).nodes ↔
    ∃ old ∈ tree.nodes, moved source target old = node := by
  simp [move]

end Tree

end FileTree
