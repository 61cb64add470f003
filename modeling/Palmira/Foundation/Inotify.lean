import Mathlib.Data.Option.Basic
import Mathlib.Logic.Function.Basic
import Palmira.Foundation.FileTree

/-!
# Watches on a file tree

What the kernel keeps for one reader of events: a watch belongs to a directory, not
to its path, has a descriptor that is never given again, and goes when the directory
is deleted. A change below a watched directory queues an event with the descriptor of
that directory and the name of the entry. Whoever has a file open writes by the entry
that the file was opened by: it moves when the file is renamed, and stays when it is
deleted or replaced. An event's `path` is where the file was at that moment, if anywhere;
the reader does not see it.
-/

namespace Inotify

open FileTree

inductive Kind where
  | create
  | modify
  | delete
  | movedFrom
  | movedTo
  | ignored
  deriving DecidableEq

structure Event where
  wd : ℕ
  isDir : Bool
  kind : Kind
  name : Option Name
  path : Option Path
  deriving DecidableEq

/-- `gone` holds the entries of files that were deleted or replaced, by the directory and the
name. -/
structure Kernel where
  tree : Tree
  watches : ℕ → Option ℕ
  nextWd : ℕ
  queue : List Event
  gone : List (ℕ × Name)

/-- What may happen to the tree: an entry is the directory's path and a name. A file is modified by
an entry that is gone while it is still open; `elsewhere` is where it has another name, if it
has. -/
inductive Change where
  | create (dir : Path) (name : Name) (isDir : Bool)
  | modify (dir : Path) (name : Name)
  | modifyGone (dir : ℕ) (name : Name) (elsewhere : Option Path)
  | delete (dir : Path) (name : Name)
  | rename (dir : Path) (name : Name) (dir' : Path) (name' : Name)

namespace Kernel

/-- The watch of a directory hears of a file that is known there by this name; `path` is where the
file is. -/
def tell (k : Kernel) (inode : ℕ) (name : Name) (isDir : Bool) (kind : Kind)
    (path : Option Path) : Kernel :=
  match k.watches inode with
  | some wd => { k with queue := k.queue ++ [⟨wd, isDir, kind, some name, path⟩] }
  | none => k

/-- It hears of a change of one of its entries. -/
abbrev notify (k : Kernel) (dir : Node) (name : Name) (isDir : Bool) (kind : Kind) : Kernel :=
  k.tell dir.inode name isDir kind (some (dir.path ++ [name]))

/-- It hears of a change by an entry that is gone as well. -/
abbrev notifyGone (k : Kernel) (dir : ℕ) (name : Name) (elsewhere : Option Path) : Kernel :=
  k.tell dir name false .modify elsewhere

/-- The last event of a watch. -/
def ignore (k : Kernel) (wd : ℕ) : Kernel :=
  { k with queue := k.queue ++ [⟨wd, false, .ignored, none, none⟩] }

def add (k : Kernel) (path : Path) (isDir : Bool) : Kernel :=
  { k with tree := k.tree.add path isDir }

def move (k : Kernel) (source target : Path) : Kernel :=
  { k with tree := k.tree.move source target }

/-- A file is gone, and its watch with it. -/
def remove (k : Kernel) (inode : ℕ) : Kernel :=
  let k' := { k with tree := k.tree.remove inode }
  match k.watches inode with
  | some wd => { k' with watches := Function.update k.watches inode none }.ignore wd
  | none => k'

/-- The entry of a file is gone. -/
def leave (k : Kernel) (dir : Node) (name : Name) (isDir : Bool) : Kernel :=
  if isDir = true then k else { k with gone := (dir.inode, name) :: k.gone }

/-- An entry is taken away from what it leads to. -/
def unlink (k : Kernel) (dir : Node) (name : Name) (node : Node) : Kernel :=
  (k.leave dir name node.isDir).remove node.inode

/-- A rename replaces what has the new name already, unless it is a directory with entries or of
another kind than the source. -/
def replace (k : Kernel) (source parent : Node) (name : Name) (target : Path) : Option Kernel :=
  match k.tree.find? target with
  | some old =>
      if old.isDir = source.isDir ∧ k.tree.isEmpty target = true then
        some (k.unlink parent name old)
      else none
  | none => some k

/-- A change of the tree, when the system allows it. -/
def apply (k : Kernel) : Change → Option Kernel
  | .create dir name isDir => do
      let parent ← k.tree.find? dir
      guard (parent.isDir = true ∧ k.tree.find? (dir ++ [name]) = none)
      return (k.notify parent name isDir .create).add (dir ++ [name]) isDir
  | .modify dir name => do
      let parent ← k.tree.find? dir
      let node ← k.tree.find? (dir ++ [name])
      return k.notify parent name node.isDir .modify
  | .modifyGone dir name elsewhere => do
      guard ((dir, name) ∈ k.gone)
      return k.notifyGone dir name elsewhere
  | .delete dir name => do
      let parent ← k.tree.find? dir
      let node ← k.tree.find? (dir ++ [name])
      guard (k.tree.isEmpty (dir ++ [name]) = true)
      return (k.notify parent name node.isDir .delete).unlink parent name node
  | .rename dir name dir' name' => do
      let parent ← k.tree.find? dir
      let parent' ← k.tree.find? dir'
      let node ← k.tree.find? (dir ++ [name])
      guard (parent'.isDir = true ∧ ¬ (dir ++ [name]) <+: dir' ∧ dir ++ [name] ≠ dir' ++ [name'])
      let k := (k.notify parent name node.isDir .movedFrom).notify parent' name' node.isDir .movedTo
      let k ← k.replace node parent' name' (dir' ++ [name'])
      return k.move (dir ++ [name]) (dir' ++ [name'])

/-- `inotify_add_watch`: a directory that is watched already keeps its descriptor. -/
def addWatch (k : Kernel) (cwd : Path) (str : List Char) : Option (ℕ × ℕ × Kernel) :=
  (k.tree.lookup cwd str).map fun node =>
    match k.watches node.inode with
    | some wd => (wd, node.inode, k)
    | none => (k.nextWd, node.inode,
        { k with
          watches := Function.update k.watches node.inode (some k.nextWd)
          nextWd := k.nextWd + 1 })

/-- Some directory has the watch. -/
def hasWatch (k : Kernel) (wd : ℕ) : Prop := ∃ node ∈ k.tree.nodes, k.watches node.inode = some wd

instance (k : Kernel) (wd : ℕ) : Decidable (k.hasWatch wd) :=
  inferInstanceAs (Decidable (∃ node ∈ k.tree.nodes, k.watches node.inode = some wd))

/-- `inotify_rm_watch` -/
def rmWatch (k : Kernel) (wd : ℕ) : Kernel :=
  if k.hasWatch wd then
    { k with
      watches := fun inode =>
        if k.watches inode = some wd then none else k.watches inode }.ignore wd
  else k

/-! ## The parts of a kernel step -/

section Parts

variable {k : Kernel} {dir : Node} {name : Name} {isDir : Bool} {kind : Kind}
  {path : Option Path} {inode wd : ℕ} {e : Event}

@[simp] theorem tell_tree : (k.tell inode name isDir kind path).tree = k.tree := by
  unfold tell
  split <;> rfl

@[simp] theorem tell_watches : (k.tell inode name isDir kind path).watches = k.watches := by
  unfold tell
  split <;> rfl

@[simp] theorem tell_nextWd : (k.tell inode name isDir kind path).nextWd = k.nextWd := by
  unfold tell
  split <;> rfl

/-- Nobody hears of a change in a directory that is not watched. -/
theorem tell_of_unwatched (hnone : k.watches inode = none) :
    k.tell inode name isDir kind path = k := by
  unfold tell
  rw [hnone]

theorem mem_queue_tell : e ∈ (k.tell inode name isDir kind path).queue ↔ e ∈ k.queue ∨
    k.watches inode = some e.wd ∧ e = ⟨e.wd, isDir, kind, some name, path⟩ := by
  unfold tell
  split
  next wd hwatch =>
    rw [List.mem_append, List.mem_singleton]
    constructor
    · rintro (hold | rfl)
      · exact .inl hold
      · exact .inr ⟨hwatch, rfl⟩
    · rintro (hold | ⟨hwd, heq⟩)
      · exact .inl hold
      · rw [← Option.some.inj (hwatch.symm.trans hwd)] at heq
        exact .inr heq
  next hnone => simp [hnone]

@[simp] theorem leave_tree : (k.leave dir name isDir).tree = k.tree := by
  unfold leave
  split <;> rfl

@[simp] theorem leave_watches : (k.leave dir name isDir).watches = k.watches := by
  unfold leave
  split <;> rfl

@[simp] theorem leave_nextWd : (k.leave dir name isDir).nextWd = k.nextWd := by
  unfold leave
  split <;> rfl

@[simp] theorem leave_queue : (k.leave dir name isDir).queue = k.queue := by
  unfold leave
  split <;> rfl

@[simp] theorem ignore_tree : (k.ignore wd).tree = k.tree := rfl

@[simp] theorem ignore_watches : (k.ignore wd).watches = k.watches := rfl

@[simp] theorem ignore_nextWd : (k.ignore wd).nextWd = k.nextWd := rfl

@[simp] theorem remove_tree : (k.remove inode).tree = k.tree.remove inode := by
  unfold remove
  split <;> rfl

@[simp] theorem remove_watches :
    (k.remove inode).watches = Function.update k.watches inode none := by
  unfold remove
  split
  next => rfl
  next hnone => rw [← hnone, Function.update_eq_self]

/-- What is watched behind a removal was watched before it, and is another file. -/
theorem watches_of_remove {other : ℕ} (hwatch : (k.remove inode).watches other = some wd) :
    other ≠ inode ∧ k.watches other = some wd := by
  rw [remove_watches] at hwatch
  by_cases hsame : other = inode
  · subst hsame
    simp at hwatch
  · rw [Function.update_of_ne hsame] at hwatch
    exact ⟨hsame, hwatch⟩

@[simp] theorem remove_nextWd : (k.remove inode).nextWd = k.nextWd := by
  unfold remove
  split <;> rfl

@[simp] theorem rmWatch_tree : (k.rmWatch wd).tree = k.tree := by
  unfold rmWatch
  split <;> rfl

@[simp] theorem rmWatch_nextWd : (k.rmWatch wd).nextWd = k.nextWd := by
  unfold rmWatch
  split <;> rfl

theorem mem_queue_rmWatch (hmem : e ∈ (k.rmWatch wd).queue) : e ∈ k.queue ∨ e.name = none := by
  unfold rmWatch at hmem
  split at hmem
  next =>
    rcases List.mem_append.mp hmem with hold | hnew
    · exact .inl hold
    · obtain rfl := List.mem_singleton.mp hnew
      exact .inr rfl
  next => exact .inl hmem

/-- All that a removal queues is the last event of a watch. -/
theorem mem_queue_remove (hmem : e ∈ (k.remove inode).queue) : e ∈ k.queue ∨
    k.watches inode = some e.wd ∧ e.name = none := by
  unfold remove at hmem
  split at hmem
  next wd hwatch =>
    rcases List.mem_append.mp hmem with hold | hnew
    · exact .inl hold
    · obtain rfl := List.mem_singleton.mp hnew
      exact .inr ⟨hwatch, rfl⟩
  next => exact .inl hmem

end Parts

/-! ## What a step of the kernel does -/

/-- The parts each change is made of. -/
inductive Applied (k : Kernel) : Change → Kernel → Prop
  | create {parent : Node} {dir : Path} {name : Name} {isDir : Bool}
      (hparent : parent ∈ k.tree.nodes) :
      Applied k (.create dir name isDir)
        ((k.notify parent name isDir .create).add (dir ++ [name]) isDir)
  | modify {parent : Node} {dir : Path} {name : Name} {isDir : Bool}
      (hparent : parent ∈ k.tree.nodes) :
      Applied k (.modify dir name) (k.notify parent name isDir .modify)
  | modifyGone (dir : ℕ) (name : Name) (elsewhere : Option Path) :
      Applied k (.modifyGone dir name elsewhere) (k.notifyGone dir name elsewhere)
  | delete {parent node : Node} {dir : Path} {name : Name} {isDir : Bool}
      (hparent : parent ∈ k.tree.nodes) :
      Applied k (.delete dir name)
        ((k.notify parent name isDir .delete).unlink parent name node)
  | rename {parent parent' : Node} {dir dir' : Path} {name name' : Name} {isDir : Bool}
      (hparent : parent ∈ k.tree.nodes) (hparent' : parent' ∈ k.tree.nodes) :
      Applied k (.rename dir name dir' name')
        (((k.notify parent name isDir .movedFrom).notify parent' name' isDir .movedTo).move
          (dir ++ [name]) (dir' ++ [name']))
  | renameOver {parent parent' old : Node} {dir dir' : Path} {name name' : Name} {isDir : Bool}
      (hparent : parent ∈ k.tree.nodes) (hparent' : parent' ∈ k.tree.nodes) :
      Applied k (.rename dir name dir' name')
        ((((k.notify parent name isDir .movedFrom).notify parent' name' isDir .movedTo).unlink
          parent' name' old).move (dir ++ [name]) (dir' ++ [name']))

theorem replace_cases {k k' : Kernel} {source parent : Node} {name : Name} {target : Path}
    (hreplace : k.replace source parent name target = some k') :
    k' = k ∨ ∃ old, k' = k.unlink parent name old := by
  unfold replace at hreplace
  split at hreplace
  next old _ =>
    split at hreplace
    · exact .inr ⟨old, (Option.some.inj hreplace).symm⟩
    · cases hreplace
  next => exact .inl (Option.some.inj hreplace).symm

theorem apply_cases {k k' : Kernel} {change : Change} (happly : k.apply change = some k') :
    Applied k change k' := by
  cases change with
  | create dir name isDir =>
      simp only [apply, Option.bind_eq_bind, Option.bind_eq_some_iff, Option.pure_def] at happly
      obtain ⟨parent, hparent, -, -, hk'⟩ := happly
      cases hk'
      exact .create (Tree.mem_of_find? hparent)
  | modify dir name =>
      simp only [apply, Option.bind_eq_bind, Option.bind_eq_some_iff, Option.pure_def] at happly
      obtain ⟨parent, hparent, node, -, hk'⟩ := happly
      cases hk'
      exact .modify (Tree.mem_of_find? hparent)
  | modifyGone dir name elsewhere =>
      simp only [apply, Option.bind_eq_bind, Option.bind_eq_some_iff, Option.pure_def] at happly
      obtain ⟨-, -, hk'⟩ := happly
      cases hk'
      exact .modifyGone dir name elsewhere
  | delete dir name =>
      simp only [apply, Option.bind_eq_bind, Option.bind_eq_some_iff, Option.pure_def] at happly
      obtain ⟨parent, hparent, node, -, -, -, hk'⟩ := happly
      cases hk'
      exact .delete (Tree.mem_of_find? hparent)
  | rename dir name dir' name' =>
      simp only [apply, Option.bind_eq_bind, Option.bind_eq_some_iff, Option.pure_def] at happly
      obtain ⟨parent, hparent, parent', hparent', node, -, -, -, k₁, hreplace, hk'⟩ := happly
      cases hk'
      rcases replace_cases hreplace with rfl | ⟨old, rfl⟩
      · exact .rename (Tree.mem_of_find? hparent) (Tree.mem_of_find? hparent')
      · exact .renameOver (Tree.mem_of_find? hparent) (Tree.mem_of_find? hparent')

/-- What `addWatch` answers: the descriptor, the directory and the kernel behind it. -/
inductive Watched (k : Kernel) (cwd : Path) (str : List Char) : ℕ → ℕ → Kernel → Prop
  | again {node : Node} {wd : ℕ} (hnode : node ∈ k.tree.nodes) (hpath : node.path = resolve cwd str)
      (hwatch : k.watches node.inode = some wd) : Watched k cwd str wd node.inode k
  | fresh {node : Node} (hnode : node ∈ k.tree.nodes) (hpath : node.path = resolve cwd str)
      (hnone : k.watches node.inode = none) :
      Watched k cwd str k.nextWd node.inode
        { k with
          watches := Function.update k.watches node.inode (some k.nextWd)
          nextWd := k.nextWd + 1 }

theorem addWatch_cases {k k' : Kernel} {cwd : Path} {str : List Char} {wd inode : ℕ}
    (hadd : k.addWatch cwd str = some (wd, inode, k')) : Watched k cwd str wd inode k' := by
  obtain ⟨node, hlookup, heq⟩ := Option.map_eq_some_iff.mp hadd
  obtain ⟨hnode, hpath⟩ := Tree.lookup_spec hlookup
  split at heq
  next wd' hwatch =>
    cases heq
    exact .again hnode hpath hwatch
  next hnone =>
    cases heq
    exact .fresh hnode hpath hnone

theorem Watched.tree_eq {k k' : Kernel} {cwd : Path} {str : List Char} {wd inode : ℕ}
    (hwatched : Watched k cwd str wd inode k') : k'.tree = k.tree := by
  cases hwatched <;> rfl

/-- The watches behind a call are the one it answers and those from before it. -/
theorem Watched.cases_watches {k k' : Kernel} {cwd : Path} {str : List Char}
    {wd inode other old : ℕ} (hwatched : Watched k cwd str wd inode k')
    (hwatch : k'.watches other = some old) :
    old = wd ∧ other = inode ∨ k.watches other = some old := by
  cases hwatched with
  | again _ _ _ => exact .inr hwatch
  | @fresh node _ _ _ =>
      change Function.update k.watches node.inode (some k.nextWd) other = some old at hwatch
      by_cases hsame : other = node.inode
      · subst hsame
        rw [Function.update_self] at hwatch
        exact .inl ⟨(Option.some.inj hwatch).symm, rfl⟩
      · rw [Function.update_of_ne hsame] at hwatch
        exact .inr hwatch

/-! ## Watches are of existing directories -/

/-- A watched directory exists, no two share a descriptor, and no descriptor is handed out again. -/
structure Sound (k : Kernel) : Prop where
  exist : ∀ inode wd, k.watches inode = some wd → ∃ node ∈ k.tree.nodes, node.inode = inode
  given : ∀ inode wd, k.watches inode = some wd → wd < k.nextWd
  single : ∀ inode inode' wd, k.watches inode = some wd → k.watches inode' = some wd →
    inode = inode'
  queued : ∀ e ∈ k.queue, e.wd < k.nextWd

namespace Sound

variable {k : Kernel}

theorem unwatched (tree : Tree) : Sound ⟨tree, fun _ => none, 0, [], []⟩ where
  exist _ _ hwatch := by cases hwatch
  given _ _ hwatch := by cases hwatch
  single _ _ _ hwatch := by cases hwatch
  queued _ he := by cases he

theorem tell (hk : k.Sound) (inode : ℕ) (name : Name) (isDir : Bool) (kind : Kind)
    (path : Option Path) : (k.tell inode name isDir kind path).Sound where
  exist := by simpa using hk.exist
  given := by simpa using hk.given
  single := by simpa using hk.single
  queued e he := by
    rw [tell_nextWd]
    rcases mem_queue_tell.mp he with hold | ⟨hwatch, -⟩
    · exact hk.queued e hold
    · exact hk.given inode e.wd hwatch

theorem leave (hk : k.Sound) (dir : Node) (name : Name) (isDir : Bool) :
    (k.leave dir name isDir).Sound where
  exist := by simpa using hk.exist
  given := by simpa using hk.given
  single := by simpa using hk.single
  queued := by simpa using hk.queued

theorem add (hk : k.Sound) (path : Path) (isDir : Bool) : (k.add path isDir).Sound where
  exist inode wd hwatch := by
    obtain ⟨node, hnode, hinode⟩ := hk.exist inode wd hwatch
    exact ⟨node, Tree.mem_add.mpr (.inl hnode), hinode⟩
  given := hk.given
  single := hk.single
  queued := hk.queued

theorem move (hk : k.Sound) (source target : Path) : (k.move source target).Sound where
  exist inode wd hwatch := by
    obtain ⟨node, hnode, hinode⟩ := hk.exist inode wd hwatch
    exact ⟨_, Tree.mem_move.mpr ⟨node, hnode, rfl⟩,
      (Tree.moved_inode source target node).trans hinode⟩
  given := hk.given
  single := hk.single
  queued := hk.queued

theorem remove (hk : k.Sound) (inode : ℕ) : (k.remove inode).Sound where
  exist other wd hwatch := by
    obtain ⟨hne, hwatch⟩ := watches_of_remove hwatch
    obtain ⟨node, hnode, rfl⟩ := hk.exist other wd hwatch
    rw [remove_tree]
    exact ⟨node, Tree.mem_remove.mpr ⟨hnode, hne⟩, rfl⟩
  given other wd hwatch := by
    rw [remove_nextWd]
    exact hk.given other wd (watches_of_remove hwatch).2
  single other other' wd hwatch hwatch' :=
    hk.single other other' wd (watches_of_remove hwatch).2 (watches_of_remove hwatch').2
  queued e he := by
    rw [remove_nextWd]
    rcases mem_queue_remove he with hold | ⟨hwatch, -⟩
    · exact hk.queued e hold
    · exact hk.given inode e.wd hwatch

theorem unlink (hk : k.Sound) (dir : Node) (name : Name) (node : Node) :
    (k.unlink dir name node).Sound :=
  (hk.leave dir name node.isDir).remove node.inode

theorem apply (hk : k.Sound) {k' : Kernel} {change : Change} (happly : k.apply change = some k') :
    k'.Sound := by
  cases apply_cases happly with
  | create _ => exact (hk.tell _ _ _ _ _).add _ _
  | modify _ => exact hk.tell _ _ _ _ _
  | modifyGone _ _ _ => exact hk.tell _ _ _ _ _
  | delete _ => exact (hk.tell _ _ _ _ _).unlink _ _ _
  | rename _ _ => exact ((hk.tell _ _ _ _ _).tell _ _ _ _ _).move _ _
  | renameOver _ _ => exact (((hk.tell _ _ _ _ _).tell _ _ _ _ _).unlink _ _ _).move _ _

theorem watched (hk : k.Sound) {k' : Kernel} {cwd : Path} {str : List Char} {wd inode : ℕ}
    (hwatched : Watched k cwd str wd inode k') : k'.Sound := by
  have hcases : ∀ other old, k'.watches other = some old →
      old = wd ∧ other = inode ∨ k.watches other = some old :=
    fun _ _ => hwatched.cases_watches
  cases hwatched with
  | again _ _ _ => exact hk
  | @fresh node hnode _ hnone =>
      constructor
      · intro other wd hwatch
        rcases hcases other wd hwatch with ⟨-, rfl⟩ | hold
        · exact ⟨node, hnode, rfl⟩
        · exact hk.exist other wd hold
      · intro other wd hwatch
        rcases hcases other wd hwatch with ⟨rfl, -⟩ | hold
        · exact Nat.lt_succ_self _
        · exact Nat.lt_succ_of_lt (hk.given other wd hold)
      · intro other other' wd hwatch hwatch'
        -- the new descriptor is above all that are given, so it is nobody else's
        rcases hcases other wd hwatch with ⟨rfl, rfl⟩ | hold <;>
          rcases hcases other' _ hwatch' with ⟨hwd, rfl⟩ | hold'
        · rfl
        · exact absurd (hk.given other' _ hold') (Nat.lt_irrefl _)
        · exact absurd (hk.given other _ hold) (hwd ▸ Nat.lt_irrefl _)
        · exact hk.single other other' wd hold hold'
      · exact fun e he => Nat.lt_succ_of_lt (hk.queued e he)

theorem rmWatch (hk : k.Sound) (wd : ℕ) : (k.rmWatch wd).Sound := by
  unfold Kernel.rmWatch
  split
  next hhas =>
    obtain ⟨dir, -, hdir⟩ := hhas
    have hwatched : ∀ inode other,
        (if k.watches inode = some wd then none else k.watches inode) = some other →
        k.watches inode = some other := by
      intro inode other hwatch
      split at hwatch
      · cases hwatch
      · exact hwatch
    constructor
    · exact fun inode other hwatch => hk.exist inode other (hwatched inode other hwatch)
    · exact fun inode other hwatch => hk.given inode other (hwatched inode other hwatch)
    · exact fun inode inode' other hwatch hwatch' =>
        hk.single inode inode' other (hwatched inode other hwatch) (hwatched inode' other hwatch')
    · intro e he
      rcases List.mem_append.mp he with hold | hnew
      · exact hk.queued e hold
      · obtain rfl := List.mem_singleton.mp hnew
        exact hk.given dir.inode wd hdir
  next => exact hk

theorem read (hk : k.Sound) {e : Event} {rest : List Event} (hqueue : k.queue = e :: rest) :
    ({ k with queue := rest } : Kernel).Sound where
  exist := hk.exist
  given := hk.given
  single := hk.single
  queued other hother := hk.queued other (hqueue ▸ List.mem_cons_of_mem e hother)

theorem hasWatch_iff (hk : k.Sound) {wd : ℕ} :
    k.hasWatch wd ↔ ∃ inode, k.watches inode = some wd := by
  constructor
  · rintro ⟨node, -, hwatch⟩
    exact ⟨node.inode, hwatch⟩
  · rintro ⟨inode, hwatch⟩
    obtain ⟨node, hnode, rfl⟩ := hk.exist inode wd hwatch
    exact ⟨node, hnode, hwatch⟩

/-- Taking a watch away leaves the others. -/
theorem rmWatch_watches (hk : k.Sound) {inode wd other : ℕ} :
    (k.rmWatch wd).watches inode = some other ↔ k.watches inode = some other ∧ other ≠ wd := by
  unfold Kernel.rmWatch
  split
  next =>
    change (if k.watches inode = some wd then none else k.watches inode) = some other ↔ _
    split
    next hwd =>
      constructor
      · exact fun hnone => by cases hnone
      · rintro ⟨hwatch, hne⟩
        exact absurd (Option.some.inj (hwatch.symm.trans hwd)) hne
    next hwd =>
      constructor
      · intro hwatch
        exact ⟨hwatch, fun hsame => hwd (hsame ▸ hwatch)⟩
      · exact And.left
  next hlost =>
    constructor
    · intro hwatch
      refine ⟨hwatch, ?_⟩
      rintro rfl
      exact hlost (hk.hasWatch_iff.mpr ⟨inode, hwatch⟩)
    · exact And.left

end Sound

/-! ## A watch lasts as long as its directory -/

/-- Not a file to come; and while the directory exists it has this descriptor. -/
def Holds (k : Kernel) (wd inode : ℕ) : Prop :=
  inode < k.tree.nextInode ∧ ∀ node ∈ k.tree.nodes, node.inode = inode → k.watches inode = some wd

namespace Holds

variable {k : Kernel} {wd inode : ℕ}

theorem tell (hk : k.Holds wd inode) (dir : ℕ) (name : Name) (isDir : Bool) (kind : Kind)
    (path : Option Path) : (k.tell dir name isDir kind path).Holds wd inode := by
  simpa [Holds] using hk

theorem add (hk : k.Holds wd inode) (path : Path) (isDir : Bool) :
    (k.add path isDir).Holds wd inode := by
  refine ⟨Nat.lt_succ_of_lt hk.1, ?_⟩
  intro node hnode hinode
  rcases Tree.mem_add.mp hnode with hold | rfl
  · exact hk.2 node hold hinode
  · exact absurd hinode hk.1.ne'

theorem move (hk : k.Holds wd inode) (source target : Path) :
    (k.move source target).Holds wd inode := by
  refine ⟨hk.1, ?_⟩
  intro node hnode hinode
  obtain ⟨old, hold, rfl⟩ := Tree.mem_move.mp hnode
  exact hk.2 old hold ((Tree.moved_inode source target old).symm.trans hinode)

theorem remove (hk : k.Holds wd inode) (gone : ℕ) : (k.remove gone).Holds wd inode := by
  unfold Holds
  rw [remove_tree, remove_watches]
  refine ⟨hk.1, ?_⟩
  intro node hnode hinode
  obtain ⟨hold, hne⟩ := Tree.mem_remove.mp hnode
  rw [Function.update_of_ne (hinode ▸ hne)]
  exact hk.2 node hold hinode

theorem leave (hk : k.Holds wd inode) (dir : Node) (name : Name) (isDir : Bool) :
    (k.leave dir name isDir).Holds wd inode := by
  simpa [Holds] using hk

theorem unlink (hk : k.Holds wd inode) (dir : Node) (name : Name) (node : Node) :
    (k.unlink dir name node).Holds wd inode :=
  (hk.leave dir name node.isDir).remove node.inode

theorem apply (hk : k.Holds wd inode) {k' : Kernel} {change : Change}
    (happly : k.apply change = some k') : k'.Holds wd inode := by
  cases apply_cases happly with
  | create _ => exact (hk.tell _ _ _ _ _).add _ _
  | modify _ => exact hk.tell _ _ _ _ _
  | modifyGone _ _ _ => exact hk.tell _ _ _ _ _
  | delete _ => exact (hk.tell _ _ _ _ _).unlink _ _ _
  | rename _ _ => exact ((hk.tell _ _ _ _ _).tell _ _ _ _ _).move _ _
  | renameOver _ _ => exact (((hk.tell _ _ _ _ _).tell _ _ _ _ _).unlink _ _ _).move _ _

theorem watched (hk : k.Holds wd inode) {k' : Kernel} {cwd : Path} {str : List Char}
    {wd' inode' : ℕ} (hwatched : Watched k cwd str wd' inode' k') : k'.Holds wd inode := by
  cases hwatched with
  | again _ _ _ => exact hk
  | @fresh dir _ _ hnone =>
      refine ⟨hk.1, ?_⟩
      intro node hnode hinode
      have hwatch := hk.2 node hnode hinode
      have hne : inode ≠ dir.inode := by
        rintro rfl
        rw [hnone] at hwatch
        cases hwatch
      exact (Function.update_of_ne hne _ _).trans hwatch

end Holds

/-- What a call answers is a watch of the directory. -/
theorem Watched.holds {k k' : Kernel} {cwd : Path} {str : List Char} {wd inode : ℕ}
    (hwatched : Watched k cwd str wd inode k') : k'.Holds wd inode := by
  cases hwatched with
  | again hnode _ hwatch => exact ⟨k.tree.fresh _ hnode, fun _ _ _ => hwatch⟩
  | fresh hnode _ _ => exact ⟨k.tree.fresh _ hnode, fun _ _ _ => Function.update_self _ _ _⟩

theorem apply_nextInode_le {k k' : Kernel} {change : Change} (happly : k.apply change = some k') :
    k.tree.nextInode ≤ k'.tree.nextInode := by
  cases apply_cases happly with
  | create _ => simp [add, Tree.add]
  | modify _ => simp
  | modifyGone _ _ _ => simp
  | delete _ => simp [unlink, Tree.remove]
  | rename _ _ => simp [move, Tree.move]
  | renameOver _ _ => simp [unlink, move, Tree.move, Tree.remove]

/-- Only `addWatch` sets up a watch. -/
theorem apply_watches {k k' : Kernel} {change : Change} (happly : k.apply change = some k')
    {inode wd : ℕ} (hwatch : k'.watches inode = some wd) : k.watches inode = some wd := by
  cases apply_cases happly with
  | create _ => simpa [add] using hwatch
  | modify _ => simpa using hwatch
  | modifyGone _ _ _ => simpa using hwatch
  | delete _ => simpa using (watches_of_remove hwatch).2
  | rename _ _ => simpa [move] using hwatch
  | renameOver _ _ => simpa using (watches_of_remove hwatch).2

end Kernel

end Inotify
