import Palmira.Watch.Kept

/-!
# Reported paths

A report puts the string kept for the event's descriptor before the name of the
entry. The string is the path the directory had when it was registered, and nothing
changes it when the directory, or one above it, is renamed. The entry may be one that
its file no longer has: the watches are set without `IN_EXCL_UNLINK`.
-/

namespace Palmira.Watch

open FileTree Inotify StepSystem

/-- Every report says what its event was, and where the file was then. -/
def Truthful (cwd : Path) (s : WatchDir) : Prop :=
  ∀ report ∈ s.reports, whatOf report.event.kind = some report.what ∧
    some (resolve cwd report.path) = report.event.path

/-- No directory at the path or below it is watched. -/
def Unwatched (k : Kernel) (path : Path) : Prop :=
  ∀ node ∈ k.tree.nodes, path <+: node.path → k.watches node.inode = none

instance (k : Kernel) (path : Path) : Decidable (Unwatched k path) :=
  inferInstanceAs (Decidable (∀ node ∈ k.tree.nodes, path <+: node.path →
    k.watches node.inode = none))

/-- No directory is renamed that is watched or has a watched directory below it. -/
def MovesUnwatched (s : WatchDir) (action : Action) : Prop :=
  ∀ dir name dir' name', action = .change (.rename dir name dir' name') →
    Unwatched s.kernel (dir ++ [name])

/-- No file in a watched directory is modified by a name that it does not have any more. -/
def ModifiesNamed (s : WatchDir) (action : Action) : Prop :=
  ∀ dir name elsewhere, action = .change (.modifyGone dir name elsewhere) →
    s.kernel.watches dir = none

/-- The paths in `watchSet` and the names of the events stay those of the files. -/
def KeepsNames (s : WatchDir) (action : Action) : Prop :=
  MovesUnwatched s action ∧ ModifiesNamed s action

/-- The strings in `watchSet` are the paths of the watched directories, now and when the events
still to be read were queued. -/
structure Placed (cwd : Path) (k : Kernel) (watchSet : ℕ → Option (List Char)) : Prop where
  sound : k.Sound
  kept : ∀ inode wd, k.watches inode = some wd → (watchSet wd).isSome = true
  given : ∀ wd, (watchSet wd).isSome = true → wd < k.nextWd
  slashed : ∀ wd str, watchSet wd = some str → ∃ dir, str = dir ++ ['/']
  placed : ∀ node ∈ k.tree.nodes, ∀ wd str, k.watches node.inode = some wd →
    watchSet wd = some str → resolve cwd str = node.path
  queued : ∀ e ∈ k.queue, ∀ name str, e.name = some name → watchSet e.wd = some str →
    e.path = some (resolve cwd str ++ [name])

namespace Unwatched

variable {k : Kernel} {path : Path}

theorem notify (hk : Unwatched k path) (dir : Node) (name : Name) (isDir : Bool) (kind : Kind) :
    Unwatched (k.notify dir name isDir kind) path := by
  simpa [Unwatched] using hk

theorem remove (hk : Unwatched k path) (inode : ℕ) : Unwatched (k.remove inode) path := by
  intro node hnode hpath
  rw [Kernel.remove_tree] at hnode
  obtain ⟨hold, hne⟩ := Tree.mem_remove.mp hnode
  rw [Kernel.remove_watches, Function.update_of_ne hne]
  exact hk node hold hpath

theorem leave (hk : Unwatched k path) (dir : Node) (name : Name) (isDir : Bool) :
    Unwatched (k.leave dir name isDir) path := by
  simpa [Unwatched] using hk

theorem unlink (hk : Unwatched k path) (dir : Node) (name : Name) (node : Node) :
    Unwatched (k.unlink dir name node) path :=
  (hk.leave dir name node.isDir).remove node.inode

end Unwatched

namespace Placed

variable {cwd : Path} {k k' : Kernel} {watchSet : ℕ → Option (List Char)}

theorem notify (hk : Placed cwd k watchSet) {dir : Node} (hdir : dir ∈ k.tree.nodes) (name : Name)
    (isDir : Bool) (kind : Kind) : Placed cwd (k.notify dir name isDir kind) watchSet where
  sound := hk.sound.tell dir.inode name isDir kind _
  kept := by simpa using hk.kept
  given := by simpa using hk.given
  slashed := hk.slashed
  placed := by simpa using hk.placed
  queued e he other str hname hstr := by
    rcases Kernel.mem_queue_tell.mp he with hold | ⟨hwatch, heq⟩
    · exact hk.queued e hold other str hname hstr
    · rw [heq] at hname ⊢
      rw [hk.placed dir hdir e.wd str hwatch hstr, Option.some.inj hname]

theorem add (hk : Placed cwd k watchSet) (path : Path) (isDir : Bool) :
    Placed cwd (k.add path isDir) watchSet where
  sound := hk.sound.add path isDir
  kept := hk.kept
  given := hk.given
  slashed := hk.slashed
  placed node hnode wd str hwatch hstr := by
    rcases Tree.mem_add.mp hnode with hold | rfl
    · exact hk.placed node hold wd str hwatch hstr
    · -- the new file is not watched: its number has never been given
      obtain ⟨other, hother, hsame⟩ := hk.sound.exist _ wd hwatch
      exact absurd hsame (k.tree.fresh other hother).ne
  queued := hk.queued

theorem remove (hk : Placed cwd k watchSet) (inode : ℕ) : Placed cwd (k.remove inode) watchSet where
  sound := hk.sound.remove inode
  kept other wd hwatch := hk.kept other wd (Kernel.watches_of_remove hwatch).2
  given := by simpa using hk.given
  slashed := hk.slashed
  placed node hnode wd str hwatch hstr := by
    rw [Kernel.remove_tree] at hnode
    exact hk.placed node (Tree.mem_remove.mp hnode).1 wd str
      (Kernel.watches_of_remove hwatch).2 hstr
  queued e he name str hname hstr := by
    rcases Kernel.mem_queue_remove he with hold | ⟨-, hnone⟩
    · exact hk.queued e hold name str hname hstr
    · rw [hnone] at hname
      cases hname

theorem leave (hk : Placed cwd k watchSet) (dir : Node) (name : Name) (isDir : Bool) :
    Placed cwd (k.leave dir name isDir) watchSet where
  sound := hk.sound.leave dir name isDir
  kept := by simpa using hk.kept
  given := by simpa using hk.given
  slashed := hk.slashed
  placed := by simpa using hk.placed
  queued := by simpa using hk.queued

theorem unlink (hk : Placed cwd k watchSet) (dir : Node) (name : Name) (node : Node) :
    Placed cwd (k.unlink dir name node) watchSet :=
  (hk.leave dir name node.isDir).remove node.inode

theorem move (hk : Placed cwd k watchSet) {source : Path} (hfree : Unwatched k source)
    (target : Path) : Placed cwd (k.move source target) watchSet where
  sound := hk.sound.move source target
  kept := hk.kept
  given := hk.given
  slashed := hk.slashed
  placed node hnode wd str hwatch hstr := by
    obtain ⟨old, hold, rfl⟩ := Tree.mem_move.mp hnode
    rw [Tree.moved_inode] at hwatch
    have hstays : ¬ source <+: old.path := by
      intro hbelow
      have hnone := hfree old hold hbelow
      cases hnone.symm.trans hwatch
    rw [Tree.moved, if_neg hstays]
    exact hk.placed old hold wd str hwatch hstr
  queued := hk.queued

/-- A change keeps the strings true when no watched directory is renamed and no file in one is
modified by a name it has lost. -/
theorem apply (hk : Placed cwd k watchSet) {change : Change}
    (hfree : ∀ dir name dir' name', change = .rename dir name dir' name' →
      Unwatched k (dir ++ [name]))
    (hnamed : ∀ dir name elsewhere, change = .modifyGone dir name elsewhere →
      k.watches dir = none) (happly : k.apply change = some k') :
    Placed cwd k' watchSet := by
  cases Kernel.apply_cases happly with
  | create hparent => exact (hk.notify hparent _ _ _).add _ _
  | modify hparent => exact hk.notify hparent _ _ _
  | modifyGone dir name elsewhere =>
      have hsilent : k.notifyGone dir name elsewhere = k :=
        Kernel.tell_of_unwatched (hnamed dir name elsewhere rfl)
      rw [hsilent]
      exact hk
  | delete hparent => exact (hk.notify hparent _ _ _).unlink _ _ _
  | @rename parent parent' dir dir' name name' isDir hparent hparent' =>
      have hfree₁ := (hfree dir name dir' name' rfl).notify parent name isDir .movedFrom
      exact ((hk.notify hparent _ _ _).notify (by simpa using hparent') _ _ _).move
        (hfree₁.notify parent' name' isDir .movedTo) _
  | @renameOver parent parent' old dir dir' name name' isDir hparent hparent' =>
      have hfree₁ := (hfree dir name dir' name' rfl).notify parent name isDir .movedFrom
      have hfree₂ := hfree₁.notify parent' name' isDir .movedTo
      exact (((hk.notify hparent _ _ _).notify (by simpa using hparent') _ _ _).unlink parent'
        name' old).move (hfree₂.unlink parent' name' old) _

theorem register (hk : Placed cwd k watchSet) {dir : List Char} {wd inode : ℕ}
    (hwatched : Kernel.Watched k cwd (dir ++ ['/']) wd inode k') :
    Placed cwd k' (emplace watchSet wd (dir ++ ['/'])) := by
  have hsound := hk.sound.watched hwatched
  have hcases : ∀ other old, k'.watches other = some old →
      old = wd ∧ other = inode ∨ k.watches other = some old :=
    fun _ _ => hwatched.cases_watches
  cases hwatched with
  | again _ _ hwatch =>
      obtain ⟨old, hold⟩ := Option.isSome_iff_exists.mp (hk.kept _ _ hwatch)
      rw [emplace_of_some hold]
      exact hk
  | @fresh node hnode hpath _ =>
      have hunset : watchSet k.nextWd = none :=
        Option.not_isSome_iff_eq_none.mp fun hsome => Nat.lt_irrefl _ (hk.given _ hsome)
      rw [emplace_of_none hunset]
      -- an older descriptor keeps its string
      have holder : ∀ old, old < k.nextWd →
          Function.update watchSet k.nextWd (some (dir ++ ['/'])) old = watchSet old :=
        fun old hlt => Function.update_of_ne hlt.ne _ _
      refine ⟨hsound, ?_, ?_, ?_, ?_, ?_⟩
      · intro other old hwatch
        rcases hcases other old hwatch with ⟨rfl, -⟩ | hwatch
        · rw [Function.update_self]
          rfl
        · rw [holder old (hk.sound.given other old hwatch)]
          exact hk.kept other old hwatch
      · intro old hsome
        by_cases hsame : old = k.nextWd
        · exact hsame ▸ Nat.lt_succ_self _
        · rw [Function.update_of_ne hsame] at hsome
          exact Nat.lt_succ_of_lt (hk.given old hsome)
      · intro old str hstr
        by_cases hsame : old = k.nextWd
        · subst hsame
          rw [Function.update_self] at hstr
          exact ⟨dir, (Option.some.inj hstr).symm⟩
        · rw [Function.update_of_ne hsame] at hstr
          exact hk.slashed old str hstr
      · intro other hother old str hwatch hstr
        rcases hcases other.inode old hwatch with ⟨rfl, hinode⟩ | hwatch
        · rw [Function.update_self] at hstr
          rw [← Option.some.inj hstr, k.tree.unique other hother node hnode hinode, hpath]
        · rw [holder old (hk.sound.given _ old hwatch)] at hstr
          exact hk.placed other hother old str hwatch hstr
      · intro e he name str hname hstr
        rw [holder e.wd (hk.sound.queued e he)] at hstr
        exact hk.queued e he name str hname hstr

theorem read (hk : Placed cwd k watchSet) {e : Event} {rest : List Event}
    (hqueue : k.queue = e :: rest) : Placed cwd { k with queue := rest } watchSet where
  sound := hk.sound.read hqueue
  kept := hk.kept
  given := hk.given
  slashed := hk.slashed
  placed := hk.placed
  queued other hother := hk.queued other (hqueue ▸ List.mem_cons_of_mem e hother)

theorem drop (hk : Placed cwd k watchSet) (wd : ℕ) :
    Placed cwd (k.rmWatch wd) (Function.update watchSet wd none) := by
  have hstill : ∀ old str, Function.update watchSet wd none old = some str →
      watchSet old = some str := by
    intro old str hstr
    by_cases hsame : old = wd
    · subst hsame
      rw [Function.update_self] at hstr
      cases hstr
    · rwa [Function.update_of_ne hsame] at hstr
  refine ⟨hk.sound.rmWatch wd, ?_, ?_, ?_, ?_, ?_⟩
  · intro inode old hwatch
    obtain ⟨hwatch, hne⟩ := hk.sound.rmWatch_watches.mp hwatch
    rw [Function.update_of_ne hne]
    exact hk.kept inode old hwatch
  · intro old hsome
    obtain ⟨str, hstr⟩ := Option.isSome_iff_exists.mp hsome
    rw [Kernel.rmWatch_nextWd]
    exact hk.given old (Option.isSome_iff_exists.mpr ⟨str, hstill old str hstr⟩)
  · exact fun old str hstr => hk.slashed old str (hstill old str hstr)
  · intro node hnode old str hwatch hstr
    rw [Kernel.rmWatch_tree] at hnode
    exact hk.placed node hnode old str (hk.sound.rmWatch_watches.mp hwatch).1 (hstill old str hstr)
  · intro e he name str hname hstr
    -- the event that tells of the removed watch has no name
    rcases Kernel.mem_queue_rmWatch he with hold | hnone
    · exact hk.queued e hold name str hname (hstill e.wd str hstr)
    · rw [hnone] at hname
      cases hname


theorem start (cwd : Path) (tree : Tree) :
    Placed cwd (start tree).kernel (start tree).watchSet where
  sound := .unwatched tree
  kept _ _ hwatch := by cases hwatch
  given _ hsome := by cases hsome
  slashed _ _ hstr := by cases hstr
  placed _ _ _ _ hwatch := by cases hwatch
  queued _ he := by cases he

end Placed

variable {cwd : Path} {s s' : WatchDir} {action : Action}

theorem placed_step (hs : Placed cwd s.kernel s.watchSet) (hkeeps : KeepsNames s action)
    (hstep : step cwd s action = some s') : Placed cwd s'.kernel s'.watchSet := by
  cases step_cases hstep with
  | change happly =>
      refine hs.apply ?_ ?_ happly
      · rintro dir name dir' name' rfl
        exact hkeeps.1 dir name dir' name' rfl
      · rintro dir name elsewhere rfl
        exact hkeeps.2 dir name elsewhere rfl
  | register _ hwatched => exact hs.register hwatched
  | calls _ => exact hs
  | read hqueue _ => exact hs.read hqueue
  | drop hqueue _ => exact (hs.read hqueue).drop _
  | report hqueue _ _ _ _ => exact hs.read hqueue

theorem truthful_step (hs : Placed cwd s.kernel s.watchSet) (htrue : Truthful cwd s)
    (hstep : step cwd s action = some s') : Truthful cwd s' := by
  cases step_cases hstep with
  | change _ => exact htrue
  | register _ _ => exact htrue
  | calls _ => exact htrue
  | read _ _ => exact htrue
  | drop _ _ => exact htrue
  | @report evNext rest name dirstr what hqueue _ hname hset hwhat =>
      intro report hreport
      rcases List.mem_append.mp hreport with hold | hnew
      · exact htrue report hold
      · obtain rfl := List.mem_singleton.mp hnew
        have hpath := hs.queued evNext (hqueue ▸ List.mem_cons_self) name dirstr hname hset
        obtain ⟨dir, rfl⟩ := hs.slashed evNext.wd dirstr hset
        exact ⟨hwhat, (congrArg some (resolve_append cwd dir name)).trans hpath.symm⟩

/-- In a run in which no watched directory is renamed, nor one above a watched directory, and no
file in a watched directory is modified by a name it has lost, every report carries the path its
file had when the event occurred. -/
theorem reports_truthful (cwd : Path) (tree : Tree) (actions : List Action)
    (hmeet : StepsMeet (step cwd) KeepsNames (start tree) actions)
    (hrun : run (step cwd) (start tree) actions = some s) : Truthful cwd s := by
  have hkeep : ∀ s action s', Placed cwd s.kernel s.watchSet ∧ Truthful cwd s →
      KeepsNames s action → step cwd s action = some s' →
      Placed cwd s'.kernel s'.watchSet ∧ Truthful cwd s' :=
    fun s action s' ⟨hs, htrue⟩ hkeeps hstep =>
      ⟨placed_step hs hkeeps hstep, truthful_step hs htrue hstep⟩
  have hstart : Placed cwd (start tree).kernel (start tree).watchSet ∧ Truthful cwd (start tree) :=
    ⟨.start cwd tree, fun report hreport => by cases hreport⟩
  exact (run_invariant_of_stepsMeet hkeep hstart hmeet hrun).2

def nameB : Name := ⟨['b'], by decide⟩

/-- "/r" is watched; the file "/r/a" is made in it, renamed to "/r/b", modified and deleted. -/
def fileRenamed : List Action :=
  [.clientCall ⟨['/', 'r'], true⟩, .clientAdd true [], .change (.create [nameR] nameA false),
    .change (.rename [nameR] nameA [nameR] nameB), .change (.modify [nameR] nameB),
    .change (.delete [nameR] nameB), .event, .event, .event, .event, .event]

theorem fileRenamed_keepsNames :
    StepsMeet (step []) KeepsNames (start oneDirectory) fileRenamed := by
  refine .cons ?_ rfl (.cons ?_ rfl (.cons ?_ rfl (.cons ?_ rfl (.cons ?_ rfl (.cons ?_ rfl
    (.cons ?_ rfl (.cons ?_ rfl (.cons ?_ rfl (.cons ?_ rfl (.cons ?_ rfl trivial))))))))))
  all_goals
    refine ⟨?_, fun dir name elsewhere hmodify => by cases hmodify⟩
    intro dir name dir' name' hrename
    cases hrename
  -- only the rename is left
  decide

theorem reports_truthful_fileRenamed :
    ∃ s, run (step []) (start oneDirectory) fileRenamed = some s ∧
      s.reports.map Report.path =
        [['/', 'r', '/', 'a'], ['/', 'r', '/', 'a'], ['/', 'r', '/', 'b'], ['/', 'r', '/', 'b'],
          ['/', 'r', '/', 'b']] ∧
      Truthful [] s :=
  ⟨_, rfl, rfl, reports_truthful [] oneDirectory fileRenamed fileRenamed_keepsNames rfl⟩

/-- "/r" is watched and "/r/a" is made in it, which is watched, too; it is renamed to "/r/b", and a
file is made there. -/
def directoryRenamed : List Action :=
  [.clientCall ⟨['/', 'r'], true⟩, .clientAdd true [], .change (.create [nameR] nameA true), .event,
    .threadAdd true [], .change (.rename [nameR] nameA [nameR] nameB),
    .change (.create [nameR, nameB] nameA false), .event, .event, .event]

/-- The file is reported under the old name of its directory. -/
theorem renamed_directory_not_truthful :
    ∃ s, run (step []) (start oneDirectory) directoryRenamed = some s ∧ ¬ Truthful [] s := by
  refine ⟨_, rfl, ?_⟩
  intro htrue
  have hreport := htrue ⟨.createFile, ['/', 'r', '/', 'a', '/', 'a'],
    ⟨1, false, .create, some nameA, some [nameR, nameB, nameA]⟩⟩ (by decide)
  exact absurd hreport.2 (by decide)

/-- "/r" is watched; the file "/r/a" is made in it and opened, deleted, and written. -/
def openDeleted : List Action :=
  [.clientCall ⟨['/', 'r'], true⟩, .clientAdd true [], .change (.create [nameR] nameA false),
    .change (.delete [nameR] nameA), .change (.modifyGone 1 nameA none), .event, .event, .event]

/-- The file is reported as modified under a name that it does not have any more. -/
theorem open_deleted_not_truthful :
    ∃ s, run (step []) (start oneDirectory) openDeleted = some s ∧ ¬ Truthful [] s := by
  refine ⟨_, rfl, ?_⟩
  intro htrue
  have hreport := htrue ⟨.modifyFile, ['/', 'r', '/', 'a'],
    ⟨0, false, .modify, some nameA, none⟩⟩ (by decide)
  cases hreport.2

end Palmira.Watch
