import Palmira.Watch.WatchDir

/-!
# Watches that are kept

A directory that is registered should stay watched as long as it exists. The thread
takes a watch away when it reads that a subdirectory was deleted, but by the
descriptor of the event, which is that of the parent.
-/

namespace Palmira.Watch

open FileTree Inotify StepSystem

/-- Every registered directory that still exists has its descriptor in the kernel and in
`watchSet`. -/
def Kept (s : WatchDir) : Prop :=
  ∀ wd inode, (wd, inode) ∈ s.registered → (∃ node ∈ s.kernel.tree.nodes, node.inode = inode) →
    s.kernel.watches inode = some wd ∧ (s.watchSet wd).isSome = true

/-- The thread does not read of a deleted subdirectory while the parent is still watched. -/
def KeepsParent (s : WatchDir) (action : Action) : Prop :=
  ∀ wd, action = .event → s.dropsNext = some wd → ¬ s.kernel.hasWatch wd

/-- What holds however the thread behaves: all that the kernel watches is registered. -/
structure Registry (kernel : Kernel) (watchSet : ℕ → Option (List Char))
    (registered : List (ℕ × ℕ)) : Prop where
  sound : kernel.Sound
  noted : ∀ inode wd, kernel.watches inode = some wd →
    (wd, inode) ∈ registered ∧ (watchSet wd).isSome = true
  known : ∀ wd inode, (wd, inode) ∈ registered → inode < kernel.tree.nextInode

def WatchDir.Based (s : WatchDir) : Prop := Registry s.kernel s.watchSet s.registered

variable {s s' : WatchDir} {cwd : Path} {action : Action}

theorem kept_iff (hbase : s.Based) :
    Kept s ↔ ∀ wd inode, (wd, inode) ∈ s.registered → s.kernel.Holds wd inode := by
  constructor
  · intro hkept wd inode hmem
    refine ⟨hbase.known wd inode hmem, fun node hnode hinode => ?_⟩
    exact (hkept wd inode hmem ⟨node, hnode, hinode⟩).1
  · rintro hholds wd inode hmem ⟨node, hnode, hinode⟩
    have hwatch := (hholds wd inode hmem).2 node hnode hinode
    exact ⟨hwatch, (hbase.noted inode wd hwatch).2⟩

theorem isSome_emplace {watchSet : ℕ → Option (List Char)} {wd other : ℕ} {dir : List Char}
    (hother : other = wd ∨ (watchSet other).isSome = true) :
    (emplace watchSet wd dir other).isSome = true := by
  cases hset : watchSet wd with
  | some old =>
      rw [emplace_of_some hset]
      rcases hother with rfl | hsome
      · rw [hset]
        rfl
      · exact hsome
  | none =>
      rw [emplace_of_none hset]
      by_cases hsame : other = wd
      · subst hsame
        rw [Function.update_self]
        rfl
      · rw [Function.update_of_ne hsame]
        exact hother.resolve_left hsame

theorem based_start (tree : Tree) : (start tree).Based where
  sound := .unwatched tree
  noted _ _ hwatch := by cases hwatch
  known _ _ hmem := by cases hmem

namespace Registry

variable {kernel kernel' : Kernel} {watchSet : ℕ → Option (List Char)} {registered : List (ℕ × ℕ)}

theorem register (hbase : Registry kernel watchSet registered) {dir : List Char} {wd inode : ℕ}
    (hwatched : Kernel.Watched kernel cwd (dir ++ ['/']) wd inode kernel') :
    Registry kernel' (emplace watchSet wd (dir ++ ['/'])) ((wd, inode) :: registered) := by
  refine ⟨hbase.sound.watched hwatched, ?_, ?_⟩
  · intro other old hwatch
    rcases hwatched.cases_watches hwatch with ⟨rfl, rfl⟩ | hwatch
    · exact ⟨List.mem_cons_self, isSome_emplace (.inl rfl)⟩
    · obtain ⟨hmem, hset⟩ := hbase.noted other old hwatch
      exact ⟨List.mem_cons_of_mem _ hmem, isSome_emplace (.inr hset)⟩
  · rw [hwatched.tree_eq]
    intro old other hmem
    rcases List.mem_cons.mp hmem with heq | hmem
    · cases heq
      cases hwatched with
      | again hnode _ _ => exact kernel.tree.fresh _ hnode
      | fresh hnode _ _ => exact kernel.tree.fresh _ hnode
    · exact hbase.known old other hmem

theorem drop (hbase : Registry kernel watchSet registered) (wd : ℕ) :
    Registry (kernel.rmWatch wd) (Function.update watchSet wd none) registered := by
  refine ⟨hbase.sound.rmWatch wd, ?_, ?_⟩
  · intro inode other hwatch
    obtain ⟨hwatch, hne⟩ := hbase.sound.rmWatch_watches.mp hwatch
    obtain ⟨hmem, hset⟩ := hbase.noted inode other hwatch
    rw [Function.update_of_ne hne]
    exact ⟨hmem, hset⟩
  · rw [Kernel.rmWatch_tree]
    exact hbase.known

end Registry

theorem based_step (hbase : s.Based) (hstep : step cwd s action = some s') : s'.Based := by
  cases step_cases hstep with
  | change happly =>
      exact ⟨hbase.sound.apply happly,
        fun inode wd hwatch => hbase.noted inode wd (Kernel.apply_watches happly hwatch),
        fun wd inode hmem => (hbase.known wd inode hmem).trans_le
          (Kernel.apply_nextInode_le happly)⟩
  | register _ hwatched => exact hbase.register hwatched
  | calls _ => exact hbase
  | read hqueue _ => exact ⟨hbase.sound.read hqueue, hbase.noted, hbase.known⟩
  | drop hqueue hdrops => exact Registry.drop ⟨hbase.sound.read hqueue, hbase.noted, hbase.known⟩ _
  | report hqueue _ _ _ _ => exact ⟨hbase.sound.read hqueue, hbase.noted, hbase.known⟩

theorem kept_step_iff (hbase : s.Based) (hkept : Kept s) (hstep : step cwd s action = some s') :
    Kept s' ↔ KeepsParent s action := by
  have hholds := (kept_iff hbase).mp hkept
  have hbase' := based_step hbase hstep
  rw [kept_iff hbase']
  cases step_cases hstep with
  | change happly =>
      refine iff_of_true (fun wd inode hmem => ?_) (fun wd hevent => by cases hevent)
      exact (hholds wd inode hmem).apply happly
  | register haction hwatched =>
      refine iff_of_true (fun wd inode hmem => ?_) (fun wd hevent => absurd hevent haction)
      rcases List.mem_cons.mp hmem with heq | hmem
      · cases heq
        exact hwatched.holds
      · exact (hholds wd inode hmem).watched hwatched
  | calls haction => exact iff_of_true hholds (fun wd hevent => absurd hevent haction)
  | read _ hdrops =>
      refine iff_of_true hholds (fun wd _ hwd => ?_)
      rw [hdrops] at hwd
      cases hwd
  | @drop evNext rest hqueue hdrops =>
      constructor
      · -- the watch was that of an existing directory, which is registered under it
        rintro hafter wd - hwd ⟨parent, hparent, hwatch⟩
        rw [hdrops] at hwd
        cases hwd
        obtain ⟨hmem, -⟩ := hbase.noted parent.inode evNext.wd hwatch
        have hlost := (hafter evNext.wd parent.inode hmem).2 parent
          (by rwa [Kernel.rmWatch_tree]) rfl
        exact (Kernel.Sound.rmWatch_watches (hbase.sound.read hqueue)).mp hlost |>.2 rfl
      · -- a descriptor the kernel no longer has takes no watch away
        intro hkeeps
        have hgone : ¬ (s.readKernel rest).hasWatch evNext.wd := hkeeps evNext.wd rfl hdrops
        simp only [Kernel.rmWatch, if_neg hgone]
        exact hholds
  | report _ hdrops _ _ _ =>
      refine iff_of_true hholds (fun wd _ hwd => ?_)
      rw [hdrops] at hwd
      cases hwd

/-- Nothing stops the thread from reading of a deleted subdirectory. -/
theorem exists_step_of_dropsNext (cwd : Path) {wd : ℕ} (hdrops : s.dropsNext = some wd) :
    ∃ s', step cwd s .event = some s' := by
  unfold WatchDir.dropsNext at hdrops
  split at hdrops
  next evNext rest hcalls hqueue =>
    split at hdrops
    next hevent =>
      obtain ⟨hdir, hkind, hname, hset⟩ := hevent
      obtain ⟨name, hname⟩ := Option.isSome_iff_exists.mp hname
      obtain ⟨dirstr, hset⟩ := Option.isSome_iff_exists.mp hset
      simp [step, hcalls, hqueue, WatchDir.dirWatch, WatchDir.dirEvent, hname, hset, hdir, hkind]
    next => cases hdrops
  next => cases hdrops

/-- Every registered directory that still exists is watched in every state of a run exactly when
the thread reads of no deleted subdirectory while the parent is watched. -/
theorem watches_kept_iff (cwd : Path) (tree : Tree) (actions : List Action) :
    Throughout (step cwd) Kept (start tree) actions ↔
      StepsMeet (step cwd) KeepsParent (start tree) actions := by
  apply throughout_iff_stepsMeet
  · exact fun s action s' hbase hstep => based_step hbase hstep
  · exact fun s action s' hbase hkept hstep => kept_step_iff hbase hkept hstep
  · rintro s action hnone wd rfl hdrops
    obtain ⟨s', hstep⟩ := exists_step_of_dropsNext cwd hdrops
    rw [hnone] at hstep
    cases hstep
  · exact based_start tree
  · exact fun wd inode hmem => by cases hmem

/-! ## A lost watch -/

def nameR : Name := ⟨['r'], by decide⟩

def nameA : Name := ⟨['a'], by decide⟩

/-- A file system with the directory "/r". -/
def oneDirectory : Tree where
  nodes := [⟨[], 0, true⟩, ⟨[nameR], 1, true⟩]
  nextInode := 2
  fresh := by decide
  unique := by decide

/-- "/r" is watched, and "/r/a" is made in it and deleted. -/
def madeAndDeleted : List Action :=
  [.clientCall ⟨['/', 'r'], true⟩, .clientAdd true [], .change (.create [nameR] nameA true), .event,
    .threadAdd true [], .change (.delete [nameR] nameA), .event]

theorem parent_not_kept :
    ∃ s, run (step []) (start oneDirectory) madeAndDeleted = some s ∧ ¬ Kept s := by
  refine ⟨_, rfl, ?_⟩
  intro hkept
  have hwatched := hkept 0 1 (by decide) ⟨⟨[nameR], 1, true⟩, by decide, rfl⟩
  cases hwatched.1

end Palmira.Watch
