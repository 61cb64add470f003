import Palmira.Watch.WatchDir

/-!
# System directories

`AddWatch` returns at once for a string of its list, as it was given and before a
separator is put behind it. Every other spelling of a system directory, and every
directory below one, is watched, and so are "/snap" and "/sys", which the list has as
one string.
-/

namespace Palmira.Watch

open FileTree Inotify StepSystem

/-- The six directories the list is meant to have. -/
def systemDirs : List Path :=
  ["/dev", "/run", "/var/run", "/proc", "/snap", "/sys"].map fun str => resolve [] str.toList

/-- A system directory or a path below one. -/
def System (path : Path) : Prop := ∃ dir ∈ systemDirs, dir <+: path

/-- A path below a directory as `AddWatch` spells it. -/
def joined : Path → List Char
  | [] => []
  | [name] => name
  | name :: next :: rest => name ++ '/' :: joined (next :: rest)

section Strings

variable (cwd : Path) (present : Path → Prop)

/-- A string with a separator at its end that means no system directory, and is the beginning of a
string of the list for each system directory that is present below it. -/
def Clear (dir : List Char) : Prop :=
  ¬ System (resolve cwd dir) ∧ ∀ rest, resolve cwd dir ++ rest ∈ systemDirs →
    present (resolve cwd dir ++ rest) → dir ++ joined rest ∈ ignoreIt

/-- An argument of `AddWatch` that is a string of the list, means nothing that is present, or is
clear. -/
def SpelledAsListed (dir : List Char) : Prop :=
  dir ∈ ignoreIt ∨ ¬ present (resolve cwd (slashed dir)) ∨ Clear cwd present (slashed dir)

variable {cwd present}

theorem joined_cons (name : Name) {rest : Path} (hrest : rest ≠ []) :
    joined (name :: rest) = name ++ '/' :: joined rest := by
  cases rest with
  | nil => exact absurd rfl hrest
  | cons => rfl

theorem slashed_name (front : List Char) (name : Name) :
    slashed (front ++ ['/'] ++ name) = front ++ ['/'] ++ name ++ ['/'] := by
  obtain ⟨chars, hslash, hne, hdots⟩ := name
  have hlast : (front ++ ['/'] ++ chars).getLast? ≠ some '/' := by
    rw [List.getLast?_append_of_ne_nil _ hne]
    exact fun hsome => hslash (List.mem_of_getLast? hsome)
  have hsome : front ++ ['/'] ++ chars ≠ [] := List.append_ne_nil_of_right_ne_nil _ hne
  exact if_pos ⟨hsome, hlast⟩

theorem resolve_name_separator (front : List Char) (name : Name) :
    resolve cwd (front ++ ['/'] ++ name ++ ['/']) = resolve cwd (front ++ ['/']) ++ [name] := by
  rw [resolve_separator (List.append_ne_nil_of_right_ne_nil _ name.2.2.1), resolve_append]

/-- An entry of a clear directory is spelled as in the list. -/
theorem Clear.entry {front : List Char} (hclear : Clear cwd present (front ++ ['/']))
    (name : Name) : SpelledAsListed cwd present (front ++ ['/'] ++ name) := by
  obtain ⟨hnot, hlisted⟩ := hclear
  unfold SpelledAsListed Clear
  rw [slashed_name, resolve_name_separator]
  by_cases hpresent : present (resolve cwd (front ++ ['/']) ++ [name])
  · by_cases hsystem : System (resolve cwd (front ++ ['/']) ++ [name])
    · obtain ⟨dir, hdir, hpre⟩ := hsystem
      rcases List.prefix_concat_iff.mp hpre with rfl | habove
      · exact .inl (hlisted [name] hdir hpresent)
      · exact absurd ⟨dir, hdir, habove⟩ hnot
    · refine .inr (.inr ⟨hsystem, fun rest hdir hbelow => ?_⟩)
      have hrest : rest ≠ [] := by
        rintro rfl
        rw [List.append_nil] at hdir
        exact hsystem ⟨_, hdir, List.prefix_refl _⟩
      rw [List.append_assoc, List.singleton_append] at hdir hbelow
      have hmem := hlisted (name :: rest) hdir hbelow
      rw [joined_cons name hrest] at hmem
      simpa using hmem
  · exact .inr (.inl hpresent)

end Strings

/-! ## The invariant -/

/-- All files are present, the strings of watched directories are clear, and no registered directory
is a system directory. -/
structure Shielded (cwd : Path) (present : Path → Prop) (s : WatchDir) : Prop where
  tree : ∀ node ∈ s.kernel.tree.nodes, present node.path
  strings : ∀ wd dir, s.watchSet wd = some dir →
    ∃ front, dir = front ++ ['/'] ∧ Clear cwd present dir
  registered : ∀ wd inode, (wd, inode) ∈ s.registered →
    ∃ node ∈ s.kernel.tree.nodes, node.inode = inode ∧ ¬ System node.path

def CallsListed (cwd : Path) (present : Path → Prop) (calls : List AddCall) : Prop :=
  ∀ call ∈ calls, SpelledAsListed cwd present call.dir

/-- What the directory reader gives is names. -/
def NamesOnly (entries : List Dirent) : Prop :=
  ∀ dirent ∈ entries, dirent.string ≠ [] ∧ '/' ∉ dirent.string

section Keep

variable {cwd : Path} {present : Path → Prop} {s s' : WatchDir}

theorem mem_of_emplace {watchSet : ℕ → Option (List Char)} {wd other : ℕ} {dir old : List Char}
    (hsome : emplace watchSet wd dir other = some old) : watchSet other = some old ∨ old = dir := by
  cases hset : watchSet wd with
  | some first =>
      rw [emplace_of_some hset] at hsome
      exact .inl hsome
  | none =>
      rw [emplace_of_none hset] at hsome
      by_cases hsame : other = wd
      · subst hsame
        rw [Function.update_self] at hsome
        exact .inr (Option.some.inj hsome).symm
      · rw [Function.update_of_ne hsame] at hsome
        exact .inl hsome

theorem Watched.exists_node {k k' : Kernel} {str : List Char} {wd inode : ℕ}
    (hwatched : Kernel.Watched k cwd str wd inode k') :
    ∃ node ∈ k.tree.nodes, node.inode = inode ∧ node.path = resolve cwd str := by
  cases hwatched with
  | again hnode hpath => exact ⟨_, hnode, rfl, hpath⟩
  | fresh hnode hpath => exact ⟨_, hnode, rfl, hpath⟩

theorem Shielded.register (hshield : Shielded cwd present s) {front : List Char} {wd inode : ℕ}
    {kernel : Kernel} (hwatched : Kernel.Watched s.kernel cwd (front ++ ['/']) wd inode kernel)
    (hclear : Clear cwd present (front ++ ['/'])) :
    Shielded cwd present { s with
      kernel
      watchSet := emplace s.watchSet wd (front ++ ['/'])
      registered := (wd, inode) :: s.registered } := by
  constructor
  · intro node hnode
    rw [hwatched.tree_eq] at hnode
    exact hshield.tree node hnode
  · intro other dir hset
    rcases mem_of_emplace hset with hold | rfl
    · exact hshield.strings other dir hold
    · exact ⟨front, rfl, hclear⟩
  · intro other old hmem
    dsimp only
    rw [hwatched.tree_eq]
    rcases List.mem_cons.mp hmem with heq | hmem
    · cases heq
      obtain ⟨node, hnode, hinode, hpath⟩ := Watched.exists_node hwatched
      exact ⟨node, hnode, hinode, hpath ▸ hclear.1⟩
    · exact hshield.registered other old hmem

/-- The calls that the loop makes. -/
theorem callsListed_entries {front : List Char} (hclear : Clear cwd present (front ++ ['/']))
    {entries : List Dirent} (hentries : NamesOnly entries) :
    CallsListed cwd present ((entries.filter fun dirent =>
      dirent.string.head? ≠ some '.' ∧ dirent.isDir = true).map fun dirent =>
        ⟨front ++ ['/'] ++ dirent.string, true⟩) := by
  intro call hcall
  obtain ⟨dirent, hdirent, rfl⟩ := List.mem_map.mp hcall
  rw [List.mem_filter, decide_eq_true_iff] at hdirent
  obtain ⟨hmem, hdot, -⟩ := hdirent
  obtain ⟨hne, hslash⟩ := hentries dirent hmem
  have hname : IsName dirent.string := by
    refine ⟨hslash, hne, ?_, ?_⟩ <;>
      exact fun heq => hdot (by rw [heq]; rfl)
  exact hclear.entry ⟨dirent.string, hname⟩

theorem Shielded.addWatch (hshield : Shielded cwd present s) {call : AddCall}
    (hcall : SpelledAsListed cwd present call.dir) {entries : List Dirent}
    (hentries : NamesOnly entries) (granted : Bool) :
    Shielded cwd present (s.addWatch cwd granted entries call).1 ∧
      CallsListed cwd present (s.addWatch cwd granted entries call).2 := by
  unfold WatchDir.addWatch
  split
  next => exact ⟨hshield, nofun⟩
  next hnot =>
    dsimp only
    split
    next => exact ⟨hshield, nofun⟩
    next wd inode kernel hadd =>
      split at hadd
      next =>
        have hne : slashed call.dir ≠ [] := by
          intro hnil
          rw [hnil] at hadd
          cases hadd
        obtain ⟨front, hfront⟩ := slashed_eq hne
        -- the kernel has found something, so the string is clear
        have hwatched := Kernel.addWatch_cases hadd
        obtain ⟨node, hnode, -, hpath⟩ := Watched.exists_node hwatched
        have hpresent : present (resolve cwd (slashed call.dir)) := hpath ▸ hshield.tree node hnode
        have hclear := (hcall.resolve_left hnot).resolve_left (not_not_intro hpresent)
        rw [hfront] at hwatched hclear ⊢
        split
        next => exact ⟨hshield.register hwatched hclear, callsListed_entries hclear hentries⟩
        next => exact ⟨hshield.register hwatched hclear, nofun⟩
      next => cases hadd

theorem addWatch_calls (s : WatchDir) (cwd : Path) (granted : Bool) (entries : List Dirent)
    (call : AddCall) : (s.addWatch cwd granted entries call).1.calls = s.calls ∧
      (s.addWatch cwd granted entries call).1.clientCalls = s.clientCalls := by
  rcases addWatch_cases s cwd granted entries call with
    hsame | ⟨dir, wd, inode, kernel, -, hregistered⟩
  · rw [hsame]
    exact ⟨rfl, rfl⟩
  · rw [hregistered]
    exact ⟨rfl, rfl⟩

theorem Shielded.create (hshield : Shielded cwd present s) {dir : Path} {name : Name}
    {isDir : Bool} (hpresent : present (dir ++ [name])) {kernel : Kernel}
    (happly : s.kernel.apply (.create dir name isDir) = some kernel) :
    Shielded cwd present { s with kernel } := by
  cases Kernel.apply_cases happly with
  | @create parent _ _ _ hparent =>
      have hnodes : ∀ node, node ∈ ((s.kernel.notify parent name isDir .create).add (dir ++ [name])
          isDir).tree.nodes ↔ node ∈ s.kernel.tree.nodes ∨
            node = ⟨dir ++ [name], s.kernel.tree.nextInode, isDir⟩ := by
        intro node
        rw [Kernel.add, Kernel.tell_tree]
        exact Tree.mem_add
      refine ⟨fun node hnode => ?_, hshield.strings, fun wd inode hmem => ?_⟩
      · rcases (hnodes node).mp hnode with hold | rfl
        · exact hshield.tree node hold
        · exact hpresent
      · obtain ⟨node, hnode, hinode, hpath⟩ := hshield.registered wd inode hmem
        exact ⟨node, (hnodes node).mpr (.inl hnode), hinode, hpath⟩

theorem Shielded.drop (hshield : Shielded cwd present s) (wd : ℕ) :
    Shielded cwd present { s with
      kernel := s.kernel.rmWatch wd, watchSet := Function.update s.watchSet wd none } := by
  refine ⟨?_, ?_, ?_⟩
  · intro node hnode
    rw [Kernel.rmWatch_tree] at hnode
    exact hshield.tree node hnode
  · intro other dir hset
    by_cases hsame : other = wd
    · subst hsame
      dsimp only at hset
      rw [Function.update_self] at hset
      cases hset
    · dsimp only at hset
      rw [Function.update_of_ne hsame] at hset
      exact hshield.strings other dir hset
  · dsimp only
    rw [Kernel.rmWatch_tree]
    exact hshield.registered

theorem Shielded.dirWatch (hshield : Shielded cwd present s)
    (hcalls : CallsListed cwd present s.calls) {evNext : Event}
    (hstep : s.dirWatch evNext = some s') :
    Shielded cwd present s' ∧ CallsListed cwd present s'.calls ∧
      s'.clientCalls = s.clientCalls := by
  unfold WatchDir.dirWatch at hstep
  split at hstep
  next =>
    cases hstep
    exact ⟨hshield, hcalls, rfl⟩
  next name hname =>
    split at hstep
    next =>
      cases hstep
      exact ⟨hshield, hcalls, rfl⟩
    next dirstr hset =>
      obtain ⟨front, rfl, hclear⟩ := hshield.strings _ _ hset
      split at hstep
      next =>
        unfold WatchDir.dirEvent at hstep
        split at hstep
        next =>
          cases hstep
          exact ⟨⟨hshield.tree, hshield.strings, hshield.registered⟩,
            List.forall_mem_singleton.mpr (hclear.entry name), rfl⟩
        next => cases hstep
        next =>
          cases hstep
          exact ⟨hshield.drop _, hcalls, rfl⟩
        next =>
          cases hstep
          exact ⟨hshield, hcalls, rfl⟩
      next =>
        cases hstep
        unfold WatchDir.fileEvent
        split
        next => exact ⟨⟨hshield.tree, hshield.strings, hshield.registered⟩, hcalls, rfl⟩
        next => exact ⟨hshield, hcalls, rfl⟩

end Keep

/-! ## Runs -/

/-- Of the file system the run has creations only, of the directory reader names only. -/
def Action.Creates : Action → Prop
  | .change (.create _ _ _) => True
  | .change _ => False
  | .clientAdd _ entries => NamesOnly entries
  | .threadAdd _ entries => NamesOnly entries
  | _ => True

/-- The file is there from the beginning or is created. -/
def Present (tree : Tree) (actions : List Action) (path : Path) : Prop :=
  (∃ node ∈ tree.nodes, node.path = path) ∨
    ∃ dir name isDir, .change (.create dir name isDir) ∈ actions ∧ dir ++ [name] = path

/-- A creation is one of those counted as present, and a start path is spelled as in the list. -/
def Action.Meets (cwd : Path) (present : Path → Prop) : Action → Prop
  | .change (.create dir name _) => present (dir ++ [name])
  | .clientCall call => SpelledAsListed cwd present call.dir
  | _ => True

def Guarded (cwd : Path) (present : Path → Prop) (s : WatchDir) : Prop :=
  Shielded cwd present s ∧ CallsListed cwd present s.calls ∧ CallsListed cwd present s.clientCalls

theorem guarded_step {cwd : Path} {present : Path → Prop} {s s' : WatchDir} {a : Action}
    (hguarded : Guarded cwd present s) (ha : a.Creates ∧ a.Meets cwd present)
    (hstep : step cwd s a = some s') : Guarded cwd present s' := by
  obtain ⟨hshield, hcalls, hclient⟩ := hguarded
  obtain ⟨hcreates, hmeets⟩ := ha
  cases a with
  | change change =>
      obtain ⟨kernel, happly, rfl⟩ := Option.map_eq_some_iff.mp hstep
      cases change with
      | create dir name isDir => exact ⟨hshield.create hmeets happly, hcalls, hclient⟩
      | modify => exact absurd hcreates id
      | modifyGone => exact absurd hcreates id
      | delete => exact absurd hcreates id
      | rename => exact absurd hcreates id
  | clientCall call =>
      simp only [step] at hstep
      split at hstep
      next =>
        cases hstep
        exact ⟨⟨hshield.tree, hshield.strings, hshield.registered⟩, hcalls,
          List.forall_mem_singleton.mpr hmeets⟩
      next => cases hstep
  | clientAdd granted entries =>
      simp only [step] at hstep
      split at hstep
      next call rest hpending =>
        cases hstep
        rw [hpending] at hclient
        obtain ⟨hcall, hrest⟩ := List.forall_mem_cons.mp hclient
        obtain ⟨hshield', hmade⟩ := hshield.addWatch hcall hcreates granted
        refine ⟨⟨hshield'.tree, hshield'.strings, hshield'.registered⟩, ?_, ?_⟩
        · rw [CallsListed, (addWatch_calls s cwd granted entries call).1]
          exact hcalls
        · exact List.forall_mem_append.mpr ⟨hmade, hrest⟩
      next => cases hstep
  | threadAdd granted entries =>
      simp only [step] at hstep
      split at hstep
      next call rest hpending =>
        cases hstep
        rw [hpending] at hcalls
        obtain ⟨hcall, hrest⟩ := List.forall_mem_cons.mp hcalls
        obtain ⟨hshield', hmade⟩ := hshield.addWatch hcall hcreates granted
        refine ⟨⟨hshield'.tree, hshield'.strings, hshield'.registered⟩, ?_, ?_⟩
        · exact List.forall_mem_append.mpr ⟨hmade, hrest⟩
        · rw [CallsListed, (addWatch_calls s cwd granted entries call).2]
          exact hclient
      next => cases hstep
  | event =>
      simp only [step] at hstep
      split at hstep
      next evNext rest hnone hqueue =>
        have hread : Shielded cwd present
            { s with kernel := { s.kernel with queue := rest } } :=
          ⟨hshield.tree, hshield.strings, hshield.registered⟩
        obtain ⟨hshield', hcalls', hsame⟩ := hread.dirWatch hcalls hstep
        refine ⟨hshield', hcalls', ?_⟩
        rw [hsame]
        exact hclient
      next => cases hstep

theorem guarded_start (cwd : Path) {present : Path → Prop} {tree : Tree}
    (htree : ∀ node ∈ tree.nodes, present node.path) : Guarded cwd present (start tree) :=
  ⟨⟨htree, nofun, nofun⟩, nofun, nofun⟩

/-- In a run with creations only, whose start paths are spelled as in the list, nothing registered
is a system directory or lies below one. -/
theorem system_not_watched {cwd : Path} {tree : Tree} {actions : List Action} {s : WatchDir}
    (hcreates : ∀ a ∈ actions, a.Creates)
    (hspelled : ∀ call, .clientCall call ∈ actions →
      SpelledAsListed cwd (Present tree actions) call.dir)
    (hrun : run (step cwd) (start tree) actions = some s) :
    ∀ wd inode, (wd, inode) ∈ s.registered →
      ∀ node ∈ s.kernel.tree.nodes, node.inode = inode → ¬ System node.path := by
  have hmeets : ∀ a ∈ actions, a.Creates ∧ a.Meets cwd (Present tree actions) := by
    intro a ha
    refine ⟨hcreates a ha, ?_⟩
    cases a with
    | change change =>
        cases change with
        | create dir name isDir => exact .inr ⟨dir, name, isDir, ha, rfl⟩
        | _ => trivial
    | clientCall call => exact hspelled call ha
    | _ => trivial
  have hguarded : Guarded cwd (Present tree actions) s := by
    apply run_invariant_of_stepsMeet ?_ ?_ (stepsMeet_of_forall_mem hmeets _) hrun
    · exact fun s a s' hinv ha => guarded_step hinv ha
    · exact guarded_start cwd fun node hnode => .inl ⟨node, hnode, rfl⟩
  intro wd inode hmem node hnode hinode
  obtain ⟨node', hnode', hinode', hpath⟩ := hguarded.1.registered wd inode hmem
  rwa [s.kernel.tree.unique node hnode node' hnode' (hinode.trans hinode'.symm)]

/-! ## A directory the list should have -/

def nameVar : Name := ⟨"var".toList, by decide⟩

def nameRun : Name := ⟨"run".toList, by decide⟩

def nameSys : Name := ⟨"sys".toList, by decide⟩

/-- A file system with "/var" and "/sys". -/
def twoDirectories : Tree where
  nodes := [⟨[], 0, true⟩, ⟨[nameVar], 1, true⟩, ⟨[nameSys], 2, true⟩]
  nextInode := 3
  fresh := by decide
  unique := by decide

/-- "/var" is watched, and "/var/run" is made in it. -/
def runCreated : List Action :=
  [.clientCall ⟨"/var".toList, true⟩, .clientAdd true [],
    .change (.create [nameVar] nameRun true), .event, .threadAdd true []]

/-- "/var" is above "/var/run", which the list has as it is spelled from there. -/
theorem spelledAsListed_var (present : Path → Prop) :
    SpelledAsListed [] present "/var".toList := by
  have honly : ∀ dir ∈ systemDirs, [nameVar] <+: dir → dir = [nameVar, nameRun] := by decide
  refine .inr (.inr ⟨?_, ?_⟩)
  · unfold System
    decide
  · intro rest hmem _
    have hrest : nameVar :: rest = [nameVar, nameRun] := honly _ hmem (List.prefix_append _ _)
    cases hrest
    decide

theorem system_not_watched_var :
    ∃ s, run (step []) (start twoDirectories) runCreated = some s ∧
      ∀ wd inode, (wd, inode) ∈ s.registered →
        ∀ node ∈ s.kernel.tree.nodes, node.inode = inode → ¬ System node.path := by
  have hcreates : ∀ a ∈ runCreated, a.Creates := by
    simp [runCreated, Action.Creates, NamesOnly]
  have hspelled : ∀ call, .clientCall call ∈ runCreated →
      SpelledAsListed [] (Present twoDirectories runCreated) call.dir := by
    intro call hmem
    simp only [runCreated, List.mem_cons, List.not_mem_nil, Action.clientCall.injEq, reduceCtorEq,
      or_false] at hmem
    rw [hmem]
    exact spelledAsListed_var _
  exact ⟨_, rfl, system_not_watched hcreates hspelled rfl⟩

theorem sys_watched :
    ¬ ∀ (cwd : Path) (tree : Tree) (actions : List Action) (s : WatchDir),
      (∀ a ∈ actions, a.Creates) → run (step cwd) (start tree) actions = some s →
      ∀ wd inode, (wd, inode) ∈ s.registered →
        ∀ node ∈ s.kernel.tree.nodes, node.inode = inode → ¬ System node.path := by
  intro hall
  have hcreates : ∀ a ∈ [Action.clientCall ⟨"/sys".toList, true⟩, .clientAdd true []], a.Creates :=
    List.forall_mem_cons.mpr ⟨trivial, List.forall_mem_singleton.mpr nofun⟩
  exact hall [] twoDirectories _ _ hcreates rfl 0 2 (by decide) ⟨[nameSys], 2, true⟩ (by decide)
    rfl ⟨[nameSys], by decide, List.prefix_refl _⟩

end Palmira.Watch
