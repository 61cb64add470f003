import Palmira.Foundation.Inotify
import Palmira.Foundation.StepSystem

/-!
# Watching directories

`WatchDir` on inotify. A client calls `AddWatch`; a thread reads the events in
`DirWatch` and calls it too. Both go down the directories call by call, while the
tree changes under them. Nothing the client may do with the object stops the thread.
-/

namespace Palmira.Watch

open FileTree Inotify

/-- The first argument of `notifyFn`. -/
inductive What where
  | createFile
  | modifyFile
  | deleteFile
  deriving DecidableEq

/-- A call of `notifyFn`, and the event it reports. -/
structure Report where
  what : What
  path : List Char
  event : Event
  deriving DecidableEq

/-- The arguments of a call of `AddWatch` still to be made. -/
structure AddCall where
  dir : List Char
  withSubdirectories : Bool
  deriving DecidableEq

/-- An entry that reading a directory gives. -/
structure Dirent where
  string : List Char
  isDir : Bool

/-- `calls` are those of the thread in `DirWatch`, `clientCalls` those of the client; `registered`
keeps what `AddWatch` has put into `watchSet`, as a descriptor and the directory. -/
structure WatchDir where
  kernel : Kernel
  watchSet : ℕ → Option (List Char)
  calls : List AddCall
  clientCalls : List AddCall
  registered : List (ℕ × ℕ)
  reports : List Report

/-- A `WatchDir` that watches nothing yet. -/
def start (tree : Tree) : WatchDir where
  kernel := ⟨tree, fun _ => none, 0, [], []⟩
  watchSet _ := none
  calls := []
  clientCalls := []
  registered := []
  reports := []

/-! ## AddWatch -/

/-- The directories that are not watched; the source has no comma between the last two. -/
def ignoreIt : List (List Char) :=
  ["/dev".toList, "/run".toList, "/var/run".toList, "/proc".toList, "/snap/sys".toList]

/-- `if ( dir.length() != 0 && dir.back() != '/' ) dir += '/'` -/
def slashed (dir : List Char) : List Char :=
  if dir ≠ [] ∧ dir.getLast? ≠ some '/' then dir ++ ['/'] else dir

/-- `unordered_map::emplace`: a key that is there keeps its value. -/
def emplace (watchSet : ℕ → Option (List Char)) (wd : ℕ) (dir : List Char) :
    ℕ → Option (List Char) :=
  match watchSet wd with
  | some _ => watchSet
  | none => Function.update watchSet wd (some dir)

theorem emplace_of_some {watchSet : ℕ → Option (List Char)} {wd : ℕ} {old : List Char}
    (hold : watchSet wd = some old) (dir : List Char) : emplace watchSet wd dir = watchSet := by
  unfold emplace
  rw [hold]

theorem emplace_of_none {watchSet : ℕ → Option (List Char)} {wd : ℕ} (hnone : watchSet wd = none)
    (dir : List Char) : emplace watchSet wd dir = Function.update watchSet wd (some dir) := by
  unfold emplace
  rw [hnone]

/-- `AddWatch` up to its loop: the calls are those the loop makes. `granted` is whether the kernel
has room for a watch, `entries` what the loop reads in the directory. -/
def WatchDir.addWatch (s : WatchDir) (cwd : Path) (granted : Bool) (entries : List Dirent)
    (call : AddCall) : WatchDir × List AddCall :=
  if call.dir ∈ ignoreIt then (s, [])
  else
    let dir := slashed call.dir
    match if granted = true then s.kernel.addWatch cwd dir else none with
    | none => (s, [])
    | some (fidWatch, inode, kernel) =>
        let s := { s with
          kernel
          watchSet := emplace s.watchSet fidWatch dir
          registered := (fidWatch, inode) :: s.registered }
        if call.withSubdirectories = true then
          let subdirectories := entries.filter fun dirent =>
            dirent.string.head? ≠ some '.' ∧ dirent.isDir = true
          (s, subdirectories.map fun dirent => ⟨dir ++ dirent.string, true⟩)
        else (s, [])

/-! ## DirWatch -/

/-- What a report of an event on a file says; a watch's last event is not reported. -/
def whatOf : Kind → Option What
  | .create => some .createFile
  | .modify => some .modifyFile
  | .delete => some .deleteFile
  | .movedFrom => some .deleteFile
  | .movedTo => some .createFile
  | .ignored => none

/-- An event on a subdirectory. `std::runtime_error( "--- not supported ---" )` leaves the thread,
which ends the program. -/
def WatchDir.dirEvent (s : WatchDir) (evNext : Event) (path : List Char) : Option WatchDir :=
  match evNext.kind with
  | .create => some { s with calls := [⟨path, true⟩] }
  | .modify => none
  | .delete =>
      some { s with
        kernel := s.kernel.rmWatch evNext.wd
        watchSet := Function.update s.watchSet evNext.wd none }
  | _ => some s

/-- An event on a file. -/
def WatchDir.fileEvent (s : WatchDir) (evNext : Event) (path : List Char) : WatchDir :=
  match whatOf evNext.kind with
  | some what => { s with reports := s.reports ++ [⟨what, path, evNext⟩] }
  | none => s

/-- The body of the loop; an event without a name has `len` 0. -/
def WatchDir.dirWatch (s : WatchDir) (evNext : Event) : Option WatchDir :=
  match evNext.name with
  | none => some s
  | some name =>
      match s.watchSet evNext.wd with
      | none => some s
      | some dirstr =>
          if evNext.isDir = true then s.dirEvent evNext (dirstr ++ name)
          else some (s.fileEvent evNext (dirstr ++ name))

/-! ## Steps -/

inductive Action where
  | change (change : Change)
  | clientCall (call : AddCall)
  | clientAdd (granted : Bool) (entries : List Dirent)
  | threadAdd (granted : Bool) (entries : List Dirent)
  | event

/-- One step of the file system, of the client or of the thread. The thread reads the next event
when its calls of `AddWatch` for the last one have come back. -/
def step (cwd : Path) (s : WatchDir) : Action → Option WatchDir
  | .change change => (s.kernel.apply change).map fun kernel => { s with kernel }
  | .clientCall call =>
      match s.clientCalls with
      | [] => some { s with clientCalls := [call] }
      | _ :: _ => none
  | .clientAdd granted entries =>
      match s.clientCalls with
      | call :: rest =>
          let (s, calls) := s.addWatch cwd granted entries call
          some { s with clientCalls := calls ++ rest }
      | [] => none
  | .threadAdd granted entries =>
      match s.calls with
      | call :: rest =>
          let (s, calls) := s.addWatch cwd granted entries call
          some { s with calls := calls ++ rest }
      | [] => none
  | .event =>
      match s.calls, s.kernel.queue with
      | [], evNext :: rest =>
          ({ s with kernel := { s.kernel with queue := rest } } : WatchDir).dirWatch evNext
      | _, _ => none

/-! ## What a step does -/

/-- The thread's next event is on a deleted subdirectory, of a directory in `watchSet`: the
descriptor whose watch it takes away. -/
def WatchDir.dropsNext (s : WatchDir) : Option ℕ :=
  match s.calls, s.kernel.queue with
  | [], evNext :: _ =>
      if evNext.isDir = true ∧ evNext.kind = .delete ∧ evNext.name.isSome = true ∧
          (s.watchSet evNext.wd).isSome = true then some evNext.wd
      else none
  | _, _ => none

/-- The kernel without the event that is read. -/
def WatchDir.readKernel (s : WatchDir) (rest : List Event) : Kernel :=
  { s.kernel with queue := rest }

/-- A step changes the tree; registers a directory; takes a watch away; reports; or it only reads
an event or changes the calls still to be made. -/
inductive Stepped (cwd : Path) (s : WatchDir) : Action → WatchDir → Prop
  | change {change : Change} {kernel : Kernel} (happly : s.kernel.apply change = some kernel) :
      Stepped cwd s (.change change) { s with kernel }
  | register {action : Action} {dir : List Char} {wd inode : ℕ} {kernel : Kernel}
      {calls clientCalls : List AddCall} (haction : action ≠ .event)
      (hwatched : Kernel.Watched s.kernel cwd (dir ++ ['/']) wd inode kernel) :
      Stepped cwd s action
        { s with
          kernel, calls, clientCalls
          watchSet := emplace s.watchSet wd (dir ++ ['/'])
          registered := (wd, inode) :: s.registered }
  | calls {action : Action} {calls clientCalls : List AddCall} (haction : action ≠ .event) :
      Stepped cwd s action { s with calls, clientCalls }
  | read {evNext : Event} {rest : List Event} {calls : List AddCall}
      (hqueue : s.kernel.queue = evNext :: rest) (hdrops : s.dropsNext = none) :
      Stepped cwd s .event { s with kernel := s.readKernel rest, calls }
  | drop {evNext : Event} {rest : List Event} (hqueue : s.kernel.queue = evNext :: rest)
      (hdrops : s.dropsNext = some evNext.wd) :
      Stepped cwd s .event
        { s with
          kernel := (s.readKernel rest).rmWatch evNext.wd
          watchSet := Function.update s.watchSet evNext.wd none }
  | report {evNext : Event} {rest : List Event} {name : Name} {dirstr : List Char} {what : What}
      (hqueue : s.kernel.queue = evNext :: rest) (hdrops : s.dropsNext = none)
      (hname : evNext.name = some name) (hset : s.watchSet evNext.wd = some dirstr)
      (hwhat : whatOf evNext.kind = some what) :
      Stepped cwd s .event
        { s with
          kernel := s.readKernel rest
          reports := s.reports ++ [⟨what, dirstr ++ name, evNext⟩] }

theorem slashed_eq {dir : List Char} (hne : slashed dir ≠ []) :
    ∃ front, slashed dir = front ++ ['/'] := by
  unfold slashed at *
  split
  · exact ⟨dir, rfl⟩
  next hkept =>
    rw [if_neg hkept] at hne
    have hlast : dir.getLast? = some '/' := by
      by_contra hother
      exact hkept ⟨hne, hother⟩
    obtain ⟨front, hfront⟩ := List.getLast?_eq_some_iff.mp hlast
    exact ⟨front, hfront⟩

/-- `AddWatch` registers what its string finds, or does nothing. -/
theorem addWatch_cases (s : WatchDir) (cwd : Path) (granted : Bool) (entries : List Dirent)
    (call : AddCall) : (s.addWatch cwd granted entries call).1 = s ∨
      ∃ dir wd inode kernel, Kernel.Watched s.kernel cwd (dir ++ ['/']) wd inode kernel ∧
        (s.addWatch cwd granted entries call).1 = { s with
          kernel
          watchSet := emplace s.watchSet wd (dir ++ ['/'])
          registered := (wd, inode) :: s.registered } := by
  unfold WatchDir.addWatch
  split
  next => exact .inl rfl
  next =>
    dsimp only
    split
    next => exact .inl rfl
    next wd inode kernel hadd =>
      split at hadd
      next =>
        -- the kernel finds nothing under the empty string
        have hne : slashed call.dir ≠ [] := by
          intro hnil
          rw [hnil] at hadd
          cases hadd
        obtain ⟨dir, hdir⟩ := slashed_eq hne
        rw [hdir] at hadd ⊢
        refine .inr ⟨dir, wd, inode, kernel, Kernel.addWatch_cases hadd, ?_⟩
        split <;> rfl
      next => cases hadd

/-- Whoever makes the call. -/
theorem addWatch_stepped (s : WatchDir) (cwd : Path) (granted : Bool) (entries : List Dirent)
    (call : AddCall) {action : Action} (haction : action ≠ .event)
    (calls clientCalls : List AddCall) :
    Stepped cwd s action { (s.addWatch cwd granted entries call).1 with calls, clientCalls } := by
  rcases addWatch_cases s cwd granted entries call with
    hsame | ⟨dir, wd, inode, kernel, hwatched, hregistered⟩
  · rw [hsame]
    exact .calls haction
  · rw [hregistered]
    exact .register haction hwatched

theorem dropsNext_eq {s : WatchDir} {evNext : Event} {rest : List Event} (hcalls : s.calls = [])
    (hqueue : s.kernel.queue = evNext :: rest) : s.dropsNext =
      if evNext.isDir = true ∧ evNext.kind = .delete ∧ evNext.name.isSome = true ∧
          (s.watchSet evNext.wd).isSome = true then some evNext.wd
      else none := by
  unfold WatchDir.dropsNext
  rw [hcalls, hqueue]

theorem dirWatch_cases {cwd : Path} {s s' : WatchDir} {evNext : Event} {rest : List Event}
    (hcalls : s.calls = []) (hqueue : s.kernel.queue = evNext :: rest)
    (hstep : ({ s with kernel := s.readKernel rest } : WatchDir).dirWatch evNext = some s') :
    Stepped cwd s .event s' := by
  have hdrops := dropsNext_eq hcalls hqueue
  unfold WatchDir.dirWatch at hstep
  split at hstep
  next hname =>
    cases hstep
    exact .read hqueue (by simp [hdrops, hname])
  next name hname =>
    split at hstep
    next hset =>
      cases hstep
      have hunset : s.watchSet evNext.wd = none := hset
      exact .read hqueue (by simp [hdrops, hunset])
    next dirstr hset =>
      have hset : s.watchSet evNext.wd = some dirstr := hset
      split at hstep
      next hdir =>
        unfold WatchDir.dirEvent at hstep
        split at hstep
        next hkind =>
          cases hstep
          exact .read hqueue (by simp [hdrops, hkind])
        next => cases hstep
        next hkind =>
          cases hstep
          exact .drop hqueue (by simp [hdrops, hdir, hkind, hname, hset])
        next _ _ hother =>
          cases hstep
          have hkind : evNext.kind ≠ .delete := hother
          exact .read hqueue (by simp [hdrops, hkind])
      next hfile =>
        cases hstep
        unfold WatchDir.fileEvent
        split
        next what hwhat => exact .report hqueue (by simp [hdrops, hfile]) hname hset hwhat
        next => exact .read hqueue (by simp [hdrops, hfile])

theorem step_cases {cwd : Path} {s s' : WatchDir} {action : Action}
    (hstep : step cwd s action = some s') : Stepped cwd s action s' := by
  cases action with
  | change change =>
      obtain ⟨kernel, happly, rfl⟩ := Option.map_eq_some_iff.mp hstep
      exact .change happly
  | clientCall call =>
      simp only [step] at hstep
      split at hstep
      · cases hstep
        exact .calls (by simp)
      · cases hstep
  | clientAdd granted entries =>
      simp only [step] at hstep
      split at hstep
      next call rest _ =>
        cases hstep
        exact addWatch_stepped s cwd granted entries call (by simp) _ _
      next => cases hstep
  | threadAdd granted entries =>
      simp only [step] at hstep
      split at hstep
      next call rest _ =>
        cases hstep
        exact addWatch_stepped s cwd granted entries call (by simp) _ _
      next => cases hstep
  | event =>
      simp only [step] at hstep
      split at hstep
      next evNext rest hcalls hqueue => exact dirWatch_cases hcalls hqueue hstep
      next => cases hstep

end Palmira.Watch
