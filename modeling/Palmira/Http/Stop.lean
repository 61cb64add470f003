import Palmira.Foundation.StepSystem
import Palmira.Foundation.Threads

/-!
# Stopping the server

`main` waits in `Server::Wait` for the flag `finish`; a signal handler calls
`Server::Stop`, which sets the flag and notifies without the lock of the waiter. No
`Stop` holds the lock, so the waiter always gets it.
-/

namespace Palmira.Http.Stop

open StepSystem Threads

/-- Where `Wait` is: before the lock, before a test of `finish`, before it releases the lock and
blocks in one step, blocked, woken and in need of the lock, returned. -/
inductive Waiter where
  | outside
  | testing
  | blocking
  | blocked
  | woken
  | returned
  deriving DecidableEq

/-- Where a `Stop` is: before `finish = true`, before `notify_one`, behind it. -/
inductive Stopper where
  | outside
  | finishing
  | returned
  deriving DecidableEq

structure Shared where
  finish : Bool
  waiter : Waiter
  deriving DecidableEq

structure State where
  shared : Shared
  stoppers : List Stopper
  deriving DecidableEq

/-- `Wait` -/
def wait (s : Shared) : Option Shared :=
  match s.waiter with
  | .outside => some { s with waiter := .testing }
  | .testing => some { s with waiter := if s.finish then .returned else .blocking }
  | .blocking => some { s with waiter := .blocked }
  | .blocked => none
  | .woken => some { s with waiter := .testing }
  | .returned => none

/-- `notify_one` -/
def notifyOne (s : Shared) : Shared :=
  if s.waiter = .blocked then { s with waiter := .woken } else s

/-- `Stop` -/
def stop (s : Shared) : Stopper → Option (Shared × Stopper)
  | .outside => some ({ s with finish := true }, .finishing)
  | .finishing => some (notifyOne s, .returned)
  | .returned => none

inductive Action where
  | wait
  | spurious
  | stop (i : ℕ)

/-- The steps of the waiter and of the stoppers in any interleaving. A blocked waiter may wake up by
itself. -/
def step (s : State) : Action → Option State
  | .wait => (wait s.shared).map fun shared => { s with shared }
  | .spurious =>
      if s.shared.waiter = .blocked then some { s with shared := notifyOne s.shared } else none
  | .stop i =>
      (stepAt stop s.shared s.stoppers i).map fun (shared, stoppers) => ⟨shared, stoppers⟩

/-- Any number of `Stop`s to come. -/
def start (count : ℕ) : State := ⟨⟨false, .outside⟩, List.replicate count .outside⟩

/-- The waiter is blocked although `finish` is true, and no `Stop` that has set it is still to
notify. -/
def Lost (s : State) : Prop :=
  s.shared.waiter = .blocked ∧ s.shared.finish = true ∧ .finishing ∉ s.stoppers

/-- The waiter blocks only while `finish` is false or a `Stop` is still to notify. -/
def BlocksInTime (s : State) : Action → Prop
  | .wait => s.shared.waiter = .blocking → s.shared.finish = true → .finishing ∈ s.stoppers
  | _ => True

section Keep

variable {s s' : State}

theorem wait_blocked_iff {shared shared' : Shared} (hwait : wait shared = some shared') :
    shared'.waiter = .blocked ↔ shared.waiter = .blocking := by
  unfold wait at hwait
  split at hwait
  next hwaiter => cases hwait; simp [hwaiter]
  next hwaiter =>
      cases hwait
      rw [hwaiter]
      split <;> simp
  next hwaiter => cases hwait; simp [hwaiter]
  next => cases hwait
  next hwaiter => cases hwait; simp [hwaiter]
  next => cases hwait

theorem wait_finish {shared shared' : Shared} (hwait : wait shared = some shared') :
    shared'.finish = shared.finish := by
  unfold wait at hwait
  split at hwait <;> cases hwait <;> rfl

theorem notifyOne_waiter_ne (shared : Shared) : (notifyOne shared).waiter ≠ .blocked := by
  unfold notifyOne
  split
  next => exact nofun
  next hwaiter => exact hwaiter

theorem not_lost_wait_iff (hstep : step s .wait = some s') :
    ¬ Lost s' ↔ BlocksInTime s .wait := by
  obtain ⟨shared, hwait, rfl⟩ := Option.map_eq_some_iff.mp hstep
  unfold Lost BlocksInTime
  dsimp only
  rw [wait_blocked_iff hwait, wait_finish hwait]
  tauto

/-- A `Stop` never leaves the waiter behind: it is still to notify, or has notified. -/
theorem not_lost_stop {i : ℕ} (hstep : step s (.stop i) = some s') : ¬ Lost s' := by
  obtain ⟨⟨shared, stoppers⟩, hat, rfl⟩ := Option.map_eq_some_iff.mp hstep
  obtain ⟨before, t, t', after, -, rfl, hstop⟩ := stepAt_cases hat
  rintro ⟨hblocked, -, hnone⟩
  cases t with
  | outside =>
      cases hstop
      exact hnone (List.mem_append_right _ List.mem_cons_self)
  | finishing =>
      cases hstop
      exact notifyOne_waiter_ne _ hblocked
  | returned => cases hstop

theorem not_lost_spurious (hstep : step s .spurious = some s') : ¬ Lost s' := by
  rw [step] at hstep
  split at hstep
  next =>
      cases hstep
      exact fun hlost => notifyOne_waiter_ne _ hlost.1
  next => cases hstep

theorem not_lost_iff {a : Action} (hstep : step s a = some s') : ¬ Lost s' ↔ BlocksInTime s a := by
  cases a with
  | wait => exact not_lost_wait_iff hstep
  | spurious => exact iff_of_true (not_lost_spurious hstep) trivial
  | stop i => exact iff_of_true (not_lost_stop hstep) trivial

end Keep

theorem blocksInTime_of_idle {s : State} {a : Action} (hidle : step s a = none) :
    BlocksInTime s a := by
  cases a with
  | wait =>
      intro hwaiter
      rw [step, wait, hwaiter] at hidle
      cases hidle
  | spurious => trivial
  | stop => trivial

/-- In no state of a run a stop is lost exactly when the waiter never blocks with `finish` set and
all who have set it behind their notification. -/
theorem stop_never_lost_iff (count : ℕ) (actions : List Action) :
    Throughout step (fun s => ¬ Lost s) (start count) actions ↔
      StepsMeet step BlocksInTime (start count) actions := by
  refine throughout_iff_stepsMeet (fun _ _ _ (_ : True) _ => trivial) ?_ ?_ trivial ?_ actions
  · exact fun s a s' _ _ hstep => not_lost_iff hstep
  · exact fun s a => blocksInTime_of_idle
  · exact fun hlost => nomatch hlost.1

/-- The flag is set and notified between the test and the block. -/
theorem stop_between_test_and_block :
    ¬ ∀ (count : ℕ) (actions : List Action) (s : State),
      run step (start count) actions = some s → ¬ Lost s := by
  intro hall
  have hrun : run step (start 1) [.wait, .wait, .stop 0, .stop 0, .wait] =
      some ⟨⟨true, .blocked⟩, [.returned]⟩ := rfl
  exact hall 1 _ _ hrun ⟨rfl, rfl, by decide⟩

end Palmira.Http.Stop
