import Mathlib.Algebra.Order.Ring.Int
import Mathlib.Data.List.Count
import Palmira.Collect.Documents
import Palmira.Foundation.StepSystem
import Palmira.Foundation.Threads

/-!
# The parallel branch of Search

One caller shares a query to sections and waits; any number of pool threads run
the tasks, each at its own pace. `σ` is the target the tasks merge into, `τ` the
sub-query a task was made for. A step of a task is one of its shared accesses:
the merge under `mxLock`, the decrement of `nParts`, the notification.
-/

namespace Palmira.Collect

open StepSystem

variable {σ τ : Type}

/-- Where the calling thread is: before a section, between `++nParts` and `async->Insert`, in
`cvWait.wait`, behind it. -/
inductive Caller (τ : Type) where
  | loop (uLower : ℕ)
  | enqueue (uLower : ℕ) (subQuery : τ)
  | waiting
  | returned
  deriving DecidableEq

/-- What an enqueued task has done: nothing, the merge, the decrement to 0, all of it. -/
inductive Progress where
  | running
  | merged
  | notifying
  | done
  deriving DecidableEq

structure Task (τ : Type) where
  subQuery : τ
  progress : Progress
  deriving DecidableEq

/-- What one call of `Search` has at hand. -/
structure Parallel (σ τ : Type) where
  rBound : ℕ
  Duplicate : ℕ → ℕ → Option τ
  merge : τ → σ → σ

structure Parts (σ τ : Type) where
  caller : Caller τ
  nParts : ℤ
  tasks : List (Task τ)
  target : σ
  deriving DecidableEq

/-- Who moves: the caller, or the pool thread that runs this task. -/
inductive Mover where
  | caller
  | task (i : ℕ)
  deriving DecidableEq

/-- `uLower += max_thread_section`, in 32 bits. -/
def nextLower (uLower : ℕ) : ℕ := (uLower + maxThreadSection) % 2 ^ 32

namespace Parallel

def start (target : σ) : Parts σ τ := ⟨.loop 0, 0, [], target⟩

/-- `notify_all` reaches the caller only while it is waiting. -/
def notify : Caller τ → Caller τ
  | .waiting => .returned
  | .loop uLower => .loop uLower
  | .enqueue uLower subQuery => .enqueue uLower subQuery
  | .returned => .returned

def stepCaller (env : Parallel σ τ) (s : Parts σ τ) : Option (Parts σ τ) :=
  match s.caller with
  | .loop uLower =>
      if uLower < env.rBound then
        match env.Duplicate uLower (nextLower uLower) with
        | none => some { s with caller := .loop (nextLower uLower) }
        | some subQuery =>
            some { s with caller := .enqueue uLower subQuery, nParts := s.nParts + 1 }
      else some { s with caller := .waiting }
  | .enqueue uLower subQuery =>
      some { s with
        caller := .loop (nextLower uLower)
        tasks := s.tasks ++ [⟨subQuery, .running⟩] }
  | .waiting => none
  | .returned => none

def stepTask (env : Parallel σ τ) (s : Parts σ τ) (i : ℕ) : Option (Parts σ τ) :=
  match s.tasks[i]? with
  | none => none
  | some ⟨subQuery, .running⟩ =>
      some { s with
        tasks := s.tasks.set i ⟨subQuery, .merged⟩
        target := env.merge subQuery s.target }
  | some ⟨subQuery, .merged⟩ =>
      some { s with
        tasks := s.tasks.set i ⟨subQuery, if s.nParts - 1 = 0 then .notifying else .done⟩
        nParts := s.nParts - 1 }
  | some ⟨subQuery, .notifying⟩ =>
      some { s with
        tasks := s.tasks.set i ⟨subQuery, .done⟩
        caller := notify s.caller }
  | some ⟨_, .done⟩ => none

def step (env : Parallel σ τ) (s : Parts σ τ) : Mover → Option (Parts σ τ)
  | .caller => env.stepCaller s
  | .task i => env.stepTask s i

/-! ## What a step can do -/

/-- The steps of the system, one case for each kind. -/
inductive Step (env : Parallel σ τ) (s : Parts σ τ) : Mover → Parts σ τ → Prop where
  | skip (uLower : ℕ) (hcaller : s.caller = .loop uLower) (hlt : uLower < env.rBound)
      (hnull : env.Duplicate uLower (nextLower uLower) = none) :
      Step env s .caller { s with caller := .loop (nextLower uLower) }
  | count (uLower : ℕ) (subQuery : τ) (hcaller : s.caller = .loop uLower)
      (hlt : uLower < env.rBound)
      (hquery : env.Duplicate uLower (nextLower uLower) = some subQuery) :
      Step env s .caller { s with caller := .enqueue uLower subQuery, nParts := s.nParts + 1 }
  | enqueue (uLower : ℕ) (subQuery : τ) (hcaller : s.caller = .enqueue uLower subQuery) :
      Step env s .caller { s with
        caller := .loop (nextLower uLower)
        tasks := s.tasks ++ [⟨subQuery, .running⟩] }
  | wait (uLower : ℕ) (hcaller : s.caller = .loop uLower) (hge : ¬ uLower < env.rBound) :
      Step env s .caller { s with caller := .waiting }
  | merge (before after : List (Task τ)) (subQuery : τ)
      (htasks : s.tasks = before ++ ⟨subQuery, .running⟩ :: after) :
      Step env s (.task before.length) { s with
        tasks := before ++ ⟨subQuery, .merged⟩ :: after
        target := env.merge subQuery s.target }
  | decrement (before after : List (Task τ)) (subQuery : τ)
      (htasks : s.tasks = before ++ ⟨subQuery, .merged⟩ :: after) :
      Step env s (.task before.length) { s with
        tasks := before ++
          ⟨subQuery, if s.nParts - 1 = 0 then .notifying else .done⟩ :: after
        nParts := s.nParts - 1 }
  | notify (before after : List (Task τ)) (subQuery : τ)
      (htasks : s.tasks = before ++ ⟨subQuery, .notifying⟩ :: after) :
      Step env s (.task before.length) { s with
        tasks := before ++ ⟨subQuery, .done⟩ :: after
        caller := Parallel.notify s.caller }

theorem step_cases {env : Parallel σ τ} {s s' : Parts σ τ} {mover : Mover}
    (hstep : env.step s mover = some s') : Step env s mover s' := by
  cases mover with
  | caller =>
      simp only [step, stepCaller] at hstep
      cases hcaller : s.caller with
      | loop uLower =>
          simp only [hcaller] at hstep
          split at hstep
          next hlt =>
            cases hquery : env.Duplicate uLower (nextLower uLower) with
            | none =>
                simp only [hquery, Option.some.injEq] at hstep
                exact hstep ▸ .skip uLower hcaller hlt hquery
            | some subQuery =>
                simp only [hquery, Option.some.injEq] at hstep
                exact hstep ▸ .count uLower subQuery hcaller hlt hquery
          next hge =>
            simp only [Option.some.injEq] at hstep
            exact hstep ▸ .wait uLower hcaller hge
      | enqueue uLower subQuery =>
          simp only [hcaller, Option.some.injEq] at hstep
          exact hstep ▸ .enqueue uLower subQuery hcaller
      | waiting => simp [hcaller] at hstep
      | returned => simp [hcaller] at hstep
  | task i =>
      simp only [step, stepTask] at hstep
      cases hget : s.tasks[i]? with
      | none => simp [hget] at hstep
      | some task =>
          obtain ⟨subQuery, progress⟩ := task
          obtain ⟨before, after, htasks, rfl, hset⟩ := Threads.split_of_getElem? hget
          cases progress with
          | running =>
              simp only [hget, hset, Option.some.injEq] at hstep
              exact hstep ▸ .merge before after subQuery htasks
          | merged =>
              simp only [hget, hset, Option.some.injEq] at hstep
              exact hstep ▸ .decrement before after subQuery htasks
          | notifying =>
              simp only [hget, hset, Option.some.injEq] at hstep
              exact hstep ▸ .notify before after subQuery htasks
          | done => simp [hget] at hstep

end Parallel

end Palmira.Collect
