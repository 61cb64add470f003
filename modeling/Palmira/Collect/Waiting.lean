import Palmira.Collect.Parallel

/-!
# Waiting for the tasks

`cvWait.wait` has no predicate, and the last decrement and its notification are
two steps. Whether the caller comes back, and whether it comes back too early,
is decided by what is counted and what is announced when it starts to wait.
-/

namespace Palmira.Collect

open StepSystem

variable {σ τ : Type}

/-- The task has yet to count itself off. -/
def Task.pending (task : Task τ) : Bool :=
  match task.progress with
  | .running => true
  | .merged => true
  | .notifying => false
  | .done => false

/-- A section that was counted but whose task is not enqueued yet. -/
def Caller.counting : Caller τ → ℕ
  | .enqueue _ _ => 1
  | .loop _ => 0
  | .waiting => 0
  | .returned => 0

namespace Parts

def pending (s : Parts σ τ) : ℕ := s.tasks.countP Task.pending

/-- Some task has brought the counter to 0 and is about to notify. -/
def Announced (s : Parts σ τ) : Prop := ∃ task ∈ s.tasks, task.progress = .notifying

instance (s : Parts σ τ) : Decidable s.Announced :=
  inferInstanceAs (Decidable (∃ task ∈ s.tasks, task.progress = .notifying))

theorem pending_eq_zero_iff (s : Parts σ τ) :
    s.pending = 0 ↔ ∀ task ∈ s.tasks, task.pending = false := by
  simp [pending, List.countP_eq_zero]

theorem pending_split {s : Parts σ τ} {before after : List (Task τ)} {task : Task τ}
    (htasks : s.tasks = before ++ task :: after) :
    s.pending = before.countP Task.pending + after.countP Task.pending + task.pending.toNat := by
  rw [pending, htasks, List.countP_append, List.countP_cons, ← Nat.add_assoc]
  cases task.pending <;> rfl

theorem announced_split {s : Parts σ τ} {before after : List (Task τ)} {task : Task τ}
    (htasks : s.tasks = before ++ task :: after) :
    s.Announced ↔
      task.progress = .notifying ∨ ∃ other ∈ before ++ after, other.progress = .notifying := by
  rw [Announced, htasks]
  simp only [List.mem_append, List.mem_cons]
  grind

end Parts

namespace Parallel

variable {env : Parallel σ τ} {s s' : Parts σ τ} {mover : Mover}

@[simp] theorem counting_notify (caller : Caller τ) :
    (notify caller).counting = caller.counting := by
  cases caller <;> rfl

theorem notify_ne_waiting (caller : Caller τ) : notify caller ≠ .waiting := by
  cases caller <;> nofun

theorem notify_eq_returned {caller : Caller τ} :
    notify caller = .returned ↔ caller = .waiting ∨ caller = .returned := by
  cases caller <;> simp [notify]

/-- `nParts` is the number of sections counted and not counted off. -/
def Counted (s : Parts σ τ) : Prop := s.nParts = s.pending + s.caller.counting

theorem counted_start (target : σ) : Counted (start target : Parts σ τ) := rfl

theorem counted_step (hcounted : Counted s) (hstep : env.step s mover = some s') :
    Counted s' := by
  unfold Counted at hcounted ⊢
  cases step_cases hstep with
  | skip uLower hcaller hlt hnull =>
      rw [hcaller] at hcounted
      change s.nParts = s.pending + 0 at hcounted
      exact hcounted
  | count uLower subQuery hcaller hlt hquery =>
      rw [hcaller] at hcounted
      change s.nParts = s.pending + 0 at hcounted
      change s.nParts + 1 = s.pending + 1
      omega
  | enqueue uLower subQuery hcaller =>
      rw [hcaller] at hcounted
      change s.nParts = s.pending + 1 at hcounted
      rw [Parts.pending_split rfl]
      change s.nParts = ((s.pending + 0 + 1 : ℕ) : ℤ) + 0
      omega
  | wait uLower hcaller hge =>
      rw [hcaller] at hcounted
      exact hcounted
  | merge before after subQuery htasks =>
      rw [Parts.pending_split htasks] at hcounted
      rw [Parts.pending_split rfl]
      exact hcounted
  | decrement before after subQuery htasks =>
      rw [Parts.pending_split htasks] at hcounted
      rw [Parts.pending_split rfl]
      -- a task that is counted off is no longer pending, whether it notifies or not
      have hfinished : (Task.mk subQuery
          (if s.nParts - 1 = 0 then Progress.notifying else .done)).pending = false := by
        split <;> rfl
      rw [hfinished]
      simp only [Task.pending, Bool.toNat_true, Bool.toNat_false] at hcounted ⊢
      omega
  | notify before after subQuery htasks =>
      rw [Parts.pending_split htasks] at hcounted
      rw [Parts.pending_split rfl, counting_notify]
      exact hcounted

theorem counted_run {target : σ} {movers : List Mover}
    (hrun : run env.step (start target) movers = some s) : Counted s :=
  run_invariant (fun _ _ _ => counted_step) (counted_start target) hrun

/-- Between two sections the counter is the number of tasks not counted off. -/
theorem nParts_eq_pending (hcounted : Counted s) (hcaller : s.caller.counting = 0) :
    s.nParts = s.pending := by
  rw [Counted, hcaller] at hcounted
  exact hcounted.trans (add_zero _)

/-- The next step of the caller is to wait. -/
def AboutToWait (env : Parallel σ τ) (s : Parts σ τ) : Prop :=
  ∃ uLower, s.caller = .loop uLower ∧ ¬ uLower < env.rBound

/-- The caller is at the end of its loop. -/
def leavesLoop (env : Parallel σ τ) : Caller τ → Bool
  | .loop uLower => !decide (uLower < env.rBound)
  | .enqueue _ _ => false
  | .waiting => false
  | .returned => false

theorem leavesLoop_iff : env.leavesLoop s.caller = true ↔ env.AboutToWait s := by
  unfold AboutToWait
  cases s.caller <;> simp [leavesLoop]

instance : Decidable (env.AboutToWait s) := decidable_of_iff _ leavesLoop_iff

theorem nParts_of_aboutToWait (hcounted : Counted s) (hwait : env.AboutToWait s) :
    s.nParts = s.pending := by
  obtain ⟨uLower, hcaller, -⟩ := hwait
  exact nParts_eq_pending hcounted (hcaller ▸ rfl)

theorem step_of_aboutToWait (hwait : env.AboutToWait s) :
    env.step s .caller = some { s with caller := .waiting } := by
  obtain ⟨uLower, hcaller, hge⟩ := hwait
  simp only [step, stepCaller, hcaller, if_neg hge]

/-! ## What the wait sees of a step -/

/-- The effect of a step on the caller, the tasks not counted off and the announcements. -/
inductive Effect (env : Parallel σ τ) (s s' : Parts σ τ) : Mover → Prop where
  | shares (hwaiting : s'.caller ≠ .waiting) (hreturned : s'.caller ≠ .returned) :
      Effect env s s' .caller
  | waits (hwait : env.AboutToWait s) (heq : s' = { s with caller := .waiting }) :
      Effect env s s' .caller
  | merges (i : ℕ) (hcaller : s'.caller = s.caller) (hpending : s'.pending = s.pending)
      (hannounced : s'.Announced ↔ s.Announced) : Effect env s s' (.task i)
  | countsOff (i : ℕ) (hcaller : s'.caller = s.caller) (hpending : s'.pending + 1 = s.pending)
      (hlast : s.nParts = 1 → s'.Announced) (hother : s.nParts ≠ 1 → (s'.Announced ↔ s.Announced)) :
      Effect env s s' (.task i)
  | notifies (i : ℕ) (hcaller : s'.caller = notify s.caller) (hpending : s'.pending = s.pending)
      (hannounced : s.Announced) : Effect env s s' (.task i)

theorem effect_of_step (hstep : env.step s mover = some s') : Effect env s s' mover := by
  cases step_cases hstep with
  | skip uLower hcaller hlt hnull => exact .shares nofun nofun
  | count uLower subQuery hcaller hlt hquery => exact .shares nofun nofun
  | enqueue uLower subQuery hcaller => exact .shares nofun nofun
  | wait uLower hcaller hge => exact .waits ⟨uLower, hcaller, hge⟩ rfl
  | merge before after subQuery htasks =>
      refine .merges _ rfl ?_ ?_
      · rw [Parts.pending_split htasks, Parts.pending_split rfl]
        rfl
      · rw [Parts.announced_split htasks, Parts.announced_split rfl]
        simp
  | decrement before after subQuery htasks =>
      refine .countsOff _ rfl ?_ ?_ ?_
      · rw [Parts.pending_split htasks, Parts.pending_split rfl]
        split <;> rfl
      · -- the task that counts off the last section is the one that announces
        intro hlast
        rw [Parts.announced_split rfl]
        simp [hlast]
      · intro hother
        have hne : s.nParts - 1 ≠ 0 := fun h => hother (by omega)
        rw [Parts.announced_split htasks, Parts.announced_split rfl]
        simp [hne]
  | notify before after subQuery htasks =>
      refine .notifies _ rfl ?_ ?_
      · rw [Parts.pending_split htasks, Parts.pending_split rfl]
        rfl
      · rw [Parts.announced_split htasks]
        exact .inl rfl

/-! ## Coming back too early -/

/-- A wait starts with nothing left to count off, or with nothing announced. -/
def StartsSettled (env : Parallel σ τ) (s : Parts σ τ) (mover : Mover) : Prop :=
  mover = .caller → env.AboutToWait s → s.nParts = 0 ∨ ¬ s.Announced

instance : Decidable (env.StartsSettled s mover) := inferInstanceAs (Decidable (_ → _ → _))

/-- While the caller waits, an announcement means that all tasks are counted off; behind the wait
they are. -/
structure NotEarly (s : Parts σ τ) : Prop where
  counted : Counted s
  waiting : s.caller = .waiting → s.pending = 0 ∨ ¬ s.Announced
  returned : s.caller = .returned → s.pending = 0

theorem notEarly_start (target : σ) : NotEarly (start target : Parts σ τ) where
  counted := counted_start target
  waiting := nofun
  returned := nofun

theorem notEarly_step (hinv : NotEarly s) (hcond : env.StartsSettled s mover)
    (hstep : env.step s mover = some s') : NotEarly s' := by
  obtain ⟨hcounted, hwaiting, hreturned⟩ := hinv
  have hcounted' := counted_step hcounted hstep
  cases effect_of_step hstep with
  | shares hwaiting' hreturned' =>
      exact ⟨hcounted', fun h => absurd h hwaiting', fun h => absurd h hreturned'⟩
  | waits hwait heq =>
      subst heq
      refine ⟨hcounted', fun _ => ?_, nofun⟩
      have hnParts := nParts_of_aboutToWait hcounted hwait
      rcases hcond rfl hwait with hzero | hnone
      · left
        change s.pending = 0
        omega
      · exact .inr hnone
  | merges i hcaller hpending hannounced =>
      rw [← hcaller, ← hpending, ← hannounced] at hwaiting
      rw [← hcaller, ← hpending] at hreturned
      exact ⟨hcounted', hwaiting, hreturned⟩
  | countsOff i hcaller hpending hlast hother =>
      refine ⟨hcounted', fun h => ?_, fun h => ?_⟩
      · -- no section is being counted, so the counter is the number of tasks not counted off
        have hnParts := nParts_eq_pending hcounted ((hcaller.symm.trans h) ▸ rfl)
        by_cases hone : s.nParts = 1
        · left
          omega
        · rw [hother hone]
          rcases hwaiting (hcaller ▸ h) with hzero | hnone
          · omega
          · exact .inr hnone
      · have hzero := hreturned (hcaller ▸ h)
        omega
  | notifies i hcaller hpending hannounced =>
      refine ⟨hcounted', fun h => absurd (hcaller.symm.trans h) (notify_ne_waiting _), fun h => ?_⟩
      rw [hpending]
      -- a wait that an announcement ends has nothing pending
      rcases notify_eq_returned.mp (hcaller.symm.trans h) with hold | hold
      · exact (hwaiting hold).resolve_right (not_not_intro hannounced)
      · exact hreturned hold

theorem step_notify {before after : List (Task τ)} {subQuery : τ}
    (htasks : s.tasks = before ++ ⟨subQuery, .notifying⟩ :: after) :
    env.step s (.task before.length) = some { s with
      tasks := before ++ ⟨subQuery, .done⟩ :: after
      caller := notify s.caller } := by
  have hget : s.tasks[before.length]? = some ⟨subQuery, .notifying⟩ := by
    rw [htasks, List.getElem?_append_right (Nat.le_refl _), Nat.sub_self]
    rfl
  have hset : s.tasks.set before.length ⟨subQuery, .done⟩ =
      before ++ ⟨subQuery, .done⟩ :: after := by
    rw [htasks, List.set_append_right _ _ (Nat.le_refl _), Nat.sub_self]
    rfl
  simp only [step, stepTask, hget, hset]

/-- An unsettled wait can end at once, with tasks left that are not counted off. -/
theorem returns_early (hcounted : Counted s) (hwait : env.AboutToWait s)
    (hcond : ¬ (s.nParts = 0 ∨ ¬ s.Announced)) :
    ∃ movers s', run env.step s movers = some s' ∧ s'.caller = .returned ∧
      ∃ task ∈ s'.tasks, task.pending = true := by
  have hnParts := nParts_of_aboutToWait hcounted hwait
  obtain ⟨hcount, hannounced⟩ := not_or.mp hcond
  obtain ⟨announcer, hmem, hnotifying⟩ := not_not.mp hannounced
  obtain ⟨before, after, htasks⟩ := List.append_of_mem hmem
  obtain ⟨subQuery, progress⟩ := announcer
  simp only at hnotifying
  subst hnotifying
  have hnotify : env.step { s with caller := .waiting } (.task before.length) = some { s with
      tasks := before ++ ⟨subQuery, .done⟩ :: after
      caller := .returned } := step_notify htasks
  refine ⟨[.caller, .task before.length], { s with
    tasks := before ++ ⟨subQuery, .done⟩ :: after
    caller := .returned }, ?_, rfl, ?_⟩
  · rw [run_cons (step_of_aboutToWait hwait), run_cons hnotify]
    rfl
  · -- a task that is not counted off is another one than the announcer
    obtain ⟨task, htask, hpending⟩ : ∃ task ∈ s.tasks, task.pending = true := by
      by_contra hnone
      push Not at hnone
      have hzero : s.pending = 0 :=
        s.pending_eq_zero_iff.mpr (fun t ht => Bool.eq_false_of_not_eq_true (hnone t ht))
      omega
    rw [htasks] at htask
    refine ⟨task, ?_, hpending⟩
    rcases List.mem_append.mp htask with hold | hold
    · exact List.mem_append_left _ hold
    · apply List.mem_append_right
      rcases List.mem_cons.mp hold with rfl | hold
      · cases hpending
      · exact List.mem_cons_of_mem _ hold

/-- A run whose wait starts settled comes back behind the last task only, and from any other wait
some run comes back before it. -/
theorem returned_of_startsSettled (env : Parallel σ τ) (target : σ) :
    (∀ movers s, StepsMeet env.step env.StartsSettled (start target) movers →
      run env.step (start target) movers = some s → s.caller = .returned →
      ∀ task ∈ s.tasks, task.pending = false) ∧
    ∀ movers s, run env.step (start target) movers = some s → env.AboutToWait s →
      ¬ (s.nParts = 0 ∨ ¬ s.Announced) →
      ∃ more s', run env.step (start target) (movers ++ more) = some s' ∧
        s'.caller = .returned ∧ ∃ task ∈ s'.tasks, task.pending = true := by
  constructor
  · intro movers s hmeet hrun hreturned
    have hinv : NotEarly s := run_invariant_of_stepsMeet
      (fun _ _ _ => notEarly_step) (notEarly_start target) hmeet hrun
    exact s.pending_eq_zero_iff.mp (hinv.returned hreturned)
  · intro movers s hrun hwait hcond
    obtain ⟨more, s', hmore, hreturned, hleft⟩ := returns_early (counted_run hrun) hwait hcond
    exact ⟨more, s', run_append hrun hmore, hreturned, hleft⟩

/-- Five sections, each with a sub-query; the target counts the merges. -/
def fiveSections : Parallel ℕ ℕ where
  rBound := 0x10001
  Duplicate := fun uLower _ => some uLower
  merge := fun _ merged => merged + 1

/-- The caller waits before any task has counted itself off; the tasks merge from the last one on
and count themselves off from the first one on, and the last notifies. -/
def awaited : List Mover :=
  List.replicate 11 .caller ++ [4, 3, 2, 1, 0].map .task ++ [0, 1, 2, 3, 4].map .task ++ [.task 4]

theorem awaited_returns : ∃ s, run fiveSections.step (start 0) awaited = some s ∧
    s.caller = .returned ∧ s.target = 5 ∧ ∀ task ∈ s.tasks, task.pending = false :=
  ⟨_, rfl, rfl, rfl, (returned_of_startsSettled fiveSections 0).1 awaited _ (by decide) rfl rfl⟩

/-- The first task brings the counter to 0 before the second section is counted; it notifies when
the caller waits for the other four. -/
def overtaken : List Mover :=
  [.caller, .caller, .task 0, .task 0] ++ List.replicate 9 .caller ++ [.task 0]

theorem overtaken_returns_early : ∃ s, run fiveSections.step (start 0) overtaken = some s ∧
    s.caller = .returned ∧ s.target = 1 ∧ ∃ task ∈ s.tasks, task.pending = true := by
  refine ⟨_, rfl, rfl, rfl, ?_⟩
  decide

/-! ## Waiting for nothing -/

/-- A wait starts with tasks left to count off, or with an announcement still to come. -/
def StartsAwaited (env : Parallel σ τ) (s : Parts σ τ) (mover : Mover) : Prop :=
  mover = .caller → env.AboutToWait s → s.nParts ≠ 0 ∨ s.Announced

/-- The caller waits and nobody is left to notify it. -/
def Stuck (s : Parts σ τ) : Prop :=
  s.caller = .waiting ∧ ∀ task ∈ s.tasks, task.progress = .done

instance : Decidable (env.StartsAwaited s mover) := inferInstanceAs (Decidable (_ → _ → _))

/-- While the caller waits, some task will notify it. -/
structure NotLost (s : Parts σ τ) : Prop where
  counted : Counted s
  waiting : s.caller = .waiting → s.pending ≠ 0 ∨ s.Announced

theorem notLost_start (target : σ) : NotLost (start target : Parts σ τ) where
  counted := counted_start target
  waiting := nofun

theorem notLost_step (hinv : NotLost s) (hcond : env.StartsAwaited s mover)
    (hstep : env.step s mover = some s') : NotLost s' := by
  obtain ⟨hcounted, hwaiting⟩ := hinv
  refine ⟨counted_step hcounted hstep, fun h => ?_⟩
  cases effect_of_step hstep with
  | shares hwaiting' hreturned' => exact absurd h hwaiting'
  | waits hwait heq =>
      subst heq
      have hnParts := nParts_of_aboutToWait hcounted hwait
      rcases hcond rfl hwait with hcount | hannounced
      · left
        change s.pending ≠ 0
        omega
      · exact .inr hannounced
  | merges i hcaller hpending hannounced =>
      rw [hpending, hannounced]
      exact hwaiting (hcaller ▸ h)
  | countsOff i hcaller hpending hlast hother =>
      have hnParts := nParts_eq_pending hcounted ((hcaller.symm.trans h) ▸ rfl)
      -- the last one announces; before it others are pending
      by_cases hone : s.nParts = 1
      · exact .inr (hlast hone)
      · left
        omega
  | notifies i hcaller hpending hannounced =>
      exact absurd (hcaller.symm.trans h) (notify_ne_waiting _)

theorem NotLost.not_stuck (hinv : NotLost s) : ¬ Stuck s := by
  intro ⟨hwaiting, hdone⟩
  rcases hinv.waiting hwaiting with hpending | ⟨task, hmem, hnotifying⟩
  · apply hpending
    apply s.pending_eq_zero_iff.mpr
    intro task hmem
    rw [Task.pending, hdone task hmem]
  · rw [hdone task hmem] at hnotifying
    cases hnotifying

/-- A wait with nothing counted and nothing announced is stuck from its first step. -/
theorem stuck_of_unawaited (hcounted : Counted s) (hwait : env.AboutToWait s)
    (hcond : ¬ (s.nParts ≠ 0 ∨ s.Announced)) :
    ∃ s', env.step s .caller = some s' ∧ Stuck s' := by
  have hnParts := nParts_of_aboutToWait hcounted hwait
  obtain ⟨hcount, hannounced⟩ := not_or.mp hcond
  have hzero : s.pending = 0 := by omega
  refine ⟨_, step_of_aboutToWait hwait, rfl, ?_⟩
  intro task hmem
  have hcounted_off := s.pending_eq_zero_iff.mp hzero task hmem
  obtain ⟨subQuery, progress⟩ := task
  cases progress with
  | running => cases hcounted_off
  | merged => cases hcounted_off
  | notifying => exact absurd ⟨_, hmem, rfl⟩ hannounced
  | done => rfl

/-- A run whose wait starts awaited never leaves the caller waiting for nothing, and any other
wait does. -/
theorem not_stuck_of_startsAwaited (env : Parallel σ τ) (target : σ) :
    (∀ movers s, StepsMeet env.step env.StartsAwaited (start target) movers →
      run env.step (start target) movers = some s → ¬ Stuck s) ∧
    ∀ movers s, run env.step (start target) movers = some s → env.AboutToWait s →
      ¬ (s.nParts ≠ 0 ∨ s.Announced) →
      ∃ s', run env.step (start target) (movers ++ [.caller]) = some s' ∧ Stuck s' := by
  constructor
  · intro movers s hmeet hrun
    have hinv : NotLost s := run_invariant_of_stepsMeet
      (fun _ _ _ => notLost_step) (notLost_start target) hmeet hrun
    exact hinv.not_stuck
  · intro movers s hrun hwait hcond
    obtain ⟨s', hstep, hstuck⟩ := stuck_of_unawaited (counted_run hrun) hwait hcond
    exact ⟨s', run_append hrun (run_cons hstep []), hstuck⟩

/-- When all other tasks have ended, the caller waits for the last one, which brings it back. -/
theorem awaited_not_stuck : ∃ s s', run fiveSections.step (start 0) awaited.dropLast = some s ∧
    s.caller = .waiting ∧ ¬ Stuck s ∧
    run fiveSections.step s [.task 4] = some s' ∧ s'.caller = .returned :=
  ⟨_, _, rfl, rfl, (not_stuck_of_startsAwaited fiveSections 0).1 awaited.dropLast _ (by decide) rfl,
    rfl, rfl⟩

/-- Every task ends, its notification included, before the caller waits. -/
def unheard : List Mover :=
  ([0, 1, 2, 3, 4].map (fun i => [.caller, .caller, .task i, .task i, .task i])).flatten ++
    [.caller]

theorem unheard_stuck :
    ∃ s, run fiveSections.step (start 0) unheard = some s ∧ Stuck s := by
  refine ⟨_, rfl, rfl, ?_⟩
  decide

end Parallel

end Palmira.Collect
