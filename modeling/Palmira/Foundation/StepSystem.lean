import Mathlib.Logic.Basic

/-!
# Systems of steps

A system is a partial step function: `step s a` is the state after the action
`a`, or `none` when the actor of `a` cannot move in `s`. A run is a list of
actions, so every interleaving of the actors is one. The rules below carry an
invariant over whole runs, also when only the runs whose steps all meet a
condition keep it.
-/

namespace StepSystem

variable {S A : Type*} (step : S → A → Option S)

/-- The state after all these actions in turn. -/
def run : S → List A → Option S
  | s, [] => some s
  | s, a :: rest => (step s a).bind (fun s' => run s' rest)

/-- Every step of the run is taken under the condition. -/
def StepsMeet (cond : S → A → Prop) : S → List A → Prop
  | _, [] => True
  | s, a :: rest => cond s a ∧ ∀ s', step s a = some s' → StepsMeet cond s' rest

/-- Every state of the run has the property. -/
def Throughout (inv : S → Prop) : S → List A → Prop
  | s, [] => inv s
  | s, a :: rest => inv s ∧ ∀ s', step s a = some s' → Throughout inv s' rest

variable {step}

@[simp] theorem run_nil (s : S) : run step s [] = some s := rfl

theorem run_cons {s s' : S} {a : A} (hstep : step s a = some s') (rest : List A) :
    run step s (a :: rest) = run step s' rest := by
  simp [run, hstep]

theorem exists_step_of_run_cons {s s' : S} {a : A} {rest : List A}
    (hrun : run step s (a :: rest) = some s') :
    ∃ s₁, step s a = some s₁ ∧ run step s₁ rest = some s' :=
  Option.bind_eq_some_iff.mp hrun

theorem run_append {s s₁ s' : S} {first second : List A} (hfirst : run step s first = some s₁)
    (hsecond : run step s₁ second = some s') : run step s (first ++ second) = some s' := by
  induction first generalizing s with
  | nil =>
      cases hfirst
      exact hsecond
  | cons a rest ih =>
      obtain ⟨s₂, hstep, hrest⟩ := exists_step_of_run_cons hfirst
      rw [List.cons_append, run_cons hstep]
      exact ih hrest

theorem stepsMeet_of_forall {cond : S → A → Prop} (hcond : ∀ s a, cond s a) (s : S)
    (actions : List A) : StepsMeet step cond s actions := by
  induction actions generalizing s with
  | nil => trivial
  | cons a rest ih => exact ⟨hcond s a, fun s' _ => ih s'⟩

theorem stepsMeet_of_forall_mem {cond : A → Prop} {actions : List A}
    (hcond : ∀ a ∈ actions, cond a) (s : S) : StepsMeet step (fun _ => cond) s actions := by
  induction actions generalizing s with
  | nil => trivial
  | cons a rest ih =>
      obtain ⟨hfirst, hrest⟩ := List.forall_mem_cons.mp hcond
      exact ⟨hfirst, fun s' _ => ih hrest s'⟩

theorem StepsMeet.cons {cond : S → A → Prop} {s s₁ : S} {a : A} {rest : List A} (hcond : cond s a)
    (hstep : step s a = some s₁) (hrest : StepsMeet step cond s₁ rest) :
    StepsMeet step cond s (a :: rest) := by
  refine ⟨hcond, fun s₂ hstep₂ => ?_⟩
  rwa [← Option.some.inj (hstep.symm.trans hstep₂)]

/-- A run whose conditions can be decided is checked step by step. -/
instance decidableStepsMeet {cond : S → A → Prop} [∀ s a, Decidable (cond s a)] :
    ∀ (s : S) (actions : List A), Decidable (StepsMeet step cond s actions)
  | _, [] => .isTrue trivial
  | s, a :: rest =>
      match hstep : step s a with
      | none => decidable_of_iff (cond s a) (by simp [StepsMeet, hstep])
      | some s₁ =>
          have : Decidable (StepsMeet step cond s₁ rest) := decidableStepsMeet s₁ rest
          decidable_of_iff (cond s a ∧ StepsMeet step cond s₁ rest) (by simp [StepsMeet, hstep])

/-- What every step under the condition keeps, every such run keeps. -/
theorem run_invariant_of_stepsMeet {cond : S → A → Prop} {inv : S → Prop}
    (hkeep : ∀ s a s', inv s → cond s a → step s a = some s' → inv s') {s s' : S}
    {actions : List A} (hinit : inv s) (hmeet : StepsMeet step cond s actions)
    (hrun : run step s actions = some s') : inv s' := by
  induction actions generalizing s with
  | nil =>
      cases hrun
      exact hinit
  | cons a rest ih =>
      obtain ⟨s₁, hstep, hrest⟩ := exists_step_of_run_cons hrun
      exact ih (hkeep s a s₁ hinit hmeet.1 hstep) (hmeet.2 s₁ hstep) hrest

/-- What every step keeps, every run keeps. -/
theorem run_invariant {inv : S → Prop} (hkeep : ∀ s a s', inv s → step s a = some s' → inv s')
    {s s' : S} {actions : List A} (hinit : inv s) (hrun : run step s actions = some s') :
    inv s' := by
  apply run_invariant_of_stepsMeet ?_ hinit ?_ hrun
  · exact fun _ _ => True
  · exact fun s a s' hinv _ => hkeep s a s' hinv
  · exact stepsMeet_of_forall (fun _ _ => trivial) s actions

/-- When each step keeps the invariant exactly under the condition, and no step restores it, a run
keeps it exactly when all its steps meet the condition. -/
theorem inv_iff_stepsMeet {base inv : S → Prop} {cond : S → A → Prop}
    (hbase : ∀ s a s', base s → step s a = some s' → base s')
    (hkeep : ∀ s a s', base s → inv s → step s a = some s' → (inv s' ↔ cond s a))
    (hlost : ∀ s a s', base s → ¬ inv s → step s a = some s' → ¬ inv s') {s s' : S}
    {actions : List A} (hinit : base s) (hinv : inv s) (hrun : run step s actions = some s') :
    inv s' ↔ StepsMeet step cond s actions := by
  induction actions generalizing s with
  | nil =>
      cases hrun
      exact iff_of_true hinv trivial
  | cons a rest ih =>
      obtain ⟨s₁, hstep, hrest⟩ := exists_step_of_run_cons hrun
      have hbase₁ := hbase s a s₁ hinit hstep
      by_cases hcond : cond s a
      · have hinv₁ := (hkeep s a s₁ hinit hinv hstep).mpr hcond
        rw [ih hbase₁ hinv₁ hrest]
        constructor
        · exact .cons hcond hstep
        · exact fun hmeet => hmeet.2 s₁ hstep
      · have hlost₁ : ¬ inv s₁ := fun hinv₁ => hcond ((hkeep s a s₁ hinit hinv hstep).mp hinv₁)
        refine iff_of_false ?_ (fun hmeet => hcond hmeet.1)
        have hstay : ∀ s a s', base s ∧ ¬ inv s → step s a = some s' → base s' ∧ ¬ inv s' :=
          fun s a s' ⟨hb, hn⟩ hs => ⟨hbase s a s' hb hs, hlost s a s' hb hn hs⟩
        exact (run_invariant hstay ⟨hbase₁, hlost₁⟩ hrest).2

/-- When each step keeps the invariant exactly under the condition, every state of a run has it
exactly when all its steps meet the condition. -/
theorem throughout_iff_stepsMeet {base inv : S → Prop} {cond : S → A → Prop}
    (hbase : ∀ s a s', base s → step s a = some s' → base s')
    (hkeep : ∀ s a s', base s → inv s → step s a = some s' → (inv s' ↔ cond s a))
    (hidle : ∀ s a, step s a = none → cond s a) {s : S} (hinit : base s) (hinv : inv s)
    (actions : List A) : Throughout step inv s actions ↔ StepsMeet step cond s actions := by
  induction actions generalizing s with
  | nil => exact iff_of_true hinv trivial
  | cons a rest ih =>
      cases hstep : step s a with
      | none => simp [Throughout, StepsMeet, hstep, hinv, hidle s a hstep]
      | some s₁ =>
          have hbase₁ := hbase s a s₁ hinit hstep
          simp only [Throughout, StepsMeet, hstep, Option.some.injEq, forall_eq', hinv, true_and]
          rw [← hkeep s a s₁ hinit hinv hstep]
          constructor
          · intro hrest
            have hinv₁ : inv s₁ := by
              cases rest with
              | nil => exact hrest
              | cons => exact hrest.1
            exact ⟨hinv₁, (ih hbase₁ hinv₁).mp hrest⟩
          · exact fun ⟨hinv₁, hrest⟩ => (ih hbase₁ hinv₁).mpr hrest

end StepSystem
