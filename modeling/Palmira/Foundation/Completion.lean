import Mathlib.Data.Rat.Defs
import Palmira.Foundation.StepSystem

/-!
# Objects that are completed once

An object is completed with a report and waited for, in any order and any number
of times. A history records the report the object was completed with and what
the waits behind the completion were answered. An object keeps its report when
all of them got it.
-/

namespace Completion

open StepSystem

variable {S D R : Type*}

/-- An object: a completion hands out the report it stands for; a wait of so many seconds is
answered, or goes on. -/
structure Object (S D R : Type*) where
  start : S
  done : S → D → Option (R × S)
  wait : S → ℚ → Option (R × S)

inductive Call (D : Type*) where
  | done (given : D)
  | wait (seconds : ℚ)

/-- The object, the report given to it, and the answers since then, the last one first. -/
structure History (S R : Type*) where
  state : S
  given : Option R
  answers : List R

namespace Object

variable (object : Object S D R)

def init : History S R := ⟨object.start, none, []⟩

/-- One call, whoever makes it. Only the first completion is a step. -/
def step (h : History S R) : Call D → Option (History S R)
  | .done given =>
      match h.given with
      | some _ => none
      | none => (object.done h.state given).map fun (report, state) => ⟨state, some report, []⟩
  | .wait seconds =>
      (object.wait h.state seconds).map fun (answer, state) =>
        { h with
          state
          answers := match h.given with
            | none => h.answers
            | some _ => answer :: h.answers }

/-- What one call does. -/
inductive Step (h : History S R) : Call D → History S R → Prop where
  | done (given : D) (report : R) (state : S) (hopen : h.given = none)
      (hdone : object.done h.state given = some (report, state)) :
      Step h (.done given) ⟨state, some report, []⟩
  | early (seconds : ℚ) (answer : R) (state : S) (hopen : h.given = none)
      (hwait : object.wait h.state seconds = some (answer, state)) :
      Step h (.wait seconds) { h with state }
  | answer (seconds : ℚ) (answer report : R) (state : S) (hgiven : h.given = some report)
      (hwait : object.wait h.state seconds = some (answer, state)) :
      Step h (.wait seconds) { h with state, answers := answer :: h.answers }

variable {object}

theorem step_cases {h h' : History S R} {call : Call D} (hstep : object.step h call = some h') :
    object.Step h call h' := by
  cases call with
  | done given =>
      cases hgiven : h.given with
      | some report => simp [step, hgiven] at hstep
      | none =>
          simp only [step, hgiven, Option.map_eq_some_iff] at hstep
          obtain ⟨⟨report, state⟩, hdone, rfl⟩ := hstep
          exact .done given report state hgiven hdone
  | wait seconds =>
      simp only [step, Option.map_eq_some_iff] at hstep
      obtain ⟨⟨answer, state⟩, hwait, rfl⟩ := hstep
      cases hgiven : h.given with
      | none =>
          have hearly := Step.early seconds answer state hgiven hwait
          rwa [hgiven] at hearly
      | some report =>
          have hanswer := Step.answer seconds answer report state hgiven hwait
          rwa [hgiven] at hanswer

end Object

/-- Every answer since the completion is the report. -/
def History.Keeps (h : History S R) : Prop := ∀ answer ∈ h.answers, h.given = some answer

/-- The number of calls behind the completion; in a run all of them are waits. -/
def waitsAfterDone : List (Call D) → ℕ
  | [] => 0
  | .done _ :: rest => rest.length
  | .wait _ :: rest => waitsAfterDone rest

variable {object : Object S D R}

/-- Once completed, an object is only waited for, and every wait is answered. -/
theorem answers_length_of_given {h h' : History S R} {calls : List (Call D)}
    (hrun : run object.step h calls = some h') (hgiven : h.given ≠ none) :
    h'.answers.length = h.answers.length + calls.length := by
  induction calls generalizing h with
  | nil =>
      cases hrun
      rfl
  | cons call rest ih =>
      obtain ⟨h₁, hstep, hrest⟩ := exists_step_of_run_cons hrun
      cases Object.step_cases hstep with
      | done given report state hopen => exact absurd hopen hgiven
      | early seconds answer state hopen => exact absurd hopen hgiven
      | answer seconds answer report state =>
          rw [ih hrest hgiven]
          simp only [List.length_cons]
          omega

theorem answers_length {h h' : History S R} {calls : List (Call D)}
    (hrun : run object.step h calls = some h') (hopen : h.given = none) (hnil : h.answers = []) :
    h'.answers.length = waitsAfterDone calls := by
  induction calls generalizing h with
  | nil =>
      cases hrun
      rw [hnil]
      rfl
  | cons call rest ih =>
      obtain ⟨h₁, hstep, hrest⟩ := exists_step_of_run_cons hrun
      cases Object.step_cases hstep with
      | done given report state =>
          rw [answers_length_of_given hrest (Option.some_ne_none report)]
          exact Nat.zero_add _
      | early seconds answer state => exact ih hrest hopen hnil
      | answer seconds answer report state hgiven => exact absurd hgiven (by simp [hopen])

theorem given_of_given {h h' : History S R} {calls : List (Call D)} {report : R}
    (hrun : run object.step h calls = some h') (hgiven : h.given = some report) :
    h'.given = some report ∧ ∀ given, Call.done given ∉ calls := by
  induction calls generalizing h with
  | nil =>
      cases hrun
      exact ⟨hgiven, fun _ => List.not_mem_nil⟩
  | cons call rest ih =>
      obtain ⟨h₁, hstep, hrest⟩ := exists_step_of_run_cons hrun
      cases Object.step_cases hstep with
      | done given report' state hopen => exact absurd hopen (by simp [hgiven])
      | early seconds answer state hopen => exact absurd hopen (by simp [hgiven])
      | answer seconds answer report' state =>
          obtain ⟨hsame, hnone⟩ := ih hrest hgiven
          refine ⟨hsame, fun given hmem => ?_⟩
          rcases List.mem_cons.mp hmem with heq | hmem
          · cases heq
          · exact hnone given hmem

/-- The one completion of a run took place in a state that waits leave. -/
theorem exists_done {before : S → Prop}
    (hearly : ∀ s seconds answer s', before s → object.wait s seconds = some (answer, s') →
      before s')
    {h h' : History S R} {calls : List (Call D)} (hrun : run object.step h calls = some h')
    (hopen : h.given = none) (hbefore : before h.state) :
    (h'.given = none ∧ ∀ given, Call.done given ∉ calls) ∨
    ∃ given s report s', before s ∧ object.done s given = some (report, s') ∧
      h'.given = some report ∧ ∀ given', Call.done given' ∈ calls ↔ given' = given := by
  induction calls generalizing h with
  | nil =>
      cases hrun
      exact .inl ⟨hopen, fun _ => List.not_mem_nil⟩
  | cons call rest ih =>
      obtain ⟨h₁, hstep, hrest⟩ := exists_step_of_run_cons hrun
      cases Object.step_cases hstep with
      | done given report state _ hdone =>
          obtain ⟨hgiven, hnone⟩ := given_of_given hrest rfl
          refine .inr ⟨given, h.state, report, state, hbefore, hdone, hgiven, fun given' => ?_⟩
          simp [hnone]
      | early seconds answer state _ hwait =>
          have hnext := ih hrest hopen (hearly _ _ _ _ hbefore hwait)
          simpa using hnext
      | answer seconds answer report state hgiven => exact absurd hgiven (by simp [hopen])

/-- An object whose state holds the report from the completion on keeps it. -/
theorem keeps_of_holds (before : S → Prop) (holds : R → S → Prop) (hstart : before object.start)
    (hearly : ∀ s seconds answer s', before s → object.wait s seconds = some (answer, s') →
      before s')
    (hdone : ∀ s given report s', before s → object.done s given = some (report, s') →
      holds report s')
    (hwait : ∀ report s seconds answer s', holds report s →
      object.wait s seconds = some (answer, s') → answer = report ∧ holds report s')
    {calls : List (Call D)} {h : History S R} (hrun : run object.step object.init calls = some h) :
    h.Keeps := by
  -- which of the two predicates the state has depends on whether the report is given
  let inv (h : History S R) : Prop := h.Keeps ∧
    match h.given with
    | none => before h.state
    | some report => holds report h.state
  have hkeep : ∀ h call h', inv h → object.step h call = some h' → inv h' := by
    intro h call h' ⟨hkeeps, hstate⟩ hstep
    cases Object.step_cases hstep with
    | done given report state hopen hok =>
        rw [hopen] at hstate
        exact ⟨by simp [History.Keeps], hdone _ _ _ _ hstate hok⟩
    | early seconds answer state hopen hok =>
        rw [hopen] at hstate
        refine ⟨hkeeps, ?_⟩
        simp only [hopen]
        exact hearly _ _ _ _ hstate hok
    | answer seconds answer report state hgiven hok =>
        rw [hgiven] at hstate
        obtain ⟨rfl, hholds⟩ := hwait _ _ _ _ _ hstate hok
        refine ⟨?_, ?_⟩
        · intro a ha
          rcases List.mem_cons.mp ha with rfl | ha
          · exact hgiven
          · exact hkeeps a ha
        · simp only [hgiven]
          exact hholds
  exact (run_invariant hkeep (show inv object.init from ⟨by simp [History.Keeps, Object.init],
    hstart⟩) hrun).1

end Completion
