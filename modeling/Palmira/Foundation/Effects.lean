import Mathlib.Tactic.Basic

/-!
# Calls with a state and exceptions

A call changes a state `σ` and returns or throws; what it has changed by then
stays changed. `Ends` says what holds behind a call for each of the two ways out,
and the rules below take it through the shapes of a program.
-/

namespace Effects

variable {ε σ τ α β : Type}

abbrev Call (ε σ α : Type) := ExceptT ε (StateM σ) α

/-- From `s` the call either returns and `good` holds, or throws and `bad` holds. -/
def Ends (call : Call ε σ α) (s : σ) (good : α → σ → Prop) (bad : ε → σ → Prop) : Prop :=
  match call.run.run s with
  | (.ok a, s') => good a s'
  | (.error e, s') => bad e s'

/-- A call on one part of the state. -/
def within (part : σ → τ) (put : σ → τ → σ) (call : Call ε τ α) : Call ε σ α :=
  fun s =>
    match call.run.run (part s) with
    | (answer, t) => (answer, put s t)

variable {call : Call ε σ α} {s : σ} {good : α → σ → Prop} {bad : ε → σ → Prop}

@[simp] theorem ends_pure (a : α) : Ends (pure a : Call ε σ α) s good bad ↔ good a s := Iff.rfl

@[simp] theorem ends_throw (e : ε) : Ends (throw e : Call ε σ α) s good bad ↔ bad e s := Iff.rfl

@[simp] theorem ends_modify {good : PUnit → σ → Prop} (f : σ → σ) :
    Ends (modify f : Call ε σ PUnit) s good bad ↔ good ⟨⟩ (f s) := Iff.rfl

@[simp] theorem ends_set {good : PUnit → σ → Prop} (s' : σ) :
    Ends (set s' : Call ε σ PUnit) s good bad ↔ good ⟨⟩ s' := Iff.rfl

@[simp] theorem ends_get {good : σ → σ → Prop} :
    Ends (get : Call ε σ σ) s good bad ↔ good s s := Iff.rfl

@[simp] theorem ends_ofExcept (res : Except ε α) :
    Ends (MonadExcept.ofExcept res : Call ε σ α) s good bad ↔
      match res with
      | .ok a => good a s
      | .error e => bad e s := by
  cases res with
  | ok a => exact Iff.rfl
  | error e => exact Iff.rfl

theorem ends_bind {next : α → Call ε σ β} {good : β → σ → Prop} :
    Ends (call >>= next) s good bad ↔ Ends call s (fun a s' => Ends (next a) s' good bad) bad := by
  unfold Ends
  rw [ExceptT.run_bind, StateT.run_bind]
  rcases call.run.run s with ⟨answer | answer, s'⟩
  · exact Iff.rfl
  · exact Iff.rfl

theorem ends_tryCatch {handler : ε → Call ε σ α} :
    Ends (tryCatch call handler) s good bad ↔
      Ends call s good (fun e s' => Ends (handler e) s' good bad) := by
  unfold Ends
  rw [ExceptT.run_tryCatch, StateT.run_bind]
  rcases call.run.run s with ⟨answer | answer, s'⟩
  · exact Iff.rfl
  · exact Iff.rfl

theorem ends_within {part : σ → τ} {put : σ → τ → σ} {call : Call ε τ α} :
    Ends (within part put call) s good bad ↔
      Ends call (part s) (fun a t => good a (put s t)) (fun e t => bad e (put s t)) := by
  have hrun : (within part put call).run.run s =
      ((call.run.run (part s)).1, put s (call.run.run (part s)).2) := rfl
  unfold Ends
  rw [hrun]
  rcases call.run.run (part s) with ⟨answer | answer, t⟩
  · exact Iff.rfl
  · exact Iff.rfl

theorem Ends.imp {good' : α → σ → Prop} {bad' : ε → σ → Prop} (hends : Ends call s good bad)
    (hgood : ∀ a s', good a s' → good' a s') (hbad : ∀ e s', bad e s' → bad' e s') :
    Ends call s good' bad' := by
  unfold Ends at *
  split
  next a s' hcall =>
    rw [hcall] at hends
    exact hgood a s' hends
  next e s' hcall =>
    rw [hcall] at hends
    exact hbad e s' hends

/-- There is a way out. -/
theorem Ends.exists_out (hends : Ends call s good bad) :
    (∃ a s', good a s') ∨ ∃ e s', bad e s' := by
  unfold Ends at hends
  split at hends
  next a s' _ => exact .inl ⟨a, s', hends⟩
  next e s' _ => exact .inr ⟨e, s', hends⟩

/-- A call that cannot throw returns. -/
theorem Ends.returns (hends : Ends call s good fun _ _ => False) :
    ∃ a s', call.run.run s = (.ok a, s') ∧ good a s' := by
  unfold Ends at hends
  split at hends
  next a s' hrun => exact ⟨a, s', hrun, hends⟩
  next => exact hends.elim

theorem Ends.and {good' : α → σ → Prop} {bad' : ε → σ → Prop} (hends : Ends call s good bad)
    (hends' : Ends call s good' bad') :
    Ends call s (fun a s' => good a s' ∧ good' a s') (fun e s' => bad e s' ∧ bad' e s') := by
  unfold Ends at *
  split
  next a s' hcall =>
    rw [hcall] at hends hends'
    exact ⟨hends, hends'⟩
  next e s' hcall =>
    rw [hcall] at hends hends'
    exact ⟨hends, hends'⟩

theorem ends_of_forall (hgood : ∀ a s', good a s') (hbad : ∀ e s', bad e s') :
    Ends call s good bad := by
  unfold Ends
  split
  next a s' _ => exact hgood a s'
  next e s' _ => exact hbad e s'

/-! ## Sessions -/

/-- The object a client calls, and what the client has made of the answers so far. -/
structure Session (σ γ : Type) where
  state : σ
  seen : γ

namespace Session

variable {γ ι : Type} (perform : ι → Call ε σ α) (see : ι → α → σ → γ → γ)

/-- A call that throws tells the client nothing. -/
def step (h : Session σ γ) (op : ι) : Session σ γ :=
  match (perform op).run.run h.state with
  | (.ok answer, state) => ⟨state, see op answer state h.seen⟩
  | (.error _, state) => ⟨state, h.seen⟩

def run (h : Session σ γ) (ops : List ι) : Session σ γ := ops.foldl (step perform see) h

variable {perform see}

theorem run_concat (h : Session σ γ) (ops : List ι) (op : ι) :
    run perform see h (ops ++ [op]) = step perform see (run perform see h ops) op := by
  simp [run]

/-- What every allowed call keeps, whichever way it ends, every session of such calls keeps. -/
theorem run_invariant_of_forall {inv : σ → γ → Prop} {allowed : ι → Prop}
    (hkeep : ∀ s g op, allowed op → inv s g →
      Ends (perform op) s (fun answer s' => inv s' (see op answer s' g)) (fun _ s' => inv s' g))
    {h : Session σ γ} (hinit : inv h.state h.seen) {ops : List ι} (hops : ∀ op ∈ ops, allowed op) :
    inv (run perform see h ops).state (run perform see h ops).seen := by
  induction ops generalizing h with
  | nil => exact hinit
  | cons op rest ih =>
      refine ih ?_ fun other hother => hops other (List.mem_cons_of_mem _ hother)
      have hends := hkeep h.state h.seen op (hops op List.mem_cons_self) hinit
      unfold Ends at hends
      unfold step
      split
      next answer state hcall =>
        rw [hcall] at hends
        exact hends
      next thrown state hcall =>
        rw [hcall] at hends
        exact hends

/-- What every call keeps, every session keeps. -/
theorem run_invariant {inv : σ → γ → Prop}
    (hkeep : ∀ s g op, inv s g →
      Ends (perform op) s (fun answer s' => inv s' (see op answer s' g)) (fun _ s' => inv s' g))
    {h : Session σ γ} (hinit : inv h.state h.seen) (ops : List ι) :
    inv (run perform see h ops).state (run perform see h ops).seen :=
  run_invariant_of_forall (fun s g op (_ : True) => hkeep s g op) hinit fun _ _ => trivial

theorem step_state (h : Session σ γ) (op : ι) :
    (step perform see h op).state = ((perform op).run.run h.state).2 := by
  unfold step
  split
  next hcall => rw [hcall]
  next hcall => rw [hcall]

/-- What the client makes of the answers does not change what the calls do. -/
theorem run_state (h : Session σ γ) (ops : List ι) : (run perform see h ops).state =
    ops.foldl (fun s op => ((perform op).run.run s).2) h.state := by
  induction ops generalizing h with
  | nil => rfl
  | cons op rest ih =>
      have hstate : (step perform see h op).state = _ := step_state h op
      rw [List.foldl_cons, ← hstate]
      exact ih _

/-- Where each call leaves the object as the call it stands for does in another kind of session, or
stands for none and leaves it alone, both sessions come to the same object. -/
theorem run_state_filterMap {δ ε' α' κ : Type} {perform' : κ → Call ε' σ α'}
    {see' : κ → α' → σ → δ → δ} (keep : ι → Option κ) {ops : List ι}
    (hstep : ∀ op ∈ ops, ∀ s, ((perform op).run.run s).2 =
      (keep op).elim s fun other => ((perform' other).run.run s).2) {h : Session σ γ}
    {h' : Session σ δ} (hsame : h.state = h'.state) :
    (run perform see h ops).state = (run perform' see' h' (ops.filterMap keep)).state := by
  induction ops generalizing h h' with
  | nil => exact hsame
  | cons op rest ih =>
      obtain ⟨hop, hrest⟩ := List.forall_mem_cons.mp hstep
      have hstate : (step perform see h op).state = _ := (step_state h op).trans (hop h.state)
      rw [List.filterMap_cons]
      cases hkeep : keep op with
      | none =>
          rw [hkeep] at hstate
          exact ih hrest (hstate.trans hsame)
      | some other =>
          rw [hkeep, hsame] at hstate
          have hother : (step perform' see' h' other).state = _ := step_state h' other
          exact ih hrest (hstate.trans hother.symm)

end Session

end Effects
