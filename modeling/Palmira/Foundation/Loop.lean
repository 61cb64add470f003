import Mathlib.Data.Nat.Basic

/-!
# Loops

One round of a loop either goes on with a new state or leaves it with a result.
A loop is run with a budget of rounds; it ends when some budget is enough. It
ends by a measure that every round decreases, and never ends by an invariant
under which every round goes on.
-/

namespace Loop

variable {S R : Type*} (round : S → S ⊕ R)

/-- The result after at most `fuel` rounds. -/
def run : ℕ → S → Option R
  | 0, _ => none
  | fuel + 1, s =>
      match round s with
      | .inl next => run fuel next
      | .inr result => some result

/-- The loop leaves with this result. -/
def Leaves (s : S) (result : R) : Prop := ∃ fuel, run round fuel s = some result

def Ends (s : S) : Prop := ∃ result, Leaves round s result

variable {round}

theorem leaves_of_inr {s : S} {result : R} (hround : round s = .inr result) :
    Leaves round s result :=
  ⟨1, by simp only [run, hround]⟩

theorem leaves_of_inl {s next : S} {result : R} (hround : round s = .inl next)
    (hnext : Leaves round next result) : Leaves round s result := by
  obtain ⟨fuel, hrun⟩ := hnext
  exact ⟨fuel + 1, by simp only [run, hround, hrun]⟩

theorem Leaves.of_inl {s next : S} {result : R} (hround : round s = .inl next)
    (hleaves : Leaves round s result) : Leaves round next result := by
  obtain ⟨fuel, hrun⟩ := hleaves
  cases fuel with
  | zero => cases hrun
  | succ fuel =>
      simp only [run, hround] at hrun
      exact ⟨fuel, hrun⟩

theorem run_mono {fuel fuel' : ℕ} (hle : fuel ≤ fuel') {s : S} {result : R}
    (hrun : run round fuel s = some result) : run round fuel' s = some result := by
  induction fuel generalizing s fuel' with
  | zero => cases hrun
  | succ fuel ih =>
      obtain ⟨more, rfl⟩ : ∃ more, fuel' = more + 1 := ⟨fuel' - 1, by omega⟩
      cases hround : round s with
      | inl next =>
          simp only [run, hround] at hrun ⊢
          exact ih (by omega) hrun
      | inr left =>
          simp only [run, hround] at hrun ⊢
          exact hrun

/-- Some budget is enough for all of a list when each has one from which on every budget is. -/
theorem exists_budget {ι : Type*} {enough : ℕ → ι → Prop} {l : List ι}
    (hone : ∀ i ∈ l, ∃ fuel, ∀ more, fuel ≤ more → enough more i) :
    ∃ fuel, ∀ i ∈ l, enough fuel i := by
  suffices hmore : ∃ fuel, ∀ more, fuel ≤ more → ∀ i ∈ l, enough more i from
    hmore.imp fun fuel hfuel => hfuel fuel (Nat.le_refl fuel)
  induction l with
  | nil => exact ⟨0, fun _ _ _ hmem => (List.not_mem_nil hmem).elim⟩
  | cons head rest ih =>
      obtain ⟨hhead, hrest⟩ := List.forall_mem_cons.mp hone
      obtain ⟨fuel, hfuel⟩ := hhead
      obtain ⟨fuel', hfuel'⟩ := ih hrest
      refine ⟨max fuel fuel', fun more hmore => List.forall_mem_cons.mpr ⟨?_, ?_⟩⟩
      · exact hfuel more (Nat.le_trans (Nat.le_max_left _ _) hmore)
      · exact hfuel' more (Nat.le_trans (Nat.le_max_right _ _) hmore)

/-- Two budgets that are enough give one result. -/
theorem Leaves.unique {s : S} {result result' : R} (hleaves : Leaves round s result)
    (hleaves' : Leaves round s result') : result = result' := by
  obtain ⟨fuel, hrun⟩ := hleaves
  obtain ⟨fuel', hrun'⟩ := hleaves'
  have hmax := run_mono (Nat.le_max_left fuel fuel') hrun
  rw [run_mono (Nat.le_max_right fuel fuel') hrun'] at hmax
  exact (Option.some.inj hmax).symm

/-- What every round keeps and the last one turns into a result, the result has. -/
theorem Leaves.post {inv : S → Prop} {post : R → Prop}
    (hround : ∀ s next, inv s → round s = .inl next → inv next)
    (hlast : ∀ s result, inv s → round s = .inr result → post result) {s : S} {result : R}
    (hinv : inv s) (hleaves : Leaves round s result) : post result := by
  obtain ⟨fuel, hrun⟩ := hleaves
  induction fuel generalizing s with
  | zero => cases hrun
  | succ fuel ih =>
      cases hstep : round s with
      | inl next =>
          simp only [run, hstep] at hrun
          exact ih (hround s next hinv hstep) hrun
      | inr left =>
          simp only [run, hstep, Option.some.injEq] at hrun
          exact hrun ▸ hlast s left hinv hstep

/-- A loop that keeps an invariant and goes down a measure leaves with a result of the kind its
last round gives. -/
theorem leaves_of_measure {inv : S → Prop} {measure : S → ℕ} {post : R → Prop}
    (hround : ∀ s next, inv s → round s = .inl next → inv next ∧ measure next < measure s)
    (hlast : ∀ s result, inv s → round s = .inr result → post result)
    {s : S} (hinv : inv s) : ∃ result, Leaves round s result ∧ post result := by
  induction hm : measure s using Nat.strong_induction_on generalizing s with
  | _ bound ih =>
      subst hm
      cases hstep : round s with
      | inr result => exact ⟨result, leaves_of_inr hstep, hlast s result hinv hstep⟩
      | inl next =>
          obtain ⟨hnext, hlt⟩ := hround s next hinv hstep
          obtain ⟨result, hleaves, hpost⟩ := ih (measure next) hlt hnext rfl
          exact ⟨result, leaves_of_inl hstep hleaves, hpost⟩

/-- A measure that every round going on decreases bounds the number of rounds. -/
theorem ends_of_measure {inv : S → Prop} {measure : S → ℕ}
    (hround : ∀ s next, inv s → round s = .inl next → inv next ∧ measure next < measure s)
    {s : S} (hinv : inv s) : Ends round s := by
  obtain ⟨result, hleaves, -⟩ :=
    leaves_of_measure hround (fun _ _ _ _ => trivial) hinv
  exact ⟨result, hleaves⟩

/-- An invariant under which every round goes on keeps the loop from ending. -/
theorem not_ends_of_invariant {inv : S → Prop}
    (hround : ∀ s, inv s → ∃ next, round s = .inl next ∧ inv next) {s : S} (hinv : inv s) :
    ¬ Ends round s := by
  intro ⟨result, fuel, hrun⟩
  induction fuel generalizing s with
  | zero => cases hrun
  | succ fuel ih =>
      obtain ⟨next, hstep, hnext⟩ := hround s hinv
      simp only [run, hstep] at hrun
      exact ih hnext hrun

end Loop
