import Mathlib.Logic.Function.Basic

/-!
# Exceptions

What a call may throw, with the text the source gives it. `undefined` marks an
execution the language leaves without meaning; it is never caught.
-/

namespace Palmira

inductive Exn where
  | invalidArgument (what : String)
  | runtimeError (what : String)
  | logicError (what : String)
  | lengthError (what : String)
  | other (what : String)
  | undefined (what : String)
  deriving DecidableEq

/-! ## What a call may throw -/

/-- The call returns or throws something expected. -/
def ThrowsOnly {ε α : Type} (expected : ε → Prop) (res : Except ε α) : Prop :=
  ∀ e, res = .error e → expected e

section ThrowsOnly

variable {ε α β : Type} {expected : ε → Prop}

@[simp] theorem throwsOnly_ok (a : α) : ThrowsOnly expected (.ok a) := nofun

@[simp] theorem throwsOnly_error (e : ε) :
    ThrowsOnly expected (.error e : Except ε α) ↔ expected e := by
  constructor
  · exact fun honly => honly e rfl
  · intro he e' heq
    cases heq
    exact he

theorem throwsOnly_bind {res : Except ε α} {next : α → Except ε β} :
    ThrowsOnly expected (res >>= next) ↔
      ThrowsOnly expected res ∧ ∀ a, res = .ok a → ThrowsOnly expected (next a) := by
  cases res with
  | error e =>
      have hthrows : (.error e >>= next : Except ε β) = .error e := rfl
      rw [hthrows, throwsOnly_error, throwsOnly_error]
      exact (and_iff_left nofun).symm
  | ok a =>
      have hreturns : (.ok a >>= next : Except ε β) = next a := rfl
      rw [hreturns]
      constructor
      · intro honly
        refine ⟨throwsOnly_ok a, fun a' heq => ?_⟩
        cases heq
        exact honly
      · exact fun hboth => hboth.2 a rfl

end ThrowsOnly

/-! ## Reading a sequence of fallible calls -/

theorem bind_pure_eq_ok {β γ : Type} {res : Except Exn β} {f : β → γ} (hf : Function.Injective f)
    {b : β} : (do return f (← res)) = Except.ok (f b) ↔ res = .ok b := by
  cases res with
  | error e => exact iff_of_false (fun h => by cases h) (fun h => by cases h)
  | ok a =>
      constructor
      · intro h
        exact congrArg Except.ok (hf (Except.ok.inj h))
      · intro h
        exact congrArg (fun c => Except.ok (f c)) (Except.ok.inj h)

theorem bind_cons_eq_ok {β γ : Type} {head : Except Exn β} {tail : Except Exn (List γ)}
    {f : β → γ} (hf : Function.Injective f) {b : β} {cs : List γ} :
    (do return f (← head) :: (← tail)) = Except.ok (f b :: cs) ↔ head = .ok b ∧ tail = .ok cs := by
  cases head with
  | error e => exact iff_of_false (fun h => by cases h) (fun h => by cases h.1)
  | ok a =>
      cases tail with
      | error e => exact iff_of_false (fun h => by cases h) (fun h => by cases h.2)
      | ok as =>
          constructor
          · intro h
            obtain ⟨hhead, htail⟩ := List.cons.inj (Except.ok.inj h)
            exact ⟨congrArg Except.ok (hf hhead), congrArg Except.ok htail⟩
          · rintro ⟨hhead, htail⟩
            rw [Except.ok.inj hhead, Except.ok.inj htail]
            rfl

theorem bind_cons_ok {β γ : Type} {head : Except Exn β} {tail : Except Exn (List γ)}
    {f : β → γ} {cs : List γ} (hok : (do return f (← head) :: (← tail)) = Except.ok cs) :
    ∃ b rest, head = .ok b ∧ tail = .ok rest ∧ cs = f b :: rest := by
  cases head with
  | error e => cases hok
  | ok b =>
      cases tail with
      | error e => cases hok
      | ok rest => exact ⟨b, rest, rfl, rfl, (Except.ok.inj hok).symm⟩

theorem bind_pure_ok {β γ : Type} {res : Except Exn β} {f : β → γ} {c : γ}
    (hok : (do return f (← res)) = Except.ok c) : ∃ b, res = .ok b ∧ c = f b := by
  cases res with
  | error e => cases hok
  | ok b => exact ⟨b, rfl, (Except.ok.inj hok).symm⟩

theorem bind_ok {β γ : Type} {res : Except Exn β} {next : β → Except Exn γ} {c : γ}
    (hok : res >>= next = .ok c) : ∃ b, res = .ok b ∧ next b = .ok c := by
  cases res with
  | error e => cases hok
  | ok b => exact ⟨b, rfl, hok⟩

/-- What every call keeps and never fails on, a sequence of calls keeps. -/
theorem foldlM_ok {σ α : Type} {f : σ → α → Except Exn σ} {inv : List α → σ → Prop} {l : List α}
    (hstep : ∀ seen a rest s, seen ++ a :: rest = l → inv seen s →
      ∃ s', f s a = .ok s' ∧ inv (seen ++ [a]) s') {s : σ} (hinv : inv [] s) :
    ∃ s', l.foldlM f s = .ok s' ∧ inv l s' := by
  suffices hsuffix : ∀ rest seen s, seen ++ rest = l → inv seen s →
      ∃ s', rest.foldlM f s = .ok s' ∧ inv l s' from hsuffix l [] s rfl hinv
  intro rest
  induction rest with
  | nil =>
      intro seen s hl hinv
      rw [List.append_nil] at hl
      exact ⟨s, rfl, hl ▸ hinv⟩
  | cons a rest ih =>
      intro seen s hl hinv
      obtain ⟨s₁, hok, hinv₁⟩ := hstep seen a rest s hl hinv
      obtain ⟨s', hrest, hinv'⟩ := ih (seen ++ [a]) s₁ (by rw [← hl, List.append_assoc]; rfl) hinv₁
      refine ⟨s', ?_, hinv'⟩
      rw [List.foldlM_cons, hok]
      exact hrest

end Palmira
