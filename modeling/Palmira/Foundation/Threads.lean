import Mathlib.Algebra.BigOperators.Group.List.Basic
import Mathlib.Tactic.Abel

/-!
# Threads over shared data

Threads of one kind move one at a time over shared data. A move of one thread
leaves the others as they are, so what one move conserves, and what every move
keeps of the threads themselves, holds of all of them together.
-/

namespace Threads

variable {G P : Type*}

/-- The thread in this place moves. -/
def stepAt (move : G → P → Option (G × P)) (shared : G) (threads : List P) (i : ℕ) :
    Option (G × List P) :=
  match threads[i]? with
  | none => none
  | some thread =>
      (move shared thread).map fun (shared', thread') => (shared', threads.set i thread')

theorem split_of_getElem? {l : List P} {i : ℕ} {thread : P} (hget : l[i]? = some thread) :
    ∃ before after, l = before ++ thread :: after ∧ i = before.length ∧
      ∀ thread', l.set i thread' = before ++ thread' :: after := by
  obtain ⟨hlt, rfl⟩ := List.getElem?_eq_some_iff.mp hget
  refine ⟨l.take i, l.drop (i + 1), ?_, ?_, ?_⟩
  · rw [← List.drop_eq_getElem_cons hlt, List.take_append_drop]
  · exact (List.length_take_of_le hlt.le).symm
  · exact fun thread' => by rw [List.set_eq_take_append_cons_drop, if_pos hlt]

variable {move : G → P → Option (G × P)} {shared shared' : G} {threads threads' : List P} {i : ℕ}

theorem stepAt_split (hstep : stepAt move shared threads i = some (shared', threads')) :
    ∃ before thread thread' after, threads = before ++ thread :: after ∧ i = before.length ∧
      threads' = before ++ thread' :: after ∧ move shared thread = some (shared', thread') := by
  unfold stepAt at hstep
  cases hget : threads[i]? with
  | none => simp [hget] at hstep
  | some thread =>
      obtain ⟨before, after, hthreads, hi, hset⟩ := split_of_getElem? hget
      simp only [hget, Option.map_eq_some_iff] at hstep
      obtain ⟨⟨s, thread'⟩, hmove, heq⟩ := hstep
      cases heq
      exact ⟨before, thread, thread', after, hthreads, hi, hset thread', hmove⟩

theorem stepAt_cases (hstep : stepAt move shared threads i = some (shared', threads')) :
    ∃ before thread thread' after, threads = before ++ thread :: after ∧
      threads' = before ++ thread' :: after ∧ move shared thread = some (shared', thread') := by
  obtain ⟨before, thread, thread', after, hthreads, -, hthreads', hmove⟩ := stepAt_split hstep
  exact ⟨before, thread, thread', after, hthreads, hthreads', hmove⟩

/-- The thread that moves is the one singled out, or another one, and the one singled out stays. -/
theorem owner_or_other {before after before' after' : List P} {owner thread : P}
    (heq : before ++ owner :: after = before' ++ thread :: after') :
    (before' = before ∧ thread = owner ∧ after' = after) ∨
      (thread ∈ before ++ after ∧ ∀ thread', ∃ first last,
        before' ++ thread' :: after' = first ++ owner :: last ∧
          ∀ p ∈ first ++ last, p = thread' ∨ p ∈ before ++ after) := by
  rcases List.append_eq_append_iff.mp heq with ⟨mid, rfl, hmid⟩ | ⟨mid, rfl, hmid⟩
  · cases mid with
    | nil =>
        obtain ⟨rfl, rfl⟩ := List.cons.inj hmid
        exact .inl ⟨List.append_nil before, rfl, rfl⟩
    | cons head mid =>
        obtain ⟨rfl, rfl⟩ := List.cons.inj hmid
        refine .inr ⟨by simp, fun thread' => ⟨before, mid ++ thread' :: after', by simp, ?_⟩⟩
        intro p hp
        simp only [List.append_eq, List.mem_append, List.mem_cons] at hp ⊢
        tauto
  · cases mid with
    | nil =>
        obtain ⟨rfl, rfl⟩ := List.cons.inj hmid
        exact .inl ⟨(List.append_nil before').symm, rfl, rfl⟩
    | cons head mid =>
        obtain ⟨rfl, rfl⟩ := List.cons.inj hmid
        refine .inr ⟨by simp, fun thread' => ⟨before' ++ thread' :: mid, after, by simp, ?_⟩⟩
        intro p hp
        simp only [List.mem_append, List.mem_cons] at hp ⊢
        tauto

/-- What one element gives up and something else takes leaves the sum of both as it is. -/
theorem sum_map_shift {M : Type*} [AddCommMonoid M] (f : P → M) {a a' : M} {thread thread' : P}
    (hshift : a' + f thread' = a + f thread) (before after : List P) :
    a' + ((before ++ thread' :: after).map f).sum =
      a + ((before ++ thread :: after).map f).sum := by
  simp only [List.map_append, List.map_cons, List.sum_append, List.sum_cons]
  calc a' + ((before.map f).sum + (f thread' + (after.map f).sum))
    _ = (a' + f thread') + ((before.map f).sum + (after.map f).sum) := by abel
    _ = (a + f thread) + ((before.map f).sum + (after.map f).sum) := by rw [hshift]
    _ = a + ((before.map f).sum + (f thread + (after.map f).sum)) := by abel

/-- What a move only shifts between the shared data and the thread is conserved in all. -/
theorem stepAt_conserves {M : Type*} [AddCommMonoid M] (ofShared : G → M) (ofThread : P → M)
    (hmove : ∀ p g' p', move shared p = some (g', p') →
      ofShared g' + ofThread p' = ofShared shared + ofThread p)
    (hstep : stepAt move shared threads i = some (shared', threads')) :
    ofShared shared' + (threads'.map ofThread).sum =
      ofShared shared + (threads.map ofThread).sum := by
  obtain ⟨before, thread, thread', after, rfl, rfl, hthread⟩ := stepAt_cases hstep
  exact sum_map_shift ofThread (hmove _ _ _ hthread) before after

/-- What is in hand and what the threads still owe make up a total that a move may raise. -/
theorem stepAt_accounts {M : Type*} [AddCancelCommMonoid M] (ofShared total : G → M)
    (ofThread : P → M)
    (hmove : ∀ p g' p', move shared p = some (g', p') →
      ofShared g' + total shared + ofThread p' = ofShared shared + total g' + ofThread p)
    (hstep : stepAt move shared threads i = some (shared', threads'))
    (hinv : ofShared shared + (threads.map ofThread).sum = total shared) :
    ofShared shared' + (threads'.map ofThread).sum = total shared' := by
  obtain ⟨before, thread, thread', after, rfl, rfl, hthread⟩ := stepAt_cases hstep
  have hshift := sum_map_shift ofThread (hmove _ _ _ hthread) before after
  apply add_right_cancel (b := total shared)
  calc ofShared shared' + ((before ++ thread' :: after).map ofThread).sum + total shared
    _ = ofShared shared' + total shared + ((before ++ thread' :: after).map ofThread).sum := by
        abel
    _ = ofShared shared + total shared' + ((before ++ thread :: after).map ofThread).sum := hshift
    _ = total shared' + (ofShared shared + ((before ++ thread :: after).map ofThread).sum) := by
        abel
    _ = total shared' + total shared := by rw [hinv]

/-- What each thread may owe more, all of them may. -/
theorem sum_map_le_add {f g : P → ℕ} {c : ℕ} (hle : ∀ p, g p ≤ f p + c) (threads : List P) :
    (threads.map g).sum ≤ (threads.map f).sum + c * threads.length := by
  induction threads with
  | nil => exact Nat.le_refl 0
  | cons thread rest ih =>
      have hthread := hle thread
      rw [List.map_cons, List.sum_cons, List.map_cons, List.sum_cons, List.length_cons,
        Nat.mul_succ]
      omega

/-- A shift between two summands, with another one between them. -/
theorem add_shift {M : Type*} [AddCommMonoid M] {a a' b b' : M} (hshift : a' + b' = a + b)
    (x : M) : a' + x + b' = a + x + b := by
  rw [add_right_comm, hshift, add_right_comm]

end Threads
