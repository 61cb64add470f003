import Mathlib.Algebra.Order.BigOperators.Group.List
import Mathlib.Algebra.Order.Group.Int
import Mathlib.Algebra.Order.Group.Nat
import Palmira.Foundation.StepSystem
import Palmira.Foundation.Threads

/-!
# Objects with a count of references

Threads use an object through references and count these in the object itself. Whoever
takes the count down to zero closes the object and deletes it. As long as a new
reference is only made from one that is held, the object is closed once, behind every
call, and nobody touches it once it is deleted. What a call does is known as long as no
other call is made meanwhile.
-/

namespace RefCount

open StepSystem Threads

variable {σ ι : Type*}

/-- What the object does in a call, and what it does when it is closed and whether it is deleted
then. -/
structure Code (σ ι : Type*) where
  perform : ι → σ → σ
  close : σ → σ × Bool

/-- The references a thread holds; the call it is in; behind its decrement of the count, what this
has given. -/
structure Thread (ι : Type*) where
  refs : ℕ
  calling : Option ι
  rCount : Option ℤ

/-- The object with its count, and the references that are held by no thread, which any thread may
take over; how many calls are in progress. `misused` tells that a deleted object was touched, and
`overlapped` that a call was begun before another one had ended; `calls` and `closings` record what
was done with the object. -/
structure Shared (σ ι : Type*) where
  object : σ
  refCount : ℤ
  kept : ℕ
  inside : ℕ
  deleted : Bool
  misused : Bool
  overlapped : Bool
  calls : List ι
  closings : ℕ

structure State (σ ι : Type*) where
  shared : Shared σ ι
  threads : List (Thread ι)

/-- A call has a beginning and an end, with whatever state overlapping calls leave. -/
inductive Move (σ ι : Type*) where
  | attach
  | keep
  | take
  | enter (op : ι)
  | finish (left : σ)
  | detach
  | leave

structure Action (σ ι : Type*) where
  thread : ℕ
  move : Move σ ι

/-- The object is touched. -/
def Shared.touched (s : Shared σ ι) : Shared σ ι := { s with misused := s.misused || s.deleted }

/-- The thread holds a reference and is neither in a call nor on its way out of `detach`. -/
def Thread.Holds (t : Thread ι) : Prop :=
  0 < t.refs ∧ t.calling.isNone = true ∧ t.rCount = none

instance (t : Thread ι) : Decidable t.Holds := inferInstanceAs (Decidable (_ ∧ _ ∧ _))

variable (code : Code σ ι)

def Move.make (s : Shared σ ι) (t : Thread ι) : Move σ ι → Option (Shared σ ι × Thread ι)
  | .attach =>
      if t.Holds then
        some ({ s.touched with refCount := s.refCount + 1 }, { t with refs := t.refs + 1 })
      else none
  | .keep =>
      if t.Holds then some ({ s with kept := s.kept + 1 }, { t with refs := t.refs - 1 }) else none
  | .take =>
      if 0 < s.kept then some ({ s with kept := s.kept - 1 }, { t with refs := t.refs + 1 })
      else none
  | .enter op =>
      if t.Holds then
        some ({ s.touched with
          inside := s.inside + 1
          overlapped := s.overlapped || s.inside != 0 }, { t with calling := some op })
      else none
  | .finish left =>
      t.calling.map fun op =>
        ({ s.touched with
          object := if s.overlapped then left else code.perform op s.object
          inside := s.inside - 1
          calls := s.calls ++ [op] }, { t with calling := none })
  | .detach =>
      if t.Holds then
        some ({ s.touched with refCount := s.refCount - 1 },
          { t with refs := t.refs - 1, rCount := some (s.refCount - 1) })
      else none
  | .leave =>
      t.rCount.map fun rCount =>
        (if rCount = 0 then
          { s.touched with
            object := (code.close s.object).1
            deleted := s.deleted || (code.close s.object).2
            closings := s.closings + 1 }
        else s, { t with rCount := none })

/-- The steps of the threads in any interleaving. -/
def step (s : State σ ι) (a : Action σ ι) : Option (State σ ι) :=
  (stepAt (fun shared thread => a.move.make code shared thread) s.shared s.threads a.thread).map
    fun (shared, threads) => ⟨shared, threads⟩

/-- One thread has made the object and holds it. -/
def start (object : σ) (others : ℕ) : State σ ι :=
  ⟨⟨object, 1, 0, 0, false, false, false, [], 0⟩,
    ⟨1, none, none⟩ :: List.replicate others ⟨0, none, none⟩⟩

/-- No reference is left, and no thread is on its way out of `detach`. -/
def State.Released (s : State σ ι) : Prop :=
  s.shared.kept = 0 ∧ ∀ t ∈ s.threads, t.refs = 0 ∧ t.rCount = none

/-- The object as these calls leave it. -/
def called (object : σ) (calls : List ι) : σ := calls.foldl (fun s op => code.perform op s) object

theorem called_concat (object : σ) (calls : List ι) (op : ι) :
    called code object (calls ++ [op]) = code.perform op (called code object calls) := by
  simp [called]

/-- The moves, one case for each kind. -/
inductive Step (s : Shared σ ι) (t : Thread ι) : Shared σ ι → Thread ι → Prop where
  | attach (hholds : t.Holds) :
      Step s t { s.touched with refCount := s.refCount + 1 } { t with refs := t.refs + 1 }
  | keep (hholds : t.Holds) :
      Step s t { s with kept := s.kept + 1 } { t with refs := t.refs - 1 }
  | take (hkept : 0 < s.kept) :
      Step s t { s with kept := s.kept - 1 } { t with refs := t.refs + 1 }
  | enter (hholds : t.Holds) (op : ι) :
      Step s t
        { s.touched with
          inside := s.inside + 1
          overlapped := s.overlapped || s.inside != 0 }
        { t with calling := some op }
  | finish {op : ι} (hcalling : t.calling = some op) (left : σ) :
      Step s t
        { s.touched with
          object := if s.overlapped then left else code.perform op s.object
          inside := s.inside - 1
          calls := s.calls ++ [op] }
        { t with calling := none }
  | detach (hholds : t.Holds) :
      Step s t { s.touched with refCount := s.refCount - 1 }
        { t with refs := t.refs - 1, rCount := some (s.refCount - 1) }
  | close (hcloser : t.rCount = some 0) :
      Step s t
        { s.touched with
          object := (code.close s.object).1
          deleted := s.deleted || (code.close s.object).2
          closings := s.closings + 1 }
        { t with rCount := none }
  | leave {rCount : ℤ} (hleaving : t.rCount = some rCount) (hothers : rCount ≠ 0) :
      Step s t s { t with rCount := none }

variable {code} {object : σ} {s s' : State σ ι} {a : Action σ ι}

theorem Move.make_cases {move : Move σ ι} {shared shared' : Shared σ ι} {t t' : Thread ι}
    (hmake : move.make code shared t = some (shared', t')) : Step code shared t shared' t' := by
  cases move with
  | attach =>
      obtain ⟨hholds, hmade⟩ := Option.ite_none_right_eq_some.mp hmake
      cases hmade
      exact .attach hholds
  | keep =>
      obtain ⟨hholds, hmade⟩ := Option.ite_none_right_eq_some.mp hmake
      cases hmade
      exact .keep hholds
  | take =>
      obtain ⟨hkept, hmade⟩ := Option.ite_none_right_eq_some.mp hmake
      cases hmade
      exact .take hkept
  | enter op =>
      obtain ⟨hholds, hmade⟩ := Option.ite_none_right_eq_some.mp hmake
      cases hmade
      exact .enter hholds op
  | finish left =>
      obtain ⟨op, hcalling, hmade⟩ := Option.map_eq_some_iff.mp hmake
      cases hmade
      exact .finish hcalling left
  | detach =>
      obtain ⟨hholds, hmade⟩ := Option.ite_none_right_eq_some.mp hmake
      cases hmade
      exact .detach hholds
  | leave =>
      obtain ⟨rCount, hleaving, hmade⟩ := Option.map_eq_some_iff.mp hmake
      cases hmade
      by_cases hzero : rCount = 0
      · rw [if_pos hzero]
        exact .close (hleaving.trans (congrArg some hzero))
      · rw [if_neg hzero]
        exact .leave hleaving hzero

theorem step_cases (hstep : step code s a = some s') :
    ∃ before t t' after, s.threads = before ++ t :: after ∧ s'.threads = before ++ t' :: after ∧
      Step code s.shared t s'.shared t' := by
  obtain ⟨⟨shared, threads⟩, hat, rfl⟩ := Option.map_eq_some_iff.mp hstep
  obtain ⟨before, t, t', after, hthreads, hthreads', hmake⟩ := stepAt_cases hat
  exact ⟨before, t, t', after, hthreads, hthreads', Move.make_cases hmake⟩

/-! ## The count -/

/-- The thread is in a call. -/
def Thread.callers (t : Thread ι) : ℕ := if t.calling.isSome then 1 else 0

/-- The thread is about to close the object. -/
def Thread.closers (t : Thread ι) : ℕ := if t.rCount = some 0 then 1 else 0

/-- A thread in a call holds a reference, and is not on its way out of `detach`. -/
def Thread.Fits (t : Thread ι) : Prop := t.calling.isSome = true → 0 < t.refs ∧ t.rCount = none

/-- The count is that of the references, and exactly one thread brings it to zero. As long as no
calls have overlapped, what has happened to the object is what the calls, and this thread behind
them, have done. -/
structure Sound (code : Code σ ι) (object : σ) (s : State σ ι) : Prop where
  counted : s.shared.refCount = s.shared.kept + (s.threads.map Thread.refs).sum
  callers : s.shared.inside = (s.threads.map Thread.callers).sum
  closers : s.shared.closings + (s.threads.map Thread.closers).sum =
    if s.shared.refCount = 0 then 1 else 0
  fitting : ∀ t ∈ s.threads, t.Fits
  unhurt : s.shared.misused = false
  opened : s.shared.closings = 0 → s.shared.deleted = false
  history : s.shared.overlapped = false →
    (s.shared.closings = 0 → s.shared.object = called code object s.shared.calls) ∧
      (s.shared.closings = 1 →
        (s.shared.object, s.shared.deleted) = code.close (called code object s.shared.calls))

theorem sound_start (others : ℕ) : Sound code object (start object others : State σ ι) where
  counted := by simp [start]
  callers := by simp [start, Thread.callers]
  closers := by simp [start, Thread.closers]
  fitting := by
    intro t hmem hcalling
    have hnone : t.calling = none := by
      rcases List.mem_cons.mp hmem with rfl | hother
      · rfl
      · rw [List.eq_of_mem_replicate hother]
    rw [hnone] at hcalling
    cases hcalling
  unhurt := rfl
  opened _ := rfl
  history _ := ⟨fun _ => rfl, fun h => absurd h Nat.zero_ne_one⟩

theorem le_sum_map (f : Thread ι → ℕ) {threads : List (Thread ι)} {t : Thread ι}
    (hmem : t ∈ threads) : f t ≤ (threads.map f).sum :=
  List.single_le_sum (fun _ _ => Nat.zero_le _) _ (List.mem_map_of_mem hmem)

namespace Sound

variable {t : Thread ι}

/-- Whoever has a reference finds the object open. -/
theorem open_of_refs (hs : Sound code object s) (hmem : t ∈ s.threads) (hrefs : 0 < t.refs) :
    0 < s.shared.refCount ∧ s.shared.closings = 0 := by
  have hle := le_sum_map Thread.refs hmem
  have hcounted := hs.counted
  have hpos : 0 < s.shared.refCount := by omega
  have hclosers := hs.closers
  rw [if_neg hpos.ne'] at hclosers
  exact ⟨hpos, by omega⟩

/-- So does the thread that is about to close it. -/
theorem open_of_closer (hs : Sound code object s) (hmem : t ∈ s.threads)
    (hcloser : t.rCount = some 0) : s.shared.refCount = 0 ∧ s.shared.closings = 0 := by
  have hle := le_sum_map Thread.closers hmem
  rw [Thread.closers, if_pos hcloser] at hle
  have hclosers := hs.closers
  by_cases hzero : s.shared.refCount = 0
  · rw [if_pos hzero] at hclosers
    exact ⟨hzero, by omega⟩
  · rw [if_neg hzero] at hclosers
    omega

/-- Without a reference there is no call in progress. -/
theorem inside_eq_zero (hs : Sound code object s) (hzero : s.shared.refCount = 0) :
    s.shared.inside = 0 := by
  rw [hs.callers, List.sum_eq_zero_iff]
  intro n hn
  obtain ⟨t, hmem, rfl⟩ := List.mem_map.mp hn
  rw [Thread.callers, if_neg]
  intro hcalling
  have hpos := (hs.open_of_refs hmem (hs.fitting t hmem hcalling).1).1
  exact hpos.ne' hzero

/-- To touch an open object does no harm. -/
theorem touched_eq (hs : Sound code object s) (hopen : s.shared.closings = 0) :
    s.shared.touched = s.shared := by
  unfold Shared.touched
  rw [hs.opened hopen, Bool.or_false, ← hs.opened hopen]

end Sound

theorem forall_mem_middle {p : Thread ι → Prop} {before after : List (Thread ι)} {t t' : Thread ι}
    (hall : ∀ other ∈ before ++ t :: after, p other) (hmoved : p t → p t') :
    ∀ other ∈ before ++ t' :: after, p other := by
  rw [List.forall_mem_append, List.forall_mem_cons] at hall ⊢
  exact ⟨hall.1, hmoved hall.2.1, hall.2.2⟩

namespace Step

variable {shared shared' : Shared σ ι} {t t' : Thread ι}

theorem fits (hmoved : Step code shared t shared' t') (hfits : t.Fits) : t'.Fits := by
  cases hmoved with
  | attach hholds => exact fun hcalling => ⟨Nat.succ_pos _, hholds.2.2⟩
  | keep hholds =>
      intro hcalling
      have hnone := hholds.2.1
      rw [Option.isNone_iff_eq_none] at hnone
      simp [hnone] at hcalling
  | take hkept => exact fun hcalling => ⟨Nat.succ_pos _, (hfits hcalling).2⟩
  | enter hholds op => exact fun _ => ⟨hholds.1, hholds.2.2⟩
  | finish hcalling left =>
      intro hnone
      cases hnone
  | detach hholds =>
      intro hcalling
      have hnone := hholds.2.1
      rw [Option.isNone_iff_eq_none] at hnone
      simp [hnone] at hcalling
  | close hcloser => exact fun hcalling => ⟨(hfits hcalling).1, rfl⟩
  | leave hleaving hothers => exact fun hcalling => ⟨(hfits hcalling).1, rfl⟩

/-- The count changes with the references, kept ones included. -/
theorem refs_eq (hmoved : Step code shared t shared' t') :
    shared'.refCount + shared.kept + t.refs = shared.refCount + shared'.kept + t'.refs := by
  cases hmoved with
  | keep hholds =>
      have hheld := hholds.1
      push_cast
      omega
  | detach hholds =>
      have hheld := hholds.1
      simp only [Shared.touched]
      omega
  | _ => simp only [Shared.touched] <;> omega

theorem callers_eq (hmoved : Step code shared t shared' t') (hinside : t.callers ≤ shared.inside) :
    shared'.inside + t.callers = shared.inside + t'.callers := by
  cases hmoved with
  | enter hholds op =>
      have hnone : t.callers = 0 := by
        rw [Thread.callers, Option.isNone_iff_eq_none.mp hholds.2.1]
        rfl
      rw [hnone]
      rfl
  | finish hcalling left =>
      have hone : t.callers = 1 := by
        rw [Thread.callers, hcalling]
        rfl
      rw [hone] at hinside ⊢
      exact Nat.sub_add_cancel hinside
  | _ => rfl

/-- The thread that brings the count to zero becomes the one to close the object. -/
theorem closers_eq (hmoved : Step code shared t shared' t')
    (hopen : t.Holds → 0 < shared.refCount) :
    shared'.closings + t'.closers + (if shared.refCount = 0 then 1 else 0) =
      shared.closings + t.closers + (if shared'.refCount = 0 then 1 else 0) := by
  cases hmoved with
  | attach hholds =>
      have hpos := hopen hholds
      have hpos' : shared.refCount + 1 ≠ 0 := by omega
      rw [if_neg hpos.ne', if_neg hpos']
      rfl
  | detach hholds =>
      have hnone : t.closers = 0 := by
        rw [Thread.closers, hholds.2.2]
        rfl
      rw [if_neg (hopen hholds).ne', hnone]
      simp only [Thread.closers, Shared.touched, Option.some.injEq]
      rfl
  | close hcloser =>
      have hone : t.closers = 1 := if_pos hcloser
      rw [hone]
      rfl
  | leave hleaving hothers =>
      have hnone : t.closers = 0 := by
        rw [Thread.closers, hleaving, if_neg (Option.some_injective _ |>.ne hothers)]
      rw [hnone]
      rfl
  | _ => rfl

end Step

/-- A thread that touches the object finds it open, and only the last `detach` closes it. -/
theorem Sound.touches {t t' : Thread ι} {shared' : Shared σ ι} (hs : Sound code object s)
    (hmem : t ∈ s.threads) (hmoved : Step code s.shared t shared' t') :
    shared'.misused = false ∧ (shared'.closings = 0 → shared'.deleted = false) ∧
      (shared'.overlapped = false →
        (shared'.closings = 0 → shared'.object = called code object shared'.calls) ∧
          (shared'.closings = 1 →
            (shared'.object, shared'.deleted) =
              code.close (called code object shared'.calls))) := by
  have hholder : t.Holds → s.shared.touched = s.shared :=
    fun hholds => hs.touched_eq (hs.open_of_refs hmem hholds.1).2
  cases hmoved with
  | attach hholds =>
      rw [hholder hholds]
      exact ⟨hs.unhurt, hs.opened, hs.history⟩
  | keep hholds => exact ⟨hs.unhurt, hs.opened, hs.history⟩
  | take hkept => exact ⟨hs.unhurt, hs.opened, hs.history⟩
  | enter hholds op =>
      rw [hholder hholds]
      exact ⟨hs.unhurt, hs.opened, fun hapart => hs.history (Bool.or_eq_false_iff.mp hapart).1⟩
  | finish hcalling left =>
      have hcaller : t.calling.isSome = true := hcalling ▸ rfl
      obtain ⟨-, hopen⟩ := hs.open_of_refs hmem (hs.fitting t hmem hcaller).1
      rw [hs.touched_eq hopen]
      refine ⟨hs.unhurt, hs.opened, fun hapart => ⟨fun _ => ?_, ?_⟩⟩
      · have hsame : s.shared.overlapped = false := hapart
        simp only [hsame, Bool.false_eq_true, if_false]
        rw [called_concat, ← (hs.history hsame).1 hopen]
      · exact fun hclosed => absurd (hopen.symm.trans hclosed) Nat.zero_ne_one
  | detach hholds =>
      rw [hholder hholds]
      exact ⟨hs.unhurt, hs.opened, hs.history⟩
  | close hcloser =>
      obtain ⟨-, hopen⟩ := hs.open_of_closer hmem hcloser
      rw [hs.touched_eq hopen, hs.opened hopen, Bool.false_or]
      refine ⟨hs.unhurt, fun hnever => absurd hnever (Nat.succ_ne_zero _), fun hapart =>
        ⟨fun hnever => absurd hnever (Nat.succ_ne_zero _), fun _ => ?_⟩⟩
      rw [(hs.history hapart).1 hopen]
  | leave hleaving hothers => exact ⟨hs.unhurt, hs.opened, hs.history⟩

theorem sound_step (hs : Sound code object s) (hstep : step code s a = some s') :
    Sound code object s' := by
  obtain ⟨before, t, t', after, hthreads, hthreads', hmoved⟩ := step_cases hstep
  have hmem : t ∈ s.threads := hthreads ▸ List.mem_append_right _ List.mem_cons_self
  have hcounted := hs.counted
  have hcallers := hs.callers
  have hclosers := hs.closers
  have hinside : t.callers ≤ s.shared.inside := hcallers ▸ le_sum_map Thread.callers hmem
  have hrefs' := hmoved.refs_eq
  have hcallers' := hmoved.callers_eq hinside
  have hclosers' := hmoved.closers_eq fun hholds => (hs.open_of_refs hmem hholds.1).1
  -- in each sum only the thread that has moved has another share than before
  have hrefs := sum_map_shift Thread.refs (Nat.add_comm t.refs t'.refs) before after
  have hcalling := sum_map_shift Thread.callers (Nat.add_comm t.callers t'.callers) before after
  have hclosing := sum_map_shift Thread.closers (Nat.add_comm t.closers t'.closers) before after
  rw [← hthreads, ← hthreads'] at hrefs hcalling hclosing
  obtain ⟨hunhurt, hopened, hhistory⟩ := hs.touches hmem hmoved
  refine ⟨by omega, by omega, by omega, ?_, hunhurt, hopened, hhistory⟩
  rw [hthreads']
  exact forall_mem_middle (hthreads ▸ hs.fitting) hmoved.fits

/-- In every run nobody touches a deleted object, and it is closed at most once, behind every call;
once no reference is left it has been closed. -/
theorem sound_run {others : ℕ} {actions : List (Action σ ι)}
    (hrun : run (step code) (start object others) actions = some s) : Sound code object s :=
  run_invariant (fun _ _ _ hs hstep => sound_step hs hstep) (sound_start others) hrun

namespace Sound

theorem closings_cases (hs : Sound code object s) :
    s.shared.closings = 0 ∨ s.shared.closings = 1 := by
  have hclosers := hs.closers
  split at hclosers
  · omega
  · omega

/-- A deleted object has been closed. -/
theorem closings_of_deleted (hs : Sound code object s) (hdeleted : s.shared.deleted = true) :
    s.shared.closings = 1 := by
  refine hs.closings_cases.resolve_left fun hopen => ?_
  rw [hs.opened hopen] at hdeleted
  cases hdeleted

/-- So has one that nobody holds any more. -/
theorem closings_of_released (hs : Sound code object s) (hreleased : s.Released) :
    s.shared.closings = 1 := by
  obtain ⟨hkept, hthreads⟩ := hreleased
  have hrefs : (s.threads.map Thread.refs).sum = 0 := by
    rw [List.sum_eq_zero_iff]
    intro n hn
    obtain ⟨t, ht, rfl⟩ := List.mem_map.mp hn
    exact (hthreads t ht).1
  have hleaving : (s.threads.map Thread.closers).sum = 0 := by
    rw [List.sum_eq_zero_iff]
    intro n hn
    obtain ⟨t, ht, rfl⟩ := List.mem_map.mp hn
    rw [Thread.closers, (hthreads t ht).2]
    rfl
  have hclosers := hs.closers
  rw [hs.counted, hkept, hrefs, hleaving] at hclosers
  exact hclosers

/-- The thread that is about to close the object finds no call in progress. -/
theorem inside_of_closer {t : Thread ι} (hs : Sound code object s) (hmem : t ∈ s.threads)
    (hcloser : t.rCount = some 0) : s.shared.inside = 0 :=
  hs.inside_eq_zero (hs.open_of_closer hmem hcloser).1

end Sound

end RefCount
