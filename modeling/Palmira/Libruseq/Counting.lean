import Mathlib.Algebra.Order.Group.Multiset
import Palmira.Foundation.StepSystem
import Palmira.Foundation.Threads

/-!
# Counting the books

`libruseq-index`: the thread that has inserted a text counts it, and its length, in two
totals that all threads share, and prints every hundredth book. The totals have no
lock; each is changed in a compare-exchange loop.
-/

namespace Palmira.Libruseq.Counting

open StepSystem Threads

/-- Where a thread is in the callback of `Insert`: outside, with `nBooks` loaded, in the loop on
`totalBytes`, in the loop on `totalBooks`, before the test of `nBooks`. -/
inductive Thread where
  | outside
  | loading (length nBooks : ℕ)
  | adding (length nBooks nBytes : ℕ)
  | counting (nBooks nBytes : ℕ)
  | counted (nBooks nBytes : ℕ)
  deriving DecidableEq

/-- The totals, whose 64 bits do not overflow, and the printed lines; `inserted`, `exchanges` and
`retries` record what has been called and how the exchanges went. -/
structure Shared where
  totalBytes : ℕ
  totalBooks : ℕ
  printed : List (ℕ × ℕ)
  inserted : List ℕ
  exchanges : ℕ
  retries : ℕ
  deriving DecidableEq

structure State where
  shared : Shared
  threads : List Thread
  deriving DecidableEq

/-- A step of the callback; `length` is that of the text inserted. -/
def move (length : ℕ) (s : Shared) : Thread → Shared × Thread
  | .outside => ({ s with inserted := s.inserted ++ [length] }, .loading length s.totalBooks)
  | .loading length nBooks => (s, .adding length nBooks s.totalBytes)
  | .adding length nBooks nBytes =>
      if s.totalBytes = nBytes then
        ({ s with totalBytes := nBytes + length, exchanges := s.exchanges + 1 },
          .counting nBooks nBytes)
      else ({ s with retries := s.retries + 1 }, .adding length nBooks s.totalBytes)
  | .counting nBooks nBytes =>
      if s.totalBooks = nBooks then
        ({ s with totalBooks := nBooks + 1, exchanges := s.exchanges + 1 }, .counted nBooks nBytes)
      else ({ s with retries := s.retries + 1 }, .counting s.totalBooks nBytes)
  | .counted nBooks nBytes =>
      (if nBooks % 100 = 0 then
        { s with printed := s.printed ++ [(nBooks, nBytes / 1024 / 1024)] } else s, .outside)

/-- The thread that moves, and the length of a text it has inserted. -/
structure Action where
  thread : ℕ
  length : ℕ

/-- The steps of the threads in any interleaving. -/
def step (s : State) (a : Action) : Option State :=
  (stepAt (fun shared thread => some (move a.length shared thread)) s.shared s.threads
    a.thread).map fun (shared, threads) => ⟨shared, threads⟩

/-- Any number of threads, none of them in the callback. -/
def start (count : ℕ) : State :=
  ⟨⟨0, 0, [], [], 0, 0⟩, List.replicate count .outside⟩

/-! ## What one step does -/

inductive Step (s : Shared) : Thread → Shared → Thread → Prop where
  | call (length : ℕ) :
      Step s .outside { s with inserted := s.inserted ++ [length] } (.loading length s.totalBooks)
  | load (length nBooks : ℕ) :
      Step s (.loading length nBooks) s (.adding length nBooks s.totalBytes)
  | add (length nBooks : ℕ) :
      Step s (.adding length nBooks s.totalBytes)
        { s with totalBytes := s.totalBytes + length, exchanges := s.exchanges + 1 }
        (.counting nBooks s.totalBytes)
  | addLost (length nBooks nBytes : ℕ) (hlost : s.totalBytes ≠ nBytes) :
      Step s (.adding length nBooks nBytes) { s with retries := s.retries + 1 }
        (.adding length nBooks s.totalBytes)
  | count (nBytes : ℕ) :
      Step s (.counting s.totalBooks nBytes)
        { s with totalBooks := s.totalBooks + 1, exchanges := s.exchanges + 1 }
        (.counted s.totalBooks nBytes)
  | countLost (nBooks nBytes : ℕ) (hlost : s.totalBooks ≠ nBooks) :
      Step s (.counting nBooks nBytes) { s with retries := s.retries + 1 }
        (.counting s.totalBooks nBytes)
  | print (nBooks nBytes : ℕ) (hhundred : nBooks % 100 = 0) :
      Step s (.counted nBooks nBytes)
        { s with printed := s.printed ++ [(nBooks, nBytes / 1024 / 1024)] } .outside
  | pass (nBooks nBytes : ℕ) (hother : nBooks % 100 ≠ 0) :
      Step s (.counted nBooks nBytes) s .outside

variable {n : ℕ} {s s' : State} {a : Action}

theorem step_move (length : ℕ) (shared : Shared) (thread : Thread) :
    Step shared thread (move length shared thread).1 (move length shared thread).2 := by
  cases thread with
  | outside => exact .call length
  | loading length nBooks => exact .load length nBooks
  | adding length nBooks nBytes =>
      by_cases hsame : shared.totalBytes = nBytes
      · subst hsame
        simp only [move, if_pos]
        exact .add length nBooks
      · simp only [move, if_neg hsame]
        exact .addLost length nBooks nBytes hsame
  | counting nBooks nBytes =>
      by_cases hsame : shared.totalBooks = nBooks
      · subst hsame
        simp only [move, if_pos]
        exact .count nBytes
      · simp only [move, if_neg hsame]
        exact .countLost nBooks nBytes hsame
  | counted nBooks nBytes =>
      by_cases hhundred : nBooks % 100 = 0
      · simp only [move, if_pos hhundred]
        exact .print nBooks nBytes hhundred
      · simp only [move, if_neg hhundred]
        exact .pass nBooks nBytes hhundred

theorem step_stepAt (hstep : step s a = some s') :
    stepAt (fun shared thread => some (move a.length shared thread)) s.shared s.threads a.thread =
      some (s'.shared, s'.threads) := by
  obtain ⟨⟨shared, threads⟩, hat, rfl⟩ := Option.map_eq_some_iff.mp hstep
  exact hat

theorem step_cases (hstep : step s a = some s') :
    ∃ before thread thread' after, s.threads = before ++ thread :: after ∧
      s'.threads = before ++ thread' :: after ∧ Step s.shared thread s'.shared thread' := by
  obtain ⟨before, thread, thread', after, hthreads, hthreads', hmove⟩ :=
    stepAt_cases (step_stepAt hstep)
  refine ⟨before, thread, thread', after, hthreads, hthreads', ?_⟩
  have hmoved := step_move a.length s.shared thread
  rwa [Option.some.inj hmove] at hmoved

/-! ## The totals -/

/-- The length a thread has still to add. -/
def Thread.owedBytes : Thread → ℕ
  | .loading length _ => length
  | .adding length _ _ => length
  | _ => 0

/-- The book a thread has still to count. -/
def Thread.owedBooks : Thread → ℕ
  | .loading _ _ => 1
  | .adding _ _ _ => 1
  | .counting _ _ => 1
  | _ => 0

/-- The exchanges a thread has still to make. -/
def Thread.owedExchanges : Thread → ℕ
  | .loading _ _ => 2
  | .adding _ _ _ => 2
  | .counting _ _ => 1
  | _ => 0

/-- The book a thread has still to print. -/
def Thread.owedLine : Thread → Multiset ℕ
  | .counted nBooks _ => if nBooks % 100 = 0 then {nBooks} else 0
  | _ => 0

/-- Every hundredth of so many books. -/
def hundreds (books : ℕ) : List ℕ := (List.range books).filter fun nBooks => nBooks % 100 = 0

theorem hundreds_succ (books : ℕ) : hundreds (books + 1) =
    hundreds books ++ if books % 100 = 0 then [books] else [] := by
  unfold hundreds
  rw [List.range_succ, List.filter_append]
  by_cases hhundred : books % 100 = 0 <;> simp [hhundred]

/-- What is counted, and what the threads have still to count, is what has been inserted; the lines
printed and those still to print are every hundredth of the books counted. -/
structure Accounts (s : State) : Prop where
  bytes : s.shared.totalBytes + (s.threads.map Thread.owedBytes).sum = s.shared.inserted.sum
  books : s.shared.totalBooks + (s.threads.map Thread.owedBooks).sum = s.shared.inserted.length
  exchanges : s.shared.exchanges + (s.threads.map Thread.owedExchanges).sum =
    2 * s.shared.inserted.length
  lines : (s.shared.printed.map Prod.fst : Multiset ℕ) + (s.threads.map Thread.owedLine).sum =
    hundreds s.shared.totalBooks

theorem accounts_start (count : ℕ) : Accounts (start count) where
  bytes := by simp [start, Thread.owedBytes]
  books := by simp [start, Thread.owedBooks]
  exchanges := by simp [start, Thread.owedExchanges]
  lines := by simp [start, Thread.owedLine, hundreds]

theorem accounts_step (hinv : Accounts s) (hstep : step s a = some s') : Accounts s' := by
  have hat := step_stepAt hstep
  refine ⟨?_, ?_, ?_, ?_⟩
  · apply stepAt_accounts Shared.totalBytes (fun s => s.inserted.sum) Thread.owedBytes ?_ hat
      hinv.bytes
    intro p g' p' hmove
    have hmoved := step_move a.length s.shared p
    rw [Option.some.inj hmove] at hmoved
    cases hmoved <;> simp [Thread.owedBytes] <;> omega
  · apply stepAt_accounts Shared.totalBooks (fun s => s.inserted.length) Thread.owedBooks ?_ hat
      hinv.books
    intro p g' p' hmove
    have hmoved := step_move a.length s.shared p
    rw [Option.some.inj hmove] at hmoved
    cases hmoved <;> simp [Thread.owedBooks] <;> omega
  · apply stepAt_accounts Shared.exchanges (fun s => 2 * s.inserted.length) Thread.owedExchanges ?_
      hat hinv.exchanges
    intro p g' p' hmove
    have hmoved := step_move a.length s.shared p
    rw [Option.some.inj hmove] at hmoved
    cases hmoved <;> simp [Thread.owedExchanges] <;> omega
  · apply stepAt_accounts (fun s => (s.printed.map Prod.fst : Multiset ℕ))
      (fun s => (hundreds s.totalBooks : Multiset ℕ)) Thread.owedLine ?_ hat hinv.lines
    intro p g' p' hmove
    have hmoved := step_move a.length s.shared p
    rw [Option.some.inj hmove] at hmoved
    cases hmoved with
    | count nBytes =>
        -- the ticket of the exchange is the one number the total has got more
        simp only [Thread.owedLine, hundreds_succ, ← Multiset.coe_add]
        split <;> simp [add_comm]
    | print nBooks nBytes hhundred =>
        simp only [Thread.owedLine, if_pos hhundred, List.map_append, List.map_singleton,
          ← Multiset.coe_add, Multiset.coe_singleton, add_zero]
        exact add_right_comm _ _ _
    | pass nBooks nBytes hother => simp [Thread.owedLine, hother]
    | call length => simp [Thread.owedLine]
    | load length nBooks => simp [Thread.owedLine]
    | add length nBooks => simp [Thread.owedLine]
    | addLost length nBooks nBytes hlost => simp [Thread.owedLine]
    | countLost nBooks nBytes hlost => simp [Thread.owedLine]

theorem accounts_run {actions : List Action} (hrun : run step (start n) actions = some s) :
    Accounts s :=
  run_invariant (fun _ _ _ hinv hstep => accounts_step hinv hstep) (accounts_start n) hrun

theorem sum_map_eq_zero_of_outside {M : Type*} [AddCommMonoid M] (f : Thread → M)
    (hzero : f .outside = 0) (hdone : ∀ thread ∈ s.threads, thread = .outside) :
    (s.threads.map f).sum = 0 := by
  apply List.sum_eq_zero
  intro x hx
  obtain ⟨thread, hmem, rfl⟩ := List.mem_map.mp hx
  rw [hdone thread hmem, hzero]

/-- However the threads take turns, no book and no byte is lost or counted twice: once no thread is
in the callback the totals are those of all texts inserted. The lines printed so far are of
different hundreds of books, and in the end of every hundred. -/
theorem books_counted {actions : List Action} (hrun : run step (start n) actions = some s) :
    (s.shared.printed.map Prod.fst).Nodup ∧
    (∀ nBooks ∈ s.shared.printed.map Prod.fst,
      nBooks % 100 = 0 ∧ nBooks < s.shared.inserted.length) ∧
    ((∀ thread ∈ s.threads, thread = .outside) →
      s.shared.totalBooks = s.shared.inserted.length ∧
      s.shared.totalBytes = s.shared.inserted.sum ∧
      (s.shared.printed.map Prod.fst).Perm (hundreds s.shared.inserted.length)) := by
  obtain ⟨hbytes, hbooks, -, hlines⟩ := accounts_run hrun
  have hprinted : (s.shared.printed.map Prod.fst : Multiset ℕ) ≤ hundreds s.shared.totalBooks :=
    hlines ▸ Multiset.le_add_right _ _
  refine ⟨?_, ?_, ?_⟩
  · have hnodup : (hundreds s.shared.totalBooks).Nodup := List.nodup_range.filter _
    exact Multiset.coe_nodup.mp (Multiset.nodup_of_le hprinted (Multiset.coe_nodup.mpr hnodup))
  · intro nBooks hmem
    have hhundred := Multiset.mem_of_le hprinted (Multiset.mem_coe.mpr hmem)
    obtain ⟨hrange, hmod⟩ := List.mem_filter.mp (Multiset.mem_coe.mp hhundred)
    have hlt := List.mem_range.mp hrange
    exact ⟨of_decide_eq_true hmod, by omega⟩
  · intro hdone
    rw [sum_map_eq_zero_of_outside _ rfl hdone, add_zero] at hbytes hbooks hlines
    refine ⟨hbooks, hbytes, ?_⟩
    rw [← hbooks]
    exact Multiset.coe_eq_coe.mp hlines

/-- Two threads count a book each; the second one finds both totals changed. -/
def twoBooks : List Action :=
  [⟨0, 700⟩, ⟨1, 500⟩, ⟨0, 0⟩, ⟨1, 0⟩, ⟨0, 0⟩, ⟨1, 0⟩, ⟨0, 0⟩, ⟨1, 0⟩, ⟨1, 0⟩, ⟨0, 0⟩, ⟨1, 0⟩,
    ⟨1, 0⟩]

theorem books_counted_two : ∃ s, run step (start 2) twoBooks = some s ∧
    s.shared.totalBooks = 2 ∧ s.shared.totalBytes = 1200 ∧
    (s.shared.printed.map Prod.fst).Perm (hundreds 2) := by
  refine ⟨_, rfl, ?_⟩
  obtain ⟨-, -, hcounted⟩ := @books_counted 2 _ twoBooks rfl
  exact hcounted (by decide)

/-! ## The loops end -/

/-- How many of the values a thread has loaded are the cell's no more. -/
def stale (shared : Shared) : Thread → ℕ
  | .loading _ nBooks => if shared.totalBooks = nBooks then 0 else 1
  | .adding _ nBooks nBytes =>
      (if shared.totalBooks = nBooks then 0 else 1) + if shared.totalBytes = nBytes then 0 else 1
  | .counting nBooks _ => if shared.totalBooks = nBooks then 0 else 1
  | _ => 0

/-- An exchange makes at most one value of each other thread stale, and an exchange that fails takes
a fresh one for a stale one. -/
theorem step_stale {shared shared' : Shared} {thread thread' : Thread}
    (hstep : Step shared thread shared' thread') :
    (∃ c, (∀ other, stale shared' other ≤ stale shared other + c) ∧
      shared'.exchanges = shared.exchanges + c) ∧
    shared'.retries + stale shared' thread' ≤ shared.retries + stale shared thread := by
  cases hstep with
  | add length nBooks =>
      refine ⟨⟨1, ?_, rfl⟩, by simp [stale]⟩
      intro other
      cases other <;> grind [stale]
  | count nBytes =>
      refine ⟨⟨1, ?_, rfl⟩, by simp [stale]⟩
      intro other
      cases other <;> grind [stale]
  | addLost length nBooks nBytes hlost =>
      refine ⟨⟨0, fun other => Nat.le_refl _, rfl⟩, ?_⟩
      simp only [stale, if_pos, if_neg hlost]
      omega
  | countLost nBooks nBytes hlost =>
      refine ⟨⟨0, fun other => Nat.le_refl _, rfl⟩, ?_⟩
      simp only [stale, if_pos, if_neg hlost]
      omega
  | call length => exact ⟨⟨0, fun other => Nat.le_refl _, rfl⟩, by simp [stale]⟩
  | load length nBooks => exact ⟨⟨0, fun other => Nat.le_refl _, rfl⟩, by simp [stale]⟩
  | print nBooks nBytes hhundred =>
      exact ⟨⟨0, fun other => Nat.le_refl _, rfl⟩, by simp [stale]⟩
  | pass nBooks nBytes hother => exact ⟨⟨0, fun other => Nat.le_refl _, rfl⟩, by simp [stale]⟩

/-- Every failed exchange, made or to come, is due to another thread's exchange. -/
structure Charged (n : ℕ) (s : State) : Prop where
  length_eq : s.threads.length = n
  retries_le : s.shared.retries + (s.threads.map (stale s.shared)).sum ≤
    s.shared.exchanges * (n - 1)

theorem charged_step (hinv : Charged n s) (hstep : step s a = some s') : Charged n s' := by
  obtain ⟨before, thread, thread', after, hthreads, hthreads', hmoved⟩ := step_cases hstep
  obtain ⟨hlength, hle⟩ := hinv
  obtain ⟨⟨c, hothers, hexchanges⟩, hthread⟩ := step_stale hmoved
  rw [hthreads] at hlength hle
  have hcount : n - 1 = before.length + after.length := by
    rw [← hlength, List.length_append, List.length_cons]
    omega
  have hbefore := sum_map_le_add hothers before
  have hafter := sum_map_le_add hothers after
  refine ⟨?_, ?_⟩
  · rw [hthreads', ← hlength, List.length_append, List.length_append, List.length_cons,
      List.length_cons]
  · rw [hthreads', hexchanges, hcount, Nat.add_mul, Nat.mul_add c]
    rw [hcount] at hle
    simp only [List.map_append, List.map_cons, List.sum_append, List.sum_cons] at hle ⊢
    omega

theorem charged_start (count : ℕ) : Charged count (start count) where
  length_eq := List.length_replicate
  retries_le := by simp [start, stale]

/-- No loop spins: an exchange fails only as often as the other threads have made one, so the failed
exchanges of a run are bounded by the number of texts and of threads. -/
theorem retries_le {actions : List Action} (hrun : run step (start n) actions = some s) :
    s.shared.retries ≤ 2 * s.shared.inserted.length * (n - 1) := by
  have hcharged : Charged n s :=
    run_invariant (fun _ _ _ hinv hstep => charged_step hinv hstep) (charged_start n) hrun
  have hexchanges := (accounts_run hrun).exchanges
  calc s.shared.retries
    _ ≤ s.shared.retries + (s.threads.map (stale s.shared)).sum := Nat.le_add_right _ _
    _ ≤ s.shared.exchanges * (n - 1) := hcharged.retries_le
    _ ≤ 2 * s.shared.inserted.length * (n - 1) := by
        apply Nat.mul_le_mul_right
        omega

theorem retries_le_two : ∃ s, run step (start 2) twoBooks = some s ∧ s.shared.retries = 2 ∧
    2 ≤ 2 * s.shared.inserted.length * (2 - 1) := by
  refine ⟨_, rfl, rfl, ?_⟩
  exact @retries_le 2 _ twoBooks rfl

end Palmira.Libruseq.Counting
