import Palmira.Foundation.Monitor
import Palmira.Libruseq.Indexer

/-!
# A collector and its closing

`libruseq-index`: `Put` and `Get` of a `Collector` with its lock and its condition
variable. Both notify under the lock; the flags that close the collector are set without
the lock and without a notification. `Get` waits a second at a time, so it finds the
flags changed; `Put` has no such limit. Each flag changes once, so what one test reads of
the flags, one after the other, it might have read at one moment.
-/

namespace Palmira.Libruseq.Closing

open StepSystem Threads Monitor

variable {V : Type}

/-- What a thread does with a collector: `Put` of a value, `Get` until it returns `false`, the
setting of the flags. -/
inductive Op (V : Type) where
  | put (v : V)
  | getAll
  | noMoreFiles
  | stop
  deriving DecidableEq

def Op.isPut : Op V → Bool
  | .put _ => true
  | _ => false

/-- The collector and the flags. -/
structure Queue (V : Type) where
  list : List V
  canContinue : Bool
  noMoreFiles : Bool
  deriving DecidableEq

/-- A thread with what it has still to do and what it has got. -/
structure Thread (V : Type) where
  ops : List (Op V)
  got : List V
  deriving DecidableEq

/-! ## One operation at a time -/

/-- The next operation of a thread, when it need not wait. -/
def attempt (limit : ℕ) (q : Queue V) (thread : Thread V) : Option (Queue V × Thread V) :=
  match thread.ops with
  | [] => none
  | .put v :: rest =>
      (Collector.put limit q.canContinue q.list v).map fun list =>
        ({ q with list }, { thread with ops := rest })
  | .getAll :: rest =>
      (Collector.get q.canContinue q.noMoreFiles q.list).map fun got =>
        match got with
        | .value v list => ({ q with list }, { thread with got := thread.got ++ [v] })
        | .closed => (q, { thread with ops := rest })
  | .noMoreFiles :: rest => some ({ q with noMoreFiles := true }, { thread with ops := rest })
  | .stop :: rest => some ({ q with canContinue := false }, { thread with ops := rest })

/-- The threads, each operation of which is one step. -/
def atomicStep (limit : ℕ) (s : Queue V × List (Thread V)) (i : ℕ) :
    Option (Queue V × List (Thread V)) :=
  stepAt (attempt limit) s.1 s.2 i

/-! ## Lock and waits -/

def enters (thread : Thread V) : Bool :=
  match thread.ops with
  | .put _ :: _ => true
  | .getAll :: _ => true
  | _ => false

/-- The flags are set without the lock. -/
def work (thread : Thread V) (q : Queue V) : Option (Queue V × Thread V) :=
  match thread.ops with
  | .noMoreFiles :: rest => some ({ q with noMoreFiles := true }, { thread with ops := rest })
  | .stop :: rest => some ({ q with canContinue := false }, { thread with ops := rest })
  | _ => none

/-- The predicates of the waits. -/
def ready (limit : ℕ) (thread : Thread V) (q : Queue V) : Bool :=
  match thread.ops with
  | .put _ :: _ => q.list.length < limit || !q.canContinue
  | _ => !q.canContinue || !q.list.isEmpty || q.noMoreFiles

/-- What `Put` and `Get` do behind the wait. -/
def act (thread : Thread V) (q : Queue V) : Act (Queue V) (Thread V) :=
  match thread.ops with
  | .put v :: rest => .change { q with list := q.list ++ [v] } { thread with ops := rest } false
  | .getAll :: rest =>
      if q.canContinue = false then .quiet { thread with ops := rest }
      else
        match q.list with
        | [] => if q.noMoreFiles then .quiet { thread with ops := rest } else .quiet thread
        | v :: list => .change { q with list } { thread with got := thread.got ++ [v] } false
  | _ => .quiet thread

def code (limit : ℕ) : Code (Queue V) (Thread V) where
  enters := enters
  work := work
  ready := ready limit
  act := act

/-- An empty collector with the flags as they are when the program starts. -/
def opened : Queue V := ⟨[], true, false⟩

/-- The threads before their first operation. -/
def start (programs : List (List (Op V))) : State (Queue V) (Thread V) :=
  Code.start opened (programs.map fun ops => ⟨ops, []⟩)

variable {limit : ℕ}

theorem attempt_eq : (code limit).attempt = (attempt limit : Queue V → Thread V → _) := by
  funext ⟨list, canContinue, noMoreFiles⟩ ⟨ops, got⟩
  rcases ops with _ | ⟨v | _ | _ | _, rest⟩
  · rfl
  · simp only [Code.attempt, code, enters, ready, act, attempt, Collector.put, if_true]
    by_cases hroom : list.length < limit
    · simp [hroom]
    · cases canContinue <;> simp [hroom]
  · cases canContinue with
    | false => rfl
    | true =>
        cases list with
        | cons v list => rfl
        | nil => cases noMoreFiles <;> rfl
  · rfl
  · rfl

/-- With its lock and its waits a collector does what `Put` and `Get` do when each of them is one
step. -/
theorem collector_refines {programs : List (List (Op V))} {actions : List Action}
    {s : State (Queue V) (Thread V)}
    (hrun : run (code limit).step (start programs) actions = some s) :
    ∃ turns, run (atomicStep limit) (opened, programs.map fun ops => ⟨ops, []⟩) turns =
      some (s.data, s.threads.map Place.who) := by
  obtain ⟨turns, hturns⟩ := Code.run_refines hrun
  refine ⟨turns, ?_⟩
  rw [← hturns]
  unfold atomicStep Code.atomic
  rw [attempt_eq]

/-- A parser with two texts, the main thread, an indexer. -/
def threePrograms : List (List (Op ℕ)) :=
  [[.put 1, .put 2], [.noMoreFiles, .getAll, .stop], [.getAll]]

/-- The indexer waits; the main thread finds no text; the parser puts one, which wakes the indexer,
and waits before that one takes the lock; the main thread stops them. -/
def closing : List Action := [2, 2, 1, 1, 1, 1, 0, 0, 0, 0, 0, 0, 1].map .thread

/-- With room for one text the parser is in its second `Put`. -/
def closed : State (Queue ℕ) (Thread ℕ) where
  data := ⟨[1], false, true⟩
  locked := false
  threads := [.blocked ⟨[.put 2], []⟩, .outside ⟨[], []⟩, .woken ⟨[.getAll], []⟩]

theorem collector_refines_closing : run (code 1).step (start threePrograms) closing = some closed ∧
    ∃ turns, run (atomicStep 1) (opened, threePrograms.map fun ops => ⟨ops, []⟩) turns =
      some (closed.data, closed.threads.map Place.who) :=
  ⟨rfl, @collector_refines ℕ 1 threePrograms closing closed rfl⟩

/-! ## Who is woken -/

/-- What the other side's notification tells a thread: that there is room, or a value. -/
def notified (limit : ℕ) (thread : Thread V) (q : Queue V) : Prop :=
  match thread.ops with
  | .put _ :: _ => q.list.length < limit
  | _ => q.list ≠ []

theorem notified_code : (code limit).Notified (notified (V := V) limit) where
  ready thread q hthere := by
    unfold notified at hthere
    simp only [code, ready]
    split at hthere
    next => simp [hthere]
    next => simp [hthere]
  work hwork other hthere := by
    simp only [code, work] at hwork
    split at hwork
    next =>
      cases hwork
      exact hthere
    next =>
      cases hwork
      exact hthere
    next => cases hwork

/-- Where a thread is when no thread can move on. -/
inductive Rests (limit : ℕ) (q : Queue V) : Place (Thread V) → Prop where
  | ended (got : List V) : Rests limit q (.outside ⟨[], got⟩)
  | putting {v : V} {rest : List (Op V)} {got : List V} (hfull : limit ≤ q.list.length) :
      Rests limit q (.blocked ⟨.put v :: rest, got⟩)
  | getting {rest : List (Op V)} {got : List V} (hempty : q.list = []) :
      Rests limit q (.blocked ⟨.getAll :: rest, got⟩)

/-- No notification is lost: when no thread can move on, each is at its end, or in `Put` with the
collector full, or in `Get` with the collector empty. -/
theorem collector_rests {programs : List (List (Op V))} {actions : List Action}
    {s : State (Queue V) (Thread V)}
    (hrun : run (code limit).step (start programs) actions = some s)
    (hstuck : (code limit).Stuck s) : ∀ place ∈ s.threads, Rests limit s.data place := by
  intro place hmem
  cases Code.rests_of_stuck notified_code hrun hstuck place hmem with
  | ended houtside hwork =>
      rename_i thread
      obtain ⟨_ | ⟨_ | _ | _ | _, rest⟩, got⟩ := thread
      · exact .ended got
      · cases houtside
      · cases houtside
      · cases hwork
      · cases hwork
  | waits henters hwaits =>
      rename_i thread
      obtain ⟨_ | ⟨_ | _ | _ | _, rest⟩, got⟩ := thread
      · cases henters
      · exact .putting (not_lt.mp hwaits)
      · exact .getting (not_not.mp hwaits)
      · cases henters
      · cases henters

/-- The indexer finds the collector closed. -/
def joining : List Action := [.thread 2, .thread 2, .thread 2]

theorem collector_rests_closing :
    ∃ s, run (code 1).step (start threePrograms) (closing ++ joining) = some s ∧
      ∀ place ∈ s.threads, Rests 1 s.data place := by
  refine ⟨_, rfl, @collector_rests ℕ 1 threePrograms (closing ++ joining) _ rfl ?_⟩
  rintro (_ | _ | _ | i)
  · rfl
  · rfl
  · rfl
  · rfl

/-! ## A `Put` left behind -/

/-- The value whose `Put` is blocked. -/
def leftBehind : Place (Thread V) → Option V
  | .blocked ⟨.put v :: _, _⟩ => some v
  | _ => none

/-- `canContinue` is cleared, every `Put` there still is is blocked, and no notification is on its
way. -/
structure Stranded (s : State (Queue V) (Thread V)) : Prop where
  stopped : s.data.canContinue = false
  silent : ∀ place ∈ s.threads, ¬ place.Owes
  puts : ∀ place ∈ s.threads, leftBehind place ≠ none ∨ ∀ op ∈ place.who.ops, op.isPut = false

/-- The step is none that wakes a blocked `Put` up by itself. -/
def WakesNoPut (s : State (Queue V) (Thread V)) : Action → Prop
  | .thread _ => True
  | .spurious i => s.threads[i]?.bind leftBehind = none

/-- When `canContinue` is cleared, a thread with nothing to put changes nothing under the lock. -/
theorem act_stopped {q : Queue V} {thread : Thread V} (hstopped : q.canContinue = false)
    (hputs : ∀ op ∈ thread.ops, op.isPut = false) :
    ∃ thread', act thread q = .quiet thread' ∧ ∀ op ∈ thread'.ops, op.isPut = false := by
  obtain ⟨_ | ⟨_ | _ | _ | _, rest⟩, got⟩ := thread
  · exact ⟨_, rfl, hputs⟩
  · cases (List.forall_mem_cons.mp hputs).1
  · exact ⟨⟨rest, got⟩, by simp [act, hstopped], (List.forall_mem_cons.mp hputs).2⟩
  · exact ⟨_, rfl, hputs⟩
  · exact ⟨_, rfl, hputs⟩

theorem leftBehind_of_puts {thread : Thread V} (hputs : ∀ op ∈ thread.ops, op.isPut = false) :
    leftBehind (.blocked thread) = none := by
  obtain ⟨_ | ⟨_ | _ | _ | _, rest⟩, got⟩ := thread
  · rfl
  · cases (List.forall_mem_cons.mp hputs).1
  · rfl
  · rfl
  · rfl

/-- The step of a thread with nothing to put, when `canContinue` is cleared. -/
theorem stopped_moves {q q' : Queue V} {locked locked' : Bool} {place place' : Place (Thread V)}
    (hstopped : q.canContinue = false) (hsilent : ¬ place.Owes)
    (hputs : ∀ op ∈ place.who.ops, op.isPut = false)
    (hmoves : (code limit).Moves q locked place q' locked' place') :
    q'.canContinue = false ∧ q'.list = q.list ∧ ¬ place'.Owes ∧ leftBehind place' = none ∧
      ∀ op ∈ place'.who.ops, op.isPut = false := by
  cases hmoves with
  | work houtside hwork =>
      rename_i thread thread'
      obtain ⟨_ | ⟨_ | _ | _ | _, rest⟩, got⟩ := thread
      · cases hwork
      · cases hwork
      · cases hwork
      · cases hwork
        exact ⟨hstopped, rfl, id, rfl, (List.forall_mem_cons.mp hputs).2⟩
      · cases hwork
        exact ⟨rfl, rfl, id, rfl, (List.forall_mem_cons.mp hputs).2⟩
  | enter => exact ⟨hstopped, rfl, id, rfl, hputs⟩
  | block => exact ⟨hstopped, rfl, id, leftBehind_of_puts hputs, hputs⟩
  | quiet hready hact =>
      obtain ⟨thread', hquiet, hputs'⟩ := act_stopped hstopped hputs
      cases hquiet.symm.trans hact
      exact ⟨hstopped, rfl, id, rfl, hputs'⟩
  | changeUnlock hready hact =>
      obtain ⟨thread', hquiet, -⟩ := act_stopped hstopped hputs
      cases hquiet.symm.trans hact
  | changeNotify hready hact =>
      obtain ⟨thread', hquiet, -⟩ := act_stopped hstopped hputs
      cases hquiet.symm.trans hact
  | resume => exact ⟨hstopped, rfl, id, rfl, hputs⟩
  | leave => exact ⟨hstopped, rfl, id, rfl, hputs⟩
  | unlock => exact absurd trivial hsilent
  | notifyHeld => exact absurd trivial hsilent
  | notifyFree => exact absurd trivial hsilent

theorem others_of_silent {place : Place (Thread V)} (hsilent : ¬ place.Owes) :
    Code.others place = id := by
  unfold Code.others
  cases place with
  | notifying => exact absurd trivial hsilent
  | _ => rfl

theorem stranded_step {s s' : State (Queue V) (Thread V)} {a : Action} (hstranded : Stranded s)
    (hwakes : WakesNoPut s a) (hstep : (code limit).step s a = some s') :
    Stranded s' ∧ s'.threads.map leftBehind = s.threads.map leftBehind ∧
      s'.data.list = s.data.list := by
  obtain ⟨hstopped, hsilent, hputs⟩ := hstranded
  cases Code.step_cases hstep with
  | thread hthreads hmoves =>
      rename_i before after place place' q locked
      simp only [hthreads, List.forall_mem_append, List.forall_mem_cons] at hsilent hputs
      obtain ⟨hsilentBefore, hsilent, hsilentAfter⟩ := hsilent
      obtain ⟨hputsBefore, hputs, hputsAfter⟩ := hputs
      have hnone : leftBehind place = none := by
        cases hmoves <;> rfl
      have hmoved := stopped_moves hstopped hsilent (hputs.resolve_left (not_not.mpr hnone)) hmoves
      obtain ⟨hstopped', hlist, hsilent', hnone', hputs'⟩ := hmoved
      simp only [others_of_silent hsilent, List.map_id]
      refine ⟨⟨hstopped', ?_, ?_⟩, ?_, hlist⟩
      · simp only [List.forall_mem_append, List.forall_mem_cons]
        exact ⟨hsilentBefore, hsilent', hsilentAfter⟩
      · simp only [List.forall_mem_append, List.forall_mem_cons]
        exact ⟨hputsBefore, .inr hputs', hputsAfter⟩
      · rw [hthreads, List.map_append, List.map_cons, List.map_append, List.map_cons, hnone, hnone']
  | spurious hthreads =>
      rename_i before after thread
      have hnone : leftBehind (.blocked thread) = none := by
        simpa [WakesNoPut, hthreads] using hwakes
      simp only [hthreads, List.forall_mem_append, List.forall_mem_cons] at hsilent hputs
      obtain ⟨hsilentBefore, hsilent, hsilentAfter⟩ := hsilent
      obtain ⟨hputsBefore, hputs, hputsAfter⟩ := hputs
      refine ⟨⟨hstopped, ?_, ?_⟩, ?_, rfl⟩
      · simp only [List.forall_mem_append, List.forall_mem_cons]
        exact ⟨hsilentBefore, id, hsilentAfter⟩
      · simp only [List.forall_mem_append, List.forall_mem_cons]
        exact ⟨hputsBefore, .inr (hputs.resolve_left (not_not.mpr hnone)), hputsAfter⟩
      · rw [hthreads, List.map_append, List.map_cons, List.map_append, List.map_cons, hnone]
        rfl

/-- Spurious wake-ups aside, once `canContinue` is cleared, the `Put`s that no other `Put` and no
notification on its way wakes up stay blocked for good, whatever the threads do: a `Get` takes
nothing any more. So the threads in them are never joined. -/
theorem put_left_behind {s s' : State (Queue V) (Thread V)} {actions : List Action}
    (hstranded : Stranded s) (hwakes : StepsMeet (code limit).step WakesNoPut s actions)
    (hrun : run (code limit).step s actions = some s') :
    s'.threads.map leftBehind = s.threads.map leftBehind ∧ s'.data.list = s.data.list := by
  have hstay : Stranded s' ∧ s'.threads.map leftBehind = s.threads.map leftBehind ∧
      s'.data.list = s.data.list := by
    apply run_invariant_of_stepsMeet ?_ ⟨hstranded, rfl, rfl⟩ hwakes hrun
    intro s₁ a s₂ ⟨hstranded₁, hleft₁, hlist₁⟩ hwakes hstep
    obtain ⟨hstranded₂, hleft, hlist⟩ := stranded_step hstranded₁ hwakes hstep
    exact ⟨hstranded₂, hleft.trans hleft₁, hlist.trans hlist₁⟩
  exact hstay.2

theorem put_left_behind_closing : run (code 1).step (start threePrograms) closing = some closed ∧
    ∃ s, run (code 1).step closed joining = some s ∧
      s.threads.map leftBehind = [some 2, none, none] ∧ s.data.list = [1] := by
  have hstranded : Stranded closed := by
    refine ⟨rfl, ?_, ?_⟩
    · simp [closed, Place.Owes]
    · simp [closed, leftBehind, Place.who, Op.isPut]
  have hwakes : StepsMeet (code 1).step WakesNoPut closed joining :=
    ⟨trivial, fun _ _ => ⟨trivial, fun _ _ => ⟨trivial, fun _ _ => trivial⟩⟩⟩
  exact ⟨rfl, _, rfl, put_left_behind hstranded hwakes rfl⟩

end Palmira.Libruseq.Closing
