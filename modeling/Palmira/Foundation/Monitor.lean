import Mathlib.Algebra.BigOperators.Group.List.Basic
import Palmira.Foundation.StepSystem
import Palmira.Foundation.Threads

/-!
# Monitors

Threads that share data under one lock and wait for them with one condition
variable, each for a predicate of its own. Whoever changes the data under the lock
notifies all, before the release or behind it; what is changed without the lock is
not notified. The lock, the waiting and the waking can be forgotten: what the
threads do is a sequence of guarded changes, and nobody waits for what a notified
change has brought about.
-/

namespace Monitor

open StepSystem Threads

variable {D W : Type*}

/-- What a thread does with the lock, behind its wait. -/
inductive Act (D W : Type*) where
  | quiet (next : W)
  | change (data : D) (next : W) (unlockFirst : Bool)

/-- The program of the threads: which of them are to take the lock, what the others do without it
(nothing at their end), and under the lock what a thread waits for and does then. -/
structure Code (D W : Type*) where
  enters : W → Bool
  work : W → D → Option (D × W)
  ready : W → D → Bool
  act : W → D → Act D W

/-- Where a thread is: without the lock, at the test of its predicate, blocked, woken and in need
of the lock, before the release of the lock, before the release with the notification behind it,
before the notification. -/
inductive Place (W : Type*) where
  | outside (w : W)
  | testing (w : W)
  | blocked (w : W)
  | woken (w : W)
  | leaving (w : W)
  | unlocking (w : W)
  | notifying (w : W) (held : Bool)

namespace Place

def who : Place W → W
  | .outside w => w
  | .testing w => w
  | .blocked w => w
  | .woken w => w
  | .leaving w => w
  | .unlocking w => w
  | .notifying w _ => w

/-- The thread has the lock. -/
def holds : Place W → Bool
  | .testing _ => true
  | .leaving _ => true
  | .unlocking _ => true
  | .notifying _ held => held
  | _ => false

/-- The thread has changed the data and is still to notify. -/
def Owes : Place W → Prop
  | .unlocking _ => True
  | .notifying _ _ => True
  | _ => False

/-- `notify_all` is the next step. -/
def notifies : Place W → Bool
  | .notifying _ _ => true
  | _ => false

def wake : Place W → Place W
  | .blocked w => .woken w
  | place => place

@[simp] theorem who_wake (place : Place W) : place.wake.who = place.who := by
  cases place <;> rfl

@[simp] theorem holds_wake (place : Place W) : place.wake.holds = place.holds := by
  cases place <;> rfl

theorem wake_ne_blocked (place : Place W) (w : W) : place.wake ≠ .blocked w := by
  cases place <;> nofun

end Place

structure State (D W : Type*) where
  data : D
  locked : Bool
  threads : List (Place W)

/-- A thread moves; a blocked one wakes up by itself. -/
inductive Action where
  | thread (i : ℕ)
  | spurious (i : ℕ)

/-- A wake-up that nobody has caused. -/
def Action.isSpurious : Action → Bool
  | .thread _ => false
  | .spurious _ => true

namespace Code

variable (code : Code D W)

/-- One step of a thread. -/
def move (data : D) (locked : Bool) : Place W → Option (D × Bool × Place W)
  | .outside w =>
      if code.enters w then
        if locked then none else some (data, true, .testing w)
      else (code.work w data).map fun (data', w') => (data', locked, .outside w')
  | .testing w =>
      if code.ready w data then
        match code.act w data with
        | .quiet w' => some (data, locked, .leaving w')
        | .change data' w' true => some (data', locked, .unlocking w')
        | .change data' w' false => some (data', locked, .notifying w' true)
      else some (data, false, .blocked w)
  | .blocked _ => none
  | .woken w => if locked then none else some (data, true, .testing w)
  | .leaving w => some (data, false, .outside w)
  | .unlocking w => some (data, false, .notifying w false)
  | .notifying w true => some (data, locked, .leaving w)
  | .notifying w false => some (data, locked, .outside w)

/-- The steps of the threads in any interleaving. -/
def step (s : State D W) : Action → Option (State D W)
  | .thread i =>
      match s.threads[i]? with
      | none => none
      | some place =>
          (code.move s.data s.locked place).map fun (data, locked, place') =>
            { data, locked
              threads := (if place.notifies then s.threads.map Place.wake else s.threads).set i
                place' }
  | .spurious i =>
      match s.threads[i]? with
      | some (.blocked w) => some { s with threads := s.threads.set i (.woken w) }
      | _ => none

/-- All threads are outside, and the lock is free. -/
def start (data : D) (threads : List W) : State D W := ⟨data, false, threads.map .outside⟩

/-! ## What one step does -/

/-- The steps of a thread, one case for each kind. -/
inductive Moves (data : D) (locked : Bool) : Place W → D → Bool → Place W → Prop where
  | work {w w' : W} {data' : D} (houtside : code.enters w = false)
      (hwork : code.work w data = some (data', w')) :
      Moves data locked (.outside w) data' locked (.outside w')
  | enter {w : W} (henters : code.enters w = true) (hfree : locked = false) :
      Moves data locked (.outside w) data true (.testing w)
  | block {w : W} (hwaits : code.ready w data = false) :
      Moves data locked (.testing w) data false (.blocked w)
  | quiet {w w' : W} (hready : code.ready w data = true) (hact : code.act w data = .quiet w') :
      Moves data locked (.testing w) data locked (.leaving w')
  | changeUnlock {w w' : W} {data' : D} (hready : code.ready w data = true)
      (hact : code.act w data = .change data' w' true) :
      Moves data locked (.testing w) data' locked (.unlocking w')
  | changeNotify {w w' : W} {data' : D} (hready : code.ready w data = true)
      (hact : code.act w data = .change data' w' false) :
      Moves data locked (.testing w) data' locked (.notifying w' true)
  | resume {w : W} (hfree : locked = false) : Moves data locked (.woken w) data true (.testing w)
  | leave {w : W} : Moves data locked (.leaving w) data false (.outside w)
  | unlock {w : W} : Moves data locked (.unlocking w) data false (.notifying w false)
  | notifyHeld {w : W} : Moves data locked (.notifying w true) data locked (.leaving w)
  | notifyFree {w : W} : Moves data locked (.notifying w false) data locked (.outside w)

variable {code}

theorem move_cases {data data' : D} {locked locked' : Bool} {place place' : Place W}
    (hmove : code.move data locked place = some (data', locked', place')) :
    code.Moves data locked place data' locked' place' := by
  cases place with
  | outside w =>
      simp only [move] at hmove
      split at hmove
      next henters =>
        split at hmove
        next => cases hmove
        next hfree =>
          cases hmove
          exact .enter henters (Bool.eq_false_iff.mpr hfree)
      next houtside =>
        obtain ⟨⟨data', w'⟩, hwork, heq⟩ := Option.map_eq_some_iff.mp hmove
        cases heq
        exact .work (Bool.eq_false_iff.mpr houtside) hwork
  | testing w =>
      simp only [move] at hmove
      split at hmove
      next hready =>
        split at hmove
        next hact =>
          cases hmove
          exact .quiet hready hact
        next hact =>
          cases hmove
          exact .changeUnlock hready hact
        next hact =>
          cases hmove
          exact .changeNotify hready hact
      next hwaits =>
        cases hmove
        exact .block (Bool.eq_false_iff.mpr hwaits)
  | blocked w => cases hmove
  | woken w =>
      simp only [move] at hmove
      split at hmove
      next => cases hmove
      next hfree =>
        cases hmove
        exact .resume (Bool.eq_false_iff.mpr hfree)
  | leaving w =>
      cases hmove
      exact .leave
  | unlocking w =>
      cases hmove
      exact .unlock
  | notifying w held =>
      cases held with
      | true =>
          cases hmove
          exact .notifyHeld
      | false =>
          cases hmove
          exact .notifyFree

/-- What a step leaves of the threads that do not move. -/
def others (place : Place W) : Place W → Place W := if place.notifies then Place.wake else id

@[simp] theorem who_others (place other : Place W) : (others place other).who = other.who := by
  unfold others
  split <;> simp

@[simp] theorem map_who_others (place : Place W) (l : List (Place W)) :
    (l.map (others place)).map Place.who = l.map Place.who := by
  rw [List.map_map]
  exact List.map_congr_left fun other _ => who_others place other

@[simp] theorem holds_others (place other : Place W) :
    (others place other).holds = other.holds := by
  unfold others
  split <;> simp

/-- The steps of the system. -/
inductive Step (code : Code D W) (s : State D W) : Action → State D W → Prop where
  | thread {before after : List (Place W)} {place place' : Place W} {data : D} {locked : Bool}
      (hthreads : s.threads = before ++ place :: after)
      (hmoves : code.Moves s.data s.locked place data locked place') :
      Step code s (.thread before.length)
        ⟨data, locked, before.map (others place) ++ place' :: after.map (others place)⟩
  | spurious {before after : List (Place W)} {w : W}
      (hthreads : s.threads = before ++ .blocked w :: after) :
      Step code s (.spurious before.length) { s with threads := before ++ .woken w :: after }

theorem step_cases {s s' : State D W} {a : Action} (hstep : code.step s a = some s') :
    Step code s a s' := by
  cases a with
  | thread i =>
      simp only [step] at hstep
      cases hget : s.threads[i]? with
      | none => simp [hget] at hstep
      | some place =>
          simp only [hget, Option.map_eq_some_iff] at hstep
          obtain ⟨⟨data, locked, place'⟩, hmove, rfl⟩ := hstep
          obtain ⟨before, after, hthreads, rfl, hset⟩ := split_of_getElem? hget
          have hleft : (if place.notifies then s.threads.map Place.wake else s.threads).set
              before.length place' =
                before.map (others place) ++ place' :: after.map (others place) := by
            unfold others
            split
            · rw [hthreads, List.map_append, List.map_cons]
              simp
            · rw [hset, List.map_id, List.map_id]
          rw [hleft]
          exact .thread hthreads (move_cases hmove)
  | spurious i =>
      simp only [step] at hstep
      split at hstep
      next w hget =>
        cases hstep
        obtain ⟨before, after, hthreads, rfl, hset⟩ := split_of_getElem? hget
        rw [hset]
        exact .spurious hthreads
      next => cases hstep

/-! ## The guarded changes behind the steps -/

/-- A change of the data and of what one thread is about, with nothing between the test of its
predicate and the change. -/
inductive Change (code : Code D W) (data : D) : W → D → W → Prop where
  | work {w w' : W} {data' : D} (houtside : code.enters w = false)
      (hwork : code.work w data = some (data', w')) : Change code data w data' w'
  | quiet {w w' : W} (henters : code.enters w = true) (hready : code.ready w data = true)
      (hact : code.act w data = .quiet w') : Change code data w data w'
  | change {w w' : W} {data' : D} {unlockFirst : Bool} (henters : code.enters w = true)
      (hready : code.ready w data = true) (hact : code.act w data = .change data' w' unlockFirst) :
      Change code data w data' w'

/-- Only a thread that is to take the lock is on its way to it. -/
def Entered (code : Code D W) : Place W → Prop
  | .testing w => code.enters w = true
  | .blocked w => code.enters w = true
  | .woken w => code.enters w = true
  | _ => True

theorem entered_start (data : D) (threads : List W) :
    ∀ place ∈ (start data threads).threads, code.Entered place := by
  intro place hmem
  obtain ⟨w, -, rfl⟩ := List.mem_map.mp hmem
  trivial

theorem entered_others {place other : Place W} (hentered : code.Entered other) :
    code.Entered (others place other) := by
  unfold others
  split
  · cases other <;> exact hentered
  · exact hentered

variable {data data' : D} {locked locked' : Bool} {place place' : Place W} {s s' : State D W}
  {a : Action}

theorem entered_moves (hentered : code.Entered place)
    (hmoves : code.Moves data locked place data' locked' place') : code.Entered place' := by
  cases hmoves with
  | enter henters => exact henters
  | block => exact hentered
  | resume => exact hentered
  | _ => trivial

theorem entered_step (hinv : ∀ place ∈ s.threads, code.Entered place)
    (hstep : code.step s a = some s') : ∀ place ∈ s'.threads, code.Entered place := by
  cases step_cases hstep with
  | thread hthreads hmoves =>
      rw [hthreads, List.forall_mem_append, List.forall_mem_cons] at hinv
      obtain ⟨hbefore, hplace, hafter⟩ := hinv
      rw [List.forall_mem_append, List.forall_mem_cons, List.forall_mem_map, List.forall_mem_map]
      exact ⟨fun other hmem => entered_others (hbefore other hmem), entered_moves hplace hmoves,
        fun other hmem => entered_others (hafter other hmem)⟩
  | spurious hthreads =>
      rw [hthreads, List.forall_mem_append, List.forall_mem_cons] at hinv
      rwa [List.forall_mem_append, List.forall_mem_cons]

/-- A step of a thread goes unseen, or is a change. -/
theorem change_of_moves (hentered : code.Entered place)
    (hmoves : code.Moves data locked place data' locked' place') :
    (data' = data ∧ place'.who = place.who) ∨ code.Change data place.who data' place'.who := by
  cases hmoves with
  | work houtside hwork => exact .inr (.work houtside hwork)
  | quiet hready hact => exact .inr (.quiet hentered hready hact)
  | changeUnlock hready hact => exact .inr (.change hentered hready hact)
  | changeNotify hready hact => exact .inr (.change hentered hready hact)
  | _ => exact .inl ⟨rfl, rfl⟩

/-- What a thread changes, without the lock around it. -/
def attempt (code : Code D W) (data : D) (w : W) : Option (D × W) :=
  if code.enters w then
    if code.ready w data then
      match code.act w data with
      | .quiet w' => some (data, w')
      | .change data' w' _ => some (data', w')
    else none
  else code.work w data

theorem attempt_eq_some_iff {w w' : W} :
    code.attempt data w = some (data', w') ↔ code.Change data w data' w' := by
  constructor
  · intro hattempt
    unfold attempt at hattempt
    split at hattempt
    next henters =>
      split at hattempt
      next hready =>
        split at hattempt
        next hact =>
          cases hattempt
          exact .quiet henters hready hact
        next hact =>
          cases hattempt
          exact .change henters hready hact
      next => cases hattempt
    next houtside => exact .work (Bool.eq_false_iff.mpr houtside) hattempt
  · intro hchange
    cases hchange with
    | work houtside hwork => simp [attempt, houtside, hwork]
    | quiet henters hready hact => simp [attempt, henters, hready, hact]
    | change henters hready hact => simp [attempt, henters, hready, hact]

/-- The system without lock and waits: a thread that can change something does so at once. -/
def atomic (code : Code D W) (s : D × List W) (i : ℕ) : Option (D × List W) :=
  stepAt code.attempt s.1 s.2 i

theorem atomic_middle {before after : List W} {w w' : W} (hchange : code.Change data w data' w') :
    code.atomic (data, before ++ w :: after) before.length =
      some (data', before ++ w' :: after) := by
  simp [atomic, stepAt, attempt_eq_some_iff.mpr hchange]

/-- What the threads do is what they would do one change at a time. -/
theorem run_refines {data : D} {threads : List W} {actions : List Action}
    (hrun : run code.step (start data threads) actions = some s) :
    ∃ turns, run code.atomic (data, threads) turns = some (s.data, s.threads.map Place.who) := by
  have hboth : (∀ place ∈ s.threads, code.Entered place) ∧
      ∃ turns, run code.atomic (data, threads) turns =
        some (s.data, s.threads.map Place.who) := by
    apply run_invariant ?_ ?_ hrun
    · intro s a s' ⟨hentered, turns, hturns⟩ hstep
      refine ⟨entered_step hentered hstep, ?_⟩
      cases step_cases hstep with
      | thread hthreads hmoves =>
          rename_i before after place place' data' locked
          rw [hthreads] at hturns hentered
          have hplace := hentered place (by simp)
          simp only [List.map_append, List.map_cons, map_who_others] at hturns ⊢
          obtain ⟨rfl, hwho⟩ | hchange := change_of_moves hplace hmoves
          · exact ⟨turns, by rw [hwho, hturns]⟩
          · exact ⟨turns ++ [(before.map Place.who).length], run_append hturns (by
              rw [run_cons (atomic_middle hchange), run_nil])⟩
      | spurious hthreads =>
          rw [hthreads] at hturns
          exact ⟨turns, by simpa [Place.who] using hturns⟩
    · exact ⟨entered_start data threads, [], by simp [start, Place.who, Function.comp_def]⟩
  exact hboth.2

/-- What every change keeps of the data and of what the threads are about, every run keeps. -/
theorem run_keeps (inv : D → List W → Prop)
    (hkeep : ∀ {data data' : D} {w w' : W} {before after : List W},
      inv data (before ++ w :: after) → code.Change data w data' w' →
      inv data' (before ++ w' :: after))
    {data : D} {threads : List W} (hinit : inv data threads) {actions : List Action}
    (hrun : run code.step (start data threads) actions = some s) :
    inv s.data (s.threads.map Place.who) := by
  obtain ⟨turns, hturns⟩ := run_refines hrun
  have hstay : ∀ (s : D × List W) (i : ℕ) (s' : D × List W),
      inv s.1 s.2 → code.atomic s i = some s' → inv s'.1 s'.2 := by
    rintro ⟨data, threads⟩ i ⟨data', threads'⟩ hinv hstep
    obtain ⟨before, w, w', after, rfl, rfl, hattempt⟩ := stepAt_cases hstep
    exact hkeep hinv (attempt_eq_some_iff.mp hattempt)
  exact run_invariant hstay (s := (data, threads)) hinit hturns

/-! ## The lock -/

/-- One thread has the lock, or none, as the lock says. -/
def Guarded (s : State D W) : Prop := s.threads.countP Place.holds = s.locked.toNat

theorem guarded_start (data : D) (threads : List W) : Guarded (start data threads) := by
  simp [Guarded, start, Place.holds, Function.comp_def]

/-- A thread takes the lock when it is free, and gives up what it has. -/
theorem holds_moves (hheld : place.holds = true → locked = true)
    (hmoves : code.Moves data locked place data' locked' place') :
    place'.holds.toNat + locked.toNat = place.holds.toNat + locked'.toNat := by
  cases hmoves with
  | enter henters hfree => rw [hfree]; rfl
  | resume hfree => rw [hfree]; rfl
  | block => rw [hheld rfl]; rfl
  | leave => rw [hheld rfl]; rfl
  | unlock => rw [hheld rfl]; rfl
  | _ => rfl

theorem countP_middle (before after : List (Place W)) (place : Place W) :
    (before ++ place :: after).countP Place.holds =
      (before ++ after).countP Place.holds + place.holds.toNat := by
  rw [List.countP_append, List.countP_cons, List.countP_append, ← Nat.add_assoc, Nat.add_right_comm,
    Nat.add_right_comm]
  cases place.holds with
  | true => rfl
  | false => rfl

theorem guarded_step (hinv : Guarded s) (hstep : code.step s a = some s') : Guarded s' := by
  unfold Guarded at hinv ⊢
  cases step_cases hstep with
  | thread hthreads hmoves =>
      rename_i before after place place' data locked
      have hothers : (before.map (others place) ++ after.map (others place)).countP Place.holds =
          (before ++ after).countP Place.holds := by
        rw [← List.map_append, List.countP_map]
        apply List.countP_congr
        simp
      rw [hthreads, countP_middle] at hinv
      rw [countP_middle, hothers]
      have hheld : place.holds = true → s.locked = true := by
        intro hholds
        rw [hholds] at hinv
        cases hlocked : s.locked with
        | true => rfl
        | false => simp [hlocked] at hinv
      have hmoved := holds_moves hheld hmoves
      dsimp only
      omega
  | spurious hthreads =>
      rw [hthreads, countP_middle] at hinv
      rw [countP_middle]
      exact hinv

/-! ## Nobody is forgotten -/

/-- When a thread is blocked though what it is to be notified of is there, another one is still to
notify. -/
def NoneForgotten (notified : W → D → Prop) (s : State D W) : Prop :=
  ∀ w, .blocked w ∈ s.threads → notified w s.data → ∃ place ∈ s.threads, place.Owes

/-- Nobody waits for what is there already, and work without the lock does not bring it about. -/
structure Notified (code : Code D W) (notified : W → D → Prop) : Prop where
  ready : ∀ w data, notified w data → code.ready w data = true
  work : ∀ {w w' : W} {data data' : D}, code.work w data = some (data', w') →
    ∀ other, notified other data' → notified other data

theorem noneForgotten_start (notified : W → D → Prop) (data : D) (threads : List W) :
    NoneForgotten notified (start data threads) := by
  intro w hmem
  obtain ⟨w', -, heq⟩ := List.mem_map.mp hmem
  cases heq

variable {notified : W → D → Prop}

/-- Whoever blocks has seen the predicate fail, and whoever changes the data is to notify. -/
theorem noneForgotten_moves (hnotified : code.Notified notified)
    (hmoves : code.Moves data locked place data' locked' place') :
    place'.Owes ∨ place.notifies = true ∨
      ((∀ w, notified w data' → notified w data) ∧ ¬ place.Owes ∧
        ∀ w, place' = .blocked w → ¬ notified w data') := by
  cases hmoves with
  | work houtside hwork => exact .inr (.inr ⟨hnotified.work hwork, id, by rintro w ⟨⟩⟩)
  | changeUnlock => exact .inl trivial
  | changeNotify => exact .inl trivial
  | unlock => exact .inl trivial
  | notifyHeld => exact .inr (.inl rfl)
  | notifyFree => exact .inr (.inl rfl)
  | block hwaits =>
      refine .inr (.inr ⟨fun w => id, id, ?_⟩)
      rintro w ⟨⟩ hthere
      rw [hnotified.ready _ _ hthere] at hwaits
      cases hwaits
  | _ => exact .inr (.inr ⟨fun w => id, id, by rintro w ⟨⟩⟩)

theorem noneForgotten_step (hnotified : code.Notified notified) (hinv : NoneForgotten notified s)
    (hstep : code.step s a = some s') : NoneForgotten notified s' := by
  intro w hmem hthere
  cases step_cases hstep with
  | thread hthreads hmoves =>
      rename_i before after place place' data locked
      simp only [List.mem_append, List.mem_map, List.mem_cons] at hmem ⊢
      obtain howes | hnotifies | ⟨hback, hplace, hblock⟩ := noneForgotten_moves hnotified hmoves
      · exact ⟨place', .inr (.inl rfl), howes⟩
      · -- the notification has woken all the others, and the notifier is not blocked
        exfalso
        have hwoken : ∀ other, others place other ≠ .blocked w := by
          intro other
          rw [others, if_pos hnotifies]
          exact other.wake_ne_blocked w
        obtain ⟨other, -, heq⟩ | rfl | ⟨other, -, heq⟩ := hmem
        · exact hwoken other heq
        · cases hmoves
          cases hnotifies
        · exact hwoken other heq
      · have hothers : others place = id := by
          unfold others
          cases place with
          | notifying => exact absurd trivial hplace
          | _ => rfl
        simp only [hothers, id, exists_eq_right] at hmem ⊢
        have hold : .blocked w ∈ s.threads := by
          rw [hthreads]
          obtain hmem | rfl | hmem := hmem
          · exact List.mem_append_left _ hmem
          · exact absurd hthere (hblock w rfl)
          · exact List.mem_append_right _ (List.mem_cons_of_mem _ hmem)
        obtain ⟨other, hother, howes⟩ := hinv w hold (hback w hthere)
        rw [hthreads, List.mem_append, List.mem_cons] at hother
        obtain hother | rfl | hother := hother
        · exact ⟨other, .inl hother, howes⟩
        · exact absurd howes hplace
        · exact ⟨other, .inr (.inr hother), howes⟩
  | spurious hthreads =>
      have hold : .blocked w ∈ s.threads := by
        rw [hthreads]
        simp only [List.mem_append, List.mem_cons, reduceCtorEq, false_or] at hmem ⊢
        tauto
      obtain ⟨other, hother, howes⟩ := hinv w hold hthere
      refine ⟨other, ?_, howes⟩
      rw [hthreads] at hother
      simp only [List.mem_append, List.mem_cons] at hother ⊢
      obtain hother | rfl | hother := hother
      · exact .inl hother
      · exact absurd howes id
      · exact .inr (.inr hother)

/-! ## Where it ends -/

/-- No thread can move on. -/
def Stuck (code : Code D W) (s : State D W) : Prop := ∀ i, code.step s (.thread i) = none

/-- A thread is at its end, or waits for what is not there. -/
inductive Rests (code : Code D W) (notified : W → D → Prop) (data : D) : Place W → Prop where
  | ended {w : W} (houtside : code.enters w = false) (hwork : code.work w data = none) :
      Rests code notified data (.outside w)
  | waits {w : W} (henters : code.enters w = true) (hwaits : ¬ notified w data) :
      Rests code notified data (.blocked w)

theorem move_eq_none_of_stuck (hstuck : code.Stuck s) (hmem : place ∈ s.threads) :
    code.move s.data s.locked place = none := by
  obtain ⟨i, hget⟩ := List.mem_iff_getElem?.mp hmem
  have hnone := hstuck i
  simp only [step, hget, Option.map_eq_none_iff] at hnone
  exact hnone

theorem not_holds_of_move_eq_none (hnone : code.move data locked place = none) :
    place.holds = false ∧ ¬ place.Owes := by
  cases place with
  | testing w =>
      simp only [move] at hnone
      split at hnone
      · split at hnone <;> cases hnone
      · cases hnone
  | leaving w => cases hnone
  | unlocking w => cases hnone
  | notifying w held => cases held <;> cases hnone
  | _ => exact ⟨rfl, id⟩

theorem rests_of_stuck (hnotified : code.Notified notified) {data : D} {threads : List W}
    {actions : List Action} (hrun : run code.step (start data threads) actions = some s)
    (hstuck : code.Stuck s) :
    ∀ place ∈ s.threads, code.Rests notified s.data place := by
  have hguarded : Guarded s :=
    run_invariant (fun _ _ _ => guarded_step) (guarded_start data threads) hrun
  have hnoneForgotten : NoneForgotten notified s :=
    run_invariant (fun _ _ _ => noneForgotten_step hnotified)
      (noneForgotten_start notified data threads) hrun
  have hentered : ∀ place ∈ s.threads, code.Entered place :=
    run_invariant (fun _ _ _ => entered_step) (entered_start data threads) hrun
  have hfree : s.locked = false := by
    have hcount : s.threads.countP Place.holds = 0 := by
      apply List.countP_eq_zero.mpr
      intro place hmem
      simp [(not_holds_of_move_eq_none (move_eq_none_of_stuck hstuck hmem)).1]
    rw [hguarded] at hcount
    cases hlocked : s.locked with
    | false => rfl
    | true => simp [hlocked] at hcount
  intro place hmem
  have hnone := move_eq_none_of_stuck hstuck hmem
  cases place with
  | outside w =>
      simp only [move, hfree, Bool.false_eq_true, if_false] at hnone
      split at hnone
      · cases hnone
      next houtside =>
        exact .ended (Bool.eq_false_iff.mpr houtside) (Option.map_eq_none_iff.mp hnone)
  | blocked w =>
      refine .waits (hentered _ hmem) fun hthere => ?_
      obtain ⟨other, hother, howes⟩ := hnoneForgotten w hmem hthere
      exact (not_holds_of_move_eq_none (move_eq_none_of_stuck hstuck hother)).2 howes
  | woken w => simp [move, hfree] at hnone
  | testing w => exact absurd (not_holds_of_move_eq_none hnone).1 (by simp [Place.holds])
  | leaving w => cases hnone
  | unlocking w => cases hnone
  | notifying w held => cases held <;> cases hnone

/-! ## That it ends -/

/-- A bound for the steps a thread makes until it blocks or changes something, for the wake-ups too
that its notification is to bring about among so many threads. -/
def weight (count : ℕ) : Place W → ℕ
  | .outside _ => 3
  | .testing _ => 2
  | .blocked _ => 0
  | .woken _ => 3
  | .leaving _ => 4
  | .unlocking _ => 3 * count + 6
  | .notifying _ _ => 3 * count + 5

/-- A bound for the steps, when each change lowers the measure. -/
def potential (measure : D → List W → ℕ) (s : State D W) : ℕ :=
  measure s.data (s.threads.map Place.who) * (3 * s.threads.length + 5) +
    (s.threads.map (weight s.threads.length)).sum

theorem weight_others (count : ℕ) (place other : Place W) :
    weight count (others place other) ≤ weight count other + if place.notifies then 3 else 0 := by
  unfold others
  split
  · cases other <;> simp [weight, Place.wake]
  · simp

theorem sum_weight_others (count : ℕ) (place : Place W) (l : List (Place W)) :
    ((l.map (others place)).map (weight count)).sum ≤
      (l.map (weight count)).sum + (if place.notifies then 3 else 0) * l.length := by
  rw [List.map_map]
  exact sum_map_le_add (weight_others count place) l

/-- A step that goes unseen takes the thread on, and a notification pays for all it wakes; a change
pays for the steps behind it. -/
theorem weight_moves {count : ℕ} (hcount : 0 < count) (hentered : code.Entered place)
    (hmoves : code.Moves data locked place data' locked' place') :
    (data' = data ∧ place'.who = place.who ∧
      weight count place' + (if place.notifies then 3 else 0) * (count - 1) < weight count place) ∨
    (code.Change data place.who data' place'.who ∧ place.notifies = false ∧
      weight count place' < weight count place + (3 * count + 5)) := by
  cases hmoves with
  | work houtside hwork => exact .inr ⟨.work houtside hwork, rfl, by simp [weight]⟩
  | quiet hready hact => exact .inr ⟨.quiet hentered hready hact, rfl, by simp [weight]; omega⟩
  | changeUnlock hready hact =>
      exact .inr ⟨.change hentered hready hact, rfl, by simp [weight]; omega⟩
  | changeNotify hready hact =>
      exact .inr ⟨.change hentered hready hact, rfl, by simp [weight]⟩
  | enter henters => exact .inl ⟨rfl, rfl, by simp [weight, Place.notifies]⟩
  | block => exact .inl ⟨rfl, rfl, by simp [weight, Place.notifies]⟩
  | resume => exact .inl ⟨rfl, rfl, by simp [weight, Place.notifies]⟩
  | leave => exact .inl ⟨rfl, rfl, by simp [weight, Place.notifies]⟩
  | unlock => exact .inl ⟨rfl, rfl, by simp [weight, Place.notifies]⟩
  | notifyHeld => exact .inl ⟨rfl, rfl, by simp only [weight, Place.notifies, if_true]; omega⟩
  | notifyFree => exact .inl ⟨rfl, rfl, by simp only [weight, Place.notifies, if_true]; omega⟩

variable {measure : D → List W → ℕ}

theorem potential_step
    (hless : ∀ {data data' : D} {w w' : W} (before after : List W),
      code.Change data w data' w' →
      measure data' (before ++ w' :: after) < measure data (before ++ w :: after))
    (hentered : ∀ place ∈ s.threads, code.Entered place) (hstep : code.step s a = some s') :
    potential measure s' + 1 ≤ potential measure s + if a.isSpurious then 4 else 0 := by
  unfold potential
  cases step_cases hstep with
  | thread hthreads hmoves =>
      rename_i before after place place' data locked
      have hplace := hentered place (by simp [hthreads])
      have hlength : s.threads.length = before.length + after.length + 1 := by
        rw [hthreads, List.length_append, List.length_cons]
        omega
      have hlength' : (before.map (others place) ++ place' :: after.map (others place)).length =
          s.threads.length := by
        rw [hlength, List.length_append, List.length_cons, List.length_map, List.length_map]
        omega
      obtain ⟨count, hcount⟩ : ∃ count, s.threads.length = count := ⟨_, rfl⟩
      have hbefore := sum_weight_others count place before
      have hafter := sum_weight_others count place after
      have hmoved := weight_moves (by omega : 0 < count) hplace hmoves
      rw [show count - 1 = before.length + after.length by omega, Nat.mul_add] at hmoved
      rw [hlength', hcount, hthreads, Action.isSpurious, if_neg (by simp)]
      simp only [List.map_append, List.map_cons, map_who_others, List.sum_append, List.sum_cons]
      obtain ⟨rfl, hwho, hweight⟩ | ⟨hchange, hnotifies, hweight⟩ := hmoved
      · rw [hwho]
        omega
      · have hmeasure := hless (before.map Place.who) (after.map Place.who) hchange
        have hproduct := Nat.mul_le_mul_right (3 * count + 5) (Nat.succ_le_of_lt hmeasure)
        rw [Nat.succ_mul] at hproduct
        rw [hnotifies, if_neg (by simp), Nat.zero_mul] at hbefore hafter
        omega
  | spurious hthreads =>
      simp only [hthreads, List.map_append, List.map_cons, List.sum_append, List.sum_cons, weight,
        Place.who, List.length_append, List.length_cons, Action.isSpurious, if_true]
      omega

/-- When each change lowers the measure, a run is as long as the spurious wake-ups in it allow. -/
theorem length_run_le (measure : D → List W → ℕ)
    (hless : ∀ {data data' : D} {w w' : W} (before after : List W),
      code.Change data w data' w' →
      measure data' (before ++ w' :: after) < measure data (before ++ w :: after))
    {data : D} {threads : List W} {actions : List Action}
    (hrun : run code.step (start data threads) actions = some s) :
    actions.length ≤ measure data threads * (3 * threads.length + 5) + 3 * threads.length +
      4 * actions.countP Action.isSpurious := by
  have hlength : ∀ {s s' : State D W} {actions : List Action},
      (∀ place ∈ s.threads, code.Entered place) → run code.step s actions = some s' →
      potential measure s' + actions.length ≤
        potential measure s + 4 * actions.countP Action.isSpurious := by
    intro s s' actions hentered hrun
    induction actions generalizing s with
    | nil =>
        cases hrun
        simp
    | cons a rest ih =>
        obtain ⟨s₁, hstep, hrest⟩ := exists_step_of_run_cons hrun
        have hfirst := potential_step hless hentered hstep
        have hothers := ih (entered_step hentered hstep) hrest
        rw [List.length_cons, List.countP_cons]
        split at hfirst <;> simp_all <;> omega
  have hstart : potential measure (start data threads) =
      measure data threads * (3 * threads.length + 5) + 3 * threads.length := by
    simp [potential, start, Place.who, weight, Function.comp_def]
    omega
  have hle := hlength (entered_start data threads) hrun
  omega

end Code

end Monitor
