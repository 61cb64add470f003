import Mathlib.Algebra.Order.BigOperators.Group.List
import Mathlib.Algebra.Order.Group.Int
import Mathlib.Data.Rat.Defs
import Palmira.Foundation.StepSystem
import Palmira.Foundation.Threads

/-!
# The limit on requests

`libruseq-sender`: any number of threads run `IndexArchive`, which waits under
`requests::locker` until fewer than `maxrequests` requests are processed, and sends
one. A request is called back once; the callback changes the counters and the limit
without the lock. Nothing in the source clears `canContinue`.
-/

namespace Palmira.Libruseq.Sender

open StepSystem Threads

/-- Where a thread is in `IndexArchive`: before the lock, at the test of the condition with what it
has loaded so far, blocked on `waiter`, woken and in need of the lock, before `client->Insert` with
the limit of the test, before `++processing`, before the release of the lock. -/
inductive Thread where
  | outside
  | testing (processing maxrequests : Option ℤ)
  | blocked
  | woken
  | sending (limit : ℤ)
  | sent
  | leaving
  deriving DecidableEq

/-- What a request is called back with. -/
inductive Outcome where
  | ok (elapsed : ℚ)
  | timeout
  | fault
  deriving DecidableEq

/-- What a compare-exchange loop makes of `maxrequests`. -/
inductive Change where
  | less
  | more
  deriving DecidableEq

def Change.apply : Change → ℤ → ℤ
  | .less, curmax => max (curmax - 1) 4
  | .more, curmax => min (curmax + 1) 100

/-- What `RegisterOK`, `RegisterTimeout` and the default do to the limit. -/
def Outcome.change : Outcome → Option Change
  | .ok elapse =>
      if elapse > 0 then
        if elapse > 3 then some .less else if elapse < 3 / 2 then some .more else none
      else none
  | .timeout => some .less
  | .fault => none

/-- Where a request is: sent and not called back, with `--processing` behind it, in the loop with
the `curmax` it has loaded, before `notify_one`, behind it. -/
inductive Request where
  | inFlight
  | answered (outcome : Outcome)
  | adjusting (change : Change) (curmax : ℤ)
  | notifying
  | finished
  deriving DecidableEq

structure Counters where
  processing : ℤ
  maxrequests : ℤ
  deriving DecidableEq

structure Shared extends Counters where
  locked : Bool
  requests : List Request
  deriving DecidableEq

structure State where
  shared : Shared
  threads : List Thread
  deriving DecidableEq

/-- A step of a thread. The operands of `processing < maxrequests` are loaded in either order. -/
def move (processingFirst : Bool) (s : Shared) : Thread → Option (Shared × Thread)
  | .outside => if s.locked then none else some ({ s with locked := true }, .testing none none)
  | .woken => if s.locked then none else some ({ s with locked := true }, .testing none none)
  | .testing none none =>
      if processingFirst then some (s, .testing (some s.processing) none)
      else some (s, .testing none (some s.maxrequests))
  | .testing (some processing) none => some (s, .testing (some processing) (some s.maxrequests))
  | .testing none (some maxrequests) => some (s, .testing (some s.processing) (some maxrequests))
  | .testing (some processing) (some maxrequests) =>
      if processing < maxrequests then some (s, .sending maxrequests)
      else some ({ s with locked := false }, .blocked)
  | .blocked => none
  | .sending _ => some ({ s with requests := s.requests ++ [.inFlight] }, .sent)
  | .sent => some ({ s with processing := s.processing + 1 }, .leaving)
  | .leaving => some ({ s with locked := false }, .outside)

/-- A step of a callback up to `notify_one`. -/
def callback (outcome : Outcome) (c : Counters) : Request → Option (Counters × Request)
  | .inFlight => some ({ c with processing := c.processing - 1 }, .answered outcome)
  | .answered outcome =>
      match outcome.change with
      | some change => some (c, .adjusting change c.maxrequests)
      | none => some (c, .notifying)
  | .adjusting change curmax =>
      if c.maxrequests = curmax then
        some ({ c with maxrequests := change.apply curmax }, .notifying)
      else some (c, .adjusting change c.maxrequests)
  | .notifying => none
  | .finished => none

/-- A blocked thread is woken. -/
def wake (threads : List Thread) (i : ℕ) : Option (List Thread) :=
  if threads[i]? = some .blocked then some (threads.set i .woken) else none

/-- `notify_one`: one blocked thread is woken, whichever it is, if there is one. -/
def notifyOne (threads : List Thread) (i : ℕ) : Option (List Thread) :=
  if .blocked ∈ threads then wake threads i else some threads

inductive Action where
  | thread (i : ℕ) (processingFirst : Bool)
  | callback (j : ℕ) (outcome : Outcome)
  | notify (j : ℕ) (i : ℕ)
  | spurious (i : ℕ)

/-- The steps of the threads and callbacks in any interleaving. -/
def step (s : State) : Action → Option State
  | .thread i processingFirst =>
      (stepAt (move processingFirst) s.shared s.threads i).map fun (shared, threads) =>
        ⟨shared, threads⟩
  | .callback j outcome =>
      (stepAt (callback outcome) s.shared.toCounters s.shared.requests j).map
        fun (counters, requests) => { s with shared := { counters with
          locked := s.shared.locked, requests } }
  | .notify j i =>
      if s.shared.requests[j]? = some .notifying then
        (notifyOne s.threads i).map fun threads =>
          { s with
            shared := { s.shared with requests := s.shared.requests.set j .finished }
            threads }
      else none
  | .spurious i => (wake s.threads i).map fun threads => { s with threads }

/-- Any number of threads about to run. -/
def start (count : ℕ) : State := ⟨⟨⟨0, 20⟩, false, []⟩, List.replicate count .outside⟩

/-- The number of requests sent and not answered yet. -/
def unanswered (requests : List Request) : ℤ := requests.count .inFlight

/-! ## What a step can do -/

inductive Move (s : Shared) : Thread → Shared → Thread → Prop where
  | lock {t : Thread} (ht : t = .outside ∨ t = .woken) (hfree : s.locked = false) :
      Move s t { s with locked := true } (.testing none none)
  | loadProcessing (maxrequests : Option ℤ) :
      Move s (.testing none maxrequests) s (.testing (some s.processing) maxrequests)
  | loadMaxrequests (processing : Option ℤ) :
      Move s (.testing processing none) s (.testing processing (some s.maxrequests))
  | pass {processing maxrequests : ℤ} (hlt : processing < maxrequests) :
      Move s (.testing (some processing) (some maxrequests)) s (.sending maxrequests)
  | block {processing maxrequests : ℤ} (hle : maxrequests ≤ processing) :
      Move s (.testing (some processing) (some maxrequests)) { s with locked := false } .blocked
  | send (limit : ℤ) :
      Move s (.sending limit) { s with requests := s.requests ++ [.inFlight] } .sent
  | count : Move s .sent { s with processing := s.processing + 1 } .leaving
  | unlock : Move s .leaving { s with locked := false } .outside

theorem move_cases {processingFirst : Bool} {s s' : Shared} {t t' : Thread}
    (hmove : move processingFirst s t = some (s', t')) : Move s t s' t' := by
  unfold move at hmove
  split at hmove
  · split at hmove
    · cases hmove
    next hfree => cases hmove; exact .lock (.inl rfl) (Bool.eq_false_iff.mpr hfree)
  · split at hmove
    · cases hmove
    next hfree => cases hmove; exact .lock (.inr rfl) (Bool.eq_false_iff.mpr hfree)
  · split at hmove
    · cases hmove; exact .loadProcessing none
    · cases hmove; exact .loadMaxrequests none
  · cases hmove; exact .loadMaxrequests _
  · cases hmove; exact .loadProcessing _
  · split at hmove
    next hlt => cases hmove; exact .pass hlt
    next hle => cases hmove; exact .block (not_lt.mp hle)
  · cases hmove
  · cases hmove; exact .send _
  · cases hmove; exact .count
  · cases hmove; exact .unlock

inductive Called (c : Counters) : Request → Counters → Request → Prop where
  | answer (outcome : Outcome) :
      Called c .inFlight { c with processing := c.processing - 1 } (.answered outcome)
  | keep {outcome : Outcome} (hkeep : outcome.change = none) :
      Called c (.answered outcome) c .notifying
  | load {outcome : Outcome} {change : Change} (hchange : outcome.change = some change) :
      Called c (.answered outcome) c (.adjusting change c.maxrequests)
  | adjust {change : Change} {curmax : ℤ} (hsame : c.maxrequests = curmax) :
      Called c (.adjusting change curmax) { c with maxrequests := change.apply curmax } .notifying
  | retry {change : Change} {curmax : ℤ} (hother : c.maxrequests ≠ curmax) :
      Called c (.adjusting change curmax) c (.adjusting change c.maxrequests)

theorem callback_cases {outcome : Outcome} {c c' : Counters} {r r' : Request}
    (hcallback : callback outcome c r = some (c', r')) : Called c r c' r' := by
  unfold callback at hcallback
  split at hcallback
  · cases hcallback; exact .answer outcome
  · split at hcallback
    next hchange => cases hcallback; exact .load hchange
    next hkeep => cases hcallback; exact .keep hkeep
  · split at hcallback
    next hsame => cases hcallback; exact .adjust hsame
    next hother => cases hcallback; exact .retry hother
  · cases hcallback
  · cases hcallback

theorem wake_cases {threads threads' : List Thread} {i : ℕ}
    (hwake : wake threads i = some threads') : ∃ before after,
      threads = before ++ .blocked :: after ∧ threads' = before ++ .woken :: after := by
  unfold wake at hwake
  split at hwake
  next hget =>
      obtain ⟨before, after, hthreads, -, hset⟩ := split_of_getElem? hget
      cases hwake
      exact ⟨before, after, hthreads, hset .woken⟩
  next => cases hwake

theorem notifyOne_cases {threads threads' : List Thread} {i : ℕ}
    (hnotify : notifyOne threads i = some threads') :
    (.blocked ∉ threads ∧ threads' = threads) ∨ ∃ before after,
      threads = before ++ .blocked :: after ∧ threads' = before ++ .woken :: after := by
  unfold notifyOne at hnotify
  split at hnotify
  next => exact .inr (wake_cases hnotify)
  next hnone =>
      cases hnotify
      exact .inl ⟨hnone, rfl⟩

/-- One step of the system. -/
inductive Step (s : State) : Action → State → Prop where
  | thread (i : ℕ) (processingFirst : Bool) {before after : List Thread} {t t' : Thread}
      {shared : Shared} (hthreads : s.threads = before ++ t :: after) (hi : i = before.length)
      (hmove : Move s.shared t shared t') :
      Step s (.thread i processingFirst) ⟨shared, before ++ t' :: after⟩
  | callback (j : ℕ) (outcome : Outcome) {before after : List Request} {r r' : Request}
      {counters : Counters} (hrequests : s.shared.requests = before ++ r :: after)
      (hcalled : Called s.shared.toCounters r counters r') :
      Step s (.callback j outcome) { s with shared := { counters with
        locked := s.shared.locked, requests := before ++ r' :: after } }
  | notify (j i : ℕ) {before after : List Request} {threads : List Thread}
      (hrequests : s.shared.requests = before ++ .notifying :: after)
      (hj : j = before.length) (hnotify : notifyOne s.threads i = some threads) :
      Step s (.notify j i)
        ⟨{ s.shared with requests := before ++ .finished :: after }, threads⟩
  | spurious (i : ℕ) {before after : List Thread}
      (hthreads : s.threads = before ++ .blocked :: after) :
      Step s (.spurious i) { s with threads := before ++ .woken :: after }

theorem step_cases {s s' : State} {a : Action} (hstep : step s a = some s') : Step s a s' := by
  cases a with
  | thread i processingFirst =>
      simp only [step, Option.map_eq_some_iff] at hstep
      obtain ⟨⟨shared, threads⟩, hat, rfl⟩ := hstep
      obtain ⟨before, t, t', after, hthreads, hi, rfl, hmove⟩ := stepAt_split hat
      exact .thread i processingFirst hthreads hi (move_cases hmove)
  | callback j outcome =>
      simp only [step, Option.map_eq_some_iff] at hstep
      obtain ⟨⟨counters, requests⟩, hat, rfl⟩ := hstep
      obtain ⟨before, r, r', after, hrequests, rfl, hcallback⟩ := stepAt_cases hat
      exact .callback j outcome hrequests (callback_cases hcallback)
  | notify j i =>
      simp only [step] at hstep
      split at hstep
      next hget =>
          obtain ⟨threads, hnotify, rfl⟩ := Option.map_eq_some_iff.mp hstep
          obtain ⟨before, after, hrequests, hj, hset⟩ := split_of_getElem? hget
          rw [hset]
          exact .notify j i hrequests hj hnotify
      next => cases hstep
  | spurious i =>
      simp only [step, Option.map_eq_some_iff] at hstep
      obtain ⟨threads, hwake, rfl⟩ := hstep
      obtain ⟨before, after, hthreads, rfl⟩ := wake_cases hwake
      exact .spurious i hthreads

/-! ## The invariant -/

def WithinLimits (limit : ℤ) : Prop := 4 ≤ limit ∧ limit ≤ 100

theorem withinLimits_apply (change : Change) {limit : ℤ} (hlimit : WithinLimits limit) :
    WithinLimits (change.apply limit) := by
  unfold WithinLimits at hlimit ⊢
  cases change <;> simp only [Change.apply] <;> omega

/-- The thread has the lock. -/
def Thread.inside : Thread → ℤ
  | .testing _ _ => 1
  | .sending _ => 1
  | .sent => 1
  | .leaving => 1
  | _ => 0

/-- The thread has sent a request that is not counted yet. -/
def Thread.uncounted : Thread → ℤ
  | .sent => 1
  | _ => 0

/-- What the thread has loaded holds of the requests as they are. -/
def Thread.Admits (n : ℤ) : Thread → Prop
  | .testing processing maxrequests =>
      (∀ p ∈ processing, n ≤ p) ∧ ∀ m ∈ maxrequests, WithinLimits m
  | .sending limit => n < limit ∧ WithinLimits limit
  | _ => True

def Request.AdjustsWithin : Request → Prop
  | .adjusting _ curmax => WithinLimits curmax
  | _ => True

/-- The lock's weight, so that it is 0 together with that of the threads inside. -/
def lockWeight (locked : Bool) : ℤ := if locked then -1 else 0

structure Invariant (s : State) : Prop where
  limit : WithinLimits s.shared.maxrequests
  adjusts : ∀ r ∈ s.shared.requests, r.AdjustsWithin
  lock : lockWeight s.shared.locked + (s.threads.map Thread.inside).sum = 0
  balance : s.shared.processing - unanswered s.shared.requests +
    (s.threads.map Thread.uncounted).sum = 0
  bounded : unanswered s.shared.requests ≤ 100
  admits : ∀ t ∈ s.threads, t.Admits (unanswered s.shared.requests)

theorem Thread.inside_nonneg (t : Thread) : 0 ≤ t.inside := by
  cases t <;> simp [Thread.inside]

theorem Thread.uncounted_nonneg (t : Thread) : 0 ≤ t.uncounted := by
  cases t <;> simp [Thread.uncounted]

theorem Thread.uncounted_le_inside (t : Thread) : t.uncounted ≤ t.inside := by
  cases t <;> simp [Thread.uncounted, Thread.inside]

/-- A thread without the lock has loaded nothing. -/
theorem Thread.admits_of_outside {t : Thread} (hinside : t.inside = 0) (n : ℤ) : t.Admits n := by
  cases t with
  | testing => cases hinside
  | sending => cases hinside
  | _ => trivial

/-- Answers make no admission wrong. -/
theorem Thread.Admits.mono {t : Thread} {n n' : ℤ} (hle : n' ≤ n) (hadmits : t.Admits n) :
    t.Admits n' := by
  cases t with
  | testing => exact ⟨fun p hp => hle.trans (hadmits.1 p hp), hadmits.2⟩
  | sending => exact ⟨hle.trans_lt hadmits.1, hadmits.2⟩
  | _ => trivial

/-! ### What the steps conserve -/

theorem unanswered_append (before after : List Request) :
    unanswered (before ++ after) = unanswered before + unanswered after := by
  simp [unanswered]

theorem unanswered_cons (r : Request) (rest : List Request) :
    unanswered (r :: rest) = unanswered [r] + unanswered rest :=
  unanswered_append [r] rest

theorem Move.conserves_lock {s s' : Shared} {t t' : Thread} (hmove : Move s t s' t')
    (hlocked : t.inside = 1 → s.locked = true) :
    lockWeight s'.locked + t'.inside = lockWeight s.locked + t.inside := by
  cases hmove with
  | lock ht hfree =>
      rw [hfree]
      rcases ht with rfl | rfl <;> rfl
  | loadProcessing => rfl
  | loadMaxrequests => rfl
  | pass => rfl
  | block => rw [hlocked rfl]; rfl
  | send => rfl
  | count => rfl
  | unlock => rw [hlocked rfl]; rfl

theorem Move.conserves_balance {s s' : Shared} {t t' : Thread} (hmove : Move s t s' t') :
    s'.processing - unanswered s'.requests + t'.uncounted =
      s.processing - unanswered s.requests + t.uncounted := by
  cases hmove with
  | lock ht =>
      rcases ht with rfl | rfl <;> rfl
  | send =>
      rw [unanswered_append]
      simp only [Thread.uncounted, unanswered, List.count_singleton_self]
      omega
  | count =>
      simp only [Thread.uncounted]
      omega
  | _ => rfl

theorem Called.conserves_balance {c c' : Counters} {r r' : Request} (hcalled : Called c r c' r') :
    c'.processing - unanswered [r'] = c.processing - unanswered [r] := by
  cases hcalled with
  | answer =>
      simp only [unanswered, List.count_singleton_self]
      rw [List.count_singleton]
      simp
  | _ => rfl

/-! ### The thread with the lock -/

section Inside

variable {before after : List Thread} {t : Thread} {locked : Bool}

theorem sum_map_middle (f : Thread → ℤ) :
    ((before ++ t :: after).map f).sum = f t + ((before ++ after).map f).sum := by
  simp only [List.map_append, List.map_cons, List.sum_append, List.sum_cons]
  omega

theorem sum_inside_nonneg (threads : List Thread) : 0 ≤ (threads.map Thread.inside).sum := by
  apply List.sum_nonneg
  intro x hx
  obtain ⟨t, -, rfl⟩ := List.mem_map.mp hx
  exact t.inside_nonneg

variable (hlock : lockWeight locked + ((before ++ t :: after).map Thread.inside).sum = 0)
  (ht : t.inside = 1)

include hlock ht

theorem locked_of_inside : locked = true := by
  rw [sum_map_middle, ht] at hlock
  have hothers := sum_inside_nonneg (before ++ after)
  cases locked with
  | false => exact absurd hlock (by simp only [lockWeight, Bool.false_eq_true, if_false]; omega)
  | true => rfl

/-- No other thread has the lock. -/
theorem others_outside : ∀ u ∈ before ++ after, u.inside = 0 := by
  rw [locked_of_inside hlock ht, sum_map_middle, ht] at hlock
  have hsum : ((before ++ after).map Thread.inside).sum = 0 := by
    simp only [lockWeight, if_true] at hlock
    omega
  intro u hu
  have hle := List.single_le_sum (l := (before ++ after).map Thread.inside)
    (fun x hx => by
      obtain ⟨t, -, rfl⟩ := List.mem_map.mp hx
      exact t.inside_nonneg) u.inside (List.mem_map_of_mem hu)
  have hnonneg := u.inside_nonneg
  omega

/-- Only the thread with the lock may have a request to count. -/
theorem sum_uncounted_eq : ((before ++ t :: after).map Thread.uncounted).sum = t.uncounted := by
  rw [sum_map_middle, List.sum_eq_zero, add_zero]
  intro x hx
  obtain ⟨u, hu, rfl⟩ := List.mem_map.mp hx
  have hinside := others_outside hlock ht u hu
  have hle := u.uncounted_le_inside
  have hnonneg := u.uncounted_nonneg
  omega

end Inside

/-! ### What the steps keep -/

section Keep

variable {s s' : Shared} {t t' : Thread} {c c' : Counters} {r r' : Request}

theorem Move.maxrequests_eq (hmove : Move s t s' t') : s'.maxrequests = s.maxrequests := by
  cases hmove <;> rfl

theorem Move.requests_cases (hmove : Move s t s' t') : s'.requests = s.requests ∨
    ∃ limit, t = .sending limit ∧ s'.requests = s.requests ++ [.inFlight] := by
  cases hmove with
  | send limit => exact .inr ⟨limit, rfl, rfl⟩
  | _ => exact .inl rfl

theorem Move.admits (hmove : Move s t s' t')
    (hcounted : t.inside = 1 → t.uncounted = 0 → unanswered s.requests ≤ s.processing)
    (hlimit : WithinLimits s.maxrequests) (hadmits : t.Admits (unanswered s.requests)) :
    t'.Admits (unanswered s'.requests) := by
  cases hmove with
  | lock => exact ⟨nofun, nofun⟩
  | loadProcessing =>
      refine ⟨fun p hp => ?_, hadmits.2⟩
      cases hp
      exact hcounted rfl rfl
  | loadMaxrequests =>
      refine ⟨hadmits.1, fun m hm => ?_⟩
      cases hm
      exact hlimit
  | pass hlt => exact ⟨(hadmits.1 _ rfl).trans_lt hlt, hadmits.2 _ rfl⟩
  | _ => trivial

theorem Called.limit (hcalled : Called c r c' r') (hlimit : WithinLimits c.maxrequests)
    (hadjusts : r.AdjustsWithin) : WithinLimits c'.maxrequests ∧ r'.AdjustsWithin := by
  cases hcalled with
  | answer => exact ⟨hlimit, trivial⟩
  | keep => exact ⟨hlimit, trivial⟩
  | load => exact ⟨hlimit, hlimit⟩
  | adjust => exact ⟨withinLimits_apply _ hadjusts, trivial⟩
  | retry => exact ⟨hlimit, hlimit⟩

theorem Called.unanswered_le (hcalled : Called c r c' r') : unanswered [r'] ≤ unanswered [r] := by
  cases hcalled <;> simp [unanswered]

end Keep

theorem unanswered_middle (before after : List Request) (r : Request) :
    unanswered (before ++ r :: after) = unanswered [r] + unanswered (before ++ after) := by
  rw [unanswered_append, unanswered_cons, unanswered_append]
  omega

theorem Invariant.thread {s : State} {before after : List Thread} {t t' : Thread} {shared : Shared}
    (hinv : Invariant s) (hthreads : s.threads = before ++ t :: after)
    (hmove : Move s.shared t shared t') : Invariant ⟨shared, before ++ t' :: after⟩ := by
  obtain ⟨hlimit, hadjusts, hlock, hbalance, hbounded, hadmits⟩ := hinv
  rw [hthreads] at hlock hbalance hadmits
  have hself := hadmits t (List.mem_append_right _ List.mem_cons_self)
  constructor
  · rw [hmove.maxrequests_eq]
    exact hlimit
  · rcases hmove.requests_cases with hsame | ⟨limit, -, hsent⟩
    · rw [hsame]
      exact hadjusts
    · rw [hsent]
      exact List.forall_mem_append.mpr ⟨hadjusts, List.forall_mem_singleton.mpr trivial⟩
  · rw [← hlock]
    exact sum_map_shift _ (hmove.conserves_lock (locked_of_inside hlock)) before after
  · rw [← hbalance]
    exact sum_map_shift _ hmove.conserves_balance before after
  · rcases hmove.requests_cases with hsame | ⟨limit, rfl, hsent⟩
    · rw [hsame]
      exact hbounded
    · have hlt := hself.1
      have hle := hself.2.2
      rw [hsent, unanswered_append]
      change _ + (1 : ℤ) ≤ 100
      omega
  · have hcounted : t.inside = 1 → t.uncounted = 0 →
        unanswered s.shared.requests ≤ s.shared.processing := by
      intro hinside huncounted
      rw [sum_uncounted_eq hlock hinside, huncounted] at hbalance
      omega
    have hothers : ∀ u ∈ before ++ after, u.Admits (unanswered shared.requests) := by
      intro u hu
      rcases hmove.requests_cases with hsame | ⟨limit, rfl, -⟩
      · rw [hsame]
        rcases List.mem_append.mp hu with hu | hu
        · exact hadmits u (List.mem_append_left _ hu)
        · exact hadmits u (List.mem_append_right _ (List.mem_cons_of_mem _ hu))
      · exact Thread.admits_of_outside (others_outside hlock rfl u hu) _
    intro u hu
    rcases List.mem_append.mp hu with hu | hu
    · exact hothers u (List.mem_append_left _ hu)
    · rcases List.mem_cons.mp hu with rfl | hu
      · exact hmove.admits hcounted hlimit hself
      · exact hothers u (List.mem_append_right _ hu)

theorem Invariant.called {s : State} {before after : List Request} {r r' : Request}
    {counters : Counters} (hinv : Invariant s)
    (hrequests : s.shared.requests = before ++ r :: after)
    (hcalled : Called s.shared.toCounters r counters r') :
    Invariant { s with shared := { counters with
      locked := s.shared.locked, requests := before ++ r' :: after } } := by
  obtain ⟨hlimit, hadjusts, hlock, hbalance, hbounded, hadmits⟩ := hinv
  rw [hrequests, unanswered_middle] at hbalance hbounded hadmits
  rw [hrequests, List.forall_mem_append, List.forall_mem_cons] at hadjusts
  obtain ⟨hbefore, hself, hafter⟩ := hadjusts
  have hle := hcalled.unanswered_le
  have hconserved := hcalled.conserves_balance
  obtain ⟨hlimit', hself'⟩ := hcalled.limit hlimit hself
  refine ⟨hlimit', ?_, hlock, ?_, ?_, ?_⟩
  · exact List.forall_mem_append.mpr ⟨hbefore, List.forall_mem_cons.mpr ⟨hself', hafter⟩⟩
  · rw [unanswered_middle]
    dsimp only at hconserved ⊢
    omega
  · rw [unanswered_middle]
    omega
  · intro t ht
    rw [unanswered_middle]
    exact (hadmits t ht).mono (by omega)

/-- A woken thread has loaded nothing and has no lock. -/
theorem Invariant.woken {s : State} {before after : List Thread} (hinv : Invariant s)
    (hthreads : s.threads = before ++ .blocked :: after) :
    Invariant { s with threads := before ++ .woken :: after } := by
  obtain ⟨hlimit, hadjusts, hlock, hbalance, hbounded, hadmits⟩ := hinv
  rw [hthreads] at hlock hbalance hadmits
  refine ⟨hlimit, hadjusts, ?_, ?_, hbounded, ?_⟩
  · rw [← hlock]
    apply sum_map_shift
    rfl
  · rw [← hbalance]
    apply sum_map_shift
    rfl
  · intro t ht
    rcases List.mem_append.mp ht with ht | ht
    · exact hadmits t (List.mem_append_left _ ht)
    · rcases List.mem_cons.mp ht with rfl | ht
      · trivial
      · exact hadmits t (List.mem_append_right _ (List.mem_cons_of_mem _ ht))

theorem Invariant.notified {s : State} {before after : List Request} (hinv : Invariant s)
    (hrequests : s.shared.requests = before ++ .notifying :: after) :
    Invariant { s with shared := { s.shared with requests := before ++ .finished :: after } } := by
  obtain ⟨hlimit, hadjusts, hlock, hbalance, hbounded, hadmits⟩ := hinv
  have hsame : unanswered (before ++ .finished :: after) = unanswered s.shared.requests := by
    rw [hrequests, unanswered_middle, unanswered_middle]
    rfl
  rw [hrequests, List.forall_mem_append, List.forall_mem_cons] at hadjusts
  refine ⟨hlimit, ?_, hlock, ?_, ?_, ?_⟩
  · exact List.forall_mem_append.mpr
      ⟨hadjusts.1, List.forall_mem_cons.mpr ⟨trivial, hadjusts.2.2⟩⟩
  · rw [hsame]
    exact hbalance
  · rw [hsame]
    exact hbounded
  · rw [hsame]
    exact hadmits

theorem Invariant.step {s s' : State} {a : Action} (hinv : Invariant s)
    (hstep : step s a = some s') : Invariant s' := by
  cases step_cases hstep with
  | thread i processingFirst hthreads hi hmove => exact hinv.thread hthreads hmove
  | callback j outcome hrequests hcalled => exact hinv.called hrequests hcalled
  | notify j i hrequests hj hnotify =>
      rcases notifyOne_cases hnotify with ⟨-, rfl⟩ | ⟨before, after, hthreads, rfl⟩
      · exact hinv.notified hrequests
      · exact (hinv.notified hrequests).woken hthreads
  | spurious i hthreads => exact hinv.woken hthreads

theorem invariant_start (count : ℕ) : Invariant (start count) := by
  have hlimit : WithinLimits 20 := ⟨by decide, by decide⟩
  refine ⟨hlimit, nofun, ?_, ?_, ?_, ?_⟩
  · simp [start, lockWeight, Thread.inside]
  · simp [start, unanswered, Thread.uncounted]
  · simp [start, unanswered]
  · intro t ht
    rw [List.eq_of_mem_replicate ht]
    trivial

/-- Whatever the threads and callbacks have done, `maxrequests` is within its limits, no more than
100 requests are without an answer, and a thread about to send has fewer of them than the
`maxrequests` it has read. -/
theorem never_flooded (count : ℕ) {actions : List Action} {s : State}
    (hrun : run step (start count) actions = some s) :
    WithinLimits s.shared.maxrequests ∧ unanswered s.shared.requests ≤ 100 ∧
      ∀ limit, .sending limit ∈ s.threads → unanswered s.shared.requests < limit := by
  have hinv := run_invariant (fun _ _ _ => Invariant.step) (invariant_start count) hrun
  exact ⟨hinv.limit, hinv.bounded, fun limit hmem => (hinv.admits _ hmem).1⟩

/-- One of three threads sends 20 requests and a second one blocks. An answer and a timeout are
called back at once, so that the second loop must load the limit again, and the blocked thread is
woken between the two and passes the test. -/
def woken : List Action :=
  List.replicate 140 (.thread 0 true) ++ List.replicate 4 (.thread 1 false) ++
    [.callback 0 (.ok 1), .callback 0 (.ok 1), .callback 1 .timeout, .callback 1 .timeout,
      .callback 0 (.ok 1), .callback 1 .timeout, .notify 0 1, .callback 1 .timeout] ++
    List.replicate 4 (.thread 1 false)

theorem never_flooded_woken :
    WithinLimits 20 ∧
      unanswered ([.finished, .notifying] ++ List.replicate 18 .inFlight) < 20 := by
  have hrun : run step (start 3) woken =
      some ⟨⟨⟨18, 20⟩, true, [.finished, .notifying] ++ List.replicate 18 .inFlight⟩,
        [.outside, .sending 20, .outside]⟩ := by
    decide +kernel
  obtain ⟨hlimit, -, hsending⟩ := never_flooded 3 hrun
  exact ⟨hlimit, hsending 20 (by decide)⟩

end Palmira.Libruseq.Sender
