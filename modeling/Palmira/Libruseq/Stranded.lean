import Palmira.Libruseq.Sender

/-!
# Senders left behind

A callback notifies without the lock, and only one thread. A thread that has tested
the condition before the last callback and blocks after it waits for nothing, and so
does each further thread that is blocked when the last callback notifies.
-/

namespace Palmira.Libruseq.Sender

open StepSystem Threads

/-- No request is in flight and no callback has still to notify. -/
def Quiet (requests : List Request) : Prop := ∀ r ∈ requests, r = .finished

/-- A thread waits for nothing. -/
def Stranded (s : State) : Prop :=
  .blocked ∈ s.threads ∧ s.shared.processing < s.shared.maxrequests ∧ Quiet s.shared.requests

/-- A thread blocks only while a request is not finished, and the last request to finish leaves no
thread blocked besides the one it wakes. -/
def WakesAll (s : State) : Action → Prop
  | .thread i _ => ∀ processing maxrequests,
      s.threads[i]? = some (.testing (some processing) (some maxrequests)) →
      maxrequests ≤ processing → ¬ Quiet s.shared.requests
  | .notify j i => s.shared.requests[j]? = some .notifying → s.threads[i]? = some .blocked →
      Quiet (s.shared.requests.eraseIdx j) → s.threads.count .blocked ≤ 1
  | _ => True

section Quiet

variable {before after : List Request} {r : Request}

theorem quiet_middle_iff :
    Quiet (before ++ r :: after) ↔ r = .finished ∧ Quiet (before ++ after) := by
  simp only [Quiet, List.forall_mem_append, List.forall_mem_cons]
  tauto

theorem unanswered_of_quiet {requests : List Request} (hquiet : Quiet requests) :
    unanswered requests = 0 := by
  have hnone : .inFlight ∉ requests := fun hmem => nomatch hquiet _ hmem
  rw [unanswered, List.count_eq_zero_of_not_mem hnone]
  rfl

/-- Without requests the condition holds. -/
theorem processing_lt_of_quiet {s : State} (hinv : Invariant s)
    (hquiet : Quiet s.shared.requests) : s.shared.processing < s.shared.maxrequests := by
  have hbalance := hinv.balance
  have hlimit := hinv.limit.1
  have hnonneg : 0 ≤ (s.threads.map Thread.uncounted).sum := by
    apply List.sum_nonneg
    intro x hx
    obtain ⟨t, -, rfl⟩ := List.mem_map.mp hx
    exact t.uncounted_nonneg
  rw [unanswered_of_quiet hquiet] at hbalance
  omega

theorem stranded_iff {s : State} (hinv : Invariant s) :
    Stranded s ↔ .blocked ∈ s.threads ∧ Quiet s.shared.requests := by
  constructor
  · exact fun hstranded => ⟨hstranded.1, hstranded.2.2⟩
  · exact fun hboth => ⟨hboth.1, processing_lt_of_quiet hinv hboth.2, hboth.2⟩

end Quiet

/-! ## What each step keeps -/

section Keep

variable {s s' : State}

theorem mem_middle_iff {before after : List Thread} {t : Thread} (ht : t ≠ .blocked) :
    .blocked ∈ before ++ t :: after ↔ .blocked ∈ before ++ after := by
  simp only [List.mem_append, List.mem_cons]
  have hne : Thread.blocked ≠ t := ht.symm
  tauto

theorem not_stranded_thread_iff (hinv : Invariant s) (hgood : ¬ Stranded s) {i : ℕ}
    {processingFirst : Bool} {before after : List Thread} {t t' : Thread} {shared : Shared}
    (hinv' : Invariant ⟨shared, before ++ t' :: after⟩)
    (hthreads : s.threads = before ++ t :: after) (hi : i = before.length)
    (hmove : Move s.shared t shared t') :
    ¬ Stranded ⟨shared, before ++ t' :: after⟩ ↔ WakesAll s (.thread i processingFirst) := by
  have hget : s.threads[i]? = some t := by
    rw [hthreads, hi, List.getElem?_append_right le_rfl, Nat.sub_self]
    rfl
  rw [stranded_iff hinv] at hgood
  rw [stranded_iff hinv']
  simp only [WakesAll, hget, Option.some.injEq]
  -- all other moves leave the blocked threads and the requests as they are
  have hsame : t ≠ .blocked → t' ≠ .blocked → shared.requests = s.shared.requests →
      ¬ (.blocked ∈ before ++ t' :: after ∧ Quiet shared.requests) := by
    intro ht ht' hrequests
    rwa [mem_middle_iff ht', hrequests, ← mem_middle_iff ht, ← hthreads]
  cases hmove with
  | block hle =>
      constructor
      · rintro hnot processing maxrequests heq - hquiet
        exact hnot ⟨List.mem_append_right _ List.mem_cons_self, hquiet⟩
      · intro hnot hboth
        exact hnot _ _ rfl hle hboth.2
  | send limit =>
      refine iff_of_true ?_ nofun
      intro hboth
      exact nomatch hboth.2 .inFlight (List.mem_append_right _ List.mem_cons_self)
  | pass hlt =>
      refine iff_of_true (hsame nofun nofun rfl) ?_
      intro processing maxrequests heq hle
      cases heq
      exact absurd hlt (not_lt.mpr hle)
  | lock ht hfree =>
      rcases ht with rfl | rfl
      · exact iff_of_true (hsame nofun nofun rfl) nofun
      · exact iff_of_true (hsame nofun nofun rfl) nofun
  | loadProcessing => exact iff_of_true (hsame nofun nofun rfl) nofun
  | loadMaxrequests => exact iff_of_true (hsame nofun nofun rfl) nofun
  | count => exact iff_of_true (hsame nofun nofun rfl) nofun
  | unlock => exact iff_of_true (hsame nofun nofun rfl) nofun

/-- A callback is not finished before it has notified. -/
theorem Called.ne_finished {c c' : Counters} {r r' : Request} (hcalled : Called c r c' r') :
    r' ≠ .finished := by
  cases hcalled <;> exact nofun

theorem wake_eq_some {threads threads' : List Thread} {i : ℕ}
    (hwake : wake threads i = some threads') :
    threads[i]? = some .blocked ∧ threads'.count .blocked + 1 = threads.count .blocked := by
  unfold wake at hwake
  split at hwake
  next hget =>
      refine ⟨hget, ?_⟩
      obtain ⟨before, after, hthreads, -, hset⟩ := split_of_getElem? hget
      cases hwake
      rw [hset, hthreads]
      have hwoken : Thread.woken ≠ .blocked := nofun
      simp only [List.count_append, List.count_cons_self, List.count_cons_of_ne hwoken]
      omega
  next => cases hwake

theorem not_stranded_notify_iff {j i : ℕ} {before after : List Request} {threads : List Thread}
    (hinv' : Invariant ⟨{ s.shared with requests := before ++ .finished :: after }, threads⟩)
    (hrequests : s.shared.requests = before ++ .notifying :: after) (hj : j = before.length)
    (hnotify : notifyOne s.threads i = some threads) :
    ¬ Stranded ⟨{ s.shared with requests := before ++ .finished :: after }, threads⟩ ↔
      WakesAll s (.notify j i) := by
  have hget : s.shared.requests[j]? = some .notifying := by
    rw [hrequests, hj, List.getElem?_append_right le_rfl, Nat.sub_self]
    rfl
  have herase : s.shared.requests.eraseIdx j = before ++ after := by
    rw [hrequests, hj, List.eraseIdx_append_of_length_le le_rfl, Nat.sub_self]
    rfl
  rw [stranded_iff hinv', quiet_middle_iff]
  simp only [WakesAll, hget, herase, true_and, forall_const]
  unfold notifyOne at hnotify
  split at hnotify
  next hblocked =>
      obtain ⟨htarget, hcount⟩ := wake_eq_some hnotify
      rw [← List.count_pos_iff (l := threads)]
      simp only [htarget, forall_const]
      constructor
      · intro hnot hquiet
        have hzero : ¬ 0 < threads.count .blocked := fun hpos => hnot ⟨hpos, hquiet⟩
        omega
      · rintro hone ⟨hpos, hquiet⟩
        have hle := hone hquiet
        omega
  next hnone =>
      cases hnotify
      refine iff_of_true (fun hboth => hnone hboth.1) ?_
      intro htarget
      exact absurd (List.mem_of_getElem? htarget) hnone

theorem not_stranded_iff {a : Action} (hinv : Invariant s) (hgood : ¬ Stranded s)
    (hstep : step s a = some s') : ¬ Stranded s' ↔ WakesAll s a := by
  have hinv' := hinv.step hstep
  cases step_cases hstep with
  | thread i processingFirst hthreads hi hmove =>
      exact not_stranded_thread_iff hinv hgood hinv' hthreads hi hmove
  | callback j outcome hrequests hcalled =>
      refine iff_of_true ?_ trivial
      intro hstranded
      exact hcalled.ne_finished (quiet_middle_iff.mp hstranded.2.2).1
  | notify j i hrequests hj hnotify => exact not_stranded_notify_iff hinv' hrequests hj hnotify
  | spurious i hthreads =>
      refine iff_of_true ?_ trivial
      rw [stranded_iff hinv']
      rintro ⟨hblocked, hquiet⟩
      refine hgood ((stranded_iff hinv).mpr ⟨?_, hquiet⟩)
      rw [hthreads]
      exact List.mem_append_right _ List.mem_cons_self

end Keep

theorem wakesAll_of_idle {s : State} {a : Action} (hidle : step s a = none) : WakesAll s a := by
  cases a with
  | thread i processingFirst =>
      intro processing maxrequests hget hle
      simp [step, stepAt, hget, move, not_lt.mpr hle] at hidle
  | notify j i =>
      intro hget htarget
      have hmem : .blocked ∈ s.threads := List.mem_of_getElem? htarget
      simp [step, hget, notifyOne, hmem, wake, htarget] at hidle
  | callback => trivial
  | spurious => trivial

/-- No state of a run has a thread that waits for nothing exactly when in all its steps no thread
blocks after the last callback and the last callback leaves no further thread blocked. -/
theorem never_stranded_iff (count : ℕ) (actions : List Action) :
    Throughout step (fun s => ¬ Stranded s) (start count) actions ↔
      StepsMeet step WakesAll (start count) actions := by
  refine throughout_iff_stepsMeet (fun s a s' => Invariant.step) ?_ ?_ (invariant_start count) ?_
    actions
  · exact fun s a s' hinv hgood hstep => not_stranded_iff hinv hgood hstep
  · exact fun s a => wakesAll_of_idle
  · rintro ⟨hblocked, -⟩
    cases List.eq_of_mem_replicate hblocked

/-! ## A thread behind the last callback -/

/-- One thread sends a request. -/
def sendOne : List Action := List.replicate 7 (.thread 0 true)

/-- A request is called back and notifies. -/
def finishOne (j : ℕ) : List Action := [.callback j .fault, .callback j .fault, .notify j 0]

/-- Twenty requests are sent, the thread tests the condition for one more, all callbacks run, and
the thread blocks. -/
def lateBlock : List Action :=
  (List.replicate 20 sendOne).flatten ++ List.replicate 3 (.thread 0 true) ++
    (List.range 20).flatMap finishOne ++ [.thread 0 true]

theorem blocked_behind_last_callback :
    ¬ ∀ (count : ℕ) (actions : List Action) (s : State),
      run step (start count) actions = some s → ¬ Stranded s := by
  intro hall
  have hrun : run step (start 1) lateBlock =
      some ⟨⟨⟨0, 20⟩, false, List.replicate 20 .finished⟩, [.blocked]⟩ := by
    decide +kernel
  refine hall 1 lateBlock _ hrun ⟨List.mem_singleton_self _, by decide, ?_⟩
  exact fun r hr => List.eq_of_mem_replicate hr

end Palmira.Libruseq.Sender
