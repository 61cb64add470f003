import Palmira.Foundation.StepSystem
import Palmira.Foundation.Threads

/-!
# The shared client

`Client::SetAddress( host, port )` creates the one `http::Client` of the process on
first use. A thread that finds `globalClient` null puts a marker into its low bit;
the one whose compare-exchange succeeds creates the object and stores its pointer,
the others compare until they see it. Any number of threads run it at once.
-/

namespace Palmira.Http.SharedClient

/-- `mtc::ptr::clean`: the pointer without its low bit. -/
def clean (p : ℕ) : ℕ := p / 2 * 2

/-- `mtc::ptr::dirty`: the pointer with its low bit set. -/
def dirty (p : ℕ) : ℕ := p / 2 * 2 + 1

/-- What `new http::Client` may return: an aligned pointer that is not null. -/
structure Pointer where
  address : ℕ
  nonnull : address ≠ 0
  aligned : address % 2 = 0

theorem Pointer.clean_eq (p : Pointer) : clean p.address = p.address :=
  Nat.div_mul_cancel (Nat.dvd_of_mod_eq_zero p.aligned)

/-- `globalClient`, and the addresses of the clients constructed so far. -/
structure Shared where
  globalClient : ℕ
  constructed : List ℕ

/-- Where a thread is in `SetAddress`, with its local `global`. -/
inductive Phase where
  | load
  | whileNull (global : ℕ)
  | ifNull (global : ℕ)
  | storing (global : ℕ)
  | getChannel (global : ℕ)

/-- One atomic operation, or a step of the thread alone. `allocate` gives the address of each new
object; a thread at `getChannel` has passed the initialization. -/
def move (allocate : ℕ → Pointer) (s : Shared) : Phase → Option (Shared × Phase)
  -- auto global = clean( globalClient.load() )
  | .load => some (s, .whileNull (clean s.globalClient))
  | .whileNull global =>
      if global ≠ 0 then some (s, .ifNull global)
      -- compare_exchange_strong( global, dirty( global ) )
      else if s.globalClient = global then
        some ({ s with globalClient := dirty global }, .ifNull global)
      else some (s, .whileNull (clean s.globalClient))
  | .ifNull global =>
      if global = 0 then
        let client := (allocate s.constructed.length).address
        some ({ s with constructed := s.constructed ++ [client] }, .storing client)
      else some (s, .getChannel global)
  | .storing global => some ({ s with globalClient := global }, .getChannel global)
  | .getChannel _ => none

/-- The thread in this place makes its next step. -/
def step (allocate : ℕ → Pointer) (s : Shared × List Phase) (i : ℕ) :
    Option (Shared × List Phase) :=
  Threads.stepAt (move allocate) s.1 s.2 i

/-- No client yet, and this many threads about to run. -/
def start (count : ℕ) : Shared × List Phase := (⟨0, []⟩, List.replicate count .load)

/-! ## The invariant -/

/-- A thread that has seen no client. -/
def Phase.Waiting (t : Phase) : Prop := t = .load ∨ t = .whileNull 0

/-- A thread that has seen this client. -/
def Phase.Holds (p : ℕ) (t : Phase) : Prop :=
  t = .whileNull p ∨ t = .ifNull p ∨ t = .getChannel p

/-- Nobody has won, one thread has won and is yet to create the client, it has created and not
stored it, or the client is there for all. -/
inductive Created : Shared × List Phase → Prop where
  | fresh {threads : List Phase} (hthreads : ∀ t ∈ threads, t.Waiting) : Created (⟨0, []⟩, threads)
  | won {before after : List Phase} (hothers : ∀ t ∈ before ++ after, t.Waiting) :
      Created (⟨dirty 0, []⟩, before ++ .ifNull 0 :: after)
  | built {before after : List Phase} (p : Pointer) (hothers : ∀ t ∈ before ++ after, t.Waiting) :
      Created (⟨dirty 0, [p.address]⟩, before ++ .storing p.address :: after)
  | published {threads : List Phase} (p : Pointer)
      (hthreads : ∀ t ∈ threads, t.Waiting ∨ t.Holds p.address) :
      Created (⟨p.address, [p.address]⟩, threads)

variable {allocate : ℕ → Pointer}

/-- Under the marker a waiting thread goes on waiting. -/
theorem move_waiting_marked {s s' : Shared} {t t' : Phase} (hmarked : s.globalClient = dirty 0)
    (ht : t.Waiting) (hmove : move allocate s t = some (s', t')) : s' = s ∧ t'.Waiting := by
  rcases ht with rfl | rfl
  · obtain ⟨rfl, rfl⟩ := Prod.mk.inj (Option.some.inj hmove)
    exact ⟨rfl, .inr (by rw [hmarked]; rfl)⟩
  · have hlost : s.globalClient ≠ 0 := by
      rw [hmarked]
      decide
    rw [move, if_neg (not_not_intro rfl), if_neg hlost] at hmove
    obtain ⟨rfl, rfl⟩ := Prod.mk.inj (Option.some.inj hmove)
    exact ⟨rfl, .inr (by rw [hmarked]; rfl)⟩

/-- Once the client is there a thread comes to hold it, whatever it has seen before. -/
theorem move_published {s s' : Shared} {t t' : Phase} (p : Pointer)
    (hclient : s.globalClient = p.address) (ht : t.Waiting ∨ t.Holds p.address)
    (hmove : move allocate s t = some (s', t')) : s' = s ∧ t'.Holds p.address := by
  have hnonnull := p.nonnull
  rcases ht with (rfl | rfl) | rfl | rfl | rfl
  · obtain ⟨rfl, rfl⟩ := Prod.mk.inj (Option.some.inj hmove)
    exact ⟨rfl, .inl (by rw [hclient, p.clean_eq])⟩
  · have hlost : s.globalClient ≠ 0 := hclient ▸ hnonnull
    rw [move, if_neg (not_not_intro rfl), if_neg hlost] at hmove
    obtain ⟨rfl, rfl⟩ := Prod.mk.inj (Option.some.inj hmove)
    exact ⟨rfl, .inl (by rw [hclient, p.clean_eq])⟩
  · rw [move, if_pos hnonnull] at hmove
    obtain ⟨rfl, rfl⟩ := Prod.mk.inj (Option.some.inj hmove)
    exact ⟨rfl, .inr (.inl rfl)⟩
  · rw [move, if_neg hnonnull] at hmove
    obtain ⟨rfl, rfl⟩ := Prod.mk.inj (Option.some.inj hmove)
    exact ⟨rfl, .inr (.inr rfl)⟩
  · cases hmove

theorem created_start (count : ℕ) : Created (start count) := by
  apply Created.fresh
  intro t hmem
  exact .inl (List.eq_of_mem_replicate hmem)

section Step

variable {shared' : Shared} {before after before' after' : List Phase} {owner t t' : Phase}
  {constructed : List ℕ}

theorem mem_of_mem_others {u : Phase} (hu : u ∈ before ++ after) : u ∈ before ++ t :: after := by
  simp only [List.mem_append, List.mem_cons] at hu ⊢
  tauto

/-- Of the threads that see null one wins. -/
theorem created_of_fresh (hwaiting : ∀ u ∈ before ++ t :: after, u.Waiting)
    (hmove : move allocate ⟨0, []⟩ t = some (shared', t')) :
    Created (shared', before ++ t' :: after) := by
  have hothers : ∀ u ∈ before ++ after, u.Waiting := fun u hu => hwaiting u (mem_of_mem_others hu)
  rcases hwaiting t (by simp) with rfl | rfl
  · obtain ⟨rfl, rfl⟩ := Prod.mk.inj (Option.some.inj hmove)
    apply Created.fresh
    intro u hu
    rcases List.mem_append.mp hu with hbefore | hrest
    · exact hothers u (List.mem_append_left _ hbefore)
    · rcases List.mem_cons.mp hrest with rfl | hafter
      · exact .inr rfl
      · exact hothers u (List.mem_append_right _ hafter)
  · obtain ⟨rfl, rfl⟩ := Prod.mk.inj (Option.some.inj hmove)
    exact .won hothers

/-- While one thread is creating the client the others change nothing. -/
theorem created_of_other
    (hcreated : ∀ first last, (∀ u ∈ first ++ last, u.Waiting) →
      Created (⟨dirty 0, constructed⟩, first ++ owner :: last))
    (hothers : ∀ u ∈ before ++ after, u.Waiting) (hmem : t ∈ before ++ after)
    (hsplit : ∃ first last, before' ++ t' :: after' = first ++ owner :: last ∧
      ∀ u ∈ first ++ last, u = t' ∨ u ∈ before ++ after)
    (hmove : move allocate ⟨dirty 0, constructed⟩ t = some (shared', t')) :
    Created (shared', before' ++ t' :: after') := by
  obtain ⟨rfl, hwaiting⟩ := move_waiting_marked rfl (hothers t hmem) hmove
  obtain ⟨first, last, heq, hrest⟩ := hsplit
  rw [heq]
  apply hcreated
  intro u hu
  rcases hrest u hu with rfl | hold
  · exact hwaiting
  · exact hothers u hold

theorem created_step (s : Shared × List Phase) (i : ℕ) (s' : Shared × List Phase)
    (hs : Created s) (hstep : step allocate s i = some s') : Created s' := by
  obtain ⟨shared, threads⟩ := s
  obtain ⟨shared', threads'⟩ := s'
  obtain ⟨before', t, t', after', hthreads, rfl, hmove⟩ := Threads.stepAt_cases hstep
  simp only at hthreads hmove
  cases hs with
  | fresh hwaiting => exact created_of_fresh (hthreads ▸ hwaiting) hmove
  | won hothers =>
      rcases Threads.owner_or_other hthreads with ⟨rfl, rfl, rfl⟩ | ⟨hmem, hsplit⟩
      · obtain ⟨rfl, rfl⟩ := Prod.mk.inj (Option.some.inj hmove)
        exact .built (allocate 0) hothers
      · exact created_of_other (fun _ _ => .won) hothers hmem (hsplit t') hmove
  | built p hothers =>
      rcases Threads.owner_or_other hthreads with ⟨rfl, rfl, rfl⟩ | ⟨hmem, hsplit⟩
      · obtain ⟨rfl, rfl⟩ := Prod.mk.inj (Option.some.inj hmove)
        apply Created.published p
        intro u hu
        rcases List.mem_append.mp hu with hbefore | hrest
        · exact .inl (hothers u (List.mem_append_left _ hbefore))
        · rcases List.mem_cons.mp hrest with rfl | hafter
          · exact .inr (.inr (.inr rfl))
          · exact .inl (hothers u (List.mem_append_right _ hafter))
      · exact created_of_other (fun _ _ => .built p) hothers hmem (hsplit t') hmove
  | published p hall =>
      subst hthreads
      obtain ⟨rfl, hholds⟩ := move_published p rfl (hall t (by simp)) hmove
      apply Created.published p
      intro u hu
      rcases List.mem_append.mp hu with hbefore | hrest
      · exact hall u (List.mem_append_left _ hbefore)
      · rcases List.mem_cons.mp hrest with rfl | hafter
        · exact .inr hholds
        · exact hall u (mem_of_mem_others (List.mem_append_right _ hafter))

end Step

/-! ## One client -/

theorem Created.constructed_le {s : Shared × List Phase} (hs : Created s) :
    s.1.constructed.length ≤ 1 := by
  cases hs with
  | fresh => exact Nat.zero_le 1
  | won => exact Nat.zero_le 1
  | built => exact Nat.le_refl 1
  | published => exact Nat.le_refl 1

/-- A thread past the initialization has the pointer of the one client. -/
theorem Created.getChannel {s : Shared × List Phase} (hs : Created s) {global : ℕ}
    (hmem : Phase.getChannel global ∈ s.2) :
    s.1.constructed = [global] ∧ s.1.globalClient = global ∧ global ≠ 0 ∧ global ≠ dirty 0 := by
  have hnot : ¬ (Phase.getChannel global).Waiting := by
    intro hwaiting
    rcases hwaiting with h | h <;> cases h
  cases hs with
  | fresh hwaiting => exact absurd (hwaiting _ hmem) hnot
  | won hothers =>
      refine absurd (hothers _ ?_) hnot
      simp only [List.mem_append, List.mem_cons, reduceCtorEq, false_or] at hmem ⊢
      exact hmem
  | built p hothers =>
      refine absurd (hothers _ ?_) hnot
      simp only [List.mem_append, List.mem_cons, reduceCtorEq, false_or] at hmem ⊢
      exact hmem
  | published p hall =>
      have hglobal : global = p.address := by
        rcases hall _ hmem with hwaiting | h | h | h
        · exact absurd hwaiting hnot
        · cases h
        · cases h
        · exact Phase.getChannel.inj h
      subst hglobal
      refine ⟨rfl, rfl, p.nonnull, fun hdirty => ?_⟩
      have haligned := p.aligned
      rw [hdirty] at haligned
      cases haligned

/-- In every state that any number of threads reach in any order at most one client has been
constructed, and a thread past the initialization uses its pointer, neither null nor the marker. -/
theorem client_created_once {count : ℕ} {actions : List ℕ} {s : Shared × List Phase}
    (hrun : StepSystem.run (step allocate) (start count) actions = some s) :
    s.1.constructed.length ≤ 1 ∧
      ∀ global, Phase.getChannel global ∈ s.2 →
        s.1.constructed = [global] ∧ global ≠ 0 ∧ global ≠ dirty 0 := by
  have hs : Created s := StepSystem.run_invariant created_step (created_start count) hrun
  refine ⟨hs.constructed_le, fun global hmem => ?_⟩
  obtain ⟨hconstructed, -, hnull, hmarker⟩ := hs.getChannel hmem
  exact ⟨hconstructed, hnull, hmarker⟩

/-- Objects of 16 bytes, one after the other. -/
def sequential (index : ℕ) : Pointer where
  address := 16 * (index + 1)
  nonnull := by omega
  aligned := by omega

/-- The second of two threads loses the exchange and compares until the client is stored. -/
def twoThreads : List ℕ := [0, 1, 0, 1, 0, 1, 0, 1, 1, 1]

theorem client_created_once_twoThreads :
    StepSystem.run (step sequential) (start 2) twoThreads =
      some (⟨16, [16]⟩, [.getChannel 16, .getChannel 16]) ∧
    [16].length ≤ 1 ∧ ([16] = [16] ∧ 16 ≠ 0 ∧ 16 ≠ dirty 0) := by
  have hrun : StepSystem.run (step sequential) (start 2) twoThreads =
      some (⟨16, [16]⟩, [.getChannel 16, .getChannel 16]) := rfl
  obtain ⟨hone, hpassed⟩ := client_created_once hrun
  exact ⟨hrun, hone, hpassed 16 List.mem_cons_self⟩

end Palmira.Http.SharedClient
