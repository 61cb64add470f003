import Palmira.Foundation.Completion
import Palmira.Grpc.Messages
import Palmira.Http.Client

/-!
# Pending requests

The three implementations of `IService::IPending`. Each call holds the object's
mutex, so calls of several threads come one after the other; a wait that goes on
gives the mutex up. `Done` hands its report to the notification function.
-/

namespace Palmira.Service

open Completion StepSystem

/-! ## QuickPending -/

/-- `QuickPending`: constructing it is its completion, so there is no object before. -/
def quickPending : Object (Option Zmap) Zmap Zmap where
  start := none
  done _ z := some (z, some z)
  wait s _ := s.map fun z => (z, s)

/-! ## The HTTP client -/

structure HttpWaiter where
  result : Zmap
  bReady : Bool

/-- `Client::impl::Waiter` of the HTTP client: without a positive timeout a wait has no limit. -/
def httpWaiter : Object HttpWaiter Zmap Zmap where
  start := ⟨[], false⟩
  done _ res := some (res, ⟨res, true⟩)
  wait s timeout :=
    if s.bReady then some (s.result, s)
    else if 0 < timeout then some ([], s)
    else none

/-! ## The gRPC client -/

/-- The message `grpcttp::UpdateReport`. -/
structure UpdateReport where
  status : Option (Int32 × String)
  metadata : Option Grpc.Metadata

/-- `Convert( mtc::zmap& out, grpcttp::UpdateReport& src )` -/
def convertReport (out : Zmap) (src : UpdateReport) : Except Exn Zmap := do
  let out := match src.status with
    | some (code, info) => out.put "status" (.zmap (Http.status code info))
    | none => out
  match src.metadata with
  | some metadata => return out.put "metadata" (.zmap (← Grpc.convertZmap [] metadata))
  | none => return out

/-- What a call of the service ends with: the status, and the response filled in by then. -/
structure Exchange where
  code : Int32
  message : String
  respond : UpdateReport

/-- The exchange went well and its response is the default message. -/
def Exchange.IsEmpty (exchange : Exchange) : Prop :=
  exchange.code = 0 ∧ exchange.respond.status = none ∧ exchange.respond.metadata = none

structure GrpcWaiter where
  zoutmap : Zmap
  isReady : Bool

namespace GrpcWaiter

/-- What `Done` makes of an exchange. -/
def outcome (s : GrpcWaiter) (exchange : Exchange) : Except Exn Zmap :=
  if exchange.code = 0 then convertReport s.zoutmap exchange.respond
  else .ok (Http.statusReport exchange.code exchange.message)

/-- `Done`. A response that `Convert` refuses leaves it by an exception, with the object not
ready. -/
def done (s : GrpcWaiter) (exchange : Exchange) : Except Exn GrpcWaiter := do
  return ⟨← s.outcome exchange, true⟩

/-- `Wait`: a negative number of seconds is no limit. `return std::move( zoutmap )` leaves the
member empty. -/
def wait (s : GrpcWaiter) (seconds : ℚ) : Option (Zmap × GrpcWaiter) :=
  let moved (zoutmap : Zmap) := (zoutmap, { s with zoutmap := [] })
  if s.isReady then some (moved s.zoutmap)
  else if 0 ≤ seconds then some (moved (Http.statusReport Http.ETIMEDOUT "request timed out"))
  else none

theorem done_ready {s s' : GrpcWaiter} {exchange : Exchange} (hdone : s.done exchange = .ok s') :
    s'.isReady = true := by
  obtain ⟨zoutmap, -, rfl⟩ := bind_pure_ok (f := fun zoutmap => GrpcWaiter.mk zoutmap true) hdone
  rfl

end GrpcWaiter

/-- `Client::Waiter` of the gRPC client. -/
def grpcWaiter : Object GrpcWaiter Exchange Zmap where
  start := ⟨[], false⟩
  done s exchange :=
    match s.done exchange with
    | .ok s' => some (s'.zoutmap, s')
    | .error _ => none
  wait := GrpcWaiter.wait

/-! ## What the waits are answered -/

theorem quickPending_keeps {calls : List (Call Zmap)} {h : History (Option Zmap) Zmap}
    (hrun : run quickPending.step quickPending.init calls = some h) : h.Keeps := by
  refine keeps_of_holds (fun s => s = none) (fun report s => s = some report) rfl ?_ ?_ ?_ hrun
  · intro s seconds answer s' hnone hwait
    subst hnone
    cases hwait
  · intro s given report s' _ hdone
    cases hdone
    rfl
  · intro report s seconds answer s' hsome hwait
    subst hsome
    cases hwait
    exact ⟨rfl, rfl⟩

theorem httpWaiter_keeps {calls : List (Call Zmap)} {h : History HttpWaiter Zmap}
    (hrun : run httpWaiter.step httpWaiter.init calls = some h) : h.Keeps := by
  refine keeps_of_holds (fun s => s.bReady = false) (fun report s => s = ⟨report, true⟩) rfl
    ?_ ?_ ?_ hrun
  · intro s timeout answer s' hready hwait
    simp only [httpWaiter, hready, Bool.false_eq_true, if_false] at hwait
    split at hwait
    · cases hwait
      exact hready
    · cases hwait
  · intro s given report s' _ hdone
    cases hdone
    rfl
  · intro report s timeout answer s' hstate hwait
    subst hstate
    cases hwait
    exact ⟨rfl, rfl⟩

/-- What a gRPC waiter holds: nothing before the completion, the report until the first wait behind
it, nothing from then on. -/
structure Consumed (h : History GrpcWaiter Zmap) : Prop where
  before : h.given = none → h.answers = [] ∧ h.state = ⟨[], false⟩
  ready : ∀ report, h.given = some report → h.state.isReady = true
  unclaimed : ∀ report, h.given = some report → h.answers = [] → h.state.zoutmap = report
  claimed : ∀ report, h.given = some report → h.answers ≠ [] →
    h.state.zoutmap = [] ∧ ∃ n, h.answers = List.replicate n [] ++ [report]

theorem consumed_init : Consumed grpcWaiter.init where
  before _ := ⟨rfl, rfl⟩
  ready _ hgiven := by cases hgiven
  unclaimed _ hgiven := by cases hgiven
  claimed _ hgiven := by cases hgiven

theorem consumed_step {h h' : History GrpcWaiter Zmap} {call : Call Exchange}
    (hinv : Consumed h) (hstep : grpcWaiter.step h call = some h') : Consumed h' := by
  cases Object.step_cases hstep with
  | done exchange report state hopen hdone =>
      simp only [grpcWaiter] at hdone
      split at hdone
      next s' hok =>
        cases hdone
        exact ⟨fun hnone => absurd hnone (Option.some_ne_none _),
          fun _ _ => GrpcWaiter.done_ready hok,
          fun _ hgiven _ => Option.some.inj hgiven, fun _ _ hne => absurd rfl hne⟩
      next => cases hdone
  | early seconds answer state hopen hwait =>
      obtain ⟨hnil, hstate⟩ := hinv.before hopen
      -- a wait that times out moves the empty map out of itself
      have hsame : state = ⟨[], false⟩ := by
        simp only [grpcWaiter, GrpcWaiter.wait, hstate, Bool.false_eq_true, if_false] at hwait
        split at hwait
        · cases hwait
          rfl
        · cases hwait
      refine ⟨fun _ => ⟨hnil, hsame⟩, ?_, ?_, ?_⟩ <;>
        exact fun report hgiven => absurd hgiven (by simp [hopen])
  | answer seconds answer report state hgiven hwait =>
      have hready := hinv.ready report hgiven
      simp only [grpcWaiter, GrpcWaiter.wait, hready, if_true] at hwait
      cases hwait
      refine ⟨fun hopen => absurd hopen (by simp [hgiven]), fun _ _ => rfl,
        fun _ _ hnil => absurd hnil (List.cons_ne_nil _ _), ?_⟩
      intro report' hgiven' _
      obtain rfl : report = report' := Option.some.inj (hgiven.symm.trans hgiven')
      refine ⟨rfl, ?_⟩
      -- the first wait takes the report, every later one finds the map empty
      by_cases hnil : h.answers = []
      · rw [hnil, hinv.unclaimed report hgiven hnil]
        exact ⟨0, rfl⟩
      · obtain ⟨hempty, n, hanswers⟩ := hinv.claimed report hgiven hnil
        rw [hempty, hanswers]
        exact ⟨n + 1, rfl⟩

theorem consumed_of_run {calls : List (Call Exchange)} {h : History GrpcWaiter Zmap}
    (hrun : run grpcWaiter.step grpcWaiter.init calls = some h) : Consumed h :=
  run_invariant (fun _ _ _ hinv hstep => consumed_step hinv hstep) consumed_init hrun

theorem keeps_iff_of_consumed {h : History GrpcWaiter Zmap} (hinv : Consumed h) :
    h.Keeps ↔ h.answers.length ≤ 1 ∨ h.given = some [] := by
  cases hgiven : h.given with
  | none =>
      obtain ⟨hnil, -⟩ := hinv.before hgiven
      simp [History.Keeps, hnil]
  | some report =>
      by_cases hnil : h.answers = []
      · simp [History.Keeps, hnil]
      · obtain ⟨-, n, hanswers⟩ := hinv.claimed report hgiven hnil
        cases n with
        | zero => simp [History.Keeps, hanswers, hgiven]
        | succ n =>
            have hlong : ¬ h.answers.length ≤ 1 := by simp [hanswers]
            simp only [hlong, false_or, Option.some.injEq]
            constructor
            · intro hkeeps
              have hfirst := hkeeps [] (by simp [hanswers])
              rw [hgiven] at hfirst
              exact Option.some.inj hfirst
            · intro hempty answer hanswer
              rw [hgiven]
              simp only [hanswers, hempty, List.mem_append, List.mem_replicate,
                List.mem_singleton] at hanswer
              rcases hanswer with ⟨-, rfl⟩ | rfl <;> rw [hempty]

theorem convertReport_eq_nil_iff (src : UpdateReport) :
    convertReport [] src = .ok [] ↔ src.status = none ∧ src.metadata = none := by
  obtain ⟨status, metadata⟩ := src
  cases metadata with
  | none =>
      cases status with
      | none => exact iff_of_true rfl ⟨rfl, rfl⟩
      | some status =>
          refine iff_of_false (fun hok => ?_) (fun hnone => by cases hnone.1)
          exact absurd (Except.ok.inj hok) (Zmap.put_ne_nil _ _ _)
  | some metadata =>
      refine iff_of_false (fun hok => ?_) (fun hnone => by cases hnone.2)
      obtain ⟨fields, -, hnil⟩ :=
        bind_pure_ok (f := fun fields => Zmap.put _ "metadata" (.zmap fields)) hok
      exact absurd hnil.symm (Zmap.put_ne_nil _ _ _)

/-- A report is empty only for the default response of an exchange that went well. -/
theorem outcome_eq_nil_iff (exchange : Exchange) :
    GrpcWaiter.outcome ⟨[], false⟩ exchange = .ok [] ↔ exchange.IsEmpty := by
  unfold GrpcWaiter.outcome Exchange.IsEmpty
  split
  next hcode => simp only [convertReport_eq_nil_iff, hcode, true_and]
  next hcode =>
    refine iff_of_false (fun hok => ?_) (fun hempty => hcode hempty.1)
    exact absurd (Except.ok.inj hok) (Zmap.put_ne_nil _ _ _)

/-- The report of a gRPC waiter is the one its exchange gives. -/
theorem given_eq_nil_iff {calls : List (Call Exchange)} {h : History GrpcWaiter Zmap}
    (hrun : run grpcWaiter.step grpcWaiter.init calls = some h) :
    h.given = none ∨
      (h.given = some [] ↔ ∀ exchange, .done exchange ∈ calls → exchange.IsEmpty) := by
  have hearly : ∀ s seconds answer s', s = ⟨[], false⟩ →
      grpcWaiter.wait s seconds = some (answer, s') → s' = ⟨[], false⟩ := by
    intro s seconds answer s' hs hwait
    simp only [grpcWaiter, GrpcWaiter.wait, hs, Bool.false_eq_true, if_false] at hwait
    split at hwait
    · cases hwait
      rfl
    · cases hwait
  rcases exists_done hearly hrun rfl rfl with
    ⟨hnone, -⟩ | ⟨exchange, s, report, s', rfl, hdone, hgiven, hmem⟩
  · exact .inl hnone
  right
  simp only [grpcWaiter] at hdone
  split at hdone
  next state hok =>
    cases hdone
    obtain ⟨zoutmap, houtcome, rfl⟩ :=
      bind_pure_ok (f := fun zoutmap => GrpcWaiter.mk zoutmap true) hok
    -- the map given is what the exchange makes of an empty one
    have hempty : zoutmap = [] ↔ exchange.IsEmpty := by
      rw [← outcome_eq_nil_iff, houtcome, Except.ok.injEq]
    simp only [hgiven, Option.some.injEq, hmem, forall_eq, hempty]
  next => cases hdone

/-- Every wait behind the completion gets the report of a `QuickPending` and of an HTTP waiter; it
does of a gRPC waiter exactly when it is the only one, or the report is empty. -/
theorem pending_keeps (reports : List (Call Zmap)) (calls : List (Call Exchange)) :
    (∀ h, run quickPending.step quickPending.init reports = some h → h.Keeps) ∧
    (∀ h, run httpWaiter.step httpWaiter.init reports = some h → h.Keeps) ∧
    (∀ h, run grpcWaiter.step grpcWaiter.init calls = some h →
      (h.Keeps ↔ waitsAfterDone calls ≤ 1 ∨
        ∀ exchange, .done exchange ∈ calls → exchange.IsEmpty)) := by
  refine ⟨fun _ => quickPending_keeps, fun _ => httpWaiter_keeps, ?_⟩
  intro h hrun
  have hinv := consumed_of_run hrun
  rw [keeps_iff_of_consumed hinv, answers_length hrun rfl rfl]
  rcases given_eq_nil_iff hrun with hnone | hiff
  · have hzero : waitsAfterDone calls ≤ 1 := by
      rw [← answers_length hrun rfl rfl, (hinv.before hnone).1]
      exact Nat.zero_le 1
    exact iff_of_true (.inl hzero) (.inl hzero)
  · rw [hiff]

/-- A wait that gives up, the completion with an `OK`, a wait. -/
def oneClaim : List (Call Exchange) :=
  [.wait 0, .done ⟨0, "", ⟨some (0, "OK"), none⟩⟩, .wait (-1)]

theorem pending_keeps_oneClaim :
    (∃ h, run quickPending.step quickPending.init [.done [], .wait 1] = some h ∧ h.Keeps) ∧
    (∃ h, run httpWaiter.step httpWaiter.init [.done [], .wait 0] = some h ∧ h.Keeps) ∧
    ∃ h, run grpcWaiter.step grpcWaiter.init oneClaim = some h ∧ (h.Keeps ↔
      waitsAfterDone oneClaim ≤ 1 ∨ ∀ exchange, .done exchange ∈ oneClaim → exchange.IsEmpty) :=
  ⟨⟨_, rfl, (pending_keeps [.done [], .wait 1] oneClaim).1 _ rfl⟩,
    ⟨_, rfl, (pending_keeps [.done [], .wait 0] oneClaim).2.1 _ rfl⟩,
    ⟨_, rfl, (pending_keeps [] oneClaim).2.2 _ rfl⟩⟩

/-- The second wait behind the completion gets an empty map. -/
theorem grpc_second_wait_empty :
    ∃ h, run grpcWaiter.step grpcWaiter.init (oneClaim ++ [.wait (-1)]) = some h ∧ ¬ h.Keeps := by
  refine ⟨_, rfl, ?_⟩
  intro hkeeps
  have hgiven := hkeeps [] List.mem_cons_self
  exact Zmap.put_ne_nil [] "status" _ (Option.some.inj hgiven)

end Palmira.Service
