import Palmira.Core.Zval
import Palmira.Http.Unpack

/-!
# The client's callback

What runs when a response is in: `LoadReport` makes a report of it, and `Action`
hands the report, or one of its own, to the waiter.
-/

namespace Palmira.Http

/-- `http::ExecStatus`; `other` is whatever else the `default` label takes. -/
inductive ExecStatus where
  | ok
  | failed
  | invalid
  | timedOut
  | other
  deriving DecidableEq

/-- How `mtc::json::Parse` leaves: with a map, by `parse::error`, by another exception. -/
inductive Parsed where
  | value (out : Zmap)
  | parseError (what : String)
  | thrown (e : Exn)

/-- What the client uses of `mtc`, and the notification function the caller gave. -/
structure ClientEnv where
  zlib : Zlib
  avail₀ : ℕ
  parse : Bytes → Parsed
  fetchFrom : Bytes → Except Exn Zmap
  notify : Zmap → Option Exn

/-- `palmira::Status( err, msg )` -/
def status (err : Int32) (msg : String) : Zmap :=
  (Zmap.put [] "code" (.int32 err)).put "info" (.charstr msg)

/-- `palmira::StatusReport( err, msg )` -/
def statusReport (err : Int32) (msg : String) : Zmap :=
  Zmap.put [] "status" (.zmap (status err msg))

def EFAULT : Int32 := 14

def ETIMEDOUT : Int32 := 110

/-- `Inflate( const http::Message& msg, mtc::IByteStream* src )`: the bytes of the stream it
returns and the bytes left in `src`. Without an encoding these are one stream. -/
def inflateMessage (env : ClientEnv) (fuel : ℕ) (msg : Message) (src : Bytes) :
    Option (Except Exn (Bytes × Bytes)) :=
  let method := msg.get "Content-Encoding"
  if method = "" then some (.ok (src, src))
  else if method = "deflate" then
    (inflate env.zlib env.avail₀ fuel (some src)).map (fun unpacked => do return (← unpacked, []))
  else some (.error (.invalidArgument ("Content-Encoding=" ++ method ++ " not supported")))

/-- The choice of a parser by `Content-Type`. The binary form is read from `stm`, not from what
`Inflate` made of it. -/
def parseReport (env : ClientEnv) (res : Message) (src stm : Bytes) : Except Exn Zmap :=
  if startsWith (res.get "Content-Type") 16 "application/json" then
    match env.parse src with
    | .value out => .ok out
    | .parseError _ => .ok (statusReport EFAULT "Could not parse the report")
    | .thrown e => .error e
  else if startsWith (res.get "Content-Type") 24 "application/octet-stream" then env.fetchFrom stm
  else .error (.invalidArgument "Unexpected content-type")

/-- `Client::impl::Action::LoadReport` -/
def loadReport (env : ClientEnv) (fuel : ℕ) (res : Message) (stm : Option Bytes) :
    Option (Except Exn Zmap) :=
  match stm with
  | none => some (.ok [])
  | some body =>
      (inflateMessage env fuel res body).map
        (fun streams => streams.bind (fun (src, rest) => parseReport env res src rest))

/-- What a call of the callback has done: its calls of `waiter->Done` in order, and the exception
it was left by. -/
structure Outcome where
  done : List Zmap
  thrown : Option Exn

/-- `waiter->Done( res )`: `notify` runs inside it. -/
def done (env : ClientEnv) (report : Zmap) : Outcome := ⟨[report], env.notify report⟩

/-- `Client::impl::Action::operator()`. `WashStream` comes behind `Done` and only empties what is
left of the stream. -/
def action (env : ClientEnv) (fuel : ℕ) (status : ExecStatus) (res : Message)
    (stm : Option Bytes) : Option Outcome :=
  match status with
  | .ok =>
      match loadReport env fuel res stm with
      | none => none
      | some (.ok report) => some (done env report)
      | some (.error e) => some ⟨[], some e⟩
  | .failed => some (done env (statusReport EFAULT "network exchange error"))
  | .invalid => some (done env (statusReport EFAULT "network exchange error"))
  | .timedOut => some (done env (statusReport ETIMEDOUT "request timed out"))
  | .other => some (done env (statusReport ETIMEDOUT "request timed out"))

/-! ## When a request completes -/

/-- The callback ends after exactly one call of `Done`. -/
def Completes (env : ClientEnv) (status : ExecStatus) (res : Message) (stm : Option Bytes) : Prop :=
  ∃ fuel outcome, action env fuel status res stm = some outcome ∧ outcome.done.length = 1

/-- The content encoding is known, and unpacking gives these streams. -/
def Unpacks (env : ClientEnv) (res : Message) (body src rest : Bytes) : Prop :=
  (res.get "Content-Encoding" = "" ∧ src = body ∧ rest = body) ∨
  (res.get "Content-Encoding" = "deflate" ∧ rest = [] ∧
    ∃ fuel, inflate env.zlib env.avail₀ fuel (some body) = some (.ok src))

/-- The content type is known, and its parser raises nothing but `parse::error`. -/
def Parses (env : ClientEnv) (res : Message) (src rest : Bytes) : Prop :=
  (startsWith (res.get "Content-Type") 16 "application/json" = true ∧
    ∀ e, env.parse src ≠ .thrown e) ∨
  (startsWith (res.get "Content-Type") 16 "application/json" = false ∧
    startsWith (res.get "Content-Type") 24 "application/octet-stream" = true ∧
    ∀ e, env.fetchFrom rest ≠ .error e)

theorem parseReport_ok_iff (env : ClientEnv) (res : Message) (src rest : Bytes) :
    (∃ report, parseReport env res src rest = .ok report) ↔ Parses env res src rest := by
  unfold parseReport Parses
  by_cases hjson : startsWith (res.get "Content-Type") 16 "application/json" = true
  · rw [if_pos hjson]
    cases hparse : env.parse src with
    | value out => simp [hjson]
    | parseError what => simp [hjson]
    | thrown e => simp [hjson]
  · rw [if_neg hjson]
    by_cases hdump : startsWith (res.get "Content-Type") 24 "application/octet-stream" = true
    · rw [if_pos hdump]
      cases hfetch : env.fetchFrom rest with
      | ok out => simp [hjson, hdump]
      | error e => simp [hjson, hdump]
    · simp [hjson, hdump]

theorem inflateMessage_ok_iff (env : ClientEnv) (res : Message) (body src rest : Bytes) :
    (∃ fuel, inflateMessage env fuel res body = some (.ok (src, rest))) ↔
      Unpacks env res body src rest := by
  unfold inflateMessage Unpacks
  by_cases hplain : res.get "Content-Encoding" = ""
  · -- an absent header: the body is the source itself
    simp only [if_pos hplain]
    constructor
    · rintro ⟨-, hok⟩
      cases hok
      exact .inl ⟨hplain, rfl, rfl⟩
    · rintro (⟨-, rfl, rfl⟩ | ⟨hdeflate, -⟩)
      · exact ⟨0, rfl⟩
      · rw [hplain] at hdeflate
        exact absurd hdeflate (by decide)
  · by_cases hdeflate : res.get "Content-Encoding" = "deflate"
    · simp only [if_neg hplain, if_pos hdeflate, Option.map_eq_some_iff]
      constructor
      · rintro ⟨fuel, result, hrun, hok⟩
        cases result with
        | error e => cases hok
        | ok unpacked =>
            cases hok
            exact .inr ⟨hdeflate, rfl, fuel, hrun⟩
      · rintro (⟨habsent, -⟩ | ⟨-, rfl, fuel, hrun⟩)
        · exact absurd habsent hplain
        · exact ⟨fuel, .ok src, hrun, rfl⟩
    · -- any other encoding is refused
      simp only [if_neg hplain, if_neg hdeflate]
      constructor
      · rintro ⟨-, hok⟩
        cases hok
      · rintro (⟨habsent, -⟩ | ⟨hknown, -⟩)
        · exact absurd habsent hplain
        · exact absurd hknown hdeflate

theorem loadReport_some_ok_iff (env : ClientEnv) (res : Message) (body : Bytes) :
    (∃ fuel report, loadReport env fuel res (some body) = some (.ok report)) ↔
      ∃ src rest, Unpacks env res body src rest ∧ Parses env res src rest := by
  constructor
  · rintro ⟨fuel, report, hload⟩
    simp only [loadReport, Option.map_eq_some_iff] at hload
    obtain ⟨streams, hinflate, hparse⟩ := hload
    cases streams with
    | error e => cases hparse
    | ok streams =>
        obtain ⟨src, rest⟩ := streams
        exact ⟨src, rest, (inflateMessage_ok_iff env res body src rest).mp ⟨fuel, hinflate⟩,
          (parseReport_ok_iff env res src rest).mp ⟨report, hparse⟩⟩
  · rintro ⟨src, rest, hunpacks, hparses⟩
    obtain ⟨fuel, hinflate⟩ := (inflateMessage_ok_iff env res body src rest).mpr hunpacks
    obtain ⟨report, hparse⟩ := (parseReport_ok_iff env res src rest).mpr hparses
    refine ⟨fuel, report, ?_⟩
    simp only [loadReport, hinflate]
    exact congrArg some hparse

/-- With the exchange itself a success, the callback completes when the report loads. -/
theorem completes_ok_iff (env : ClientEnv) (res : Message) (stm : Option Bytes) :
    Completes env .ok res stm ↔
      ∃ fuel report, loadReport env fuel res stm = some (.ok report) := by
  constructor
  · rintro ⟨fuel, outcome, haction, hone⟩
    refine ⟨fuel, ?_⟩
    simp only [action] at haction
    cases hload : loadReport env fuel res stm with
    | none =>
        rw [hload] at haction
        cases haction
    | some result =>
        cases result with
        | ok report => exact ⟨report, rfl⟩
        | error e =>
            -- the exception leaves the callback before `Done`
            rw [hload] at haction
            cases haction
            cases hone
  · rintro ⟨fuel, report, hload⟩
    exact ⟨fuel, done env report, by simp only [action, hload], rfl⟩

/-- The callback completes exactly when there is nothing to load, or what there is can be unpacked
and its parser raises nothing but `parse::error`. -/
theorem completes_iff (env : ClientEnv) (status : ExecStatus) (res : Message)
    (stm : Option Bytes) : Completes env status res stm ↔
      status ≠ .ok ∨ stm = none ∨
        ∃ body src rest, stm = some body ∧ Unpacks env res body src rest ∧
          Parses env res src rest := by
  have hother : status ≠ .ok → Completes env status res stm := by
    intro hne
    cases status with
    | ok => exact absurd rfl hne
    | failed => exact ⟨0, _, rfl, rfl⟩
    | invalid => exact ⟨0, _, rfl, rfl⟩
    | timedOut => exact ⟨0, _, rfl, rfl⟩
    | other => exact ⟨0, _, rfl, rfl⟩
  by_cases hok : status = .ok
  · subst hok
    rw [completes_ok_iff]
    cases stm with
    | none => exact iff_of_true ⟨0, [], rfl⟩ (.inr (.inl rfl))
    | some body =>
        rw [loadReport_some_ok_iff]
        simp
  · exact iff_of_true (hother hok) (.inl hok)

/-- A client over one deflated stream; whatever the body, the parsers give an empty map. -/
def quietClient : ClientEnv where
  zlib := deflatedA
  avail₀ := 0
  parse := fun _ => .value []
  fetchFrom := fun _ => .ok []
  notify := fun _ => none

/-- The body is an empty JSON object, and no header says so. -/
theorem untyped_body_not_completes :
    ¬ Completes quietClient .ok ⟨[("Access-Control-Allow-Origin", "*")]⟩ (some [0x7B, 0x7D]) := by
  rw [completes_ok_iff, loadReport_some_ok_iff]
  rintro ⟨src, rest, -, hjson | hdump⟩
  · exact absurd hjson.1 (by decide)
  · exact absurd hdump.2.1 (by decide)

end Palmira.Http
