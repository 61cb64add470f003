import Palmira.Http.Client

/-!
# The server's reports

What `OutputJSON` puts on the wire for a report, and what the client makes of it.
-/

namespace Palmira.Http

/-- `http::StatusCode`, as far as the handlers use it. -/
inductive StatusCode where
  | ok
  | badRequest
  deriving DecidableEq

structure Respond extends Message where
  statusCode : StatusCode

/-- `http::Respond( result, headers )`: the respond with more headers. -/
def Respond.withHeaders (result : Respond) (headers : List (String × String)) : Respond :=
  { result with headers := result.headers ++ headers }

/-- The respond of `ActionCall` for a report of the service and for a request body that is no
JSON. -/
def actionRespond : Respond := ⟨⟨[("Access-Control-Allow-Origin", "*")]⟩, .ok⟩

/-- The respond of the "/health" handler. -/
def healthRespond : Respond :=
  ⟨⟨[("Access-Control-Allow-Origin", "*"), ("Connection", "keep-alive")]⟩, .ok⟩

/-- `OutputJSON`: the respond passed to `Output` and the body. `extRes` is made and not used. -/
def outputJSON (print : Zmap → Bytes) (result : Respond) (report : Zmap) : Respond × Bytes :=
  let serial := print report
  let _extRes := result.withHeaders [("Content-Type", "application/json")]
  (result, serial)

/-- The client loads from what the server sent an equal report. -/
def Understands (env : ClientEnv) (sent : Respond × Bytes) (report : Zmap) : Prop :=
  ∃ fuel, loadReport env fuel sent.1.toMessage (some sent.2) = some (.ok report)

/-- Without a content type and an encoding, loading a body throws. -/
theorem loadReport_untyped (env : ClientEnv) (fuel : ℕ) {res : Message} (body : Bytes)
    (htype : res.get "Content-Type" = "") (hencoding : res.get "Content-Encoding" = "") :
    loadReport env fuel res (some body) =
      some (.error (.invalidArgument "Unexpected content-type")) := by
  have hinflate : inflateMessage env fuel res body = some (.ok (body, body)) := by
    rw [inflateMessage]
    exact if_pos hencoding
  have hparse : parseReport env res body body =
      .error (.invalidArgument "Unexpected content-type") := by
    rw [parseReport, htype]
    rfl
  simp only [loadReport, hinflate]
  exact congrArg some hparse

/-- The respond with its content type, the one `OutputJSON` leaves unused, would be understood. -/
theorem typed_report_understood (env : ClientEnv) (print : Zmap → Bytes) (report : Zmap)
    (hinverse : env.parse (print report) = .value report) :
    ∀ result ∈ [actionRespond, healthRespond],
      Understands env
        (result.withHeaders [("Content-Type", "application/json")], print report) report := by
  intro result hmem
  have htyped : (result.withHeaders [("Content-Type", "application/json")]).get "Content-Type" =
        "application/json" ∧
      (result.withHeaders [("Content-Type", "application/json")]).get "Content-Encoding" = "" := by
    rcases List.mem_pair.mp hmem with rfl | rfl <;> decide
  have hinflate := (inflateMessage_ok_iff env _ _ _ _).mpr
    (.inl ⟨htyped.2, (rfl : print report = print report), rfl⟩)
  obtain ⟨fuel, hinflate⟩ := hinflate
  refine ⟨fuel, ?_⟩
  simp only [loadReport, hinflate]
  have hjson : startsWith "application/json" 16 "application/json" = true := by decide
  change some (parseReport env _ (print report) (print report)) = _
  rw [parseReport, htyped.1, if_pos hjson, hinverse]

/-- No report is understood, whichever handler sends it: `LoadReport` throws on all of them. -/
theorem report_not_understood (env : ClientEnv) (print : Zmap → Bytes) (report : Zmap) :
    ∀ result ∈ [actionRespond, healthRespond],
      ¬ Understands env (outputJSON print result report) report ∧
      ∀ fuel, loadReport env fuel (outputJSON print result report).1.toMessage
          (some (outputJSON print result report).2) =
        some (.error (.invalidArgument "Unexpected content-type")) := by
  intro result hmem
  have huntyped : result.get "Content-Type" = "" ∧ result.get "Content-Encoding" = "" := by
    rcases List.mem_pair.mp hmem with rfl | rfl <;> decide
  have hthrows : ∀ fuel, loadReport env fuel (outputJSON print result report).1.toMessage
      (some (outputJSON print result report).2) =
        some (.error (.invalidArgument "Unexpected content-type")) :=
    fun fuel => loadReport_untyped env fuel (print report) huntyped.1 huntyped.2
  refine ⟨?_, hthrows⟩
  intro ⟨fuel, hload⟩
  rw [hthrows fuel] at hload
  cases hload

theorem report_not_understood_health :
    ¬ Understands quietClient (outputJSON (fun _ => [0x7B, 0x7D]) healthRespond []) [] :=
  (report_not_understood quietClient _ [] healthRespond (by simp)).1

/-- An empty report, printed as an empty JSON object. -/
theorem empty_report_not_understood :
    ¬ Understands quietClient (outputJSON (fun _ => [0x7B, 0x7D]) actionRespond []) [] := by
  intro ⟨fuel, hload⟩
  have hthrows : loadReport quietClient fuel actionRespond.toMessage (some [0x7B, 0x7D]) =
      some (.error (.invalidArgument "Unexpected content-type")) :=
    loadReport_untyped quietClient fuel [0x7B, 0x7D] (by decide) (by decide)
  cases hthrows.symm.trans hload

end Palmira.Http
