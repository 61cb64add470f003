import Palmira.Grpc.Refused
import Palmira.Service.Pending

/-!
# A change request on the server

`Change` serves insert, update and remove. The response is filled in place and
taken over by the error report when the conversion of the service's report is
left in the middle, with the metadata that is in it by then.
-/

namespace Palmira.Grpc

open Effects Palmira.Http Palmira.Service

/-- The codes `Change` finishes a call with. -/
inductive FinishCode where
  | ok
  | cancelled
  deriving DecidableEq

/-- What the overloads read through the views of a report, and how they write metadata. -/
structure ServerEnv where
  widetombcs : WideStr → String
  reduce : Number → Int32
  code : Zmap → Except Exn Int32
  info : Zmap → Except Exn String

/-- The views read back what `UpdateReport( err, msg )` stores. -/
def ServerEnv.ReadsBack (env : ServerEnv) : Prop :=
  ∀ err msg, env.code (statusReport err msg) = .ok err ∧ env.info (statusReport err msg) = .ok msg

/-- What a call of the server has done: how it finished, and the response. -/
structure ServerCall where
  finished : List FinishCode
  respond : UpdateReport

/-- The response gRPC hands over is the default message. -/
def ServerCall.start : ServerCall := ⟨[], ⟨none, none⟩⟩

section Server

variable (env : ServerEnv)

/-- `out.mutable_status()` -/
def withStatus (call : Call Exn (Int32 × String) PUnit) : Call Exn UpdateReport PUnit :=
  within (fun out => out.status.getD (0, "")) (fun out status => { out with status := some status })
    call

/-- `out.mutable_metadata()` -/
def withMetadata (call : Call Exn Metadata PUnit) : Call Exn UpdateReport PUnit :=
  within (fun out => out.metadata.getD []) (fun out data => { out with metadata := some data }) call

/-- `Convert( grpcttp::UpdateReport& out, const mtc::zmap& src )` -/
def fillReport (src : Zmap) : Call Exn UpdateReport PUnit := do
  withStatus do
    let code ← MonadExcept.ofExcept (env.code src)
    modify fun status => (code, status.2)
  withStatus do
    let info ← MonadExcept.ofExcept (env.info src)
    modify fun status => (status.1, info)
  match src.getZmap "metadata" with
  | some metadata => withMetadata (fillMetadata env.widetombcs env.reduce metadata)
  | none => pure ⟨⟩

def finish (code : FinishCode) : Call Exn ServerCall PUnit :=
  modify fun s => { s with finished := s.finished ++ [code] }

/-- The call on the response. -/
def onRespond (call : Call Exn UpdateReport PUnit) : Call Exn ServerCall PUnit :=
  within ServerCall.respond (fun s respond => { s with respond }) call

variable {PubRequest IntRequest : Type}

/-- `Server::GrpcServer::Change`. `convert` is the overload for the request, `method` the method of
the service with the wait for its report. The inner call answers whether it returned early. -/
def change (convert : PubRequest → Except Exn IntRequest) (method : IntRequest → Except Exn Zmap)
    (isCancelled : Bool) (request : PubRequest) : Call Exn ServerCall PUnit := do
  let returned ← tryCatch
    (if isCancelled then do
      finish .cancelled
      return true
    else do
      let thearg ← MonadExcept.ofExcept (convert request)
      let report ← MonadExcept.ofExcept (method thearg)
      onRespond (fillReport env report)
      return false)
    -- `catch ( ... )`: whatever was thrown
    (fun _ => do
      onRespond (fillReport env (statusReport EFAULT "unknown exception"))
      return false)
  if returned then pure ⟨⟩ else finish .ok

/-! ## What a response may be -/

/-- The response has the status and the whole metadata of the report. -/
structure Complete (respond : UpdateReport) (report : Zmap) : Prop where
  status : ∃ code info, env.code report = .ok code ∧ env.info report = .ok info ∧
    respond.status = some (code, info)
  metadata : match report.getZmap "metadata" with
    | some metadata => ∃ data, respond.metadata = some data ∧
        convertMetadata env.widetombcs [] (fieldsReduced env.reduce metadata) = .ok data
    | none => respond.metadata = none

/-- The response reports a failure, and nothing else. -/
def Faulted (respond : UpdateReport) : Prop :=
  (∃ info, respond.status = some (EFAULT, info)) ∧ respond.metadata = none

/-- The status of the report can be read and its metadata cannot be converted. -/
def BreaksOff (report : Zmap) : Prop :=
  (∃ code info, env.code report = .ok code ∧ env.info report = .ok info) ∧
    ∃ metadata, report.getZmap "metadata" = some metadata ∧ Refused (.zmap metadata)

/-! ## The conversion of a report -/

theorem withMetadata_ends {respond : UpdateReport} (hnone : respond.metadata = none) {m : Zmap}
    (hwf : m.Wf) :
    Ends (withMetadata (fillMetadata env.widetombcs env.reduce m)) respond
      (fun _ out => ¬ Refused (.zmap m) ∧ out.status = respond.status ∧
        ∃ data, out.metadata = some data ∧
          convertMetadata env.widetombcs [] (fieldsReduced env.reduce m) = .ok data)
      (fun _ out => Refused (.zmap m) ∧ out.metadata ≠ none) := by
  have hagrees := fillMetadata_agrees env.widetombcs env.reduce m [] hwf.1 hwf.2
    fun _ _ _ _ => rfl
  have hpasses := fillMetadata_passes env.widetombcs env.reduce m []
  refine ends_within.mpr ?_
  rw [hnone, Option.getD_none, refused_iff]
  refine (hagrees.and hpasses).imp ?_ ?_
  · rintro _ out ⟨⟨data, hdata, rfl⟩, hcarried⟩
    exact ⟨not_not_intro hcarried, rfl, _, rfl, hdata⟩
  · intro e out ⟨_, _, hrefused⟩
    exact ⟨hrefused, Option.some_ne_none _⟩

/-- Into a response without metadata a report is written whole; else there is metadata in the
response exactly if the report breaks off. -/
theorem fillReport_ends {respond : UpdateReport} (hnone : respond.metadata = none)
    {report : Zmap} (hwf : report.Wf) :
    Ends (fillReport env report) respond
      (fun _ out => ¬ BreaksOff env report ∧ Complete env out report)
      (fun _ out => BreaksOff env report ↔ out.metadata ≠ none) := by
  simp only [fillReport, withStatus, ends_bind, ends_within, ends_ofExcept]
  cases hcode : env.code report with
  | error e =>
      refine iff_of_false ?_ (not_not_intro hnone)
      rintro ⟨⟨code, _, hok, _⟩, _⟩
      cases hcode.symm.trans hok
  | ok code =>
      simp only [ends_modify]
      cases hinfo : env.info report with
      | error e =>
          refine iff_of_false ?_ (not_not_intro hnone)
          rintro ⟨⟨_, info, _, hok⟩, _⟩
          cases hinfo.symm.trans hok
      | ok info =>
          cases hmetadata : report.getZmap "metadata" with
          | none =>
              refine ⟨?_, ⟨code, info, hcode, hinfo, rfl⟩, ?_⟩
              · rintro ⟨_, m, hm, _⟩
                cases hmetadata.symm.trans hm
              · rw [hmetadata]
                exact hnone
          | some m =>
              refine (withMetadata_ends env (by exact hnone) (hwf.getZmap hmetadata)).imp ?_ ?_
              · rintro _ out ⟨hcarried, hstatus, data, hdata, hwhole⟩
                refine ⟨?_, ⟨code, info, hcode, hinfo, hstatus⟩, ?_⟩
                · rintro ⟨_, m', hm', hrefused⟩
                  cases hmetadata.symm.trans hm'
                  exact hcarried hrefused
                · rw [hmetadata]
                  exact ⟨data, hdata, hwhole⟩
              · rintro e out ⟨hrefused, hsome⟩
                exact iff_of_true ⟨⟨code, info, hcode, hinfo⟩, m, hmetadata, hrefused⟩ hsome

theorem fillReport_fault (hreads : env.ReadsBack) (err : Int32) (msg : String)
    (respond : UpdateReport) :
    Ends (fillReport env (statusReport err msg)) respond
      (fun _ out => out = ⟨some (err, msg), respond.metadata⟩) (fun _ _ => False) := by
  have hmetadata : (statusReport err msg).getZmap "metadata" = none := rfl
  simp only [fillReport, withStatus, ends_bind, ends_within, ends_ofExcept, hreads err msg,
    hmetadata, ends_pure]
  rfl

/-- No response has the metadata of a report that breaks off. -/
theorem not_complete_of_breaksOff {report : Zmap} (hwf : report.Wf)
    (hbreaks : BreaksOff env report) (respond : UpdateReport) : ¬ Complete env respond report := by
  intro hcomplete
  obtain ⟨-, m, hm, hrefused⟩ := hbreaks
  have hmetadata := hcomplete.metadata
  rw [hm] at hmetadata
  obtain ⟨data, -, hok⟩ := hmetadata
  have hmwf := hwf.getZmap hm
  have hagrees := fillMetadata_agrees env.widetombcs env.reduce m [] hmwf.1 hmwf.2
    fun _ _ _ _ => rfl
  have hpasses := fillMetadata_passes env.widetombcs env.reduce m []
  rcases (hagrees.and hpasses).exists_out with ⟨_, _, -, hcarried⟩ | ⟨e, _, herror, -⟩
  · exact (refused_iff _).mp hrefused hcarried
  · cases hok.symm.trans herror

/-! ## The call -/

variable {PubRequest IntRequest : Type} (convert : PubRequest → Except Exn IntRequest)
  (method : IntRequest → Except Exn Zmap) (request : PubRequest)

/-- What the service makes of a request: the report, or what was thrown before there is one. -/
def served : Except Exn Zmap := (convert request).bind method

/-- The call has finished once, with the report complete, or with the fault, and then with metadata
only if the report breaks off. -/
structure Settled (s : ServerCall) : Prop where
  finished : s.finished = [.ok]
  respond : (∃ report, served convert method request = .ok report ∧ ¬ BreaksOff env report ∧
      Complete env s.respond report) ∨
    (∃ info, s.respond.status = some (EFAULT, info)) ∧
      ((∃ report, served convert method request = .ok report ∧ BreaksOff env report) ↔
        s.respond.metadata ≠ none)

theorem change_settles (hreads : env.ReadsBack)
    (hwf : ∀ report, served convert method request = .ok report → report.Wf) :
    Ends (change env convert method false request) .start
      (fun _ s => Settled env convert method request s) (fun _ _ => False) := by
  -- the handler keeps the metadata that is in the response
  have hcaught : ∀ out : UpdateReport,
      ((∃ report, served convert method request = .ok report ∧ BreaksOff env report) ↔
        out.metadata ≠ none) →
      Ends (fillReport env (statusReport EFAULT "unknown exception")) out
        (fun _ out' => Settled env convert method request ⟨[.ok], out'⟩) (fun _ _ => False) := by
    intro out hmetadata
    refine (fillReport_fault env hreads _ _ out).imp ?_ fun _ _ hfalse => hfalse
    rintro _ out' rfl
    exact ⟨rfl, .inr ⟨⟨_, rfl⟩, hmetadata⟩⟩
  simp only [change, Bool.false_eq_true, if_false, ends_bind, ends_tryCatch, ends_ofExcept,
    onRespond, ends_within, ends_pure, finish, ends_modify]
  cases hargs : convert request with
  | error e =>
      refine hcaught ⟨none, none⟩ (iff_of_false ?_ (not_not_intro rfl))
      rintro ⟨report, hserved, _⟩
      rw [served, hargs] at hserved
      cases hserved
  | ok thearg =>
      have hserved : served convert method request = method thearg := by
        rw [served, hargs]
        rfl
      cases hreport : method thearg with
      | error e =>
          simp only [hreport]
          refine hcaught ⟨none, none⟩ (iff_of_false ?_ (not_not_intro rfl))
          rintro ⟨report, hok, _⟩
          cases (hserved.trans hreport).symm.trans hok
      | ok report =>
          have hok : served convert method request = .ok report := hserved.trans hreport
          simp only [hreport]
          refine (fillReport_ends env rfl (hwf report hok)).imp ?_ ?_
          · rintro _ out ⟨hwhole, hcomplete⟩
            exact ⟨rfl, .inl ⟨report, hok, hwhole, hcomplete⟩⟩
          · intro e out hbreaks
            refine hcaught out (Iff.trans ?_ hbreaks)
            constructor
            · rintro ⟨other, hother, hbroken⟩
              cases hok.symm.trans hother
              exact hbroken
            · exact fun hbroken => ⟨report, hok, hbroken⟩

/-- What a call owes its client: it has finished once, and the response has the report complete, or
the fault and no metadata. -/
def Answered (s : ServerCall) : Prop :=
  s.finished.length = 1 ∧
    ((∃ report, served convert method request = .ok report ∧ Complete env s.respond report) ∨
      Faulted s.respond)

/-- The call gives its client what it owes exactly if the service does not answer with a report that
breaks off. -/
theorem change_answers_iff (hreads : env.ReadsBack)
    (hwf : ∀ report, served convert method request = .ok report → report.Wf) :
    Ends (change env convert method false request) .start
        (fun _ s => Answered env convert method request s) (fun _ _ => False) ↔
      ¬ ∃ report, served convert method request = .ok report ∧ BreaksOff env report := by
  have hsettles := change_settles env convert method request hreads hwf
  constructor
  · intro hanswers ⟨report, hok, hbreaks⟩
    rcases (hanswers.and hsettles).exists_out with ⟨_, s, hanswered, hsettled⟩ | ⟨_, _, hfalse, -⟩
    · -- a response with metadata is no fault, and this report is not in it whole
      obtain ⟨-, ⟨other, hother, hcomplete⟩ | hfault⟩ := hanswered
      · cases hok.symm.trans hother
        exact not_complete_of_breaksOff env (hwf report hok) hbreaks s.respond hcomplete
      · obtain ⟨other, hother, hwhole, -⟩ | ⟨-, hmetadata⟩ := hsettled.respond
        · cases hok.symm.trans hother
          exact hwhole hbreaks
        · exact hmetadata.mp ⟨report, hok, hbreaks⟩ hfault.2
    · exact hfalse
  · intro hnone
    refine hsettles.imp ?_ fun _ _ hfalse => hfalse
    intro _ s hsettled
    refine ⟨by rw [hsettled.finished]; rfl, ?_⟩
    obtain ⟨report, hok, -, hcomplete⟩ | ⟨hstatus, hmetadata⟩ := hsettled.respond
    · exact .inl ⟨report, hok, hcomplete⟩
    · exact .inr ⟨hstatus, not_not.mp fun hsome => hnone (hmetadata.mpr hsome)⟩

end Server

/-- The views over maps that hold what they are named after. -/
def plainServer : ServerEnv where
  widetombcs := fun _ => ""
  reduce := fun _ => 0
  code := fun report =>
    match (report.getZmap "status").bind fun status => status.get "code" with
    | some (.int32 x) => .ok x
    | _ => .ok 0
  info := fun report => .ok (((report.getZmap "status").bind fun status =>
    status.getCharstr "info").getD "")

theorem plainServer_readsBack : plainServer.ReadsBack := fun _ _ => ⟨rfl, rfl⟩

/-- A service that answers a request with the metadata it was given. -/
def echoed (metadata : Zmap) : Except Exn Zmap :=
  .ok [(.charstr "metadata", .zmap metadata), (.charstr "status", .zmap (status 0 "OK"))]

theorem change_answers_iff_echoed :
    Ends (change plainServer .ok echoed false [(.charstr "size", .word64 5)]) .start
      (fun _ s => Answered plainServer .ok echoed [(.charstr "size", .word64 5)] s)
      (fun _ _ => False) := by
  refine (change_answers_iff plainServer .ok echoed [(.charstr "size", .word64 5)]
    plainServer_readsBack ?_).mpr ?_
  · intro report hok
    cases hok
    have hreport : Key.charstr "metadata" < .charstr "status" :=
      Key.charstr_lt_charstr.mpr (by decide)
    have hstatus : Key.charstr "code" < .charstr "info" := Key.charstr_lt_charstr.mpr (by decide)
    exact ⟨List.pairwise_pair.mpr hreport, ⟨List.pairwise_singleton _ _, trivial, trivial⟩,
      ⟨List.pairwise_pair.mpr hstatus, trivial, trivial, trivial⟩, trivial⟩
  · intro ⟨report, hok, _, m, hm, hrefused⟩
    cases hok
    cases hm
    exact (refused_iff _).mp hrefused ⟨⟨"size", rfl⟩, trivial, trivial⟩

/-- The second field has no type: the fault goes out with the first one and an entry for it. -/
theorem change_leaves_metadata :
    Ends (change plainServer .ok echoed false [(.charstr "a", .int32 1), (.charstr "b", .untyped)])
        .start
      (fun _ s => s = ⟨[.ok], ⟨some (EFAULT, "unknown exception"),
        some [("a", .asInt32 1), ("b", .notSet)]⟩⟩)
      (fun _ _ => False) ∧
    ¬ Ends (change plainServer .ok echoed false
        [(.charstr "a", .int32 1), (.charstr "b", .untyped)]) .start
      (fun _ s => Answered plainServer .ok echoed
        [(.charstr "a", .int32 1), (.charstr "b", .untyped)] s)
      (fun _ _ => False) := by
  have hleft : Ends (change plainServer .ok echoed false
      [(.charstr "a", .int32 1), (.charstr "b", .untyped)]) .start
      (fun _ s => s = ⟨[.ok], ⟨some (EFAULT, "unknown exception"),
        some [("a", .asInt32 1), ("b", .notSet)]⟩⟩)
      (fun _ _ => False) := rfl
  refine ⟨hleft, ?_⟩
  intro hanswers
  rcases (hanswers.and hleft).exists_out with ⟨_, s, hanswered, rfl⟩ | ⟨_, _, hfalse, -⟩
  · obtain ⟨-, ⟨report, hok, hcomplete⟩ | ⟨-, hmetadata⟩⟩ := hanswered
    · cases hok
      obtain ⟨code, info, -, hinfo, hstatus⟩ := hcomplete.status
      have hsent : info = "unknown exception" :=
        (congrArg Prod.snd (Option.some.inj hstatus)).symm
      rw [hsent] at hinfo
      exact absurd (Except.ok.inj hinfo) (by decide)
    · cases hmetadata
  · exact hfalse

end Palmira.Grpc
