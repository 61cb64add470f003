import Palmira.Grpc.Change
import Palmira.Grpc.Requests
import Palmira.Service.Store

/-!
# A store at the other end of a channel

A client of the gRPC service, the service with its index, and a channel between them that
may lose a request or a response. The client keeps an account of the store by what it is
answered, and is unsure of an id when the response to a change of it was lost.
-/

namespace Palmira.Grpc

open Effects Palmira.Http Palmira.Service

variable {β T H B F C : Type}

/-! ## A call on the server -/

/-- A gRPC status other than `OK`. -/
structure Failure where
  code : Int32
  message : String
  failed : code ≠ 0

/-- What becomes of a call: the request is lost, the server finds it cancelled, the response is
lost, or the client gets it. -/
inductive Fate where
  | lost (failure : Failure)
  | cancelled
  | unanswered (failure : Failure)
  | answered

/-- The number of a status `Finish` is called with. -/
def FinishCode.number : FinishCode → Int32
  | .ok => 0
  | .cancelled => 1

/-- The exchange ends with the first `Finish`. -/
def ServerCall.exchange (call : ServerCall) : Exchange :=
  ⟨(call.finished.head?.map FinishCode.number).getD 0, "", call.respond⟩

section Server

variable {PubRequest IntRequest σ : Type} (env : ServerEnv)
  (convert : PubRequest → Except Exn IntRequest) (method : IntRequest → Call Thrown σ Zmap)

/-- What a method of the service gives its caller, the service being in this state. -/
def methodAt (s : σ) (args : IntRequest) : Except Exn Zmap :=
  match ((method args).run.run s).1 with
  | .ok report => .ok report
  | .error _ => .error (.other "thrown by the service")

/-- `Change` on the service: the response is what `Change` makes of the method's report, and the
service is as the method leaves it if the call comes that far. -/
def serve (isCancelled : Bool) (request : PubRequest) : Call Exn σ Exchange := do
  let s ← get
  let (_, call) := (change env convert (methodAt method s) isCancelled request).run.run .start
  if !isCancelled then
    match convert request with
    | .ok thearg => set ((method thearg).run.run s).2
    | .error _ => pure ⟨⟩
  return call.exchange

/-- How a call ends for the client. -/
def exchanged (fate : Fate) (request : PubRequest) : Call Exn σ Exchange :=
  match fate with
  | .lost failure => return ⟨failure.code, failure.message, none, none⟩
  | .cancelled => serve env convert method true request
  | .unanswered failure => do
      let _ ← serve env convert method false request
      return ⟨failure.code, failure.message, none, none⟩
  | .answered => serve env convert method false request

/-- A call of the service by a client, up to `Done`, which hands its outcome to the client. -/
def callService (fate : Fate) (message : Except Exn PubRequest) : Call Exn σ Zmap := do
  let request ← MonadExcept.ofExcept message
  let exchange ← exchanged env convert method fate request
  MonadExcept.ofExcept (GrpcWaiter.outcome ⟨[], false⟩ exchange)

end Server

section Client

variable (lib : Structo β T B F C) (client : ClientEnv T) (server : ServerEnv) (text : TextEnv T H)

/-- The client's methods. Its `Commit` does nothing. -/
def perform (call : Operation T × Fate) : Call Exn (StructoSearch β F C) Zmap :=
  match call with
  | (.insert args, fate) => callService server (convertInsertArgs text) lib.insert fate
      (convertInsertMessage client args)
  | (.update args, fate) => callService server convertUpdateArgs lib.update fate
      (convertUpdateMessage client args)
  | (.remove args, fate) => callService server convertRemoveArgs lib.remove fate
      (convertRemoveMessage args)
  | (.commit, _) => pure []

end Client

/-! ## The client's account -/

/-- What the client knows of each id: the metadata stored under it or that there is none, or
nothing. -/
abbrev Account := String → Option (Option Zmap)

/-- The account behind a change of one id. -/
def Account.record (account : Account) (fate : Fate) (answer : Zmap) (id : String)
    (value : Option Zmap) : Account :=
  match fate with
  | .unanswered _ => Function.update account id none
  | _ => if succeeded answer = true then Function.update account id (some value) else account

def recordReport (call : Operation T × Fate) (answer : Zmap) (_ : StructoSearch β F C)
    (account : Account) : Account :=
  match call with
  | (.insert args, fate) => account.record fate answer args.objectId (some args.metadata)
  | (.update args, fate) => account.record fate answer args.objectId (some args.metadata)
  | (.remove args, fate) => account.record fate answer args.objectId none
  | (.commit, _) => account

/-- The maps a client sends are in normal form, as every map is. -/
def SentWf : Operation T × Fate → Prop
  | (.insert args, _) => args.metadata.Wf
  | (.update args, _) => args.metadata.Wf
  | _ => True

/-- The client starts with what the store holds. -/
def remoteSession (lib : Structo β T B F C) (client : ClientEnv T) (server : ServerEnv)
    (text : TextEnv T H) (s : StructoSearch β F C) (calls : List (Operation T × Fate)) :
    Session (StructoSearch β F C) Account :=
  Session.run (perform lib client server text) recordReport
    ⟨s, fun id => some (lib.documents s.ctxIndex id)⟩ calls

/-- The store holds a document where the client knows of one, with metadata that says what the
client sent, and none where the client knows of none. -/
def Account.Holds (lib : Structo β T B F C) (widetombcs : WideStr → String) (account : Account)
    (s : StructoSearch β F C) : Prop :=
  ∀ id, id ≠ indexMappings → ∀ value, account id = some value →
    Option.Rel (SameMeaning widetombcs) (lib.documents s.ctxIndex id) value

/-! ## The reports of the service -/

/-- The views read back what a report stores as its status. -/
def ServerEnv.ReadsReports (env : ServerEnv) : Prop :=
  ∀ code info attr, env.code (report code info attr) = .ok code ∧
    env.info (report code info attr) = .ok info

/-- A report of a change: a status alone, or with the metadata now stored. -/
inductive Reports (stored : Zmap) : Zmap → Prop
  | plain (code : Int32) (info : String) : Reports stored (report code info)
  | carrying (code : Int32) (info : String) :
      Reports stored (report code info (Zmap.put [] "metadata" (.zmap stored)))

section Reports

variable {lib : Structo β T B F C} {s : StructoSearch β F C}

theorem answerError_reports (stored : Zmap) (thrown : Thrown) :
    Ends (Structo.answerError thrown) s (fun answer _ => Reports stored answer)
      (fun _ _ => True) := by
  cases thrown with
  | invalidArgument what => exact .plain Service.EINVAL what
  | parseError what => exact .plain Service.EINVAL what
  | badFunctionCall what => trivial
  | other what => trivial

theorem answerInsertError_reports (stored : Zmap) (thrown : Thrown) :
    Ends (Structo.answerInsertError thrown) s (fun answer _ => Reports stored answer)
      (fun _ _ => True) := by
  cases thrown with
  | badFunctionCall what => exact .plain EFAULT what
  | invalidArgument what => exact answerError_reports stored (.invalidArgument what)
  | parseError what => exact answerError_reports stored (.parseError what)
  | other what => exact answerError_reports stored (.other what)

theorem insert_reports (hlib : lib.Lawful) (args : InsertArgs T) :
    Ends (lib.insert args) s (fun answer _ => Reports args.metadata answer) (fun _ _ => True) := by
  unfold Structo.insert Structo.insertDocument
  rw [ends_tryCatch, ends_bind, ends_ofExcept]
  split
  next body _ =>
    rw [ends_bind, ends_within]
    refine ends_of_forall (fun parts fieldMan => ?_)
      fun thrown _ => answerInsertError_reports args.metadata thrown
    rw [ends_bind]
    apply Structo.ends_setEntity
    · change Reports args.metadata (report 0 "OK" (Zmap.put [] "metadata"
        (.zmap (lib.metadataOf ⟨parts.2, lib.serialize args.metadata, parts.1⟩))))
      rw [metadataOf_serialize hlib]
      exact .carrying 0 "OK"
    · exact answerInsertError_reports args.metadata
  next thrown _ => exact answerInsertError_reports args.metadata thrown

theorem update_reports (hlib : lib.Lawful) (args : UpdateArgs) :
    Ends (lib.update args) s (fun answer _ => Reports args.metadata answer) (fun _ _ => True) := by
  unfold Structo.update Structo.setExtras
  rw [ends_tryCatch, ends_bind, ends_bind, ends_get]
  split
  next old _ =>
    rw [ends_bind]
    apply Structo.ends_assign
    · change Reports args.metadata (report 0 "OK" (Zmap.put [] "metadata"
        (.zmap (lib.metadataOf ⟨old.contents, lib.serialize args.metadata, old.bundle⟩))))
      rw [metadataOf_serialize hlib]
      exact .carrying 0 "OK"
    · exact answerError_reports args.metadata
  next => exact .plain ENOENT "document not found"

theorem remove_reports (stored : Zmap) (args : RemoveArgs) :
    Ends (lib.remove args) s (fun answer _ => Reports stored answer) (fun _ _ => True) := by
  unfold Structo.remove Structo.delEntity
  rw [ends_tryCatch, ends_bind, ends_bind, ends_get]
  split
  next =>
    rw [ends_bind]
    apply Structo.ends_assign
    · exact .plain 0 "OK"
    · exact answerError_reports stored
  next => exact .plain ENOENT "document not found"

end Reports

/-! ## The response -/

/-- The response carries a status, which is a success or not, and metadata that decodes, if any. -/
structure Delivers (respond : UpdateReport) (ok : Bool) : Prop where
  status : ∃ code info, respond.status = some (code, info) ∧ (code == 0) = ok
  metadata : ∀ data, respond.metadata = some data → CompleteData data

section Response

variable {env : ServerEnv}

theorem fillReport_delivers (hreads : env.ReadsReports) {stored answer : Zmap}
    (hstored : Portable stored) (hreport : Reports stored answer) :
    Ends (fillReport env answer) ⟨none, none⟩
      (fun _ respond => Delivers respond (succeeded answer)) (fun _ _ => False) := by
  cases hreport with
  | plain code info =>
      have hmetadata : (report code info).getZmap "metadata" = none := by
        simp [Zmap.getZmap, report]
      obtain ⟨hcode, hinfo⟩ := hreads code info []
      simp only [fillReport, withStatus, ends_bind, ends_within, ends_ofExcept, hcode, hinfo,
        ends_modify, hmetadata, ends_pure, succeeded_report]
      exact ⟨⟨code, info, rfl, rfl⟩, fun _ hnone => by cases hnone⟩
  | carrying code info =>
      have hmetadata : (report code info (Zmap.put [] "metadata" (.zmap stored))).getZmap
          "metadata" = some stored := by simp [Zmap.getZmap, report]
      obtain ⟨hcode, hinfo⟩ := hreads code info (Zmap.put [] "metadata" (.zmap stored))
      simp only [fillReport, withStatus, withMetadata, ends_bind, ends_within, ends_ofExcept, hcode,
        hinfo, ends_modify, hmetadata, succeeded_report]
      have hcomplete := fillMetadata_complete env.widetombcs env.reduce stored []
        ⟨List.Pairwise.nil, trivial⟩
      have hpasses := fillMetadata_passes env.widetombcs env.reduce stored []
      refine (hcomplete.and hpasses).imp ?_ fun e _ hbad => hbad.2.2 hstored.convertible
      rintro _ data ⟨hdata, -⟩
      refine ⟨⟨code, info, rfl, rfl⟩, ?_⟩
      rintro _ ⟨⟩
      exact hdata

theorem outcome_delivers {respond : UpdateReport} {ok : Bool} (hdelivers : Delivers respond ok)
    (message : String) : ∃ answer,
      GrpcWaiter.outcome ⟨[], false⟩ ⟨0, message, respond⟩ = .ok answer ∧
        succeeded answer = ok := by
  obtain ⟨code, info, hstatus, hok⟩ := hdelivers.status
  have hplain : succeeded (report code info) = ok := (succeeded_report code info []).trans hok
  unfold GrpcWaiter.outcome convertReport
  rw [if_pos rfl, hstatus]
  cases hmetadata : respond.metadata with
  | none => exact ⟨_, rfl, hplain⟩
  | some data =>
      obtain ⟨m, hm, -⟩ := (hdelivers.metadata data hmetadata).decodes fun _ => ""
      refine ⟨(report code info).put "metadata" (.zmap m), ?_, ?_⟩
      · simp only [hm]
        rfl
      -- what is put under another key leaves the status
      · simpa [succeeded, Zmap.getZmap] using hplain

end Response

/-! ## A call -/

section Call

variable {PubRequest IntRequest σ : Type} {env : ServerEnv}
  {convert : PubRequest → Except Exn IntRequest} {method : IntRequest → Call Thrown σ Zmap} {s : σ}

/-- What the server's side of a call may come to, `good` being what is to hold of the success the
client is told of and of the service behind the call. -/
def Serves (convert : PubRequest → Except Exn IntRequest) (method : IntRequest → Call Thrown σ Zmap)
    (s : σ) (good : Bool → σ → Prop) (request : PubRequest) : Prop :=
  good false s ∧ ∀ args, convert request = .ok args →
    Ends (method args) s
      (fun answer s' => (∃ stored, Portable stored ∧ Reports stored answer) ∧
        good (succeeded answer) s') (fun _ s' => good false s')

theorem readsBack (hreads : env.ReadsReports) : env.ReadsBack :=
  fun err msg => hreads err msg []

/-- The handler's report arrives whole. -/
theorem fault_delivers (hreads : env.ReadsReports) :
    Ends (fillReport env (statusReport EFAULT "unknown exception")) ⟨none, none⟩
      (fun _ respond => Delivers respond false) (fun _ _ => False) := by
  refine (fillReport_fault env (readsBack hreads) EFAULT "unknown exception" ⟨none, none⟩).imp ?_
    fun _ _ hfalse => hfalse
  rintro _ _ rfl
  exact ⟨⟨EFAULT, _, rfl, rfl⟩, fun _ hnone => by cases hnone⟩

theorem change_reported {report : Zmap} {good : UpdateReport → Prop} {request : PubRequest}
    {method : IntRequest → Except Exn Zmap} (hserved : served convert method request = .ok report)
    (hfills : Ends (fillReport env report) ⟨none, none⟩ (fun _ respond => good respond)
      (fun _ _ => False)) :
    Ends (change env convert method false request) .start
      (fun _ call => call.finished = [.ok] ∧ good call.respond) (fun _ _ => False) := by
  simp only [change, Bool.false_eq_true, if_false, ends_bind, ends_tryCatch, ends_ofExcept,
    onRespond, ends_within, ends_pure, finish, ends_modify]
  unfold served at hserved
  cases hargs : convert request with
  | error e =>
      rw [hargs] at hserved
      cases hserved
  | ok thearg =>
      rw [hargs] at hserved
      have hreport : method thearg = .ok report := hserved
      simp only [hreport]
      exact hfills.imp (fun _ respond hgood => ⟨rfl, hgood⟩) fun _ _ hfalse => hfalse.elim

theorem change_faulted (hreads : env.ReadsReports) {request : PubRequest}
    {method : IntRequest → Except Exn Zmap} {e : Exn}
    (hserved : served convert method request = .error e) :
    Ends (change env convert method false request) .start
      (fun _ call => call.finished = [.ok] ∧ Delivers call.respond false) (fun _ _ => False) := by
  have hfault := (fault_delivers hreads).imp
    (fun _ respond hdelivers =>
      (⟨rfl, hdelivers⟩ : [FinishCode.ok] = [.ok] ∧ Delivers respond false))
    fun _ _ hfalse => hfalse
  simp only [change, Bool.false_eq_true, if_false, ends_bind, ends_tryCatch, ends_ofExcept,
    onRespond, ends_within, ends_pure, finish, ends_modify]
  unfold served at hserved
  cases hargs : convert request with
  | error e => exact hfault
  | ok thearg =>
      rw [hargs] at hserved
      have hthrown : method thearg = .error e := hserved
      simp only [hthrown]
      exact hfault

/-- A served call finishes well, with a response that tells of a success or a failure. -/
theorem serve_delivers (hreads : env.ReadsReports) {good : Bool → σ → Prop} {request : PubRequest}
    (hserves : Serves convert method s good request) :
    Ends (serve env convert method false request) s
      (fun exchange s' => exchange.code = 0 ∧ ∃ ok, Delivers exchange.respond ok ∧ good ok s')
      (fun _ _ => False) := by
  unfold serve
  rw [ends_bind, ends_get]
  cases hargs : convert request with
  | error e =>
      have hserved : served convert (methodAt method s) request = .error e := by
        rw [served, hargs]
        rfl
      obtain ⟨_, call, hrun, hfinished, hdelivers⟩ := (change_faulted hreads hserved).returns
      simp only [hrun, Bool.not_false, if_true, ends_pure]
      refine ⟨?_, false, hdelivers, hserves.1⟩
      rw [ServerCall.exchange, hfinished]
      rfl
  | ok thearg =>
      have hends := hserves.2 thearg hargs
      unfold Ends at hends
      have hserved : served convert (methodAt method s) request = methodAt method s thearg := by
        rw [served, hargs]
        rfl
      have hnumber : ∀ call : ServerCall, call.finished = [.ok] → call.exchange.code = 0 := by
        intro call hfinished
        rw [ServerCall.exchange, hfinished]
        rfl
      split at hends
      next report s' hmethod =>
        obtain ⟨⟨stored, hstored, hreport⟩, hgood⟩ := hends
        have hok : served convert (methodAt method s) request = .ok report := by
          rw [hserved, methodAt, hmethod]
        obtain ⟨_, call, hrun, hfinished, hdelivers⟩ :=
          (change_reported hok (fillReport_delivers hreads hstored hreport)).returns
        simp only [hrun, Bool.not_false, if_true, hmethod, ends_bind, ends_set, ends_pure]
        exact ⟨hnumber call hfinished, _, hdelivers, hgood⟩
      next thrown s' hmethod =>
        have herror : served convert (methodAt method s) request =
            .error (.other "thrown by the service") := by
          rw [hserved, methodAt, hmethod]
        obtain ⟨_, call, hrun, hfinished, hdelivers⟩ := (change_faulted hreads herror).returns
        simp only [hrun, Bool.not_false, if_true, hmethod, ends_bind, ends_set, ends_pure]
        exact ⟨hnumber call hfinished, _, hdelivers, hends⟩

/-- A cancelled call leaves the service as it was. -/
theorem serve_cancelled (request : PubRequest) :
    Ends (serve env convert method true request) s
      (fun exchange s' => exchange.code = 1 ∧ s' = s) (fun _ _ => False) := ⟨rfl, rfl⟩

theorem succeeded_statusReport {code : Int32} (hcode : code ≠ 0) (message : String) :
    succeeded (statusReport code message) = false := by
  have hreport : statusReport code message = report code message := rfl
  rw [hreport, succeeded_report]
  exact beq_false_of_ne hcode

theorem outcome_failed {exchange : Exchange} (hcode : exchange.code ≠ 0) :
    ∃ answer, GrpcWaiter.outcome ⟨[], false⟩ exchange = .ok answer ∧ succeeded answer = false := by
  unfold GrpcWaiter.outcome
  rw [if_neg hcode]
  exact ⟨_, rfl, succeeded_statusReport hcode _⟩

theorem outcome_failure (failure : Failure) : ∃ answer,
    GrpcWaiter.outcome ⟨[], false⟩ ⟨failure.code, failure.message, none, none⟩ = .ok answer ∧
      succeeded answer = false :=
  outcome_failed failure.failed

/-- What a client is told of the service, unless the response was lost. -/
def Told (good : Bool → σ → Prop) (fate : Fate) (answer : Zmap) (s : σ) : Prop :=
  match fate with
  | .unanswered _ => ∃ ok, good ok s
  | _ => good (succeeded answer) s

/-- However a call ends, `Done` has a report for the client. -/
theorem exchanged_tells (hreads : env.ReadsReports) {good : Bool → σ → Prop} (fate : Fate)
    {request : PubRequest} (hserves : Serves convert method s good request) :
    Ends (exchanged env convert method fate request) s
      (fun exchange s' => ∃ answer, GrpcWaiter.outcome ⟨[], false⟩ exchange = .ok answer ∧
        Told good fate answer s') (fun _ _ => False) := by
  cases fate with
  | lost failure =>
      obtain ⟨answer, hanswer, hfailed⟩ := outcome_failure failure
      refine ⟨answer, hanswer, ?_⟩
      change good (succeeded answer) _
      rw [hfailed]
      exact hserves.1
  | cancelled =>
      have hcancelled : Ends (serve env convert method true request) s
          (fun exchange s' => exchange.code = 1 ∧ s' = s) (fun _ _ => False) :=
        serve_cancelled request
      refine hcancelled.imp ?_ fun _ _ hfalse => hfalse
      rintro exchange _ ⟨hcode, rfl⟩
      have hne : exchange.code ≠ 0 := by
        rw [hcode]
        decide
      obtain ⟨answer, hanswer, hfailed⟩ := outcome_failed hne
      refine ⟨answer, hanswer, ?_⟩
      change good (succeeded answer) _
      rw [hfailed]
      exact hserves.1
  | unanswered failure =>
      obtain ⟨answer, hanswer, -⟩ := outcome_failure failure
      rw [exchanged, ends_bind]
      refine (serve_delivers hreads hserves).imp ?_ fun _ _ hfalse => hfalse
      rintro _ s' ⟨-, ok, -, hgood⟩
      exact ⟨answer, hanswer, ok, hgood⟩
  | answered =>
      refine (serve_delivers hreads hserves).imp ?_ fun _ _ hfalse => hfalse
      rintro ⟨_, message, respond⟩ s' ⟨rfl, ok, hdelivers, hgood⟩
      obtain ⟨answer, hanswer, hsucceeded⟩ := outcome_delivers hdelivers message
      refine ⟨answer, hanswer, ?_⟩
      change good (succeeded answer) s'
      rw [hsucceeded]
      exact hgood

/-- A call that is made returns a report; a request that cannot be made touches nothing. -/
theorem callService_tells (hreads : env.ReadsReports) {good : Bool → σ → Prop} (fate : Fate)
    {message : Except Exn PubRequest}
    (hserves : ∀ request, message = .ok request → Serves convert method s good request) :
    Ends (callService env convert method fate message) s (Told good fate)
      (fun _ s' => s' = s) := by
  unfold callService
  rw [ends_bind, ends_ofExcept]
  cases message with
  | error e => rfl
  | ok request =>
      simp only [ends_bind]
      refine (exchanged_tells hreads fate (hserves request rfl)).imp ?_
        fun _ _ hfalse => hfalse.elim
      rintro exchange s' ⟨answer, hanswer, htold⟩
      rw [ends_ofExcept, hanswer]
      exact htold

end Call

/-! ## The account and the store -/

section Account

variable {lib : Structo β T B F C} {client : ClientEnv T} {server : ServerEnv} {text : TextEnv T H}
  {account : Account} {s s' : StructoSearch β F C}

/-- The account behind a change of one id that succeeded or not. -/
def Account.changed (account : Account) (id : String) (value : Option Zmap) (ok : Bool) : Account :=
  if ok = true then Function.update account id (some value) else account

/-- Whatever became of the change, the client is right to be unsure. -/
theorem Account.Holds.unsure {widetombcs : WideStr → String} {id : String} {value : Option Zmap}
    {ok : Bool} (hholds : (account.changed id value ok).Holds lib widetombcs s) :
    Account.Holds lib widetombcs (Function.update account id none) s := by
  intro other hother known hknown
  by_cases hsame : other = id
  · subst hsame
    rw [Function.update_self] at hknown
    cases hknown
  · rw [Function.update_of_ne hsame] at hknown
    apply hholds other hother
    cases ok with
    | false => exact hknown
    | true =>
        rw [Account.changed, if_pos rfl, Function.update_of_ne hsame]
        exact hknown

theorem Account.Holds.record {widetombcs : WideStr → String} {id : String} {value : Option Zmap}
    {fate : Fate} {answer : Zmap}
    (htold : Told (fun ok s => (account.changed id value ok).Holds lib widetombcs s) fate answer
      s) :
    (account.record fate answer id value).Holds lib widetombcs s := by
  cases fate with
  | unanswered failure =>
      obtain ⟨ok, hholds⟩ := htold
      exact hholds.unsure
  | lost failure => exact htold
  | cancelled => exact htold
  | answered => exact htold

/-- An operation that puts a value the client's one stands for under the id. -/
theorem Account.Holds.of_answered {widetombcs : WideStr → String} {id : String} {grown : F → Prop}
    {written : Option (Entity β C) → F → Prop} {answer : Zmap} {value : Option Zmap}
    (hholds : account.Holds lib widetombcs s)
    (hanswered : Structo.Answered s id grown written answer s')
    (hvalue : ∀ entity fieldMan, written entity fieldMan →
      Option.Rel (SameMeaning widetombcs) (entity.map lib.metadataOf) value) :
    (account.changed id value (succeeded answer)).Holds lib widetombcs s' := by
  cases hanswered with
  | success hok hgrown hwritten =>
      rw [Account.changed, if_pos hok]
      intro other hother known hknown
      rw [documents_update]
      by_cases hsame : other = id
      · subst hsame
        rw [Function.update_self] at hknown ⊢
        cases hknown
        exact hvalue _ _ hwritten
      · rw [Function.update_of_ne hsame] at hknown ⊢
        exact hholds other hother known hknown
  | failure hfail hleft =>
      rw [Account.changed, hfail]
      obtain ⟨fieldMan, -, rfl⟩ := hleft
      exact hholds

theorem Account.Holds.of_left {widetombcs : WideStr → String} {grown : F → Prop}
    (hholds : account.Holds lib widetombcs s) (hleft : Structo.Left s grown s') :
    account.Holds lib widetombcs s' := by
  obtain ⟨fieldMan, -, rfl⟩ := hleft
  exact hholds

/-- What an operation of the service does for a client that changes one id. -/
theorem serves_of_answered {PubRequest IntRequest : Type}
    {convert : PubRequest → Except Exn IntRequest}
    {method : IntRequest → Call Thrown (StructoSearch β F C) Zmap} {widetombcs : WideStr → String}
    {request : PubRequest} {id : String} {value : Option Zmap}
    (hholds : account.Holds lib widetombcs s)
    (hmethod : ∀ args, convert request = .ok args → ∃ stored written, Portable stored ∧
      Ends (method args) s (fun answer _ => Reports stored answer) (fun _ _ => True) ∧
      Ends (method args) s (Structo.Answered s id (fun _ => True) written)
        (fun _ => Structo.Left s fun _ => True) ∧
      ∀ entity fieldMan, written entity fieldMan →
        Option.Rel (SameMeaning widetombcs) (entity.map lib.metadataOf) value) :
    Serves convert method s
      (fun ok s' => (account.changed id value ok).Holds lib widetombcs s') request := by
  refine ⟨hholds, fun args hargs => ?_⟩
  obtain ⟨stored, written, hstored, hreports, hanswered, hvalue⟩ := hmethod args hargs
  refine (hreports.and hanswered).imp ?_ fun _ s' hleft => hholds.of_left hleft.2
  intro answer s' hboth
  exact ⟨⟨stored, hstored, hboth.1⟩, hholds.of_answered hboth.2 hvalue⟩

theorem holds_perform (hlib : lib.Lawful) (hreads : server.ReadsReports)
    (htruncates : Truncates client.reduce) (call : Operation T × Fate) (hwf : SentWf call)
    (hholds : account.Holds lib client.widetombcs s) :
    Ends (perform lib client server text call) s
      (fun answer s' => (recordReport call answer s' account).Holds lib client.widetombcs s')
      (fun _ s' => account.Holds lib client.widetombcs s') := by
  have huntouched : ∀ (e : Exn) (s' : StructoSearch β F C), s' = s →
      account.Holds lib client.widetombcs s' := by
    rintro _ _ rfl
    exact hholds
  obtain ⟨op, fate⟩ := call
  cases op with
  | insert args =>
      refine (callService_tells hreads fate fun message hmessage => ?_).imp
        (fun _ _ htold => Account.Holds.record htold) huntouched
      refine serves_of_answered hholds fun received hreceived => ?_
      obtain ⟨hid, hportable, hsame⟩ := insert_arrives htruncates hwf hmessage hreceived
      have hpack : ∀ body, Ends (lib.pack body) s.fieldMan (fun _ _ => True ∧ True)
          (fun _ _ => True) := fun _ => ends_of_forall (fun _ _ => ⟨trivial, trivial⟩)
            (fun _ _ => trivial)
      have hinsert : Ends (lib.insert received) s
          (Structo.Answered s received.objectId (fun _ => True)
            (lib.StoredBy received fun _ _ => True)) (fun _ => Structo.Left s fun _ => True) :=
        Structo.ends_insert _ trivial hpack
      refine ⟨received.metadata, _, hportable, insert_reports hlib received, hid ▸ hinsert, ?_⟩
      rintro entity - ⟨bundle, contents, rfl, -⟩
      rw [Option.map_some, metadataOf_serialize hlib]
      exact .some hsame
  | update args =>
      refine (callService_tells hreads fate fun message hmessage => ?_).imp
        (fun _ _ htold => Account.Holds.record htold) huntouched
      refine serves_of_answered hholds fun received hreceived => ?_
      obtain ⟨hid, hportable, hsame⟩ := update_arrives htruncates hwf hmessage hreceived
      have hupdate : Ends (lib.update received) s
          (Structo.Answered s received.objectId (fun _ => True) fun entity _ => ∃ old,
            s.ctxIndex received.objectId = some old ∧
              entity = some { old with extra := lib.serialize received.metadata })
          (fun _ => Structo.Left s fun _ => True) := Structo.ends_update trivial
      refine ⟨received.metadata, _, hportable, update_reports hlib received, hid ▸ hupdate, ?_⟩
      rintro entity - ⟨old, -, rfl⟩
      rw [Option.map_some, metadataOf_serialize hlib]
      exact .some hsame
  | remove args =>
      refine (callService_tells hreads fate fun message hmessage => ?_).imp
        (fun _ _ htold => Account.Holds.record htold) huntouched
      refine serves_of_answered hholds fun received hreceived => ?_
      have hid := remove_arrives hmessage hreceived
      have hremove : Ends (lib.remove received) s
          (Structo.Answered s received.objectId (fun _ => True) fun entity _ => entity = none)
          (fun _ => Structo.Left s fun _ => True) := Structo.ends_remove trivial
      refine ⟨[], _, portable_nil, remove_reports [] received, hid ▸ hremove, ?_⟩
      rintro entity - rfl
      exact .none
  | commit => exact hholds

end Account

/-- Whatever is called, one call after the other and with metadata in normal form, and whatever the
channel loses, what a client is sure of is so: under every id but the service's own the store holds
the documents the account has, with metadata that says what was sent if it fits the wire, and none
the account says are gone. -/
theorem remote_store {lib : Structo β T B F C} (hlib : lib.Lawful) {client : ClientEnv T}
    (htruncates : Truncates client.reduce) {server : ServerEnv} (hreads : server.ReadsReports)
    (text : TextEnv T H) (s : StructoSearch β F C) {calls : List (Operation T × Fate)}
    (hsent : ∀ call ∈ calls, SentWf call) :
    (remoteSession lib client server text s calls).seen.Holds lib client.widetombcs
      (remoteSession lib client server text s calls).state := by
  have hkeep : ∀ s account (call : Operation T × Fate), SentWf call →
      Account.Holds lib client.widetombcs account s →
      Ends (perform lib client server text call) s
        (fun answer s' => (recordReport call answer s' account).Holds lib client.widetombcs s')
        (fun _ s' => account.Holds lib client.widetombcs s') :=
    fun _ _ call hwf hholds => holds_perform hlib hreads htruncates call hwf hholds
  refine Session.run_invariant_of_forall hkeep ?_ hsent
  intro id _ value hvalue
  rw [← Option.some.inj hvalue]
  cases lib.documents s.ctxIndex id with
  | none => exact .none
  | some m => exact .some fun _ => rfl

/-! ## A client of a service whose libraries do little -/

/-- Texts are empty; a floating number that does not fit becomes zero. -/
def plainClient : ClientEnv Unit where
  widetombcs := fun _ => ""
  reduce x := (Number.toInt32? x).getD 0
  pages := plainPages
  getLength _ := 0
  serialize _ _ _ _ := pure ⟨⟩

theorem plainClient_truncates : Truncates plainClient.reduce := by
  intro x n hx
  change (Number.toInt32? x).getD 0 = n
  rw [hx]
  rfl

def plainText : TextEnv Unit Unit where
  pages := plainPages.toCodepages
  api := ⟨fun _ _ => pure ⟨⟩, fun _ _ _ => pure ⟨⟩⟩
  root := ⟨⟩
  emptyText := ⟨⟩

theorem plainServer_readsReports : plainServer.ReadsReports := by
  intro code info attr
  simp [plainServer, report, Zmap.getZmap, Zmap.getCharstr, Http.status]

def unavailable : Failure := ⟨14, "failed to connect to all addresses", by decide⟩

def deadlineExceeded : Failure := ⟨4, "Deadline Exceeded", by decide⟩

/-- Two insertions, the second with its response lost, and a removal that does not arrive. -/
def threeCalls : List (Operation Unit × Fate) :=
  [(insertAs "readme" titled, .answered), (insertAs "notes" titled, .unanswered deadlineExceeded),
    (.remove { objectId := "readme" }, .lost unavailable)]

theorem remote_store_threeCalls :
    Option.Rel (SameMeaning fun _ => "")
      (plainStructo.documents
        (remoteSession plainStructo plainClient plainServer plainText emptyService
          threeCalls).state.ctxIndex "readme") (some titled) ∧
    (remoteSession plainStructo plainClient plainServer plainText emptyService
      threeCalls).seen "notes" = none := by
  have hsent : ∀ call ∈ threeCalls, SentWf call := by
    have htitled : Zmap.Wf titled :=
      Zmap.Wf.put ⟨List.Pairwise.nil, trivial⟩ "title" trivial
    exact List.forall_mem_cons.mpr ⟨htitled, List.forall_mem_cons.mpr
      ⟨htitled, List.forall_mem_singleton.mpr trivial⟩⟩
  have hholds := remote_store plainStructo_lawful plainClient_truncates plainServer_readsReports
    plainText emptyService hsent
  exact ⟨hholds "readme" (by decide) (some titled) rfl, rfl⟩

end Palmira.Grpc
