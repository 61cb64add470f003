import Palmira.Http.Requests
import Palmira.Service.Store

/-!
# A store at the other end of a connection

A client of the HTTP service, the server with the service behind it, and a
connection that may lose a request or a respond. What the client is told goes
through its callback.
-/

namespace Palmira.Http

open Effects Palmira.Service

variable {T σ Args : Type}

/-! ## A call -/

section Serve

variable (env : HandlerEnv T) (service : Methods T σ)

def health : Handled :=
  ⟨[outputJSON env.print healthRespond (Zmap.put [] "status" (.zmap (status 0 "OK")))], none⟩

/-- A request at the server: what its handler does, and the service behind it. A path that has no
handler is answered by the library. -/
def serve (fuel : ℕ) (path : String) (req : Request) (src : Option Bytes) (cancelled : Bool)
    (s : σ) : Option (Handled × σ) :=
  match route path req.method with
  | some (.action method) =>
      ((method.handler service s).call env fuel req src cancelled).map fun handled =>
        match method.asks env fuel req src cancelled with
        | some call => (handled, ((service.perform call).run.run s).2)
        | none => (handled, s)
  | some .health => some (health env, s)
  | none => some (⟨[], none⟩, s)

end Serve

/-- What becomes of a request: it is lost, the server finds it cancelled, the respond is lost, or
the client gets the respond. -/
inductive Delivery where
  | lost (status : ExecStatus) (failed : status ≠ .ok)
  | cancelled
  | unanswered (status : ExecStatus) (failed : status ≠ .ok)
  | answered

/-- What `Done` is called with when the callback is told this. -/
def ClientImpl.told (client : ClientImpl) (fuel : ℕ) (status : ExecStatus) (res : Message)
    (stm : Option Bytes) : List Zmap :=
  ((action client.callback fuel status res stm).map Outcome.done).getD []

section Exchange

variable (env : HandlerEnv T) (service : Methods T σ) (http : Remottp) (client : ClientImpl)

/-- What the client is told of what the handler did. A handler that does not come to an end tells
it nothing. -/
def ClientImpl.hears (fuel : ℕ) (handled : Option Handled) : List Zmap :=
  match handled with
  | some handled =>
      match handled.sent.head? with
      | some (res, body) =>
          client.told fuel (http.execStatus (some res.statusCode)) res.toMessage (some body)
      | none => client.told fuel (http.execStatus none) ⟨[]⟩ none
  | none => []

/-- The server's side of a call. -/
def handle (fuel : ℕ) (call : ServiceCall T) (cancelled : Bool) :
    Call Exn σ (Option Handled) := do
  let sent := client.modify http (call.contents env.formats) (call.uristr http)
  match serve env service fuel sent.path sent.request (some sent.body) cancelled (← get) with
  | some (handled, s) =>
      set s
      return some handled
  | none => return none

/-- A call of the client: the reports `Done` is called with. -/
def exchange (fuel : ℕ) (call : ServiceCall T × Delivery) : Call Exn σ (List Zmap) :=
  match call with
  | (_, .lost status _) => return client.told fuel status ⟨[]⟩ none
  | (call, .cancelled) => do
      return client.hears http fuel (← handle env service http client fuel call true)
  | (call, .unanswered status _) => do
      let _ ← handle env service http client fuel call false
      return client.told fuel status ⟨[]⟩ none
  | (call, .answered) => do
      return client.hears http fuel (← handle env service http client fuel call false)

/-- The service and the reports its clients were given. -/
def remoteSession (fuel : ℕ) (s : σ) (calls : List (ServiceCall T × Delivery)) :
    Session σ (List Zmap) :=
  Session.run (exchange env service http client fuel) (fun _ reports _ seen => seen ++ reports)
    ⟨s, []⟩ calls

end Exchange

/-! ## The server's side of a call -/

section Serve

variable {env : HandlerEnv T} {service : Methods T σ} {s : σ}

section Routed

variable {method : ServiceMethod} {call : ServiceCall T} {fuel : ℕ} {path : String} {req : Request}
  {src : Option Bytes} {cancelled : Bool}

theorem serve_asked (hroute : route path req.method = some (.action method))
    (hasks : method.asks env fuel req src cancelled = some call) :
    serve env service fuel path req src cancelled s =
      some (answer env (raised (called service.perform s call)),
        ((service.perform call).run.run s).2) := by
  rcases call_asks method fuel req src cancelled with ⟨call', hasks', hcall⟩ | ⟨hnone, -⟩
  · obtain rfl := Option.some.inj (hasks.symm.trans hasks')
    simp only [serve, hroute, hasks]
    rw [hcall]
    rfl
  · rw [hasks] at hnone
    cases hnone

theorem serve_unasked (hroute : route path req.method = some (.action method))
    (hasks : method.asks env fuel req src cancelled = none) {handled : Handled} {s' : σ}
    (hserve : serve env service fuel path req src cancelled s = some (handled, s')) : s' = s := by
  simp only [serve, hroute, hasks] at hserve
  obtain ⟨_, -, hfound⟩ := Option.map_eq_some_iff.mp hserve
  exact (congrArg Prod.snd hfound).symm

end Routed

end Serve

/-! ## What the client is told -/

/-- The report of an exchange that did not come to a respond. -/
def Failed (report : Zmap) : Prop :=
  report = statusReport EFAULT "network exchange error" ∨
    report = statusReport ETIMEDOUT "request timed out"

/-- A message without an encoding whose type the client does not know. -/
structure Untyped (res : Message) : Prop where
  encoding : res.get "Content-Encoding" = ""
  not_json : startsWith (res.get "Content-Type") 16 "application/json" = false
  not_dump : startsWith (res.get "Content-Type") 24 "application/octet-stream" = false

section Told

variable {client : ClientImpl} {env : HandlerEnv T} {http : Remottp}

theorem told_of_not_ok (fuel : ℕ) {status : ExecStatus} (hstatus : status ≠ .ok) (res : Message)
    (stm : Option Bytes) : ∀ report ∈ client.told fuel status res stm, Failed report := by
  intro report hreport
  cases status with
  | ok => exact absurd rfl hstatus
  | failed => exact .inl (List.mem_singleton.mp hreport)
  | invalid => exact .inl (List.mem_singleton.mp hreport)
  | timedOut => exact .inr (List.mem_singleton.mp hreport)
  | other => exact .inr (List.mem_singleton.mp hreport)

/-- Loading a report from such a message throws, and `Done` is not called. -/
theorem told_of_untyped {res : Message} (huntyped : Untyped res) (fuel : ℕ) (status : ExecStatus)
    (body : Bytes) : ∀ report ∈ client.told fuel status res (some body), Failed report := by
  by_cases hok : status = .ok
  · subst hok
    have hinflate : inflateMessage client.callback fuel res body = some (.ok (body, body)) := by
      rw [inflateMessage]
      exact if_pos huntyped.encoding
    have hparse : parseReport client.callback res body body =
        .error (.invalidArgument "Unexpected content-type") := by
      rw [parseReport, huntyped.not_json, huntyped.not_dump]
      rfl
    have hload : loadReport client.callback fuel res (some body) =
        some (.error (.invalidArgument "Unexpected content-type")) := by
      simp only [loadReport, hinflate]
      exact congrArg some hparse
    intro report hreport
    simp only [ClientImpl.told, action, hload] at hreport
    exact absurd hreport List.not_mem_nil
  · exact told_of_not_ok fuel hok res (some body)

theorem answer_untyped (res : Except Raised Zmap) :
    ∀ sent ∈ (answer env res).sent, Untyped sent.1.toMessage := by
  have haction : Untyped actionRespond.toMessage := ⟨by decide, by decide, by decide⟩
  have hbad : Untyped (badRespond.withHeaders [("Content-Type", "text/html")]).toMessage :=
    ⟨by decide, by decide, by decide⟩
  cases res with
  | ok report => exact List.forall_mem_singleton.mpr haction
  | error e =>
      cases e with
      | parseError lineid what => exact List.forall_mem_singleton.mpr haction
      | thrown e =>
          cases e with
          | invalidArgument what => exact List.forall_mem_singleton.mpr hbad
          | _ => exact nofun

theorem actionCall_untyped {jsonLoad zmapLoad : Request → Option Bytes → Except Raised Args}
    {method : Args → Except Exn Zmap} {fuel : ℕ} {req : Request} {src : Option Bytes}
    {cancelled : Bool} {handled : Handled}
    (hcall : actionCall env jsonLoad zmapLoad method fuel req src cancelled = some handled) :
    ∀ sent ∈ handled.sent, Untyped sent.1.toMessage := by
  have huntyped : Untyped
      (Respond.withHeaders ⟨⟨[]⟩, .ok⟩ [("Content-Type", "text/html")]).toMessage :=
    ⟨by decide, by decide, by decide⟩
  unfold actionCall at hcall
  cases hunpacked : inflateRequest env fuel req.toMessage src with
  | none =>
      rw [hunpacked] at hcall
      cases hcall
  | some unpacked =>
      rw [hunpacked] at hcall
      cases unpacked with
      | error e =>
          cases hcall
          exact nofun
      | ok stream =>
          cases cancelled with
          | true =>
              cases hcall
              exact List.forall_mem_singleton.mpr huntyped
          | false =>
              cases hcall
              exact answer_untyped _

theorem serve_untyped {service : Methods T σ} {fuel : ℕ} {path : String} {req : Request}
    {src : Option Bytes} {cancelled : Bool} {s s' : σ} {handled : Handled}
    (hserve : serve env service fuel path req src cancelled s = some (handled, s')) :
    ∀ sent ∈ handled.sent, Untyped sent.1.toMessage := by
  have hhealth : Untyped healthRespond.toMessage := ⟨by decide, by decide, by decide⟩
  unfold serve at hserve
  cases hroute : route path req.method with
  | none =>
      rw [hroute] at hserve
      cases hserve
      exact nofun
  | some entry =>
      rw [hroute] at hserve
      cases entry with
      | health =>
          cases hserve
          exact List.forall_mem_singleton.mpr hhealth
      | action method =>
          obtain ⟨found, hcall, hfound⟩ := Option.map_eq_some_iff.mp hserve
          have hhandled : handled = found := by
            cases hasks : method.asks env fuel req src cancelled with
            | none =>
                rw [hasks] at hfound
                exact (congrArg Prod.fst hfound).symm
            | some call =>
                rw [hasks] at hfound
                exact (congrArg Prod.fst hfound).symm
          rw [call_handler] at hcall
          exact hhandled ▸ actionCall_untyped hcall

theorem hears_failed (hhttp : http.Lawful) (fuel : ℕ) {handled : Option Handled}
    (huntyped : ∀ done, handled = some done → ∀ sent ∈ done.sent, Untyped sent.1.toMessage) :
    ∀ report ∈ client.hears http fuel handled, Failed report := by
  cases handled with
  | none => exact nofun
  | some done =>
      cases hsent : done.sent.head? with
      | none =>
          simp only [ClientImpl.hears, hsent]
          exact told_of_not_ok fuel hhttp.execStatus_none ⟨[]⟩ none
      | some sent =>
          simp only [ClientImpl.hears, hsent]
          exact told_of_untyped (huntyped done rfl sent (List.mem_of_head? hsent)) fuel _ _

end Told

/-! ## What becomes of a call -/

section Exchange

variable {env : HandlerEnv T} {service : Methods T σ} {http : Remottp} {client : ClientImpl}
  {call : ServiceCall T} {s : σ}

/-- The service behind a request of the client: as the call that arrives leaves it, or as it was
before if the request was cancelled. -/
theorem ends_handle (hhttp : http.Lawful) (hcarried : Carried env http client call)
    (cancelled : Bool) :
    ∃ fuel, ∀ more, fuel ≤ more → ∀ s,
      Ends (handle env service http client more call cancelled) s
        (fun handled s' => (s' = if cancelled then s
            else ((service.perform (call.arrives env.formats)).run.run s).2) ∧
          ∀ report ∈ client.hears http more handled, Failed report) (fun _ _ => False) := by
  have hcarries := modify_carries hhttp hcarried.restored (call.uristr http)
  obtain ⟨fuel, hasks⟩ := asks_carried hcarries hcarried.fetched
  have hroute := route_uristr hhttp call
  have hpath : (client.modify http (call.contents env.formats) (call.uristr http)).path =
      (http.parseUri (call.uristr http)).1 := rfl
  refine ⟨fuel, fun more hmore s => ?_⟩
  unfold handle
  generalize client.modify http (call.contents env.formats) (call.uristr http) = sent at *
  rw [← hpath, ← hcarries.method] at hroute
  simp only [ends_bind, ends_get]
  cases hserve : serve env service more sent.path sent.request (some sent.body) cancelled s with
  | none =>
      simp only [ends_pure]
      refine ⟨?_, List.forall_mem_nil _⟩
      cases cancelled with
      | true => rfl
      | false =>
          rw [serve_asked hroute (hasks more hmore)] at hserve
          cases hserve
  | some served =>
      obtain ⟨handled, s'⟩ := served
      simp only [ends_bind, ends_set, ends_pure]
      refine ⟨?_, hears_failed hhttp more ?_⟩
      · cases cancelled with
        | true => exact serve_unasked hroute (asks_cancelled _ _ _ _) hserve
        | false =>
            rw [serve_asked hroute (hasks more hmore)] at hserve
            exact congrArg Prod.snd (Option.some.inj hserve).symm
      · rintro _ ⟨⟩
        exact serve_untyped hserve

/-- The call of the service that comes of a client's call, if any does. -/
def arrival (f : Formats UInt8 T) : ServiceCall T × Delivery → Option (ServiceCall T)
  | (_, .lost _ _) => none
  | (_, .cancelled) => none
  | (call, .unanswered _ _) => some (call.arrives f)
  | (call, .answered) => some (call.arrives f)

theorem ends_exchange (hhttp : http.Lawful) {call : ServiceCall T × Delivery}
    (hcarried : Carried env http client call.1) : ∃ fuel, ∀ more, fuel ≤ more → ∀ s,
      Ends (exchange env service http client more call) s
        (fun reports s' => (s' = (arrival env.formats call).elim s fun arrived =>
            ((service.perform arrived).run.run s).2) ∧
          ∀ report ∈ reports, Failed report) (fun _ _ => False) := by
  obtain ⟨call, delivery⟩ := call
  cases delivery with
  | lost status hstatus => exact ⟨0, fun _ _ _ => ⟨rfl, told_of_not_ok _ hstatus ⟨[]⟩ none⟩⟩
  | cancelled =>
      obtain ⟨fuel, hends⟩ := ends_handle hhttp hcarried true
      refine ⟨fuel, fun more hmore s => ?_⟩
      rw [exchange, ends_bind]
      exact (hends more hmore s).imp (fun _ _ hboth => hboth) fun _ _ hfalse => hfalse
  | unanswered status hstatus =>
      obtain ⟨fuel, hends⟩ := ends_handle hhttp hcarried false
      refine ⟨fuel, fun more hmore s => ?_⟩
      rw [exchange, ends_bind]
      refine (hends more hmore s).imp ?_ fun _ _ hfalse => hfalse
      exact fun _ _ hboth => ⟨hboth.1, told_of_not_ok _ hstatus ⟨[]⟩ none⟩
  | answered =>
      obtain ⟨fuel, hends⟩ := ends_handle hhttp hcarried false
      refine ⟨fuel, fun more hmore s => ?_⟩
      rw [exchange, ends_bind]
      exact (hends more hmore s).imp (fun _ _ hboth => hboth) fun _ _ hfalse => hfalse

end Exchange

/-! ## The store behind the server -/

section Store

variable {β B F C : Type}

/-- The service; a search only reads. -/
def storeMethods (lib : Structo β T B F C)
    (search : SearchArgs → StructoSearch β F C → Zmap) : Methods T (StructoSearch β F C) where
  insert := lib.insert
  update := lib.update
  remove := lib.remove
  search args := do return search args (← get)

/-- The operation of the store that a call of the service is. -/
def ServiceCall.operation : ServiceCall T → Option (Operation T)
  | .insert args => some (.insert args)
  | .update args => some (.update args)
  | .remove args => some (.remove args)
  | .search _ => none

/-- The operation of the store that comes of a client's call. -/
def received (f : Formats UInt8 T) (call : ServiceCall T × Delivery) : Option (Operation T) :=
  (arrival f call).bind ServiceCall.operation

/-- The service does for a call what the store does for the operation it is. -/
theorem perform_storeMethods (lib : Structo β T B F C)
    (search : SearchArgs → StructoSearch β F C → Zmap) (f : Formats UInt8 T)
    (call : ServiceCall T × Delivery) (s : StructoSearch β F C) :
    ((arrival f call).elim s fun arrived =>
      (((storeMethods lib search).perform arrived).run.run s).2) =
    (received f call).elim s fun op => ((lib.perform op).run.run s).2 := by
  unfold received
  cases arrival f call with
  | none => rfl
  | some arrived =>
      cases arrived with
      | insert args => rfl
      | update args => rfl
      | remove args => rfl
      | search args => rfl

/-- Whatever requests that can be carried the clients send, one after the other, and whatever the
connection loses, the store is as a session at the server leaves it with the calls that arrived,
each made once and in their order; and no client is told of anything but failures. -/
theorem remote_session {env : HandlerEnv T} {http : Remottp} (hhttp : http.Lawful)
    {client : ClientImpl} (lib : Structo β T B F C)
    (search : SearchArgs → StructoSearch β F C → Zmap) (s : StructoSearch β F C)
    {calls : List (ServiceCall T × Delivery)}
    (hcarried : ∀ call ∈ calls, Carried env http client call.1) : ∃ fuel, ∀ more, fuel ≤ more →
      (remoteSession env (storeMethods lib search) http client more s calls).state =
        (session lib s (calls.filterMap (received env.formats))).state ∧
      ∀ report ∈ (remoteSession env (storeMethods lib search) http client more s calls).seen,
        Failed report := by
  have hends : ∀ call ∈ calls, ∃ fuel, ∀ more, fuel ≤ more → ∀ later, more ≤ later → ∀ s,
      Ends (exchange env (storeMethods lib search) http client later call) s
        (fun reports s' => (s' = (received env.formats call).elim s fun op =>
            ((lib.perform op).run.run s).2) ∧
          ∀ report ∈ reports, Failed report) (fun _ _ => False) := by
    intro call hcall
    obtain ⟨fuel, hfuel⟩ := ends_exchange hhttp (hcarried call hcall)
    refine ⟨fuel, fun more hmore later hlater s => ?_⟩
    rw [← perform_storeMethods lib search env.formats call s]
    exact hfuel later (hmore.trans hlater) s
  obtain ⟨fuel, hfuel⟩ := Loop.exists_budget hends
  refine ⟨fuel, fun more hmore => ⟨?_, ?_⟩⟩
  · refine Session.run_state_filterMap (received env.formats) (fun call hcall s => ?_) rfl
    obtain ⟨_, _, hrun, hstate, -⟩ := (hfuel call hcall more hmore s).returns
    rw [hrun]
    exact hstate
  · have hkeep : ∀ s seen call, call ∈ calls → (∀ report ∈ seen, Failed report) →
        Ends (exchange env (storeMethods lib search) http client more call) s
          (fun reports _ => ∀ report ∈ seen ++ reports, Failed report)
          (fun _ _ => ∀ report ∈ seen, Failed report) := by
      intro s seen call hcall hseen
      refine (hfuel call hcall more hmore s).imp ?_ fun _ _ hfalse => hfalse.elim
      exact fun reports _ hboth => List.forall_mem_append.mpr ⟨hseen, hboth.2⟩
    exact Session.run_invariant_of_forall hkeep (List.forall_mem_nil _) fun _ hcall => hcall

end Store

/-! ## A client whose insertion is deflated -/

def readme : ServiceCall Unit := .insert { objectId := "readme", textview := () }

def mutedFormats : Formats UInt8 Unit where
  serialize _ := [noiseAt 0]
  fetchFrom _ := none
  serializeText _ := (noise 0x201).tail
  fetchText _ := some ((), [])
  loadTags _ := .error (.other "tags expected")
  loadJson _ := .error (.other "json expected")
  emptyText := ()
  getLength _ := 0x200
  zvalEmpty
    | .untyped => true
    | _ => false
  uriDecode uri := uri

/-- Formats of one map and one text, which make bytes that zlib does not compress. -/
def noiseFormats : Formats UInt8 Unit :=
  { mutedFormats with
    fetchFrom := fun
      | _ :: rest => some (readme.header mutedFormats, rest)
      | [] => none }

def noiseServer : HandlerEnv Unit where
  formats := noiseFormats
  zlib := oneStream (storedForm (noise 0x201)) 0x100 (noise 0x201)
  avail₀ := 1
  parse _ := .error (.thrown (.other "json expected"))
  parseInput _ := .error (.thrown (.other "json expected"))
  parseQuery _ := .error (.thrown (.other "query expected"))
  parseWideQuery _ := .error (.thrown (.other "query expected"))
  getInt32 _ _ missing := missing
  print _ := []
  statusText _ := ""

/-- A request with the headers it is given, and URIs as they are written. -/
def plainHttp : Remottp where
  newRequest := []
  setHeaders headers more := more ++ headers
  uriEncode id := id
  parseUri uri := (String.ofList (uri.toList.takeWhile fun c => c != '?'), [])
  execStatus
    | some _ => .ok
    | none => .failed

theorem plainHttp_lawful : plainHttp.Lawful where
  get_plain value name hname := by
    rcases hname with rfl | rfl <;> rfl
  get_self headers name value := by simp [plainHttp, Message.get]
  parseUri_path path hpath id := by
    have hclean : path.toList.all (fun c => c != '?') = true := by
      simp only [List.mem_cons, List.not_mem_nil, or_false] at hpath
      rcases hpath with rfl | rfl | rfl <;> rfl
    have hquery : ("?id=" ++ id).toList.takeWhile (fun c => c != '?') = [] := by
      simp [String.toList_append]
    change String.ofList ((path ++ "?id=" ++ id).toList.takeWhile _) = path
    rw [String.append_assoc, String.toList_append,
      List.takeWhile_append_of_pos (List.all_eq_true.mp hclean), hquery, List.append_nil,
      String.ofList_toList]
  parseUri_search := by decide
  execStatus_none := nofun

theorem plainHttp_keepsHeaders : plainHttp.KeepsHeaders := by
  intro headers name value other hne
  simp [plainHttp, Message.get, hne]

def deflating : ClientImpl := ⟨.deflate, storing, quietClient⟩

theorem readme_contents : readme.contents noiseFormats = noise 0x201 := by
  simp only [ServiceCall.contents, readme, InsertArgs.contents, noiseFormats, mutedFormats,
    List.singleton_append]
  exact noise_cons 0x200

theorem readme_carried : Carried noiseServer plainHttp deflating readme where
  fetched := by
    change readme.Fetched noiseFormats
    refine ⟨(noise 0x201).tail, ?_, fun args hargs _ => ⟨[], rfl⟩⟩
    have hcontents : readme.contents noiseFormats = noiseAt 0 :: (noise 0x201).tail :=
      readme_contents.trans (noise_cons 0x200).symm
    rw [hcontents]
    rfl
  restored packed _ _ hdeflate := by
    have hcontents : readme.contents noiseServer.formats = noise 0x201 := readme_contents
    have hne : noise 0x201 ≠ [] := List.ne_nil_of_mem (mem_noise (i := 0) (by decide))
    have hlength : (noise 0x201).length = 0x201 := noise_length 0x201
    rw [hcontents] at hdeflate ⊢
    have hpacked := deflate_ok (storing_deflates (by decide) (by decide)) hne (by omega)
    obtain rfl := Except.ok.inj (hpacked.symm.trans hdeflate)
    refine ⟨plainHttp_keepsHeaders, by omega, ?_, _, _,
      oneStream_inflates (List.cons_ne_nil _ _) _ _⟩
    rw [startSize, storedForm_length _ hne, hlength]
    decide

def twoRequests : List (ServiceCall Unit × Delivery) :=
  [(readme, .unanswered .timedOut nofun), (readme, .lost .failed nofun)]

/-- The insertion arrives although its respond is lost, and it is not made again when the second
request is lost. -/
theorem remote_session_readme : ∃ fuel, ∀ more, fuel ≤ more →
    plainStructo.documents (remoteSession noiseServer (storeMethods plainStructo fun _ _ => [])
      plainHttp deflating more emptyService twoRequests).state.ctxIndex "readme" = some [] ∧
    ∀ report ∈ (remoteSession noiseServer (storeMethods plainStructo fun _ _ => []) plainHttp
      deflating more emptyService twoRequests).seen, Failed report := by
  have hcarried : ∀ call ∈ twoRequests, Carried noiseServer plainHttp deflating call.1 :=
    List.forall_mem_cons.mpr ⟨readme_carried, List.forall_mem_singleton.mpr readme_carried⟩
  obtain ⟨fuel, hfuel⟩ := remote_session plainHttp_lawful plainStructo (fun _ _ => []) emptyService
    hcarried
  refine ⟨fuel, fun more hmore => ?_⟩
  obtain ⟨hstate, hseen⟩ := hfuel more hmore
  rw [hstate]
  exact ⟨rfl, hseen⟩

end Palmira.Http
