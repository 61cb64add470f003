import Palmira.Http.Search
import Palmira.Http.Server

/-!
# The handlers of the server

`ActionCall` stands behind every path of the server. It unpacks the body before
its `try` block, loads the arguments, asks the service and writes a respond; of
what is thrown in the block it answers `parse::error` and `invalid_argument`.
-/

namespace Palmira.Http

/-- `http::Method`; `other` is any method the handlers do not name. -/
inductive Method where
  | GET
  | POST
  | other (name : String)
  deriving DecidableEq

structure Request extends Message where
  method : Method
  parameters : List (String × String)

/-- `GetUri().parameters().get( name, missing )` -/
def Request.parameter (req : Request) (name missing : String) : String :=
  ((req.parameters.find? fun parameter => parameter.1 == name).map Prod.snd).getD missing

/-- What leaves a loader by an exception. -/
inductive Raised where
  | parseError (lineid : ℕ) (what : String)
  | thrown (e : Exn)

/-- What the handlers use of the libraries. A null stream is `none`. -/
structure HandlerEnv (T : Type) where
  formats : Formats UInt8 T
  zlib : Zlib
  avail₀ : ℕ
  parse : Option Bytes → Except Raised Zmap
  parseInput : Option Bytes → Except Raised (Zmap × T)
  parseQuery : String → Except Raised Zval
  parseWideQuery : WideStr → Except Raised Zval
  getInt32 : Zmap → String → Int32 → Int32
  print : Zmap → Bytes
  statusText : StatusCode → String

variable {T : Type} (env : HandlerEnv T)

/-! ## The loaders -/

/-- A call that throws no `parse::error`. -/
def raised {α : Type} (res : Except Exn α) : Except Raised α := res.mapError Raised.thrown

/-- `json::Load( palmira::RemoveArgs& arg, req, src )`. `Access`, `Remove` and `Update` have the
same text in both namespaces. -/
def RemoveArgs.loadJson (arg : RemoveArgs) (req : Request) (src : Option Bytes) :
    Except Raised RemoveArgs := do
  let jsn ← env.parse src
  raised (remove env.formats (fun objectId => { arg with objectId }) req.toMessage jsn)

/-- `json::Load( palmira::UpdateArgs& arg, req, src )` -/
def UpdateArgs.loadJson (arg : UpdateArgs) (req : Request) (src : Option Bytes) :
    Except Raised UpdateArgs := do
  let jsn ← env.parse src
  raised (update env.formats arg.metadata (fun metadata objectId => { arg with metadata, objectId })
    req.toMessage jsn)

/-- `json::Load( palmira::InsertArgs& arg, req, src )` -/
def InsertArgs.loadJson (arg : InsertArgs T) (req : Request) (src : Option Bytes) :
    Except Raised (InsertArgs T) := do
  let (jsData, textview) ← env.parseInput src
  raised (update env.formats arg.metadata
    (fun metadata objectId => { arg with metadata, objectId, textview }) req.toMessage jsData)

/-- The query a JSON request has, as a text or as a map. -/
def loadQuery (jsn : Zmap) : Except Raised Zval :=
  match jsn.get "string", jsn.getZmap "query" with
  | some (.charstr s), _ => env.parseQuery s
  | some (.widestr s), _ => env.parseWideQuery s
  | _, some query => .ok (.zmap query)
  | _, none => .error (.thrown (.invalidArgument
      "request contains neither 'query' nor 'string'"))

/-- `json::Load( palmira::SearchArgs& arg, req, src )`, which is `Search( search, req, jsn )`. -/
def SearchArgs.loadJson (search : SearchArgs) (req : Request) (src : Option Bytes) :
    Except Raised SearchArgs := do
  let jsn ← env.parse src
  let getId := req.parameter "id" "undefined"
  if getId ≠ "undefined" then
    return { search with query := .zmap (Zmap.put [] "id" (.charstr getId)) }
  else
    let order := (search.order.put "first" (.int32 (env.getInt32 jsn "first" 1))).put "count"
      (.int32 (env.getInt32 jsn "count" 10))
    return { search with order, query := ← loadQuery env jsn }

/-! ## The call -/

def EINVAL : Int32 := 22

/-- `unsigned( result.GetStatusCode() )` -/
def StatusCode.number : StatusCode → ℕ
  | .ok => 200
  | .badRequest => 400

/-- `OutputHTML`: the respond passed to `Output` and the body. -/
def outputHTML (result : Respond) (msgstr : String) : Respond × Bytes :=
  (result.withHeaders [("Content-Type", "text/html")],
    ("<html>\n<head><title>" ++ toString result.statusCode.number ++ " " ++
      env.statusText result.statusCode ++ "</title></head>\n<body>" ++ msgstr ++
      "</body>\n</html>\n").toUTF8.toList)

/-- What a call has done: the responds it wrote, and the exception it was left by. -/
structure Handled where
  sent : List (Respond × Bytes)
  escaped : Option Exn

/-- `Inflate( req, src )`, with a budget of rounds: the stream the arguments are read from. -/
def inflateRequest (fuel : ℕ) (req : Message) (src : Option Bytes) :
    Option (Except Exn (Option Bytes)) :=
  let method := req.get "Content-Encoding"
  if method = "" then some (.ok src)
  else if method = "deflate" then
    (inflate env.zlib env.avail₀ fuel src).map fun unpacked => do return some (← unpacked)
  else some (.error (.invalidArgument ("Content-Encoding=" ++ method ++ " not supported")))

/-- The client unpacks a body that is there with the same function, and keeps the stream itself. -/
theorem inflateRequest_eq_inflateMessage {client : ClientEnv} (hzlib : client.zlib = env.zlib)
    (havail : client.avail₀ = env.avail₀) (fuel : ℕ) (req : Message) (body : Bytes) :
    inflateRequest env fuel req (some body) =
      (inflateMessage client fuel req body).map fun res => do return some (← res).1 := by
  unfold inflateRequest inflateMessage
  rw [hzlib, havail]
  by_cases hplain : req.get "Content-Encoding" = ""
  · simp only [if_pos hplain]
    rfl
  · by_cases hdeflate : req.get "Content-Encoding" = "deflate"
    · simp only [if_neg hplain, if_pos hdeflate, Option.map_map]
      congr 1
      funext unpacked
      cases unpacked with
      | error e => rfl
      | ok bytes => rfl
    · simp only [if_neg hplain, if_neg hdeflate]
      rfl

/-- The respond of `ActionCall` for an argument that is not valid. -/
def badRespond : Respond := ⟨⟨[("Access-Control-Allow-Origin", "*")]⟩, .badRequest⟩

section Call

variable {Args : Type} (jsonLoad zmapLoad : Request → Option Bytes → Except Raised Args)
  (service : Args → Except Exn Zmap)

/-- The choice of a loader. -/
def loadArgs (req : Request) (stream : Option Bytes) : Except Raised Args :=
  if startsWith (req.get "Content-Type") 16 "application/json" then jsonLoad req stream
  else if startsWith (req.get "Content-Type") 24 "application/octet-stream" then
    zmapLoad req stream
  else if req.get "Content-Type" = "" ∧ req.method = .GET then jsonLoad req none
  else .error (.thrown (.logicError "Unexpected request method"))

/-- What the `catch` clauses make of what the `try` block did. -/
def answer (res : Except Raised Zmap) : Handled :=
  match res with
  | .ok report => ⟨[outputJSON env.print actionRespond report], none⟩
  | .error (.parseError lineid what) => ⟨[outputJSON env.print actionRespond (statusReport EINVAL
      ("error parsing request body, line " ++ toString lineid ++ ": " ++ what))], none⟩
  | .error (.thrown (.invalidArgument what)) => ⟨[outputHTML env badRespond what], none⟩
  | .error (.thrown e) => ⟨[], some e⟩

/-- `ActionCall::operator()` -/
def actionCall (fuel : ℕ) (req : Request) (src : Option Bytes) (cancelled : Bool) :
    Option Handled :=
  match inflateRequest env fuel req.toMessage src with
  | none => none
  | some (.error e) => some ⟨[], some e⟩
  | some (.ok stream) =>
      if cancelled then
        some ⟨[outputHTML env ⟨⟨[]⟩, .ok⟩ "request cancelled by user"], none⟩
      else
        some (answer env (do
          let args ← loadArgs jsonLoad zmapLoad req stream
          raised (service args)))

end Call

/-- The calls the server registers, each with the method of the service it asks. -/
inductive Handler (T : Type) where
  | remove (service : RemoveArgs → Except Exn Zmap)
  | update (service : UpdateArgs → Except Exn Zmap)
  | insert (service : InsertArgs T → Except Exn Zmap)
  | search (service : SearchArgs → Except Exn Zmap)

/-- Each starts from default arguments. Reading a null stream gives nothing, as reading one at its
end does. -/
def Handler.call : Handler T → ℕ → Request → Option Bytes → Bool → Option Handled
  | .remove service => actionCall env (RemoveArgs.loadJson env {})
      (fun req stream => raised (RemoveArgs.load env.formats {} req.toMessage (stream.getD [])))
      service
  | .update service => actionCall env (UpdateArgs.loadJson env {})
      (fun req stream => raised (UpdateArgs.load env.formats {} req.toMessage (stream.getD [])))
      service
  | .insert service => actionCall env
      (InsertArgs.loadJson env { textview := env.formats.emptyText })
      (fun req stream => raised (InsertArgs.load env.formats { textview := env.formats.emptyText }
        req.toMessage (stream.getD []))) service
  | .search service => actionCall env (SearchArgs.loadJson env {})
      (fun req stream => raised (SearchArgs.load {} req.toMessage (stream.getD []))) service

/-- Whatever the body of a binary search, the service is asked for the default one. -/
theorem search_call_of_dump (service : SearchArgs → Except Exn Zmap) {req : Request}
    (hplain : req.get "Content-Encoding" = "")
    (hjson : startsWith (req.get "Content-Type") 16 "application/json" = false)
    (hdump : startsWith (req.get "Content-Type") 24 "application/octet-stream" = true)
    (fuel : ℕ) (src : Option Bytes) :
    (Handler.search service).call env fuel req src false =
      some (answer env (raised (service {}))) := by
  have hload : ∀ stream, loadArgs (SearchArgs.loadJson env {})
      (fun req stream => raised (SearchArgs.load {} req.toMessage (stream.getD []))) req stream =
        .ok {} := by
    intro stream
    rw [loadArgs, hjson, if_neg Bool.false_ne_true, if_pos hdump]
    rfl
  have hstream : inflateRequest env fuel req.toMessage src = some (.ok src) := by
    rw [inflateRequest]
    exact if_pos hplain
  simp only [Handler.call, actionCall, hstream, hload, Bool.false_eq_true, if_false]
  rfl

end Palmira.Http
