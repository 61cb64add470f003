import Palmira.Http.Deflate
import Palmira.Http.Handlers

/-!
# The client's requests

`Modify` makes a request of the serialized arguments, which it may deflate. What
the server's handler makes of such a request is a call of the service again, with
what the binary form leaves of the arguments.
-/

namespace Palmira.Http

variable {T : Type}

/-! ## The client -/

/-- What both sides use of `remottp`: the headers of a new request, `SetHeaders`, `UriEncode`, the
path and the parameters of a URI, and what a client's callback is told of an exchange that came
back with a respond or without one. -/
structure Remottp where
  newRequest : List (String × String)
  setHeaders : List (String × String) → List (String × String) → List (String × String)
  uriEncode : String → String
  parseUri : String → String × List (String × String)
  execStatus : Option StatusCode → ExecStatus

/-- `remoapi::CompressionMethod` -/
inductive CompressionMethod where
  | none
  | deflate
  deriving DecidableEq

/-- `Client::impl`, its channel being open; its timeout is left to the library. -/
structure ClientImpl where
  zipMeth : CompressionMethod
  deflater : Deflater
  callback : ClientEnv

/-- What a channel is given: the path of the URI, the request and its body. -/
structure Sent where
  path : String
  request : Request
  body : Bytes

/-- `GetHeaders()[name] = value` -/
def Message.set (msg : Message) (name value : String) : Message :=
  ⟨(name, value) :: msg.headers.filter fun header => header.1 != name⟩

namespace ClientImpl

variable (client : ClientImpl) (http : Remottp)

/-- The compression in `Modify`: when `Deflate` throws, it goes on with what there is. -/
def compress (thereq : Message) (serial : Bytes) : Message × Bytes :=
  if 0x200 < serial.length ∧ client.zipMeth = .deflate then
    match deflate client.deflater serial with
    | .ok packed => (thereq.set "Content-Encoding" "deflate", packed)
    | .error _ => (thereq, serial)
  else (thereq, serial)

/-- `Client::impl::Modify` up to `Start` -/
def modify (serial : Bytes) (uristr : String) : Sent :=
  let compressed := client.compress ⟨http.newRequest⟩ serial
  let uri := http.parseUri uristr
  { path := uri.1
    request :=
      { headers := http.setHeaders compressed.1.headers
          [("Content-Type", "application/octet-stream")]
        method := .POST
        parameters := uri.2 }
    body := compressed.2 }

end ClientImpl

/-- `MakeContents( Request& req )` of a removal -/
def RemoveArgs.contents {β : Type} (f : Formats β T) (args : RemoveArgs) : List β :=
  f.serialize (args.makeContents f [])

namespace ServiceCall

variable {β : Type} (f : Formats β T) (http : Remottp)

/-- The map that `MakeContents` serializes. -/
def header : ServiceCall T → Zmap
  | .insert args => args.makeContents f []
  | .update args => args.makeContents f []
  | .remove args => args.makeContents f []
  | .search args => args.toTimingArgs.makeContents []

def contents : ServiceCall T → List β
  | .insert args => args.contents f
  | .update args => args.contents f
  | .remove args => args.contents f
  | .search args => args.contents f

/-- The URI that the client's methods give `Modify`. -/
def uristr : ServiceCall T → String
  | .insert args => "/insert" ++ "?id=" ++ http.uriEncode args.objectId
  | .update args => "/update" ++ "?id=" ++ http.uriEncode args.objectId
  | .remove args => "/remove" ++ "?id=" ++ http.uriEncode args.objectId
  | .search _ => "/search"

end ServiceCall

/-! ## What arrives -/

section Arrives

variable {β : Type} (f : Formats β T)

/-- The metadata the server reads: where the client has some, it is the clause that is sent. -/
def UpdateArgs.arriving (args : UpdateArgs) : Zmap :=
  if args.metadata.isEmpty then []
  else
    match args.ifClause with
    | .zmap fields => fields
    | _ => []

/-- The server reads neither a timeout nor a version nor a clause, no text of no length, and
nothing of a search. -/
def ServiceCall.arrives : ServiceCall T → ServiceCall T
  | .insert args => .insert
      { objectId := args.objectId
        metadata := args.arriving
        textview := if f.getLength args.textview ≠ 0 then args.textview else f.emptyText }
  | .update args => .update { objectId := args.objectId, metadata := args.arriving }
  | .remove args => .remove { objectId := args.objectId }
  | .search _ => .search {}

/-- The body of a call is read back as the map and the text it was made of. -/
def ServiceCall.Fetched (call : ServiceCall T) : Prop :=
  ∃ rest, f.fetchFrom (call.contents f) = some (call.header f, rest) ∧
    ∀ args, call = .insert args → f.getLength args.textview ≠ 0 →
      ∃ tail, f.fetchText rest = some (args.textview, tail)

/-- So it is with any formats that are read back. -/
theorem ServiceCall.fetched_of_inverse (hinv : f.Inverse) (call : ServiceCall T) :
    call.Fetched f := by
  cases call with
  | insert args =>
      refine ⟨f.serializeText args.textview, hinv.fetchFrom_serialize _ _, ?_⟩
      rintro _ ⟨⟩ -
      exact ⟨[], hinv.fetchText _⟩
  | update args => exact ⟨[], hinv.fetchFrom _, nofun⟩
  | remove args => exact ⟨[], hinv.fetchFrom _, nofun⟩
  | search args => exact ⟨[], hinv.fetchFrom _, nofun⟩

variable {f}

theorem UpdateArgs.getZmap_makeContents (args : UpdateArgs) {zmap : Zmap}
    (hfresh : zmap.get "metadata" = none) :
    ((args.makeContents f zmap).getZmap "metadata").getD [] = args.arriving := by
  unfold Zmap.getZmap UpdateArgs.arriving
  rw [args.get_makeContents_metadata f zmap, hfresh]
  cases args.metadata.isEmpty with
  | true => rfl
  | false => cases args.ifClause <;> rfl

theorem RemoveArgs.load_of_fetch {req : Message} (hreq : req.get "id" = "") (args : RemoveArgs)
    {src rest : List β} (hfetch : f.fetchFrom src = some (args.makeContents f [], rest)) :
    RemoveArgs.load f {} req src = .ok { objectId := args.objectId } := by
  have hid : (args.makeContents f []).getCharstr "id" = some args.objectId := by
    unfold RemoveArgs.makeContents Zmap.getCharstr
    rw [AccessArgs.get_makeContents_id]
  unfold RemoveArgs.load
  rw [zmLoad_of_fetch hfetch]
  simp only [bind, Except.bind, remove, access, hreq, hid]
  rfl

theorem InsertArgs.getZmap_makeContents (args : InsertArgs T) :
    ((args.makeContents f []).getZmap "metadata").getD [] = args.arriving := by
  apply args.toUpdateArgs.getZmap_makeContents
  split
  · exact Zmap.get_put_of_ne _ _ (by decide)
  · rfl

end Arrives

/-! ## The request -/

/-- A request that sets its type only has no encoding and no id, a header that is set is there, a
path is parsed up to its parameters, and an exchange without a respond is no success. -/
structure Remottp.Lawful (http : Remottp) : Prop where
  get_plain : ∀ value name, name = "Content-Encoding" ∨ name = "id" →
    (Message.mk (http.setHeaders http.newRequest [("Content-Type", value)])).get name = ""
  get_self : ∀ headers name value,
    (Message.mk (http.setHeaders headers [(name, value)])).get name = value
  parseUri_path : ∀ path ∈ ["/insert", "/update", "/remove"], ∀ id,
    (http.parseUri (path ++ "?id=" ++ http.uriEncode id)).1 = path
  parseUri_search : (http.parseUri "/search").1 = "/search"
  execStatus_none : http.execStatus none ≠ .ok

/-- `SetHeaders` leaves the headers it is not given, as `Modify` relies on for the encoding. -/
def Remottp.KeepsHeaders (http : Remottp) : Prop :=
  ∀ headers name value other, name ≠ other →
    (Message.mk (http.setHeaders headers [(name, value)])).get other =
      (Message.mk headers).get other

/-- If this is deflated at all, its request says so, and `Inflate` gives it back. -/
def ClientImpl.Restored (client : ClientImpl) (http : Remottp) (z : Zlib) (avail₀ : ℕ)
    (serial : Bytes) : Prop :=
  ∀ packed, 0x200 < serial.length → client.zipMeth = .deflate →
    deflate client.deflater serial = .ok packed →
      http.KeepsHeaders ∧ serial.length < 2 ^ 31 ∧ startSize packed avail₀ < 2 ^ 32 ∧
        ∃ future fresh, z.Inflates future fresh packed serial

@[simp] theorem Message.get_set (msg : Message) (name value other : String) :
    (msg.set name value).get other = if name = other then value else msg.get other := by
  unfold Message.get Message.set
  by_cases hname : name = other
  · subst hname
    simp
  · have hsame : ∀ headers : List (String × String),
        (headers.filter fun header => header.1 != name).find? (fun header => header.1 == other) =
          headers.find? fun header => header.1 == other := by
      intro headers
      rw [List.find?_filter]
      congr 1
      funext header
      by_cases hheader : header.1 = other
      · simp [hheader, Ne.symm hname]
      · simp [hheader]
    rw [List.find?_cons_of_neg (by simpa using hname), hsame, if_neg hname]

section Request

variable {http : Remottp} {client : ClientImpl} {env : HandlerEnv T} {serial : Bytes}

/-- A request for the service, from whose body some budget unpacks this. -/
structure Sent.Carries (sent : Sent) (env : HandlerEnv T) (serial : Bytes) : Prop where
  method : sent.request.method = .POST
  content_type : sent.request.get "Content-Type" = "application/octet-stream"
  id : sent.request.get "id" = ""
  unpacked : ∃ fuel, ∀ more, fuel ≤ more →
    inflateRequest env more sent.request.toMessage (some sent.body) = some (.ok (some serial))

theorem inflateRequest_plain {req : Message} (hplain : req.get "Content-Encoding" = "")
    (fuel : ℕ) (body : Bytes) :
    inflateRequest env fuel req (some body) = some (.ok (some body)) := by
  rw [inflateRequest]
  exact if_pos hplain

theorem inflateRequest_deflated {req : Message} (hdeflate : req.get "Content-Encoding" = "deflate")
    {fuel : ℕ} {packed : Bytes}
    (hinflate : inflate env.zlib env.avail₀ fuel (some packed) = some (.ok serial)) :
    inflateRequest env fuel req (some packed) = some (.ok (some serial)) := by
  have hencoded : req.get "Content-Encoding" ≠ "" := by
    rw [hdeflate]
    decide
  simp only [inflateRequest, if_neg hencoded, if_pos hdeflate, hinflate]
  rfl

/-- `Modify` deflates the body or leaves it as it is. -/
theorem compress_eq (client : ClientImpl) (thereq : Message) (serial : Bytes) :
    client.compress thereq serial = (thereq, serial) ∨
      ∃ packed, 0x200 < serial.length ∧ client.zipMeth = .deflate ∧
        deflate client.deflater serial = .ok packed ∧
        client.compress thereq serial = (thereq.set "Content-Encoding" "deflate", packed) := by
  unfold ClientImpl.compress
  by_cases hlong : 0x200 < serial.length ∧ client.zipMeth = .deflate
  · rw [if_pos hlong]
    cases hdeflate : deflate client.deflater serial with
    | ok packed => exact .inr ⟨packed, hlong.1, hlong.2, rfl, rfl⟩
    | error e => exact .inl rfl
  · rw [if_neg hlong]
    exact .inl rfl

/-- Deflated or not, the body of the request carries what was serialized. -/
theorem modify_carries (hhttp : http.Lawful)
    (hrestored : client.Restored http env.zlib env.avail₀ serial) (uristr : String) :
    (client.modify http serial uristr).Carries env serial := by
  have hheaders : ∀ name, (client.modify http serial uristr).request.get name =
      (Message.mk (http.setHeaders (client.compress ⟨http.newRequest⟩ serial).1.headers
        [("Content-Type", "application/octet-stream")])).get name := fun _ => rfl
  have hbody : (client.modify http serial uristr).body =
      (client.compress ⟨http.newRequest⟩ serial).2 := rfl
  have htype := (hheaders "Content-Type").trans (hhttp.get_self _ _ _)
  rcases compress_eq client ⟨http.newRequest⟩ serial with
    hplain | ⟨packed, hlong, hzip, hdeflate, hpacked⟩
  · rw [hplain] at hheaders hbody
    have hid := (hheaders "id").trans (hhttp.get_plain _ _ (.inr rfl))
    have hencoding := (hheaders "Content-Encoding").trans (hhttp.get_plain _ _ (.inl rfl))
    refine ⟨rfl, htype, hid, 0, fun more _ => ?_⟩
    rw [hbody]
    exact inflateRequest_plain hencoding more serial
  · obtain ⟨hkeeps, hshort, hsmall, future, fresh, hinflates⟩ :=
      hrestored packed hlong hzip hdeflate
    rw [hpacked] at hheaders hbody
    have hset : ∀ name, "Content-Type" ≠ name →
        (client.modify http serial uristr).request.get name =
          if "Content-Encoding" = name then "deflate" else (Message.mk http.newRequest).get name :=
      fun name hname => (hheaders name).trans
        ((hkeeps _ _ _ name hname).trans (Message.get_set _ _ _ name))
    have hnew : (Message.mk http.newRequest).get "id" = "" :=
      (hkeeps _ _ _ "id" (by decide)).symm.trans
        (hhttp.get_plain "application/octet-stream" "id" (.inr rfl))
    have hid := (hset "id" (by decide)).trans hnew
    have hencoding := hset "Content-Encoding" (by decide)
    obtain ⟨fuel, hinflate⟩ := inflate_restores hinflates hshort hsmall
    refine ⟨rfl, htype, hid, fuel, fun more hmore => ?_⟩
    rw [hbody]
    exact inflateRequest_deflated hencoding (inflate_mono hmore hinflate)

end Request

/-! ## The call of a client -/

/-- The method of the service a client's call is for. -/
def ServiceCall.method : ServiceCall T → ServiceMethod
  | .insert _ => .insert
  | .update _ => .update
  | .remove _ => .remove
  | .search _ => .search

/-- The formats read the body of a call back, and unpacking restores it. -/
structure Carried (env : HandlerEnv T) (http : Remottp) (client : ClientImpl)
    (call : ServiceCall T) : Prop where
  fetched : call.Fetched env.formats
  restored : client.Restored http env.zlib env.avail₀ (call.contents env.formats)

section Calls

variable {env : HandlerEnv T} {http : Remottp} {call : ServiceCall T}

theorem route_uristr (hhttp : http.Lawful) (call : ServiceCall T) :
    route (http.parseUri (call.uristr http)).1 .POST = some (.action call.method) := by
  cases call with
  | insert args =>
      have hpath := hhttp.parseUri_path "/insert" (by decide) args.objectId
      rw [ServiceCall.uristr, hpath]
      rfl
  | update args =>
      have hpath := hhttp.parseUri_path "/update" (by decide) args.objectId
      rw [ServiceCall.uristr, hpath]
      rfl
  | remove args =>
      have hpath := hhttp.parseUri_path "/remove" (by decide) args.objectId
      rw [ServiceCall.uristr, hpath]
      rfl
  | search args =>
      rw [ServiceCall.uristr, hhttp.parseUri_search]
      rfl

theorem loadArgs_dump {Args : Type}
    {jsonLoad zmapLoad : Request → Option Bytes → Except Raised Args} {req : Request}
    (htype : req.get "Content-Type" = "application/octet-stream") (stream : Option Bytes) :
    loadArgs jsonLoad zmapLoad req stream = zmapLoad req stream := by
  have hjson : startsWith "application/octet-stream" 16 "application/json" = false := by decide
  have hdump : startsWith "application/octet-stream" 24 "application/octet-stream" = true := by
    decide
  rw [loadArgs, htype, hjson, hdump]
  rfl

/-- The loader makes of the body the call that arrives. -/
theorem zmapLoad_contents {req : Request} (hid : req.get "id" = "")
    (hfetched : call.Fetched env.formats) :
    call.method.zmapLoad env req (some (call.contents env.formats)) =
      .ok (call.arrives env.formats) := by
  obtain ⟨rest, hfetch, htext⟩ := hfetched
  cases call with
  | insert args =>
      have hload := InsertArgs.load_of_fetch hid args hfetch (htext args rfl)
      rw [args.getZmap_makeContents] at hload
      simp only [ServiceCall.method, ServiceMethod.zmapLoad, Option.getD_some, hload]
      rfl
  | update args =>
      have hload := UpdateArgs.load_of_fetch hid args hfetch
      rw [args.getZmap_makeContents (Zmap.get_nil _)] at hload
      simp only [ServiceCall.method, ServiceMethod.zmapLoad, Option.getD_some, hload]
      rfl
  | remove args =>
      have hload := RemoveArgs.load_of_fetch hid args hfetch
      simp only [ServiceCall.method, ServiceMethod.zmapLoad, Option.getD_some, hload]
      rfl
  | search args => rfl

/-- With enough rounds a request that is carried to its handler asks for the call that arrives. -/
theorem asks_carried {sent : Sent} (hcarries : sent.Carries env (call.contents env.formats))
    (hfetched : call.Fetched env.formats) : ∃ fuel, ∀ more, fuel ≤ more →
      call.method.asks env more sent.request (some sent.body) false =
        some (call.arrives env.formats) := by
  obtain ⟨fuel, hunpacked⟩ := hcarries.unpacked
  refine ⟨fuel, fun more hmore => ?_⟩
  simp only [ServiceMethod.asks, hunpacked more hmore, loadArgs_dump hcarries.content_type,
    zmapLoad_contents hcarries.id hfetched]
  rfl

end Calls

end Palmira.Http
