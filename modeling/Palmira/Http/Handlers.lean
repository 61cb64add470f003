import Palmira.Http.Action
import Palmira.Service.StructoSearch

/-!
# The handlers over the service

The server registers its calls by path and method, each for one method of the
service. Whichever it is, a handler is an `ActionCall` that loads a call of the
service and asks for it, if it comes that far.
-/

namespace Palmira.Http

open Effects Palmira.Service

variable {T σ Args : Type}

/-! ## The service behind the server -/

/-- What a client asks of the service, and a handler on its behalf. -/
inductive ServiceCall (T : Type) where
  | insert (args : InsertArgs T)
  | update (args : UpdateArgs)
  | remove (args : RemoveArgs)
  | search (args : SearchArgs)

/-- `palmira::IService` without `Commit`, which no handler calls. -/
structure Methods (T σ : Type) where
  insert : InsertArgs T → Call Thrown σ Zmap
  update : UpdateArgs → Call Thrown σ Zmap
  remove : RemoveArgs → Call Thrown σ Zmap
  search : SearchArgs → Call Thrown σ Zmap

def Methods.perform (service : Methods T σ) : ServiceCall T → Call Thrown σ Zmap
  | .insert args => service.insert args
  | .update args => service.update args
  | .remove args => service.remove args
  | .search args => service.search args

/-- What a handler sees of an exception of the service. The methods let no `parse::error` out. -/
def exnOf : Thrown → Exn
  | .invalidArgument what => .invalidArgument what
  | .badFunctionCall what => .other what
  | .parseError what => .other what
  | .other what => .other what

/-- What a method gives its caller, the service being in this state. -/
def called (method : Args → Call Thrown σ Zmap) (s : σ) (args : Args) : Except Exn Zmap :=
  ((method args).run.run s).1.mapError exnOf

/-! ## The server -/

/-- The method of the service that an `ActionCall` is made for. -/
inductive ServiceMethod where
  | insert
  | update
  | remove
  | search
  deriving DecidableEq

inductive Registered where
  | health
  | action (method : ServiceMethod)

/-- The table of `Server::Server`. -/
def registered : List ((String × Method) × Registered) :=
  [(("/health", .GET), .health),
   (("/delete", .GET), .action .remove), (("/remove", .GET), .action .remove),
   (("/delete", .POST), .action .remove), (("/remove", .POST), .action .remove),
   (("/update", .GET), .action .update), (("/update", .POST), .action .update),
   (("/insert", .POST), .action .insert),
   (("/search", .GET), .action .search), (("/search", .POST), .action .search)]

def route (path : String) (method : Method) : Option Registered :=
  (registered.find? fun entry => entry.1 == (path, method)).map Prod.snd

namespace ServiceMethod

variable (env : HandlerEnv T)

def handler (service : Methods T σ) (s : σ) : ServiceMethod → Handler T
  | .insert => .insert (called service.insert s)
  | .update => .update (called service.update s)
  | .remove => .remove (called service.remove s)
  | .search => .search (called service.search s)

/-- `json::Load` for default arguments. -/
def jsonLoad (method : ServiceMethod) (req : Request) (src : Option Bytes) :
    Except Raised (ServiceCall T) :=
  match method with
  | .insert => (InsertArgs.loadJson env { textview := env.formats.emptyText } req src).map .insert
  | .update => (UpdateArgs.loadJson env {} req src).map .update
  | .remove => (RemoveArgs.loadJson env {} req src).map .remove
  | .search => (SearchArgs.loadJson env {} req src).map .search

/-- `zmap::Load` for default arguments. -/
def zmapLoad (method : ServiceMethod) (req : Request) (src : Option Bytes) :
    Except Raised (ServiceCall T) :=
  match method with
  | .insert => (raised (InsertArgs.load env.formats { textview := env.formats.emptyText }
      req.toMessage (src.getD []))).map .insert
  | .update => (raised (UpdateArgs.load env.formats {} req.toMessage (src.getD []))).map .update
  | .remove => (raised (RemoveArgs.load env.formats {} req.toMessage (src.getD []))).map .remove
  | .search => (raised (SearchArgs.load {} req.toMessage (src.getD []))).map .search

/-- The call that a handler comes to make of the service, if it comes that far. -/
def asks (method : ServiceMethod) (fuel : ℕ) (req : Request) (src : Option Bytes)
    (cancelled : Bool) : Option (ServiceCall T) :=
  match inflateRequest env fuel req.toMessage src, cancelled with
  | some (.ok stream), false =>
      (loadArgs (method.jsonLoad env) (method.zmapLoad env) req stream).toOption
  | _, _ => none

end ServiceMethod

/-! ## What a handler asks for -/

section Asks

variable {env : HandlerEnv T} {service : Methods T σ} {s : σ}

/-- Arguments may be wrapped when they are loaded or when the service is asked. -/
theorem actionCall_map {Args' : Type} (wrap : Args → Args')
    (jsonLoad zmapLoad : Request → Option Bytes → Except Raised Args)
    (method : Args' → Except Exn Zmap) (fuel : ℕ) (req : Request) (src : Option Bytes)
    (cancelled : Bool) :
    actionCall env (fun req src => (jsonLoad req src).map wrap)
        (fun req src => (zmapLoad req src).map wrap) method fuel req src cancelled =
      actionCall env jsonLoad zmapLoad (fun args => method (wrap args)) fuel req src cancelled := by
  have hload : ∀ stream, loadArgs (fun req src => (jsonLoad req src).map wrap)
      (fun req src => (zmapLoad req src).map wrap) req stream =
        (loadArgs jsonLoad zmapLoad req stream).map wrap := by
    intro stream
    simp only [loadArgs]
    split_ifs <;> rfl
  have hanswer : ∀ res : Except Raised Args,
      (do let args ← res.map wrap; raised (method args)) =
        (do let args ← res; raised (method (wrap args))) := by
    intro res
    cases res with
    | ok args => rfl
    | error e => rfl
  simp only [actionCall, hload, hanswer]

/-- Every handler is an `ActionCall` that loads a call of the service. -/
theorem call_handler (method : ServiceMethod) (fuel : ℕ) (req : Request) (src : Option Bytes)
    (cancelled : Bool) : (method.handler service s).call env fuel req src cancelled =
      actionCall env (method.jsonLoad env) (method.zmapLoad env) (called service.perform s) fuel req
        src cancelled := by
  cases method with
  | insert =>
      exact (actionCall_map ServiceCall.insert _ _ (called service.perform s) fuel req src
        cancelled).symm
  | update =>
      exact (actionCall_map ServiceCall.update _ _ (called service.perform s) fuel req src
        cancelled).symm
  | remove =>
      exact (actionCall_map ServiceCall.remove _ _ (called service.perform s) fuel req src
        cancelled).symm
  | search =>
      exact (actionCall_map ServiceCall.search _ _ (called service.perform s) fuel req src
        cancelled).symm

/-- A handler that comes to ask for a call answers what the service makes of it; one that does not
does the same whatever the service is. -/
theorem call_asks (method : ServiceMethod) (fuel : ℕ) (req : Request) (src : Option Bytes)
    (cancelled : Bool) :
    (∃ call, method.asks env fuel req src cancelled = some call ∧
      (method.handler service s).call env fuel req src cancelled =
        some (answer env (raised (called service.perform s call)))) ∨
    (method.asks env fuel req src cancelled = none ∧ ∀ (service' : Methods T σ) (s' : σ),
      (method.handler service s).call env fuel req src cancelled =
        (method.handler service' s').call env fuel req src cancelled) := by
  simp only [call_handler]
  unfold ServiceMethod.asks actionCall
  cases inflateRequest env fuel req.toMessage src with
  | none => exact .inr ⟨rfl, fun _ _ => rfl⟩
  | some unpacked =>
      cases unpacked with
      | error e => exact .inr ⟨rfl, fun _ _ => rfl⟩
      | ok stream =>
          cases cancelled with
          | true => exact .inr ⟨rfl, fun _ _ => rfl⟩
          | false =>
              simp only [Bool.false_eq_true, if_false]
              cases loadArgs (method.jsonLoad env) (method.zmapLoad env) req stream with
              | ok call => exact .inl ⟨call, rfl, rfl⟩
              | error e => exact .inr ⟨rfl, fun _ _ => rfl⟩

theorem asks_cancelled (method : ServiceMethod) (fuel : ℕ) (req : Request) (src : Option Bytes) :
    method.asks env fuel req src true = none := by
  unfold ServiceMethod.asks
  cases inflateRequest env fuel req.toMessage src with
  | none => rfl
  | some unpacked =>
      cases unpacked with
      | ok stream => rfl
      | error e => rfl

end Asks

end Palmira.Http
