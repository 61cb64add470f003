import Palmira.Http.Action

/-!
# When a request is answered

A handler writes exactly one respond and lets nothing escape if the body unpacks
and then the request is cancelled, or its content type is known and its loader
throws only what the `catch` clauses take. For each handler this says which
bodies it takes.
-/

namespace Palmira.Http

/-! ## Exceptions the call answers -/

def Raised.Caught : Raised → Prop
  | .parseError _ _ => True
  | .thrown (.invalidArgument _) => True
  | .thrown _ => False

/-- `std::invalid_argument` and nothing else. -/
def InvalidArgument : Exn → Prop
  | .invalidArgument _ => True
  | _ => False

theorem throwsOnly_raised {α : Type} {res : Except Exn α} :
    ThrowsOnly Raised.Caught (raised res) ↔ ThrowsOnly InvalidArgument res := by
  cases res with
  | ok a => exact iff_of_true nofun nofun
  | error e =>
      have hraised : raised (.error e : Except Exn α) = .error (.thrown e) := rfl
      rw [hraised, throwsOnly_error, throwsOnly_error]
      cases e with
      | invalidArgument what => exact Iff.rfl
      | _ => exact Iff.rfl

/-- What comes behind a call that may throw anything throws nothing else. -/
theorem throwsOnly_bind_raised {α β : Type} {res : Except Raised α} {next : α → Except Exn β}
    (hnext : ∀ a, ThrowsOnly InvalidArgument (next a)) :
    ThrowsOnly Raised.Caught (do let a ← res; raised (next a)) ↔ ThrowsOnly Raised.Caught res := by
  rw [throwsOnly_bind]
  exact and_iff_left fun a _ => throwsOnly_raised.mpr (hnext a)

variable {T : Type} (env : HandlerEnv T)

theorem answer_once_iff (res : Except Raised Zmap) :
    ((answer env res).sent.length = 1 ∧ (answer env res).escaped = none) ↔
      ThrowsOnly Raised.Caught res := by
  cases res with
  | ok report => exact iff_of_true ⟨rfl, rfl⟩ (throwsOnly_ok report)
  | error e =>
      rw [throwsOnly_error]
      cases e with
      | parseError lineid what => exact iff_of_true ⟨rfl, rfl⟩ trivial
      | thrown e =>
          cases e with
          | invalidArgument what => exact iff_of_true ⟨rfl, rfl⟩ trivial
          | _ => exact iff_of_false (fun hone => by cases hone.2) id

/-! ## Unpacking -/

/-- The encoding is known, and the arguments are read from this stream. -/
def Unpacked (req : Message) (src stream : Option Bytes) : Prop :=
  (req.get "Content-Encoding" = "" ∧ stream = src) ∨
  (req.get "Content-Encoding" = "deflate" ∧
    ∃ fuel bytes, inflate env.zlib env.avail₀ fuel src = some (.ok bytes) ∧ stream = some bytes)

theorem inflateRequest_ok_iff (req : Message) (src stream : Option Bytes) :
    (∃ fuel, inflateRequest env fuel req src = some (.ok stream)) ↔
      Unpacked env req src stream := by
  unfold inflateRequest Unpacked
  by_cases hplain : req.get "Content-Encoding" = ""
  · simp only [if_pos hplain]
    constructor
    · intro ⟨_, hok⟩
      cases hok
      exact .inl ⟨hplain, rfl⟩
    · rintro (⟨-, rfl⟩ | ⟨hdeflate, -⟩)
      · exact ⟨0, rfl⟩
      · rw [hplain] at hdeflate
        exact absurd hdeflate (by decide)
  · by_cases hdeflate : req.get "Content-Encoding" = "deflate"
    · simp only [if_neg hplain, if_pos hdeflate, Option.map_eq_some_iff]
      constructor
      · intro ⟨fuel, result, hrun, hok⟩
        cases result with
        | error e => cases hok
        | ok bytes =>
            cases hok
            exact .inr ⟨hdeflate, fuel, bytes, hrun, rfl⟩
      · rintro (⟨habsent, -⟩ | ⟨-, fuel, bytes, hrun, rfl⟩)
        · exact absurd habsent hplain
        · exact ⟨fuel, .ok bytes, hrun, rfl⟩
    · simp only [if_neg hplain, if_neg hdeflate]
      constructor
      · intro ⟨_, hok⟩
        cases hok
      · rintro (⟨habsent, -⟩ | ⟨hknown, -⟩)
        · exact absurd habsent hplain
        · exact absurd hknown hdeflate

/-- The call ends, has written one respond, and nothing has escaped. -/
def AnswersOnce (call : ℕ → Option Handled) : Prop :=
  ∃ fuel handled, call fuel = some handled ∧ handled.sent.length = 1 ∧ handled.escaped = none

theorem actionCall_once_iff {Args : Type}
    {jsonLoad zmapLoad : Request → Option Bytes → Except Raised Args}
    {service : Args → Except Exn Zmap}
    (hservice : ∀ args, ThrowsOnly InvalidArgument (service args)) (req : Request)
    (src : Option Bytes) (cancelled : Bool) :
    AnswersOnce (fun fuel => actionCall env jsonLoad zmapLoad service fuel req src cancelled) ↔
      ∃ stream, Unpacked env req.toMessage src stream ∧
        (cancelled = true ∨ ThrowsOnly Raised.Caught (loadArgs jsonLoad zmapLoad req stream)) := by
  constructor
  · rintro ⟨fuel, handled, hcall, hone, hnone⟩
    simp only [actionCall] at hcall
    cases hstream : inflateRequest env fuel req.toMessage src with
    | none =>
        rw [hstream] at hcall
        cases hcall
    | some unpacked =>
        rw [hstream] at hcall
        cases unpacked with
        | error e =>
            -- the body is unpacked before the `try` block
            cases hcall
            cases hnone
        | ok stream =>
            refine ⟨stream, (inflateRequest_ok_iff env _ src stream).mp ⟨fuel, hstream⟩, ?_⟩
            cases cancelled with
            | true => exact .inl rfl
            | false =>
                cases hcall
                have hanswerable := (answer_once_iff env _).mp ⟨hone, hnone⟩
                exact .inr ((throwsOnly_bind_raised hservice).mp hanswerable)
  · rintro ⟨stream, hunpacked, hload⟩
    obtain ⟨fuel, hstream⟩ := (inflateRequest_ok_iff env _ src stream).mpr hunpacked
    cases cancelled with
    | true =>
        refine ⟨fuel, ⟨[outputHTML env ⟨⟨[]⟩, .ok⟩ "request cancelled by user"], none⟩, ?_,
          rfl, rfl⟩
        simp only [actionCall, hstream, if_pos]
    | false =>
        have hanswerable := hload.resolve_left Bool.false_ne_true
        have hone := (answer_once_iff env _).mpr ((throwsOnly_bind_raised hservice).mpr hanswerable)
        refine ⟨fuel, _, ?_, hone⟩
        simp only [actionCall, hstream, Bool.false_eq_true, if_false]

/-! ## What each handler takes -/

section Loaders

variable {Args : Type}

theorem access_obliging (f : Formats UInt8 T) (setId : String → Args) (req : Message) (jsn : Zmap) :
    ThrowsOnly InvalidArgument (access f setId req jsn) := by
  intro e herror
  unfold access at herror
  split at herror
  next => cases herror
  next =>
    split at herror
    next => cases herror
    next =>
      cases herror
      trivial

theorem update_obliging (f : Formats UInt8 T) (metadata : Zmap) (store : Zmap → String → Args)
    (req : Message) (jsn : Zmap) : ThrowsOnly InvalidArgument (update f metadata store req jsn) :=
  access_obliging f _ req jsn

theorem zmLoad_obliging (f : Formats UInt8 T) (src : Bytes) :
    ThrowsOnly InvalidArgument (zmLoad f src) := by
  intro e herror
  unfold zmLoad at herror
  split at herror
  next => cases herror
  next =>
    cases herror
    trivial

end Loaders

/-- The queries a JSON request may have are parsed, or refused with what is caught. -/
def QueryTaken (jsn : Zmap) : Prop :=
  (∀ s, jsn.get "string" = some (.charstr s) → ThrowsOnly Raised.Caught (env.parseQuery s)) ∧
  (∀ s, jsn.get "string" = some (.widestr s) → ThrowsOnly Raised.Caught (env.parseWideQuery s))

/-- What the handler takes from a stream as JSON. -/
def Handler.TakesJson (req : Request) (stream : Option Bytes) : Handler T → Prop
  | .remove _ => ThrowsOnly Raised.Caught (env.parse stream)
  | .update _ => ThrowsOnly Raised.Caught (env.parse stream)
  | .insert _ => ThrowsOnly Raised.Caught (env.parseInput stream)
  | .search _ => ThrowsOnly Raised.Caught (env.parse stream) ∧
      ∀ jsn, env.parse stream = .ok jsn → req.parameter "id" "undefined" = "undefined" →
        QueryTaken env jsn

/-- What `loadText` makes a text of, or refuses with what is caught; `rest` follows the map. -/
def TextTaken (rest : Bytes) : Zval → Prop
  | .charstr image =>
      (image = "after:dump" → env.formats.fetchText rest ≠ none) ∧
      (image = "after:xml" → ThrowsOnly InvalidArgument (env.formats.loadTags rest)) ∧
      (image = "after:json" → ThrowsOnly InvalidArgument (env.formats.loadJson rest))
  | .arrayChar _ => False
  | _ => True

/-- What the handler takes as a serialized map: only an insert is refused any. -/
def Handler.TakesDump (stream : Option Bytes) : Handler T → Prop
  | .insert _ => ∃ zmdata rest, env.formats.fetchFrom (stream.getD []) = some (zmdata, rest) ∧
      ∀ dockey, zmdata.get "document" = some dockey → TextTaken env rest dockey
  | _ => True

theorem loadQuery_answerable_iff (jsn : Zmap) :
    ThrowsOnly Raised.Caught (loadQuery env jsn) ↔ QueryTaken env jsn := by
  unfold loadQuery QueryTaken
  split
  next s hstring => simp [hstring]
  next s hstring => simp [hstring]
  next hquery hchar hwide =>
    refine iff_of_true (throwsOnly_ok _) ⟨fun s hs => absurd hs (hchar s), ?_⟩
    exact fun s hs => absurd hs (hwide s)
  next hquery hchar hwide =>
    refine iff_of_true ((throwsOnly_error _).mpr trivial) ⟨fun s hs => absurd hs (hchar s), ?_⟩
    exact fun s hs => absurd hs (hwide s)

theorem loadText_obliging_iff (rest : Bytes) (dockey : Zval) :
    ThrowsOnly InvalidArgument (loadText env.formats dockey rest) ↔ TextTaken env rest dockey := by
  cases dockey with
  | charstr image =>
      simp only [loadText, TextTaken]
      by_cases hdump : image = "after:dump"
      · subst hdump
        cases env.formats.fetchText rest with
        | none => simp [InvalidArgument]
        | some text => simp
      · by_cases hxml : image = "after:xml"
        · subst hxml
          simp
        · by_cases hjson : image = "after:json"
          · subst hjson
            simp
          · simp [hdump, hxml, hjson]
  | arrayChar xs => simp [loadText, TextTaken, InvalidArgument]
  | _ => simp [loadText, TextTaken, InvalidArgument]

/-! ## The calls -/

namespace Handler

/-- The service returns a report or throws `invalid_argument`. -/
def Obliging : Handler T → Prop
  | .remove service => ∀ args, ThrowsOnly InvalidArgument (service args)
  | .update service => ∀ args, ThrowsOnly InvalidArgument (service args)
  | .insert service => ∀ args, ThrowsOnly InvalidArgument (service args)
  | .search service => ∀ args, ThrowsOnly InvalidArgument (service args)

/-- The content type is known, and the handler takes what it names. -/
def Takes (handler : Handler T) (req : Request) (stream : Option Bytes) : Prop :=
  if startsWith (req.get "Content-Type") 16 "application/json" then
    handler.TakesJson env req stream
  else if startsWith (req.get "Content-Type") 24 "application/octet-stream" then
    handler.TakesDump env stream
  else req.get "Content-Type" = "" ∧ req.method = .GET ∧ handler.TakesJson env req none

end Handler

theorem loadArgs_caught_iff {Args : Type}
    {jsonLoad zmapLoad : Request → Option Bytes → Except Raised Args} (handler : Handler T)
    (req : Request)
    (hjson : ∀ stream, ThrowsOnly Raised.Caught (jsonLoad req stream) ↔
      handler.TakesJson env req stream)
    (hdump : ∀ stream, ThrowsOnly Raised.Caught (zmapLoad req stream) ↔
      handler.TakesDump env stream)
    (stream : Option Bytes) :
    ThrowsOnly Raised.Caught (loadArgs jsonLoad zmapLoad req stream) ↔
      handler.Takes env req stream := by
  unfold loadArgs Handler.Takes
  split
  next => exact hjson stream
  next =>
    split
    next => exact hdump stream
    next =>
      split
      next hhead => rw [hjson, and_iff_right hhead.1, and_iff_right hhead.2]
      next hhead =>
        refine iff_of_false (fun honly => ?_) (fun htakes => hhead ⟨htakes.1, htakes.2.1⟩)
        exact (throwsOnly_error _).mp honly

theorem searchArgs_loadJson_caught_iff (search : SearchArgs) (req : Request)
    (stream : Option Bytes) : ThrowsOnly Raised.Caught (SearchArgs.loadJson env search req stream) ↔
      ThrowsOnly Raised.Caught (env.parse stream) ∧ ∀ jsn, env.parse stream = .ok jsn →
        req.parameter "id" "undefined" = "undefined" → QueryTaken env jsn := by
  unfold SearchArgs.loadJson
  rw [throwsOnly_bind]
  refine and_congr_right fun _ => forall₂_congr fun jsn _ => ?_
  by_cases hid : req.parameter "id" "undefined" = "undefined"
  · simp only [hid, ne_eq, not_true_eq_false, if_false, forall_const]
    rw [throwsOnly_bind, loadQuery_answerable_iff]
    exact and_iff_left fun _ _ => throwsOnly_ok _
  · simp only [hid, ne_eq, not_false_eq_true, if_true, false_implies, iff_true]
    exact throwsOnly_ok _

theorem insertArgs_load_obliging_iff (arg : InsertArgs T) (req : Message) (src : Bytes) :
    ThrowsOnly InvalidArgument (InsertArgs.load env.formats arg req src) ↔
      ∃ zmdata rest, env.formats.fetchFrom src = some (zmdata, rest) ∧
        ∀ dockey, zmdata.get "document" = some dockey → TextTaken env rest dockey := by
  unfold InsertArgs.load
  cases hfetch : env.formats.fetchFrom src with
  | none =>
      -- the sibling loaders throw `invalid_argument` here
      refine iff_of_false (fun honly => (throwsOnly_error _).mp honly) ?_
      intro ⟨_, _, habsurd, _⟩
      cases habsurd
  | some fetched =>
      obtain ⟨zmdata, rest⟩ := fetched
      cases hdocument : zmdata.get "document" with
      | none =>
          simp only [hdocument]
          refine iff_of_true (update_obliging _ _ _ _ zmdata) ⟨zmdata, rest, rfl, ?_⟩
          rw [hdocument]
          nofun
      | some dockey =>
          simp only [hdocument]
          rw [throwsOnly_bind, loadText_obliging_iff]
          constructor
          · intro ⟨htaken, _⟩
            refine ⟨zmdata, rest, rfl, fun key hkey => ?_⟩
            rw [hdocument] at hkey
            cases hkey
            exact htaken
          · intro ⟨_, _, heq, htaken⟩
            cases heq
            refine ⟨htaken dockey hdocument, fun intext _ => ?_⟩
            rw [throwsOnly_bind]
            exact ⟨update_obliging _ _ _ _ zmdata, fun _ _ => throwsOnly_ok _⟩

theorem actionCall_takes_iff {Args : Type}
    {jsonLoad zmapLoad : Request → Option Bytes → Except Raised Args}
    {service : Args → Except Exn Zmap} (handler : Handler T)
    (hservice : ∀ args, ThrowsOnly InvalidArgument (service args)) (req : Request)
    (src : Option Bytes) (cancelled : Bool)
    (hjson : ∀ stream, ThrowsOnly Raised.Caught (jsonLoad req stream) ↔
      handler.TakesJson env req stream)
    (hdump : ∀ stream, ThrowsOnly Raised.Caught (zmapLoad req stream) ↔
      handler.TakesDump env stream) :
    AnswersOnce (fun fuel => actionCall env jsonLoad zmapLoad service fuel req src cancelled) ↔
      ∃ stream, Unpacked env req.toMessage src stream ∧
        (cancelled = true ∨ handler.Takes env req stream) := by
  rw [actionCall_once_iff env hservice req src cancelled]
  refine exists_congr fun stream => and_congr_right fun _ => or_congr_right ?_
  exact loadArgs_caught_iff env handler req hjson hdump stream

/-- A request is answered once exactly if its body unpacks and then it is cancelled or the handler
takes what the content type names. -/
theorem handler_answersOnce_iff (handler : Handler T) (hobliging : handler.Obliging)
    (req : Request) (src : Option Bytes) (cancelled : Bool) :
    AnswersOnce (fun fuel => handler.call env fuel req src cancelled) ↔
      ∃ stream, Unpacked env req.toMessage src stream ∧
        (cancelled = true ∨ handler.Takes env req stream) := by
  cases handler with
  | remove service =>
      apply actionCall_takes_iff env (.remove service) hobliging
      · intro stream
        exact throwsOnly_bind_raised fun jsn => access_obliging _ _ _ jsn
      · intro stream
        refine iff_of_true (throwsOnly_raised.mpr (throwsOnly_bind.mpr ⟨?_, ?_⟩)) trivial
        · exact zmLoad_obliging _ _
        · exact fun jsn _ => access_obliging _ _ _ jsn
  | update service =>
      apply actionCall_takes_iff env (.update service) hobliging
      · intro stream
        exact throwsOnly_bind_raised fun jsn => update_obliging _ _ _ _ jsn
      · intro stream
        refine iff_of_true (throwsOnly_raised.mpr (throwsOnly_bind.mpr ⟨?_, ?_⟩)) trivial
        · exact zmLoad_obliging _ _
        · exact fun jsn _ => update_obliging _ _ _ _ jsn
  | insert service =>
      apply actionCall_takes_iff env (.insert service) hobliging
      · intro stream
        exact throwsOnly_bind_raised fun jsData => update_obliging _ _ _ _ jsData.1
      · intro stream
        exact throwsOnly_raised.trans (insertArgs_load_obliging_iff env _ _ _)
  | search service =>
      apply actionCall_takes_iff env (.search service) hobliging
      · intro stream
        exact searchArgs_loadJson_caught_iff env _ req stream
      · intro stream
        exact iff_of_true (throwsOnly_raised.mpr (throwsOnly_ok _)) trivial

/-! ## A server that reads nothing -/

def bareFormats : Formats UInt8 String where
  serialize _ := []
  fetchFrom _ := none
  serializeText _ := []
  fetchText _ := none
  loadTags _ := .error (.other "tags expected")
  loadJson _ := .error (.other "json expected")
  emptyText := ""
  getLength := String.length
  zvalEmpty _ := true
  uriDecode uri := uri

/-- Whatever the body, the parsers give an empty map. -/
def bareServer : HandlerEnv String where
  formats := bareFormats
  zlib := deflatedA
  avail₀ := 0
  parse _ := .ok []
  parseInput _ := .ok ([], "")
  parseQuery _ := .error (.thrown (.invalidArgument "query expected"))
  parseWideQuery _ := .error (.thrown (.invalidArgument "query expected"))
  getInt32 _ _ missing := missing
  print _ := [0x7B, 0x7D]
  statusText _ := ""

def removeEmpty : Handler String := .remove fun _ => .ok []

theorem removeEmpty_obliging : removeEmpty.Obliging := fun _ => throwsOnly_ok _

theorem handler_answersOnce_iff_get : AnswersOnce fun fuel =>
    removeEmpty.call bareServer fuel ⟨⟨[("id", "a")]⟩, .GET, []⟩ none false := by
  refine (handler_answersOnce_iff bareServer removeEmpty removeEmpty_obliging
    ⟨⟨[("id", "a")]⟩, .GET, []⟩ none false).mpr ⟨none, .inl ⟨rfl, rfl⟩, .inr ?_⟩
  exact ⟨rfl, rfl, throwsOnly_ok _⟩

/-- An encoding that is not supported is refused before the `try` block, a content type that is not
known inside it; both exceptions escape. -/
theorem request_not_answered : removeEmpty.Obliging ∧
    (¬ AnswersOnce fun fuel => removeEmpty.call bareServer fuel
      ⟨⟨[("Content-Type", "application/json"), ("Content-Encoding", "gzip")]⟩, .POST, []⟩
      (some [0x7B, 0x7D]) false) ∧
    ¬ AnswersOnce fun fuel => removeEmpty.call bareServer fuel
      ⟨⟨[("Content-Type", "text/plain")]⟩, .POST, []⟩ (some [0x7B, 0x7D]) false := by
  refine ⟨removeEmpty_obliging, ?_, ?_⟩
  · intro ⟨fuel, handled, hcall, hone, hnone⟩
    have hescapes : some ⟨[], some (.invalidArgument "Content-Encoding=gzip not supported")⟩ =
        some handled := hcall
    cases hescapes
    cases hnone
  · intro ⟨fuel, handled, hcall, hone, hnone⟩
    have hescapes : some ⟨[], some (.logicError "Unexpected request method")⟩ =
        some handled := hcall
    cases hescapes
    cases hnone

end Palmira.Http
