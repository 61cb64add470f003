import Palmira.Core.Exception
import Palmira.Core.Zval
import Palmira.Http.Message

/-!
# Requests on the binary wire

The arguments of `service.hpp`, the bodies `MakeContents` makes of them in the
client, and `zmap::Load` in the server. Each of both is a chain along the class
hierarchy. `β` is the element of a stream, `T` the type of texts.
-/

namespace Palmira.Http

/-! ## The arguments -/

structure TimingArgs where
  fTimeout : Binary64 := ⟨0xBFF0000000000000⟩

structure AccessArgs extends TimingArgs where
  objectId : String := ""

structure RemoveArgs extends AccessArgs where
  uVersion : UInt64 := 0
  ifClause : Zval := .untyped

structure UpdateArgs extends RemoveArgs where
  metadata : Zmap := []

structure InsertArgs (T : Type) extends UpdateArgs where
  textview : T

variable {β T : Type}

/-- What both sides use of `mtc` and `DeliriX`. -/
structure Formats (β T : Type) where
  serialize : Zmap → List β
  fetchFrom : List β → Option (Zmap × List β)
  serializeText : T → List β
  fetchText : List β → Option (T × List β)
  loadTags : List β → Except Exn T
  loadJson : List β → Except Exn T
  emptyText : T
  getLength : T → ℕ
  zvalEmpty : Zval → Bool
  uriDecode : String → String

/-- Fetching undoes serialization and takes no more than its own elements. -/
structure Formats.Inverse (f : Formats β T) : Prop where
  fetchFrom_serialize : ∀ zmap rest, f.fetchFrom (f.serialize zmap ++ rest) = some (zmap, rest)
  fetchText_serializeText : ∀ text rest,
    f.fetchText (f.serializeText text ++ rest) = some (text, rest)

/-! ## MakeContents -/

section MakeContents

variable (f : Formats β T)

/-- `MakeContents( mtc::zmap& zmap, const palmira::TimingArgs& args )` -/
def TimingArgs.makeContents (args : TimingArgs) (zmap : Zmap) : Zmap :=
  if args.fTimeout.number.isNonneg then zmap.put "timeout" (.double args.fTimeout) else zmap

/-- `MakeContents( mtc::zmap& zmap, const palmira::AccessArgs& args )` -/
def AccessArgs.makeContents (args : AccessArgs) (zmap : Zmap) : Zmap :=
  args.toTimingArgs.makeContents (zmap.put "id" (.charstr args.objectId))

/-- `MakeContents( mtc::zmap& zmap, const palmira::RemoveArgs& args )` -/
def RemoveArgs.makeContents (args : RemoveArgs) (zmap : Zmap) : Zmap :=
  args.toAccessArgs.makeContents
    (if f.zvalEmpty args.ifClause then zmap else zmap.put "if_clause" args.ifClause)

/-- `MakeContents( mtc::zmap& zmap, const palmira::UpdateArgs& args )` -/
def UpdateArgs.makeContents (args : UpdateArgs) (zmap : Zmap) : Zmap :=
  args.toRemoveArgs.makeContents f
    -- what the source stores under "metadata" is the clause
    (if args.metadata.isEmpty then zmap else zmap.put "metadata" args.ifClause)

/-- `MakeContents( mtc::zmap& zmap, const palmira::InsertArgs& args )` -/
def InsertArgs.makeContents (args : InsertArgs T) (zmap : Zmap) : Zmap :=
  args.toUpdateArgs.makeContents f
    (if f.getLength args.textview ≠ 0 then zmap.put "document" (.charstr "after:dump") else zmap)

/-- The body of an update: the serialized map. -/
def UpdateArgs.contents (args : UpdateArgs) : List β := f.serialize (args.makeContents f [])

/-- The body of an insert: the serialized map and behind it the serialized text. -/
def InsertArgs.contents (args : InsertArgs T) : List β :=
  f.serialize (args.makeContents f []) ++ f.serializeText args.textview

end MakeContents

/-! ## Load -/

section Load

variable (f : Formats β T)

/-- `Access( arg, req, jsn )`; `setId` stores `arg.objectId`. -/
def access {Args : Type} (setId : String → Args) (req : Message) (jsn : Zmap) : Except Exn Args :=
  if req.get "id" ≠ "" then .ok (setId (f.uriDecode (req.get "id")))
  else
    match jsn.getCharstr "id" with
    | some srcid => .ok (setId srcid)
    | none => .error (.invalidArgument "undefined document 'id', string expected")

/-- `Remove( arg, req, jsn )` -/
def remove {Args : Type} (setId : String → Args) (req : Message) (jsn : Zmap) : Except Exn Args :=
  access f setId req jsn

/-- `Update( arg, req, jsn )`; `store` keeps `arg.metadata` and `arg.objectId`. -/
def update {Args : Type} (metadata : Zmap) (store : Zmap → String → Args) (req : Message)
    (jsn : Zmap) : Except Exn Args :=
  remove f (store ((jsn.getZmap "metadata").getD metadata)) req jsn

/-- `ZmLoad( src )` -/
def zmLoad (src : List β) : Except Exn Zmap :=
  match f.fetchFrom src with
  | some (output, _) => .ok output
  | none => .error (.invalidArgument "invalid binary serialization format, zmap expected")

/-- `Load( palmira::RemoveArgs& arg, req, src )` -/
def RemoveArgs.load (arg : RemoveArgs) (req : Message) (src : List β) : Except Exn RemoveArgs := do
  let jsn ← zmLoad f src
  remove f (fun objectId => { arg with objectId }) req jsn

/-- `Load( palmira::UpdateArgs& arg, req, src )` -/
def UpdateArgs.load (arg : UpdateArgs) (req : Message) (src : List β) : Except Exn UpdateArgs := do
  let jsn ← zmLoad f src
  update f arg.metadata (fun metadata objectId => { arg with metadata, objectId }) req jsn

/-- The text a "document" key stands for; `src` is what follows the map in the stream. -/
def loadText (dockey : Zval) (src : List β) : Except Exn T :=
  match dockey with
  | .charstr image =>
      if image = "after:dump" then
        match f.fetchText src with
        | some (text, _) => .ok text
        | none => .error (.runtimeError "Failed to load text from the stream")
      else if image = "after:xml" then f.loadTags src
      else if image = "after:json" then f.loadJson src
      else .ok f.emptyText
  -- the branch reads the array through the accessor of another type
  | .arrayChar _ => .error (.undefined "get_array_charstr of an array of char")
  | _ => .error (.invalidArgument "Invalid 'document' image key type")

/-- `Load( palmira::InsertArgs& arg, req, src )` -/
def InsertArgs.load (arg : InsertArgs T) (req : Message) (src : List β) :
    Except Exn (InsertArgs T) :=
  match f.fetchFrom src with
  | none => .error (.runtimeError "Failed to load zmap from the stream")
  | some (zmdata, src) =>
      let store := fun metadata objectId => { arg with metadata, objectId }
      match zmdata.get "document" with
      | none => update f arg.metadata store req zmdata
      | some dockey => do
          let intext ← loadText f dockey src
          return { ← update f arg.metadata store req zmdata with textview := intext }

end Load

/-! ## What each class adds to the map -/

section Chain

variable (f : Formats β T)

theorem TimingArgs.get_makeContents (args : TimingArgs) (zmap : Zmap) {key : String}
    (hkey : key ≠ "timeout") : (args.makeContents zmap).get key = zmap.get key := by
  unfold TimingArgs.makeContents
  split
  · exact Zmap.get_put_of_ne zmap _ hkey
  · rfl

theorem AccessArgs.get_makeContents (args : AccessArgs) (zmap : Zmap) {key : String}
    (hid : key ≠ "id") (htimeout : key ≠ "timeout") :
    (args.makeContents zmap).get key = zmap.get key := by
  unfold AccessArgs.makeContents
  rw [TimingArgs.get_makeContents _ _ htimeout]
  exact Zmap.get_put_of_ne zmap _ hid

theorem AccessArgs.get_makeContents_id (args : AccessArgs) (zmap : Zmap) :
    (args.makeContents zmap).get "id" = some (.charstr args.objectId) := by
  unfold AccessArgs.makeContents
  rw [TimingArgs.get_makeContents _ _ (by decide)]
  exact Zmap.get_put_self zmap _ _

theorem RemoveArgs.get_makeContents (args : RemoveArgs) (zmap : Zmap) {key : String}
    (hid : key ≠ "id") (htimeout : key ≠ "timeout") (hclause : key ≠ "if_clause") :
    (args.makeContents f zmap).get key = zmap.get key := by
  unfold RemoveArgs.makeContents
  rw [AccessArgs.get_makeContents _ _ hid htimeout]
  split
  · rfl
  · exact Zmap.get_put_of_ne zmap _ hclause

theorem UpdateArgs.get_makeContents (args : UpdateArgs) (zmap : Zmap) {key : String}
    (hid : key ≠ "id") (htimeout : key ≠ "timeout") (hclause : key ≠ "if_clause")
    (hmetadata : key ≠ "metadata") : (args.makeContents f zmap).get key = zmap.get key := by
  unfold UpdateArgs.makeContents
  rw [RemoveArgs.get_makeContents f _ _ hid htimeout hclause]
  split
  · rfl
  · exact Zmap.get_put_of_ne zmap _ hmetadata

theorem UpdateArgs.get_makeContents_metadata (args : UpdateArgs) (zmap : Zmap) :
    (args.makeContents f zmap).get "metadata" =
      if args.metadata.isEmpty then zmap.get "metadata" else some args.ifClause := by
  unfold UpdateArgs.makeContents
  rw [RemoveArgs.get_makeContents f _ _ (by decide) (by decide) (by decide)]
  split
  · rfl
  · exact Zmap.get_put_self zmap _ _

/-- The identifier arrives whatever the classes below put into the map. -/
theorem UpdateArgs.getCharstr_makeContents (args : UpdateArgs) (zmap : Zmap) :
    (args.makeContents f zmap).getCharstr "id" = some args.objectId := by
  unfold UpdateArgs.makeContents RemoveArgs.makeContents Zmap.getCharstr
  rw [AccessArgs.get_makeContents_id]

/-- The metadata arrive if there are none, or if the clause happens to be the same map. -/
theorem UpdateArgs.getZmap_makeContents_iff (args : UpdateArgs) {zmap : Zmap}
    (hfresh : zmap.get "metadata" = none) :
    ((args.makeContents f zmap).getZmap "metadata").getD [] = args.metadata ↔
      args.metadata = [] ∨ args.ifClause = .zmap args.metadata := by
  have hget := args.get_makeContents_metadata f zmap
  unfold Zmap.getZmap
  rw [hget, hfresh]
  by_cases hempty : args.metadata = []
  · simp [hempty]
  · rw [if_neg (by simpa using hempty)]
    cases hclause : args.ifClause with
    | zmap fields => simp [hempty]
    | _ => simp [hempty, Ne.symm hempty]

end Chain

/-! ## The round trip -/

section RoundTrip

variable (f : Formats β T)

/-- The server's arguments for the client's update are the client's. -/
def UpdateArgs.Survives (req : Message) (args : UpdateArgs) : Prop :=
  ∃ got, UpdateArgs.load f {} req (args.contents f) = .ok got ∧
    got.objectId = args.objectId ∧ got.metadata = args.metadata

/-- The server's arguments for the client's insert are the client's; the server starts from
the empty document. -/
def InsertArgs.Survives (req : Message) (args : InsertArgs T) : Prop :=
  ∃ got, InsertArgs.load f { textview := f.emptyText } req (args.contents f) = .ok got ∧
    got.objectId = args.objectId ∧ got.metadata = args.metadata ∧ got.textview = args.textview

variable {f} {req : Message}

theorem update_of_id {Args : Type} (hreq : req.get "id" = "") {jsn : Zmap} {id : String}
    (hid : jsn.getCharstr "id" = some id) (metadata : Zmap) (store : Zmap → String → Args) :
    update f metadata store req jsn = .ok (store ((jsn.getZmap "metadata").getD metadata) id) := by
  unfold update remove access
  rw [hreq, hid]
  rfl

theorem zmLoad_of_fetch {src rest : List β} {zmap : Zmap}
    (hfetch : f.fetchFrom src = some (zmap, rest)) : zmLoad f src = .ok zmap := by
  rw [zmLoad, hfetch]

theorem Formats.Inverse.fetchFrom (hinv : f.Inverse) (zmap : Zmap) :
    f.fetchFrom (f.serialize zmap) = some (zmap, []) := by
  have hfetch := hinv.fetchFrom_serialize zmap []
  rwa [List.append_nil] at hfetch

theorem Formats.Inverse.fetchText (hinv : f.Inverse) (text : T) :
    f.fetchText (f.serializeText text) = some (text, []) := by
  have htext := hinv.fetchText_serializeText text []
  rwa [List.append_nil] at htext

/-- What the server makes of the update's map. -/
theorem UpdateArgs.load_of_fetch (hreq : req.get "id" = "") (args : UpdateArgs)
    {src rest : List β} (hfetch : f.fetchFrom src = some (args.makeContents f [], rest)) :
    UpdateArgs.load f {} req src = .ok
      { objectId := args.objectId
        metadata := ((args.makeContents f []).getZmap "metadata").getD [] } := by
  unfold UpdateArgs.load
  rw [zmLoad_of_fetch hfetch]
  simp only [bind, Except.bind]
  rw [update_of_id hreq (args.getCharstr_makeContents f [])]

/-- What the server makes of the update's body. -/
theorem UpdateArgs.load_contents (hinv : f.Inverse) (hreq : req.get "id" = "")
    (args : UpdateArgs) :
    UpdateArgs.load f {} req (args.contents f) = .ok
      { objectId := args.objectId
        metadata := ((args.makeContents f []).getZmap "metadata").getD [] } :=
  args.load_of_fetch hreq (hinv.fetchFrom _)

/-- What the server makes of the insert's map and of what follows it: a text of no length is not
looked for. -/
theorem InsertArgs.load_of_fetch (hreq : req.get "id" = "") (args : InsertArgs T)
    {src rest : List β} (hfetch : f.fetchFrom src = some (args.makeContents f [], rest))
    (htext : f.getLength args.textview ≠ 0 →
      ∃ tail, f.fetchText rest = some (args.textview, tail)) :
    InsertArgs.load f { textview := f.emptyText } req src = .ok
      { objectId := args.objectId
        metadata := ((args.makeContents f []).getZmap "metadata").getD []
        textview := if f.getLength args.textview ≠ 0 then args.textview else f.emptyText } := by
  have hid : (args.makeContents f []).getCharstr "id" = some args.objectId :=
    args.toUpdateArgs.getCharstr_makeContents f _
  have hdocument : (args.makeContents f []).get "document" =
      if f.getLength args.textview ≠ 0 then some (.charstr "after:dump") else none := by
    unfold InsertArgs.makeContents
    rw [UpdateArgs.get_makeContents f _ _ (by decide) (by decide) (by decide) (by decide)]
    split
    · exact Zmap.get_put_self _ _ _
    · rfl
  unfold InsertArgs.load
  by_cases hlong : f.getLength args.textview ≠ 0
  · obtain ⟨tail, htail⟩ := htext hlong
    rw [if_pos hlong] at hdocument ⊢
    simp only [hfetch, hdocument, loadText, if_pos, htail]
    rw [update_of_id hreq hid]
    rfl
  · -- there is no "document" key for a text of no length
    rw [if_neg hlong] at hdocument ⊢
    simp only [hfetch, hdocument]
    rw [update_of_id hreq hid]

/-- What the server makes of the insert's body. -/
theorem InsertArgs.load_contents (hinv : f.Inverse) (hreq : req.get "id" = "")
    (args : InsertArgs T) :
    InsertArgs.load f { textview := f.emptyText } req (args.contents f) = .ok
      { objectId := args.objectId
        metadata := ((args.makeContents f []).getZmap "metadata").getD []
        textview := if f.getLength args.textview ≠ 0 then args.textview else f.emptyText } :=
  args.load_of_fetch hreq (hinv.fetchFrom_serialize _ _) fun _ => ⟨[], hinv.fetchText _⟩

theorem InsertArgs.getZmap_makeContents_iff (args : InsertArgs T) :
    ((args.makeContents f []).getZmap "metadata").getD [] = args.metadata ↔
      args.metadata = [] ∨ args.ifClause = .zmap args.metadata := by
  apply args.toUpdateArgs.getZmap_makeContents_iff f
  split
  · rfl
  · rfl

/-- An update survives exactly if there are no metadata or the clause is the same map; an insert
needs besides a text that has a length or is empty. -/
theorem survives_iff (hinv : f.Inverse) (hreq : req.get "id" = "") :
    (∀ args : UpdateArgs,
      args.Survives f req ↔ args.metadata = [] ∨ args.ifClause = .zmap args.metadata) ∧
    (∀ args : InsertArgs T,
      args.Survives f req ↔ (args.metadata = [] ∨ args.ifClause = .zmap args.metadata) ∧
        (f.getLength args.textview ≠ 0 ∨ args.textview = f.emptyText)) := by
  constructor
  · intro args
    unfold UpdateArgs.Survives
    rw [args.load_contents hinv hreq, ← args.getZmap_makeContents_iff f (Zmap.get_nil _)]
    constructor
    · rintro ⟨got, hgot, -, hmetadata⟩
      cases hgot
      exact hmetadata
    · intro hmetadata
      exact ⟨_, rfl, rfl, hmetadata⟩
  · intro args
    unfold InsertArgs.Survives
    rw [args.load_contents hinv hreq, ← args.getZmap_makeContents_iff]
    constructor
    · rintro ⟨got, hgot, -, hmetadata, htext⟩
      cases hgot
      refine ⟨hmetadata, ?_⟩
      by_cases hlong : f.getLength args.textview ≠ 0
      · exact .inl hlong
      · exact .inr ((if_neg hlong).symm.trans htext).symm
    · rintro ⟨hmetadata, hlong | hempty⟩
      · exact ⟨_, rfl, rfl, hmetadata, if_pos hlong⟩
      · refine ⟨_, rfl, rfl, hmetadata, ?_⟩
        rw [hempty]
        exact ite_self _

end RoundTrip

/-! ## A stream of whole maps and texts -/

def wholeFormats : Formats (Zmap ⊕ String) String where
  serialize zmap := [.inl zmap]
  fetchFrom
    | .inl zmap :: rest => some (zmap, rest)
    | _ => none
  serializeText text := [.inr text]
  fetchText
    | .inr text :: rest => some (text, rest)
    | _ => none
  loadTags _ := .error (.other "tags expected")
  loadJson _ := .error (.other "json expected")
  emptyText := ""
  getLength := String.length
  zvalEmpty
    | .untyped => true
    | _ => false
  uriDecode uri := uri

theorem wholeFormats_inverse : wholeFormats.Inverse where
  fetchFrom_serialize _ _ := rfl
  fetchText_serializeText _ _ := rfl

theorem survives_iff_wholeFormats :
    wholeFormats.Inverse ∧ (Message.mk []).get "id" = "" ∧
      InsertArgs.Survives wholeFormats ⟨[]⟩ { objectId := "a", textview := "text" } :=
  ⟨wholeFormats_inverse, rfl,
    ((survives_iff wholeFormats_inverse rfl).2 _).mpr ⟨.inl rfl, .inl (by decide)⟩⟩

/-- An update of one attribute without a clause leaves the server with no metadata. -/
theorem metadata_not_survives :
    wholeFormats.Inverse ∧ (Message.mk []).get "id" = "" ∧
      ¬ UpdateArgs.Survives wholeFormats ⟨[]⟩
        { objectId := "a", metadata := [(.charstr "title", .charstr "b")] } := by
  refine ⟨wholeFormats_inverse, rfl, ?_⟩
  rintro ⟨got, hgot, -, hmetadata⟩
  rw [UpdateArgs.load_contents wholeFormats_inverse rfl] at hgot
  cases hgot
  rcases (UpdateArgs.getZmap_makeContents_iff wholeFormats _ rfl).mp hmetadata with hnil | hclause
  · cases hnil
  · cases hclause

end Palmira.Http
