import Palmira.Foundation.Effects
import Palmira.Http.Client
import Palmira.Http.Wire

/-!
# The search service

`StructoSearch` over an index of contents, which is a map from ids to entities.
The language processor, the packing formats, the serializer and the compressor
come from other libraries and are parameters; what is said of them here is the
documented part the service relies on. `β` is the element of a serialized form, `T`
the type of texts, `B` of document images, `F` of field tables, `C` of contents.
-/

namespace Palmira.Service

open Effects Http

variable {β T B F C : Type}

/-- What may leave a call inside an operation, by the handlers the operations have. -/
inductive Thrown where
  | badFunctionCall (what : String)
  | invalidArgument (what : String)
  | parseError (what : String)
  | other (what : String)
  deriving DecidableEq

structure Entity (β C : Type) where
  contents : C
  extra : List β
  bundle : List β

/-- `IContentsIndex` as a map. -/
abbrev ContentsIndex (β C : Type) := String → Option (Entity β C)

/-- What the service uses of `structo`, `mtc`, `DeliriX` and `zlib`. `refuses` is what a call of
the index that would change an entry throws instead. -/
structure Structo (β T B F C : Type) where
  isEncoded : T → Bool
  copyUtf16 : T → T
  wordBreak : T → Except Thrown B
  setMarkup : B → T → Except Thrown B
  lemmatize : B → Except Thrown B
  packFormats : B → Call Thrown F (List Int8)
  packImage : B → List Int8
  compress : List Int8 → Option (List Int8)
  contents : B → Call Thrown F C
  noContents : C
  serialize : Zmap → List β
  fetchFrom : List β → Zmap
  serializeMaps : List Zmap → List β
  fetchMaps : List β → Option (List Zmap)
  getExtra : Entity β C → Option (List β)
  saveFields : F → List Zmap
  loadFields : List Zmap → F
  joinFields : F → F → F
  refuses : ContentsIndex β C → String → Option (Entity β C) → Option Thrown
  widetombcs : WideStr → String

/-- Fetching undoes serialization, loading undoes saving, a serialized form is never empty, and the
index hands out the extra it was given. -/
structure Structo.Lawful (lib : Structo β T B F C) : Prop where
  fetchFrom_serialize : ∀ zmap, lib.fetchFrom (lib.serialize zmap) = zmap
  serialize_ne_nil : ∀ zmap, lib.serialize zmap ≠ []
  fetchMaps_serializeMaps : ∀ maps, lib.fetchMaps (lib.serializeMaps maps) = some maps
  serializeMaps_ne_nil : ∀ maps, lib.serializeMaps maps ≠ []
  loadFields_saveFields : ∀ fields, lib.loadFields (lib.saveFields fields) = fields
  getExtra_of_ne_nil : ∀ entity : Entity β C, entity.extra ≠ [] →
    lib.getExtra entity = some entity.extra

structure StructoSearch (β F C : Type) where
  ctxIndex : ContentsIndex β C
  fieldMan : F
  modified : Bool := false

/-- The id of the record that keeps the field table. -/
def indexMappings : String := "##__index_mappings__##"

/-- `UpdateReport( code, info, attr )`, and `SearchReport` with the same arguments. -/
def report (code : Int32) (info : String) (attr : Zmap := []) : Zmap :=
  attr.put "status" (.zmap (Http.status code info))

/-- The status a client reads as success. -/
def succeeded (answer : Zmap) : Bool :=
  match (answer.getZmap "status").bind (fun status => Zmap.get status "code") with
  | some (.int32 code) => code == 0
  | _ => false

@[simp] theorem succeeded_report (code : Int32) (info : String) (attr : Zmap) :
    succeeded (report code info attr) = (code == 0) := by
  simp [succeeded, report, Zmap.getZmap, Http.status]

def ENOENT : Int32 := 2

def EINVAL : Int32 := 22

namespace Structo

variable (lib : Structo β T B F C)

/-- The constructor. -/
def create (ctxIndex : ContentsIndex β C) (fm : F) : Except Thrown (StructoSearch β F C) :=
  match (ctxIndex indexMappings).bind lib.getExtra with
  | some extras =>
      match lib.fetchMaps extras with
      | some indata => .ok ⟨ctxIndex, lib.joinFields (lib.loadFields indata) fm, false⟩
      | none => .error (.invalidArgument "failed to deserialize fields configuration")
  | none => .ok ⟨ctxIndex, fm, false⟩

/-! ## Calls of the index -/

/-- `SetEntity`, `SetExtras` and `DelEntity` put another value under an id, or throw. -/
def assign (id : String) (entity : Option (Entity β C)) :
    Call Thrown (StructoSearch β F C) PUnit := do
  let s ← get
  match lib.refuses s.ctxIndex id entity with
  | some thrown => throw thrown
  | none => set { s with ctxIndex := Function.update s.ctxIndex id entity }

def setEntity (id : String) (contents : C) (extra bundle : List β) :
    Call Thrown (StructoSearch β F C) (Entity β C) := do
  lib.assign id (some ⟨contents, extra, bundle⟩)
  return ⟨contents, extra, bundle⟩

def setExtras (id : String) (extra : List β) :
    Call Thrown (StructoSearch β F C) (Option (Entity β C)) := do
  match (← get).ctxIndex id with
  | some entity =>
      lib.assign id (some { entity with extra })
      return some { entity with extra }
  | none => return none

def delEntity (id : String) : Call Thrown (StructoSearch β F C) Bool := do
  match (← get).ctxIndex id with
  | some _ =>
      lib.assign id none
      return true
  | none => return false

/-! ## Insert -/

/-- `LoadMetadata` -/
def loadMetadata (dump : Option (List β)) : Zmap :=
  match dump with
  | some [] => []
  | some dump => lib.fetchFrom dump
  | none => []

/-- `ZipBuf`; nothing stands for the `range_error` its caller handles. The bound is a `size_t`. -/
def zipBuf (src : List Int8) : Option (List Int8) :=
  match lib.compress src with
  | some packed =>
      if (src.length + 2 ^ 64 - 100) % 2 ^ 64 < packed.length then none else some packed
  | none => none

/-- The document image. -/
def image (textview : T) : Except Thrown B := do
  let text := if lib.isEncoded textview then textview else lib.copyUtf16 textview
  let body ← lib.wordBreak text
  let body ← lib.setMarkup body text
  lib.lemmatize body

/-- The quotation image and the contents; either packer may add fields to the table. -/
def pack (body : B) : Call Thrown F (List β × C) := do
  let quoter := Zmap.put [] "ft" (.arrayChar (← lib.packFormats body))
  let limage := lib.packImage body
  let quoter := match lib.zipBuf limage with
    | some packed => quoter.put "ip" (.arrayChar packed)
    | none => quoter.put "im" (.arrayChar limage)
  return (lib.serialize quoter, ← lib.contents body)

/-- The body of the `try` block. -/
def insertDocument (args : InsertArgs T) : Call Thrown (StructoSearch β F C) Zmap := do
  let serial := lib.serialize args.metadata
  let body ← MonadExcept.ofExcept (lib.image args.textview)
  let (enBeef, contents) ← within StructoSearch.fieldMan
    (fun s fieldMan => { s with fieldMan }) (lib.pack body)
  let getdoc ← lib.setEntity args.objectId contents serial enBeef
  modify fun s => { s with modified := true }
  return report 0 "OK" (Zmap.put [] "metadata" (.zmap (lib.loadMetadata (lib.getExtra getdoc))))

/-- The handlers that `Insert`, `Update` and `Remove` have alike. -/
def answerError (thrown : Thrown) : Call Thrown (StructoSearch β F C) Zmap :=
  match thrown with
  | .invalidArgument what => return report EINVAL what
  | .parseError what => return report EINVAL what
  | thrown => throw thrown

/-- `Insert` has one handler more. -/
def answerInsertError (thrown : Thrown) : Call Thrown (StructoSearch β F C) Zmap :=
  match thrown with
  | .badFunctionCall what => return report EFAULT what
  | thrown => answerError thrown

/-- `Insert` -/
def insert (args : InsertArgs T) : Call Thrown (StructoSearch β F C) Zmap :=
  tryCatch (lib.insertDocument args) answerInsertError

/-! ## Update, Remove, Commit -/

/-- `Update` -/
def update (args : UpdateArgs) : Call Thrown (StructoSearch β F C) Zmap :=
  tryCatch (do
    let serial := lib.serialize args.metadata
    match ← lib.setExtras args.objectId serial with
    | some getdoc =>
        modify fun s => { s with modified := true }
        return report 0 "OK"
          (Zmap.put [] "metadata" (.zmap (lib.loadMetadata (lib.getExtra getdoc))))
    | none => return report ENOENT "document not found") answerError

/-- `Remove` -/
def remove (args : RemoveArgs) : Call Thrown (StructoSearch β F C) Zmap :=
  tryCatch (do
    if ← lib.delEntity args.objectId then
      modify fun s => { s with modified := true }
      return report 0 "OK"
    else return report ENOENT "document not found") answerError

/-- `Commit`; the index's own `Commit` leaves the map as it is. -/
def commit : Call Thrown (StructoSearch β F C) PUnit := do
  let s ← get
  if s.modified then
    let _ ← lib.setEntity indexMappings lib.noContents
      (lib.serializeMaps (lib.saveFields s.fieldMan)) []
    modify fun s => { s with modified := false }

/-! ## Search -/

/-- `get_string` -/
def getString : Zval → String
  | .charstr s => s
  | .widestr s => lib.widetombcs s
  | _ => ""

/-- `Timing::operator()` -/
def timing (elapsed : UInt32) (attr : Zmap) : Zmap :=
  attr.put "timer" (.zmap (Zmap.put [] "elapsed" (.word32 elapsed)))

/-- `Search`: `collected` is the report of a query that is not by id, which the collectors
make. -/
def search (elapsed : UInt32) (collected : Zmap) (s : StructoSearch β F C) (query : Zval) : Zmap :=
  let id := match query with
    | .zmap fields => Zmap.get fields "id"
    | _ => none
  match id with
  | some id =>
      if lib.getString id = "" then
        timing elapsed (report EINVAL "invalid 'id' data type, string expected")
      else
        match s.ctxIndex (lib.getString id) with
        | some _ =>
            timing elapsed (report 0 "OK"
              (((Zmap.put [] "first" (.word32 1)).put "found" (.word32 1)).put "items"
                (.arrayZmap [Zmap.put [] "id" (.charstr (lib.getString id))])))
        | none => timing elapsed (report ENOENT "document not found")
  | none => timing elapsed collected

/-! ## What an operation leaves -/

variable {lib} {s : StructoSearch β F C}

/-- Nothing has changed but the field table. -/
def Left (s : StructoSearch β F C) (grown : F → Prop) (s' : StructoSearch β F C) : Prop :=
  ∃ fieldMan, grown fieldMan ∧ s' = { s with fieldMan }

/-- An operation on `id` comes back: it put another value under the id, or it failed. -/
inductive Answered (s : StructoSearch β F C) (id : String) (grown : F → Prop)
    (stored : Option (Entity β C) → F → Prop) : Zmap → StructoSearch β F C → Prop
  | success {answer : Zmap} {entity : Option (Entity β C)} {fieldMan : F}
      (hok : succeeded answer = true) (hgrown : grown fieldMan) (hstored : stored entity fieldMan) :
      Answered s id grown stored answer ⟨Function.update s.ctxIndex id entity, fieldMan, true⟩
  | failure {answer : Zmap} {s' : StructoSearch β F C} (hfail : succeeded answer = false)
      (hleft : Left s grown s') : Answered s id grown stored answer s'

theorem ends_assign {id : String} {entity : Option (Entity β C)}
    {good : PUnit → StructoSearch β F C → Prop} {bad : Thrown → StructoSearch β F C → Prop}
    (hstored : good ⟨⟩ { s with ctxIndex := Function.update s.ctxIndex id entity })
    (hrefused : ∀ thrown, bad thrown s) : Ends (lib.assign id entity) s good bad := by
  unfold assign
  rw [ends_bind, ends_get]
  split
  next thrown _ => exact hrefused thrown
  next => exact hstored

theorem ends_setEntity {id : String} {contents : C} {extra bundle : List β}
    {good : Entity β C → StructoSearch β F C → Prop} {bad : Thrown → StructoSearch β F C → Prop}
    (hstored : good ⟨contents, extra, bundle⟩
      { s with ctxIndex := Function.update s.ctxIndex id (some ⟨contents, extra, bundle⟩) })
    (hrefused : ∀ thrown, bad thrown s) :
    Ends (lib.setEntity id contents extra bundle) s good bad := by
  unfold setEntity
  rw [ends_bind]
  exact ends_assign hstored hrefused

section Outcomes

variable {grown : F → Prop}

/-- The handlers report every failure they know and let the others through. -/
theorem ends_answerError {id : String} {stored : Option (Entity β C) → F → Prop}
    {s' : StructoSearch β F C} (hleft : Left s grown s') (thrown : Thrown) :
    Ends (answerError thrown) s' (Answered s id grown stored) (fun _ => Left s grown) := by
  cases thrown with
  | invalidArgument what => exact .failure (succeeded_report EINVAL what []) hleft
  | parseError what => exact .failure (succeeded_report EINVAL what []) hleft
  | badFunctionCall what => exact hleft
  | other what => exact hleft

theorem ends_answerInsertError {id : String} {stored : Option (Entity β C) → F → Prop}
    {s' : StructoSearch β F C} (hleft : Left s grown s') (thrown : Thrown) :
    Ends (answerInsertError thrown) s' (Answered s id grown stored) (fun _ => Left s grown) := by
  cases thrown with
  | badFunctionCall what => exact .failure (succeeded_report EFAULT what []) hleft
  | invalidArgument what => exact ends_answerError hleft (.invalidArgument what)
  | parseError what => exact ends_answerError hleft (.parseError what)
  | other what => exact ends_answerError hleft (.other what)

/-- What an insertion stores: the metadata, and the parts packing made. -/
def StoredBy (lib : Structo β T B F C) (args : InsertArgs T) (packed : List β × C → F → Prop)
    (entity : Option (Entity β C)) (fieldMan : F) : Prop :=
  ∃ bundle contents, entity = some ⟨contents, lib.serialize args.metadata, bundle⟩ ∧
    packed (bundle, contents) fieldMan

theorem ends_insert_image {args : InsertArgs T} (packed : List β × C → F → Prop)
    (hself : grown s.fieldMan)
    (hpack : ∀ body, lib.image args.textview = .ok body → Ends (lib.pack body) s.fieldMan
      (fun parts fieldMan => grown fieldMan ∧ packed parts fieldMan) (fun _ => grown)) :
    Ends (lib.insert args) s (Answered s args.objectId grown (lib.StoredBy args packed))
      (fun _ => Left s grown) := by
  unfold insert
  rw [ends_tryCatch]
  -- whatever is thrown while packing or storing is caught and answered
  have hcaught : ∀ fieldMan, grown fieldMan → ∀ thrown,
      Ends (answerInsertError thrown) { s with fieldMan }
        (Answered s args.objectId grown (lib.StoredBy args packed)) (fun _ => Left s grown) :=
    fun fieldMan hgrown => ends_answerInsertError ⟨fieldMan, hgrown, rfl⟩
  unfold insertDocument
  rw [ends_bind, ends_ofExcept]
  split
  next body hbody =>
    rw [ends_bind, ends_within]
    apply (hpack body hbody).imp
    · intro ⟨enBeef, contents⟩ fieldMan ⟨hgrown, hpacked⟩
      rw [ends_bind]
      apply ends_setEntity
      · exact .success (succeeded_report 0 "OK" _) hgrown ⟨enBeef, contents, rfl, hpacked⟩
      · exact hcaught fieldMan hgrown
    · exact fun thrown fieldMan hgrown => hcaught fieldMan hgrown thrown
  next thrown _ => exact hcaught s.fieldMan hself thrown

theorem ends_insert {args : InsertArgs T} (packed : List β × C → F → Prop)
    (hself : grown s.fieldMan)
    (hpack : ∀ body, Ends (lib.pack body) s.fieldMan
      (fun parts fieldMan => grown fieldMan ∧ packed parts fieldMan) (fun _ => grown)) :
    Ends (lib.insert args) s (Answered s args.objectId grown (lib.StoredBy args packed))
      (fun _ => Left s grown) :=
  ends_insert_image packed hself fun body _ => hpack body

theorem ends_update {args : UpdateArgs} (hself : grown s.fieldMan) :
    Ends (lib.update args) s
      (Answered s args.objectId grown fun entity _ => ∃ old,
        s.ctxIndex args.objectId = some old ∧
          entity = some { old with extra := lib.serialize args.metadata })
      (fun _ => Left s grown) := by
  have hleft : Left s grown s := ⟨s.fieldMan, hself, rfl⟩
  unfold update setExtras
  rw [ends_tryCatch, ends_bind, ends_bind, ends_get]
  split
  next old hold =>
    rw [ends_bind]
    apply ends_assign
    · exact .success (succeeded_report 0 "OK" _) hself ⟨old, hold, rfl⟩
    · exact ends_answerError hleft
  next => exact .failure (succeeded_report ENOENT _ _) hleft

theorem ends_remove {args : RemoveArgs} (hself : grown s.fieldMan) :
    Ends (lib.remove args) s (Answered s args.objectId grown fun entity _ => entity = none)
      (fun _ => Left s grown) := by
  have hleft : Left s grown s := ⟨s.fieldMan, hself, rfl⟩
  unfold remove delEntity
  rw [ends_tryCatch, ends_bind, ends_bind, ends_get]
  split
  next =>
    rw [ends_bind]
    apply ends_assign
    · exact .success (succeeded_report 0 "OK" _) hself rfl
    · exact ends_answerError hleft
  next => exact .failure (succeeded_report ENOENT _ _) hleft

/-- A commit with nothing to save does nothing; any other writes the field table, and a refused
one has to be made again. -/
theorem ends_commit {good : PUnit → StructoSearch β F C → Prop}
    {bad : Thrown → StructoSearch β F C → Prop} (hclean : s.modified = false → good ⟨⟩ s)
    (hsaved : good ⟨⟩ ⟨Function.update s.ctxIndex indexMappings
        (some ⟨lib.noContents, lib.serializeMaps (lib.saveFields s.fieldMan), []⟩),
      s.fieldMan, false⟩)
    (hrefused : ∀ thrown, bad thrown s) : Ends lib.commit s good bad := by
  unfold commit
  rw [ends_bind, ends_get]
  split
  next =>
    rw [ends_bind]
    exact ends_setEntity hsaved hrefused
  next hclear => exact hclean (by simpa using hclear)

end Outcomes

end Structo

end Palmira.Service
