import Palmira.Grpc.Document
import Palmira.Grpc.Refused
import Palmira.Grpc.RoundTrip
import Palmira.Http.Wire

/-!
# Requests on the gRPC wire

The messages of a change and the overloads of `Convert` on both sides. What the
encoder writes is complete, so the other side reads it, and what the decoder
makes of a message is a map in normal form.
-/

namespace Palmira.Grpc

open Effects HandleTree Palmira.Http Palmira.Objects

/-! ## The messages -/

/-- `grpcttp::RemoveArgs` -/
structure RemoveMessage where
  objectid : String

/-- `grpcttp::UpdateArgs` -/
structure UpdateMessage where
  objectid : String
  metadata : Option Metadata

/-- `grpcttp::InsertArgs` -/
structure InsertMessage where
  objectid : String
  metadata : Option Metadata
  document : Option Document

/-- What the overloads of the client use: the conversion of wide strings, the machine's reduction of
a floating number, and of `DeliriX` the length of a text and its serialization, which calls what
it is given. -/
structure ClientEnv (T : Type) where
  widetombcs : WideStr → String
  reduce : Number → Int32
  pages : DocumentPages
  getLength : T → ℕ
  serialize : (Handle → String → Call Exn Messages Handle) →
    (Handle → Paragraph → Call Exn Messages PUnit) → Handle → T → Call Exn Messages PUnit

/-- What the overloads of the server use: a text of the server, the calls on it and the empty
one. -/
structure TextEnv (T H : Type) where
  pages : Codepages
  api : IText (Call Exn T) H
  root : H
  emptyText : T

/-- The exception where an id is missing, with the place it is thrown at. -/
def objectIdNotDefined (line : String) : Exn :=
  .invalidArgument ("objectId not defined @messages.cpp:" ++ line)

/-- What a call on a fresh value makes of it. -/
def filled {σ : Type} (call : Call Exn σ PUnit) (fresh : σ) : Except Exn σ :=
  match call.run.run fresh with
  | (.ok _, written) => .ok written
  | (.error e, _) => .error e

section Overloads

variable {T H : Type}

/-! ## The client -/

/-- `Convert( grpcttp::RemoveArgs& out, const palmira::RemoveArgs& src )` -/
def convertRemoveMessage (src : RemoveArgs) : Except Exn RemoveMessage :=
  if src.objectId = "" then .error (objectIdNotDefined "305")
  else .ok ⟨src.objectId⟩

/-- Metadata goes into a message when there is any. -/
def sentMetadata (env : ClientEnv T) (metadata : Zmap) : Except Exn (Option Metadata) :=
  if metadata.isEmpty then .ok none
  else do return some (← filled (fillMetadata env.widetombcs env.reduce metadata) [])

/-- `Convert( grpcttp::UpdateArgs& out, const palmira::UpdateArgs& src )` -/
def convertUpdateMessage (env : ClientEnv T) (src : UpdateArgs) : Except Exn UpdateMessage := do
  if src.objectId = "" then throw (objectIdNotDefined "313")
  return ⟨src.objectId, ← sentMetadata env src.metadata⟩

/-- `Convert( grpcttp::Document& out, const DeliriX::ITextView& src )` -/
def fillDocument (env : ClientEnv T) (textview : T) : Except Exn Document := do
  return documentOf (← filled (env.serialize TextOnDocument.addMarkupTag
    (TextOnDocument.addParagraph env.pages) .root textview) ⟨[], []⟩)

/-- A text goes into a message when it has a length. -/
def sentDocument (env : ClientEnv T) (textview : T) : Except Exn (Option Document) :=
  if env.getLength textview = 0 then .ok none
  else do return some (← fillDocument env textview)

/-- `Convert( grpcttp::InsertArgs& out, const palmira::InsertArgs& src )` -/
def convertInsertMessage (env : ClientEnv T) (src : InsertArgs T) : Except Exn InsertMessage := do
  if src.objectId = "" then throw (objectIdNotDefined "323")
  let metadata ← sentMetadata env src.metadata
  let document ← sentDocument env src.textview
  return ⟨src.objectId, metadata, document⟩

/-! ## The server -/

/-- `Convert( palmira::RemoveArgs& out, const grpcttp::RemoveArgs& src )` -/
def convertRemoveArgs (src : RemoveMessage) : Except Exn RemoveArgs :=
  if src.objectid = "" then .error (objectIdNotDefined "278")
  else .ok { objectId := src.objectid }

/-- A message without metadata leaves the map empty. -/
def receivedMetadata (src : Option Metadata) : Except Exn Zmap :=
  match src with
  | some metadata => convertZmap [] metadata
  | none => .ok []

/-- `Convert( palmira::UpdateArgs& out, const grpcttp::UpdateArgs& src )` -/
def convertUpdateArgs (src : UpdateMessage) : Except Exn UpdateArgs := do
  let metadata ← receivedMetadata src.metadata
  if src.objectid = "" then throw (objectIdNotDefined "287")
  return { objectId := src.objectid, metadata }

/-- A message without a document leaves the text empty. -/
def receivedText (env : TextEnv T H) (src : Option Document) : Except Exn T :=
  match src with
  | some document => filled (convertDocument env.api env.pages env.root document) env.emptyText
  | none => .ok env.emptyText

/-- `Convert( palmira::InsertArgs& out, const grpcttp::InsertArgs& src )` -/
def convertInsertArgs (env : TextEnv T H) (src : InsertMessage) : Except Exn (InsertArgs T) := do
  let textview ← receivedText env src.document
  let metadata ← receivedMetadata src.metadata
  if src.objectid = "" then throw (objectIdNotDefined "298")
  return { objectId := src.objectid, metadata, textview }

end Overloads

/-! ## What the encoder writes is complete -/

theorem dataSet_iff {data : List (String × MetaValue)} :
    DataSet data ↔ ∀ pair ∈ data, pair.2.AllSet := by
  induction data with
  | nil => simp [DataSet]
  | cons head rest ih =>
      obtain ⟨key, val⟩ := head
      simp only [DataSet, ih, List.forall_mem_cons]

theorem metadataSet_iff {value : List (List (String × MetaValue))} :
    MetadataSet value ↔ ∀ data ∈ value, SortedAssoc.Sorted data ∧ DataSet data := by
  induction value with
  | nil => simp [MetadataSet]
  | cons data rest ih => simp only [MetadataSet, ih, List.forall_mem_cons]

theorem metaValuesSet_iff {value : List MetaValue} :
    MetaValuesSet value ↔ ∀ val ∈ value, val.AllSet := by
  induction value with
  | nil => simp [MetaValuesSet]
  | cons val rest ih => simp only [MetaValuesSet, ih, List.forall_mem_cons]

/-- A message of metadata that decodes. -/
def CompleteData (data : Metadata) : Prop := SortedAssoc.Sorted data ∧ DataSet data

theorem CompleteData.put {data : Metadata} (hdata : CompleteData data) (key : String)
    {val : MetaValue} (hval : val.AllSet) : CompleteData (SortedAssoc.put data key val) := by
  refine ⟨hdata.1.put _ _, dataSet_iff.mpr fun pair hmem => ?_⟩
  rcases SortedAssoc.mem_put hmem with rfl | hmem
  · exact hval
  · exact dataSet_iff.mp hdata.2 pair hmem

/-- A value there may be under a key before it is written. -/
def Writable (val : MetaValue) : Prop := val = .notSet ∨ val.AllSet

theorem CompleteData.writable {data : Metadata} (hdata : CompleteData data) (key : String) :
    Writable ((SortedAssoc.get? data key).getD .notSet) := by
  cases hget : SortedAssoc.get? data key with
  | none => exact .inl rfl
  | some val => exact .inr (dataSet_iff.mp hdata.2 _ (SortedAssoc.mem_of_get? hget))

theorem Writable.metadata {val : MetaValue} (hval : Writable val) : CompleteData val.metadata := by
  have hempty : CompleteData [] := ⟨List.Pairwise.nil, trivial⟩
  rcases hval with rfl | hset
  · exact hempty
  · cases val with
    | asMetadata data => exact hset
    | _ => exact hempty

theorem Writable.arrayMetadata {val : MetaValue} (hval : Writable val) :
    MetadataSet val.arrayMetadata := by
  rcases hval with rfl | hset
  · trivial
  · cases val with
    | asArrayMetadata value => exact hset
    | _ => trivial

theorem Writable.arrayMetavalue {val : MetaValue} (hval : Writable val) :
    MetaValuesSet val.arrayMetavalue := by
  rcases hval with rfl | hset
  · trivial
  · cases val with
    | asArrayMetavalue value => exact hset
    | _ => trivial

section Encoder

variable (widetombcs : WideStr → String) (reduce : Number → Int32)

mutual

/-- A conversion that returns leaves a complete value behind, whatever it was written over. -/
theorem fillMetaValue_complete : ∀ (v : Zval) (out : MetaValue), Writable out →
    Ends (fillMetaValue widetombcs reduce v) out (fun _ out => out.AllSet) (fun _ _ => True)
  | .untyped, _, _ => trivial
  | .zmap fields, out, hout =>
      ends_within.mpr (fillMetadata_complete fields out.metadata hout.metadata)
  | .arrayZmap maps, out, hout =>
      ends_within.mpr (fillMetadatas_complete maps out.arrayMetadata hout.arrayMetadata)
  | .arrayZval vals, out, hout =>
      ends_within.mpr (fillMetaValues_complete vals out.arrayMetavalue hout.arrayMetavalue)
  | .char _, _, _ | .byte _, _, _ | .int16 _, _, _ | .word16 _, _, _ | .int32 _, _, _
  | .word32 _, _, _ | .int64 _, _, _ | .word64 _, _, _ | .float _, _, _ | .double _, _, _
  | .bool _, _, _ | .charstr _, _, _ | .widestr _, _, _ | .arrayChar _, _, _ | .arrayByte _, _, _
  | .arrayInt16 _, _, _ | .arrayWord16 _, _, _ | .arrayInt32 _, _, _ | .arrayWord32 _, _, _
  | .arrayInt64 _, _, _ | .arrayWord64 _, _, _ | .arrayFloat _, _, _ | .arrayDouble _, _, _
  | .arrayCharstr _, _, _ | .arrayWidestr _, _, _ => trivial

theorem fillMetadata_complete : ∀ (fields : List (Key × Zval)) (out : Metadata),
    CompleteData out →
    Ends (fillMetadata widetombcs reduce fields) out (fun _ out => CompleteData out)
      (fun _ _ => True)
  | [], _, hout => hout
  | (.word _, _) :: _, _, _ | (.widestr _, _) :: _, _, _ => trivial
  | (.charstr key, val) :: rest, out, hout => by
      rw [fillMetadata, ends_bind, ends_within]
      refine (fillMetaValue_complete val _ (hout.writable key)).imp ?_ fun _ _ _ => trivial
      exact fun _ written hset => fillMetadata_complete rest _ (hout.put key hset)

theorem fillMetadatas_complete : ∀ (maps : List (List (Key × Zval))) (out : List Metadata),
    MetadataSet out →
    Ends (fillMetadatas widetombcs reduce maps) out (fun _ out => MetadataSet out)
      (fun _ _ => True)
  | [], _, hout => hout
  | fields :: rest, out, hout => by
      rw [fillMetadatas, ends_bind, ends_within]
      have hempty : CompleteData [] := ⟨List.Pairwise.nil, trivial⟩
      refine (fillMetadata_complete fields [] hempty).imp ?_ fun _ _ _ => trivial
      intro _ data hdata
      refine fillMetadatas_complete rest _ (metadataSet_iff.mpr ?_)
      exact List.forall_mem_append.mpr
        ⟨metadataSet_iff.mp hout, List.forall_mem_singleton.mpr hdata⟩

theorem fillMetaValues_complete : ∀ (vals : List Zval) (out : List MetaValue),
    MetaValuesSet out →
    Ends (fillMetaValues widetombcs reduce vals) out (fun _ out => MetaValuesSet out)
      (fun _ _ => True)
  | [], _, hout => hout
  | val :: rest, out, hout => by
      rw [fillMetaValues, ends_bind, ends_within]
      refine (fillMetaValue_complete val .notSet (.inl rfl)).imp ?_ fun _ _ _ => trivial
      intro _ written hset
      refine fillMetaValues_complete rest _ (metaValuesSet_iff.mpr ?_)
      exact List.forall_mem_append.mpr
        ⟨metaValuesSet_iff.mp hout, List.forall_mem_singleton.mpr hset⟩

end

end Encoder

/-! ## What the decoder makes is in normal form -/

mutual

theorem convertZval_wf : ∀ (val : MetaValue) (z : Zval), convertZval val = .ok z → z.Wf
  | .notSet, _, hz => by cases hz
  | .asBool _, _, hz | .asInt32 _, _, hz | .asInt64 _, _, hz | .asUint32 _, _, hz
  | .asUint64 _, _, hz | .asFloat _, _, hz | .asDouble _, _, hz | .asString _, _, hz
  | .asArrayInt32 _, _, hz | .asArrayInt64 _, _, hz | .asArrayUint32 _, _, hz
  | .asArrayUint64 _, _, hz | .asArrayFloat _, _, hz | .asArrayDouble _, _, hz
  | .asArrayString _, _, hz => by
      cases hz
      trivial
  | .asMetadata data, _, hz => by
      rw [convertZval] at hz
      obtain ⟨fields, hfields, rfl⟩ := bind_pure_ok (f := Zval.zmap) hz
      exact convertZmap_wf data [] fields ⟨List.Pairwise.nil, trivial⟩ hfields
  | .asArrayMetadata value, _, hz => by
      obtain ⟨maps, hmaps, rfl⟩ := convertZval_asArrayMetadata_ok hz
      exact convertZmaps_wf value maps hmaps
  | .asArrayMetavalue value, _, hz => by
      obtain ⟨vals, hvals, rfl⟩ := convertZval_asArrayMetavalue_ok hz
      exact convertZvals_wf value vals hvals

theorem convertZmap_wf : ∀ (data : List (String × MetaValue)) (out m : Zmap), out.Wf →
    convertZmap out data = .ok m → m.Wf
  | [], _, _, hout, hm => by
      cases hm
      exact hout
  | (key, val) :: rest, out, m, hout, hm => by
      rw [convertZmap] at hm
      cases hval : convertZval val with
      | error e =>
          rw [hval] at hm
          cases hm
      | ok z =>
          rw [hval] at hm
          exact convertZmap_wf rest _ m (hout.put key (convertZval_wf val z hval)) hm

theorem convertZmaps_wf : ∀ (value : List (List (String × MetaValue)))
    (maps : List (List (Key × Zval))), convertZmaps value = .ok maps → Zmap.AllMapsWf maps
  | [], _, hmaps => by
      cases hmaps
      trivial
  | data :: rest, _, hmaps => by
      rw [convertZmaps] at hmaps
      obtain ⟨fields, maps, hfields, hrest, rfl⟩ := bind_cons_ok (f := id) hmaps
      exact ⟨convertZmap_wf data [] fields ⟨List.Pairwise.nil, trivial⟩ hfields,
        convertZmaps_wf rest maps hrest⟩

theorem convertZvals_wf : ∀ (value : List MetaValue) (vals : List Zval),
    convertZvals value = .ok vals → Zval.AllWf vals
  | [], _, hvals => by
      cases hvals
      trivial
  | val :: rest, _, hvals => by
      obtain ⟨z, vals, hz, hrest, rfl⟩ := convertZvals_cons_ok hvals
      exact ⟨convertZval_wf val z hz, convertZvals_wf rest vals hrest⟩

end

/-! ## Metadata between the two sides -/

section Arrival

variable {T : Type}

theorem filled_ok {σ : Type} {call : Call Exn σ PUnit} {fresh written : σ}
    {good : PUnit → σ → Prop} {bad : Exn → σ → Prop} (hends : Ends call fresh good bad)
    (hok : filled call fresh = .ok written) : good ⟨⟩ written := by
  unfold Ends at hends
  unfold filled at hok
  split at hok
  next a s' hrun =>
    cases hok
    rw [hrun] at hends
    exact hends
  next => cases hok

/-- What a reader is to find on the other side: what the map said, if its numbers fit the fields the
encoder picks. -/
def SameMeaning (widetombcs : WideStr → String) (received sent : Zmap) : Prop :=
  FieldsFit sent → fieldMeanings widetombcs received = fieldMeanings widetombcs sent

/-- A map that another side can be handed: in normal form, with nothing the encoder refuses. -/
structure Portable (m : Zmap) : Prop where
  wf : m.Wf
  convertible : FieldsConvertible m

theorem portable_nil : Portable [] := ⟨⟨List.Pairwise.nil, trivial⟩, trivial⟩

/-- A complete message decodes to a map that can be handed on. -/
theorem CompleteData.decodes {data : Metadata} (hdata : CompleteData data)
    (widetombcs : WideStr → String) :
    ∃ m, convertZmap [] data = .ok m ∧ Portable m ∧
      fieldMeanings widetombcs m = dataMeanings data := by
  obtain ⟨m, hm, hmean⟩ := convertFields_meaning widetombcs data hdata.2
  have hok : convertZmap [] data = .ok m := (convertZmap_nil data hdata.1).trans hm
  exact ⟨m, hok, ⟨convertZmap_wf data [] m ⟨List.Pairwise.nil, trivial⟩ hok,
    convertFields_convertible data m hdata.2 hm⟩, hmean⟩

variable {widetombcs : WideStr → String} {reduce : Number → Int32}

/-- What is written into a fresh message is complete, and says what the map says if that fits. -/
theorem fillMetadata_fresh (htruncates : Truncates reduce) {m : Zmap} (hwf : m.Wf) :
    Ends (fillMetadata widetombcs reduce m) []
      (fun _ data => CompleteData data ∧
        (FieldsFit m → dataMeanings data = fieldMeanings widetombcs m)) (fun _ _ => True) := by
  have hcomplete := fillMetadata_complete widetombcs reduce m [] ⟨List.Pairwise.nil, trivial⟩
  have hpasses := fillMetadata_passes widetombcs reduce m []
  by_cases hfit : FieldsFit m
  · cases hdata : convertMetadata widetombcs [] m with
    | ok data =>
        have hwrites := fillMetadata_writes widetombcs reduce htruncates hwf hdata
        refine ((hcomplete.and hpasses).and hwrites).imp ?_ fun _ _ _ => trivial
        rintro _ out ⟨⟨hset, hconv⟩, rfl⟩
        have hcarries := convertPairs_carries widetombcs m hconv hwf.2
        rw [← convertMetadata_nil widetombcs m hwf.1, hdata] at hcarries
        exact ⟨hset, fun _ => hcarries.2.mpr hfit⟩
    | error e =>
        -- a map that fits is refused by the conversion by value only for a part without a case
        refine (hcomplete.and hpasses).imp ?_ fun _ _ _ => trivial
        rintro _ out ⟨hset, hconv⟩
        have hcarries := convertPairs_carries widetombcs m hconv hwf.2
        rw [← convertMetadata_nil widetombcs m hwf.1, hdata] at hcarries
        exact absurd hfit hcarries
  · exact hcomplete.imp (fun _ _ hset => ⟨hset, fun hfits => absurd hfits hfit⟩) fun _ _ h => h

/-- The metadata of a request is received whole. -/
theorem receivedMetadata_sent {env : ClientEnv T} (htruncates : Truncates env.reduce) {m : Zmap}
    (hwf : m.Wf) {sent : Option Metadata} (hsent : sentMetadata env m = .ok sent) :
    ∃ received, receivedMetadata sent = .ok received ∧ Portable received ∧
      SameMeaning env.widetombcs received m := by
  unfold sentMetadata at hsent
  split at hsent
  next hempty =>
    cases hsent
    obtain rfl : m = [] := List.isEmpty_iff.mp hempty
    exact ⟨[], rfl, portable_nil, fun _ => rfl⟩
  next =>
    obtain ⟨data, hdata, rfl⟩ := bind_pure_ok (f := some) hsent
    obtain ⟨hcomplete, hsame⟩ := filled_ok (fillMetadata_fresh htruncates hwf) hdata
    obtain ⟨received, hreceived, hportable, hmean⟩ := hcomplete.decodes env.widetombcs
    exact ⟨received, hreceived, hportable, fun hfit => hmean.trans (hsame hfit)⟩

/-- Id and metadata of a change as the service gets them. -/
structure Arrives (widetombcs : WideStr → String) (received sent : UpdateArgs) : Prop where
  objectId : received.objectId = sent.objectId
  portable : Portable received.metadata
  same : SameMeaning widetombcs received.metadata sent.metadata

theorem remove_arrives {sent received : RemoveArgs} {message : RemoveMessage}
    (hsent : convertRemoveMessage sent = .ok message)
    (hreceived : convertRemoveArgs message = .ok received) : received.objectId = sent.objectId := by
  unfold convertRemoveMessage at hsent
  split at hsent
  next => cases hsent
  next =>
    cases hsent
    unfold convertRemoveArgs at hreceived
    split at hreceived
    next => cases hreceived
    next =>
      cases hreceived
      rfl

theorem convertUpdateMessage_ok {env : ClientEnv T} {args : UpdateArgs} {message : UpdateMessage}
    (hok : convertUpdateMessage env args = .ok message) :
    message.objectid = args.objectId ∧ sentMetadata env args.metadata = .ok message.metadata := by
  unfold convertUpdateMessage at hok
  split at hok
  next => cases hok
  next =>
    obtain ⟨metadata, hmetadata, rfl⟩ := bind_pure_ok (f := UpdateMessage.mk args.objectId) hok
    exact ⟨rfl, hmetadata⟩

theorem convertUpdateArgs_ok {message : UpdateMessage} {args : UpdateArgs}
    (hok : convertUpdateArgs message = .ok args) :
    args.objectId = message.objectid ∧ receivedMetadata message.metadata = .ok args.metadata := by
  unfold convertUpdateArgs at hok
  obtain ⟨metadata, hmetadata, hok⟩ := bind_ok hok
  split at hok
  next => cases hok
  next =>
    cases hok
    exact ⟨rfl, hmetadata⟩

theorem convertInsertMessage_ok {env : ClientEnv T} {args : InsertArgs T} {message : InsertMessage}
    (hok : convertInsertMessage env args = .ok message) :
    message.objectid = args.objectId ∧ sentMetadata env args.metadata = .ok message.metadata := by
  unfold convertInsertMessage at hok
  split at hok
  next => cases hok
  next =>
    obtain ⟨metadata, hmetadata, hok⟩ := bind_ok hok
    obtain ⟨document, -, rfl⟩ := bind_pure_ok (f := InsertMessage.mk args.objectId metadata) hok
    exact ⟨rfl, hmetadata⟩

theorem convertInsertArgs_ok {H : Type} {text : TextEnv T H} {message : InsertMessage}
    {args : InsertArgs T} (hok : convertInsertArgs text message = .ok args) :
    args.objectId = message.objectid ∧ receivedMetadata message.metadata = .ok args.metadata := by
  unfold convertInsertArgs at hok
  obtain ⟨textview, -, hok⟩ := bind_ok hok
  obtain ⟨metadata, hmetadata, hok⟩ := bind_ok hok
  split at hok
  next => cases hok
  next =>
    cases hok
    exact ⟨rfl, hmetadata⟩

theorem Arrives.of_metadata {env : ClientEnv T} (htruncates : Truncates env.reduce)
    {received sent : UpdateArgs} (hwf : sent.metadata.Wf)
    (hid : received.objectId = sent.objectId) {metadata : Option Metadata}
    (hsent : sentMetadata env sent.metadata = .ok metadata)
    (hreceived : receivedMetadata metadata = .ok received.metadata) :
    Arrives env.widetombcs received sent := by
  obtain ⟨m, hok, hportable, hsame⟩ := receivedMetadata_sent htruncates hwf hsent
  cases hreceived.symm.trans hok
  exact ⟨hid, hportable, hsame⟩

theorem update_arrives {env : ClientEnv T} (htruncates : Truncates env.reduce)
    {sent received : UpdateArgs} (hwf : sent.metadata.Wf) {message : UpdateMessage}
    (hsent : convertUpdateMessage env sent = .ok message)
    (hreceived : convertUpdateArgs message = .ok received) :
    Arrives env.widetombcs received sent := by
  obtain ⟨hid, hmetadata⟩ := convertUpdateMessage_ok hsent
  obtain ⟨hid', hmetadata'⟩ := convertUpdateArgs_ok hreceived
  exact .of_metadata htruncates hwf (hid'.trans hid) hmetadata hmetadata'

theorem insert_arrives {H : Type} {env : ClientEnv T} {text : TextEnv T H}
    (htruncates : Truncates env.reduce) {sent received : InsertArgs T} (hwf : sent.metadata.Wf)
    {message : InsertMessage} (hsent : convertInsertMessage env sent = .ok message)
    (hreceived : convertInsertArgs text message = .ok received) :
    Arrives env.widetombcs received.toUpdateArgs sent.toUpdateArgs := by
  obtain ⟨hid, hmetadata⟩ := convertInsertMessage_ok hsent
  obtain ⟨hid', hmetadata'⟩ := convertInsertArgs_ok hreceived
  exact .of_metadata htruncates hwf (hid'.trans hid) hmetadata hmetadata'

end Arrival

end Palmira.Grpc
