import Palmira.Service.StructoSearch

/-!
# The store of documents

A client that goes by the answers has a map from ids to metadata. The service
holds this map in its index, which it shares with a record of its own, and finds
a document by its id.
-/

namespace Palmira.Service

open Effects Http

variable {β T B F C : Type}

/-- What clients call, in any order. -/
inductive Operation (T : Type) where
  | insert (args : InsertArgs T)
  | update (args : UpdateArgs)
  | remove (args : RemoveArgs)
  | commit

/-- The metadata of the stored documents. -/
abbrev Stored := String → Option Zmap

/-- What a successful operation makes of the stored documents. -/
def Operation.effect (stored : Stored) : Operation T → Stored
  | .insert args => Function.update stored args.objectId (some args.metadata)
  | .update args => Function.update stored args.objectId (some args.metadata)
  | .remove args => Function.update stored args.objectId none
  | .commit => stored

/-- The client's own account. -/
def recordAnswer (op : Operation T) (answer : Zmap) (_ : StructoSearch β F C) (stored : Stored) :
    Stored :=
  if succeeded answer = true then op.effect stored else stored

namespace Structo

variable (lib : Structo β T B F C)

def perform : Operation T → Call Thrown (StructoSearch β F C) Zmap
  | .insert args => lib.insert args
  | .update args => lib.update args
  | .remove args => lib.remove args
  | .commit => do
      lib.commit
      return []

/-- The metadata of an entity. -/
def metadataOf (entity : Entity β C) : Zmap := lib.loadMetadata (lib.getExtra entity)

/-- The documents an index holds. -/
def documents (ctxIndex : ContentsIndex β C) : Stored := fun id => (ctxIndex id).map lib.metadataOf

end Structo

/-- The query `{"id": x}`. -/
def byId (id : String) : Zval := .zmap (Zmap.put [] "id" (.charstr id))

/-- The ids a search report lists. -/
def foundIds (report : Zmap) : List String :=
  match report.get "items" with
  | some (.arrayZmap items) => items.filterMap fun item => Zmap.getCharstr item "id"
  | _ => []

/-! ## Searching by id -/

variable {lib : Structo β T B F C}

@[simp] theorem foundIds_timing (elapsed : UInt32) (attr : Zmap) :
    foundIds (Structo.timing elapsed attr) = foundIds attr := by
  simp [foundIds, Structo.timing]

@[simp] theorem foundIds_report (code : Int32) (info : String) (attr : Zmap) :
    foundIds (report code info attr) = foundIds attr := by
  simp [foundIds, report]

@[simp] theorem foundIds_nil : foundIds [] = [] := rfl

@[simp] theorem foundIds_items (attr : Zmap) (id : String) :
    foundIds (attr.put "items" (.arrayZmap [Zmap.put [] "id" (.charstr id)])) = [id] := by
  simp [foundIds, Zmap.getCharstr]

/-- A search by id finds the id when the index has it; the empty id is not searched. -/
theorem foundIds_search_byId (elapsed : UInt32) (collected : Zmap) (s : StructoSearch β F C)
    (id : String) : foundIds (lib.search elapsed collected s (byId id)) =
      if id ≠ "" ∧ (s.ctxIndex id).isSome = true then [id] else [] := by
  simp only [Structo.search, byId, Zmap.get_put_self, Structo.getString]
  by_cases hid : id = ""
  · simp [hid]
  · cases hentity : s.ctxIndex id with
    | none => simp [hid]
    | some entity => simp [hid]

/-! ## The index and the client's account -/

section Account

variable {stored : Stored} {s s' : StructoSearch β F C}

/-- Apart from its own record the index holds what the client has stored. -/
def HoldsStored (lib : Structo β T B F C) (s : StructoSearch β F C) (stored : Stored) : Prop :=
  ∀ id, id ≠ indexMappings → lib.documents s.ctxIndex id = stored id

theorem metadataOf_serialize (hlib : lib.Lawful) (contents : C) (metadata : Zmap)
    (bundle : List β) : lib.metadataOf ⟨contents, lib.serialize metadata, bundle⟩ = metadata := by
  have hne := hlib.serialize_ne_nil metadata
  unfold Structo.metadataOf Structo.loadMetadata
  rw [hlib.getExtra_of_ne_nil _ hne]
  split
  next hnil => exact absurd (Option.some.inj hnil) hne
  next dump _ hdump => rw [← Option.some.inj hdump, hlib.fetchFrom_serialize]
  next hnone => cases hnone

theorem documents_update (ctxIndex : ContentsIndex β C) (id : String)
    (entity : Option (Entity β C)) : lib.documents (Function.update ctxIndex id entity) =
      Function.update (lib.documents ctxIndex) id (entity.map lib.metadataOf) := by
  funext other
  by_cases hother : other = id
  · subst hother
    simp [Structo.documents]
  · simp [Structo.documents, hother]

theorem HoldsStored.of_answered {id : String} {grown : F → Prop}
    {written : Option (Entity β C) → F → Prop} {answer : Zmap} {value : Option Zmap}
    (hinv : HoldsStored lib s stored) (hanswered : Structo.Answered s id grown written answer s')
    (hvalue : ∀ entity fieldMan, written entity fieldMan → entity.map lib.metadataOf = value) :
    HoldsStored lib s'
      (if succeeded answer = true then Function.update stored id value else stored) := by
  cases hanswered with
  | success hok hgrown hwritten =>
      intro other hother
      rw [if_pos hok, documents_update, hvalue _ _ hwritten]
      by_cases hsame : other = id
      · subst hsame
        simp
      · simp [hsame, hinv other hother]
  | failure hfail hleft =>
      rw [if_neg (by simp [hfail])]
      obtain ⟨fieldMan, -, rfl⟩ := hleft
      exact hinv

theorem HoldsStored.of_left {grown : F → Prop} (hinv : HoldsStored lib s stored)
    (hleft : Structo.Left s grown s') : HoldsStored lib s' stored := by
  obtain ⟨fieldMan, -, rfl⟩ := hleft
  exact hinv

/-- A commit writes its own record only. -/
theorem HoldsStored.commit (hinv : HoldsStored lib s stored) :
    Ends lib.commit s (fun _ s' => HoldsStored lib s' stored)
      (fun _ s' => HoldsStored lib s' stored) := by
  apply Structo.ends_commit
  · exact fun _ => hinv
  · intro id hid
    rw [documents_update, Function.update_of_ne hid]
    exact hinv id hid
  · exact fun _ => hinv

theorem holdsStored_perform (hlib : lib.Lawful) (op : Operation T)
    (hinv : HoldsStored lib s stored) :
    Ends (lib.perform op) s (fun answer s' => HoldsStored lib s' (recordAnswer op answer s' stored))
      (fun _ s' => HoldsStored lib s' stored) := by
  have hfailed : ∀ (thrown : Thrown) s', Structo.Left s (fun _ => True) s' →
      HoldsStored lib s' stored := fun _ _ => hinv.of_left
  cases op with
  | insert args =>
      have hpack : ∀ body, Ends (lib.pack body) s.fieldMan (fun _ _ => True ∧ True)
          (fun _ _ => True) := fun _ => ends_of_forall (fun _ _ => ⟨trivial, trivial⟩)
            (fun _ _ => trivial)
      refine (Structo.ends_insert (fun _ _ => True) trivial hpack).imp
        (fun answer s' hanswered => ?_) hfailed
      apply hinv.of_answered hanswered
      rintro entity - ⟨bundle, contents, rfl, -⟩
      exact congrArg some (metadataOf_serialize hlib contents args.metadata bundle)
  | update args =>
      refine (Structo.ends_update trivial).imp (fun answer s' hanswered => ?_) hfailed
      apply hinv.of_answered hanswered
      -- an update keeps contents and bundle of the old entity
      rintro entity - ⟨old, -, rfl⟩
      exact congrArg some (metadataOf_serialize hlib old.contents args.metadata old.bundle)
  | remove args =>
      refine (Structo.ends_remove trivial).imp (fun answer s' hanswered => ?_) hfailed
      apply hinv.of_answered hanswered
      rintro entity - rfl
      rfl
  | commit =>
      unfold Structo.perform
      rw [ends_bind]
      exact hinv.commit

end Account

/-! ## Sessions -/

/-- The service and the client's account of it after these operations. -/
def session (lib : Structo β T B F C) (s : StructoSearch β F C) (ops : List (Operation T)) :
    Session (StructoSearch β F C) Stored :=
  Session.run lib.perform recordAnswer ⟨s, lib.documents s.ctxIndex⟩ ops

/-- A search by the id finds it exactly when the client has it stored. -/
def FindsStored (lib : Structo β T B F C) (h : Session (StructoSearch β F C) Stored) (id : String) :
    Prop :=
  ∀ elapsed collected, id ∈ foundIds (lib.search elapsed collected h.state (byId id)) ↔
    (h.seen id).isSome = true

/-- A commit tells the client nothing. -/
theorem seen_commit (s : StructoSearch β F C) (ops : List (Operation T)) :
    (session lib s (ops ++ [.commit])).seen = (session lib s ops).seen := by
  unfold session
  rw [Session.run_concat]
  unfold Session.step
  split
  · exact ite_self _
  · rfl

/-- Whatever the clients call, the service holds for every id but its own what the client has
stored under it, and finds by every such id but the empty one what the client has stored. A commit
changes neither. -/
theorem store_faithful (hlib : lib.Lawful) (s : StructoSearch β F C) (ops : List (Operation T))
    (id : String) (hid : id ≠ indexMappings) :
    lib.documents (session lib s ops).state.ctxIndex id = (session lib s ops).seen id ∧
    (id ≠ "" → FindsStored lib (session lib s ops) id) ∧
    lib.documents (session lib s (ops ++ [.commit])).state.ctxIndex id =
      lib.documents (session lib s ops).state.ctxIndex id := by
  have hholds : ∀ ops : List (Operation T),
      HoldsStored lib (session lib s ops).state (session lib s ops).seen :=
    Session.run_invariant (fun s stored op hinv => holdsStored_perform hlib op hinv)
      (fun _ _ => rfl)
  refine ⟨hholds ops id hid, fun hne elapsed collected => ?_, ?_⟩
  · have hsame := hholds ops id hid
    unfold Structo.documents at hsame
    rw [foundIds_search_byId, ← hsame, Option.isSome_map]
    split
    next hfound => simp [hfound.2]
    next hlost => simpa using fun hsome => hlost ⟨hne, hsome⟩
  · have hafter := hholds (ops ++ [.commit]) id hid
    rw [seen_commit] at hafter
    rw [hafter, hholds ops id hid]

/-! ## A service whose libraries do little -/

/-- Serialized forms are the maps themselves, and a table is the list of its numbers. Every
document has one formatted field and one that its contents add. -/
def plainStructo : Structo (List Zmap) Unit Unit (List ℕ) (List ℕ) where
  isEncoded _ := true
  copyUtf16 := id
  wordBreak := .ok
  setMarkup body _ := .ok body
  lemmatize := .ok
  packFormats _ := do
    modify fun fields => fields ++ [1]
    return [1]
  packImage _ := []
  compress _ := none
  contents _ := do
    modify fun fields => fields ++ [2]
    return [2]
  noContents := []
  serialize zmap := [[zmap]]
  fetchFrom
    | [[zmap]] => zmap
    | _ => []
  serializeMaps maps := [maps]
  fetchMaps
    | [maps] => some maps
    | _ => none
  getExtra entity := some entity.extra
  saveFields fields := fields.map fun n => [(.word n, .untyped)]
  loadFields maps := maps.filterMap fun
    | [(.word n, _)] => some n
    | _ => none
  joinFields fields other := fields ++ other
  refuses _ _ _ := none
  widetombcs _ := ""

theorem plainStructo_lawful : plainStructo.Lawful where
  fetchFrom_serialize _ := rfl
  serialize_ne_nil _ := List.cons_ne_nil _ _
  fetchMaps_serializeMaps _ := rfl
  serializeMaps_ne_nil _ := List.cons_ne_nil _ _
  loadFields_saveFields fields := by
    induction fields with
    | nil => rfl
    | cons n rest ih => exact congrArg (n :: ·) ih
  getExtra_of_ne_nil _ _ := rfl

/-- A service over an empty index. -/
def emptyService : StructoSearch (List Zmap) (List ℕ) (List ℕ) := ⟨fun _ => none, [], false⟩

def insertAs (id : String) (metadata : Zmap := []) : Operation Unit :=
  .insert { objectId := id, metadata, textview := () }

def titled : Zmap := Zmap.put [] "title" (.charstr "About")

/-- Documents are stored, changed and removed, one of them twice, with commits between. -/
def mixedCalls : List (Operation Unit) :=
  [insertAs "readme", insertAs "about", .commit,
    .update { objectId := "about", metadata := titled }, .remove { objectId := "readme" },
    .remove { objectId := "readme" }, insertAs "guide", .commit, insertAs "guide" titled]

theorem store_faithful_readme :
    "readme" ≠ indexMappings ∧
    plainStructo.documents (session plainStructo emptyService mixedCalls).state.ctxIndex "readme" =
      none ∧
    plainStructo.documents (session plainStructo emptyService mixedCalls).state.ctxIndex "about" =
      some titled ∧
    FindsStored plainStructo (session plainStructo emptyService mixedCalls) "readme" ∧
    FindsStored plainStructo (session plainStructo emptyService mixedCalls) "guide" := by
  have hreadme := store_faithful plainStructo_lawful emptyService mixedCalls "readme" (by decide)
  have habout := store_faithful plainStructo_lawful emptyService mixedCalls "about" (by decide)
  have hguide := store_faithful plainStructo_lawful emptyService mixedCalls "guide" (by decide)
  exact ⟨by decide, hreadme.1, habout.1, hreadme.2.1 (by decide), hguide.2.1 (by decide)⟩

/-- After one insertion and a commit the service finds its own record, which no client has stored;
a document that a client has stored there loses its metadata at a commit; and one stored under the
empty id is not found. -/
theorem own_record_found :
    ¬ FindsStored plainStructo (session plainStructo emptyService [insertAs "readme", .commit])
      indexMappings ∧
    (session plainStructo emptyService [insertAs indexMappings titled]).seen indexMappings =
      some titled ∧
    plainStructo.documents
      (session plainStructo emptyService [insertAs indexMappings titled, .commit]).state.ctxIndex
      indexMappings ≠ some titled ∧
    (session plainStructo emptyService [insertAs ""]).seen "" = some [] ∧
    ¬ FindsStored plainStructo (session plainStructo emptyService [insertAs ""]) "" := by
  refine ⟨fun hfinds => ?_, rfl, ?_, rfl, fun hfinds => ?_⟩
  · have hfound := (hfinds 0 []).mp
    rw [foundIds_search_byId] at hfound
    have hwritten : indexMappings ≠ "" ∧ ((session plainStructo emptyService
        [insertAs "readme", .commit]).state.ctxIndex indexMappings).isSome = true :=
      ⟨by decide, rfl⟩
    rw [if_pos hwritten] at hfound
    exact Bool.false_ne_true (hfound List.mem_cons_self)
  · intro hsame
    cases hsame
  · have hfound := (hfinds 0 []).mpr rfl
    rw [foundIds_search_byId] at hfound
    exact List.not_mem_nil hfound

end Palmira.Service
