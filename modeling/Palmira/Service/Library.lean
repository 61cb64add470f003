import Palmira.Service.Images

/-!
# The library of a store

What clients have stored, each document with its metadata and its text. The service keeps of a
text the image that an insertion packs; an update gives a document other metadata and leaves the
image of its text.
-/

namespace Palmira.Service

open Effects Http

variable {β T B F C : Type}

/-- A document as its clients know it. -/
structure Document (T : Type) where
  metadata : Zmap
  textview : T

/-- The stored documents. -/
abbrev Library (T : Type) := String → Option (Document T)

/-- What a successful operation makes of the library. -/
def Operation.shelve (library : Library T) : Operation T → Library T
  | .insert args => Function.update library args.objectId (some ⟨args.metadata, args.textview⟩)
  | .update args => Function.update library args.objectId
      ((library args.objectId).map fun document => { document with metadata := args.metadata })
  | .remove args => Function.update library args.objectId none
  | .commit => library

/-- The client's own account. -/
def recordDocument (op : Operation T) (answer : Zmap) (_ : StructoSearch β F C)
    (library : Library T) : Library T :=
  if succeeded answer = true then op.shelve library else library

/-- The formats and the image that packing makes of a text, with some field table. -/
def Structo.Imaged (lib : Structo β T B F C) (textview : T) (formats limage : List Int8) : Prop :=
  ∃ body fieldMan fieldMan', lib.image textview = .ok body ∧
    (lib.packFormats body).run.run fieldMan = (.ok formats, fieldMan') ∧
    limage = lib.packImage body

/-- The texts of the library are packed into less than 2^32 bytes. -/
def Structo.Packable (lib : Structo β T B F C) (library : Library T) : Prop :=
  ∀ id document, library id = some document → ∀ formats limage,
    lib.Imaged document.textview formats limage →
      formats.length < 2 ^ 32 ∧ (lib.stored limage).length < 2 ^ 32

/-- The entity has the metadata of the document, and the image of its text. -/
structure Keeps (lib : Structo β T B F C) (document : Document T) (entity : Entity β C) :
    Prop where
  metadata : lib.metadataOf entity = document.metadata
  image : ∃ formats limage, lib.Imaged document.textview formats limage ∧
    entity.bundle = lib.serialize (lib.quoter formats limage)

/-- The index has an entity where the client has a document, and only there. -/
inductive Held (lib : Structo β T B F C) : Option (Document T) → Option (Entity β C) → Prop
  | absent : Held lib none none
  | present {document : Document T} {entity : Entity β C} (hkeeps : Keeps lib document entity) :
      Held lib (some document) (some entity)

/-- Apart from its own record the index holds the library of the client. -/
def HoldsLibrary (lib : Structo β T B F C) (s : StructoSearch β F C) (library : Library T) : Prop :=
  ∀ id, id ≠ indexMappings → Held lib (library id) (s.ctxIndex id)

theorem Held.exists_entity {lib : Structo β T B F C} {document : Option (Document T)}
    {entity : Entity β C} (hheld : Held lib document (some entity)) :
    ∃ doc, document = some doc ∧ Keeps lib doc entity := by
  cases hheld with
  | present hkeeps => exact ⟨_, rfl, hkeeps⟩

variable {lib : Structo β T B F C} {library : Library T} {s s' : StructoSearch β F C}

/-! ## What an operation does to it -/

/-- A successful operation puts one entity where the client puts one document. -/
theorem HoldsLibrary.of_answered {id : String} {grown : F → Prop}
    {written : Option (Entity β C) → F → Prop} {answer : Zmap} {document : Option (Document T)}
    (hinv : HoldsLibrary lib s library) (hanswered : Structo.Answered s id grown written answer s')
    (hheld : ∀ entity fieldMan, written entity fieldMan → id ≠ indexMappings →
      Held lib document entity) :
    HoldsLibrary lib s'
      (if succeeded answer = true then Function.update library id document else library) := by
  cases hanswered with
  | success hok hgrown hwritten =>
      rw [if_pos hok]
      intro other hother
      change Held lib _ (Function.update s.ctxIndex id _ other)
      by_cases hsame : other = id
      · subst hsame
        rw [Function.update_self, Function.update_self]
        exact hheld _ _ hwritten hother
      · rw [Function.update_of_ne hsame, Function.update_of_ne hsame]
        exact hinv other hother
  | failure hfail hleft =>
      rw [if_neg (by simp [hfail])]
      obtain ⟨fieldMan, -, rfl⟩ := hleft
      exact hinv

theorem HoldsLibrary.of_left {grown : F → Prop} (hinv : HoldsLibrary lib s library)
    (hleft : Structo.Left s grown s') : HoldsLibrary lib s' library := by
  obtain ⟨fieldMan, -, rfl⟩ := hleft
  exact hinv

/-- A commit writes its own record only. -/
theorem HoldsLibrary.commit (hinv : HoldsLibrary lib s library) :
    Ends lib.commit s (fun _ s' => HoldsLibrary lib s' library)
      (fun _ s' => HoldsLibrary lib s' library) := by
  apply Structo.ends_commit
  · exact fun _ => hinv
  · intro id hid
    change Held lib _ (Function.update s.ctxIndex indexMappings _ id)
    rw [Function.update_of_ne hid]
    exact hinv id hid
  · exact fun _ => hinv

/-- The bundle that packing makes is the image of the text. -/
theorem ends_pack_image {textview : T} {body : B} (hbody : lib.image textview = .ok body)
    (fieldMan : F) :
    Ends (lib.pack body) fieldMan
      (fun parts _ => True ∧ ∃ formats limage, lib.Imaged textview formats limage ∧
        parts.1 = lib.serialize (lib.quoter formats limage))
      (fun _ _ => True) := by
  rw [Structo.pack_eq_quoter, ends_bind]
  unfold Ends
  split
  next formats fieldMan' hformats =>
    change Ends _ _ _ _
    rw [ends_bind]
    apply ends_of_forall
    · intro contents _
      exact ⟨trivial, formats, _, ⟨body, fieldMan, fieldMan', hbody, hformats, rfl⟩, rfl⟩
    · exact fun _ _ => trivial
  next => trivial

theorem holdsLibrary_perform (hlib : lib.Lawful) (op : Operation T)
    (hinv : HoldsLibrary lib s library) :
    Ends (lib.perform op) s
      (fun answer s' => HoldsLibrary lib s' (recordDocument op answer s' library))
      (fun _ s' => HoldsLibrary lib s' library) := by
  have hfailed : ∀ (thrown : Thrown) s', Structo.Left s (fun _ => True) s' →
      HoldsLibrary lib s' library := fun _ _ => hinv.of_left
  cases op with
  | insert args =>
      refine (Structo.ends_insert_image _ trivial
        fun body hbody => ends_pack_image hbody s.fieldMan).imp
        (fun answer s' hanswered => ?_) hfailed
      apply hinv.of_answered hanswered
      rintro entity - ⟨bundle, contents, rfl, formats, limage, himaged, hbundle⟩ -
      exact .present ⟨metadataOf_serialize hlib contents args.metadata bundle,
        formats, limage, himaged, hbundle⟩
  | update args =>
      refine (Structo.ends_update trivial).imp (fun answer s' hanswered => ?_) hfailed
      apply hinv.of_answered hanswered
      rintro entity - ⟨old, hold, rfl⟩ hid
      -- the entity was there, so the client has the document; its bundle stays
      have hheld := hinv args.objectId hid
      rw [hold] at hheld
      obtain ⟨document, hdocument, hkeeps⟩ := hheld.exists_entity
      rw [hdocument]
      exact .present ⟨metadataOf_serialize hlib old.contents args.metadata old.bundle, hkeeps.image⟩
  | remove args =>
      refine (Structo.ends_remove trivial).imp (fun answer s' hanswered => ?_) hfailed
      apply hinv.of_answered hanswered
      rintro entity - rfl -
      exact .absent
  | commit =>
      have hrecord : ∀ answer (s' : StructoSearch β F C),
          recordDocument .commit answer s' library = library := fun _ _ => ite_self _
      unfold Structo.perform
      rw [ends_bind]
      refine hinv.commit.imp (fun _ s' hholds => ?_) fun _ _ hholds => hholds
      rw [ends_pure, hrecord]
      exact hholds

/-! ## Reading an image back -/

section Read

variable {r : Reader β} {formats limage : List Int8}

theorem Reader.unpack_mono {fuel more : ℕ} (hle : fuel ≤ more) {src : List Int8}
    {res : Except Exn (List Int8)} (hunpack : r.unpack fuel src = some res) :
    r.unpack more src = some res := by
  unfold Reader.unpack at *
  split at hunpack
  next hlong => rw [if_pos hlong, hunpack]
  next hfits =>
    obtain ⟨data, hrun, hdata⟩ := Option.map_eq_some_iff.mp hunpack
    rw [if_neg hfits, Loop.run_mono hle hrun, Option.map_some, hdata]

/-- From some budget on a search decodes the bundle of a text to its formats and its image. -/
theorem exists_quotate (hr : r.Inverts lib) (hformats : formats.length < 2 ^ 32)
    (hstored : (lib.stored limage).length < 2 ^ 32) : ∃ fuel, ∀ more, fuel ≤ more →
      r.quotate more (lib.serialize (lib.quoter formats limage)) =
        some (.ok (formats, limage)) := by
  simp only [Reader.quotate, hr.find_serialize, lib.quoter_ft, lib.quoter_ip,
    fetchSpan_arrayChar hformats]
  unfold Structo.stored at hstored
  cases hzip : lib.zipBuf limage with
  | none =>
      rw [hzip, Option.getD_none] at hstored
      simp [lib.quoter_im formats limage hzip, fetchSpan_arrayChar hstored, Except.map]
  | some packed =>
      rw [hzip, Option.getD_some] at hstored
      have hcompress := (Structo.zipBuf_eq_some_iff.mp hzip).1
      obtain ⟨fuel, hunpack⟩ := unpack_ends hr hcompress hstored
      refine ⟨fuel, fun more hmore => ?_⟩
      simp [fetchSpan_arrayChar hstored, Reader.unpack_mono hmore hunpack, Except.map]

end Read

/-! ## Sessions -/

/-- The service and the library after these operations. -/
def librarySession (lib : Structo β T B F C) (s : StructoSearch β F C) (library : Library T)
    (ops : List (Operation T)) : Session (StructoSearch β F C) (Library T) :=
  Session.run lib.perform recordDocument ⟨s, library⟩ ops

/-- Whatever clients call, the index holds their library. -/
theorem holdsLibrary_session (hlib : lib.Lawful) (hholds : HoldsLibrary lib s library)
    (ops : List (Operation T)) :
    HoldsLibrary lib (librarySession lib s library ops).state
      (librarySession lib s library ops).seen :=
  Session.run_invariant (fun _ _ op hinv => holdsLibrary_perform hlib op hinv) hholds ops

end Palmira.Service
