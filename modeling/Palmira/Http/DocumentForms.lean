import Palmira.Http.Wire

/-!
# The two binary forms of a document

A request may hold the dump of its text in the "document" key, or put the dump
behind the map in the stream. The branch for the first form tests the type of the
value and reads it through the accessor of another one.
-/

namespace Palmira

/-- `get_array_char()`: null unless the value is an array of char. -/
def Zval.getArrayChar : Zval → Option (List Int8)
  | .arrayChar xs => some xs
  | _ => none

end Palmira

namespace Palmira.Http

variable {β T : Type} (f : Formats β T)

/-- The branch of `Load` for an array of char, over what `data()` and `size()` of the accessor's
result give. -/
def fetchArray (inbuff : Option (List β)) : Except Exn T :=
  match inbuff with
  | none => .error (.undefined "get_array_charstr of an array of char")
  | some inbuff =>
      match f.fetchText inbuff with
      | some (text, _) => .ok text
      | none => .error (.invalidArgument "Failed to load text from the 'document' buffer")

/-- The accessor of the tested type would give the text. -/
theorem fetchArray_getArrayChar (hinv : f.Inverse) {chars : β → Int8} {ofChar : Int8 → β} {text : T}
    (hchars : ∀ x ∈ f.serializeText text, ofChar (chars x) = x) :
    fetchArray f ((Zval.arrayChar ((f.serializeText text).map chars)).getArrayChar.map
      (List.map ofChar)) = .ok text := by
  have hfetch := hinv.fetchText_serializeText text []
  rw [List.append_nil] at hfetch
  have hdump : (f.serializeText text).map (ofChar ∘ chars) = f.serializeText text :=
    (List.map_congr_left hchars).trans (List.map_id _)
  simp only [Zval.getArrayChar, fetchArray, Option.map_some, List.map_map, hdump, hfetch]

/-! ## The forms -/

/-- The dump of the text in the "document" key; `rest` is what follows the map. -/
def heldForm (chars : β → Int8) (zmdata : Zmap) (text : T) (rest : List β) : List β :=
  f.serialize (zmdata.put "document" (.arrayChar ((f.serializeText text).map chars))) ++ rest

/-- The dump of the text behind the map. -/
def followingForm (zmdata : Zmap) (text : T) (rest : List β) : List β :=
  f.serialize (zmdata.put "document" (.charstr "after:dump")) ++ (f.serializeText text ++ rest)

/-- The same arguments of a request in both forms. -/
def FormsAgree (chars : β → Int8) (arg : InsertArgs T) (req : Message) (zmdata : Zmap) (text : T)
    (held following : List β) : Prop :=
  InsertArgs.load f arg req (heldForm f chars zmdata text held) =
    InsertArgs.load f arg req (followingForm f zmdata text following)

/-- No null accessor is dereferenced. -/
def Dereferences (arg : InsertArgs T) (req : Message) (src : List β) : Prop :=
  ∀ what, InsertArgs.load f arg req src ≠ .error (.undefined what)

variable {f}

theorem load_heldForm (hinv : f.Inverse) (chars : β → Int8) (arg : InsertArgs T) (req : Message)
    (zmdata : Zmap) (text : T) (rest : List β) :
    InsertArgs.load f arg req (heldForm f chars zmdata text rest) =
      .error (.undefined "get_array_charstr of an array of char") := by
  unfold InsertArgs.load heldForm
  simp only [hinv.fetchFrom_serialize, Zmap.get_put_self]
  rfl

theorem update_not_undefined {Args : Type} (metadata : Zmap) (store : Zmap → String → Args)
    (req : Message) (jsn : Zmap) (what : String) :
    update f metadata store req jsn ≠ .error (.undefined what) := by
  unfold update remove access
  intro hthrown
  split at hthrown
  next => cases hthrown
  next => split at hthrown <;> cases hthrown

/-- The other form gives the text it was made of. -/
theorem load_followingForm (hinv : f.Inverse) (arg : InsertArgs T) (req : Message) (zmdata : Zmap)
    (text : T) (rest : List β) :
    InsertArgs.load f arg req (followingForm f zmdata text rest) = do
      let args ← update f arg.metadata (fun metadata objectId => { arg with metadata, objectId })
        req (zmdata.put "document" (.charstr "after:dump"))
      return { args with textview := text } := by
  unfold InsertArgs.load followingForm
  simp only [hinv.fetchFrom_serialize, Zmap.get_put_self, loadText, if_pos,
    hinv.fetchText_serializeText]
  rfl

theorem followingForm_dereferences (hinv : f.Inverse) (arg : InsertArgs T) (req : Message)
    (zmdata : Zmap) (text : T) (rest : List β) :
    Dereferences f arg req (followingForm f zmdata text rest) := by
  intro what hthrown
  rw [load_followingForm hinv] at hthrown
  cases hupdate : update f arg.metadata
      (fun metadata objectId => ({ arg with metadata, objectId } : InsertArgs T)) req
      (zmdata.put "document" (.charstr "after:dump")) with
  | ok args =>
      rw [hupdate] at hthrown
      cases hthrown
  | error e =>
      rw [hupdate] at hthrown
      obtain rfl := Except.error.inj hthrown
      exact update_not_undefined _ _ req _ what hupdate

/-- The forms never agree: the held one dereferences a null accessor, whatever the document and
the other fields. -/
theorem not_formsAgree (hinv : f.Inverse) (chars : β → Int8) (arg : InsertArgs T) (req : Message)
    (zmdata : Zmap) (text : T) (held following : List β) :
    ¬ FormsAgree f chars arg req zmdata text held following ∧
      ¬ Dereferences f arg req (heldForm f chars zmdata text held) := by
  have hheld := load_heldForm hinv chars arg req zmdata text held
  refine ⟨fun hagree => ?_, fun hdefined => hdefined _ hheld⟩
  exact followingForm_dereferences hinv arg req zmdata text following _ (hagree.symm.trans hheld)

/-- A string in memory, without the zero that ends it. -/
abbrev CString := {text : List Int8 // (0 : Int8) ∉ text}

/-- A stream of whole maps and of chars. -/
def CString.fetch : List (Zmap ⊕ Int8) → Option (CString × List (Zmap ⊕ Int8))
  | [] => none
  | .inl _ :: _ => none
  | .inr c :: rest =>
      if h : c = 0 then some (⟨[], List.not_mem_nil⟩, rest)
      else (fetch rest).map fun (text, rest) =>
        (⟨c :: text.1, List.not_mem_cons_of_ne_of_not_mem (Ne.symm h) text.2⟩, rest)

def CString.dump (text : CString) : List (Zmap ⊕ Int8) := (text.1 ++ [0]).map .inr

theorem CString.fetch_dump (text : CString) (rest : List (Zmap ⊕ Int8)) :
    fetch (text.dump ++ rest) = some (text, rest) := by
  obtain ⟨text, hzero⟩ := text
  induction text with
  | nil => rfl
  | cons c tail ih =>
      obtain ⟨hc, htail⟩ := not_or.mp (List.mem_cons.not.mp hzero)
      have hfetch := ih htail
      simp only [dump, List.cons_append, List.map_cons] at hfetch ⊢
      rw [fetch, dif_neg (Ne.symm hc), hfetch]
      rfl

/-- Texts are dumped as strings that end with a zero. -/
def charFormats : Formats (Zmap ⊕ Int8) CString where
  serialize zmap := [.inl zmap]
  fetchFrom
    | .inl zmap :: rest => some (zmap, rest)
    | _ => none
  serializeText := CString.dump
  fetchText := CString.fetch
  loadTags _ := .error (.other "tags expected")
  loadJson _ := .error (.other "json expected")
  emptyText := ⟨[], List.not_mem_nil⟩
  getLength text := text.1.length
  zvalEmpty
    | .untyped => true
    | _ => false
  uriDecode uri := uri

theorem charFormats_inverse : charFormats.Inverse where
  fetchFrom_serialize _ _ := rfl
  fetchText_serializeText := CString.fetch_dump

/-- The chars of a dump. -/
def dumpChar : Zmap ⊕ Int8 → Int8
  | .inl _ => 0
  | .inr c => c

/-- "text" -/
def textChars : CString := ⟨[116, 101, 120, 116], by decide⟩

def idFields : Zmap := [(.charstr "id", .charstr "a")]

theorem not_formsAgree_textChars :
    fetchArray charFormats ((Zval.arrayChar ((charFormats.serializeText textChars).map
      dumpChar)).getArrayChar.map (List.map .inr)) = .ok textChars ∧
    ¬ FormsAgree charFormats dumpChar { textview := textChars } ⟨[]⟩ idFields textChars [] [] ∧
      ¬ Dereferences charFormats { textview := textChars } ⟨[]⟩
        (heldForm charFormats dumpChar idFields textChars []) := by
  refine ⟨fetchArray_getArrayChar charFormats charFormats_inverse ?_,
    not_formsAgree charFormats_inverse _ _ _ _ _ _ _⟩
  rintro x hx
  obtain ⟨c, -, rfl⟩ := List.mem_map.mp hx
  rfl

/-- A document "text" with the id "a": the form behind the map is loaded, the other one is not. -/
theorem held_form_undefined :
    charFormats.Inverse ∧
    (∃ args, InsertArgs.load charFormats { textview := charFormats.emptyText } ⟨[]⟩
      (followingForm charFormats idFields textChars []) = .ok args ∧ args.textview = textChars) ∧
    InsertArgs.load charFormats { textview := charFormats.emptyText } ⟨[]⟩
      (heldForm charFormats dumpChar idFields textChars []) =
        .error (.undefined "get_array_charstr of an array of char") := by
  refine ⟨charFormats_inverse, ?_, load_heldForm charFormats_inverse _ _ _ _ _ _⟩
  have hid : (idFields.put "document" (.charstr "after:dump")).getCharstr "id" = some "a" := by
    unfold Zmap.getCharstr
    rw [Zmap.get_put_of_ne _ _ (by decide)]
    rfl
  rw [load_followingForm charFormats_inverse, update_of_id rfl hid]
  exact ⟨_, rfl, rfl⟩

end Palmira.Http
