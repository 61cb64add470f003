import Palmira.Core.Exception
import Palmira.Objects.Paragraph

/-!
# The zmap form of a text

`Serialize` writes the blocks and the markup of a text into a map, `FetchFrom`
adds what it finds in a map to a text. The text itself is a class of the library
the code is built with; of it only what the code calls is assumed.
-/

namespace Palmira.Objects

/-- A span of the markup. -/
structure MarkupSpan where
  tagKey : String
  uLower : UInt32
  uUpper : UInt32
  deriving DecidableEq

/-- The text class: its views, and the calls that add to it. -/
structure TextClass (T : Type) where
  empty : T
  getBlocks : T → List Paragraph
  getMarkup : T → List MarkupSpan
  addBlock : T → WideStr → T
  addCoded : T → UInt32 → String → T
  addSpan : T → MarkupSpan → T

/-- An added block or span comes behind those there are, and nothing else changes. -/
structure TextClass.Appends {T : Type} (cls : TextClass T) : Prop where
  empty_blocks : cls.getBlocks cls.empty = []
  empty_markup : cls.getMarkup cls.empty = []
  addBlock_blocks : ∀ doc s, cls.getBlocks (cls.addBlock doc s) = cls.getBlocks doc ++ [.wide s]
  addBlock_markup : ∀ doc s, cls.getMarkup (cls.addBlock doc s) = cls.getMarkup doc
  addCoded_blocks : ∀ doc encoding (coded : encoding ≠ wideEncoding) s,
    cls.getBlocks (cls.addCoded doc encoding s) = cls.getBlocks doc ++ [.chars encoding coded s]
  addCoded_markup : ∀ doc encoding s, cls.getMarkup (cls.addCoded doc encoding s) =
    cls.getMarkup doc
  addSpan_blocks : ∀ doc span, cls.getBlocks (cls.addSpan doc span) = cls.getBlocks doc
  addSpan_markup : ∀ doc span, cls.getMarkup (cls.addSpan doc span) = cls.getMarkup doc ++ [span]

/-- A map with its pairs put one after the other. -/
def zmapOf (pairs : List (Key × Zval)) : Zmap :=
  pairs.foldl (fun m pair => SortedAssoc.put m pair.1 pair.2) []

def getWord32 (m : Zmap) (key : Key) (absent : UInt32) : UInt32 :=
  match SortedAssoc.get? m key with
  | some (.word32 x) => x
  | _ => absent

def getCharstrOr (m : Zmap) (key : Key) (absent : String) : String :=
  match SortedAssoc.get? m key with
  | some (.charstr s) => s
  | _ => absent

/-! ## Serialize -/

def serializeBlock : Paragraph → Zval
  | .chars encoding _ s => .zmap (zmapOf [(.word 0, .charstr s), (.word 1, .word32 encoding)])
  | .wide s => .widestr s

def serializeSpan (span : MarkupSpan) : Zmap :=
  zmapOf [(.charstr "f", .charstr span.tagKey), (.charstr "l", .word32 span.uLower),
    (.charstr "h", .word32 span.uUpper)]

/-- `Serialize( to, doc )`, of a text with these views. -/
def serialize (out : Zmap) (blocks : List Paragraph) (format : List MarkupSpan) : Zmap :=
  let out :=
    if blocks.isEmpty then out else out.put "lines" (.arrayZval (blocks.map serializeBlock))
  if format.isEmpty then out else out.put "spans" (.arrayZmap (format.map serializeSpan))

/-! ## FetchFrom -/

section Fetch

variable {T : Type} (cls : TextClass T)

def fetchLine (doc : T) (next : Zval) : Except Exn T :=
  match next with
  | .widestr s => .ok (cls.addBlock doc s)
  | .zmap fields =>
      .ok (cls.addCoded doc (getWord32 fields (.word 1) 0) (getCharstrOr fields (.word 0) ""))
  | _ => .error (.invalidArgument "invalid line struct passed")

def fetchSpan (next : Zmap) : MarkupSpan :=
  ⟨getCharstrOr next (.charstr "f") "", getWord32 next (.charstr "l") 0,
    getWord32 next (.charstr "h") 0⟩

def fetchLines (source : Zmap) (doc : T) : Except Exn T :=
  match source.get "lines" with
  | some (.arrayZval plines) => plines.foldlM (fetchLine cls) doc
  | _ => .ok doc

def fetchSpans (source : Zmap) (doc : T) : T :=
  match source.get "spans" with
  | some (.arrayZmap pspans) => pspans.foldl (fun doc next => cls.addSpan doc (fetchSpan next)) doc
  | _ => doc

/-- `FetchFrom( from, doc )` -/
def fetchFrom (source : Zmap) (doc : T) : Except Exn T := do
  let doc ← fetchLines cls source doc
  return fetchSpans cls source doc

end Fetch

/-! ## What is written is read back -/

theorem fetchSpan_serializeSpan (span : MarkupSpan) : fetchSpan (serializeSpan span) = span := by
  have hfh : Key.charstr "f" ≠ .charstr "h" := by decide
  have hfl : Key.charstr "f" ≠ .charstr "l" := by decide
  have hlh : Key.charstr "l" ≠ .charstr "h" := by decide
  simp [fetchSpan, serializeSpan, zmapOf, getCharstrOr, getWord32, hfh, hfl, hlh]

section Fetched

variable {T : Type} {cls : TextClass T} (happends : cls.Appends)

include happends

theorem fetchLine_serializeBlock (doc : T) (block : Paragraph) :
    ∃ doc', fetchLine cls doc (serializeBlock block) = .ok doc' ∧
      cls.getBlocks doc' = cls.getBlocks doc ++ [block] ∧
      cls.getMarkup doc' = cls.getMarkup doc := by
  cases block with
  | wide s => exact ⟨_, rfl, happends.addBlock_blocks doc s, happends.addBlock_markup doc s⟩
  | chars encoding coded s =>
      have hkeys : Key.word 0 ≠ .word 1 := by decide
      have hline : fetchLine cls doc (serializeBlock (.chars encoding coded s)) =
          .ok (cls.addCoded doc encoding s) := by
        simp [fetchLine, serializeBlock, zmapOf, getWord32, getCharstrOr, hkeys]
      exact ⟨_, hline, happends.addCoded_blocks doc encoding coded s,
        happends.addCoded_markup doc encoding s⟩

theorem fetchLines_serializeBlock (blocks : List Paragraph) (doc : T) :
    ∃ doc', (blocks.map serializeBlock).foldlM (fetchLine cls) doc = .ok doc' ∧
      cls.getBlocks doc' = cls.getBlocks doc ++ blocks ∧
      cls.getMarkup doc' = cls.getMarkup doc := by
  induction blocks generalizing doc with
  | nil => exact ⟨doc, rfl, (List.append_nil _).symm, rfl⟩
  | cons block rest ih =>
      obtain ⟨doc₁, hline, hblocks₁, hmarkup₁⟩ := fetchLine_serializeBlock happends doc block
      obtain ⟨doc', hrest, hblocks, hmarkup⟩ := ih doc₁
      refine ⟨doc', ?_, ?_, hmarkup.trans hmarkup₁⟩
      · rw [List.map_cons, List.foldlM_cons, hline]
        exact hrest
      · rw [hblocks, hblocks₁, List.append_assoc]
        rfl

theorem fetchSpans_serializeSpan (spans : List MarkupSpan) (doc : T) :
    cls.getBlocks ((spans.map serializeSpan).foldl
        (fun doc next => cls.addSpan doc (fetchSpan next)) doc) = cls.getBlocks doc ∧
      cls.getMarkup ((spans.map serializeSpan).foldl
        (fun doc next => cls.addSpan doc (fetchSpan next)) doc) = cls.getMarkup doc ++ spans := by
  induction spans generalizing doc with
  | nil => exact ⟨rfl, (List.append_nil _).symm⟩
  | cons span rest ih =>
      obtain ⟨hblocks, hmarkup⟩ := ih (cls.addSpan doc span)
      simp only [List.map_cons, List.foldl_cons, fetchSpan_serializeSpan]
      refine ⟨hblocks.trans (happends.addSpan_blocks doc span), ?_⟩
      rw [hmarkup, happends.addSpan_markup, List.append_assoc]
      rfl

end Fetched

/-- The two keys of the map hold what was written to them, or nothing for an empty list. -/
theorem get_serialize (blocks : List Paragraph) (format : List MarkupSpan) :
    (serialize [] blocks format).get "lines" =
        (if blocks = [] then none else some (.arrayZval (blocks.map serializeBlock))) ∧
      (serialize [] blocks format).get "spans" =
        (if format = [] then none else some (.arrayZmap (format.map serializeSpan))) := by
  have hkeys : ("lines" : String) ≠ "spans" := by decide
  cases blocks with
  | nil =>
      cases format with
      | nil => exact ⟨rfl, rfl⟩
      | cons span spans => simp [serialize, hkeys]
  | cons block blocks =>
      cases format with
      | nil => simp [serialize, hkeys.symm]
      | cons span spans => simp [serialize, hkeys]

/-- The form of a text, fetched into an empty text, gives the same blocks and the same spans. -/
theorem fetchFrom_serialize {T : Type} (cls : TextClass T) (happends : cls.Appends)
    (blocks : List Paragraph) (format : List MarkupSpan) :
    ∃ doc, fetchFrom cls (serialize [] blocks format) cls.empty = .ok doc ∧
      cls.getBlocks doc = blocks ∧ cls.getMarkup doc = format := by
  obtain ⟨hlines, hspans⟩ := get_serialize blocks format
  obtain ⟨doc, hfetch, hblocks, hmarkup⟩ : ∃ doc,
      fetchLines cls (serialize [] blocks format) cls.empty = .ok doc ∧
      cls.getBlocks doc = blocks ∧ cls.getMarkup doc = [] := by
    rw [fetchLines, hlines]
    by_cases hempty : blocks = []
    · rw [if_pos hempty]
      exact ⟨_, rfl, happends.empty_blocks.trans hempty.symm, happends.empty_markup⟩
    · obtain ⟨doc, hfold, hblocks, hmarkup⟩ :=
        fetchLines_serializeBlock happends blocks cls.empty
      rw [happends.empty_blocks, List.nil_append] at hblocks
      rw [if_neg hempty]
      exact ⟨doc, hfold, hblocks, hmarkup.trans happends.empty_markup⟩
  refine ⟨fetchSpans cls (serialize [] blocks format) doc, by rw [fetchFrom, hfetch]; rfl, ?_⟩
  rw [fetchSpans, hspans]
  by_cases hempty : format = []
  · rw [if_pos hempty]
    exact ⟨hblocks, hmarkup.trans hempty.symm⟩
  · obtain ⟨hblocks', hmarkup'⟩ := fetchSpans_serializeSpan happends format doc
    rw [hmarkup, List.nil_append] at hmarkup'
    rw [if_neg hempty]
    exact ⟨hblocks'.trans hblocks, hmarkup'⟩

/-- A text as its blocks and its spans. A char string of the encoding of wide strings is left
out. -/
def listText : TextClass (List Paragraph × List MarkupSpan) where
  empty := ([], [])
  getBlocks := Prod.fst
  getMarkup := Prod.snd
  addBlock doc s := (doc.1 ++ [.wide s], doc.2)
  addCoded doc encoding s :=
    if coded : encoding ≠ wideEncoding then (doc.1 ++ [.chars encoding coded s], doc.2) else doc
  addSpan doc span := (doc.1, doc.2 ++ [span])

theorem listText_appends : listText.Appends where
  empty_blocks := rfl
  empty_markup := rfl
  addBlock_blocks _ _ := rfl
  addBlock_markup _ _ := rfl
  addCoded_blocks doc encoding coded s := by simp [listText, coded]
  addCoded_markup doc encoding s := by
    by_cases coded : encoding ≠ wideEncoding
    · simp [listText, coded]
    · simp only [listText, coded, dite_false]
  addSpan_blocks _ _ := rfl
  addSpan_markup _ _ := rfl

theorem fetchFrom_serialize_mixed :
    ∃ doc, fetchFrom listText (serialize []
        [.wide [0x41], .chars 1251 (by decide) "text", .wide []] [⟨"b", 0, 4⟩, ⟨"b", 2, 3⟩])
        listText.empty = .ok doc ∧
      listText.getBlocks doc = [.wide [0x41], .chars 1251 (by decide) "text", .wide []] ∧
      listText.getMarkup doc = [⟨"b", 0, 4⟩, ⟨"b", 2, 3⟩] :=
  fetchFrom_serialize listText listText_appends _ _

end Palmira.Objects
