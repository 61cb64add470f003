import Palmira.Core.Exception
import Palmira.Foundation.Effects
import Palmira.Foundation.HandleTree
import Palmira.Objects.Paragraph

/-!
# The gRPC document

`Convert( IText&, const Document& )` replays a document message as calls on a
text, and `TextOnDocument` turns such calls into a message. Together they give
back the message without the elements that carry nothing.
-/

namespace Palmira.Grpc

open Palmira.Objects HandleTree Effects

/-- `Element`: its `oneof`, or none of it set. The `items` of a tag may be absent. -/
inductive DocElement where
  | notSet
  | text (s : String)
  | mkup (tag : String) (items : Option (List DocElement))

abbrev Document := List DocElement

/-- The codes `TextOnDocument::AddParagraph` tells apart. -/
structure DocumentPages extends Codepages where
  codepage1251 : UInt32
  codepage1252 : UInt32
  codepage1254 : UInt32
  codepageKoi8 : UInt32
  codepage866 : UInt32
  codepageIso : UInt32
  codepageMac : UInt32
  utf8_differs : codepageUtf8 ∉ [codepage1251, codepage1252, codepage1254, codepageKoi8,
    codepage866, codepageIso, codepageMac]

def DocumentPages.converted (pages : DocumentPages) : List UInt32 :=
  [pages.codepage1251, pages.codepage1252, pages.codepage1254, pages.codepageKoi8,
    pages.codepage866, pages.codepageIso, pages.codepageMac]

/-! ## IText from Document -/

/-- `IText`: what a document is replayed on. -/
structure IText (m : Type → Type) (H : Type) where
  addMarkupTag : H → String → m H
  addBlock : H → UInt32 → String → m PUnit

section Replay

variable {m : Type → Type} [Monad m] {H : Type} (api : IText m H) (pages : Codepages)

mutual

/-- One turn of the loop. -/
def convertElement (out : H) : DocElement → m PUnit
  | .text s => api.addBlock out pages.codepageUtf8 s
  | .mkup tag items => convertItems out tag items
  | .notSet => pure ⟨⟩

def convertItems (out : H) (tag : String) : Option (List DocElement) → m PUnit
  | some items => do
      let inner ← api.addMarkupTag out tag
      convertDocument inner items
  | none => pure ⟨⟩

/-- `Convert( DeliriX::IText& out, const grpcttp::Document& src )` -/
def convertDocument (out : H) : List DocElement → m PUnit
  | [] => pure ⟨⟩
  | next :: rest => do
      convertElement out next
      convertDocument out rest

end

end Replay

/-! ## TextOnDocument -/

/-- The elements of the document and of the `items` of every tag; a handle is a reference to one of
these messages. -/
abbrev Messages := ListStore String String

namespace TextOnDocument

/-- `add_elements()` on a message there is. -/
def addElement (call : HandleTree.Call String String) : Effects.Call Exn Messages PUnit := do
  let s ← get
  match listHolder.step s call with
  | some s' => set s'
  | none => throw (.undefined "no such message")

def addMarkupTag (doc : Handle) (tag : String) : Effects.Call Exn Messages Handle := do
  let s ← get
  addElement (.addTag doc tag)
  return .node s.nodes.length

def addParagraph (pages : DocumentPages) (doc : Handle) (txt : Paragraph) :
    Effects.Call Exn Messages PUnit :=
  match txt with
  | .wide s => addElement (.addText doc (pages.widetombcs pages.codepageUtf8 s))
  | .chars encoding _ s =>
      if encoding ∈ pages.converted then
        addElement (.addText doc (pages.mbcstombcs pages.codepageUtf8 encoding s))
      else if encoding = pages.codepageUtf8 then addElement (.addText doc s)
      else throw (.invalidArgument "Unknown encoding")

end TextOnDocument

/-- `TextOnDocument` with the inherited `AddBlock`. -/
def textOnDocument (addBlock : Handle → UInt32 → String → Effects.Call Exn Messages PUnit) :
    IText (Effects.Call Exn Messages) Handle where
  addMarkupTag := TextOnDocument.addMarkupTag
  addBlock := addBlock

/-- An element as the document has it. `mutable_items()` leaves the field set. -/
def elementOf (documents : ℕ → Document) : Piece String String → DocElement
  | .text s => .text s
  | .tag tag node => .mkup tag (some (documents node))

/-- The documents of all tags. A message refers to later ones only. -/
def documentsOf (s : Messages) (node : ℕ) : Document :=
  (valuesFrom (fun documents cell => cell.map (elementOf documents)) [] 0 s.nodes).getD node []

/-- The document that was written to. -/
def documentOf (s : Messages) : Document := s.root.map (elementOf (documentsOf s))

/-! ## What a document carries -/

mutual

/-- The element, unless it carries neither text nor a tag with items. -/
def pruneElement : DocElement → Document
  | .text s => [.text s]
  | .mkup tag items => pruneItems tag items
  | .notSet => []

def pruneItems (tag : String) : Option (List DocElement) → Document
  | some items => [.mkup tag (some (prune items))]
  | none => []

/-- The document with these elements removed at every level. -/
def prune : List DocElement → Document
  | [] => []
  | next :: rest => pruneElement next ++ prune rest

end

mutual

/-- The same as trees. -/
def elementTrees : DocElement → List (Tree String String)
  | .text s => [.text s]
  | .mkup tag items => itemsTrees tag items
  | .notSet => []

def itemsTrees (tag : String) : Option (List DocElement) → List (Tree String String)
  | some items => [.tag tag (documentTrees items)]
  | none => []

def documentTrees : List DocElement → List (Tree String String)
  | [] => []
  | next :: rest => elementTrees next ++ documentTrees rest

end

/-! ## The replay -/

/-- `AddBlock( utf8, s )` calls `AddParagraph` once, with this encoding and string. -/
def BlockIsParagraph (pages : DocumentPages)
    (addBlock : Handle → UInt32 → String → Effects.Call Exn Messages PUnit) : Prop :=
  ∀ doc s, addBlock doc pages.codepageUtf8 s = TextOnDocument.addParagraph pages doc (pages.utf8 s)

section Replay

variable {pages : DocumentPages}
  {addBlock : Handle → UInt32 → String → Effects.Call Exn Messages PUnit}

/-- From `s` the call returns, and has added these trees at `place`. -/
def AddsAt {α : Type} (call : Effects.Call Exn Messages α) (s : Messages) (place : Handle)
    (trees : List (Tree String String)) : Prop :=
  Ends call s (fun _ s' => ∃ pieces more, s' = s.extend place pieces more ∧
    Adds s.nodes.length pieces more trees) (fun _ _ => False)

theorem addElement_ends {s : Messages} (call : HandleTree.Call String String)
    (hhas : s.Has call.on) : Ends (TextOnDocument.addElement call) s
      (fun _ s' => s' = s.extend call.on [call.piece s.nodes.length]
        (List.replicate call.tags [])) (fun _ _ => False) := by
  rw [TextOnDocument.addElement, ends_bind, ends_get, step_listHolder hhas]
  rfl

theorem AddsAt.pure {s : Messages} {place : Handle} (hhas : s.Has place) :
    AddsAt (Pure.pure ⟨⟩ : Effects.Call Exn Messages PUnit) s place [] :=
  ⟨[], [], (Store.extend_nil hhas).symm, .nil⟩

theorem AddsAt.bind {α β : Type} {call : Effects.Call Exn Messages α}
    {next : α → Effects.Call Exn Messages β} {s : Messages} {place : Handle}
    {trees trees' : List (Tree String String)} (hhas : s.Has place)
    (hcall : AddsAt call s place trees)
    (hnext : ∀ a s', s'.Has place → AddsAt (next a) s' place trees') :
    AddsAt (call >>= next) s place (trees ++ trees') := by
  rw [AddsAt, ends_bind]
  refine hcall.imp ?_ (fun _ _ h => h)
  rintro a _ ⟨pieces, more, rfl, hadds⟩
  refine (hnext a _ (hhas.extend pieces more)).imp ?_ (fun _ _ h => h)
  rintro b _ ⟨pieces', more', rfl, hadds'⟩
  rw [Store.length_extend] at hadds'
  exact ⟨_, _, Store.extend_extend hhas pieces pieces' more more', hadds.append hadds'⟩

theorem addBlock_adds (hblock : BlockIsParagraph pages addBlock) {s : Messages} {place : Handle}
    (hhas : s.Has place) (text : String) :
    AddsAt (addBlock place pages.codepageUtf8 text) s place [.text text] := by
  have hdiffers : pages.codepageUtf8 ∉ pages.converted := pages.utf8_differs
  have hpara : TextOnDocument.addParagraph pages place (pages.utf8 text) =
      TextOnDocument.addElement (.addText place text) := by
    simp only [TextOnDocument.addParagraph, Codepages.utf8, if_neg hdiffers, if_true]
  rw [hblock, hpara]
  refine (addElement_ends (.addText place text) hhas).imp ?_ (fun _ _ h => h)
  rintro _ _ rfl
  exact ⟨_, _, rfl, .text text⟩

mutual

/-- An element is replayed at its place as what it carries. -/
theorem convertElement_adds (hblock : BlockIsParagraph pages addBlock) {s : Messages}
    {place : Handle} (hhas : s.Has place) : ∀ element : DocElement,
      AddsAt (convertElement (textOnDocument addBlock) pages.toCodepages place element) s place
        (elementTrees element)
  | .text text => addBlock_adds hblock hhas text
  | .mkup tag items => convertItems_adds hblock hhas tag items
  | .notSet => .pure hhas

theorem convertItems_adds (hblock : BlockIsParagraph pages addBlock) {s : Messages}
    {place : Handle} (hhas : s.Has place) (tag : String) : ∀ items : Option (List DocElement),
      AddsAt (convertItems (textOnDocument addBlock) pages.toCodepages place tag items) s place
        (itemsTrees tag items)
  | none => .pure hhas
  | some items => by
      rw [convertItems, AddsAt, ends_bind]
      have htag : Ends ((textOnDocument addBlock).addMarkupTag place tag) s
          (fun inner s' => inner = .node s.nodes.length ∧
            s' = s.extend place [.tag tag s.nodes.length] [[]]) (fun _ _ => False) := by
        change Ends (TextOnDocument.addMarkupTag place tag) s _ _
        rw [TextOnDocument.addMarkupTag, ends_bind, ends_get, ends_bind]
        refine (addElement_ends (.addTag place tag) hhas).imp ?_ (fun _ _ h => h)
        rintro _ s' rfl
        exact ⟨rfl, rfl⟩
      refine htag.imp ?_ (fun _ _ h => h)
      rintro _ _ ⟨rfl, rfl⟩
      -- the contents go to the message of the tag just added
      have hnew : (s.extend place [.tag tag s.nodes.length] [[]]).Has (.node s.nodes.length) := by
        rw [Store.Has, Store.length_extend]
        exact Nat.lt_succ_self _
      refine (convertDocument_adds hblock hnew items).imp ?_ (fun _ _ h => h)
      rintro _ _ ⟨pieces, more, rfl, hadds⟩
      rw [Store.length_extend] at hadds
      exact ⟨_, _, Store.extend_new _ pieces more, .tag tag hadds⟩

theorem convertDocument_adds (hblock : BlockIsParagraph pages addBlock) {s : Messages}
    {place : Handle} (hhas : s.Has place) : ∀ document : List DocElement,
      AddsAt (convertDocument (textOnDocument addBlock) pages.toCodepages place document) s place
        (documentTrees document)
  | [] => .pure hhas
  | next :: rest =>
      .bind hhas (convertElement_adds hblock hhas next)
        (fun _ _ hhas' => convertDocument_adds hblock hhas' rest)

end

end Replay

/-! ## Reading the document back -/

mutual

/-- A tree as the element that carries it. -/
def ofTree : Tree String String → DocElement
  | .text s => .text s
  | .tag tag contents => .mkup tag (some (ofTrees contents))

def ofTrees : List (Tree String String) → Document
  | [] => []
  | tree :: rest => ofTree tree :: ofTrees rest

end

theorem ofTrees_append (trees trees' : List (Tree String String)) :
    ofTrees (trees ++ trees') = ofTrees trees ++ ofTrees trees' := by
  induction trees with
  | nil => rfl
  | cons tree rest ih => rw [List.cons_append, ofTrees, ofTrees, ih, List.cons_append]

mutual

theorem ofTrees_elementTrees : ∀ element : DocElement,
    ofTrees (elementTrees element) = pruneElement element
  | .text _ => rfl
  | .mkup tag items => ofTrees_itemsTrees tag items
  | .notSet => rfl

theorem ofTrees_itemsTrees (tag : String) : ∀ items : Option (List DocElement),
    ofTrees (itemsTrees tag items) = pruneItems tag items
  | none => rfl
  | some items => by
      rw [itemsTrees, pruneItems, ofTrees, ofTree, ofTrees, ofTrees_documentTrees items]

theorem ofTrees_documentTrees : ∀ document : List DocElement,
    ofTrees (documentTrees document) = prune document
  | [] => rfl
  | next :: rest => by
      rw [documentTrees, prune, ofTrees_append, ofTrees_elementTrees next,
        ofTrees_documentTrees rest]

end

/-- Pieces are read as elements the way they are read as trees. -/
theorem elements_of_reads {more : List (List (Piece String String))} {documents : ℕ → Document}
    (hdocuments : ∀ (k : ℕ) (cell : List (Piece String String)), more[k]? = some cell →
      documents k = cell.map (elementOf documents))
    (hlater : ∀ (k : ℕ) (cell : List (Piece String String)), more[k]? = some cell →
      ∀ x ∈ cell, x.Within 0 more.length)
    {pieces : List (Piece String String)} {trees : List (Tree String String)}
    (hreads : Reads (fun k => more.getD k []) pieces trees)
    (hwithin : ∀ x ∈ pieces, x.Within 0 more.length) :
    pieces.map (elementOf documents) = ofTrees trees := by
  induction hreads with
  | nil => rfl
  | text s hrest ih =>
      rw [List.map_cons, elementOf, ofTrees, ofTree,
        ih (fun x hx => hwithin x (List.mem_cons_of_mem _ hx))]
  | tag name node hinner hrest ihinner ihrest =>
      have hnode : more[node]? = some (more.getD node []) := by
        have hlt := (hwithin (.tag name node) List.mem_cons_self).2
        rw [List.getD_eq_getElem more [] hlt]
        exact List.getElem?_eq_getElem hlt
      rw [List.map_cons, elementOf, ofTrees, ofTree, hdocuments node _ hnode,
        ihinner (hlater node _ hnode), ihrest (fun x hx => hwithin x (List.mem_cons_of_mem _ hx))]

/-- Pieces whose tags have their contents in the nodes are read as the document of the trees. -/
theorem documentOf_adds {pieces : List (Piece String String)}
    {more : List (List (Piece String String))} {trees : List (Tree String String)}
    (hadds : Adds 0 pieces more trees) : documentOf ⟨pieces, more⟩ = ofTrees trees := by
  have hlater : ∀ (k : ℕ) (cell : List (Piece String String)), more[k]? = some cell →
      ∀ x ∈ cell, x.Within (k + 1) more.length := by
    intro k cell hcell x hx
    have hx' := hadds.later k cell hcell x hx
    rwa [Nat.zero_add, Nat.zero_add] at hx'
  apply elements_of_reads
  · intro k cell hcell
    apply getD_valuesFrom more ?_ hcell
    intro i cell hcell f g hfg
    apply List.map_congr_left
    intro x hx
    cases x with
    | text s => rfl
    | tag tag node => rw [elementOf, elementOf, hfg node (hlater i cell hcell _ hx).1]
  · intro k cell hcell x hx
    exact (hlater k cell hcell x hx).mono (Nat.zero_le _) (Nat.le_refl _)
  · apply hadds.reads
    intro i cell hcell
    simp [hcell]
  · intro x hx
    exact (hadds.within x hx).mono (Nat.le_refl 0) (Nat.zero_add _).le

/-- Replayed into an empty document, a document comes out as it was, less the elements that carry
nothing. -/
theorem convertDocument_prune (pages : DocumentPages)
    (addBlock : Handle → UInt32 → String → Effects.Call Exn Messages PUnit)
    (hblock : BlockIsParagraph pages addBlock) (document : Document) :
    Ends (convertDocument (textOnDocument addBlock) pages.toCodepages .root document) ⟨[], []⟩
      (fun _ s => documentOf s = prune document) (fun _ _ => False) := by
  have hroot : Store.Has (⟨[], []⟩ : Messages) .root := trivial
  refine (convertDocument_adds hblock hroot document).imp ?_ (fun _ _ h => h)
  rintro _ _ ⟨pieces, more, rfl, hadds⟩
  change documentOf ⟨[] ++ pieces, [] ++ more⟩ = _
  rw [List.nil_append, List.nil_append, documentOf_adds hadds, ofTrees_documentTrees]

/-- Codes as they are in use, and conversions that keep the string. -/
def plainPages : DocumentPages where
  codepageUtf8 := 65001
  utf8_ne_wide := Objects.utf8Code_ne_wide
  widetombcs _ _ := ""
  mbcstombcs _ _ s := s
  codepage1251 := 1251
  codepage1252 := 1252
  codepage1254 := 1254
  codepageKoi8 := 20866
  codepage866 := 866
  codepageIso := 28595
  codepageMac := 10007
  utf8_differs := by decide

/-- `AddBlock` as one paragraph. -/
def plainBlock (doc : Handle) (encoding : UInt32) (s : String) : Effects.Call Exn Messages PUnit :=
  if coded : encoding ≠ wideEncoding then
    TextOnDocument.addParagraph plainPages doc (.chars encoding coded s)
  else throw (.undefined "a char string of the encoding of wide strings")

/-- A tag without contents stays; an element that is not set and a tag without items go. -/
theorem convertDocument_prune_mixed :
    Ends (convertDocument (textOnDocument plainBlock) plainPages.toCodepages .root
        [.text "a", .notSet, .mkup "b" (some [.mkup "i" (some []), .mkup "u" none, .text "c"])])
      ⟨[], []⟩
      (fun _ s => documentOf s =
        [.text "a", .mkup "b" (some [.mkup "i" (some []), .text "c"])]) (fun _ _ => False) :=
  convertDocument_prune plainPages plainBlock (fun _ _ => rfl) _

end Palmira.Grpc
