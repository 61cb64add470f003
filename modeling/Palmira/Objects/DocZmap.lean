import Palmira.Foundation.HandleTree
import Palmira.Objects.Paragraph

/-!
# A text written into an array of values

`ZmapAsText` writes the tags and paragraphs of a text into an `array_zval`. The
value of a tag changes its form as it grows: nothing, one string or map, an array.
Handles point at such values while they change; the values live in nodes of their
own, which a copied or moved map shares.
-/

namespace Palmira.Objects

open HandleTree StepSystem

/-- An element of an array here: a char string, or a map of one key whose value is at `node`. -/
abbrev Element := Piece String String

/-- The value a tag has in its map. -/
inductive Cell where
  | untyped
  | single (val : Element)
  | arrayZval (vals : List Element)
  deriving DecidableEq

/-- The array written to, and the values of all maps by their nodes. -/
abbrev Memory := Store (List Element) Cell

def Memory.empty : Memory := ⟨[], []⟩

namespace ZmapTag

/-- `switch ( val.get_type() )` of both calls. -/
def put (val : Cell) (x : Element) : Cell :=
  match val with
  | .arrayZval vals => .arrayZval (vals ++ [x])
  | .single y => .arrayZval [y, x]
  | .untyped => .single x

/-- `AddMarkupTag` on the value `val` at `node`: a map with the key alone is put, and the handle of
its new value is returned. -/
def addMarkupTag (m : Memory) (node : ℕ) (val : Cell) (tag : String) : Memory × Handle :=
  ({ m with nodes := m.nodes.set node (put val (.tag tag m.nodes.length)) ++ [.untyped] },
    .node m.nodes.length)

def addParagraph (pages : Codepages) (m : Memory) (node : ℕ) (val : Cell) (para : Paragraph) :
    Memory :=
  { m with nodes := m.nodes.set node (put val (.text (utfStr pages para))) }

end ZmapTag

namespace ZmapArr

def addMarkupTag (m : Memory) (tag : String) : Memory × Handle :=
  (⟨m.root ++ [.tag tag m.nodes.length], m.nodes ++ [.untyped]⟩, .node m.nodes.length)

def addParagraph (pages : Codepages) (m : Memory) (para : Paragraph) : Memory :=
  { m with root := m.root ++ [.text (utfStr pages para)] }

end ZmapArr

/-- One call on the root or on a handle returned before. The handles are told apart by the number
of tags before theirs. -/
def textStep (pages : Codepages) (m : Memory) : Call Paragraph String → Option Memory
  | .addTag .root tag => some (ZmapArr.addMarkupTag m tag).1
  | .addTag (.node k) tag => m.nodes[k]?.map fun val => (ZmapTag.addMarkupTag m k val tag).1
  | .addText .root para => some (ZmapArr.addParagraph pages m para)
  | .addText (.node k) para => m.nodes[k]?.map fun val => ZmapTag.addParagraph pages m k val para

/-! ## What the memory holds -/

def elementZval (values : ℕ → Zval) : Element → Zval
  | .text s => .charstr s
  | .tag key node => .zmap [(.charstr key, values node)]

def Cell.zval (values : ℕ → Zval) : Cell → Zval
  | .untyped => .untyped
  | .single val => elementZval values val
  | .arrayZval vals => .arrayZval (vals.map (elementZval values))

/-- The value at every node. A node refers to later ones only. -/
def Memory.values (m : Memory) (node : ℕ) : Zval :=
  (valuesFrom Cell.zval .untyped 0 m.nodes).getD node .untyped

/-- The array as the caller of `ZmapAsText` has it. -/
def Memory.output (m : Memory) : List Zval := m.root.map (elementZval m.values)

/-! ## How it is read -/

mutual

/-- No value has no contents, a string is one text, a map of one key is a tag with the contents of
its value, an array is its elements in order. -/
def contents : Zval → Option (List (Tree String String))
  | .untyped => some []
  | .charstr s => some [.text s]
  | .zmap fields => tagContents fields
  | .arrayZval vals => allContents vals
  | _ => none

def tagContents : List (Key × Zval) → Option (List (Tree String String))
  | [(.charstr tag, val)] => (contents val).map fun inner => [.tag tag inner]
  | _ => none

def allContents : List Zval → Option (List (Tree String String))
  | [] => some []
  | val :: rest => do return (← contents val) ++ (← allContents rest)

end

/-! ## The cells hold lists of elements -/

/-- How a list of elements is held. -/
def Cell.hold : List Element → Cell
  | [] => .untyped
  | [x] => .single x
  | x :: y :: rest => .arrayZval (x :: y :: rest)

/-- The array and the values of tags as a store. -/
def zmapHolder : Holder String String (List Element) Cell where
  fresh := .untyped
  pushRoot vals x := vals ++ [x]
  push := ZmapTag.put

theorem zmapHolder_holds : zmapHolder.Holds id Cell.hold where
  fresh_eq := rfl
  pushRoot_eq _ _ := rfl
  push_eq vals x := by
    cases vals with
    | nil => rfl
    | cons y rest => cases rest <;> rfl

/-- The calls of the code are those of the store, with the paragraphs as UTF-8. -/
theorem textStep_eq (pages : Codepages) (m : Memory) (call : Call Paragraph String) :
    textStep pages m call = zmapHolder.step m (call.mapText (utfStr pages)) := by
  cases call with
  | addTag place tag =>
      cases place with
      | root => rfl
      | node k =>
          cases hval : m.nodes[k]? with
          | none => simp [textStep, Holder.step, Holder.put, Call.mapText, Call.on, hval]
          | some val =>
              simp only [textStep, Holder.step, Holder.put, Call.mapText, Call.on, hval,
                Option.map_some]
              rfl
  | addText place para =>
      cases place with
      | root => simp [textStep, Holder.step, Holder.put, Call.mapText, Call.on, Call.tags,
          ZmapArr.addParagraph, Call.piece, zmapHolder]
      | node k =>
          cases hval : m.nodes[k]? with
          | none => simp [textStep, Holder.step, Holder.put, Call.mapText, Call.on, hval]
          | some val => simp [textStep, Holder.step, Holder.put, Call.mapText, Call.on, Call.tags,
              ZmapTag.addParagraph, Call.piece, zmapHolder, hval]

theorem run_textStep (pages : Codepages) (calls : List (Call Paragraph String)) (m : Memory) :
    run (textStep pages) m calls =
      run zmapHolder.step m (calls.map (Call.mapText (utfStr pages))) := by
  induction calls generalizing m with
  | nil => rfl
  | cons call rest ih =>
      simp only [run, List.map_cons, textStep_eq]
      exact Option.bind_congr (fun m' _ => ih m')

/-! ## Reading the memory back -/

theorem elementZval_congr {f g : ℕ → Zval} {lo hi : ℕ} {x : Element} (hx : x.Within lo hi)
    (hfg : ∀ k, lo ≤ k → f k = g k) : elementZval f x = elementZval g x := by
  cases x with
  | text s => rfl
  | tag key node => rw [elementZval, elementZval, hfg node hx.1]

theorem cellZval_hold (values : ℕ → Zval) (vals : List Element) :
    contents ((Cell.hold vals).zval values) = allContents (vals.map (elementZval values)) := by
  cases vals with
  | nil => rfl
  | cons x rest =>
      cases rest with
      | nil =>
          change contents (elementZval values x) = _
          simp [allContents]
      | cons y rest => rfl

theorem cellZval_congr {f g : ℕ → Zval} {lo hi : ℕ} {vals : List Element}
    (hvals : ∀ x ∈ vals, x.Within lo hi) (hfg : ∀ k, lo ≤ k → f k = g k) :
    (Cell.hold vals).zval f = (Cell.hold vals).zval g := by
  have hmap : vals.map (elementZval f) = vals.map (elementZval g) :=
    List.map_congr_left (fun x hx => elementZval_congr (hvals x hx) hfg)
  cases vals with
  | nil => rfl
  | cons x rest =>
      cases rest with
      | nil => exact elementZval_congr (hvals x List.mem_cons_self) hfg
      | cons y rest => exact congrArg Zval.arrayZval hmap

section Built

variable {calls : List (Call String String)} {m : Memory}
  (hbuilt : Holder.Built id Cell.hold calls m)

include hbuilt

/-- The value at a node is that of the elements added there. -/
theorem values_eq {k : ℕ} (hk : k < tagCount calls) :
    m.values k = (Cell.hold (childrenOf calls (.node k))).zval m.values := by
  apply getD_valuesFrom m.nodes ?_ (hbuilt.nodes k hk)
  intro i cell hcell f g hfg
  have hi : i < tagCount calls := hbuilt.length ▸ (List.getElem?_eq_some_iff.mp hcell).1
  rw [hbuilt.nodes i hi] at hcell
  rw [← Option.some.inj hcell]
  exact cellZval_congr (hbuilt.later i) hfg

/-- Elements are decoded to the trees they are read as. -/
theorem allContents_of_reads {vals : List Element} {trees : List (Tree String String)}
    (hreads : Reads (fun k => childrenOf calls (.node k)) vals trees)
    (hvals : ∀ x ∈ vals, x.Within 0 (tagCount calls)) :
    allContents (vals.map (elementZval m.values)) = some trees := by
  induction hreads with
  | nil => rfl
  | text s hrest ih =>
      have htail := ih (fun x hx => hvals x (List.mem_cons_of_mem _ hx))
      simp [allContents, elementZval, contents, htail]
  | tag name node hinner hrest ihinner ihrest =>
      have htail := ihrest (fun x hx => hvals x (List.mem_cons_of_mem _ hx))
      have hinner' := ihinner (fun x hx => (hbuilt.later node x hx).mono (Nat.zero_le _)
        (Nat.le_refl _))
      have hnode := (hvals (.tag name node) List.mem_cons_self).2
      rw [← cellZval_hold, ← values_eq hbuilt hnode] at hinner'
      simp [allContents, elementZval, contents, tagContents, htail, hinner']

end Built

/-- Whatever the order of the calls and the handles they are made on, the array decodes to the tree
that the calls describe. -/
theorem zmapAsText_whole (pages : Codepages) (calls : List (Call Paragraph String)) (m : Memory)
    (hrun : run (textStep pages) Memory.empty calls = some m) :
    ∃ trees, contents (.arrayZval m.output) = some trees ∧
      Describes (calls.map (Call.mapText (utfStr pages))) trees := by
  rw [run_textStep] at hrun
  have hbuilt : Holder.Built id Cell.hold (calls.map (Call.mapText (utfStr pages))) m := by
    have hrun' := Holder.built_run zmapHolder_holds Holder.built_nil hrun
    rwa [List.nil_append] at hrun'
  obtain ⟨trees, hdescribes⟩ := hbuilt.exists_describes
  have hroot : m.root = childrenOf (calls.map (Call.mapText (utfStr pages))) .root := hbuilt.root
  refine ⟨trees, ?_, hdescribes⟩
  rw [contents, Memory.output, hroot]
  exact allContents_of_reads hbuilt hdescribes hbuilt.later_root

/-! Two tags grow in turn; the second one of the same name is inside the first. -/

def samplePages : Codepages := ⟨65001, utf8Code_ne_wide, fun _ _ => "", fun _ _ s => s⟩

def interleaved : List (Call Paragraph String) :=
  [.addTag .root "b", .addText (.node 0) (samplePages.utf8 "one"), .addTag .root "i",
    .addTag (.node 0) "b", .addText .root (samplePages.utf8 "two"),
    .addText (.node 0) (samplePages.utf8 "three"), .addText (.node 2) (samplePages.utf8 "four")]

theorem zmapAsText_whole_interleaved :
    ∃ m, run (textStep samplePages) Memory.empty interleaved = some m ∧
      contents (.arrayZval m.output) = some [.tag "b" [.text "one", .tag "b" [.text "four"],
        .text "three"], .tag "i" [], .text "two"] ∧
      ∃ trees, contents (.arrayZval m.output) = some trees ∧
        Describes (interleaved.map (Call.mapText (utfStr samplePages))) trees := by
  refine ⟨_, rfl, ?_, zmapAsText_whole samplePages interleaved _ rfl⟩
  rfl

end Palmira.Objects
