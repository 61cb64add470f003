import Mathlib.Data.String.Basic
import Mathlib.Data.Sum.Order
import Mathlib.Data.List.Lex
import Palmira.Foundation.SortedAssoc
import Palmira.Foundation.Binary

/-!
# Dynamic values

The value type every request, report and document attribute is made of: a tagged
value `zval` and a map `zmap` from keys to such values. A map is kept in the
normal form of its key order, and its operations are `get` and `put`.
-/

namespace Palmira

/-- UTF-16 code units of a wide string. -/
abbrev WideStr := List UInt16

/-- Map keys are integers, char strings or wide strings. -/
inductive Key where
  | word (n : ℕ)
  | charstr (s : String)
  | widestr (s : WideStr)

namespace Key

/-- Keys of one kind stay together; inside a kind they follow the order of their contents. -/
def code : Key → ℕ ⊕ₗ (String ⊕ₗ List ℕ)
  | .word n => toLex (.inl n)
  | .charstr s => toLex (.inr (toLex (.inl s)))
  | .widestr s => toLex (.inr (toLex (.inr (s.map UInt16.toNat))))

theorem code_injective : Function.Injective code := by
  intro left right heq
  cases left <;> cases right <;> simp only [code, toLex_inj, Sum.inl.injEq, Sum.inr.injEq,
    reduceCtorEq] at heq
  · rw [heq]
  · rw [heq]
  · exact congrArg Key.widestr (List.map_injective_iff.mpr (fun _ _ h => UInt16.toNat_inj.mp h) heq)

instance : LinearOrder Key := LinearOrder.lift' code code_injective

@[simp] theorem charstr_lt_charstr {a b : String} : Key.charstr a < .charstr b ↔ a < b := by
  change code (.charstr a) < code (.charstr b) ↔ a < b
  simp [code]

end Key

inductive Zval where
  | untyped
  | char (x : Int8)
  | byte (x : UInt8)
  | int16 (x : Int16)
  | word16 (x : UInt16)
  | int32 (x : Int32)
  | word32 (x : UInt32)
  | int64 (x : Int64)
  | word64 (x : UInt64)
  | float (x : Binary32)
  | double (x : Binary64)
  | bool (x : Bool)
  | charstr (s : String)
  | widestr (s : WideStr)
  | zmap (fields : List (Key × Zval))
  | arrayChar (xs : List Int8)
  | arrayByte (xs : List UInt8)
  | arrayInt16 (xs : List Int16)
  | arrayWord16 (xs : List UInt16)
  | arrayInt32 (xs : List Int32)
  | arrayWord32 (xs : List UInt32)
  | arrayInt64 (xs : List Int64)
  | arrayWord64 (xs : List UInt64)
  | arrayFloat (xs : List Binary32)
  | arrayDouble (xs : List Binary64)
  | arrayCharstr (xs : List String)
  | arrayWidestr (xs : List WideStr)
  | arrayZmap (xs : List (List (Key × Zval)))
  | arrayZval (xs : List Zval)

abbrev Zmap := List (Key × Zval)

mutual

/-- Every map inside a value is in normal form. -/
def Zval.Wf : Zval → Prop
  | .zmap fields => SortedAssoc.Sorted fields ∧ Zmap.AllWf fields
  | .arrayZmap maps => Zmap.AllMapsWf maps
  | .arrayZval vals => Zval.AllWf vals
  | _ => True

def Zmap.AllWf : List (Key × Zval) → Prop
  | [] => True
  | (_, val) :: rest => val.Wf ∧ Zmap.AllWf rest

def Zmap.AllMapsWf : List (List (Key × Zval)) → Prop
  | [] => True
  | fields :: rest => (SortedAssoc.Sorted fields ∧ Zmap.AllWf fields) ∧ Zmap.AllMapsWf rest

def Zval.AllWf : List Zval → Prop
  | [] => True
  | val :: rest => val.Wf ∧ Zval.AllWf rest

end

namespace Zmap

def Wf (m : Zmap) : Prop := (Zval.zmap m).Wf

def get (m : Zmap) (key : String) : Option Zval := SortedAssoc.get? m (.charstr key)

def put (m : Zmap) (key : String) (val : Zval) : Zmap := SortedAssoc.put m (.charstr key) val

/-- The typed getters answer only a value of exactly their type. -/
def getCharstr (m : Zmap) (key : String) : Option String :=
  match m.get key with
  | some (.charstr s) => some s
  | _ => none

def getZmap (m : Zmap) (key : String) : Option Zmap :=
  match m.get key with
  | some (.zmap fields) => some fields
  | _ => none

theorem AllWf.val {fields : List (Key × Zval)} (hfields : AllWf fields) {pair : Key × Zval}
    (hmem : pair ∈ fields) : pair.2.Wf := by
  induction fields with
  | nil => cases hmem
  | cons head rest ih =>
      rcases List.mem_cons.mp hmem with rfl | hmem
      · exact hfields.1
      · exact ih hfields.2 hmem

theorem Wf.getZmap {m fields : Zmap} {key : String} (hwf : m.Wf)
    (hget : m.getZmap key = some fields) : fields.Wf := by
  unfold Zmap.getZmap at hget
  split at hget
  next found hfound =>
    cases hget
    exact AllWf.val hwf.2 (SortedAssoc.mem_of_get? hfound)
  next => cases hget

theorem AllWf.of_forall {fields : List (Key × Zval)} (hvals : ∀ pair ∈ fields, pair.2.Wf) :
    AllWf fields := by
  induction fields with
  | nil => trivial
  | cons head rest ih =>
      exact ⟨hvals head List.mem_cons_self,
        ih fun pair hmem => hvals pair (List.mem_cons_of_mem _ hmem)⟩

theorem Wf.put {m : Zmap} (hwf : m.Wf) (key : String) {val : Zval} (hval : val.Wf) :
    (m.put key val).Wf := by
  refine ⟨hwf.1.put _ _, AllWf.of_forall fun pair hmem => ?_⟩
  rcases SortedAssoc.mem_put hmem with rfl | hmem
  · exact hval
  · exact hwf.2.val hmem

@[simp] theorem get_put_self (m : Zmap) (key : String) (val : Zval) :
    (m.put key val).get key = some val :=
  SortedAssoc.get?_put_self _ _ _

@[simp] theorem get_put_of_ne (m : Zmap) {key other : String} (val : Zval) (hne : other ≠ key) :
    (m.put key val).get other = m.get other :=
  SortedAssoc.get?_put_of_ne _ _ (fun heq => hne (Key.charstr.inj heq))

@[simp] theorem get_nil (key : String) : Zmap.get [] key = none := rfl

theorem put_ne_nil (m : Zmap) (key : String) (val : Zval) : m.put key val ≠ [] := by
  intro hnil
  have hget := get_put_self m key val
  rw [hnil, get_nil] at hget
  cases hget

end Zmap

end Palmira
