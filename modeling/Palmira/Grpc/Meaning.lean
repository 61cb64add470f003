import Palmira.Grpc.Messages

/-!
# What metadata says

A reader of metadata sees numbers, truth values, texts, tables and sequences, not
the width of the field that holds a number. `meaning` reads both sides of the wire
that way. The decoder keeps the meaning of every message; the encoder keeps it
exactly on the values that fit the fields it picks.
-/

namespace Palmira.Grpc

/-- Contents of a metadata value, whatever field type stores them. -/
inductive Value where
  | absent
  | number (x : Number)
  | truth (x : Bool)
  | text (s : String)
  | table (fields : List (Key × Value))
  | sequence (elems : List Value)

def Value.int (n : ℤ) : Value := .number (.finite n)

@[simp] theorem Value.int_inj {a b : ℤ} : Value.int a = Value.int b ↔ a = b := by
  simp [Value.int]

section Meaning

variable (widetombcs : WideStr → String)

mutual

/-- A wide string says what its UTF-8 form says. -/
def Zval.meaning : Zval → Value
  | .untyped => .absent
  | .char x => .int x.toInt
  | .byte x => .int x.toNat
  | .int16 x => .int x.toInt
  | .word16 x => .int x.toNat
  | .int32 x => .int x.toInt
  | .word32 x => .int x.toNat
  | .int64 x => .int x.toInt
  | .word64 x => .int x.toNat
  | .float x => .number x.number
  | .double x => .number x.number
  | .bool x => .truth x
  | .charstr s => .text s
  | .widestr s => .text (widetombcs s)
  | .zmap fields => .table (fieldMeanings fields)
  | .arrayChar xs => .sequence (xs.map fun x => .int x.toInt)
  | .arrayByte xs => .sequence (xs.map fun x => .int x.toNat)
  | .arrayInt16 xs => .sequence (xs.map fun x => .int x.toInt)
  | .arrayWord16 xs => .sequence (xs.map fun x => .int x.toNat)
  | .arrayInt32 xs => .sequence (xs.map fun x => .int x.toInt)
  | .arrayWord32 xs => .sequence (xs.map fun x => .int x.toNat)
  | .arrayInt64 xs => .sequence (xs.map fun x => .int x.toInt)
  | .arrayWord64 xs => .sequence (xs.map fun x => .int x.toNat)
  | .arrayFloat xs => .sequence (xs.map fun x => .number x.number)
  | .arrayDouble xs => .sequence (xs.map fun x => .number x.number)
  | .arrayCharstr xs => .sequence (xs.map .text)
  | .arrayWidestr xs => .sequence (xs.map fun s => .text (widetombcs s))
  | .arrayZmap xs => .sequence (zmapMeanings xs)
  | .arrayZval xs => .sequence (zvalMeanings xs)

def fieldMeanings : List (Key × Zval) → List (Key × Value)
  | [] => []
  | (key, val) :: rest => (key, Zval.meaning val) :: fieldMeanings rest

def zmapMeanings : List (List (Key × Zval)) → List Value
  | [] => []
  | fields :: rest => .table (fieldMeanings fields) :: zmapMeanings rest

def zvalMeanings : List Zval → List Value
  | [] => []
  | val :: rest => Zval.meaning val :: zvalMeanings rest

end

end Meaning

mutual

def MetaValue.meaning : MetaValue → Value
  | .notSet => .absent
  | .asBool x => .truth x
  | .asInt32 x => .int x.toInt
  | .asInt64 x => .int x.toInt
  | .asUint32 x => .int x.toNat
  | .asUint64 x => .int x.toNat
  | .asFloat x => .number x.number
  | .asDouble x => .number x.number
  | .asString s => .text s
  | .asMetadata data => .table (dataMeanings data)
  | .asArrayInt32 value => .sequence (value.map fun x => .int x.toInt)
  | .asArrayInt64 value => .sequence (value.map fun x => .int x.toInt)
  | .asArrayUint32 value => .sequence (value.map fun x => .int x.toNat)
  | .asArrayUint64 value => .sequence (value.map fun x => .int x.toNat)
  | .asArrayFloat value => .sequence (value.map fun x => .number x.number)
  | .asArrayDouble value => .sequence (value.map fun x => .number x.number)
  | .asArrayString value => .sequence (value.map .text)
  | .asArrayMetadata value => .sequence (metadataMeanings value)
  | .asArrayMetavalue value => .sequence (metaValueMeanings value)

def dataMeanings : List (String × MetaValue) → List (Key × Value)
  | [] => []
  | (key, val) :: rest => (.charstr key, val.meaning) :: dataMeanings rest

def metadataMeanings : List (List (String × MetaValue)) → List Value
  | [] => []
  | data :: rest => .table (dataMeanings data) :: metadataMeanings rest

def metaValueMeanings : List MetaValue → List Value
  | [] => []
  | val :: rest => val.meaning :: metaValueMeanings rest

end

/-! ## The domains of the two conversions -/

mutual

/-- Every value of the tree has its `oneof` set and every map is in normal form. -/
def MetaValue.AllSet : MetaValue → Prop
  | .notSet => False
  | .asMetadata data => SortedAssoc.Sorted data ∧ DataSet data
  | .asArrayMetadata value => MetadataSet value
  | .asArrayMetavalue value => MetaValuesSet value
  | _ => True

def DataSet : List (String × MetaValue) → Prop
  | [] => True
  | (_, val) :: rest => val.AllSet ∧ DataSet rest

def MetadataSet : List (List (String × MetaValue)) → Prop
  | [] => True
  | data :: rest => (SortedAssoc.Sorted data ∧ DataSet data) ∧ MetadataSet rest

def MetaValuesSet : List MetaValue → Prop
  | [] => True
  | val :: rest => val.AllSet ∧ MetaValuesSet rest

end

mutual

/-- The value has a type the encoder handles, and every key inside is a char string. -/
def Zval.Convertible : Zval → Prop
  | .untyped => False
  | .zmap fields => FieldsConvertible fields
  | .arrayZmap xs => ZmapsConvertible xs
  | .arrayZval xs => ZvalsConvertible xs
  | _ => True

def FieldsConvertible : List (Key × Zval) → Prop
  | [] => True
  | (key, val) :: rest => (∃ s, key = .charstr s) ∧ Zval.Convertible val ∧ FieldsConvertible rest

def ZmapsConvertible : List (List (Key × Zval)) → Prop
  | [] => True
  | fields :: rest => FieldsConvertible fields ∧ ZmapsConvertible rest

def ZvalsConvertible : List Zval → Prop
  | [] => True
  | val :: rest => Zval.Convertible val ∧ ZvalsConvertible rest

end

mutual

/-- Every number inside the value fits the 32-bit field the encoder picks for its type. -/
def Zval.Fits : Zval → Prop
  | .word64 x => x.toNat < 2 ^ 32
  | .arrayInt64 xs => ∀ x ∈ xs, -2 ^ 31 ≤ x.toInt ∧ x.toInt < 2 ^ 31
  | .arrayWord64 xs => ∀ x ∈ xs, x.toNat < 2 ^ 32
  | .arrayFloat xs => ∀ x ∈ xs, x.number.IsInt32
  | .arrayDouble xs => ∀ x ∈ xs, x.number.IsInt32
  | .zmap fields => FieldsFit fields
  | .arrayZmap xs => ZmapsFit xs
  | .arrayZval xs => ZvalsFit xs
  | _ => True

def FieldsFit : List (Key × Zval) → Prop
  | [] => True
  | (_, val) :: rest => Zval.Fits val ∧ FieldsFit rest

def ZmapsFit : List (List (Key × Zval)) → Prop
  | [] => True
  | fields :: rest => FieldsFit fields ∧ ZmapsFit rest

def ZvalsFit : List Zval → Prop
  | [] => True
  | val :: rest => Zval.Fits val ∧ ZvalsFit rest

end

/-! ## The decoder keeps every meaning -/

/-- The decoded fields of a message as a list, before they are stored in a map. -/
def convertFields : List (String × MetaValue) → Except Exn (List (Key × Zval))
  | [] => .ok []
  | (key, val) :: rest => do return (.charstr key, ← convertZval val) :: (← convertFields rest)

/-- Storing decoded fields in key order appends them. -/
theorem convertZmap_eq (data : List (String × MetaValue)) (out : Zmap)
    (hsorted : SortedAssoc.Sorted data)
    (hbelow : ∀ field ∈ out, ∀ pair ∈ data, field.1 < .charstr pair.1) :
    convertZmap out data = (do return out ++ (← convertFields data)) := by
  induction data generalizing out with
  | nil => simp [convertZmap, convertFields, pure, Except.pure, bind, Except.bind]
  | cons head rest ih =>
      obtain ⟨key, val⟩ := head
      obtain ⟨hhead, hrest⟩ := SortedAssoc.sorted_cons.mp hsorted
      simp only [convertZmap, convertFields]
      cases hval : convertZval val with
      | error e => rfl
      | ok z =>
          -- keys come in order, so storing one appends it to what is stored
          have hput : out.put key z = out ++ [(.charstr key, z)] :=
            SortedAssoc.put_of_forall_lt z
              (fun field hfield => hbelow field hfield (key, val) List.mem_cons_self)
          have hnext := ih (out ++ [(.charstr key, z)]) hrest (by
            intro field hfield pair hpair
            rcases List.mem_append.mp hfield with hold | hnew
            · exact hbelow field hold pair (List.mem_cons_of_mem _ hpair)
            · rw [List.mem_singleton.mp hnew]
              exact Key.charstr_lt_charstr.mpr (hhead pair hpair))
          change convertZmap (out.put key z) rest = _
          rw [hput, hnext]
          cases convertFields rest <;> simp [bind, Except.bind, pure, Except.pure]

theorem convertZmap_nil (data : List (String × MetaValue)) (hsorted : SortedAssoc.Sorted data) :
    convertZmap [] data = convertFields data := by
  rw [convertZmap_eq data [] hsorted (by simp)]
  cases convertFields data <;> rfl

/-! Whatever decodes is made of what its parts decode to. -/

theorem convertZval_asMetadata_ok {data : List (String × MetaValue)} {z : Zval}
    (hsorted : SortedAssoc.Sorted data) (hz : convertZval (.asMetadata data) = .ok z) :
    ∃ fields, convertFields data = .ok fields ∧ z = .zmap fields := by
  rw [convertZval, convertZmap_nil data hsorted] at hz
  exact bind_pure_ok hz

theorem convertZval_asArrayMetadata_ok {value : List (List (String × MetaValue))} {z : Zval}
    (hz : convertZval (.asArrayMetadata value) = .ok z) :
    ∃ maps, convertZmaps value = .ok maps ∧ z = .arrayZmap maps := by
  rw [convertZval] at hz
  exact bind_pure_ok hz

theorem convertZval_asArrayMetavalue_ok {value : List MetaValue} {z : Zval}
    (hz : convertZval (.asArrayMetavalue value) = .ok z) :
    ∃ vals, convertZvals value = .ok vals ∧ z = .arrayZval vals := by
  rw [convertZval] at hz
  exact bind_pure_ok hz

theorem convertFields_cons_ok {key : String} {val : MetaValue} {rest : List (String × MetaValue)}
    {fields : List (Key × Zval)} (hfields : convertFields ((key, val) :: rest) = .ok fields) :
    ∃ z fields', convertZval val = .ok z ∧ convertFields rest = .ok fields' ∧
      fields = (.charstr key, z) :: fields' := by
  rw [convertFields] at hfields
  exact bind_cons_ok (f := fun z => (Key.charstr key, z)) hfields

theorem convertZmaps_cons_ok {data : List (String × MetaValue)}
    {rest : List (List (String × MetaValue))} {maps : List (List (Key × Zval))}
    (hsorted : SortedAssoc.Sorted data) (hmaps : convertZmaps (data :: rest) = .ok maps) :
    ∃ fields maps', convertFields data = .ok fields ∧ convertZmaps rest = .ok maps' ∧
      maps = fields :: maps' := by
  rw [convertZmaps, convertZmap_nil data hsorted] at hmaps
  exact bind_cons_ok (f := id) hmaps

theorem convertZvals_cons_ok {val : MetaValue} {rest : List MetaValue} {vals : List Zval}
    (hvals : convertZvals (val :: rest) = .ok vals) :
    ∃ z vals', convertZval val = .ok z ∧ convertZvals rest = .ok vals' ∧ vals = z :: vals' := by
  rw [convertZvals] at hvals
  exact bind_cons_ok (f := id) hvals

section Decoder

variable (widetombcs : WideStr → String)

mutual

/-- Every complete message decodes, and to a value that says the same. -/
theorem convertZval_meaning : ∀ val : MetaValue, val.AllSet →
    ∃ z, convertZval val = .ok z ∧ Zval.meaning widetombcs z = val.meaning
  | .notSet, hset => hset.elim
  | .asBool _, _ | .asInt32 _, _ | .asInt64 _, _ | .asUint32 _, _ | .asUint64 _, _
  | .asFloat _, _ | .asDouble _, _ | .asString _, _ | .asArrayInt32 _, _
  | .asArrayInt64 _, _ | .asArrayUint32 _, _ | .asArrayUint64 _, _ | .asArrayFloat _, _
  | .asArrayDouble _, _ | .asArrayString _, _ => ⟨_, rfl, rfl⟩
  | .asMetadata data, hset => by
      obtain ⟨fields, hconv, hmean⟩ := convertFields_meaning data hset.2
      refine ⟨.zmap fields, ?_, by simp only [Zval.meaning, MetaValue.meaning, hmean]⟩
      simp only [convertZval, convertZmap_nil data hset.1, hconv]
      rfl
  | .asArrayMetadata value, hset => by
      obtain ⟨maps, hconv, hmean⟩ := convertZmaps_meaning value hset
      refine ⟨.arrayZmap maps, ?_, by simp only [Zval.meaning, MetaValue.meaning, hmean]⟩
      simp only [convertZval, hconv]
      rfl
  | .asArrayMetavalue value, hset => by
      obtain ⟨vals, hconv, hmean⟩ := convertZvals_meaning value hset
      refine ⟨.arrayZval vals, ?_, by simp only [Zval.meaning, MetaValue.meaning, hmean]⟩
      simp only [convertZval, hconv]
      rfl

theorem convertFields_meaning : ∀ data : List (String × MetaValue), DataSet data →
    ∃ fields, convertFields data = .ok fields ∧
      fieldMeanings widetombcs fields = dataMeanings data
  | [], _ => ⟨[], rfl, rfl⟩
  | (key, val) :: rest, hset => by
      obtain ⟨z, hz, hzmean⟩ := convertZval_meaning val hset.1
      obtain ⟨fields, hconv, hmean⟩ := convertFields_meaning rest hset.2
      refine ⟨(.charstr key, z) :: fields, by simp only [convertFields, hz, hconv]; rfl, ?_⟩
      simp only [fieldMeanings, dataMeanings, hzmean, hmean]

theorem convertZmaps_meaning : ∀ value : List (List (String × MetaValue)), MetadataSet value →
    ∃ maps, convertZmaps value = .ok maps ∧
      zmapMeanings widetombcs maps = metadataMeanings value
  | [], _ => ⟨[], rfl, rfl⟩
  | data :: rest, hset => by
      obtain ⟨fields, hfields, hfmean⟩ := convertFields_meaning data hset.1.2
      obtain ⟨maps, hconv, hmean⟩ := convertZmaps_meaning rest hset.2
      refine ⟨fields :: maps, ?_, by simp only [zmapMeanings, metadataMeanings, hfmean, hmean]⟩
      simp only [convertZmaps, convertZmap_nil data hset.1.1, hfields, hconv]
      rfl

theorem convertZvals_meaning : ∀ value : List MetaValue, MetaValuesSet value →
    ∃ vals, convertZvals value = .ok vals ∧
      zvalMeanings widetombcs vals = metaValueMeanings value
  | [], _ => ⟨[], rfl, rfl⟩
  | val :: rest, hset => by
      obtain ⟨z, hz, hzmean⟩ := convertZval_meaning val hset.1
      obtain ⟨vals, hconv, hmean⟩ := convertZvals_meaning rest hset.2
      refine ⟨z :: vals, by simp only [convertZvals, hz, hconv]; rfl, ?_⟩
      simp only [zvalMeanings, metaValueMeanings, hzmean, hmean]

end

end Decoder

end Palmira.Grpc
