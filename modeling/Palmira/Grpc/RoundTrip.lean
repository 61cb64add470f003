import Palmira.Grpc.Meaning

/-!
# Stored metadata over the wire and back

The encoder either fails or writes a complete message, and the message says what
the value said exactly when the value fits the fields the encoder picks. Composed
with the decoder this gives the exact class of maps that survive the wire.
-/

namespace Palmira.Grpc

/-! ## Encoding results -/

/-- A conversion that, when it succeeds, gives a `good` result, which is `same` exactly when
the source fits; and that fails only on sources that do not fit. -/
def Carries {β : Type} (res : Except Exn β) (good same : β → Prop) (fits : Prop) : Prop :=
  match res with
  | .ok b => good b ∧ (same b ↔ fits)
  | .error _ => ¬ fits

namespace Carries

variable {β γ δ : Type}

theorem ok {b : β} {good same : β → Prop} {fits : Prop} (hgood : good b) (hsame : same b ↔ fits) :
    Carries (.ok b) good same fits :=
  ⟨hgood, hsame⟩

/-- Wrapping the result in a constructor keeps the result of the conversion. -/
theorem map {res : Except Exn β} {good same : β → Prop} {fits : Prop}
    (hres : Carries res good same fits) (f : β → γ) {good' same' : γ → Prop}
    (hgood : ∀ b, good b → good' (f b)) (hsame : ∀ b, good b → (same' (f b) ↔ same b)) :
    Carries (do return f (← res)) good' same' fits := by
  cases res with
  | error e => exact hres
  | ok b => exact ⟨hgood b hres.1, (hsame b hres.1).trans hres.2⟩

/-- Two conversions in sequence carry both sources. -/
theorem both {left : Except Exn β} {right : Except Exn γ} {good same : β → Prop} {fits : Prop}
    {good' same' : γ → Prop} {fits' : Prop} (hleft : Carries left good same fits)
    (hright : Carries right good' same' fits') (f : β → γ → δ) {good'' same'' : δ → Prop}
    (hgood : ∀ b c, good b → good' c → good'' (f b c))
    (hsame : ∀ b c, same'' (f b c) ↔ same b ∧ same' c) :
    Carries (do return f (← left) (← right)) good'' same'' (fits ∧ fits') := by
  cases left with
  | error e => exact fun h => hleft h.1
  | ok b =>
      cases right with
      | error e => exact fun h => hright h.2
      | ok c =>
          refine ⟨hgood b c hleft.1 hright.1, (hsame b c).trans ?_⟩
          rw [hleft.2, hright.2]

end Carries

/-! ## Element conversions -/

theorem toUInt32_toNat_eq_iff (x : UInt64) : x.toUInt32.toNat = x.toNat ↔ x.toNat < 2 ^ 32 := by
  rw [UInt64.toNat_toUInt32]
  constructor
  · intro heq
    rw [← heq]
    exact Nat.mod_lt _ (by decide)
  · exact Nat.mod_eq_of_lt

theorem toInt32_toInt_eq_iff (x : Int64) :
    x.toInt32.toInt = x.toInt ↔ -2 ^ 31 ≤ x.toInt ∧ x.toInt < 2 ^ 31 := by
  rw [Int64.toInt_toInt32]
  constructor
  · intro heq
    rw [← heq]
    exact ⟨Int.le_bmod (by decide), Int.bmod_lt (by decide)⟩
  · rintro ⟨hlo, hhi⟩
    exact Int.bmod_eq_of_le hlo hhi

/-- The truncating overload keeps a sequence of numbers exactly when all are whole and in range. -/
theorem addTruncated_carries {T : Type} (number : T → Number) (xs : List T) :
    Carries (addTruncated number xs) (fun _ => True)
      (fun ys => ys.map (fun y => Value.int y.toInt) = xs.map (fun x => Value.number (number x)))
      (∀ x ∈ xs, (number x).IsInt32) := by
  induction xs with
  | nil => exact .ok trivial (by simp)
  | cons x rest ih =>
      have hvalue := Number.toInt32?_value_iff (number x)
      simp only [addTruncated]
      cases hconv : (number x).toInt32? with
      | none =>
          -- an element the language does not convert does not fit either
          intro hfits
          obtain ⟨n, hn, _⟩ := hvalue.mpr (hfits x List.mem_cons_self)
          rw [hconv] at hn
          cases hn
      | some n =>
          have hhead : Value.int n.toInt = .number (number x) ↔ (number x).IsInt32 := by
            rw [← hvalue]
            constructor
            · intro heq
              exact ⟨n, hconv, Value.number.inj heq⟩
            · rintro ⟨n', hn', heq⟩
              rw [Option.some.inj (hconv.symm.trans hn')]
              exact congrArg Value.number heq
          cases htail : addTruncated number rest with
          | error e =>
              rw [htail] at ih
              exact fun hfits => ih (fun y hy => hfits y (List.mem_cons_of_mem _ hy))
          | ok ys =>
              rw [htail] at ih
              refine ⟨trivial, ?_⟩
              simp only [List.map_cons, List.cons.injEq, List.forall_mem_cons]
              rw [hhead]
              exact and_congr_right' ih.2

/-! ## The encoder -/

section Encoder

variable (widetombcs : WideStr → String)

/-- The encoded fields of a map as a list, before they are stored in the message. -/
def convertPairs : List (Key × Zval) → Except Exn (List (String × MetaValue))
  | [] => .ok []
  | (.charstr key, val) :: rest => do
      return (key, ← convertMetaValue widetombcs val) :: (← convertPairs rest)
  | _ :: _ => .error (.invalidArgument "Invalid value type")

theorem convertMetadata_eq (fields : List (Key × Zval)) (out : Metadata)
    (hsorted : SortedAssoc.Sorted fields)
    (hbelow : ∀ pair ∈ out, ∀ field ∈ fields, Key.charstr pair.1 < field.1) :
    convertMetadata widetombcs out fields =
      (do return out ++ (← convertPairs widetombcs fields)) := by
  induction fields generalizing out with
  | nil => simp [convertMetadata, convertPairs, pure, Except.pure, bind, Except.bind]
  | cons head rest ih =>
      obtain ⟨key, val⟩ := head
      obtain ⟨hhead, hrest⟩ := SortedAssoc.sorted_cons.mp hsorted
      cases key with
      -- only keys of the one kind are encoded
      | word n => rfl
      | widestr s => rfl
      | charstr key =>
          simp only [convertMetadata, convertPairs]
          cases hval : convertMetaValue widetombcs val with
          | error e => rfl
          | ok w =>
              have hput : SortedAssoc.put out key w = out ++ [(key, w)] :=
                SortedAssoc.put_of_forall_lt w (fun pair hpair => Key.charstr_lt_charstr.mp
                  (hbelow pair hpair (.charstr key, val) List.mem_cons_self))
              have hnext := ih (out ++ [(key, w)]) hrest (by
                intro pair hpair field hfield
                rcases List.mem_append.mp hpair with hold | hnew
                · exact hbelow pair hold field (List.mem_cons_of_mem _ hfield)
                · rw [List.mem_singleton.mp hnew]
                  exact hhead field hfield)
              change convertMetadata widetombcs (SortedAssoc.put out key w) rest = _
              rw [hput, hnext]
              cases convertPairs widetombcs rest <;> simp [bind, Except.bind, pure, Except.pure]

theorem convertMetadata_nil (fields : List (Key × Zval)) (hsorted : SortedAssoc.Sorted fields) :
    convertMetadata widetombcs [] fields = convertPairs widetombcs fields := by
  rw [convertMetadata_eq widetombcs fields [] hsorted (by simp)]
  cases convertPairs widetombcs fields <;> rfl

/-- Encoded fields keep the keys, so they stay in key order. -/
def SameKeys (fields : List (Key × Zval)) (data : List (String × MetaValue)) : Prop :=
  fields.map Prod.fst = data.map (fun pair => Key.charstr pair.1)

theorem SameKeys.sorted {fields : List (Key × Zval)} {data : List (String × MetaValue)}
    (hkeys : SameKeys fields data) (hsorted : SortedAssoc.Sorted fields) :
    SortedAssoc.Sorted data := by
  have hfields : (fields.map Prod.fst).Pairwise (· < ·) := List.pairwise_map.mpr hsorted
  rw [hkeys] at hfields
  exact (List.pairwise_map.mp hfields).imp (fun h => Key.charstr_lt_charstr.mp h)

mutual

/-- Encoding gives a complete message that says what the value said exactly when it fits. -/
theorem convertMetaValue_carries : ∀ z : Zval, Zval.Convertible z → z.Wf →
    Carries (convertMetaValue widetombcs z) MetaValue.AllSet
      (fun w => w.meaning = Zval.meaning widetombcs z) (Zval.Fits z)
  | .untyped, hconv, _ => hconv.elim
  | .char x, _, _ => .ok trivial (by simp [MetaValue.meaning, Zval.meaning, Zval.Fits])
  | .byte x, _, _ => .ok trivial (by simp [MetaValue.meaning, Zval.meaning, Zval.Fits])
  | .int16 x, _, _ => .ok trivial (by simp [MetaValue.meaning, Zval.meaning, Zval.Fits])
  | .word16 x, _, _ => .ok trivial (by simp [MetaValue.meaning, Zval.meaning, Zval.Fits])
  | .int32 x, _, _ => .ok trivial (by simp [MetaValue.meaning, Zval.meaning, Zval.Fits])
  | .word32 x, _, _ => .ok trivial (by simp [MetaValue.meaning, Zval.meaning, Zval.Fits])
  | .int64 x, _, _ => .ok trivial (by simp [MetaValue.meaning, Zval.meaning, Zval.Fits])
  | .word64 x, _, _ => .ok trivial (by
      simp only [MetaValue.meaning, Zval.meaning, Zval.Fits, Value.int_inj, Nat.cast_inj]
      exact toUInt32_toNat_eq_iff x)
  | .float x, _, _ => .ok trivial (by simp [MetaValue.meaning, Zval.meaning, Zval.Fits])
  | .double x, _, _ => .ok trivial (by simp [MetaValue.meaning, Zval.meaning, Zval.Fits])
  | .bool x, _, _ => .ok trivial (by simp [MetaValue.meaning, Zval.meaning, Zval.Fits])
  | .charstr s, _, _ => .ok trivial (by simp [MetaValue.meaning, Zval.meaning, Zval.Fits])
  | .widestr s, _, _ => .ok trivial (by simp [MetaValue.meaning, Zval.meaning, Zval.Fits])
  | .zmap fields, hconv, hwf => by
      simp only [convertMetaValue, Zval.Fits, convertMetadata_nil widetombcs fields hwf.1]
      refine (convertPairs_carries fields hconv hwf.2).map MetaValue.asMetadata ?_ ?_
      · exact fun data hdata => ⟨hdata.2.sorted hwf.1, hdata.1⟩
      · intro data _
        simp [MetaValue.meaning, Zval.meaning]
  | .arrayChar xs, _, _ => .ok trivial (by
      simp [MetaValue.meaning, Zval.meaning, Zval.Fits, addValues])
  | .arrayByte xs, _, _ => .ok trivial (by
      simp [MetaValue.meaning, Zval.meaning, Zval.Fits, addValues])
  | .arrayInt16 xs, _, _ => .ok trivial (by
      simp [MetaValue.meaning, Zval.meaning, Zval.Fits, addValues])
  | .arrayWord16 xs, _, _ => .ok trivial (by
      simp [MetaValue.meaning, Zval.meaning, Zval.Fits, addValues])
  | .arrayInt32 xs, _, _ => .ok trivial (by
      simp [MetaValue.meaning, Zval.meaning, Zval.Fits, addValues])
  | .arrayWord32 xs, _, _ => .ok trivial (by
      simp [MetaValue.meaning, Zval.meaning, Zval.Fits, addValues])
  | .arrayInt64 xs, _, _ => .ok trivial (by
      simp only [MetaValue.meaning, Zval.meaning, Zval.Fits, addValues, List.map_map,
        Value.sequence.injEq, List.map_inj_left, Function.comp_apply, Value.int_inj]
      exact forall₂_congr (fun x _ => toInt32_toInt_eq_iff x))
  | .arrayWord64 xs, _, _ => .ok trivial (by
      simp only [MetaValue.meaning, Zval.meaning, Zval.Fits, addValues, List.map_map,
        Value.sequence.injEq, List.map_inj_left, Function.comp_apply, Value.int_inj, Nat.cast_inj]
      exact forall₂_congr (fun x _ => toUInt32_toNat_eq_iff x))
  | .arrayFloat xs, _, _ => by
      simp only [convertMetaValue, Zval.Fits]
      refine (addTruncated_carries Binary32.number xs).map MetaValue.asArrayInt32
        (fun _ _ => trivial) ?_
      intro ys _
      simp [MetaValue.meaning, Zval.meaning]
  | .arrayDouble xs, _, _ => by
      simp only [convertMetaValue, Zval.Fits]
      refine (addTruncated_carries Binary64.number xs).map MetaValue.asArrayInt32
        (fun _ _ => trivial) ?_
      intro ys _
      simp [MetaValue.meaning, Zval.meaning]
  | .arrayCharstr xs, _, _ => .ok trivial (by
      simp [MetaValue.meaning, Zval.meaning, Zval.Fits, addValues])
  | .arrayWidestr xs, _, _ => .ok trivial (by
      simp [MetaValue.meaning, Zval.meaning, Zval.Fits, addValues])
  | .arrayZmap xs, hconv, hwf => by
      simp only [convertMetaValue, Zval.Fits]
      refine (convertMetadatas_carries xs hconv hwf).map MetaValue.asArrayMetadata (fun _ h => h) ?_
      intro value _
      simp [MetaValue.meaning, Zval.meaning]
  | .arrayZval xs, hconv, hwf => by
      simp only [convertMetaValue, Zval.Fits]
      have hcarries := convertMetaValues_carries xs hconv hwf
      refine hcarries.map MetaValue.asArrayMetavalue (fun _ h => h) ?_
      intro value _
      simp [MetaValue.meaning, Zval.meaning]

theorem convertPairs_carries : ∀ fields : List (Key × Zval), FieldsConvertible fields →
    Zmap.AllWf fields →
    Carries (convertPairs widetombcs fields) (fun data => DataSet data ∧ SameKeys fields data)
      (fun data => dataMeanings data = fieldMeanings widetombcs fields) (FieldsFit fields)
  | [], _, _ => .ok ⟨trivial, rfl⟩ (by simp [dataMeanings, fieldMeanings, FieldsFit])
  | (.word _, _) :: _, hconv, _ => by simp [FieldsConvertible] at hconv
  | (.widestr _, _) :: _, hconv, _ => by simp [FieldsConvertible] at hconv
  | (.charstr key, val) :: rest, hconv, hwf => by
      refine (convertMetaValue_carries val hconv.2.1 hwf.1).both
        (convertPairs_carries rest hconv.2.2 hwf.2) (fun w data => (key, w) :: data) ?_ ?_
      · rintro w data hw ⟨hdata, hkeys⟩
        exact ⟨⟨hw, hdata⟩, by simpa [SameKeys] using hkeys⟩
      · intro w data
        simp [dataMeanings, fieldMeanings]

theorem convertMetadatas_carries : ∀ xs : List (List (Key × Zval)), ZmapsConvertible xs →
    Zmap.AllMapsWf xs →
    Carries (convertMetadatas widetombcs xs) MetadataSet
      (fun value => metadataMeanings value = zmapMeanings widetombcs xs) (ZmapsFit xs)
  | [], _, _ => .ok trivial (by simp [metadataMeanings, zmapMeanings, ZmapsFit])
  | fields :: rest, hconv, hwf => by
      simp only [convertMetadatas, convertMetadata_nil widetombcs fields hwf.1.1]
      refine (convertPairs_carries fields hconv.1 hwf.1.2).both
        (convertMetadatas_carries rest hconv.2 hwf.2) (fun data value => data :: value) ?_ ?_
      · exact fun data value hdata hvalue => ⟨⟨hdata.2.sorted hwf.1.1, hdata.1⟩, hvalue⟩
      · intro data value
        simp [metadataMeanings, zmapMeanings]

theorem convertMetaValues_carries : ∀ xs : List Zval, ZvalsConvertible xs → Zval.AllWf xs →
    Carries (convertMetaValues widetombcs xs) MetaValuesSet
      (fun value => metaValueMeanings value = zvalMeanings widetombcs xs) (ZvalsFit xs)
  | [], _, _ => .ok trivial (by simp [metaValueMeanings, zvalMeanings, ZvalsFit])
  | val :: rest, hconv, hwf => by
      refine (convertMetaValue_carries val hconv.1 hwf.1).both
        (convertMetaValues_carries rest hconv.2 hwf.2) (fun w value => w :: value) ?_ ?_
      · exact fun w value hw hvalue => ⟨hw, hvalue⟩
      · intro w value
        simp [metaValueMeanings, zvalMeanings]

end

/-! ## A stored map over the wire and back -/

/-- A map encoded as `Metadata` and decoded again. -/
def overWire (m : Zmap) : Except Exn Zmap := do
  convertZmap [] (← convertMetadata widetombcs [] m)

/-- The map that comes back says what the stored map said exactly when every 64-bit word, every
element of a 64-bit array and every element of a floating array fits the 32-bit field the encoder
puts it in. -/
theorem overWire_meaning_iff (m : Zmap) (hwf : m.Wf) (hconv : FieldsConvertible m) :
    (∃ m', overWire widetombcs m = .ok m' ∧
      fieldMeanings widetombcs m' = fieldMeanings widetombcs m) ↔ FieldsFit m := by
  have hcarries := convertPairs_carries widetombcs m hconv hwf.2
  rw [← convertMetadata_nil widetombcs m hwf.1] at hcarries
  unfold overWire
  cases hdata : convertMetadata widetombcs [] m with
  | error e =>
      rw [hdata] at hcarries
      refine iff_of_false ?_ hcarries
      rintro ⟨m', hm', _⟩
      cases hm'
  | ok data =>
      rw [hdata] at hcarries
      obtain ⟨⟨hset, hkeys⟩, hsame⟩ := hcarries
      obtain ⟨m', hm', hmean⟩ := convertFields_meaning widetombcs data hset
      have hback : convertZmap [] data = .ok m' := by
        rw [convertZmap_nil data (hkeys.sorted hwf.1), hm']
      rw [← hsame]
      constructor
      · rintro ⟨back, hback', heq⟩
        have hsame' : back = m' := Except.ok.inj (hback'.symm.trans hback)
        rw [← hmean, ← hsame', heq]
      · intro heq
        exact ⟨m', hback, hmean.trans heq⟩

/-- The half-open interval of fitting values is used up to its end. -/
theorem overWire_meaning_iff_fits : ∃ m', overWire (fun _ => "")
      [(.charstr "size", .word64 0xFFFFFFFF)] = .ok m' ∧
    fieldMeanings (fun _ => "") m' =
      fieldMeanings (fun _ => "") [(.charstr "size", .word64 0xFFFFFFFF)] :=
  (overWire_meaning_iff (fun _ => "") [(.charstr "size", .word64 0xFFFFFFFF)]
    ⟨List.pairwise_singleton _ _, trivial, trivial⟩ ⟨⟨"size", rfl⟩, trivial, trivial⟩).mpr
    ⟨show (0xFFFFFFFF : UInt64).toNat < 2 ^ 32 by decide, trivial⟩

/-- The first word above the 32-bit range comes back as zero. -/
theorem overWire_truncates_word64 :
    Zmap.Wf [(.charstr "size", .word64 0x100000000)] ∧
    FieldsConvertible [(.charstr "size", .word64 0x100000000)] ∧
    overWire (fun _ => "") [(.charstr "size", .word64 0x100000000)] =
      .ok [(.charstr "size", .word32 0)] ∧
    ¬ ∃ m', overWire (fun _ => "") [(.charstr "size", .word64 0x100000000)] = .ok m' ∧
      fieldMeanings (fun _ => "") m' =
        fieldMeanings (fun _ => "") [(.charstr "size", .word64 0x100000000)] := by
  have hback : overWire (fun _ => "") [(.charstr "size", .word64 0x100000000)] =
      .ok [(.charstr "size", .word32 0)] := rfl
  refine ⟨⟨List.pairwise_singleton _ _, trivial, trivial⟩, ⟨⟨"size", rfl⟩, trivial, trivial⟩,
    hback, ?_⟩
  rintro ⟨m', hm', hmean⟩
  have hm : m' = [(.charstr "size", .word32 0)] := Except.ok.inj (hm'.symm.trans hback)
  subst hm
  simp [fieldMeanings, Zval.meaning] at hmean

end Encoder

end Palmira.Grpc
