import Palmira.Foundation.Effects
import Palmira.Grpc.Messages

/-!
# Conversion in place

The encoder writes into the message it is given, field by field, and may throw in
the middle of it. Into a fresh message it writes what the conversion by value
gives, up to the floating elements the language leaves open.
-/

namespace Palmira.Grpc

open Effects

/-! ## The message under conversion -/

/-! `mutable_as_…` answers what the case holds, or sets the case to nothing of its kind. -/

def MetaValue.metadata : MetaValue → Metadata
  | .asMetadata data => data
  | _ => []

def MetaValue.arrayInt32 : MetaValue → List Int32
  | .asArrayInt32 value => value
  | _ => []

def MetaValue.arrayUint32 : MetaValue → List UInt32
  | .asArrayUint32 value => value
  | _ => []

def MetaValue.arrayString : MetaValue → List String
  | .asArrayString value => value
  | _ => []

def MetaValue.arrayMetadata : MetaValue → List Metadata
  | .asArrayMetadata value => value
  | _ => []

def MetaValue.arrayMetavalue : MetaValue → List MetaValue
  | .asArrayMetavalue value => value
  | _ => []

section Fill

variable (widetombcs : WideStr → String) (reduce : Number → Int32)

/-- `add_value` of each element behind those there are. -/
def addInt32 {T : Type} (element : T → Int32) (src : List T) : Call Exn MetaValue PUnit :=
  modify fun out => .asArrayInt32 (out.arrayInt32 ++ addValues element src)

def addUint32 {T : Type} (element : T → UInt32) (src : List T) : Call Exn MetaValue PUnit :=
  modify fun out => .asArrayUint32 (out.arrayUint32 ++ addValues element src)

def addString {T : Type} (element : T → String) (src : List T) : Call Exn MetaValue PUnit :=
  modify fun out => .asArrayString (out.arrayString ++ addValues element src)

mutual

/-- `Convert( grpcttp::MetaValue& out, const mtc::zval& src )`. `reduce` is what the machine makes
of a floating element where an `int32` is added; the language leaves it open for some. -/
def fillMetaValue : Zval → Call Exn MetaValue PUnit
  | .char x => set (MetaValue.asInt32 x.toInt32)
  | .byte x => set (MetaValue.asUint32 x.toUInt32)
  | .int16 x => set (MetaValue.asInt32 x.toInt32)
  | .word16 x => set (MetaValue.asUint32 x.toUInt32)
  | .int32 x => set (MetaValue.asInt32 x)
  | .word32 x => set (MetaValue.asUint32 x)
  | .int64 x => set (MetaValue.asInt64 x)
  | .word64 x => set (MetaValue.asUint32 x.toUInt32)
  | .float x => set (MetaValue.asFloat x)
  | .double x => set (MetaValue.asDouble x)
  | .bool x => set (MetaValue.asBool x)
  | .charstr s => set (MetaValue.asString s)
  | .widestr s => set (MetaValue.asString (widetombcs s))
  | .zmap fields => within MetaValue.metadata (fun _ => .asMetadata) (fillMetadata fields)
  | .arrayChar xs => addInt32 Int8.toInt32 xs
  | .arrayByte xs => addUint32 UInt8.toUInt32 xs
  | .arrayInt16 xs => addInt32 Int16.toInt32 xs
  | .arrayWord16 xs => addUint32 UInt16.toUInt32 xs
  | .arrayInt32 xs => addInt32 id xs
  | .arrayWord32 xs => addUint32 id xs
  | .arrayInt64 xs => addInt32 Int64.toInt32 xs
  | .arrayWord64 xs => addUint32 UInt64.toUInt32 xs
  | .arrayFloat xs => addInt32 (fun x => reduce x.number) xs
  | .arrayDouble xs => addInt32 (fun x => reduce x.number) xs
  | .arrayCharstr xs => addString id xs
  | .arrayWidestr xs => addString widetombcs xs
  | .arrayZmap xs =>
      within MetaValue.arrayMetadata (fun _ => .asArrayMetadata) (fillMetadatas xs)
  | .arrayZval xs =>
      within MetaValue.arrayMetavalue (fun _ => .asArrayMetavalue) (fillMetaValues xs)
  | .untyped => throw (.invalidArgument "Unknown value type")

/-- `Convert( grpcttp::Metadata& out, const mtc::zmap& src )`. The entry of a key is there as soon
as its conversion starts. -/
def fillMetadata : List (Key × Zval) → Call Exn Metadata PUnit
  | [] => pure ⟨⟩
  | (.charstr key, val) :: rest => do
      within (fun data => (SortedAssoc.get? data key).getD .notSet)
        (fun data out => SortedAssoc.put data key out) (fillMetaValue val)
      fillMetadata rest
  | _ :: _ => throw (.invalidArgument "Invalid value type")

/-- `Convert( grpcttp::array_Metadata& out, const std::vector<mtc::zmap>& src )` -/
def fillMetadatas : List (List (Key × Zval)) → Call Exn (List Metadata) PUnit
  | [] => pure ⟨⟩
  | element :: rest => do
      within (fun _ => []) (fun value data => value ++ [data]) (fillMetadata element)
      fillMetadatas rest

/-- `Convert( grpcttp::array_Metavalue& out, const std::vector<mtc::zval>& src )` -/
def fillMetaValues : List Zval → Call Exn (List MetaValue) PUnit
  | [] => pure ⟨⟩
  | element :: rest => do
      within (fun _ => .notSet) (fun value out => value ++ [out]) (fillMetaValue element)
      fillMetaValues rest

end

end Fill

/-! ## In place and by value -/

section Reduced

variable (widetombcs : WideStr → String) (reduce : Number → Int32)

mutual

/-- The value with the integers the machine makes of them in place of the floating arrays. -/
def reduced : Zval → Zval
  | .arrayFloat xs => .arrayInt32 (xs.map fun x => reduce x.number)
  | .arrayDouble xs => .arrayInt32 (xs.map fun x => reduce x.number)
  | .zmap fields => .zmap (fieldsReduced fields)
  | .arrayZmap maps => .arrayZmap (zmapsReduced maps)
  | .arrayZval vals => .arrayZval (zvalsReduced vals)
  | v => v

def fieldsReduced : List (Key × Zval) → List (Key × Zval)
  | [] => []
  | (key, val) :: rest => (key, reduced val) :: fieldsReduced rest

def zmapsReduced : List (List (Key × Zval)) → List (List (Key × Zval))
  | [] => []
  | fields :: rest => fieldsReduced fields :: zmapsReduced rest

def zvalsReduced : List Zval → List Zval
  | [] => []
  | val :: rest => reduced val :: zvalsReduced rest

end

/-- Behind a call there is what the conversion by value gave, or it threw the same. -/
def Agrees {σ β : Type} (call : Call Exn σ PUnit) (s : σ) (res : Except Exn β) (put : β → σ) :
    Prop :=
  Ends call s (fun _ s' => ∃ b, res = .ok b ∧ s' = put b) (fun e _ => res = .error e)

namespace Agrees

variable {σ τ β γ δ : Type} {call : Call Exn σ PUnit} {s : σ}

theorem within {call : Call Exn τ PUnit} {t : τ} {res : Except Exn β} {f : β → τ}
    (hcall : Agrees call t res f) {part : σ → τ} (hpart : part s = t) (put : σ → τ → σ) :
    Agrees (Effects.within part put call) s res (fun b => put s (f b)) := by
  subst hpart
  refine ends_within.mpr (hcall.imp ?_ fun e _ hres => hres)
  rintro _ _ ⟨b, hres, rfl⟩
  exact ⟨b, hres, rfl⟩

theorem map {res : Except Exn β} {g : β → γ} {f : γ → σ}
    (hcall : Agrees call s res (fun b => f (g b))) : Agrees call s (do return g (← res)) f := by
  refine hcall.imp ?_ ?_
  · rintro _ _ ⟨b, rfl, rfl⟩
    exact ⟨g b, rfl, rfl⟩
  · rintro e _ rfl
    rfl

/-- Two conversions one after the other, the second from what the first left. -/
theorem bind {next : PUnit → Call Exn σ PUnit} {res : Except Exn β} {f : β → σ}
    {res' : β → Except Exn γ} {g : γ → σ} (hcall : Agrees call s res f)
    (hnext : ∀ b, Agrees (next ⟨⟩) (f b) (res' b) g) :
    Agrees (call >>= next) s (res.bind res') g := by
  refine ends_bind.mpr (hcall.imp ?_ ?_)
  · rintro _ _ ⟨b, rfl, rfl⟩
    exact hnext b
  · rintro e _ rfl
    rfl

end Agrees

mutual

/-- Into a fresh value the encoder writes what the conversion by value gives. -/
theorem fillMetaValue_agrees : ∀ v : Zval, v.Wf →
    Agrees (fillMetaValue widetombcs reduce v) .notSet
      (convertMetaValue widetombcs (reduced reduce v)) id
  | .untyped, _ => rfl
  | .zmap fields, hwf => by
      have hfields := fillMetadata_agrees fields [] hwf.1 hwf.2 fun _ _ _ _ => rfl
      rw [fillMetaValue, reduced, convertMetaValue]
      exact Agrees.map (Agrees.within hfields rfl _)
  | .arrayZmap maps, hwf => by
      have hmaps := fillMetadatas_agrees maps [] hwf
      rw [fillMetaValue, reduced, convertMetaValue]
      exact Agrees.map (Agrees.within hmaps rfl _)
  | .arrayZval vals, hwf => by
      have hvals := fillMetaValues_agrees vals [] hwf
      rw [fillMetaValue, reduced, convertMetaValue]
      exact Agrees.map (Agrees.within hvals rfl _)
  | .char _, _ | .byte _, _ | .int16 _, _ | .word16 _, _ | .int32 _, _ | .word32 _, _
  | .int64 _, _ | .word64 _, _ | .float _, _ | .double _, _ | .bool _, _ | .charstr _, _
  | .widestr _, _ => ⟨_, rfl, rfl⟩
  | .arrayChar _, _ | .arrayByte _, _ | .arrayInt16 _, _ | .arrayWord16 _, _ | .arrayInt32 _, _
  | .arrayWord32 _, _ | .arrayInt64 _, _ | .arrayWord64 _, _
  | .arrayCharstr _, _ | .arrayWidestr _, _ => ⟨_, rfl, rfl⟩
  | .arrayFloat xs, _ | .arrayDouble xs, _ => by
      refine ⟨_, rfl, ?_⟩
      simp [addValues, MetaValue.arrayInt32]

theorem fillMetadata_agrees : ∀ (fields : List (Key × Zval)) (out : Metadata),
    SortedAssoc.Sorted fields → Zmap.AllWf fields →
    (∀ pair ∈ fields, ∀ key, pair.1 = .charstr key → SortedAssoc.get? out key = none) →
    Agrees (fillMetadata widetombcs reduce fields) out
      (convertMetadata widetombcs out (fieldsReduced reduce fields)) id
  | [], out, _, _, _ => ⟨out, rfl, rfl⟩
  | (.word _, _) :: _, _, _, _, _ => rfl
  | (.widestr _, _) :: _, _, _, _, _ => rfl
  | (.charstr key, val) :: rest, out, hsorted, hwf, hnew => by
      obtain ⟨hhead, hrest⟩ := SortedAssoc.sorted_cons.mp hsorted
      have hfresh : (SortedAssoc.get? out key).getD .notSet = .notSet := by
        rw [hnew _ List.mem_cons_self key rfl, Option.getD_none]
      have hval := fillMetaValue_agrees val hwf.1
      rw [fillMetadata, fieldsReduced, convertMetadata]
      refine Agrees.bind (f := fun written => SortedAssoc.put out key written)
        (Agrees.within (s := out) hval hfresh _) fun written => ?_
      refine fillMetadata_agrees rest _ hrest hwf.2 ?_
      intro pair hmem other hother
      -- keys come in order, so a later one is another one
      have hne : other ≠ key := by
        intro heq
        have hlt := hhead pair hmem
        rw [hother, heq] at hlt
        exact lt_irrefl _ hlt
      rw [SortedAssoc.get?_put_of_ne out _ hne]
      exact hnew pair (List.mem_cons_of_mem _ hmem) other hother

theorem fillMetadatas_agrees : ∀ (maps : List (List (Key × Zval))) (value : List Metadata),
    Zmap.AllMapsWf maps →
    Agrees (fillMetadatas widetombcs reduce maps) value
      (convertMetadatas widetombcs (zmapsReduced reduce maps)) (fun tail => value ++ tail)
  | [], value, _ => ⟨[], rfl, by simp⟩
  | fields :: rest, value, hwf => by
      have hfields := fillMetadata_agrees fields [] hwf.1.1 hwf.1.2 fun _ _ _ _ => rfl
      rw [fillMetadatas, zmapsReduced, convertMetadatas]
      refine Agrees.bind (f := fun data => value ++ [data]) (Agrees.within hfields rfl _)
        fun data => ?_
      refine Agrees.map ?_
      simpa using fillMetadatas_agrees rest (value ++ [data]) hwf.2

theorem fillMetaValues_agrees : ∀ (vals : List Zval) (value : List MetaValue), Zval.AllWf vals →
    Agrees (fillMetaValues widetombcs reduce vals) value
      (convertMetaValues widetombcs (zvalsReduced reduce vals)) (fun tail => value ++ tail)
  | [], value, _ => ⟨[], rfl, by simp⟩
  | val :: rest, value, hwf => by
      rw [fillMetaValues, zvalsReduced, convertMetaValues]
      have hval := fillMetaValue_agrees val hwf.1
      refine Agrees.bind (f := fun out => value ++ [out]) (Agrees.within hval rfl _)
        fun out => ?_
      refine Agrees.map ?_
      simpa using fillMetaValues_agrees rest (value ++ [out]) hwf.2

end

/-- The machine truncates what fits an `int32`, as the language asks. -/
def Truncates (reduce : Number → Int32) : Prop := ∀ x n, Number.toInt32? x = some n → reduce x = n

theorem addTruncated_ok {T : Type} {number : T → Number} (htruncates : Truncates reduce)
    (xs : List T) (ys : List Int32) (hok : addTruncated number xs = .ok ys) :
    ys = xs.map fun x => reduce (number x) := by
  induction xs generalizing ys with
  | nil =>
      cases hok
      rfl
  | cons x rest ih =>
      rw [addTruncated] at hok
      split at hok
      next n hn =>
        obtain ⟨zs, hrest, rfl⟩ := bind_pure_ok (f := fun zs => n :: zs) hok
        rw [List.map_cons, htruncates _ _ hn, ← ih zs hrest]
      next => cases hok

mutual

/-- What the language gives a meaning to does not depend on the machine. -/
theorem convertMetaValue_reduced (htruncates : Truncates reduce) : ∀ (v : Zval) (val : MetaValue),
    convertMetaValue widetombcs v = .ok val →
      convertMetaValue widetombcs (reduced reduce v) = .ok val
  | .zmap fields, _, hok => by
      rw [convertMetaValue] at hok
      obtain ⟨data, hdata, rfl⟩ := bind_pure_ok (f := MetaValue.asMetadata) hok
      rw [reduced, convertMetaValue, convertMetadata_reduced htruncates fields [] data hdata]
      rfl
  | .arrayZmap maps, _, hok => by
      rw [convertMetaValue] at hok
      obtain ⟨value, hvalue, rfl⟩ := bind_pure_ok (f := MetaValue.asArrayMetadata) hok
      rw [reduced, convertMetaValue, convertMetadatas_reduced htruncates maps value hvalue]
      rfl
  | .arrayZval vals, _, hok => by
      rw [convertMetaValue] at hok
      obtain ⟨value, hvalue, rfl⟩ := bind_pure_ok (f := MetaValue.asArrayMetavalue) hok
      rw [reduced, convertMetaValue, convertMetaValues_reduced htruncates vals value hvalue]
      rfl
  | .arrayFloat xs, _, hok => by
      rw [convertMetaValue] at hok
      obtain ⟨ys, hys, rfl⟩ := bind_pure_ok (f := MetaValue.asArrayInt32) hok
      rw [reduced, convertMetaValue, addTruncated_ok reduce htruncates xs ys hys]
      simp [addValues]
  | .arrayDouble xs, _, hok => by
      rw [convertMetaValue] at hok
      obtain ⟨ys, hys, rfl⟩ := bind_pure_ok (f := MetaValue.asArrayInt32) hok
      rw [reduced, convertMetaValue, addTruncated_ok reduce htruncates xs ys hys]
      simp [addValues]
  | .char _, _, hok | .byte _, _, hok | .int16 _, _, hok | .word16 _, _, hok | .int32 _, _, hok
  | .word32 _, _, hok | .int64 _, _, hok | .word64 _, _, hok | .float _, _, hok
  | .double _, _, hok | .bool _, _, hok | .charstr _, _, hok | .widestr _, _, hok
  | .arrayChar _, _, hok | .arrayByte _, _, hok | .arrayInt16 _, _, hok | .arrayWord16 _, _, hok
  | .arrayInt32 _, _, hok | .arrayWord32 _, _, hok | .arrayInt64 _, _, hok
  | .arrayWord64 _, _, hok | .arrayCharstr _, _, hok | .arrayWidestr _, _, hok
  | .untyped, _, hok => hok

theorem convertMetadata_reduced (htruncates : Truncates reduce) :
    ∀ (fields : List (Key × Zval)) (out data : Metadata),
      convertMetadata widetombcs out fields = .ok data →
        convertMetadata widetombcs out (fieldsReduced reduce fields) = .ok data
  | [], _, _, hok => hok
  | (.word _, _) :: _, _, _, hok | (.widestr _, _) :: _, _, _, hok => hok
  | (.charstr key, val) :: rest, out, data, hok => by
      rw [convertMetadata] at hok
      rw [fieldsReduced, convertMetadata]
      cases hval : convertMetaValue widetombcs val with
      | error e =>
          rw [hval] at hok
          cases hok
      | ok written =>
          rw [hval] at hok
          rw [convertMetaValue_reduced htruncates val written hval]
          exact convertMetadata_reduced htruncates rest _ data hok

theorem convertMetadatas_reduced (htruncates : Truncates reduce) :
    ∀ (maps : List (List (Key × Zval))) (value : List Metadata),
      convertMetadatas widetombcs maps = .ok value →
        convertMetadatas widetombcs (zmapsReduced reduce maps) = .ok value
  | [], _, hok => hok
  | fields :: rest, _, hok => by
      rw [convertMetadatas] at hok
      obtain ⟨data, value, hdata, hrest, rfl⟩ := bind_cons_ok (f := id) hok
      rw [zmapsReduced, convertMetadatas, convertMetadata_reduced htruncates fields [] data hdata,
        convertMetadatas_reduced htruncates rest value hrest]
      rfl

theorem convertMetaValues_reduced (htruncates : Truncates reduce) :
    ∀ (vals : List Zval) (value : List MetaValue),
      convertMetaValues widetombcs vals = .ok value →
        convertMetaValues widetombcs (zvalsReduced reduce vals) = .ok value
  | [], _, hok => hok
  | val :: rest, _, hok => by
      rw [convertMetaValues] at hok
      obtain ⟨out, value, hval, hrest, rfl⟩ := bind_cons_ok (f := id) hok
      rw [zvalsReduced, convertMetaValues, convertMetaValue_reduced htruncates val out hval,
        convertMetaValues_reduced htruncates rest value hrest]
      rfl

end

/-- A map the conversion by value has a result for is written into a fresh message as that. -/
theorem fillMetadata_writes (htruncates : Truncates reduce) {m : Zmap} (hwf : m.Wf)
    {data : Metadata} (hok : convertMetadata widetombcs [] m = .ok data) :
    Ends (fillMetadata widetombcs reduce m) [] (fun _ out => out = data) (fun _ _ => False) := by
  have hreduced := convertMetadata_reduced widetombcs reduce htruncates m [] data hok
  have hagrees := fillMetadata_agrees widetombcs reduce m [] hwf.1 hwf.2 fun _ _ _ _ => rfl
  rw [hreduced] at hagrees
  refine hagrees.imp ?_ ?_
  · rintro _ out ⟨b, hb, rfl⟩
    exact (Except.ok.inj hb).symm
  · intro e _ he
    cases he

end Reduced

end Palmira.Grpc
