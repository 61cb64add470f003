import Palmira.Grpc.InPlace
import Palmira.Grpc.Meaning

/-!
# What cannot be carried

The encoder throws on exactly the maps that hold a key or a value it has no case
for, whatever the message held before, and never on a decoded message.
-/

namespace Palmira.Grpc

open Effects

/-! ## Parts of a value -/

/-- `Part v u`: the value `v` is somewhere in the tree of `u`. -/
inductive Part : Zval → Zval → Prop where
  | self (v : Zval) : Part v v
  | field {v val : Zval} {key : Key} {fields : List (Key × Zval)} (hmem : (key, val) ∈ fields)
      (hpart : Part v val) : Part v (.zmap fields)
  | map {v : Zval} {fields : List (Key × Zval)} {maps : List (List (Key × Zval))}
      (hmem : fields ∈ maps) (hpart : Part v (.zmap fields)) : Part v (.arrayZmap maps)
  | element {v val : Zval} {vals : List Zval} (hmem : val ∈ vals) (hpart : Part v val) :
      Part v (.arrayZval vals)

/-- A value of a type without a case, or a map with a key that is not a char string. -/
def CannotCarry : Zval → Prop
  | .untyped => True
  | .zmap fields => ∃ pair ∈ fields, ∀ s, pair.1 ≠ .charstr s
  | _ => False

/-- Something in the tree cannot be carried. -/
def Refused (v : Zval) : Prop := ∃ part, Part part v ∧ CannotCarry part

theorem fieldsConvertible_iff {fields : List (Key × Zval)} : FieldsConvertible fields ↔
    ∀ pair ∈ fields, (∃ s, pair.1 = .charstr s) ∧ Zval.Convertible pair.2 := by
  induction fields with
  | nil => simp [FieldsConvertible]
  | cons head rest ih =>
      obtain ⟨key, val⟩ := head
      simp only [FieldsConvertible, ih, List.forall_mem_cons, and_assoc]

theorem zmapsConvertible_iff {maps : List (List (Key × Zval))} : ZmapsConvertible maps ↔
    ∀ fields ∈ maps, FieldsConvertible fields := by
  induction maps with
  | nil => simp [ZmapsConvertible]
  | cons fields rest ih => simp only [ZmapsConvertible, ih, List.forall_mem_cons]

theorem zvalsConvertible_iff {vals : List Zval} : ZvalsConvertible vals ↔
    ∀ val ∈ vals, Zval.Convertible val := by
  induction vals with
  | nil => simp [ZvalsConvertible]
  | cons val rest ih => simp only [ZvalsConvertible, ih, List.forall_mem_cons]

theorem Part.convertible {part v : Zval} (hpart : Part part v) (hv : Zval.Convertible v) :
    Zval.Convertible part := by
  induction hpart with
  | self => exact hv
  | field hmem _ ih => exact ih (fieldsConvertible_iff.mp hv _ hmem).2
  | map hmem _ ih => exact ih (zmapsConvertible_iff.mp hv _ hmem)
  | element hmem _ ih => exact ih (zvalsConvertible_iff.mp hv _ hmem)

theorem not_cannotCarry {v : Zval} (hv : Zval.Convertible v) : ¬ CannotCarry v := by
  intro hcannot
  cases v with
  | untyped => exact hv
  | zmap fields =>
      obtain ⟨pair, hmem, hkey⟩ := hcannot
      obtain ⟨s, hs⟩ := (fieldsConvertible_iff.mp hv pair hmem).1
      exact hkey s hs
  | _ => exact hcannot

mutual

theorem convertible_of_parts : ∀ v : Zval, (∀ part, Part part v → ¬ CannotCarry part) →
    Zval.Convertible v
  | .untyped, hparts => absurd trivial (hparts _ (.self _))
  | .zmap fields, hparts => by
      refine fieldsConvertible_of_parts fields fun pair hmem => ⟨?_, ?_⟩
      · by_contra hkey
        exact hparts _ (.self _) ⟨pair, hmem, fun s hs => hkey ⟨s, hs⟩⟩
      · exact fun part hpart => hparts part (.field hmem hpart)
  | .arrayZmap maps, hparts => zmapsConvertible_of_parts maps
      fun _ hmem part hpart => hparts part (.map hmem hpart)
  | .arrayZval vals, hparts => zvalsConvertible_of_parts vals
      fun _ hmem part hpart => hparts part (.element hmem hpart)
  | .char _, _ | .byte _, _ | .int16 _, _ | .word16 _, _ | .int32 _, _ | .word32 _, _
  | .int64 _, _ | .word64 _, _ | .float _, _ | .double _, _ | .bool _, _ | .charstr _, _
  | .widestr _, _ | .arrayChar _, _ | .arrayByte _, _ | .arrayInt16 _, _ | .arrayWord16 _, _
  | .arrayInt32 _, _ | .arrayWord32 _, _ | .arrayInt64 _, _ | .arrayWord64 _, _
  | .arrayFloat _, _ | .arrayDouble _, _ | .arrayCharstr _, _ | .arrayWidestr _, _ => trivial

theorem fieldsConvertible_of_parts : ∀ fields : List (Key × Zval),
    (∀ pair ∈ fields, (∃ s, pair.1 = .charstr s) ∧
      ∀ part, Part part pair.2 → ¬ CannotCarry part) → FieldsConvertible fields
  | [], _ => trivial
  | (key, val) :: rest, hfields => by
      obtain ⟨hkey, hparts⟩ := hfields (key, val) List.mem_cons_self
      exact ⟨hkey, convertible_of_parts val hparts, fieldsConvertible_of_parts rest
        fun pair hmem => hfields pair (List.mem_cons_of_mem _ hmem)⟩

theorem zmapsConvertible_of_parts : ∀ maps : List (List (Key × Zval)),
    (∀ fields ∈ maps, ∀ part, Part part (.zmap fields) → ¬ CannotCarry part) →
      ZmapsConvertible maps
  | [], _ => trivial
  | fields :: rest, hmaps => by
      have hparts := hmaps fields List.mem_cons_self
      refine ⟨fieldsConvertible_of_parts fields fun pair hmem => ⟨?_, ?_⟩,
        zmapsConvertible_of_parts rest
          fun other hmem => hmaps other (List.mem_cons_of_mem _ hmem)⟩
      · by_contra hkey
        exact hparts _ (.self _) ⟨pair, hmem, fun s hs => hkey ⟨s, hs⟩⟩
      · exact fun part hpart => hparts part (.field hmem hpart)

theorem zvalsConvertible_of_parts : ∀ vals : List Zval,
    (∀ val ∈ vals, ∀ part, Part part val → ¬ CannotCarry part) → ZvalsConvertible vals
  | [], _ => trivial
  | val :: rest, hvals =>
      ⟨convertible_of_parts val (hvals val List.mem_cons_self), zvalsConvertible_of_parts rest
        fun other hmem => hvals other (List.mem_cons_of_mem _ hmem)⟩

end

theorem refused_iff (v : Zval) : Refused v ↔ ¬ Zval.Convertible v := by
  constructor
  · intro ⟨part, hpart, hcannot⟩ hv
    exact not_cannotCarry (hpart.convertible hv) hcannot
  · intro hv
    by_contra hnone
    exact hv (convertible_of_parts v fun part hpart hcannot => hnone ⟨part, hpart, hcannot⟩)

/-! ## When a conversion throws -/

/-- Whatever the message held, the call returns when `ok` holds, and else throws
`invalid_argument`. -/
def Passes {σ : Type} (call : Call Exn σ PUnit) (ok : Prop) : Prop :=
  ∀ s, Ends call s (fun _ _ => ok) (fun e _ => (∃ what, e = .invalidArgument what) ∧ ¬ ok)

namespace Passes

variable {σ τ : Type} {ok ok' : Prop}

theorem of_set {s' : σ} : Passes (set s' : Call Exn σ PUnit) True :=
  fun _ => (ends_set s').mpr trivial

theorem of_modify {f : σ → σ} : Passes (modify f : Call Exn σ PUnit) True :=
  fun _ => (ends_modify f).mpr trivial

theorem of_pure : Passes (pure ⟨⟩ : Call Exn σ PUnit) True := fun _ => (ends_pure _).mpr trivial

theorem of_throw (what : String) :
    Passes (throw (.invalidArgument what) : Call Exn σ PUnit) False :=
  fun _ => (ends_throw _).mpr ⟨⟨what, rfl⟩, id⟩

theorem within {call : Call Exn τ PUnit} (hcall : Passes call ok) (part : σ → τ)
    (put : σ → τ → σ) : Passes (Effects.within part put call) ok :=
  fun s => ends_within.mpr (hcall (part s))

theorem bind {call : Call Exn σ PUnit} {next : PUnit → Call Exn σ PUnit}
    (hcall : Passes call ok) (hnext : Passes (next ⟨⟩) ok') :
    Passes (call >>= next) (ok ∧ ok') := by
  intro s
  rw [ends_bind]
  refine (hcall s).imp ?_ fun e _ hbad => ⟨hbad.1, fun hboth => hbad.2 hboth.1⟩
  intro _ s' hok
  exact (hnext s').imp (fun _ _ hok' => ⟨hok, hok'⟩)
    fun e _ hbad => ⟨hbad.1, fun hboth => hbad.2 hboth.2⟩

theorem congr {call : Call Exn σ PUnit} (hcall : Passes call ok) (hiff : ok ↔ ok') :
    Passes call ok' := by
  rwa [← propext hiff]

theorem throws_iff {call : Call Exn σ PUnit} (hcall : Passes call ok) (s : σ) :
    (∃ what s', call.run.run s = (.error (.invalidArgument what), s')) ↔ ¬ ok := by
  have hends := hcall s
  unfold Ends at hends
  split at hends
  next a s' hrun =>
    rw [hrun]
    exact iff_of_false (fun ⟨_, _, heq⟩ => by cases heq) (not_not_intro hends)
  next e s' hrun =>
    obtain ⟨⟨what, rfl⟩, hok⟩ := hends
    exact iff_of_true ⟨what, s', hrun⟩ hok

theorem returns_iff {call : Call Exn σ PUnit} (hcall : Passes call ok) (s : σ) :
    (∃ s', call.run.run s = (.ok ⟨⟩, s')) ↔ ok := by
  have hends := hcall s
  unfold Ends at hends
  split at hends
  next a s' hrun => exact iff_of_true ⟨s', hrun⟩ hends
  next e s' hrun =>
    rw [hrun]
    exact iff_of_false (fun ⟨_, heq⟩ => by cases heq) hends.2

end Passes

section Encoder

variable (widetombcs : WideStr → String) (reduce : Number → Int32)

mutual

theorem fillMetaValue_passes : ∀ v : Zval,
    Passes (fillMetaValue widetombcs reduce v) (Zval.Convertible v)
  | .untyped => .of_throw "Unknown value type"
  | .zmap fields => (fillMetadata_passes fields).within _ _
  | .arrayZmap maps => (fillMetadatas_passes maps).within _ _
  | .arrayZval vals => (fillMetaValues_passes vals).within _ _
  | .char _ | .byte _ | .int16 _ | .word16 _ | .int32 _ | .word32 _ | .int64 _ | .word64 _
  | .float _ | .double _ | .bool _ | .charstr _ | .widestr _ => .of_set
  | .arrayChar _ | .arrayByte _ | .arrayInt16 _ | .arrayWord16 _ | .arrayInt32 _
  | .arrayWord32 _ | .arrayInt64 _ | .arrayWord64 _ | .arrayFloat _ | .arrayDouble _
  | .arrayCharstr _ | .arrayWidestr _ => .of_modify

theorem fillMetadata_passes : ∀ fields : List (Key × Zval),
    Passes (fillMetadata widetombcs reduce fields) (FieldsConvertible fields)
  | [] => .of_pure
  | (.charstr key, val) :: rest => by
      rw [fillMetadata]
      refine (((fillMetaValue_passes val).within _ _).bind (fillMetadata_passes rest)).congr ?_
      simp [FieldsConvertible]
  | (.word n, val) :: rest => by
      rw [fillMetadata]
      · exact (Passes.of_throw "Invalid value type").congr (by simp [FieldsConvertible])
      · simp
  | (.widestr s, val) :: rest => by
      rw [fillMetadata]
      · exact (Passes.of_throw "Invalid value type").congr (by simp [FieldsConvertible])
      · simp

theorem fillMetadatas_passes : ∀ maps : List (List (Key × Zval)),
    Passes (fillMetadatas widetombcs reduce maps) (ZmapsConvertible maps)
  | [] => .of_pure
  | fields :: rest => by
      rw [fillMetadatas]
      exact ((fillMetadata_passes fields).within _ _).bind (fillMetadatas_passes rest)

theorem fillMetaValues_passes : ∀ vals : List Zval,
    Passes (fillMetaValues widetombcs reduce vals) (ZvalsConvertible vals)
  | [] => .of_pure
  | val :: rest => by
      rw [fillMetaValues]
      exact ((fillMetaValue_passes val).within _ _).bind (fillMetaValues_passes rest)

end

end Encoder

/-! ## What the decoder writes -/

mutual

theorem convertZval_convertible : ∀ (val : MetaValue) (z : Zval), val.AllSet →
    convertZval val = .ok z → Zval.Convertible z
  | .notSet, _, hset, _ => hset.elim
  | .asBool _, _, _, hz | .asInt32 _, _, _, hz | .asInt64 _, _, _, hz | .asUint32 _, _, _, hz
  | .asUint64 _, _, _, hz | .asFloat _, _, _, hz | .asDouble _, _, _, hz | .asString _, _, _, hz
  | .asArrayInt32 _, _, _, hz | .asArrayInt64 _, _, _, hz | .asArrayUint32 _, _, _, hz
  | .asArrayUint64 _, _, _, hz | .asArrayFloat _, _, _, hz | .asArrayDouble _, _, _, hz
  | .asArrayString _, _, _, hz => by
      cases hz
      trivial
  | .asMetadata data, _, hset, hz => by
      obtain ⟨fields, hfields, rfl⟩ := convertZval_asMetadata_ok hset.1 hz
      exact convertFields_convertible data fields hset.2 hfields
  | .asArrayMetadata value, _, hset, hz => by
      obtain ⟨maps, hmaps, rfl⟩ := convertZval_asArrayMetadata_ok hz
      exact convertZmaps_convertible value maps hset hmaps
  | .asArrayMetavalue value, _, hset, hz => by
      obtain ⟨vals, hvals, rfl⟩ := convertZval_asArrayMetavalue_ok hz
      exact convertZvals_convertible value vals hset hvals

theorem convertFields_convertible : ∀ (data : List (String × MetaValue))
    (fields : List (Key × Zval)), DataSet data → convertFields data = .ok fields →
      FieldsConvertible fields
  | [], _, _, hfields => by
      cases hfields
      trivial
  | (key, val) :: rest, _, hset, hfields => by
      obtain ⟨z, fields, hz, hrest, rfl⟩ := convertFields_cons_ok hfields
      exact ⟨⟨key, rfl⟩, convertZval_convertible val z hset.1 hz,
        convertFields_convertible rest fields hset.2 hrest⟩

theorem convertZmaps_convertible : ∀ (value : List (List (String × MetaValue)))
    (maps : List (List (Key × Zval))), MetadataSet value → convertZmaps value = .ok maps →
      ZmapsConvertible maps
  | [], _, _, hmaps => by
      cases hmaps
      trivial
  | data :: rest, _, hset, hmaps => by
      obtain ⟨fields, maps, hfields, hrest, rfl⟩ := convertZmaps_cons_ok hset.1.1 hmaps
      exact ⟨convertFields_convertible data fields hset.1.2 hfields,
        convertZmaps_convertible rest maps hset.2 hrest⟩

theorem convertZvals_convertible : ∀ (value : List MetaValue) (vals : List Zval),
    MetaValuesSet value → convertZvals value = .ok vals → ZvalsConvertible vals
  | [], _, _, hvals => by
      cases hvals
      trivial
  | val :: rest, _, hset, hvals => by
      obtain ⟨z, vals, hz, hrest, rfl⟩ := convertZvals_cons_ok hvals
      exact ⟨convertZval_convertible val z hset.1 hz,
        convertZvals_convertible rest vals hset.2 hrest⟩

end

/-- A complete message decodes, and what it decodes to is not refused. -/
theorem convertZval_not_refused (val : MetaValue) (hset : val.AllSet) :
    ∃ z, convertZval val = .ok z ∧ ¬ Refused z := by
  obtain ⟨z, hz, -⟩ := convertZval_meaning (fun _ => "") val hset
  refine ⟨z, hz, ?_⟩
  rw [refused_iff, not_not]
  exact convertZval_convertible val z hset hz

theorem convertZmap_not_refused (data : Metadata) (hset : (MetaValue.asMetadata data).AllSet) :
    ∃ m, convertZmap [] data = .ok m ∧ ¬ Refused (.zmap m) := by
  obtain ⟨z, hz, hcarried⟩ := convertZval_not_refused (.asMetadata data) hset
  rw [convertZval] at hz
  obtain ⟨m, hm, rfl⟩ := bind_pure_ok (f := Zval.zmap) hz
  exact ⟨m, hm, hcarried⟩

/-- The encoder throws `invalid_argument` on exactly the maps that hold something it cannot carry,
whatever message it writes into, and returns on the others; on a decoded message it returns. -/
theorem fillMetadata_throws_iff_refused (widetombcs : WideStr → String) (reduce : Number → Int32) :
    (∀ (m : Zmap) (out : Metadata),
      ((∃ what out', (fillMetadata widetombcs reduce m).run.run out =
        (.error (.invalidArgument what), out')) ↔ Refused (.zmap m)) ∧
      ((∃ out', (fillMetadata widetombcs reduce m).run.run out = (.ok ⟨⟩, out')) ↔
        ¬ Refused (.zmap m))) ∧
    (∀ val : MetaValue, val.AllSet → ∃ z, convertZval val = .ok z ∧
      ∀ out, ∃ out', (fillMetaValue widetombcs reduce z).run.run out = (.ok ⟨⟩, out')) ∧
    (∀ data : Metadata, (MetaValue.asMetadata data).AllSet → ∃ m, convertZmap [] data = .ok m ∧
      ∀ out, ∃ out', (fillMetadata widetombcs reduce m).run.run out = (.ok ⟨⟩, out')) := by
  refine ⟨?_, ?_, ?_⟩
  · intro m out
    have hpasses := fillMetadata_passes widetombcs reduce m
    rw [hpasses.throws_iff out, hpasses.returns_iff out, refused_iff, Zval.Convertible, not_not]
    exact ⟨Iff.rfl, Iff.rfl⟩
  · intro val hset
    obtain ⟨z, hz, hcarried⟩ := convertZval_not_refused val hset
    rw [refused_iff, not_not] at hcarried
    have hpasses := fillMetaValue_passes widetombcs reduce z
    exact ⟨z, hz, fun out => (hpasses.returns_iff out).mpr hcarried⟩
  · intro data hset
    obtain ⟨m, hm, hcarried⟩ := convertZmap_not_refused data hset
    rw [refused_iff, not_not] at hcarried
    have hpasses := fillMetadata_passes widetombcs reduce m
    exact ⟨m, hm, fun out => (hpasses.returns_iff out).mpr hcarried⟩

theorem fillMetadata_throws_iff_refused_mixed :
    Refused (.zmap [(.charstr "a", .arrayZval [.word64 7, .untyped])]) ∧
    ¬ Refused (.zmap [(.charstr "a", .arrayZval [.word64 7])]) ∧
    ∃ m, convertZmap [] [("a", .asArrayMetavalue [.asUint64 7])] = .ok m ∧
      ∀ out, ∃ out', (fillMetadata (fun _ => "") (fun _ => 0) m).run.run out =
        (.ok ⟨⟩, out') := by
  obtain ⟨hmaps, -, hdata⟩ := fillMetadata_throws_iff_refused (fun _ => "") (fun _ => 0)
  exact ⟨(hmaps [(.charstr "a", .arrayZval [.word64 7, .untyped])] []).1.mp ⟨_, _, rfl⟩,
    (hmaps [(.charstr "a", .arrayZval [.word64 7])] []).2.mp ⟨_, rfl⟩,
    hdata [("a", .asArrayMetavalue [.asUint64 7])]
      ⟨List.pairwise_singleton _ _, ⟨trivial, trivial⟩, trivial⟩⟩

end Palmira.Grpc
