import Palmira.Http.Wire

/-!
# Arguments with a condition

`TimingArgs`, `AccessArgs` and `RemoveArgs` as they are constructed from a map, and
the map the client makes of them. The client writes the clause under "if_clause" and
no version; the constructor looks for "claim", takes what stands under "condition",
and reads "version".
-/

namespace Palmira.Http

variable {β T : Type}

/-! ## The constructors -/

/-- `get_double( key, absent )`; as the other getters it answers a value of its type only. -/
def getDouble (m : Zmap) (key : String) (absent : Binary64) : Binary64 :=
  match m.get key with
  | some (.double x) => x
  | _ => absent

/-- `get_word64( key, absent )` -/
def getWord64 (m : Zmap) (key : String) (absent : UInt64) : UInt64 :=
  match m.get key with
  | some (.word64 x) => x
  | _ => absent

/-- `TimingArgs::TimingArgs( const mtc::zmap& args )`; the default is `-1.0`. -/
def TimingArgs.ofZmap (args : Zmap) : TimingArgs where
  fTimeout := getDouble args "timeout" ⟨0xBFF0000000000000⟩

/-- `AccessArgs::AccessArgs( const mtc::zmap& args )` -/
def AccessArgs.ofZmap (args : Zmap) : Except Exn AccessArgs :=
  let objectId := (args.getCharstr "id").getD ""
  if objectId = "" then .error (.invalidArgument "absent object 'id'")
  else .ok { toTimingArgs := .ofZmap args, objectId }

/-- `RemoveArgs::RemoveArgs( const mtc::zmap& args )` -/
def RemoveArgs.ofZmap (args : Zmap) : Except Exn RemoveArgs :=
  match AccessArgs.ofZmap args with
  | .error thrown => .error thrown
  | .ok access =>
      let made : RemoveArgs := { toAccessArgs := access, uVersion := getWord64 args "version" 0 }
      -- if ( args.get( "claim" ) != nullptr )
      if (args.get "claim").isSome then
        match args.get "condition" with
        | some clause => .ok { made with ifClause := clause }
        | none => .error (.undefined "the value of the absent key 'condition'")
      else .ok made

theorem AccessArgs.ofZmap_of_id {args : Zmap} {id : String} (hid : args.getCharstr "id" = some id)
    (hne : id ≠ "") :
    AccessArgs.ofZmap args = .ok { toTimingArgs := .ofZmap args, objectId := id } := by
  rw [AccessArgs.ofZmap, hid, Option.getD_some, if_neg hne]

section OfZmap

variable {args : Zmap} {id : String} (hid : args.getCharstr "id" = some id) (hne : id ≠ "")

include hid hne

/-- Without "claim" there is no clause. -/
theorem RemoveArgs.ofZmap_of_no_claim (hclaim : args.get "claim" = none) :
    RemoveArgs.ofZmap args = .ok
      { toTimingArgs := .ofZmap args, objectId := id, uVersion := getWord64 args "version" 0 } := by
  rw [RemoveArgs.ofZmap, AccessArgs.ofZmap_of_id hid hne]
  simp only [hclaim, Option.isSome_none, Bool.false_eq_true, if_false]

/-- With "claim" the clause is what stands under "condition". -/
theorem RemoveArgs.ofZmap_of_claim {claim : Zval} (hclaim : args.get "claim" = some claim) :
    RemoveArgs.ofZmap args =
      match args.get "condition" with
      | some clause => .ok
          { toTimingArgs := .ofZmap args, objectId := id, uVersion := getWord64 args "version" 0,
            ifClause := clause }
      | none => .error (.undefined "the value of the absent key 'condition'") := by
  rw [RemoveArgs.ofZmap, AccessArgs.ofZmap_of_id hid hne]
  simp only [hclaim, Option.isSome_some, if_true]

end OfZmap

/-! ## From the client's map -/

section Survives

variable (f : Formats β T)

/-- The arguments constructed from the client's map are the client's. -/
def RemoveArgs.SurvivesZmap (args : RemoveArgs) : Prop :=
  ∃ got, RemoveArgs.ofZmap (args.makeContents f []) = .ok got ∧ got.objectId = args.objectId ∧
    got.uVersion = args.uVersion ∧ got.ifClause = args.ifClause ∧
    (args.fTimeout.number.isNonneg = true → got.fTimeout = args.fTimeout)

variable {f}

theorem RemoveArgs.getCharstr_makeContents (args : RemoveArgs) (zmap : Zmap) :
    (args.makeContents f zmap).getCharstr "id" = some args.objectId := by
  rw [RemoveArgs.makeContents, Zmap.getCharstr, AccessArgs.get_makeContents_id]

theorem RemoveArgs.get_makeContents_nil (args : RemoveArgs) {key : String} (hid : key ≠ "id")
    (htimeout : key ≠ "timeout") (hclause : key ≠ "if_clause") :
    (args.makeContents f []).get key = none := by
  rw [RemoveArgs.get_makeContents f args [] hid htimeout hclause, Zmap.get_nil]

/-- A timeout that is not negative is written as it is. -/
theorem RemoveArgs.ofZmap_fTimeout (args : RemoveArgs) (zmap : Zmap)
    (hnonneg : args.fTimeout.number.isNonneg = true) :
    (TimingArgs.ofZmap (args.makeContents f zmap)).fTimeout = args.fTimeout := by
  rw [TimingArgs.ofZmap, RemoveArgs.makeContents, AccessArgs.makeContents, TimingArgs.makeContents,
    if_pos hnonneg, getDouble, Zmap.get_put_self]

/-- The constructor finds the identifier and the timeout in the client's map, and nothing else. -/
theorem RemoveArgs.ofZmap_makeContents {args : RemoveArgs} (hid : args.objectId ≠ "") :
    RemoveArgs.ofZmap (args.makeContents f []) = .ok
      { toTimingArgs := .ofZmap (args.makeContents f []), objectId := args.objectId } := by
  have hclaim : (args.makeContents f []).get "claim" = none :=
    args.get_makeContents_nil (by decide) (by decide) (by decide)
  have hversion : (args.makeContents f []).get "version" = none :=
    args.get_makeContents_nil (by decide) (by decide) (by decide)
  rw [RemoveArgs.ofZmap_of_no_claim (args.getCharstr_makeContents []) hid hclaim, getWord64,
    hversion]

theorem RemoveArgs.survivesZmap_iff {args : RemoveArgs} (hid : args.objectId ≠ "") :
    args.SurvivesZmap f ↔ args.uVersion = 0 ∧ args.ifClause = .untyped := by
  unfold RemoveArgs.SurvivesZmap
  rw [RemoveArgs.ofZmap_makeContents hid]
  constructor
  · rintro ⟨got, hgot, -, hversion, hclause, -⟩
    cases hgot
    exact ⟨hversion.symm, hclause.symm⟩
  · rintro ⟨hversion, hclause⟩
    exact ⟨_, rfl, rfl, hversion.symm, hclause.symm, args.ofZmap_fTimeout []⟩

end Survives

/-! ## From any map -/

/-- The constructor dereferences nothing absent and takes what stands under "condition". -/
def TakesCondition (zmap : Zmap) : Prop :=
  ∃ got, RemoveArgs.ofZmap zmap = .ok got ∧ ∀ clause, zmap.get "condition" = some clause →
    got.ifClause = clause

/-- "claim" stands with "condition" and only with it; a condition without a type is as good as
none. -/
def ClaimsCondition (zmap : Zmap) : Prop :=
  ((zmap.get "claim").isSome = true → (zmap.get "condition").isSome = true) ∧
    ∀ clause, zmap.get "condition" = some clause →
      (zmap.get "claim").isSome = true ∨ clause = .untyped

theorem takesCondition_iff {zmap : Zmap} {id : String} (hid : zmap.getCharstr "id" = some id)
    (hne : id ≠ "") : TakesCondition zmap ↔ ClaimsCondition zmap := by
  unfold TakesCondition ClaimsCondition
  cases hclaim : zmap.get "claim" with
  | none =>
      rw [RemoveArgs.ofZmap_of_no_claim hid hne hclaim]
      simp only [Except.ok.injEq, exists_eq_left', Option.isSome_none, Bool.false_eq_true,
        false_implies, true_and, false_or]
      exact forall₂_congr fun clause _ => eq_comm
  | some claim =>
      rw [RemoveArgs.ofZmap_of_claim hid hne hclaim]
      cases hcondition : zmap.get "condition" with
      | none => simp
      | some clause => simp

/-- Arguments come through the client's map exactly when they have no version and no clause; and
the constructor takes the condition of a map exactly when "claim" stands beside it. -/
theorem conditional_iff (f : Formats β T) :
    (∀ args : RemoveArgs, args.objectId ≠ "" →
      (args.SurvivesZmap f ↔ args.uVersion = 0 ∧ args.ifClause = .untyped)) ∧
    ∀ (zmap : Zmap) (id : String), zmap.getCharstr "id" = some id → id ≠ "" →
      (TakesCondition zmap ↔ ClaimsCondition zmap) :=
  ⟨fun _ hid => RemoveArgs.survivesZmap_iff hid, fun _ _ hid hne => takesCondition_iff hid hne⟩

theorem conditional_iff_plain :
    RemoveArgs.SurvivesZmap wholeFormats { objectId := "a" } ∧
      TakesCondition (Zmap.put [] "id" (.charstr "a")) :=
  ⟨((conditional_iff wholeFormats).1 _ (by decide)).mpr ⟨rfl, rfl⟩,
    ((conditional_iff wholeFormats).2 _ "a" rfl (by decide)).mpr ⟨nofun, nofun⟩⟩

/-- A version is lost on the way; a claim without a condition is dereferenced. -/
theorem version_lost_and_claim_dereferenced :
    (¬ ∀ args : RemoveArgs, args.objectId ≠ "" → args.SurvivesZmap wholeFormats) ∧
      ¬ ∀ (zmap : Zmap) (id : String), zmap.getCharstr "id" = some id → id ≠ "" →
        TakesCondition zmap := by
  constructor
  · intro hall
    obtain ⟨got, hgot, -, hversion, -⟩ := hall { objectId := "a", uVersion := 1 } (by decide)
    rw [RemoveArgs.ofZmap_makeContents (by decide)] at hgot
    cases hgot
    exact absurd hversion (by decide)
  · intro hall
    obtain ⟨got, hgot, -⟩ := hall
      (Zmap.put (Zmap.put [] "id" (.charstr "a")) "claim" (.bool true)) "a" rfl (by decide)
    cases hgot

end Palmira.Http
