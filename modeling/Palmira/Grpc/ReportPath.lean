import Palmira.Grpc.RoundTrip

/-!
# Received metadata in the report

Metadata of an insert request is stored as a `zmap` and written back into the
`UpdateReport`. Five cases of the `oneof` have no way back: the encoder writes the
type they are stored under into another field.
-/

namespace Palmira.Grpc

mutual

/-- No value of the tree is in a case the encoder writes into another field. -/
def MetaValue.Kept : MetaValue → Prop
  | .asUint64 _ => False
  | .asArrayInt64 _ => False
  | .asArrayUint64 _ => False
  | .asArrayFloat _ => False
  | .asArrayDouble _ => False
  | .asMetadata data => DataKept data
  | .asArrayMetadata value => MetadataKept value
  | .asArrayMetavalue value => MetaValuesKept value
  | _ => True

def DataKept : List (String × MetaValue) → Prop
  | [] => True
  | (_, val) :: rest => val.Kept ∧ DataKept rest

def MetadataKept : List (List (String × MetaValue)) → Prop
  | [] => True
  | data :: rest => DataKept data ∧ MetadataKept rest

def MetaValuesKept : List MetaValue → Prop
  | [] => True
  | val :: rest => val.Kept ∧ MetaValuesKept rest

end

/-- Decoded fields have the keys of the message, so they are in key order. -/
theorem convertFields_sameKeys (data : List (String × MetaValue)) (fields : List (Key × Zval))
    (hconv : convertFields data = .ok fields) : SameKeys fields data := by
  induction data generalizing fields with
  | nil => cases hconv; rfl
  | cons head rest ih =>
      obtain ⟨key, val⟩ := head
      obtain ⟨z, fields', _, hrest, rfl⟩ := convertFields_cons_ok hconv
      simpa [SameKeys] using ih fields' hrest

theorem convertFields_sorted {data : List (String × MetaValue)} {fields : List (Key × Zval)}
    (hconv : convertFields data = .ok fields) (hsorted : SortedAssoc.Sorted data) :
    SortedAssoc.Sorted fields := by
  have hkeys := convertFields_sameKeys data fields hconv
  have hdata : (data.map (fun pair => Key.charstr pair.1)).Pairwise (· < ·) :=
    List.pairwise_map.mpr (hsorted.imp (fun h => Key.charstr_lt_charstr.mpr h))
  rw [← hkeys] at hdata
  exact List.pairwise_map.mp hdata

section Store

variable (widetombcs : WideStr → String)

mutual

theorem convertMetaValue_convertZval_iff : ∀ (val : MetaValue) (z : Zval), val.AllSet →
    convertZval val = .ok z → (convertMetaValue widetombcs z = .ok val ↔ val.Kept)
  | .notSet, _, hset, _ => hset.elim
  | .asBool _, _, _, hz | .asInt32 _, _, _, hz | .asInt64 _, _, _, hz | .asUint32 _, _, _, hz
  | .asFloat _, _, _, hz | .asDouble _, _, _, hz | .asString _, _, _, hz => by
      cases hz
      simp [convertMetaValue, MetaValue.Kept]
  | .asArrayInt32 _, _, _, hz | .asArrayUint32 _, _, _, hz | .asArrayString _, _, _, hz => by
      cases hz
      simp [convertMetaValue, MetaValue.Kept, addValues]
  | .asUint64 _, _, _, hz | .asArrayInt64 _, _, _, hz | .asArrayUint64 _, _, _, hz => by
      cases hz
      simp [convertMetaValue, MetaValue.Kept]
  | .asArrayFloat _, _, _, hz | .asArrayDouble _, _, _, hz => by
      cases hz
      refine iff_of_false ?_ id
      intro hback
      obtain ⟨_, _, hcase⟩ := bind_pure_ok (f := MetaValue.asArrayInt32) hback
      cases hcase
  | .asMetadata data, z, hset, hz => by
      obtain ⟨fields, hfields, rfl⟩ := convertZval_asMetadata_ok hset.1 hz
      rw [convertMetaValue, convertMetadata_nil widetombcs fields
        (convertFields_sorted hfields hset.1), bind_pure_eq_ok (f := MetaValue.asMetadata)
        (fun _ _ h => MetaValue.asMetadata.inj h), MetaValue.Kept]
      exact convertPairs_convertFields_iff data fields hset.2 hfields
  | .asArrayMetadata value, z, hset, hz => by
      obtain ⟨maps, hmaps, rfl⟩ := convertZval_asArrayMetadata_ok hz
      rw [convertMetaValue, bind_pure_eq_ok (f := MetaValue.asArrayMetadata)
        (fun _ _ h => MetaValue.asArrayMetadata.inj h), MetaValue.Kept]
      exact convertMetadatas_convertZmaps_iff value maps hset hmaps
  | .asArrayMetavalue value, z, hset, hz => by
      obtain ⟨vals, hvals, rfl⟩ := convertZval_asArrayMetavalue_ok hz
      rw [convertMetaValue, bind_pure_eq_ok (f := MetaValue.asArrayMetavalue)
        (fun _ _ h => MetaValue.asArrayMetavalue.inj h), MetaValue.Kept]
      exact convertMetaValues_convertZvals_iff value vals hset hvals

theorem convertPairs_convertFields_iff : ∀ (data : List (String × MetaValue))
    (fields : List (Key × Zval)), DataSet data → convertFields data = .ok fields →
    (convertPairs widetombcs fields = .ok data ↔ DataKept data)
  | [], _, _, hfields => by
      cases hfields
      simp [convertPairs, DataKept]
  | (key, val) :: rest, _, hset, hfields => by
      obtain ⟨z, fields, hz, hrest, rfl⟩ := convertFields_cons_ok hfields
      rw [convertPairs, bind_cons_eq_ok (f := fun w => (key, w))
        (fun _ _ h => (Prod.mk.inj h).2), DataKept]
      exact and_congr (convertMetaValue_convertZval_iff val z hset.1 hz)
        (convertPairs_convertFields_iff rest fields hset.2 hrest)

theorem convertMetadatas_convertZmaps_iff : ∀ (value : List (List (String × MetaValue)))
    (maps : List (List (Key × Zval))), MetadataSet value → convertZmaps value = .ok maps →
    (convertMetadatas widetombcs maps = .ok value ↔ MetadataKept value)
  | [], _, _, hmaps => by
      cases hmaps
      simp [convertMetadatas, MetadataKept]
  | data :: rest, _, hset, hmaps => by
      obtain ⟨fields, maps, hfields, hrest, rfl⟩ := convertZmaps_cons_ok hset.1.1 hmaps
      rw [convertMetadatas, convertMetadata_nil widetombcs fields
        (convertFields_sorted hfields hset.1.1), MetadataKept]
      refine (bind_cons_eq_ok (f := id) Function.injective_id).trans ?_
      exact and_congr (convertPairs_convertFields_iff data fields hset.1.2 hfields)
        (convertMetadatas_convertZmaps_iff rest maps hset.2 hrest)

theorem convertMetaValues_convertZvals_iff : ∀ (value : List MetaValue) (vals : List Zval),
    MetaValuesSet value → convertZvals value = .ok vals →
    (convertMetaValues widetombcs vals = .ok value ↔ MetaValuesKept value)
  | [], _, _, hvals => by
      cases hvals
      simp [convertMetaValues, MetaValuesKept]
  | val :: rest, _, hset, hvals => by
      obtain ⟨z, vals, hz, hrest, rfl⟩ := convertZvals_cons_ok hvals
      rw [convertMetaValues, MetaValuesKept]
      refine (bind_cons_eq_ok (f := id) Function.injective_id).trans ?_
      exact and_congr (convertMetaValue_convertZval_iff val z hset.1 hz)
        (convertMetaValues_convertZvals_iff rest vals hset.2 hrest)

end

/-- A received value, stored as a `zval` and written back. -/
def throughStore (val : MetaValue) : Except Exn MetaValue := do
  convertMetaValue widetombcs (← convertZval val)

/-- A received tree comes back under the same cases and with the same contents exactly when it
holds no `as_uint64`, `as_array_int64`, `as_array_uint64`, `as_array_float` or `as_array_double`. -/
theorem throughStore_eq_iff (val : MetaValue) (hset : val.AllSet) :
    throughStore widetombcs val = .ok val ↔ val.Kept := by
  obtain ⟨z, hz, _⟩ := convertZval_meaning widetombcs val hset
  rw [← convertMetaValue_convertZval_iff widetombcs val z hset hz, throughStore, hz]
  rfl

theorem throughStore_eq_iff_int64 :
    throughStore (fun _ => "") (.asMetadata [("size", .asInt64 0x100000000)]) =
      .ok (.asMetadata [("size", .asInt64 0x100000000)]) :=
  (throughStore_eq_iff (fun _ => "") (.asMetadata [("size", .asInt64 0x100000000)])
    ⟨List.pairwise_singleton _ _, trivial, trivial⟩).mpr ⟨trivial, trivial⟩

/-- An unsigned 64-bit value changes its case even when it is small. -/
theorem throughStore_uint64_changes_case :
    MetaValue.AllSet (.asUint64 5) ∧ throughStore (fun _ => "") (.asUint64 5) = .ok (.asUint32 5) ∧
      throughStore (fun _ => "") (.asUint64 5) ≠ .ok (.asUint64 5) := by
  refine ⟨trivial, rfl, ?_⟩
  intro heq
  have hcase : MetaValue.asUint32 5 = .asUint64 5 := Except.ok.inj heq
  cases hcase

end Store

end Palmira.Grpc
