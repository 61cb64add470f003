import Mathlib.Data.Set.Basic
import Palmira.Service.Store

/-!
# The field table

Packing a document may add fields to the table in memory, and the documents stored
name fields by their numbers. A commit writes the table into the index when anything
was changed since the last one, so that a service started over that index later
knows every field its documents use. `N` is the type of field numbers.
-/

namespace Palmira.Service

open Effects Http

variable {β T B F C N : Type}

/-- The field numbers of a table, of packed formats and of contents. -/
structure FieldUse (F C N : Type) where
  numbers : F → Set N
  inFormats : List Int8 → Set N
  inContents : C → Set N

/-- The table has lost no field. -/
def FieldUse.Extends (use : FieldUse F C N) (before after : F) : Prop :=
  use.numbers before ⊆ use.numbers after

/-- Packing never takes a field out of the table, also when it fails, and what it makes uses fields
of the table; a joined table has the fields of the first one. -/
structure FieldUse.Sound (use : FieldUse F C N) (lib : Structo β T B F C) : Prop where
  packFormats : ∀ body fieldMan, Ends (lib.packFormats body) fieldMan
    (fun formats after => use.Extends fieldMan after ∧
      use.inFormats formats ⊆ use.numbers after)
    (fun _ => use.Extends fieldMan)
  contents : ∀ body fieldMan, Ends (lib.contents body) fieldMan
    (fun contents after => use.Extends fieldMan after ∧
      use.inContents contents ⊆ use.numbers after)
    (fun _ => use.Extends fieldMan)
  joinFields : ∀ fields other, use.Extends fields (lib.joinFields fields other)

variable (lib : Structo β T B F C) (use : FieldUse F C N)

/-- The field numbers a bundle uses: `Search` reads its formats under "ft". -/
def inBundle (bundle : List β) : Set N :=
  match (lib.fetchFrom bundle).get "ft" with
  | some (.arrayChar formats) => use.inFormats formats
  | _ => ∅

def inEntity (entity : Entity β C) : Set N :=
  inBundle lib use entity.bundle ∪ use.inContents entity.contents

/-- The field numbers used by the documents stored so far; nothing before the first one. -/
def trackFields (op : Operation T) (answer : Zmap) (s : StructoSearch β F C)
    (used : Option (Set N)) : Option (Set N) :=
  match op with
  | .insert args =>
      if succeeded answer = true then
        match s.ctxIndex args.objectId with
        | some entity => some (used.getD ∅ ∪ inEntity lib use entity)
        | none => used
      else used
  | _ => used

/-- The documents of the index use these fields only. -/
def UsesOnly (ctxIndex : ContentsIndex β C) (used : Set N) : Prop :=
  ∀ id entity, id ≠ indexMappings → ctxIndex id = some entity → inEntity lib use entity ⊆ used

/-- The index has a record that can be decoded, with a table of all these fields. -/
def Recorded (ctxIndex : ContentsIndex β C) (used : Set N) : Prop :=
  ∃ extras indata, (ctxIndex indexMappings).bind lib.getExtra = some extras ∧
    lib.fetchMaps extras = some indata ∧ used ⊆ use.numbers (lib.loadFields indata)

/-- The same of the service started over the index, whatever fields it is configured with. -/
def StartsWith (ctxIndex : ContentsIndex β C) (used : Set N) : Prop :=
  ∀ fm, ∃ s, lib.create ctxIndex fm = .ok s ∧ used ⊆ use.numbers s.fieldMan

variable {lib} {use} {s : StructoSearch β F C} {used : Set N}

theorem Recorded.startsWith (huse : use.Sound lib) {ctxIndex : ContentsIndex β C}
    (hrecorded : Recorded lib use ctxIndex used) : StartsWith lib use ctxIndex used := by
  obtain ⟨extras, indata, hextras, hindata, hused⟩ := hrecorded
  intro fm
  refine ⟨⟨ctxIndex, lib.joinFields (lib.loadFields indata) fm, false⟩, ?_, ?_⟩
  · simp only [Structo.create, hextras, hindata]
  · exact hused.trans (huse.joinFields (lib.loadFields indata) fm)

theorem create_ctxIndex {ctxIndex : ContentsIndex β C} {fm : F}
    (hcreate : lib.create ctxIndex fm = .ok s) : s.ctxIndex = ctxIndex := by
  unfold Structo.create at hcreate
  split at hcreate
  · split at hcreate
    · cases hcreate
      rfl
    · cases hcreate
  · cases hcreate
    rfl

/-! ## Packing -/

theorem inBundle_serialize (hlib : lib.Lawful) (quoter : Zmap) {formats : List Int8}
    (hformats : quoter.get "ft" = some (.arrayChar formats)) :
    inBundle lib use (lib.serialize quoter) = use.inFormats formats := by
  simp only [inBundle, hlib.fetchFrom_serialize, hformats]

theorem ends_pack (hlib : lib.Lawful) (huse : use.Sound lib) (body : B) (fieldMan : F) :
    Ends (lib.pack body) fieldMan
      (fun parts after => use.Extends fieldMan after ∧
        inBundle lib use parts.1 ∪ use.inContents parts.2 ⊆ use.numbers after)
      (fun _ => use.Extends fieldMan) := by
  unfold Structo.pack
  rw [ends_bind]
  apply (huse.packFormats body fieldMan).imp
  · intro formats fieldMan₁ ⟨hgrown₁, hformats⟩
    rw [ends_bind]
    apply (huse.contents body fieldMan₁).imp
    · intro contents fieldMan₂ ⟨hgrown₂, hcontents⟩
      refine ⟨hgrown₁.trans hgrown₂, Set.union_subset ?_ hcontents⟩
      apply Set.Subset.trans (le_of_eq (inBundle_serialize hlib _ ?_)) (hformats.trans hgrown₂)
      split
      next packed _ => simp
      next => simp
    · exact fun _ after hgrown₂ => hgrown₁.trans hgrown₂
  · exact fun _ _ hgrown₁ => hgrown₁

/-! ## The table over a session -/

section Invariant

variable {s' : StructoSearch β F C} {seen : Option (Set N)}

/-- The table has the fields of every stored document, and so has the record, unless a commit is
going to write it. -/
def Covers (lib : Structo β T B F C) (use : FieldUse F C N) (s : StructoSearch β F C)
    (seen : Option (Set N)) : Prop :=
  ∀ used, seen = some used → used ⊆ use.numbers s.fieldMan ∧
    (s.modified = true ∨ Recorded lib use s.ctxIndex used)

theorem covers_create (huse : use.Sound lib) {ctxIndex : ContentsIndex β C} {fm : F}
    (hcreate : lib.create ctxIndex fm = .ok s)
    (hrecorded : ∀ used, seen = some used → Recorded lib use ctxIndex used) :
    Covers lib use s seen := by
  intro used hused
  have hindex := hrecorded used hused
  obtain ⟨s₁, hcreate₁, hin⟩ := hindex.startsWith huse fm
  obtain rfl : s = s₁ := Except.ok.inj (hcreate.symm.trans hcreate₁)
  rw [← create_ctxIndex hcreate] at hindex
  exact ⟨hin, .inr hindex⟩

theorem Covers.getD_subset (hinv : Covers lib use s seen) :
    seen.getD ∅ ⊆ use.numbers s.fieldMan := by
  cases seen with
  | none => exact Set.empty_subset _
  | some used => exact (hinv used rfl).1

theorem Covers.of_left (hinv : Covers lib use s seen)
    (hleft : Structo.Left s (use.Extends s.fieldMan) s') :
    Covers lib use s' seen := by
  obtain ⟨fieldMan, hgrown, rfl⟩ := hleft
  intro used hused
  obtain ⟨hin, hsaved⟩ := hinv used hused
  exact ⟨hin.trans hgrown, hsaved⟩

/-- A change of the index leaves the record to the next commit. -/
theorem Covers.of_modified (hinv : Covers lib use s seen) {fieldMan : F}
    (hgrown : use.Extends s.fieldMan fieldMan) (ctxIndex : ContentsIndex β C) :
    Covers lib use ⟨ctxIndex, fieldMan, true⟩ seen :=
  fun used hused => ⟨(hinv used hused).1.trans hgrown, .inl rfl⟩

theorem covers_commit (hlib : lib.Lawful) (hinv : Covers lib use s seen) :
    Ends lib.commit s
      (fun _ s' => Covers lib use s' seen ∧
        ∀ used, seen = some used → Recorded lib use s'.ctxIndex used)
      (fun _ s' => Covers lib use s' seen) := by
  apply Structo.ends_commit
  · intro hclean
    refine ⟨hinv, fun used hused => (hinv used hused).2.resolve_left ?_⟩
    simp [hclean]
  · have hsaved : ∀ used, seen = some used → Recorded lib use (Function.update s.ctxIndex
        indexMappings (some ⟨lib.noContents, lib.serializeMaps (lib.saveFields s.fieldMan), []⟩))
        used := by
      intro used hused
      refine ⟨_, lib.saveFields s.fieldMan, ?_, hlib.fetchMaps_serializeMaps _, ?_⟩
      · rw [Function.update_self]
        exact hlib.getExtra_of_ne_nil _ (hlib.serializeMaps_ne_nil _)
      · rw [hlib.loadFields_saveFields]
        exact (hinv used hused).1
    exact ⟨fun used hused => ⟨(hinv used hused).1, .inr (hsaved used hused)⟩, hsaved⟩
  · exact fun _ => hinv

theorem covers_perform (hlib : lib.Lawful) (huse : use.Sound lib) (op : Operation T)
    (hinv : Covers lib use s seen) :
    Ends (lib.perform op) s
      (fun answer s' => Covers lib use s' (trackFields lib use op answer s' seen))
      (fun _ s' => Covers lib use s' seen) := by
  have hself : use.Extends s.fieldMan s.fieldMan := subset_rfl
  have hfailed : ∀ (thrown : Thrown) s', Structo.Left s (use.Extends s.fieldMan) s' →
      Covers lib use s' seen := fun _ _ => hinv.of_left
  -- an answer that changes no document's fields
  have hkept : ∀ {id : String} {written : Option (Entity β C) → F → Prop} (answer : Zmap) s',
      Structo.Answered s id (use.Extends s.fieldMan) written answer s' →
      Covers lib use s' seen := by
    intro id written answer s' hanswered
    cases hanswered with
    | success hok hgrown hwritten => exact hinv.of_modified hgrown _
    | failure hfail hleft => exact hinv.of_left hleft
  cases op with
  | insert args =>
      have hpack := fun body => ends_pack hlib huse body s.fieldMan
      refine (Structo.ends_insert _ hself hpack).imp (fun answer s' hanswered => ?_) hfailed
      cases hanswered with
      | success hok hgrown hwritten =>
          -- the fields of the stored document are in the table that packing left
          obtain ⟨bundle, contents, rfl, hpacked⟩ := hwritten
          intro used hused
          simp only [trackFields, hok, if_true, Function.update_self, Option.some.injEq] at hused
          subst hused
          exact ⟨Set.union_subset (hinv.getD_subset.trans hgrown) hpacked, .inl rfl⟩
      | failure hfail hleft =>
          simp only [trackFields, hfail, Bool.false_eq_true, if_false]
          exact hinv.of_left hleft
  | update args => exact (Structo.ends_update hself).imp hkept hfailed
  | remove args => exact (Structo.ends_remove hself).imp hkept hfailed
  | commit =>
      unfold Structo.perform
      rw [ends_bind]
      exact (covers_commit hlib hinv).imp (fun _ _ hcovers => hcovers.1)
        (fun _ _ hcovers => hcovers)

/-- A document put in the place of another one uses fields that are known by then. -/
theorem UsesOnly.update {ctxIndex : ContentsIndex β C} {used' : Set N}
    (hinv : UsesOnly lib use ctxIndex used) (hgrown : used ⊆ used') (id : String)
    {entity : Option (Entity β C)}
    (hentity : ∀ e, id ≠ indexMappings → entity = some e → inEntity lib use e ⊆ used') :
    UsesOnly lib use (Function.update ctxIndex id entity) used' := by
  intro other e hother hheld
  by_cases hsame : other = id
  · subst hsame
    rw [Function.update_self] at hheld
    exact hentity e hother hheld
  · rw [Function.update_of_ne hsame] at hheld
    exact (hinv other e hother hheld).trans hgrown

theorem UsesOnly.of_left {grown : F → Prop} (hinv : UsesOnly lib use s.ctxIndex used)
    (hleft : Structo.Left s grown s') : UsesOnly lib use s'.ctxIndex used := by
  obtain ⟨fieldMan, -, rfl⟩ := hleft
  exact hinv

/-- A commit writes its own record only. -/
theorem usesOnly_commit (hinv : UsesOnly lib use s.ctxIndex used) :
    Ends lib.commit s (fun _ s' => UsesOnly lib use s'.ctxIndex used)
      (fun _ s' => UsesOnly lib use s'.ctxIndex used) := by
  apply Structo.ends_commit
  · exact fun _ => hinv
  · exact hinv.update subset_rfl _ fun _ hother => absurd rfl hother
  · exact fun _ => hinv

/-- Fields come into the index with insertions only. -/
theorem usesOnly_perform (op : Operation T) (hinv : UsesOnly lib use s.ctxIndex (seen.getD ∅)) :
    Ends (lib.perform op) s
      (fun answer s' => UsesOnly lib use s'.ctxIndex
        ((trackFields lib use op answer s' seen).getD ∅))
      (fun _ s' => UsesOnly lib use s'.ctxIndex (seen.getD ∅)) := by
  have hfailed : ∀ (thrown : Thrown) s', Structo.Left s (fun _ => True) s' →
      UsesOnly lib use s'.ctxIndex (seen.getD ∅) := fun _ _ => hinv.of_left
  cases op with
  | insert args =>
      have hpack : ∀ body, Ends (lib.pack body) s.fieldMan (fun _ _ => True ∧ True)
          (fun _ _ => True) := fun _ => ends_of_forall (fun _ _ => ⟨trivial, trivial⟩)
            (fun _ _ => trivial)
      refine (Structo.ends_insert (fun _ _ => True) trivial hpack).imp
        (fun answer s' hanswered => ?_) hfailed
      cases hanswered with
      | success hok hgrown hwritten =>
          obtain ⟨bundle, contents, rfl, -⟩ := hwritten
          simp only [trackFields, hok, if_true, Function.update_self, Option.getD_some]
          refine hinv.update Set.subset_union_left _ fun e _ he => ?_
          rw [← Option.some.inj he]
          exact Set.subset_union_right
      | failure hfail hleft =>
          simp only [trackFields, hfail, Bool.false_eq_true, if_false]
          exact hinv.of_left hleft
  | update args =>
      refine (Structo.ends_update trivial).imp (fun answer s' hanswered => ?_) hfailed
      cases hanswered with
      | success hok hgrown hwritten =>
          -- contents and bundle are those of the old entity
          obtain ⟨old, hold, rfl⟩ := hwritten
          refine hinv.update subset_rfl _ fun e hother he => ?_
          rw [← Option.some.inj he]
          exact hinv _ old hother hold
      | failure hfail hleft => exact hinv.of_left hleft
  | remove args =>
      refine (Structo.ends_remove trivial).imp (fun answer s' hanswered => ?_) hfailed
      cases hanswered with
      | success hok hgrown hwritten =>
          obtain rfl := hwritten
          refine hinv.update subset_rfl _ fun e _ he => ?_
          cases he
      | failure hfail hleft => exact hinv.of_left hleft
  | commit =>
      unfold Structo.perform
      rw [ends_bind]
      exact usesOnly_commit hinv

end Invariant

/-- The service and the fields of the documents stored, after these operations; `seen` are those of
the documents the index held before. -/
def fieldSession (lib : Structo β T B F C) (use : FieldUse F C N) (s : StructoSearch β F C)
    (seen : Option (Set N)) (ops : List (Operation T)) :
    Session (StructoSearch β F C) (Option (Set N)) :=
  Session.run lib.perform (trackFields lib use) ⟨s, seen⟩ ops

/-- Behind every commit that returns the record can be decoded and has the fields of every document
stored up to then, and so has the service started over the index. These are the fields of every
document that the index holds, if they were so at the start. -/
theorem fields_cover_documents (hlib : lib.Lawful) (huse : use.Sound lib)
    {ctxIndex : ContentsIndex β C} {fm : F} (hcreate : lib.create ctxIndex fm = .ok s)
    {seen : Option (Set N)}
    (hrecorded : ∀ used, seen = some used → Recorded lib use ctxIndex used)
    (ops : List (Operation T)) :
    Ends lib.commit (fieldSession lib use s seen ops).state
      (fun _ s' =>
        (∀ used, (fieldSession lib use s seen ops).seen = some used →
          Recorded lib use s'.ctxIndex used ∧ StartsWith lib use s'.ctxIndex used) ∧
        (UsesOnly lib use ctxIndex (seen.getD ∅) →
          UsesOnly lib use s'.ctxIndex ((fieldSession lib use s seen ops).seen.getD ∅)))
      (fun _ _ => True) := by
  have hcovers : Covers lib use (fieldSession lib use s seen ops).state
      (fieldSession lib use s seen ops).seen :=
    Session.run_invariant (fun s seen op hinv => covers_perform hlib huse op hinv)
      (covers_create huse hcreate hrecorded) ops
  have huses : Ends lib.commit (fieldSession lib use s seen ops).state
      (fun _ s' => UsesOnly lib use ctxIndex (seen.getD ∅) →
        UsesOnly lib use s'.ctxIndex ((fieldSession lib use s seen ops).seen.getD ∅))
      (fun _ _ => True) := by
    by_cases hinit : UsesOnly lib use ctxIndex (seen.getD ∅)
    · rw [← create_ctxIndex hcreate] at hinit
      have hinv : UsesOnly lib use (fieldSession lib use s seen ops).state.ctxIndex
          ((fieldSession lib use s seen ops).seen.getD ∅) :=
        Session.run_invariant (fun (s : StructoSearch β F C) (seen : Option (Set N)) op
          (hinv : UsesOnly lib use s.ctxIndex (seen.getD ∅)) => usesOnly_perform op hinv) hinit ops
      exact (usesOnly_commit hinv).imp (fun _ _ huses _ => huses) (fun _ _ _ => trivial)
    · exact ends_of_forall (fun _ _ hheld => absurd hheld hinit) (fun _ _ => trivial)
  apply ((covers_commit hlib hcovers).and huses).imp
  · intro _ s' ⟨⟨_, hsaved⟩, hheld⟩
    exact ⟨fun used hused => ⟨hsaved used hused, (hsaved used hused).startsWith huse⟩, hheld⟩
  · exact fun _ _ _ => trivial

/-- In the plain library a table, formats and contents list their field numbers. -/
def plainUse : FieldUse (List ℕ) (List ℕ) ℕ where
  numbers fields := {n | n ∈ fields}
  inFormats formats := {n | ∃ x ∈ formats, x.toInt = n}
  inContents contents := {n | n ∈ contents}

theorem plainUse_sound : plainUse.Sound plainStructo where
  packFormats _ fieldMan := by
    refine ⟨fun n hn => List.mem_append_left _ hn, ?_⟩
    rintro n ⟨x, hx, hn⟩
    obtain rfl := List.mem_singleton.mp hx
    have hone : (n : ℤ) = 1 := hn.symm
    obtain rfl : n = 1 := by omega
    exact List.mem_append_right _ List.mem_cons_self
  contents _ fieldMan := by
    refine ⟨fun n hn => List.mem_append_left _ hn, ?_⟩
    intro n hn
    exact List.mem_append_right _ hn
  joinFields _ _ _ hn := List.mem_append_left _ hn

theorem fields_cover_documents_readme :
    (fieldSession plainStructo plainUse emptyService none mixedCalls).seen ≠ none ∧
    Ends plainStructo.commit
      (fieldSession plainStructo plainUse emptyService none mixedCalls).state
      (fun _ s' =>
        (∀ used, (fieldSession plainStructo plainUse emptyService none mixedCalls).seen =
            some used →
          Recorded plainStructo plainUse s'.ctxIndex used ∧
            StartsWith plainStructo plainUse s'.ctxIndex used) ∧
        UsesOnly plainStructo plainUse s'.ctxIndex
          ((fieldSession plainStructo plainUse emptyService none mixedCalls).seen.getD ∅))
      (fun _ _ => True) := by
  have hcreate : plainStructo.create (fun _ => none) [] = .ok emptyService := rfl
  have hempty : UsesOnly plainStructo plainUse (fun _ => none) ((none : Option (Set ℕ)).getD ∅) :=
    fun _ _ _ hheld => absurd hheld.symm (Option.some_ne_none _)
  refine ⟨Option.some_ne_none _, ?_⟩
  apply (fields_cover_documents plainStructo_lawful plainUse_sound hcreate
    (fun _ hnone => absurd hnone.symm (Option.some_ne_none _)) mixedCalls).imp
  · exact fun _ _ hcovered => ⟨hcovered.1, hcovered.2 hempty⟩
  · exact fun _ _ _ => trivial

end Palmira.Service
