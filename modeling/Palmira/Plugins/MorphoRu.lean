import Mathlib.Data.List.Nodup
import Mathlib.Data.List.Perm.Basic
import Palmira.Core.Exception
import Palmira.Foundation.BlockCopy
import Palmira.Foundation.TopList

/-!
# The lemmatizer for Russian

What `Lemmatizer::Lemmatize` makes of the lemmas the morphological analyser has
found: the imperative reading of a verb is dropped from an array of more than one,
the rest is sorted, and invariable readings are suppressed behind flective ones.
-/

namespace Palmira.MorphoRu

open BlockCopy TopList

structure SGramInfo where
  wdInfo : UInt16
  idForm : UInt8
  deriving DecidableEq

/-- A lemma with its `pgrams`, of which there is one at least. -/
structure SLemmInfo where
  nlexid : UInt32
  first : SGramInfo
  others : List SGramInfo
  deriving DecidableEq

def SLemmInfo.pgrams (l : SLemmInfo) : List SGramInfo := l.first :: l.others

/-! ## The imperative -/

/-- `(lemmas[i].pgrams->wdInfo & 0x3f) <= 6 && lemmas[i].pgrams->idForm == 2` -/
def SLemmInfo.isImperative (l : SLemmInfo) : Bool :=
  l.first.wdInfo &&& 0x3f ≤ 6 && l.first.idForm == 2

/-- The filter. The array goes on being used up to `nlemma`, which is one less after the copy. -/
def filterImperative (strict : Bool) (lemmas : List SLemmInfo) : Except Exn (List SLemmInfo) :=
  let nlemma := lemmas.length
  if nlemma > 1 then
    match lemmas.findIdx? SLemmInfo.isImperative with
    | none => .ok lemmas
    | some i =>
        match memcpy strict lemmas 1 (i + 1) (nlemma - i - 1) with
        | none => .error (.undefined "memcpy of overlapping regions")
        | some lemmas => .ok (lemmas.take (nlemma - 1))
  else .ok lemmas

/-- What is left are the lemmas without the first imperative, in some order; all of them as they
are when there is none. -/
def DropsImperative (strict : Bool) (lemmas : List SLemmInfo) : Prop :=
  ∃ left, filterImperative strict lemmas = .ok left ∧
    left.Perm (lemmas.eraseP SLemmInfo.isImperative) ∧
    ((∀ l ∈ lemmas, l.isImperative = false) → left = lemmas)

/-- The copy does no harm with the first imperative in this place: in the first one, when the last
lemma is the same as the first; in another one, when the lemmas between the first and it are those
that the array has twice after the copy. Where overlapping copies are without meaning, the tail
must be short enough for there to be none. -/
def Harmless (strict : Bool) (lemmas : List SLemmInfo) (i : ℕ) : Prop :=
  (strict = true → lemmas.length ≤ 2 * i + 1) ∧
    if i = 0 then lemmas.head? = lemmas.getLast?
    else ((lemmas.drop 1).take (i - 1)).Perm ((lemmas.drop (lemmas.length - i)).take (i - 1))

section Filter

variable {strict : Bool} {before after : List SLemmInfo} {l : SLemmInfo}

theorem findIdx?_split (hbefore : ∀ b ∈ before, b.isImperative = false)
    (hl : l.isImperative = true) :
    (before ++ l :: after).findIdx? SLemmInfo.isImperative = some before.length := by
  have hnone : before.findIdx? SLemmInfo.isImperative = none :=
    List.findIdx?_eq_none_iff.mpr hbefore
  rw [List.findIdx?_append, hnone, List.findIdx?_cons, if_pos hl]
  simp

/-- With the first imperative in place the filter is the copy and the cut. -/
theorem filter_split (hbefore : ∀ b ∈ before, b.isImperative = false)
    (hl : l.isImperative = true) (hmany : before ≠ [] ∨ after ≠ []) :
    filterImperative strict (before ++ l :: after) =
      match memcpy strict (before ++ l :: after) 1 (before.length + 1) after.length with
      | none => .error (.undefined "memcpy of overlapping regions")
      | some lemmas => .ok (lemmas.take (before.length + after.length)) := by
  have hlength : (before ++ l :: after).length = before.length + after.length + 1 := by
    rw [List.length_append, List.length_cons, Nat.add_assoc]
  have hpos : 0 < before.length + after.length := by
    rcases hmany with hne | hne
    · exact Nat.add_pos_left (List.length_pos_iff.mpr hne) _
    · exact Nat.add_pos_right _ (List.length_pos_iff.mpr hne)
  have hcount : before.length + after.length + 1 - before.length - 1 = after.length := by
    rw [Nat.add_assoc, Nat.add_sub_cancel_left, Nat.add_sub_cancel]
  simp only [filterImperative, hlength, if_pos (Nat.succ_lt_succ hpos), findIdx?_split hbefore hl,
    hcount, Nat.add_sub_cancel]

/-- The tail must be short enough for the blocks not to overlap. -/
theorem overlap_iff (hmany : before ≠ [] ∨ after ≠ []) :
    Overlap 1 (before.length + 1) after.length ↔
      ¬ (before ++ l :: after).length ≤ 2 * before.length + 1 := by
  have hpos : 0 < before.length ∨ 0 < after.length :=
    hmany.imp List.length_pos_iff.mpr List.length_pos_iff.mpr
  rw [List.length_append, List.length_cons, Overlap]
  omega

/-- An imperative in front is copied onto itself, and the last lemma goes. -/
theorem blit_front (l : SLemmInfo) (after : List SLemmInfo) :
    (blit (l :: after) 1 1 after.length).take after.length = (l :: after).dropLast := by
  rw [blit_self, List.dropLast_eq_take, List.length_cons, Nat.add_sub_cancel]

/-- Otherwise what comes after it is copied behind the first lemma, and the cut leaves as many old
elements as there were between the two. -/
theorem blit_later (b l : SLemmInfo) (rest after : List SLemmInfo) :
    (blit (b :: rest ++ l :: after) 1 (rest.length + 2) after.length).take
        (rest.length + 1 + after.length) =
      b :: after ++ ((b :: rest ++ l :: after).drop (after.length + 1)).take rest.length := by
  have hcopy := blit_tail [b] (rest ++ [l]) after
  have harray : [b] ++ (rest ++ [l]) ++ after = b :: rest ++ l :: after := by simp
  have hsrc : [b].length + (rest ++ [l]).length = rest.length + 2 := by
    rw [List.length_append, Nat.add_comm]
    rfl
  rw [harray, hsrc, List.length_singleton, Nat.add_comm 1 after.length] at hcopy
  have hfirst : ([b] ++ after).length = after.length + 1 := rfl
  have hcut : rest.length + 1 + after.length = ([b] ++ after).length + rest.length := by
    rw [hfirst, Nat.add_comm, Nat.add_comm rest.length, Nat.add_assoc]
  rw [hcopy, hcut, List.take_length_add_append]
  rfl

end Filter

section DropsImperative

variable {strict : Bool} {lemmas before after : List SLemmInfo} {l : SLemmInfo}

/-- A list without an imperative stays as it is. -/
theorem filter_none (hnone : ∀ l ∈ lemmas, l.isImperative = false) :
    filterImperative strict lemmas = .ok lemmas := by
  have hfind := List.findIdx?_eq_none_iff.mpr hnone
  simp only [filterImperative, hfind]
  split
  · rfl
  · rfl

theorem dropsImperative_of_none (hnone : ∀ l ∈ lemmas, l.isImperative = false) :
    DropsImperative strict lemmas := by
  refine ⟨lemmas, filter_none hnone, ?_, fun _ => rfl⟩
  rw [List.eraseP_of_forall_not (by simpa using hnone)]

theorem eraseP_split (hbefore : ∀ b ∈ before, b.isImperative = false)
    (hl : l.isImperative = true) :
    (before ++ l :: after).eraseP SLemmInfo.isImperative = before ++ after := by
  rw [List.eraseP_append_right _ (by simpa using hbefore), List.eraseP_cons_of_pos hl]

/-- With an imperative in place the outcome is that of the copy. -/
theorem dropsImperative_split (hbefore : ∀ b ∈ before, b.isImperative = false)
    (hl : l.isImperative = true) (hmany : before ≠ [] ∨ after ≠ []) :
    DropsImperative strict (before ++ l :: after) ↔
      (strict = true → (before ++ l :: after).length ≤ 2 * before.length + 1) ∧
        ((blit (before ++ l :: after) 1 (before.length + 1) after.length).take
          (before.length + after.length)).Perm (before ++ after) := by
  have hsplit : filterImperative strict (before ++ l :: after) = _ :=
    filter_split hbefore hl hmany
  have herase : (before ++ l :: after).eraseP SLemmInfo.isImperative = before ++ after :=
    eraseP_split hbefore hl
  by_cases hundefined : strict = true ∧ Overlap 1 (before.length + 1) after.length
  · rw [memcpy_eq_none.mpr hundefined] at hsplit
    refine iff_of_false ?_ ?_
    · intro ⟨left, hleft, _⟩
      rw [hsplit] at hleft
      cases hleft
    · intro ⟨hshort, _⟩
      exact (overlap_iff hmany).mp hundefined.2 (hshort hundefined.1)
  · rw [memcpy_eq_blit hundefined] at hsplit
    have hshort : strict = true → (before ++ l :: after).length ≤ 2 * before.length + 1 := by
      intro hstrict
      by_contra hlong
      exact hundefined ⟨hstrict, (overlap_iff hmany).mpr hlong⟩
    rw [and_iff_right hshort, DropsImperative, hsplit, herase]
    constructor
    · intro ⟨left, hleft, hperm, _⟩
      rw [Except.ok.inj hleft]
      exact hperm
    · intro hperm
      refine ⟨_, rfl, hperm, fun hnone => ?_⟩
      have hnot := hnone l (List.mem_append_right _ List.mem_cons_self)
      rw [hl] at hnot
      cases hnot

/-- In front: the rest is the same, so the first lemma must be the last one. -/
theorem perm_front (hne : after ≠ []) :
    ((l :: after).dropLast).Perm after ↔ (l :: after).head? = (l :: after).getLast? := by
  obtain ⟨inner, z, rfl⟩ : ∃ inner z, after = inner ++ [z] :=
    ⟨after.dropLast, after.getLast hne, (List.dropLast_append_getLast hne).symm⟩
  have hcut : ((l :: inner) ++ [z]).dropLast = [l] ++ inner := List.dropLast_concat
  have hlast : ((l :: inner) ++ [z]).getLast? = some z := List.getLast?_concat
  have hhead : ((l :: inner) ++ [z]).head? = some l := rfl
  rw [← List.cons_append, hcut, hlast, hhead, Option.some_inj]
  calc ([l] ++ inner).Perm (inner ++ [z])
    _ ↔ ([l] ++ inner).Perm ([z] ++ inner) := List.perm_append_comm.congr_right _
    _ ↔ [l].Perm [z] := List.perm_append_right_iff inner
    _ ↔ l = z := List.singleton_perm_singleton

/-- Further on: the old elements behind the copy must stand for those it was made over. -/
theorem perm_later {b : SLemmInfo} {rest twice : List SLemmInfo} :
    (b :: after ++ twice).Perm (b :: rest ++ after) ↔ rest.Perm twice := by
  calc (b :: after ++ twice).Perm (b :: rest ++ after)
    _ ↔ (after ++ twice).Perm (rest ++ after) := List.perm_cons b
    _ ↔ (after ++ twice).Perm (after ++ rest) := List.perm_append_comm.congr_right _
    _ ↔ twice.Perm rest := List.perm_append_left_iff after
    _ ↔ rest.Perm twice := List.perm_comm

/-- The filter of more than one lemma does what it is meant to exactly where there is no imperative
or the copy does no harm with the first one in its place. -/
theorem dropsImperative_iff (hmany : 1 < lemmas.length) :
    DropsImperative strict lemmas ↔
      ∀ i, lemmas.findIdx? SLemmInfo.isImperative = some i → Harmless strict lemmas i := by
  by_cases hnone : ∀ l ∈ lemmas, l.isImperative = false
  · refine iff_of_true (dropsImperative_of_none hnone) ?_
    rw [List.findIdx?_eq_none_iff.mpr hnone]
    exact nofun
  obtain ⟨found, hfound, himperative⟩ : ∃ l ∈ lemmas, l.isImperative = true := by
    simpa using hnone
  obtain ⟨l, before, after, hbefore, hl, rfl, -⟩ := List.exists_of_eraseP hfound himperative
  have hbefore' : ∀ b ∈ before, b.isImperative = false := by simpa using hbefore
  have hothers : before ≠ [] ∨ after ≠ [] := by
    by_contra hnil
    rw [not_or, not_not, not_not] at hnil
    rw [hnil.1, hnil.2] at hmany
    exact absurd hmany (Nat.lt_irrefl 1)
  rw [dropsImperative_split hbefore' hl hothers, findIdx?_split hbefore' hl]
  simp only [Option.some.injEq, forall_eq', Harmless]
  refine and_congr_right fun _ => ?_
  cases before with
  | nil =>
      have hne := hothers.resolve_left (fun hne => hne rfl)
      rw [List.length_nil, if_pos rfl, Nat.zero_add, List.nil_append, List.nil_append, blit_front]
      exact perm_front hne
  | cons b rest =>
      have hback : (b :: rest ++ l :: after).length - (rest.length + 1) = after.length + 1 := by
        rw [List.length_append, List.length_cons, List.length_cons, Nat.add_sub_cancel_left]
      have hrest : ((b :: rest ++ l :: after).drop 1).take rest.length = rest := List.take_left
      rw [List.length_cons, if_neg (Nat.succ_ne_zero _), Nat.add_sub_cancel, hback, hrest,
        blit_later]
      exact perm_later

/-- Among lemmas that all differ only the second and the last place do no harm. -/
theorem harmless_iff_of_nodup (hnodup : lemmas.Nodup) (hmany : 1 < lemmas.length) {i : ℕ}
    (hlt : i < lemmas.length) : Harmless false lemmas i ↔ i = 1 ∨ i + 1 = lemmas.length := by
  unfold Harmless
  rw [and_iff_right nofun]
  by_cases hzero : i = 0
  · subst hzero
    rw [if_pos rfl]
    refine iff_of_false ?_ (by omega)
    rw [List.head?_eq_getElem?, List.getLast?_eq_getElem?, List.getElem?_inj (by omega) hnodup]
    omega
  rw [if_neg hzero]
  constructor
  · intro hperm
    by_contra hplace
    rw [not_or] at hplace
    have hmem : lemmas[1] ∈ (lemmas.drop 1).take (i - 1) :=
      List.mem_take_iff_getElem.mpr ⟨0, by simp; omega, by simp⟩
    obtain ⟨k, hk, heq⟩ := List.mem_drop_iff_getElem.mp
      (List.mem_of_mem_take (hperm.subset hmem))
    have hsame := hnodup.getElem_inj_iff.mp heq
    omega
  · intro hplace
    rcases hplace with rfl | hlast
    · exact List.Perm.refl _
    · have hfront : lemmas.length - i = 1 := by omega
      rw [hfront]

end DropsImperative

def noun (nlexid : UInt32) : SLemmInfo := ⟨nlexid, ⟨7, 0⟩, []⟩

def imperative (nlexid : UInt32) : SLemmInfo := ⟨nlexid, ⟨1, 2⟩, []⟩

theorem dropsImperative_iff_second : DropsImperative true [noun 1, imperative 2, noun 3] := by
  refine (dropsImperative_iff (by decide)).mpr fun i hfind => ?_
  obtain rfl := Option.some.inj hfind
  exact ⟨fun _ => Nat.le_refl 3, List.Perm.refl []⟩

/-- The third of four lemmas is an imperative: the second one is lost, and the imperative stays. -/
theorem imperative_not_dropped :
    filterImperative true [noun 1, noun 2, imperative 3, noun 4] =
        .ok [noun 1, noun 4, imperative 3] ∧
      ¬ DropsImperative true [noun 1, noun 2, imperative 3, noun 4] := by
  have hfilter : filterImperative true [noun 1, noun 2, imperative 3, noun 4] =
      .ok [noun 1, noun 4, imperative 3] := rfl
  refine ⟨hfilter, fun ⟨left, hleft, hperm, _⟩ => ?_⟩
  obtain rfl := Except.ok.inj (hfilter.symm.trans hleft)
  exact absurd hperm (by decide)

/-! ## Invariable readings -/

/-- The form identifiers, `lemmas[idl].pgrams[idf].idForm`. -/
def SLemmInfo.forms (l : SLemmInfo) : List UInt8 := l.pgrams.map SGramInfo.idForm

/-- `is_inv` after the loop over the forms. -/
def SLemmInfo.isInv (l : SLemmInfo) : Bool := l.forms.any (· == 0xff)

/-- The comparison: the first form decides, then the lexeme. -/
def precedes (l r : SLemmInfo) : Bool :=
  if l.first.idForm ≠ r.first.idForm then l.first.idForm < r.first.idForm else l.nlexid < r.nlexid

/-- `out->AddTerm( nlexid, 1.0 / nlemma, aforms, ngrams )` -/
structure Term where
  nlexid : UInt32
  nlemma : ℕ
  forms : List UInt8
  deriving DecidableEq

def SLemmInfo.term (nlemma : ℕ) (l : SLemmInfo) : Term := ⟨l.nlexid, nlemma, l.forms⟩

/-- `for ( int idl = 0; idl < nlemma; ++idl )` over what is left of the sorted array. -/
def addTerms (nlemma idl : ℕ) : List SLemmInfo → List Term
  | [] => []
  | l :: rest =>
      if l.isInv = true ∧ idl > 0 then [] else l.term nlemma :: addTerms nlemma (idl + 1) rest

/-- What is done with the lemmas behind the filter; `sort` is `std::sort` with `precedes`. -/
def suppressInvariable (sort : List SLemmInfo → List SLemmInfo) (lemmas : List SLemmInfo) :
    List Term :=
  if lemmas.length > 0 then addTerms lemmas.length 0 (sort lemmas) else []

/-- The analyser gives the invariable form alone or not at all. -/
def SLemmInfo.Uniform (l : SLemmInfo) : Prop :=
  (∀ form ∈ l.forms, form = 0xff) ∨ ∀ form ∈ l.forms, form ≠ 0xff

section Suppress

variable {nlemma : ℕ} {lemmas sorted : List SLemmInfo} {l r : SLemmInfo}

theorem SLemmInfo.Uniform.isInv_iff (hl : l.Uniform) : l.isInv = true ↔ l.first.idForm = 0xff := by
  have hfirst : l.first.idForm ∈ l.forms := List.mem_cons_self
  have hany : l.isInv = true ↔ 0xff ∈ l.forms := by simp [SLemmInfo.isInv]
  rw [hany]
  rcases hl with hinv | hflective
  · have hfirst_eq := hinv _ hfirst
    exact iff_of_true (hfirst_eq ▸ hfirst) hfirst_eq
  · exact iff_of_false (fun hmem => hflective _ hmem rfl) (hflective _ hfirst)

/-- A flective lemma never stands behind an invariable one. -/
theorem flective_of_ranked (hl : l.Uniform) (hr : r.Uniform) (hranked : precedes r l = false)
    (hflective : r.isInv = false) : l.isInv = false := by
  rw [← Bool.not_eq_true, hr.isInv_iff] at hflective
  rw [← Bool.not_eq_true, hl.isInv_iff]
  intro hinv
  have hne : r.first.idForm ≠ l.first.idForm := hinv ▸ hflective
  rw [precedes, if_pos hne, decide_eq_false_iff_not, hinv, UInt8.lt_iff_toNat_lt] at hranked
  have hlt := r.first.idForm.toNat_lt
  apply hflective
  rw [← UInt8.toNat_inj]
  exact Nat.le_antisymm (Nat.le_of_lt_succ hlt) (Nat.not_lt.mp hranked)

/-- Behind the first term the loop emits up to the first invariable lemma. -/
theorem addTerms_succ (idl : ℕ) (lemmas : List SLemmInfo) :
    addTerms nlemma (idl + 1) lemmas =
      (lemmas.takeWhile (fun l => !l.isInv)).map (SLemmInfo.term nlemma) := by
  induction lemmas generalizing idl with
  | nil => rfl
  | cons l rest ih =>
      rw [addTerms]
      cases hinv : l.isInv with
      | true =>
          rw [if_pos ⟨rfl, Nat.succ_pos idl⟩, List.takeWhile_cons_of_neg (by simp [hinv])]
          rfl
      | false =>
          rw [if_neg (fun h => Bool.false_ne_true h.1), ih,
            List.takeWhile_cons_of_pos (by simp [hinv])]
          rfl

/-- With a flective lemma about, the first of the sorted ones is flective, and the loop emits all
that are. -/
theorem addTerms_of_flective (huniform : ∀ l ∈ sorted, l.Uniform) (hranked : Ranked precedes sorted)
    (hflective : ∃ l ∈ sorted, l.isInv = false) :
    addTerms nlemma 0 sorted =
      (sorted.filter (fun l => !l.isInv)).map (SLemmInfo.term nlemma) := by
  have hfirst : sorted.Pairwise (fun l r => (!r.isInv) = true → (!l.isInv) = true) := by
    apply hranked.imp_of_mem
    intro l r hl hr hlr hr_flective
    rw [Bool.not_eq_true'] at hr_flective ⊢
    exact flective_of_ranked (huniform l hl) (huniform r hr) hlr hr_flective
  rw [← takeWhile_eq_filter hfirst]
  cases sorted with
  | nil => rfl
  | cons x rest =>
      have hx : (!x.isInv) = true := by
        obtain ⟨l, hmem, hl⟩ := hflective
        rw [← Bool.not_eq_true'] at hl
        rcases List.mem_cons.mp hmem with rfl | hrest
        · exact hl
        · exact List.rel_of_pairwise_cons hfirst hrest hl
      have htake : (x :: rest).takeWhile (fun l => !l.isInv) =
          x :: rest.takeWhile (fun l => !l.isInv) := List.takeWhile_cons_of_pos hx
      rw [addTerms, if_neg (fun h => absurd h.2 (Nat.lt_irrefl 0)), addTerms_succ, htake,
        List.map_cons]

/-- With none about it emits the first of the sorted ones. -/
theorem addTerms_of_invariable {x : SLemmInfo} {rest : List SLemmInfo}
    (hinv : ∀ l ∈ x :: rest, l.isInv = true) :
    addTerms nlemma 0 (x :: rest) = [x.term nlemma] := by
  rw [addTerms, if_neg (fun h => absurd h.2 (Nat.lt_irrefl 0)), addTerms_succ]
  cases rest with
  | nil => rfl
  | cons y rest =>
      have hy := hinv y (List.mem_cons_of_mem _ List.mem_cons_self)
      rw [List.takeWhile_cons_of_neg (by simp [hy])]
      rfl

/-- Invariable lemmas are sorted by their lexemes. -/
theorem nlexid_le_of_ranked (hl : l.first.idForm = r.first.idForm)
    (hranked : precedes r l = false) :
    l.nlexid ≤ r.nlexid := by
  rw [precedes, if_neg (not_not_intro hl.symm), decide_eq_false_iff_not] at hranked
  exact UInt32.not_lt.mp hranked

/-- The terms emitted for a list of lemmas are those of the flective ones, in the order of first
form and lexeme, or where there is none the one of the least lexeme. -/
def SuppressesInvariable (sort : List SLemmInfo → List SLemmInfo) (lemmas : List SLemmInfo) :
    Prop :=
  ((∃ l ∈ lemmas, l.isInv = false) →
    ∃ flective, flective.Perm (lemmas.filter (fun l => !l.isInv)) ∧ Ranked precedes flective ∧
      suppressInvariable sort lemmas = flective.map (SLemmInfo.term lemmas.length)) ∧
  ((∀ l ∈ lemmas, l.isInv = true) →
    ∃ l ∈ lemmas, (∀ r ∈ lemmas, l.nlexid ≤ r.nlexid) ∧
      suppressInvariable sort lemmas = [l.term lemmas.length])

/-- For every list that is not empty, of lemmas whose forms are all invariable or all not, and
whatever arrangement by the comparison the sort gives. -/
theorem suppresses_invariable {sort : List SLemmInfo → List SLemmInfo} (hne : lemmas ≠ [])
    (huniform : ∀ l ∈ lemmas, l.Uniform) (hperm : (sort lemmas).Perm lemmas)
    (hranked : Ranked precedes (sort lemmas)) : SuppressesInvariable sort lemmas := by
  have hpos := List.length_pos_iff.mpr hne
  have huniform' : ∀ l ∈ sort lemmas, l.Uniform := fun l hmem => huniform l (hperm.mem_iff.mp hmem)
  rw [SuppressesInvariable, suppressInvariable, if_pos hpos]
  constructor
  · intro ⟨l, hmem, hl⟩
    refine ⟨(sort lemmas).filter (fun l => !l.isInv), hperm.filter _, ?_, ?_⟩
    · exact hranked.sublist List.filter_sublist
    · exact addTerms_of_flective huniform' hranked ⟨l, hperm.mem_iff.mpr hmem, hl⟩
  · intro hinv
    generalize sort lemmas = sorted at hperm hranked huniform'
    cases sorted with
    | nil => exact absurd hperm.symm.eq_nil hne
    | cons x rest =>
        have hinv' : ∀ l ∈ x :: rest, l.isInv = true := fun l hmem => hinv l (hperm.mem_iff.mp hmem)
        have hform : ∀ l ∈ x :: rest, l.first.idForm = 0xff := fun l hmem =>
          (huniform' l hmem).isInv_iff.mp (hinv' l hmem)
        refine ⟨x, hperm.mem_iff.mp List.mem_cons_self, ?_, addTerms_of_invariable hinv'⟩
        intro r hmem
        rcases List.mem_cons.mp (hperm.mem_iff.mpr hmem) with rfl | hrest
        · exact UInt32.le_refl _
        · apply nlexid_le_of_ranked
          · rw [hform x List.mem_cons_self, hform r (List.mem_cons_of_mem _ hrest)]
          · exact List.rel_of_pairwise_cons hranked hrest

end Suppress

def adverb (nlexid : UInt32) : SLemmInfo := ⟨nlexid, ⟨20, 0xff⟩, []⟩

/-- An adverb before a noun in two forms. -/
def adverbAndNoun : List SLemmInfo := [adverb 1, ⟨2, ⟨7, 3⟩, [⟨7, 4⟩]⟩]

theorem suppresses_invariable_adverb :
    SuppressesInvariable (List.insertionSort (fun l r => precedes r l = false)) adverbAndNoun := by
  apply suppresses_invariable (List.cons_ne_nil _ _) ?_ (List.perm_insertionSort _ _) ?_
  · intro l hmem
    rcases List.mem_pair.mp hmem with rfl | rfl
    · exact .inl (List.forall_mem_singleton.mpr rfl)
    · exact .inr (List.forall_mem_cons.mpr ⟨by decide, List.forall_mem_singleton.mpr (by decide)⟩)
  · unfold Ranked
    decide

end Palmira.MorphoRu
