import Palmira.Collect.Compare
import Palmira.Collect.Reused

/-!
# The defaults of a collector

The ranker and the comparer a collector has without `SetRange` and `SetOrder`. The comparer
is no strict order of all ids, as its tie-break wraps around. But a collector asks it about
documents it was given only, and does with it what it does with any other comparer that agrees
on these: with ids below `2 ^ 31`, with the one that breaks ties by the ids themselves.
-/

namespace Palmira.Collect

open TopList StepSystem
open scoped List

variable {W : Type}

/-! ## The ranker -/

/-- The operations of `double` in the ranker; `logWords n` is `log( 2 + n )`. -/
structure Doubles (W : Type) where
  zero : W
  one : W
  sub : W → W → W
  mul : W → W → W
  div : W → W → W
  logWords : ℕ → W

/-- The loop over the entries: `best` once there is one. -/
def bestWeight [LT W] [DecidableLT W] (best : Option W) : List (EntrySet W) → Option W
  | [] => best
  | p :: rest =>
      match best with
      | none => bestWeight (some p.weight) rest
      | some weight => bestWeight (some (if weight < p.weight then p.weight else weight)) rest

/-- `GetRange` -/
def getRange [LT W] [DecidableLT W] (ops : Doubles W) (tuples : Abstract W) : Except Exn W :=
  match tuples.content with
  | .rich entries => .ok ((bestWeight none entries).getD ops.zero)
  | .bm25 factors =>
      let weight :=
        factors.foldl (fun weight p => ops.mul weight (ops.sub ops.one p.dblIDF)) ops.one
      .ok (if tuples.nWords ≠ 0 then ops.div (ops.sub ops.one weight) (ops.logWords tuples.nWords)
        else ops.sub ops.one weight)
  | .none => .error (.logicError "invalid Abstract mode passed @collect-docs.cpp")

/-- A collector asks for the range of an abstract with a mode only. -/
theorem getRange_ok [LT W] [DecidableLT W] (ops : Doubles W) {tuples : Abstract W}
    (hmode : tuples.isNone = false) : ∃ weight, getRange ops tuples = .ok weight := by
  unfold getRange
  unfold Abstract.isNone at hmode
  split
  · exact ⟨_, rfl⟩
  · exact ⟨_, rfl⟩
  next hcontent =>
    rw [hcontent] at hmode
    cases hmode

/-! ## Comparers that agree -/

/-- Two comparers that say the same of documents with these ids. -/
def AgreeOn (known : Set ℕ) (differ differ' : DifferFn W) : Prop :=
  ∀ d₁ ∈ known, ∀ d₂ ∈ known, ∀ f₁ f₂, differ d₁ f₁ d₂ f₂ = differ' d₁ f₁ d₂ f₂

/-- The settings with another comparer. -/
def Params.reorder (differ : DifferFn W) (params : Params W) : Params W := { params with differ }

/-- The collector with another comparer. -/
def Documents.reorder (differ : DifferFn W) (c : Documents W) : Documents W :=
  { c with params := c.params.reorder differ }

namespace Documents

variable (differ : DifferFn W) (c : Documents W)

@[simp] theorem buffer_reorder : (c.reorder differ).buffer = c.buffer := rfl

@[simp] theorem quoBox_reorder : (c.reorder differ).quoBox = c.quoBox := rfl

@[simp] theorem nFound_reorder : (c.reorder differ).nFound = c.nFound := rfl

@[simp] theorem nCount_reorder : (c.reorder differ).nCount = c.nCount := rfl

@[simp] theorem nLimit_reorder : (c.reorder differ).nLimit = c.nLimit := rfl

@[simp] theorem nFirst_reorder : (c.reorder differ).nFirst = c.nFirst := rfl

@[simp] theorem ranker_reorder : (c.reorder differ).params.ranker = c.params.ranker := rfl

@[simp] theorem params_reorder : (c.reorder differ).params = c.params.reorder differ := rfl

end Documents

/-- All of these entities are known. -/
def AllKnown (known : Set ℕ) (l : List (Entity W)) : Prop := ∀ entity ∈ l, entity.id ∈ known

section Agree

variable {known : Set ℕ} {differ : DifferFn W} {params : Params W}

theorem less_reorder (hagree : AgreeOn known differ params.differ) {a b : Entity W}
    (ha : a.id ∈ known) (hb : b.id ∈ known) :
    (params.reorder differ).less a b = params.less a b := by
  unfold Params.less
  change decide (differ a.id a.weight b.id b.weight < 0) = _
  rw [hagree a.id ha b.id hb]

/-- Comparisons that agree on the elements of a list rank it in one way. -/
theorem ranked_eq_of_agree {less less' : Entity W → Entity W → Bool} {l : List (Entity W)}
    (hagree : ∀ a ∈ l, ∀ b ∈ l, less a b = less' a b) : ranked less l = ranked less' l := by
  have hmap := List.map_mergeSort (r := fun a b => !less b a) (s := fun a b => !less' b a) (f := id)
    (l := l) fun a ha b hb => congrArg not (hagree b hb a ha)
  rwa [List.map_id, List.map_id] at hmap

theorem ranked_reorder (hagree : AgreeOn known differ params.differ) {l : List (Entity W)}
    (hl : AllKnown known l) :
    ranked (params.reorder differ).less l = ranked params.less l :=
  ranked_eq_of_agree fun a ha b hb => less_reorder hagree (hl a ha) (hl b hb)

theorem detectWorst_reorder (hagree : AgreeOn known differ params.differ) (worst : ℕ)
    (held : Entity W) (pos : ℕ) {rest : List (Entity W)} (hheld : held.id ∈ known)
    (hrest : AllKnown known rest) :
    Documents.detectWorst (params.reorder differ) worst held pos rest =
      Documents.detectWorst params worst held pos rest := by
  induction rest generalizing worst held pos with
  | nil => rfl
  | cons beg rest ih =>
      obtain ⟨hbeg, hrest⟩ := List.forall_mem_cons.mp hrest
      unfold Documents.detectWorst
      rw [less_reorder hagree hheld hbeg]
      split
      · exact ih pos beg (pos + 1) hbeg hrest
      · exact ih worst held (pos + 1) hheld hrest

theorem takeWhile_reorder (hagree : AgreeOn known differ params.differ) {src : Entity W}
    (hsrc : src.id ∈ known) {l : List (Entity W)} (hl : AllKnown known l) :
    l.takeWhile (fun e => (params.reorder differ).less e src) =
      l.takeWhile (fun e => params.less e src) := by
  induction l with
  | nil => rfl
  | cons e rest ih =>
      obtain ⟨he, hrest⟩ := List.forall_mem_cons.mp hl
      rw [List.takeWhile_cons, List.takeWhile_cons, less_reorder hagree he hsrc, ih hrest]

theorem placeFrom_reorder (hagree : AgreeOn known differ params.differ) (dstptr : ℕ)
    {src : Entity W} (hsrc : src.id ∈ known) {l : List (Entity W)} (hl : AllKnown known l) :
    placeFrom (params.reorder differ).less dstptr src l = placeFrom params.less dstptr src l := by
  unfold placeFrom
  rw [takeWhile_reorder hagree hsrc fun e he => hl e (List.mem_of_mem_drop he)]

end Agree

/-! ## What a collector does with either -/

section Collector

variable [LT W] [DecidableLT W] {known : Set ℕ} {differ : DifferFn W} {c : Documents W}
  (hagree : AgreeOn known differ c.params.differ) (hbuffer : AllKnown known c.buffer)

include hagree hbuffer

omit [LT W] [DecidableLT W] in
theorem worstSlot_reorder : (c.reorder differ).worstSlot = c.worstSlot := by
  unfold Documents.worstSlot Documents.reorder
  cases hcache : c.pWorst with
  | some worst => rfl
  | none =>
      cases hfirst : c.buffer with
      | nil => rfl
      | cons first rest =>
          rw [hfirst] at hbuffer
          obtain ⟨hheld, hrest⟩ := List.forall_mem_cons.mp hbuffer
          exact congrArg some (detectWorst_reorder hagree 0 first 1 hheld hrest)

theorem addDoc_reorder {id : ℕ} (hid : id ∈ known) (tuples : Abstract W) :
    (c.reorder differ).addDoc id tuples = (c.addDoc id tuples).map (Documents.reorder differ) := by
  simp only [Documents.addDoc, worstSlot_reorder hagree hbuffer, Documents.buffer_reorder,
    Documents.quoBox_reorder, Documents.nFound_reorder, Documents.nCount_reorder,
    Documents.nLimit_reorder, Documents.params_reorder]
  split
  · rfl
  split
  · cases c.quoBox.set id tuples noDoc with
    | error e => rfl
    | ok quoBox => rfl
  cases c.worstSlot with
  | none => rfl
  | some worst =>
      cases hheld : c.buffer[worst]? with
      | none =>
          simp only [hheld]
          rfl
      | some held =>
          have hknown : held.id ∈ known := hbuffer held (List.mem_of_getElem? hheld)
          have hless : (c.params.reorder differ).less ⟨id, c.params.ranker id tuples⟩ held =
              c.params.less ⟨id, c.params.ranker id tuples⟩ held :=
            less_reorder hagree hid hknown
          simp only [hheld]
          change (if (c.params.reorder differ).less ⟨id, c.params.ranker id tuples⟩ held = true
            then _ else _) = _
          rw [hless]
          split
          · cases c.quoBox.set id tuples held.id with
            | error e => rfl
            | ok quoBox => rfl
          · rfl

omit hbuffer in
theorem insertLoop_reorder (quotes : Abstracts W) (dstptr : ℕ) {rest : List (Entity W)}
    (hbuffer : AllKnown known c.buffer) (hrest : AllKnown known rest) :
    (c.reorder differ).insertLoop quotes dstptr rest =
      (c.insertLoop quotes dstptr rest).map (Documents.reorder differ) := by
  induction rest generalizing c dstptr with
  | nil => rfl
  | cons src rest ih =>
      obtain ⟨hsrc, hrest⟩ := List.forall_mem_cons.mp hrest
      simp only [Documents.insertLoop, Documents.buffer_reorder, Documents.quoBox_reorder,
        Documents.nCount_reorder, Documents.nLimit_reorder, Documents.params_reorder,
        placeFrom_reorder hagree dstptr hsrc hbuffer]
      generalize placeFrom c.params.less dstptr src c.buffer = place
      split
      · rfl
      cases quotes.get src.id with
      | none => rfl
      | some abstr =>
          simp only
          have hplaced : AllKnown known (c.buffer.take place ++ src :: c.buffer.drop place) := by
            intro e he
            rcases List.mem_append.mp he with he | he
            · exact hbuffer e (List.mem_of_mem_take he)
            · rcases List.mem_cons.mp he with rfl | he
              · exact hsrc
              · exact hbuffer e (List.mem_of_mem_drop he)
          split
          · cases c.quoBox.set src.id abstr noDoc with
            | error e => rfl
            | ok quoBox =>
                exact ih (c := { c with
                  quoBox, buffer := c.buffer.take place ++ src :: c.buffer.drop place })
                  hagree place hplaced hrest
          · cases c.buffer[c.nLimit - 1]? with
            | none => rfl
            | some last =>
                have hdropped : AllKnown known
                    (c.buffer.take place ++ src :: (c.buffer.drop place).dropLast) := by
                  intro e he
                  apply hplaced e
                  rcases List.mem_append.mp he with he | he
                  · exact List.mem_append_left _ he
                  · rcases List.mem_cons.mp he with rfl | he
                    · exact List.mem_append_right _ List.mem_cons_self
                    · exact List.mem_append_right _
                        (List.mem_cons_of_mem _ (List.dropLast_subset _ he))
                simp only
                cases c.quoBox.set src.id abstr last.id with
                | error e => rfl
                | ok quoBox =>
                    exact ih (c := { c with
                      quoBox, buffer := c.buffer.take place ++ src ::
                        (c.buffer.drop place).dropLast })
                      hagree place hdropped hrest

theorem insert_reorder {docs : Documents W} (hdocs : AllKnown known docs.buffer) :
    (c.reorder differ).insert (docs.reorder differ) =
      (c.insert docs).map (Documents.reorder differ) := by
  have hrest : AllKnown known (ranked c.params.less docs.buffer) :=
    fun e he => hdocs e ((ranked_perm docs.buffer).mem_iff.mp he)
  unfold Documents.insert
  simp only [Documents.buffer_reorder, Documents.quoBox_reorder, Documents.params_reorder,
    Documents.nFound_reorder, ranked_reorder hagree hdocs,
    insertLoop_reorder hagree docs.quoBox 0 hbuffer hrest]
  cases c.insertLoop docs.quoBox 0 (ranked c.params.less docs.buffer) with
  | error e => rfl
  | ok c' => rfl

end Collector

/-! ## A search with the comparer -/

section Search

variable [LT W] [DecidableLT W] {known : Set ℕ} {differ : DifferFn W} {params : Params W}
  {tuples : ℕ → Abstract W}

theorem Collects.allKnown {c : Documents W} {ids : List ℕ} (hc : Collects tuples c ids)
    (hids : ∀ id ∈ ids, id ∈ known) : AllKnown known c.buffer := by
  intro entity hmem
  have hid := List.mem_map_of_mem (f := Entity.id) (hc.keeps.top.subset hmem)
  rw [entities_ids] at hid
  exact hids _ (mem_matching.mp hid).1

variable (hagree : AgreeOn known differ params.differ) (hless : StrictTotal params.less)
  (hlimit : 0 < params.nLimit)

include hagree hless hlimit

/-- A linear search with the comparer collects what it collects with the order. -/
theorem searchLinear_known {query : IQuery W} {ids : List ℕ} (hyields : query.Yields tuples ids)
    (hids : ∀ id ∈ ids, id ∈ known) :
    ∃ c, (Documents.create (params.reorder differ)).searchLinear query =
        .ok (c.nFound != 0, c.reorder differ) ∧ SearchInv params tuples c ids := by
  have hstep : ∀ seen id rest s, seen ++ id :: rest = ids →
      (∃ c, s = Documents.reorder differ c ∧ SearchInv params tuples c seen) →
      ∃ s', s.addDoc id (query.getTuples id) = .ok s' ∧
        ∃ c, s' = Documents.reorder differ c ∧ SearchInv params tuples c (seen ++ [id]) := by
    rintro seen id rest _ hsplit ⟨c, rfl, hinv⟩
    have hmem : id ∈ ids := hsplit ▸ List.mem_append_right _ List.mem_cons_self
    have hseen : seen.Sublist ids := hsplit ▸ List.sublist_append_left _ _
    have hfresh : noDoc ∉ seen := fun hbad => hyields.noDoc_not_mem (hseen.subset hbad)
    obtain ⟨c', hadd, hinv'⟩ :=
      addDoc_inv hless hinv hlimit (hyields.nodup.sublist hseen) hfresh id
    have hbuffer := hinv.collects.allKnown fun d hd => hids d (hseen.subset hd)
    have hsame := addDoc_reorder (hinv.params_eq.symm ▸ hagree) hbuffer (hids id hmem) (tuples id)
    refine ⟨c'.reorder differ, ?_, c', rfl, hinv'.params_eq,
      hinv'.collects.perm (List.perm_append_singleton _ _).symm, hinv'.worst⟩
    rw [hyields.getTuples_eq id hmem, hsame, hadd]
    rfl
  obtain ⟨s', hloop, c, rfl, hinv⟩ := foldlM_ok hstep
    (⟨.create params, rfl, searchInv_create params tuples⟩ :
      ∃ c, Documents.create (params.reorder differ) = Documents.reorder differ c ∧
        SearchInv params tuples c [])
  exact ⟨c, by rw [hyields.searchLinear_eq, hloop]; rfl, hinv⟩

/-- The target has the comparer and has taken in `ids`, sorted by the order. -/
def KnownTarget (differ : DifferFn W) (params : Params W) (tuples : ℕ → Abstract W) (ids : List ℕ)
    (target : Except Exn (Documents W)) : Prop :=
  ∃ c, target = .ok (Documents.reorder differ c) ∧ c.params = params ∧ Collects tuples c ids ∧
    Ranked params.less c.buffer

theorem mergeSection_known {subQuery : IQuery W} {ids part : List ℕ}
    {target : Except Exn (Documents W)} (htarget : KnownTarget differ params tuples ids target)
    (hyields : subQuery.Yields tuples part) (hids : (ids ++ part).Nodup) (hrange : noDoc ∉ ids)
    (hknown : ∀ id ∈ ids ++ part, id ∈ known) :
    KnownTarget differ params tuples (ids ++ part) (mergeSection subQuery target) := by
  obtain ⟨c, rfl, rfl, hc, hsorted⟩ := htarget
  obtain ⟨sub, hsearch, hinv⟩ := searchLinear_known hagree hless hlimit hyields
    fun id hid => hknown id (List.mem_append_right _ hid)
  have hmerge : mergeSection subQuery (.ok (c.reorder differ)) =
      if (sub.nFound != 0) then (c.reorder differ).insert (sub.reorder differ)
      else .ok (c.reorder differ) := by
    change (Documents.create (c.params.reorder differ)).searchLinear subQuery >>= _ = _
    rw [hsearch]
    rfl
  rw [hmerge]
  by_cases hfound : sub.nFound = 0
  · have hnone : matching tuples part = [] := by
      rw [← List.length_eq_zero_iff, ← hinv.collects.found]
      exact hfound
    exact ⟨c, by simp [hfound], rfl, hc.append_none hnone, hsorted⟩
  · have hfresh : noDoc ∉ ids ++ part := by
      intro hmem
      rcases List.mem_append.mp hmem with hmem | hmem
      · exact hrange hmem
      · exact hyields.noDoc_not_mem hmem
    obtain ⟨c', hinsert, hparams, hc', hsorted'⟩ :=
      insert_collects hless hinv.params_eq hc hsorted hinv.collects hids hfresh
    refine ⟨c', ?_, hparams, hc', hsorted'⟩
    rw [insert_reorder hagree
      (hc.allKnown fun id hid => hknown id (List.mem_append_left _ hid))
      (hinv.collects.allKnown fun id hid => hknown id (List.mem_append_right _ hid)), hinsert]
    simp [hfound, Except.map]

/-- What a parallel search of the service relies on: sections that do not wrap around, and a wait
that starts settled. -/
def Settles (async : Bool) (query : Query tuples) (movers : List Mover)
    (collector : Except Exn (Documents W)) : Prop :=
  Collecting.isSectioned async query = true →
    query.lastIndex ≤ 2 ^ 32 - maxThreadSection ∧
    StepsMeet (sectionedSearch query.lastIndex query.Duplicate).step
      (sectionedSearch query.lastIndex query.Duplicate).StartsSettled
      (Parallel.start collector) movers

/-- Either branch of a search on a new collector. -/
theorem search_known {async : Bool} {query : Query tuples} {movers : List Mover}
    {collector : Except Exn (Documents W)} (hids : ∀ id ∈ query.ids, id ∈ known)
    (hsettles : Settles async query movers (.ok (.create (params.reorder differ))))
    (hsearch : Collecting.search async query movers (.ok (.create (params.reorder differ))) =
      some collector) :
    ∃ c, collector = .ok (Documents.reorder differ c) ∧ c.params = params ∧
      Collects tuples c query.ids := by
  unfold Collecting.search at hsearch
  by_cases hbranch : Collecting.isSectioned async query = true
  · obtain ⟨hmax, hmeet⟩ := hsettles hbranch
    rw [if_pos hbranch] at hsearch
    obtain ⟨parts, hrun, hleft⟩ := Option.bind_eq_some_iff.mp hsearch
    have hdiv : Divided (sectionedSearch query.lastIndex query.Duplicate) tuples query.ids :=
      ⟨query.divides, rfl, hmax, query.below_lastIndex, query.yields.nodup,
        query.yields.noDoc_not_mem⟩
    have hstart : SectionsInv (sectionedSearch query.lastIndex query.Duplicate) tuples query.ids
        (KnownTarget differ params tuples)
        (Parallel.start (.ok (.create (params.reorder differ)))) :=
      sectionsInv_start ⟨.create params, rfl, rfl, .create params tuples, .nil⟩
    have hinv : SectionsInv (sectionedSearch query.lastIndex query.Duplicate) tuples query.ids
        (KnownTarget differ params tuples) parts := by
      refine run_invariant (fun _ _ _ hinv hstep => ?_) hstart hrun
      apply sectionsInv_step hdiv ?_ ?_ hinv hstep
      · rintro merged merged' _ hperm ⟨c, rfl, hparams, hc, hsorted⟩
        exact ⟨c, rfl, hparams, hc.perm hperm, hsorted⟩
      · intro merged part subQuery target htarget hyields hsub
        have hnodup : (merged ++ part).Nodup := by
          obtain ⟨l, hl, hle⟩ := hsub
          exact hl.nodup_iff.mp (hle.nodup query.yields.nodup)
        refine mergeSection_known hagree hless hlimit htarget hyields hnodup ?_ ?_
        · exact fun hmem =>
            query.yields.noDoc_not_mem (hsub.subset (List.mem_append_left _ hmem))
        · exact fun id hid => hids id (hsub.subset hid)
    obtain ⟨hcaller, htarget, hmerged⟩ := Collecting.leftBy_settled hmeet hrun hleft
    obtain ⟨c, hok, hparams, hc, -⟩ := hinv.target
    exact ⟨c, htarget ▸ hok, hparams, hc.perm (hinv.all_merged (.inr hcaller) hmerged)⟩
  · rw [if_neg hbranch, Option.some.injEq] at hsearch
    obtain ⟨c, hok, hinv⟩ := searchLinear_known hagree hless hlimit query.yields hids
    refine ⟨c, ?_, hinv.params_eq, hinv.collects⟩
    rw [← hsearch]
    change (Documents.create (params.reorder differ)).searchLinear query.toIQuery >>= _ = _
    rw [hok]
    rfl

end Search

/-! ## The comparer by range -/

section Range

variable [LinearOrder W]

/-- Heavier documents first, those of one weight by their ids. -/
def byRange : DifferFn W := fun d₁ f₁ d₂ f₂ =>
  let res := Documents.rangeDifference d₁ f₁ d₂ f₂
  if res ≠ 0 then res else (d₁ : ℤ) - d₂

theorem byRange_neg_iff (a b : Entity W) : byRange a.id a.weight b.id b.weight < 0 ↔
    b.weight < a.weight ∨ (a.weight = b.weight ∧ a.id < b.id) := by
  unfold byRange Documents.rangeDifference
  rcases lt_trichotomy a.weight b.weight with hlt | heq | hgt
  · simp [hlt, hlt.not_gt, hlt.ne]
  · simp [heq]
  · simp [hgt, hgt.not_gt]

theorem byRange_strictTotal (params : Params W) :
    StrictTotal (params.reorder byRange).less where
  irrefl a := by
    rw [Params.less, decide_eq_false_iff_not]
    change ¬ byRange a.id a.weight a.id a.weight < 0
    simp [byRange_neg_iff]
  trans a b c hab hbc := by
    rw [Params.less, decide_eq_true_iff] at *
    change byRange a.id a.weight c.id c.weight < 0
    rcases (byRange_neg_iff a b).mp hab with hab | ⟨hab, hid⟩ <;>
      rcases (byRange_neg_iff b c).mp hbc with hbc | ⟨hbc, hid'⟩
    · exact (byRange_neg_iff a c).mpr (.inl (hbc.trans hab))
    · exact (byRange_neg_iff a c).mpr (.inl (hbc ▸ hab))
    · exact (byRange_neg_iff a c).mpr (.inl (hab ▸ hbc))
    · exact (byRange_neg_iff a c).mpr (.inr ⟨hab.trans hbc, hid.trans hid'⟩)
  total a b hne := by
    simp only [Params.less, decide_eq_true_iff]
    change byRange a.id a.weight b.id b.weight < 0 ∨ byRange b.id b.weight a.id a.weight < 0
    rw [byRange_neg_iff, byRange_neg_iff]
    rcases lt_trichotomy a.weight b.weight with hlt | heq | hgt
    · exact .inr (.inl hlt)
    · rcases Nat.lt_trichotomy a.id b.id with hid | hid | hid
      · exact .inl (.inr ⟨heq, hid⟩)
      · exact absurd (by cases a; cases b; simp_all) hne
      · exact .inr (.inr ⟨heq.symm, hid⟩)
    · exact .inl (.inl hgt)

/-- The ids below `2 ^ 31`, between which no difference wraps around. -/
def smallIds : Set ℕ := {id | id < 2 ^ 31}

theorem compareByRange_agree : AgreeOn smallIds Documents.compareByRange (byRange (W := W)) := by
  intro d₁ h₁ d₂ h₂ f₁ f₂
  have hsmall : d₁ < 2 ^ 31 ∧ d₂ < 2 ^ 31 := ⟨h₁, h₂⟩
  have hexact : Documents.idDifference d₁ d₂ = (d₁ : ℤ) - d₂ :=
    Int.bmod_eq_of_le (by omega) (by omega)
  unfold Documents.compareByRange Documents.wrapDiffer byRange
  rw [hexact]

end Range

end Palmira.Collect
