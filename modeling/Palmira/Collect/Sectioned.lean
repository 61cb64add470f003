import Mathlib.Data.List.Flatten
import Palmira.Collect.Linear
import Palmira.Collect.Merge
import Palmira.Collect.Parallel

/-!
# Sectioned search

The tasks of the parallel branch search one section each and merge what they
found into the target. Whatever the order of the merges, the target has then
taken in the documents of the whole query, as a linear search does.
-/

namespace Palmira.Collect

open TopList StepSystem
open scoped List

variable {W : Type}

/-! ## The documents of a section -/

/-- The documents with `lo <= id < hi`. -/
def sectionOf (ids : List ℕ) (lo hi : ℕ) : List ℕ :=
  ids.filter (fun id => decide (lo ≤ id) && decide (id < hi))

/-- The documents below a bound. -/
def below (ids : List ℕ) (hi : ℕ) : List ℕ := ids.filter (fun id => decide (id < hi))

theorem below_append_sectionOf (ids : List ℕ) {lo hi : ℕ} (hle : lo ≤ hi) :
    below ids lo ++ sectionOf ids lo hi ~ below ids hi := by
  have hsplit := List.filter_append_perm (fun id => decide (id < lo)) (below ids hi)
  have hlow : (below ids hi).filter (fun id => decide (id < lo)) = below ids lo := by
    rw [below, below, List.filter_filter]
    apply List.filter_congr
    intro id _
    simp only [← Bool.decide_and, decide_eq_decide]
    omega
  have hhigh : (below ids hi).filter (fun id => !decide (id < lo)) = sectionOf ids lo hi := by
    rw [below, sectionOf, List.filter_filter]
    apply List.filter_congr
    intro id _
    rw [← decide_not, ← Bool.decide_and, ← Bool.decide_and, decide_eq_decide]
    omega
  rwa [hlow, hhigh] at hsplit

theorem below_of_forall {ids : List ℕ} {hi : ℕ} (hbound : ∀ id ∈ ids, id < hi) :
    below ids hi = ids :=
  List.filter_eq_self.mpr (fun id hid => decide_eq_true (hbound id hid))

/-- What the caller relies on: a sub-query finds exactly the documents of its section, and only an
empty section has none. -/
structure Divides (Duplicate : ℕ → ℕ → Option (IQuery W)) (tuples : ℕ → Abstract W)
    (ids : List ℕ) : Prop where
  some_yields : ∀ lo hi subQuery, Duplicate lo hi = some subQuery →
    subQuery.Yields tuples (sectionOf ids lo hi)
  none_empty : ∀ lo hi, Duplicate lo hi = none → sectionOf ids lo hi = []

namespace IQuery.Yields

variable {query : IQuery W} {tuples : ℕ → Abstract W} {ids ids' : List ℕ}

theorem mem_iff (hyields : query.Yields tuples ids) (k : ℕ) :
    k ∈ ids ↔ k < noDoc ∧ 1 ≤ k ∧ query.searchDoc k = k := by
  constructor
  · intro hk
    obtain ⟨hone, hlt⟩ := hyields.inRange k hk
    refine ⟨hlt, hone, ?_⟩
    obtain ⟨front, back, rfl⟩ := List.append_of_mem hk
    have hfront : front.find? (fun id => decide (k ≤ id)) = none := by
      rw [List.find?_eq_none]
      intro id hid
      have hid_lt := (List.pairwise_append.mp hyields.increasing).2.2 id hid k List.mem_cons_self
      simpa using hid_lt
    rw [hyields.searchDoc_eq k hlt.le, List.find?_append, hfront]
    simp
  · intro ⟨hlt, _, hfix⟩
    rw [hyields.searchDoc_eq k hlt.le] at hfix
    cases hfind : ids.find? (fun id => decide (k ≤ id)) with
    | none =>
        rw [hfind, Option.getD_none] at hfix
        omega
    | some id =>
        rw [hfind, Option.getD_some] at hfix
        exact hfix ▸ List.mem_of_find?_eq_some hfind

theorem unique (hyields : query.Yields tuples ids) (hyields' : query.Yields tuples ids') :
    ids = ids' := by
  have hperm : ids ~ ids' := (List.perm_ext_iff_of_nodup hyields.nodup hyields'.nodup).mpr
    (fun k => (hyields.mem_iff k).trans (hyields'.mem_iff k).symm)
  exact hperm.eq_of_pairwise (fun _ _ _ _ hlt hgt => absurd hlt hgt.asymm)
    hyields.increasing hyields'.increasing

end IQuery.Yields

open Classical in
/-- The documents a query finds. -/
noncomputable def docsOf (tuples : ℕ → Abstract W) (query : IQuery W) : List ℕ :=
  if h : ∃ ids, query.Yields tuples ids then h.choose else []

theorem IQuery.Yields.docsOf_eq {query : IQuery W} {tuples : ℕ → Abstract W} {ids : List ℕ}
    (hyields : query.Yields tuples ids) : docsOf tuples query = ids := by
  have hexists : ∃ ids, query.Yields tuples ids := ⟨ids, hyields⟩
  rw [docsOf, dif_pos hexists]
  exact hexists.choose_spec.unique hyields

/-! ## The task -/

variable [LT W] [DecidableLT W]

/-- What a task does with the target: a linear search on a collector of its own, and `Insert` when
that found anything. -/
def mergeSection (subQuery : IQuery W) (target : Except Exn (Documents W)) :
    Except Exn (Documents W) := do
  let c ← target
  let (found, subStore) ← (Documents.create c.params).searchLinear subQuery
  if found then c.insert subStore else return c

/-- The parallel branch of `Search`. -/
def sectionedSearch (rBound : ℕ) (Duplicate : ℕ → ℕ → Option (IQuery W)) :
    Parallel (Except Exn (Documents W)) (IQuery W) where
  rBound := rBound
  Duplicate := Duplicate
  merge := mergeSection

/-- The target has taken in `ids` and is sorted, as `Insert` leaves it. -/
def Target (params : Params W) (tuples : ℕ → Abstract W) (ids : List ℕ)
    (target : Except Exn (Documents W)) : Prop :=
  ∃ c, target = .ok c ∧ c.params = params ∧ Collects tuples c ids ∧ Ranked params.less c.buffer

variable {params : Params W} {tuples : ℕ → Abstract W}

theorem Target.perm {ids ids' : List ℕ} {target : Except Exn (Documents W)}
    (htarget : Target params tuples ids target) (hperm : ids ~ ids') :
    Target params tuples ids' target := by
  obtain ⟨c, hok, hparams, hc, hsorted⟩ := htarget
  exact ⟨c, hok, hparams, hc.perm hperm, hsorted⟩

theorem target_create (params : Params W) (tuples : ℕ → Abstract W) :
    Target params tuples [] (.ok (.create params)) :=
  ⟨_, rfl, rfl, .create params tuples, .nil⟩

/-- A merged section adds its documents to the target. -/
theorem mergeSection_target (hless : StrictTotal params.less) (hlimit : 0 < params.nLimit)
    {subQuery : IQuery W} {ids part : List ℕ} {target : Except Exn (Documents W)}
    (htarget : Target params tuples ids target) (hyields : subQuery.Yields tuples part)
    (hids : (ids ++ part).Nodup) (hrange : noDoc ∉ ids) :
    Target params tuples (ids ++ part) (mergeSection subQuery target) := by
  obtain ⟨c, rfl, rfl, hc, hsorted⟩ := htarget
  obtain ⟨sub, hsearch, hinv⟩ := searchLinear_inv hless hlimit hyields
  have hmerge : mergeSection subQuery (.ok c) =
      if (sub.nFound != 0) then c.insert sub else .ok c := by
    change (do
      let (found, subStore) ← (Documents.create c.params).searchLinear subQuery
      if found then c.insert subStore else return c) = _
    rw [hsearch]
    rfl
  rw [hmerge]
  by_cases hfound : sub.nFound = 0
  · -- nothing matched in this section, so the documents that count are the same
    have hnone : matching tuples part = [] := by
      rw [← List.length_eq_zero_iff, ← hinv.collects.found]
      exact hfound
    exact ⟨c, by simp [hfound], rfl, hc.append_none hnone, hsorted⟩
  · have hfresh : noDoc ∉ ids ++ part := by
      intro hmem
      rcases List.mem_append.mp hmem with hmem | hmem
      · exact hrange hmem
      · exact hyields.noDoc_not_mem hmem
    obtain ⟨c', hinsert, hparams, hc', hsorted'⟩ :=
      insert_collects hless hinv.params_eq hc hsorted hinv.collects hids hfresh
    refine ⟨c', ?_, hparams, hc', hsorted'⟩
    simp [hfound, hinsert]

/-- A section without documents that count leaves the target as it is. -/
theorem mergeSection_none {subQuery : IQuery W} {part : List ℕ}
    (hyields : subQuery.Yields tuples part) (hnone : matching tuples part = [])
    (c : Documents W) : mergeSection subQuery (.ok c) = .ok c := by
  change (do
    let (found, subStore) ← (Documents.create c.params).searchLinear subQuery
    if found then c.insert subStore else return c) = _
  rw [searchLinear_none hyields hnone]
  rfl

/-! ## The run -/

/-- The documents of the sections shared so far. -/
noncomputable def sharedDocs (tuples : ℕ → Abstract W) (tasks : List (Task (IQuery W))) : List ℕ :=
  tasks.flatMap (fun task => docsOf tuples task.subQuery)

def Task.merged {τ : Type} (task : Task τ) : Bool :=
  match task.progress with
  | .running => false
  | .merged => true
  | .notifying => true
  | .done => true

/-- The documents of the sections merged so far. -/
noncomputable def mergedDocs (tuples : ℕ → Abstract W) (tasks : List (Task (IQuery W))) : List ℕ :=
  sharedDocs tuples (tasks.filter Task.merged)

/-- The documents below the section the caller is at have been shared; at the section itself the
sub-query in hand is the one `Duplicate` gave. -/
def SharedBy (env : Parallel (Except Exn (Documents W)) (IQuery W)) (ids shared : List ℕ) :
    Caller (IQuery W) → Prop
  | .loop uLower => shared ~ below ids uLower
  | .enqueue uLower subQuery => shared ~ below ids uLower ∧ uLower < env.rBound ∧
      env.Duplicate uLower (nextLower uLower) = some subQuery
  | .waiting => shared ~ ids
  | .returned => shared ~ ids

section Docs

variable {before after : List (Task (IQuery W))} {task : Task (IQuery W)}

omit [LT W] [DecidableLT W] in
theorem sharedDocs_split : sharedDocs tuples (before ++ task :: after) =
    sharedDocs tuples before ++ (docsOf tuples task.subQuery ++ sharedDocs tuples after) := by
  simp [sharedDocs]

omit [LT W] [DecidableLT W] in
theorem mergedDocs_split_running (hrunning : task.merged = false) :
    mergedDocs tuples (before ++ task :: after) =
      mergedDocs tuples before ++ mergedDocs tuples after := by
  simp [mergedDocs, sharedDocs, hrunning]

omit [LT W] [DecidableLT W] in
theorem mergedDocs_split_merged (hmerged : task.merged = true) :
    mergedDocs tuples (before ++ task :: after) =
      mergedDocs tuples before ++ (docsOf tuples task.subQuery ++ mergedDocs tuples after) := by
  simp [mergedDocs, sharedDocs, hmerged]

omit [LT W] [DecidableLT W] in
/-- The documents of a merged section, counted behind those of the others. -/
theorem mergedDocs_perm (hmerged : task.merged = true) :
    mergedDocs tuples (before ++ task :: after) ~
      mergedDocs tuples before ++ mergedDocs tuples after ++ docsOf tuples task.subQuery := by
  rw [mergedDocs_split_merged hmerged, List.append_assoc]
  exact List.perm_append_comm.append_left _

omit [LT W] [DecidableLT W] in
theorem mergedDocs_subperm (tasks : List (Task (IQuery W))) :
    mergedDocs tuples tasks <+~ sharedDocs tuples tasks :=
  (List.filter_sublist.flatMap _).subperm

omit [LT W] [DecidableLT W] in
theorem yields_split {subQuery : IQuery W} {progress progress' : Progress}
    (hyields : ∀ task ∈ before ++ ⟨subQuery, progress⟩ :: after,
      task.subQuery.Yields tuples (docsOf tuples task.subQuery)) :
    ∀ task ∈ before ++ ⟨subQuery, progress'⟩ :: after,
      task.subQuery.Yields tuples (docsOf tuples task.subQuery) := by
  intro task hmem
  rcases List.mem_append.mp hmem with hold | hold
  · exact hyields task (List.mem_append_left _ hold)
  · rcases List.mem_cons.mp hold with rfl | hold
    · exact hyields ⟨subQuery, progress⟩ (by simp)
    · exact hyields task (List.mem_append_right _ (List.mem_cons_of_mem _ hold))

end Docs

section Run

variable {env : Parallel (Except Exn (Documents W)) (IQuery W)} {ids : List ℕ}
  {s s' : Parts (Except Exn (Documents W)) (IQuery W)} {mover : Mover}

omit [LT W] [DecidableLT W] in
theorem shared_subperm {shared : List ℕ} {caller : Caller (IQuery W)}
    (hshared : SharedBy env ids shared caller) : shared <+~ ids := by
  have hbelow : ∀ hi, below ids hi <+~ ids := fun hi => List.filter_sublist.subperm
  cases caller with
  | loop uLower => exact (List.Perm.subperm hshared).trans (hbelow uLower)
  | enqueue uLower subQuery => exact hshared.1.subperm.trans (hbelow uLower)
  | waiting => exact List.Perm.subperm hshared
  | returned => exact List.Perm.subperm hshared

omit [LT W] [DecidableLT W] in
theorem SharedBy.notify {shared : List ℕ} {caller : Caller (IQuery W)}
    (hshared : SharedBy env ids shared caller) :
    SharedBy env ids shared (Parallel.notify caller) := by
  cases caller <;> exact hshared

/-- The sections shared so far are those below the caller's, and of the target a property holds that
depends on the documents merged so far. -/
structure SectionsInv (env : Parallel (Except Exn (Documents W)) (IQuery W))
    (tuples : ℕ → Abstract W) (ids : List ℕ) (holds : List ℕ → Except Exn (Documents W) → Prop)
    (s : Parts (Except Exn (Documents W)) (IQuery W)) : Prop where
  yields : ∀ task ∈ s.tasks, task.subQuery.Yields tuples (docsOf tuples task.subQuery)
  shared : SharedBy env ids (sharedDocs tuples s.tasks) s.caller
  target : holds (mergedDocs tuples s.tasks) s.target

omit [LT W] [DecidableLT W] in
theorem sectionsInv_start {holds : List ℕ → Except Exn (Documents W) → Prop}
    {target : Except Exn (Documents W)} (hholds : holds [] target) :
    SectionsInv env tuples ids holds (Parallel.start target) where
  yields := nofun
  shared := by
    change ([] : List ℕ) ~ below ids 0
    simp [below]
  target := hholds

/-- What every step keeps: the sections shared so far are those below the caller's, and the target
has taken in the ones merged so far. -/
structure SectionedInv (env : Parallel (Except Exn (Documents W)) (IQuery W)) (params : Params W)
    (tuples : ℕ → Abstract W) (ids : List ℕ)
    (s : Parts (Except Exn (Documents W)) (IQuery W)) : Prop where
  yields : ∀ task ∈ s.tasks, task.subQuery.Yields tuples (docsOf tuples task.subQuery)
  shared : SharedBy env ids (sharedDocs tuples s.tasks) s.caller
  target : Target params tuples (mergedDocs tuples s.tasks) s.target

theorem sectionedInv_start (params : Params W) (tuples : ℕ → Abstract W) (ids : List ℕ) :
    SectionedInv env params tuples ids (Parallel.start (.ok (.create params))) := by
  have hstart : SectionsInv env tuples ids (Target params tuples)
      (Parallel.start (.ok (.create params))) := sectionsInv_start (target_create params tuples)
  exact ⟨hstart.yields, hstart.shared, hstart.target⟩

omit [LT W] [DecidableLT W] in
theorem le_nextLower {uLower rBound : ℕ} (hmax : rBound ≤ 0xFFFFC000) (hlt : uLower < rBound) :
    uLower ≤ nextLower uLower := by
  unfold nextLower maxThreadSection
  omega

/-- What the sections are of and where they end, as the caller relies on it. -/
structure Divided (env : Parallel (Except Exn (Documents W)) (IQuery W))
    (tuples : ℕ → Abstract W) (ids : List ℕ) : Prop where
  divides : Divides env.Duplicate tuples ids
  merge_eq : env.merge = mergeSection
  rBound_le : env.rBound ≤ 0xFFFFC000
  below_rBound : ∀ id ∈ ids, id < env.rBound
  nodup : ids.Nodup
  noDoc_not_mem : noDoc ∉ ids

theorem Divided.below_nextLower (hdiv : Divided env tuples ids) {uLower : ℕ}
    (hlt : uLower < env.rBound) :
    below ids uLower ++ sectionOf ids uLower (nextLower uLower) ~ below ids (nextLower uLower) :=
  below_append_sectionOf ids (le_nextLower hdiv.rBound_le hlt)

/-- Whatever the merge of a section keeps of the target, every step keeps. -/
theorem sectionsInv_step {holds : List ℕ → Except Exn (Documents W) → Prop}
    (hdiv : Divided env tuples ids)
    (hperm : ∀ merged merged' target, merged ~ merged' → holds merged target →
      holds merged' target)
    (hmerge : ∀ merged part subQuery target, holds merged target → subQuery.Yields tuples part →
      merged ++ part <+~ ids → holds (merged ++ part) (mergeSection subQuery target))
    (hinv : SectionsInv env tuples ids holds s)
    (hstep : env.step s mover = some s') : SectionsInv env tuples ids holds s' := by
  obtain ⟨hyields, hshared, htarget⟩ := hinv
  cases Parallel.step_cases hstep with
  | skip uLower hcaller hlt hnull =>
      refine ⟨hyields, ?_, htarget⟩
      rw [hcaller] at hshared
      -- an empty section adds no documents to those below the bound
      have hgrow := hdiv.below_nextLower hlt
      rw [hdiv.divides.none_empty _ _ hnull, List.append_nil] at hgrow
      exact List.Perm.trans hshared hgrow
  | count uLower subQuery hcaller hlt hquery =>
      refine ⟨hyields, ?_, htarget⟩
      rw [hcaller] at hshared
      exact ⟨hshared, hlt, hquery⟩
  | enqueue uLower subQuery hcaller =>
      rw [hcaller] at hshared
      obtain ⟨hbelow, hlt, hquery⟩ := hshared
      have hsub := hdiv.divides.some_yields _ _ _ hquery
      refine ⟨?_, ?_, ?_⟩
      · intro task hmem
        rcases List.mem_append.mp hmem with hold | hnew
        · exact hyields task hold
        · rw [List.mem_singleton.mp hnew]
          exact hsub.docsOf_eq ▸ hsub
      · have hgrow := hdiv.below_nextLower hlt
        change sharedDocs tuples (s.tasks ++ [_]) ~ below ids (nextLower uLower)
        rw [sharedDocs_split, hsub.docsOf_eq]
        simp only [sharedDocs, List.flatMap_nil, List.append_nil]
        exact (hbelow.append_right _).trans hgrow
      · change holds (mergedDocs tuples (s.tasks ++ [_])) s.target
        rw [mergedDocs_split_running rfl]
        simpa [mergedDocs, sharedDocs] using htarget
  | wait uLower hcaller hge =>
      refine ⟨hyields, ?_, htarget⟩
      rw [hcaller] at hshared
      -- the loop is over, so every document is below the bound
      have hall : below ids uLower = ids := below_of_forall
        (fun id hid => (hdiv.below_rBound id hid).trans_le (Nat.not_lt.mp hge))
      change sharedDocs tuples s.tasks ~ ids
      exact hall ▸ hshared
  | merge before after subQuery htasks =>
      rw [htasks] at hyields hshared htarget
      refine ⟨yields_split hyields, ?_, ?_⟩
      · rw [sharedDocs_split] at hshared ⊢
        exact hshared
      · rw [mergedDocs_split_running rfl] at htarget
        -- the documents of different sections are different
        have hsub : mergedDocs tuples before ++ mergedDocs tuples after ++
            docsOf tuples subQuery <+~ ids := by
          have hpart : mergedDocs tuples (before ++ ⟨subQuery, .merged⟩ :: after) <+~ _ :=
            mergedDocs_subperm _
          rw [sharedDocs_split] at hshared hpart
          exact ((mergedDocs_perm rfl).symm.subperm.trans hpart).trans (shared_subperm hshared)
        rw [hdiv.merge_eq]
        exact hperm _ _ _ (mergedDocs_perm rfl).symm
          (hmerge _ _ _ _ htarget (hyields ⟨subQuery, .running⟩ (by simp)) hsub)
  | decrement before after subQuery htasks =>
      rw [htasks] at hyields hshared htarget
      refine ⟨yields_split hyields, ?_, ?_⟩
      · rw [sharedDocs_split] at hshared ⊢
        exact hshared
      · have hmerged : (Task.mk subQuery
            (if s.nParts - 1 = 0 then Progress.notifying else .done)).merged = true := by
          split <;> rfl
        rw [mergedDocs_split_merged rfl] at htarget
        rw [mergedDocs_split_merged hmerged]
        exact htarget
  | notify before after subQuery htasks =>
      rw [htasks] at hyields hshared htarget
      refine ⟨yields_split hyields, ?_, ?_⟩
      · rw [sharedDocs_split] at hshared ⊢
        exact hshared.notify
      · rw [mergedDocs_split_merged rfl] at htarget ⊢
        exact htarget

theorem sectionedInv_step (hdiv : Divided env tuples ids) (hless : StrictTotal params.less)
    (hlimit : 0 < params.nLimit) (hinv : SectionedInv env params tuples ids s)
    (hstep : env.step s mover = some s') : SectionedInv env params tuples ids s' := by
  have hinv' : SectionsInv env tuples ids (Target params tuples) s' := by
    apply sectionsInv_step hdiv ?_ ?_ ⟨hinv.yields, hinv.shared, hinv.target⟩ hstep
    · exact fun _ _ _ hperm htarget => htarget.perm hperm
    · intro merged part subQuery target htarget hyields hsub
      apply mergeSection_target hless hlimit htarget hyields
      · obtain ⟨l, hl, hle⟩ := hsub
        exact hl.nodup_iff.mp (hle.nodup hdiv.nodup)
      · exact fun hmem => hdiv.noDoc_not_mem (hsub.subset (List.mem_append_left _ hmem))
  exact ⟨hinv'.yields, hinv'.shared, hinv'.target⟩

end Run

omit [LT W] [DecidableLT W] in
/-- When the caller waits or is back and every task has merged, all documents have been merged. -/
theorem SectionsInv.all_merged {holds : List ℕ → Except Exn (Documents W) → Prop}
    {env : Parallel (Except Exn (Documents W)) (IQuery W)} {ids : List ℕ}
    {s : Parts (Except Exn (Documents W)) (IQuery W)} (hinv : SectionsInv env tuples ids holds s)
    (hshared : s.caller = .waiting ∨ s.caller = .returned)
    (hmerged : ∀ task ∈ s.tasks, task.merged = true) : mergedDocs tuples s.tasks ~ ids := by
  have hdocs := hinv.shared
  rw [mergedDocs, List.filter_eq_self.mpr hmerged]
  rcases hshared with hcaller | hcaller
  · rw [hcaller] at hdocs
    exact hdocs
  · rw [hcaller] at hdocs
    exact hdocs

/-- Whatever the order of the merges, the target of the parallel branch ends with what a linear
search over the whole query collects. -/
theorem sectioned_eq_linear (params : Params W) (hless : StrictTotal params.less)
    (hlimit : 0 < params.nLimit) (query : IQuery W) (tuples : ℕ → Abstract W) (ids : List ℕ)
    (hyields : query.Yields tuples ids) (rBound : ℕ) (hmax : rBound ≤ 0xFFFFC000)
    (hbound : ∀ id ∈ ids, id < rBound) (Duplicate : ℕ → ℕ → Option (IQuery W))
    (hdivides : Divides Duplicate tuples ids) (movers : List Mover)
    (s : Parts (Except Exn (Documents W)) (IQuery W))
    (hrun : run (sectionedSearch rBound Duplicate).step
      (Parallel.start (.ok (.create params))) movers = some s)
    (hshared : s.caller = .waiting ∨ s.caller = .returned)
    (hmerged : ∀ task ∈ s.tasks, task.merged = true) :
    ∃ target found linear, s.target = .ok target ∧
      (Documents.create params).searchLinear query = .ok (found, linear) ∧
      target.nFound = linear.nFound ∧ target.nCount = linear.nCount ∧
      target.buffer ~ linear.buffer ∧
      ∀ entity ∈ linear.buffer,
        target.quoBox.get entity.id = linear.quoBox.get entity.id ∧
          (linear.quoBox.get entity.id).isSome = true := by
  have hdiv : Divided (sectionedSearch rBound Duplicate) tuples ids :=
    ⟨hdivides, rfl, hmax, hbound, hyields.nodup, hyields.noDoc_not_mem⟩
  have hinv : SectionedInv (sectionedSearch rBound Duplicate) params tuples ids s :=
    run_invariant (fun _ _ _ => sectionedInv_step hdiv hless hlimit)
      (sectionedInv_start params tuples ids) hrun
  have hall : mergedDocs tuples s.tasks ~ ids := SectionsInv.all_merged
    ⟨hinv.yields, hinv.shared, hinv.target⟩ hshared hmerged
  obtain ⟨target, htarget, hparams, hcollects, -⟩ := hinv.target.perm hall
  obtain ⟨linear, hsearch, hlinear⟩ := searchLinear_inv hless hlimit hyields
  obtain ⟨hfound, hbuffer, hquotes⟩ := Collects.unique (hlinear.params_eq ▸ hless)
    (hparams.trans hlinear.params_eq.symm) hyields.nodup hlinear.collects hcollects
  exact ⟨target, _, linear, htarget, hsearch, hfound, hbuffer.length_eq, hbuffer, hquotes⟩

/-- Sub-queries over the sections of a list of documents, none for an empty section. -/
def duplicateOf (tuples : ℕ → Abstract W) (ids : List ℕ) (lo hi : ℕ) : Option (IQuery W) :=
  if sectionOf ids lo hi = [] then none else some (.ofDocuments tuples (sectionOf ids lo hi))

omit [LT W] [DecidableLT W] in
theorem duplicateOf_divides (tuples : ℕ → Abstract W) {ids : List ℕ}
    (hincreasing : ids.Pairwise (· < ·)) (hrange : ∀ id ∈ ids, 1 ≤ id ∧ id < noDoc) :
    Divides (duplicateOf tuples ids) tuples ids where
  some_yields lo hi subQuery hquery := by
    unfold duplicateOf at hquery
    split at hquery
    next => cases hquery
    next =>
      cases hquery
      apply IQuery.ofDocuments_yields
      · exact hincreasing.sublist List.filter_sublist
      · exact fun id hid => hrange id (List.mem_of_mem_filter hid)
  none_empty lo hi hquery := by
    unfold duplicateOf at hquery
    split at hquery
    next hempty => exact hempty
    next => cases hquery

/-- Five sections, two of them with documents; the second one is merged first. -/
theorem sectioned_eq_linear_two : ∃ s target linear,
    run (sectionedSearch 0x10001 (duplicateOf sampleTuples [3, 4, 0x4001])).step
      (Parallel.start (.ok (.create secondPage)))
      ([.caller, .caller, .caller, .caller] ++ [.task 1, .task 0] ++
        [.caller, .caller, .caller, .caller]) = some s ∧
    s.target = .ok target ∧
    (Documents.create secondPage).searchLinear (.ofDocuments sampleTuples [3, 4, 0x4001]) =
      .ok linear ∧
    target.nFound = linear.2.nFound ∧ target.buffer ~ linear.2.buffer := by
  have hincreasing : [3, 4, 0x4001].Pairwise (· < ·) := by decide
  have hrange : ∀ id ∈ [3, 4, 0x4001], 1 ≤ id ∧ id < noDoc := by decide
  obtain ⟨target, found, linear, htarget, hsearch, hfound, -, hbuffer, -⟩ :=
    sectioned_eq_linear secondPage secondPage_strictTotal (by decide)
      (.ofDocuments sampleTuples [3, 4, 0x4001]) sampleTuples [3, 4, 0x4001]
      (IQuery.ofDocuments_yields sampleTuples hincreasing hrange) 0x10001 (by decide) (by decide)
      (duplicateOf sampleTuples [3, 4, 0x4001])
      (duplicateOf_divides sampleTuples hincreasing hrange)
      ([.caller, .caller, .caller, .caller] ++ [.task 1, .task 0] ++
        [.caller, .caller, .caller, .caller]) _ rfl (.inl rfl) (by decide)
  exact ⟨_, target, (found, linear), rfl, htarget, hsearch, hfound, hbuffer⟩

end Palmira.Collect
