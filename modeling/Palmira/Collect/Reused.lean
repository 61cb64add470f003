import Palmira.Collect.Sectioned
import Palmira.Collect.Waiting

/-!
# A collector used again

`Search` and `Finish` are called on one collector in any order. Each branch of
`Search` relies on a state of the buffer that not every other call leaves: the
linear one on the cached worst slot, the parallel one on a sorted buffer.
-/

namespace Palmira.Collect

open TopList StepSystem
open scoped List

variable {W : Type}

/-- A query as `Search` is given it: its `LastIndex()` and its parts, and the documents it finds.
Different queries find different documents, so one `tuples` has the abstracts of all of them. -/
structure Query (tuples : ℕ → Abstract W) extends IQuery W where
  lastIndex : ℕ
  Duplicate : ℕ → ℕ → Option (IQuery W)
  ids : List ℕ
  yields : toIQuery.Yields tuples ids
  divides : Divides Duplicate tuples ids
  below_lastIndex : ∀ id ∈ ids, id < lastIndex

/-- A call of `ICollector`. `movers` is the order in which the threads of a parallel search move. -/
inductive Use (tuples : ℕ → Abstract W) where
  | search (query : Query tuples) (movers : List Mover)
  | finish

def Use.ids {tuples : ℕ → Abstract W} : Use tuples → List ℕ
  | .search query _ => query.ids
  | .finish => []

/-- A collector in use: the documents it was given and the reports it has made, each beside the
documents given till then. -/
structure Collecting (W : Type) where
  collector : Except Exn (Documents W)
  seen : List ℕ
  reports : List (Except Exn (Report W) × List ℕ)

theorem Task.merged_of_not_pending {τ : Type} {task : Task τ} (hpending : task.pending = false) :
    task.merged = true := by
  unfold Task.pending at hpending
  unfold Task.merged
  cases hprogress : task.progress with
  | running => simp [hprogress] at hpending
  | merged => rfl
  | notifying => rfl
  | done => rfl

namespace Collecting

def start (params : Params W) : Collecting W := ⟨.ok (.create params), [], []⟩

variable [LT W] [DecidableLT W] {tuples : ℕ → Abstract W}

/-- `async != nullptr && (rBound = query->LastIndex()) > max_thread_section * 4` -/
def isSectioned (async : Bool) (query : Query tuples) : Bool :=
  async && decide (maxThreadSection * 4 < query.lastIndex)

/-- What the threads leave once the caller is back. A task that has yet to merge or to count itself
off goes on with the variables of a call that is over. -/
def leftBy (parts : Parts (Except Exn (Documents W)) (IQuery W)) :
    Option (Except Exn (Documents W)) :=
  match parts.caller with
  | .returned =>
      if parts.tasks.any Task.pending then some (.error (.undefined "a task outlives its Search"))
      else some parts.target
  | .loop _ => none
  | .enqueue _ _ => none
  | .waiting => none

/-- `Search( query )` -/
def search (async : Bool) (query : Query tuples) (movers : List Mover)
    (collector : Except Exn (Documents W)) : Option (Except Exn (Documents W)) :=
  if isSectioned async query then
    (run (sectionedSearch query.lastIndex query.Duplicate).step
      (Parallel.start collector) movers).bind leftBy
  else some do
    let c ← collector
    let (_, c') ← c.searchLinear query.toIQuery
    return c'

variable (getEntity : ℕ → Option IEntity) (fetchFrom : List UInt8 → Zmap)

/-- `Finish( pIndex )`. It sorts the buffer before it can throw. -/
def finish (collector : Except Exn (Documents W)) :
    Except Exn (Report W) × Except Exn (Documents W) :=
  match collector with
  | .error thrown => (.error thrown, .error thrown)
  | .ok c =>
      match c.finish getEntity fetchFrom with
      | .ok (report, c') => (.ok report, .ok c')
      | .error thrown => (.error thrown, .ok { c with buffer := ranked c.params.less c.buffer })

/-- One call; a parallel search whose caller is not back yet is no call at all. -/
def step (async : Bool) (s : Collecting W) : Use tuples → Option (Collecting W)
  | .search query movers =>
      (search async query movers s.collector).map fun collector =>
        { s with collector, seen := s.seen ++ query.ids }
  | .finish =>
      some { s with
        collector := (finish getEntity fetchFrom s.collector).2
        reports := s.reports ++ [((finish getEntity fetchFrom s.collector).1, s.seen)] }

/-! ## What each call relies on -/

/-- The linear search relies on its cached worst slot, the parallel one on a sorted buffer, on
sections that do not wrap around and on a wait that starts settled; without documents that count
neither looks at the buffer. The report relies on ranks of 32 bits. -/
def Ready (params : Params W) (async : Bool) (s : Collecting W) : Use tuples → Prop
  | .search query movers =>
      if isSectioned async query then
        (∀ c, s.collector = .ok c →
          Ranked params.less c.buffer ∨ matching tuples query.ids = []) ∧
        query.lastIndex ≤ 2 ^ 32 - maxThreadSection ∧
        StepsMeet (sectionedSearch query.lastIndex query.Duplicate).step
          (sectionedSearch query.lastIndex query.Duplicate).StartsSettled
          (Parallel.start s.collector) movers
      else ∀ c, s.collector = .ok c → WorstValid c ∨ matching tuples query.ids = []
  | .finish => PageFits params (matching tuples s.seen).length

/-- The report shows the requested page of the documents. -/
def Shows (params : Params W) (tuples : ℕ → Abstract W) (ids : List ℕ)
    (outcome : Except Exn (Report W)) : Prop :=
  ∃ report, outcome = .ok report ∧ report.found = (matching tuples ids).length ∧
    report.entities = page params tuples ids

/-- The collector has taken in all it was given, and every report shows what had been given. -/
structure Whole (params : Params W) (tuples : ℕ → Abstract W) (s : Collecting W) : Prop where
  collects : ∃ c, s.collector = .ok c ∧ c.params = params ∧ Collects tuples c s.seen
  reports : ∀ made ∈ s.reports, Shows params tuples made.2 made.1
  noDoc_not_mem : noDoc ∉ s.seen

theorem whole_start (params : Params W) (tuples : ℕ → Abstract W) :
    Whole params tuples (start params) where
  collects := ⟨_, rfl, rfl, .create params tuples⟩
  reports := nofun
  noDoc_not_mem := List.not_mem_nil

/-! ## The search -/

omit [LT W] [DecidableLT W] in
/-- A parallel search that starts settled comes back behind its last merge. -/
theorem leftBy_settled {env : Parallel (Except Exn (Documents W)) (IQuery W)}
    {movers : List Mover} {parts : Parts (Except Exn (Documents W)) (IQuery W)}
    {start collector : Except Exn (Documents W)}
    (hmeet : StepsMeet env.step env.StartsSettled (Parallel.start start) movers)
    (hrun : run env.step (Parallel.start start) movers = some parts)
    (hleft : leftBy parts = some collector) :
    parts.caller = .returned ∧ parts.target = collector ∧
      ∀ task ∈ parts.tasks, task.merged = true := by
  cases hcaller : parts.caller with
  | loop uLower => simp [leftBy, hcaller] at hleft
  | enqueue uLower subQuery => simp [leftBy, hcaller] at hleft
  | waiting => simp [leftBy, hcaller] at hleft
  | returned =>
      have hsettled : Parallel.NotEarly parts := run_invariant_of_stepsMeet
        (fun _ _ _ => Parallel.notEarly_step) (Parallel.notEarly_start _) hmeet hrun
      have hpending := parts.pending_eq_zero_iff.mp (hsettled.returned hcaller)
      have hnone : parts.tasks.any Task.pending = false := by
        rw [List.any_eq_false]
        exact fun task hmem => by simp [hpending task hmem]
      simp only [leftBy, hcaller, hnone, Bool.false_eq_true, if_false, Option.some.injEq] at hleft
      exact ⟨rfl, hleft, fun task hmem => Task.merged_of_not_pending (hpending task hmem)⟩

section Search

variable {params : Params W} (hless : StrictTotal params.less) (hlimit : 0 < params.nLimit)
  {query : Query tuples} {c : Documents W} {held : List ℕ} (hparams : c.params = params)
  (hc : Collects tuples c held) (hids : (held ++ query.ids).Nodup) (hrange : noDoc ∉ held)

include hless hlimit hparams hc hids hrange

theorem searchLinear_collects (hready : WorstValid c ∨ matching tuples query.ids = []) :
    ∃ c', c.searchLinear query.toIQuery = .ok (c'.nFound != 0, c') ∧ c'.params = params ∧
      Collects tuples c' (held ++ query.ids) := by
  rcases hready with hworst | hnone
  · obtain ⟨c', hsearch, hinv⟩ :=
      searchLinear_from hless hlimit query.yields hids hrange ⟨hparams, hc, hworst⟩
    exact ⟨c', hsearch, hinv.params_eq, hinv.collects⟩
  · exact ⟨c, searchLinear_none query.yields hnone c, hparams, hc.append_none hnone⟩

/-- The target has taken in `held` before the call and `merged` in it. It is sorted, or there is
nothing to merge into it. -/
def MergedInto (params : Params W) (tuples : ℕ → Abstract W) (held ids merged : List ℕ)
    (target : Except Exn (Documents W)) : Prop :=
  ∃ c, target = .ok c ∧ c.params = params ∧ Collects tuples c (held ++ merged) ∧
    (Ranked params.less c.buffer ∨ matching tuples ids = [])

omit hparams hc in
theorem mergeSection_into {merged part : List ℕ} {subQuery : IQuery W}
    {target : Except Exn (Documents W)}
    (hinto : MergedInto params tuples held query.ids merged target)
    (hyields : subQuery.Yields tuples part) (hsub : merged ++ part <+~ query.ids) :
    MergedInto params tuples held query.ids (merged ++ part) (mergeSection subQuery target) := by
  obtain ⟨c, rfl, hparams, hc, hready⟩ := hinto
  rw [MergedInto, ← List.append_assoc]
  have hsub' : held ++ merged ++ part <+~ held ++ query.ids := by
    rw [List.append_assoc]
    exact (List.subperm_append_left held).mpr hsub
  rcases hready with hsorted | hnone
  · have hfresh : noDoc ∉ held ++ merged := by
      intro hmem
      rcases List.mem_append.mp hmem with hmem | hmem
      · exact hrange hmem
      · exact query.yields.noDoc_not_mem (hsub.subset (List.mem_append_left _ hmem))
    have hnodup : (held ++ merged ++ part).Nodup := by
      obtain ⟨l, hl, hle⟩ := hsub'
      exact hl.nodup_iff.mp (hle.nodup hids)
    obtain ⟨c', hmerge, hparams', hc', hsorted'⟩ := mergeSection_target hless hlimit
      ⟨c, rfl, hparams, hc, hsorted⟩ hyields hnodup hfresh
    exact ⟨c', hmerge, hparams', hc', .inl hsorted'⟩
  · have hpart : matching tuples part = [] := by
      rw [List.eq_nil_iff_forall_not_mem]
      intro id hid
      obtain ⟨hmem, hmode⟩ := mem_matching.mp hid
      have hid' := mem_matching.mpr ⟨hsub.subset (List.mem_append_right _ hmem), hmode⟩
      rw [hnone] at hid'
      exact List.not_mem_nil hid'
    exact ⟨c, mergeSection_none hyields hpart c, hparams, hc.append_none hpart, .inr hnone⟩

/-- A parallel search that starts settled comes back with everything merged. -/
theorem sectioned_collects {rest : List Mover}
    {parts : Parts (Except Exn (Documents W)) (IQuery W)} {collector : Except Exn (Documents W)}
    (hready : Ranked params.less c.buffer ∨ matching tuples query.ids = [])
    (hmax : query.lastIndex ≤ 2 ^ 32 - maxThreadSection)
    (hmeet : StepsMeet (sectionedSearch query.lastIndex query.Duplicate).step
      (sectionedSearch query.lastIndex query.Duplicate).StartsSettled
      (Parallel.start (.ok c)) rest)
    (hrun : run (sectionedSearch query.lastIndex query.Duplicate).step
      (Parallel.start (.ok c)) rest = some parts)
    (hleft : leftBy parts = some collector) :
    ∃ c', collector = .ok c' ∧ c'.params = params ∧ Collects tuples c' (held ++ query.ids) := by
  have hdiv : Divided (sectionedSearch query.lastIndex query.Duplicate) tuples query.ids :=
    ⟨query.divides, rfl, hmax, query.below_lastIndex, query.yields.nodup,
      query.yields.noDoc_not_mem⟩
  have hstart : SectionsInv (sectionedSearch query.lastIndex query.Duplicate) tuples query.ids
      (MergedInto params tuples held query.ids) (Parallel.start (.ok c)) := by
    apply sectionsInv_start
    exact ⟨c, rfl, hparams, by rwa [List.append_nil], hready⟩
  have hinv : SectionsInv (sectionedSearch query.lastIndex query.Duplicate) tuples query.ids
      (MergedInto params tuples held query.ids) parts := by
    refine run_invariant (fun _ _ _ hinv hstep => ?_) hstart hrun
    apply sectionsInv_step hdiv ?_ ?_ hinv hstep
    · rintro merged merged' _ hperm ⟨c, rfl, hparams, hc, hready⟩
      exact ⟨c, rfl, hparams, hc.perm (hperm.append_left held), hready⟩
    · exact fun _ _ _ _ => mergeSection_into hless hlimit hids hrange
  obtain ⟨hcaller, htarget, hmerged⟩ := leftBy_settled hmeet hrun hleft
  obtain ⟨c', hok, hparams', hc', -⟩ := hinv.target
  refine ⟨c', htarget ▸ hok, hparams', ?_⟩
  exact hc'.perm ((hinv.all_merged (.inr hcaller) hmerged).append_left held)

end Search

/-! ## The run -/

section Run

variable {params : Params W} {async : Bool} {getEntity : ℕ → Option IEntity}
  {fetchFrom : List UInt8 → Zmap} {s s' : Collecting W}

/-- A search that finds what it relies on adds the documents of its query. -/
theorem whole_search (hless : StrictTotal params.less) (hlimit : 0 < params.nLimit)
    (hwhole : Whole params tuples s) {query : Query tuples} {movers : List Mover}
    (hids : (s.seen ++ query.ids).Nodup) (hready : Ready params async s (.search query movers))
    (hstep : step getEntity fetchFrom async s (.search query movers) = some s') :
    Whole params tuples s' := by
  obtain ⟨⟨c, hcollector, hparams, hc⟩, hreports, hrange⟩ := hwhole
  obtain ⟨collector, hsearch, rfl⟩ := Option.map_eq_some_iff.mp hstep
  have hfresh : noDoc ∉ s.seen ++ query.ids := by
    intro hmem
    rcases List.mem_append.mp hmem with hmem | hmem
    · exact hrange hmem
    · exact query.yields.noDoc_not_mem hmem
  refine ⟨?_, hreports, hfresh⟩
  rw [hcollector] at hsearch
  by_cases hbranch : isSectioned async query = true
  · simp only [Ready, hbranch, if_true, hcollector] at hready
    simp only [search, hbranch, if_true] at hsearch
    obtain ⟨hready, hmax, hmeet⟩ := hready
    obtain ⟨parts, hrun, hleft⟩ := Option.bind_eq_some_iff.mp hsearch
    exact sectioned_collects hless hlimit hparams hc hids hrange (hready c rfl) hmax hmeet hrun
      hleft
  · simp only [Ready, hbranch, if_false, Bool.false_eq_true] at hready
    simp only [search, hbranch, if_false, Bool.false_eq_true, Option.some.injEq] at hsearch
    obtain ⟨c', hok, hparams', hc'⟩ :=
      searchLinear_collects hless hlimit hparams hc hids hrange (hready c hcollector)
    refine ⟨c', ?_, hparams', hc'⟩
    rw [← hsearch]
    change (do let (_, c') ← c.searchLinear query.toIQuery; return c') = _
    rw [hok]
    rfl

/-- A report shows the page of the documents given so far and takes nothing away. -/
theorem whole_finish (hless : StrictTotal params.less) (hfirst : 1 ≤ params.nfirst)
    (hwhole : Whole params tuples s)
    (hindex : ∀ id ∈ matching tuples s.seen, (getEntity id).isSome = true)
    (hready : PageFits params (matching tuples s.seen).length)
    (hstep : step getEntity fetchFrom async s (.finish : Use tuples) = some s') :
    Whole params tuples s' := by
  obtain ⟨⟨c, hcollector, rfl, hc⟩, hreports, hrange⟩ := hwhole
  obtain ⟨report, c', hfinish, hfound, hentities, -, hparams', hc'⟩ :=
    finish_page hless hc hfirst hready getEntity hindex fetchFrom
  have hboth : finish getEntity fetchFrom s.collector = (.ok report, .ok c') := by
    simp only [finish, hcollector, hfinish]
  simp only [step, hboth, Option.some.injEq] at hstep
  subst hstep
  refine ⟨⟨c', rfl, hparams', hc'⟩, ?_, hrange⟩
  intro made hmem
  rcases List.mem_append.mp hmem with hold | hnew
  · exact hreports made hold
  · rw [List.mem_singleton.mp hnew]
    exact ⟨report, rfl, hfound, hentities⟩

theorem seen_step {use : Use tuples} (hstep : step getEntity fetchFrom async s use = some s') :
    s'.seen = s.seen ++ use.ids := by
  cases use with
  | search query movers =>
      obtain ⟨collector, -, rfl⟩ := Option.map_eq_some_iff.mp hstep
      rfl
  | finish =>
      cases hstep
      exact (List.append_nil _).symm

theorem whole_run (hless : StrictTotal params.less) (hlimit : 0 < params.nLimit)
    (hfirst : 1 ≤ params.nfirst) {uses : List (Use tuples)} (hwhole : Whole params tuples s)
    (hids : (s.seen ++ uses.flatMap Use.ids).Nodup)
    (hindex : ∀ id ∈ matching tuples (s.seen ++ uses.flatMap Use.ids),
      (getEntity id).isSome = true)
    (hmeet : StepsMeet (step getEntity fetchFrom async) (Ready params async) s uses)
    (hrun : run (step getEntity fetchFrom async) s uses = some s') :
    Whole params tuples s' ∧ s'.seen = s.seen ++ uses.flatMap Use.ids := by
  induction uses generalizing s with
  | nil =>
      cases hrun
      exact ⟨hwhole, (List.append_nil _).symm⟩
  | cons use rest ih =>
      obtain ⟨s₁, hstep, hrest⟩ := exists_step_of_run_cons hrun
      have hseen : s₁.seen = s.seen ++ use.ids := seen_step hstep
      rw [List.flatMap_cons, ← List.append_assoc, ← hseen] at hids hindex ⊢
      have hwhole₁ : Whole params tuples s₁ := by
        cases use with
        | search query movers =>
            have hnow := hids.sublist (List.sublist_append_left _ _)
            rw [hseen] at hnow
            exact whole_search hless hlimit hwhole hnow hmeet.1 hstep
        | finish =>
            refine whole_finish hless hfirst hwhole ?_ hmeet.1 hstep
            intro id hid
            obtain ⟨hmem, hmode⟩ := mem_matching.mp hid
            apply hindex
            refine mem_matching.mpr ⟨List.mem_append_left _ ?_, hmode⟩
            rw [hseen]
            exact List.mem_append_left _ hmem
      exact ih hwhole₁ hids hindex (hmeet.2 s₁ hstep) hrest

end Run

/-- However the calls are ordered: as long as each call finds what it relies on, every report of
the collector counts and ranks all documents given to it so far. -/
theorem reports_page (params : Params W) (hless : StrictTotal params.less)
    (hlimit : 0 < params.nLimit) (hfirst : 1 ≤ params.nfirst) (tuples : ℕ → Abstract W)
    (async : Bool) (uses : List (Use tuples)) (hdisjoint : (uses.flatMap Use.ids).Nodup)
    (getEntity : ℕ → Option IEntity)
    (hindex : ∀ id ∈ matching tuples (uses.flatMap Use.ids), (getEntity id).isSome = true)
    (fetchFrom : List UInt8 → Zmap) (s : Collecting W)
    (hmeet : StepsMeet (step getEntity fetchFrom async) (Ready params async) (start params) uses)
    (hrun : run (step getEntity fetchFrom async) (start params) uses = some s) :
    s.seen = uses.flatMap Use.ids ∧ ∀ made ∈ s.reports, ∃ report, made.1 = .ok report ∧
      report.found = (matching tuples made.2).length ∧
      report.entities = page params tuples made.2 := by
  obtain ⟨hwhole, hseen⟩ :=
    whole_run hless hlimit hfirst (whole_start params tuples) hdisjoint hindex hmeet hrun
  exact ⟨hseen, hwhole.reports⟩

/-- A query over a list of documents and its parts over the sections of the list. -/
def ofDocuments {W : Type} (tuples : ℕ → Abstract W) (ids : List ℕ)
    (hincreasing : ids.Pairwise (· < ·)) (hrange : ∀ id ∈ ids, 1 ≤ id ∧ id < noDoc) :
    Query tuples where
  toIQuery := .ofDocuments tuples ids
  lastIndex := noDoc
  Duplicate := duplicateOf tuples ids
  ids := ids
  yields := IQuery.ofDocuments_yields tuples hincreasing hrange
  divides := duplicateOf_divides tuples hincreasing hrange
  below_lastIndex id hid := (hrange id hid).2

/-- Every document is in the index. -/
def anyEntity (_ : ℕ) : Option IEntity := some ⟨"document", []⟩

/-- Two searches and a report behind both. -/
def twoSearches : List (Use sampleTuples) :=
  [.search (ofDocuments sampleTuples [3, 4] (by decide) (by decide)) [],
    .search (ofDocuments sampleTuples [9] (by decide) (by decide)) [], .finish]

theorem reports_page_two : ∃ s : Collecting ℕ,
    run (step anyEntity (fun _ => []) false) (start secondPage) twoSearches = some s ∧
    s.seen = [3, 4, 9] ∧ ∀ made ∈ s.reports, ∃ report, made.1 = .ok report ∧
      report.found = (matching sampleTuples made.2).length ∧
      report.entities = page secondPage sampleTuples made.2 := by
  refine ⟨_, rfl, reports_page secondPage secondPage_strictTotal (by decide) (by decide)
    sampleTuples false twoSearches (by decide) anyEntity (fun _ _ => rfl) (fun _ => []) _ ?_ rfl⟩
  have hfresh : WorstValid (Documents.create secondPage) := nofun
  refine .cons ?_ rfl (.cons ?_ rfl (.cons ?_ rfl trivial))
  · intro c hc
    cases hc
    exact .inl hfresh
  · intro c hc
    obtain ⟨c', hsearch, hinv⟩ := searchLinear_inv (W := ℕ) secondPage_strictTotal (by decide)
      (ofDocuments sampleTuples [3, 4] (by decide) (by decide)).yields
    change (do
      let (_, c') ← (Documents.create secondPage).searchLinear _
      return c') = .ok c at hc
    rw [hsearch] at hc
    cases hc
    exact .inl hinv.worst
  · exact .inl (by decide)

/-! A collector of two documents: the report sorts the buffer, and the slot that held the worst
document then holds the best one. -/

/-- The weights of five documents by their ids. -/
def weighted (id : ℕ) : Abstract ℕ := ⟨[0, 1, 5, 0, 3].getD id 0, .bm25 []⟩

def firstPage : Params ℕ := { secondPage with nfirst := 1 }

def searchAgain : List (Use weighted) :=
  [.search (ofDocuments weighted [1, 2, 3] (by decide) (by decide)) [], .finish,
    .search (ofDocuments weighted [4] (by decide) (by decide)) [], .finish]

/-- The collector of two with its cache at slot 0. -/
def cachedFirst (buffer : List (Entity ℕ)) (nFound : ℕ) : Documents ℕ :=
  ⟨firstPage, ⟨2, [(1, weighted 1), (2, weighted 2)]⟩, buffer, nFound, some 0⟩

theorem cachedFirst_finish (buffer : List (Entity ℕ)) (hperm : buffer ~ [⟨2, 5⟩, ⟨1, 1⟩])
    (nFound : ℕ) : ∃ report,
    finish anyEntity (fun _ => []) (.ok (cachedFirst buffer nFound)) =
      (.ok report, .ok (cachedFirst [⟨2, 5⟩, ⟨1, 1⟩] nFound)) ∧
    report.found = nFound ∧ report.entities = [⟨2, 5⟩, ⟨1, 1⟩] := by
  have hless : StrictTotal firstPage.less := secondPage_strictTotal
  have hranked : Ranked firstPage.less [⟨2, 5⟩, ⟨1, 1⟩] := by
    unfold Ranked
    decide
  have hsorted : ranked (cachedFirst buffer nFound).params.less (cachedFirst buffer nFound).buffer =
      [⟨2, 5⟩, ⟨1, 1⟩] :=
    (ranked_congr hless hperm).trans (ranked_eq_self hless hranked)
  have hshow : (cachedFirst buffer nFound).nFirst ≤ (cachedFirst buffer nFound).nCount := by
    change 1 ≤ buffer.length
    rw [hperm.length_eq]
    decide
  have hfinish : (cachedFirst buffer nFound).finish anyEntity (fun _ => []) = .ok
      (⟨1, nFound, some buffer.length,
        some [⟨"document", 2, [], 5, none⟩, ⟨"document", 1, [], 1, none⟩]⟩,
        cachedFirst [⟨2, 5⟩, ⟨1, 1⟩] nFound) := by
    simp only [Documents.finish, if_pos hshow, hsorted]
    rfl
  exact ⟨_, by rw [finish, hfinish], rfl, rfl⟩

theorem search_behind_finish_misses : ∃ s report,
    run (step anyEntity (fun _ => []) false) (start firstPage) searchAgain = some s ∧
    s.reports.getLast? = some (.ok report, [1, 2, 3, 4]) ∧ report.found = 4 ∧
    report.entities = [⟨2, 5⟩, ⟨1, 1⟩] ∧
    page firstPage weighted [1, 2, 3, 4] = [⟨2, 5⟩, ⟨4, 3⟩] := by
  have hfirst : search false (ofDocuments weighted [1, 2, 3] (by decide) (by decide)) []
      (.ok (.create firstPage)) = some (.ok (cachedFirst [⟨1, 1⟩, ⟨2, 5⟩] 3)) := by
    change some (do
      let (_, c') ← (Documents.create firstPage).searchLinear _
      return c') = _
    rw [Query.yields _ |>.searchLinear_eq]
    rfl
  -- the cached slot holds the best document by now, so nothing gets past it
  have hsecond : search false (ofDocuments weighted [4] (by decide) (by decide)) []
      (.ok (cachedFirst [⟨2, 5⟩, ⟨1, 1⟩] 3)) =
      some (.ok (cachedFirst [⟨2, 5⟩, ⟨1, 1⟩] 4)) := by
    change some (do
      let (_, c') ← (cachedFirst [⟨2, 5⟩, ⟨1, 1⟩] 3).searchLinear _
      return c') = _
    rw [Query.yields _ |>.searchLinear_eq]
    rfl
  obtain ⟨report, hfinish, -, -⟩ := cachedFirst_finish [⟨1, 1⟩, ⟨2, 5⟩] (.swap _ _ _) 3
  obtain ⟨report', hfinish', hfound, hentities⟩ :=
    cachedFirst_finish [⟨2, 5⟩, ⟨1, 1⟩] (.refl _) 4
  have hrun : run (step anyEntity (fun _ => []) false) (start firstPage) searchAgain =
      some ⟨.ok (cachedFirst [⟨2, 5⟩, ⟨1, 1⟩] 4), [1, 2, 3, 4],
        [(.ok report, [1, 2, 3]), (.ok report', [1, 2, 3, 4])]⟩ := by
    simp only [searchAgain, run, step, start, hfirst, hsecond, hfinish, hfinish', Option.map_some,
      Option.bind_some]
    rfl
  have hpage : page firstPage weighted [1, 2, 3, 4] = [⟨2, 5⟩, ⟨4, 3⟩] := by
    have hless : StrictTotal firstPage.less := secondPage_strictTotal
    have hranked : Ranked firstPage.less [⟨2, 5⟩, ⟨4, 3⟩, ⟨1, 1⟩, ⟨3, 0⟩] := by
      unfold Ranked
      decide
    have hids : [1, 2, 3, 4] ~ [2, 4, 1, 3] := by decide
    have hperm : entities firstPage weighted [1, 2, 3, 4] ~
        [⟨2, 5⟩, ⟨4, 3⟩, ⟨1, 1⟩, ⟨3, 0⟩] := hids.map (entityOf firstPage weighted)
    rw [page, ranked_congr hless hperm, ranked_eq_self hless hranked]
    rfl
  exact ⟨_, report', hrun, rfl, hfound, hentities, hpage⟩

end Collecting

end Palmira.Collect
