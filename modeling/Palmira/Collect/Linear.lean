import Palmira.Collect.Collected

/-!
# Linear search

The linear search takes in exactly the documents of its query, and the report
shows the requested page of their ranking.
-/

namespace Palmira.Collect

open TopList
open scoped List

variable {W : Type}

/-! ## The cached worst element -/

/-- No element of the buffer is ranked behind the one in this slot. -/
def IsWorst (c : Documents W) (worst : ℕ) : Prop :=
  ∃ held, c.buffer[worst]? = some held ∧ ∀ entity ∈ c.buffer, c.params.less held entity = false

/-- A cached worst slot is right, and only a full buffer has one. -/
def WorstValid (c : Documents W) : Prop :=
  ∀ worst, c.pWorst = some worst → c.nLimit ≤ c.nCount ∧ IsWorst c worst

theorem detectWorst_isWorst (c : Documents W) (hless : StrictTotal c.params.less)
    (seen rest : List (Entity W)) (worst : ℕ) (held : Entity W)
    (hbuffer : c.buffer = seen ++ rest) (hheld : c.buffer[worst]? = some held)
    (hseen : ∀ entity ∈ seen, c.params.less held entity = false) :
    IsWorst c (Documents.detectWorst c.params worst held seen.length rest) := by
  induction rest generalizing seen worst held with
  | nil => exact ⟨held, hheld, by simpa [hbuffer] using hseen⟩
  | cons beg rest ih =>
      have hbuffer' : c.buffer = (seen ++ [beg]) ++ rest := by simp [hbuffer]
      have hlength : (seen ++ [beg]).length = seen.length + 1 := by simp
      unfold Documents.detectWorst
      split
      next hlt =>
        rw [← hlength]
        apply ih (seen ++ [beg]) seen.length beg hbuffer' (by simp [hbuffer])
        intro entity hentity
        -- the old worst one is before the new one, so nothing seen is behind the new one
        rcases List.mem_append.mp hentity with hold | hnew
        · exact hless.not_less_trans (hless.asymm hlt) (hseen entity hold)
        · rw [List.mem_singleton.mp hnew]
          exact hless.irrefl beg
      next hnlt =>
        rw [← hlength]
        apply ih (seen ++ [beg]) worst held hbuffer' hheld
        intro entity hentity
        rcases List.mem_append.mp hentity with hold | hnew
        · exact hseen entity hold
        · rw [List.mem_singleton.mp hnew]
          exact Bool.eq_false_of_not_eq_true hnlt

/-- A full buffer gives its worst slot, cached or not. -/
theorem worstSlot_isWorst (c : Documents W) (hless : StrictTotal c.params.less)
    (hvalid : WorstValid c) (hne : c.buffer ≠ []) :
    ∃ worst, c.worstSlot = some worst ∧ IsWorst c worst := by
  cases hcache : c.pWorst with
  | some worst => exact ⟨worst, by simp [Documents.worstSlot, hcache], (hvalid worst hcache).2⟩
  | none =>
      cases hbuffer : c.buffer with
      | nil => exact absurd hbuffer hne
      | cons first rest =>
          refine ⟨Documents.detectWorst c.params 0 first 1 rest,
            by simp only [Documents.worstSlot, hcache, hbuffer], ?_⟩
          apply detectWorst_isWorst c hless [first] rest 0 first hbuffer (by simp [hbuffer])
          intro entity hentity
          rw [List.mem_singleton.mp hentity]
          exact hless.irrefl first

/-! ## One document -/

variable [LT W] [DecidableLT W] {tuples : ℕ → Abstract W} {c : Documents W} {ids : List ℕ}

/-- What a run of the search keeps: the documents seen, the cache, the settings. -/
structure SearchInv (params : Params W) (tuples : ℕ → Abstract W) (c : Documents W)
    (ids : List ℕ) : Prop where
  params_eq : c.params = params
  collects : Collects tuples c ids
  worst : WorstValid c

theorem searchInv_create (params : Params W) (tuples : ℕ → Abstract W) :
    SearchInv params tuples (.create params) [] where
  params_eq := rfl
  collects := .create params tuples
  worst := by intro worst hcache; cases hcache

/-- A document whose abstract has no mode leaves everything as it is. -/
theorem addDoc_none {params : Params W} (hinv : SearchInv params tuples c ids) {id : ℕ}
    (hnone : (tuples id).isNone = true) :
    c.addDoc id (tuples id) = .ok c ∧ SearchInv params tuples c (id :: ids) := by
  obtain ⟨rfl, ⟨hfound, hkeeps⟩, hworst⟩ := hinv
  have hsame : matching tuples (id :: ids) = matching tuples ids := by simp [matching, hnone]
  have hentities : entities c.params tuples (id :: ids) = entities c.params tuples ids := by
    rw [entities, hsame, entities]
  refine ⟨by rw [Documents.addDoc, if_pos hnone], rfl, ⟨?_, ?_⟩, hworst⟩
  · rw [hsame, hfound]
  · rw [hentities]
    exact hkeeps

section Found

variable {params : Params W} (hinv : SearchInv params tuples c ids) (hids : ids.Nodup)
  {id : ℕ} (hsome : (tuples id).isNone = false)

include hinv hsome

theorem found_cons : c.nFound + 1 = (matching tuples (id :: ids)).length := by
  simp [matching, hsome, hinv.collects.found]

/-- While the buffer has room, a found document is appended. -/
theorem addDoc_room (hrange : noDoc ∉ ids) (hroom : c.nCount < c.nLimit) :
    ∃ c', c.addDoc id (tuples id) = .ok c' ∧ SearchInv params tuples c' (id :: ids) := by
  have hfound := found_cons hinv hsome
  obtain ⟨rfl, ⟨-, hkeeps⟩, hworst⟩ := hinv
  have hset := hkeeps.set_new hroom id (tuples id) (fresh_entities hrange _)
  have hadd : c.addDoc id (tuples id) = .ok { c with
      quoBox := { c.quoBox with items := c.quoBox.items ++ [(id, copyAbstract (tuples id))] }
      buffer := c.buffer ++ [entityOf c.params tuples id]
      nFound := c.nFound + 1 } := by
    simp only [Documents.addDoc, hsome, if_pos hroom, hset]
    rfl
  refine ⟨_, hadd, rfl, ⟨hfound, ?_, ?_, hkeeps.limit⟩, ?_⟩
  · rw [entities_cons_of_some hsome]
    exact (hkeeps.top.add hroom _).perm (List.perm_append_singleton _ _).symm (.refl _)
  · change c.quoBox.items ++ [_] ~ (c.buffer ++ [_]).map _
    rw [List.map_append]
    exact hkeeps.quotes.append_right _
  · intro worst hcache
    exact absurd (hworst worst hcache).1 (Nat.not_le.mpr hroom)

variable (hless : StrictTotal params.less) (hfull : c.buffer.length = c.nLimit) {worst : ℕ}
  {held : Entity W} (hslot : c.worstSlot = some worst) (hheld : c.buffer[worst]? = some held)
  (hrank : ∀ entity ∈ c.buffer, params.less held entity = false)

include hless hfull hslot hheld hrank

/-- In a full buffer a better document takes the place of the worst one. -/
theorem addDoc_better (hids : ids.Nodup)
    (hbetter : params.less (entityOf params tuples id) held = true) :
    ∃ c', c.addDoc id (tuples id) = .ok c' ∧ SearchInv params tuples c' (id :: ids) := by
  have hfound := found_cons hinv hsome
  obtain ⟨rfl, ⟨-, hkeeps⟩, -⟩ := hinv
  obtain ⟨hlt, hget⟩ := List.getElem?_eq_some_iff.mp hheld
  have hbuffer : c.buffer ~ held :: c.buffer.eraseIdx worst :=
    hget ▸ (List.getElem_cons_eraseIdx_perm hlt).symm
  have hbuffer' : c.buffer.set worst (entityOf c.params tuples id) ~
      entityOf c.params tuples id :: c.buffer.eraseIdx worst :=
    List.set_perm_cons_eraseIdx hlt _
  obtain ⟨items, hset, hitems⟩ :=
    hkeeps.set_old (nodup_entities hids _) hbuffer id (tuples id)
  have hadd : c.addDoc id (tuples id) = .ok { c with
      quoBox := { c.quoBox with items }
      buffer := c.buffer.set worst (entityOf c.params tuples id)
      nFound := c.nFound + 1
      pWorst := none } := by
    have hroom : ¬ c.nCount < c.nLimit := hfull.ge.not_gt
    change c.params.less ⟨id, c.params.ranker id (tuples id)⟩ held = true at hbetter
    simp only [Documents.addDoc, hsome, if_neg hroom, hslot, hheld, if_pos hbetter, hset]
    rfl
  refine ⟨_, hadd, rfl, ⟨hfound, ?_, ?_, hkeeps.limit⟩, ?_⟩
  · have hlen : (c.buffer.eraseIdx worst).length + 1 = c.nLimit := by
      rw [← hfull, hbuffer.length_eq, List.length_cons]
    have hothers : ∀ entity ∈ c.buffer.eraseIdx worst, c.params.less held entity = false :=
      fun entity hmem => hrank entity (hbuffer.mem_iff.mpr (List.mem_cons_of_mem _ hmem))
    -- the worst of the best ones gives way to a better one
    have htop := (hkeeps.top.perm hbuffer (.refl _)).replace hless hlen hothers
      (hless.asymm hbetter)
    rw [entities_cons_of_some hsome]
    exact htop.perm hbuffer'.symm (.refl _)
  · exact hitems.trans (hbuffer'.map (quoteOf tuples)).symm
  · intro worst' hcache
    cases hcache

/-- In a full buffer any other document is counted only; the worst slot stays cached. -/
theorem addDoc_worse (hworse : params.less (entityOf params tuples id) held = false) :
    ∃ c', c.addDoc id (tuples id) = .ok c' ∧ SearchInv params tuples c' (id :: ids) := by
  have hfound := found_cons hinv hsome
  obtain ⟨rfl, ⟨-, hkeeps⟩, -⟩ := hinv
  have hadd : c.addDoc id (tuples id) =
      .ok { c with nFound := c.nFound + 1, pWorst := some worst } := by
    have hroom : ¬ c.nCount < c.nLimit := hfull.ge.not_gt
    change c.params.less ⟨id, c.params.ranker id (tuples id)⟩ held = false at hworse
    simp only [Documents.addDoc, hsome, if_neg hroom, hslot, hheld, hworse]
    rfl
  refine ⟨_, hadd, rfl, ⟨hfound, ?_, hkeeps.quotes, hkeeps.limit⟩, ?_⟩
  · rw [entities_cons_of_some hsome]
    apply hkeeps.top.skip hfull
    exact fun entity hmem => hless.not_less_trans hworse (hrank entity hmem)
  · intro worst' hcache
    cases hcache
    exact ⟨hfull.ge, held, hheld, hrank⟩

end Found

/-- One found document keeps the invariant, whichever way it goes. -/
theorem addDoc_inv {params : Params W} (hless : StrictTotal params.less)
    (hinv : SearchInv params tuples c ids) (hlimit : 0 < params.nLimit) (hids : ids.Nodup)
    (hrange : noDoc ∉ ids) (id : ℕ) :
    ∃ c', c.addDoc id (tuples id) = .ok c' ∧ SearchInv params tuples c' (id :: ids) := by
  by_cases hnone : (tuples id).isNone = true
  · exact ⟨c, addDoc_none hinv hnone⟩
  have hsome : (tuples id).isNone = false := Bool.eq_false_of_not_eq_true hnone
  by_cases hroom : c.nCount < c.nLimit
  · exact addDoc_room hinv hsome hrange hroom
  -- the buffer is full, so it has a worst element to compare with
  have hfull : c.buffer.length = c.nLimit :=
    Nat.le_antisymm hinv.collects.keeps.top.length_le (Nat.not_lt.mp hroom)
  have hne : c.buffer ≠ [] := by
    intro hnil
    rw [hnil, Documents.nLimit, hinv.params_eq] at hfull
    exact absurd hfull.symm (Nat.ne_of_gt hlimit)
  obtain ⟨worst, hslot, held, hheld, hrank⟩ :=
    worstSlot_isWorst c (hinv.params_eq ▸ hless) hinv.worst hne
  rw [hinv.params_eq] at hrank
  by_cases hbetter : params.less (entityOf params tuples id) held = true
  · exact addDoc_better hinv hsome hless hfull hslot hheld hrank hids hbetter
  · exact addDoc_worse hinv hsome hless hfull hslot hheld hrank
      (Bool.eq_false_of_not_eq_true hbetter)

/-! ## The whole query -/

/-- Nothing behind `id` is found among documents up to it. -/
theorem find?_seen {seen : List ℕ} {id : ℕ} (hid : ∀ d ∈ seen, d ≤ id) :
    seen.find? (fun d => decide (id + 1 ≤ d)) = none := by
  apply List.find?_eq_none.mpr
  intro d hd
  rw [decide_eq_true_eq]
  exact Nat.not_le.mpr (Nat.lt_succ_of_le (hid d hd))

omit [LT W] [DecidableLT W] in
theorem IQuery.Yields.next {query : IQuery W} {seen rest : List ℕ} {next id : ℕ}
    (hyields : query.Yields tuples (seen ++ next :: rest)) (hid : ∀ d ∈ seen, d ≤ id)
    (hlt : id < next) : query.searchDoc (id + 1) = next := by
  have hrange := hyields.inRange next (by simp)
  have hseen := find?_seen hid
  have hfirst : (next :: rest).find? (fun d => decide (id + 1 ≤ d)) = some next :=
    List.find?_cons_of_pos (decide_eq_true hlt)
  rw [hyields.searchDoc_eq _ (by omega), List.find?_append, hseen, Option.none_or, hfirst]
  rfl

omit [LT W] [DecidableLT W] in
theorem IQuery.Yields.finished {query : IQuery W} {ids : List ℕ} {id : ℕ}
    (hyields : query.Yields tuples ids) (hid : ∀ d ∈ ids, d ≤ id) (hlt : id < noDoc) :
    query.searchDoc (id + 1) = noDoc := by
  rw [hyields.searchDoc_eq _ (by omega), find?_seen hid]
  rfl

omit [LT W] [DecidableLT W] in
/-- The loop goes through the documents not yet seen, each once, and stops. -/
theorem IQuery.Yields.visited_eq {query : IQuery W} {seen rest : List ℕ} {id : ℕ}
    (hyields : query.Yields tuples (seen ++ rest)) (hseen : ∀ d ∈ seen, d ≤ id)
    (hrest : ∀ d ∈ rest, id < d) (hid : id < noDoc) : query.visited id = rest := by
  induction rest generalizing seen id with
  | nil =>
      rw [List.append_nil] at hyields
      rw [IQuery.visited, dif_pos hid, if_pos (hyields.finished hseen hid)]
  | cons next rest ih =>
      have hlt : id < next := hrest next List.mem_cons_self
      have hnext := hyields.next hseen hlt
      have hrange := hyields.inRange next (by simp)
      have hyields' : query.Yields tuples ((seen ++ [next]) ++ rest) := by simpa using hyields
      have htail := (List.pairwise_append.mp hyields.increasing).2.1
      have hrest' := ih hyields'
        (by
          intro d hd
          rcases List.mem_append.mp hd with hold | hnew
          · exact (hseen d hold).trans hlt.le
          · exact (List.mem_singleton.mp hnew).le)
        (fun d hd => (List.pairwise_cons.mp htail).1 d hd) hrange.2
      rw [IQuery.visited, dif_pos hid, hnext, if_neg (Nat.ne_of_lt hrange.2), hrest']

omit [LT W] [DecidableLT W] in
theorem IQuery.Yields.visited_zero {query : IQuery W} {ids : List ℕ}
    (hyields : query.Yields tuples ids) : query.visited 0 = ids := by
  have hyields' : query.Yields tuples ([] ++ ids) := hyields
  exact hyields'.visited_eq (by simp) (fun d hd => (hyields.inRange d hd).1) (by decide)

theorem IQuery.Yields.searchLinear_eq {query : IQuery W} {ids : List ℕ}
    (hyields : query.Yields tuples ids) (c : Documents W) :
    c.searchLinear query = do
      let c' ← ids.foldlM (fun c d => c.addDoc d (query.getTuples d)) c
      return (c'.nFound != 0, c') := by
  rw [Documents.searchLinear, searchFrom_eq_foldlM, hyields.visited_zero]

/-- A linear search adds the documents of the query to those taken in before. -/
theorem searchLinear_from {params : Params W} (hless : StrictTotal params.less)
    (hlimit : 0 < params.nLimit) {query : IQuery W} {held ids : List ℕ}
    (hyields : query.Yields tuples ids) (hids : (held ++ ids).Nodup) (hrange : noDoc ∉ held)
    (hinv : SearchInv params tuples c held) :
    ∃ c', c.searchLinear query = .ok (c'.nFound != 0, c') ∧
      SearchInv params tuples c' (held ++ ids) := by
  have hstep : ∀ seen id rest c, seen ++ id :: rest = ids →
      SearchInv params tuples c (held ++ seen) →
      ∃ c', c.addDoc id (query.getTuples id) = .ok c' ∧
        SearchInv params tuples c' (held ++ (seen ++ [id])) := by
    intro seen id rest c hsplit hinv
    have hseen : (held ++ seen).Sublist (held ++ ids) :=
      (hsplit ▸ List.sublist_append_left _ _ : seen.Sublist ids).append_left held
    have hfresh : noDoc ∉ held ++ seen := by
      intro hmem
      rcases List.mem_append.mp hmem with hmem | hmem
      · exact hrange hmem
      · exact hyields.noDoc_not_mem (hsplit ▸ List.mem_append_left _ hmem)
    obtain ⟨c', hadd, hinv'⟩ := addDoc_inv hless hinv hlimit (hids.sublist hseen) hfresh id
    refine ⟨c', ?_, hinv'.params_eq, ?_, hinv'.worst⟩
    · rw [hyields.getTuples_eq id (hsplit ▸ List.mem_append_right _ List.mem_cons_self), hadd]
    · rw [← List.append_assoc]
      exact hinv'.collects.perm (List.perm_append_singleton _ _).symm
  have hstart : SearchInv params tuples c (held ++ []) := by rwa [List.append_nil]
  obtain ⟨c', hloop, hinv'⟩ := foldlM_ok hstep hstart
  exact ⟨c', by rw [hyields.searchLinear_eq, hloop]; rfl, hinv'⟩

/-- A query without documents that count leaves the collector as it is. -/
theorem searchLinear_none {query : IQuery W} {ids : List ℕ} (hyields : query.Yields tuples ids)
    (hnone : matching tuples ids = []) (c : Documents W) :
    c.searchLinear query = .ok (c.nFound != 0, c) := by
  have hstep : ∀ seen id rest c₁, seen ++ id :: rest = ids → c₁ = c →
      ∃ c', c₁.addDoc id (query.getTuples id) = .ok c' ∧ c' = c := by
    intro seen id rest c₁ hsplit hsame
    have hmem : id ∈ ids := hsplit ▸ List.mem_append_right _ List.mem_cons_self
    have hmode : (tuples id).isNone = true := by
      have hskip := List.filter_eq_nil_iff.mp hnone id hmem
      simpa using hskip
    exact ⟨c₁, by rw [Documents.addDoc, hyields.getTuples_eq id hmem, if_pos hmode], hsame⟩
  have hstart : c = c := rfl
  obtain ⟨c', hloop, rfl⟩ := foldlM_ok hstep hstart
  rw [hyields.searchLinear_eq, hloop]
  rfl

/-- A linear search on a fresh collector collects the documents of the query. -/
theorem searchLinear_inv {params : Params W} (hless : StrictTotal params.less)
    (hlimit : 0 < params.nLimit) {query : IQuery W} {ids : List ℕ}
    (hyields : query.Yields tuples ids) :
    ∃ c, (Documents.create params).searchLinear query = .ok (c.nFound != 0, c) ∧
      SearchInv params tuples c ids := by
  have hstart : SearchInv params tuples (.create params) [] := searchInv_create params tuples
  have hids : ([] ++ ids).Nodup := hyields.nodup
  exact searchLinear_from hless hlimit hyields hids List.not_mem_nil hstart

/-! ## The report -/

/-- The documents of the whole list from rank `nfirst` to rank `nfirst + ncount - 1`. -/
def page (params : Params W) (tuples : ℕ → Abstract W) (ids : List ℕ) : List (Entity W) :=
  ((ranked params.less (entities params tuples ids)).take
    (params.nfirst + params.ncount - 1)).drop (params.nfirst - 1)

/-- The documents of a report, in its order. -/
def Report.entities (report : Report W) : List (Entity W) :=
  (report.items.getD []).map (fun item => ⟨item.index, item.range⟩)

/-- One linear search and one report on a fresh collector. -/
def searchPage (params : Params W) (query : IQuery W) (getEntity : ℕ → Option IEntity)
    (fetchFrom : List UInt8 → Zmap) : Except Exn (Report W) := do
  let (_, c) ← (Documents.create params).searchLinear query
  let (report, _) ← c.finish getEntity fetchFrom
  return report

omit [LT W] [DecidableLT W] in
theorem itemsOf_ok (getEntity : ℕ → Option IEntity) (fetchFrom : List UInt8 → Zmap)
    (c : Documents W) (kept : List (Entity W))
    (hindex : ∀ entity ∈ kept, (getEntity entity.id).isSome = true) :
    ∃ items, c.itemsOf getEntity fetchFrom kept = .ok items ∧
      items.map (fun item => (⟨item.index, item.range⟩ : Entity W)) = kept := by
  induction kept with
  | nil => exact ⟨[], rfl, rfl⟩
  | cons entity rest ih =>
      obtain ⟨stored, hstored⟩ := Option.isSome_iff_exists.mp (hindex entity List.mem_cons_self)
      obtain ⟨items, hitems, hmap⟩ := ih (fun e he => hindex e (List.mem_cons_of_mem _ he))
      have hitem : ∃ item, c.item getEntity fetchFrom entity = .ok item ∧
          (⟨item.index, item.range⟩ : Entity W) = entity := by
        simp only [Documents.item, hstored]
        exact ⟨_, rfl, rfl⟩
      obtain ⟨item, hok, heq⟩ := hitem
      refine ⟨item :: items, by simp only [Documents.itemsOf, hok, hitems]; rfl, ?_⟩
      rw [List.map_cons, heq, hmap]

/-- The requested ranks can be counted in 32 bits, or there are no documents at them. -/
def PageFits (params : Params W) (found : ℕ) : Prop :=
  params.nLimit = params.nfirst + params.ncount - 1 ∨ found < params.nfirst

/-- The report of a collector shows the requested page of all it has taken in, and leaves it with
the same documents. -/
theorem finish_page (hless : StrictTotal c.params.less) (hc : Collects tuples c ids)
    (hfirst : 1 ≤ c.params.nfirst) (hfits : PageFits c.params (matching tuples ids).length)
    (getEntity : ℕ → Option IEntity)
    (hindex : ∀ id ∈ matching tuples ids, (getEntity id).isSome = true)
    (fetchFrom : List UInt8 → Zmap) :
    ∃ report c', c.finish getEntity fetchFrom = .ok (report, c') ∧
      report.found = (matching tuples ids).length ∧
      report.entities = page c.params tuples ids ∧
      (report.found < c.params.nfirst → report.items = none) ∧
      c'.params = c.params ∧ Collects tuples c' ids := by
  have hranked := hc.keeps.top.ranked_eq hless
  have hlength : (ranked c.params.less (entities c.params tuples ids)).length =
      (matching tuples ids).length := by
    rw [(ranked_perm _).length_eq, entities, List.length_map]
  have hlen : c.nCount = min c.nLimit (matching tuples ids).length := by
    rw [Documents.nCount, hc.keeps.top.length_eq, entities, List.length_map]
  -- the page starts among the kept documents, or behind all that were found
  by_cases hshow : c.nFirst ≤ c.nCount
  · have hlimit : c.params.nLimit = c.params.nfirst + c.params.ncount - 1 := by
      rcases hfits with hlimit | hfew
      · exact hlimit
      · change c.params.nfirst ≤ c.nCount at hshow
        omega
    have hkept : ∀ entity ∈ (ranked c.params.less c.buffer).drop (c.nFirst - 1),
        (getEntity entity.id).isSome = true := by
      intro entity hmem
      have hbuffer := (ranked_perm c.buffer).mem_iff.mp (List.mem_of_mem_drop hmem)
      have hid := List.mem_map_of_mem (f := Entity.id) (hc.keeps.top.subset hbuffer)
      rw [entities_ids] at hid
      exact hindex entity.id hid
    obtain ⟨items, hitems, hmap⟩ := itemsOf_ok getEntity fetchFrom
      { c with buffer := ranked c.params.less c.buffer } _ hkept
    have hsorted : ranked c.params.less c.buffer ~ c.buffer := ranked_perm c.buffer
    refine ⟨⟨c.nFirst, c.nFound, some (c.nCount + 1 - c.nFirst), some items⟩,
      { c with buffer := ranked c.params.less c.buffer }, ?_, hc.found, ?_, ?_, rfl, hc.found, ?_⟩
    · simp only [Documents.finish, if_pos hshow]
      rw [hitems]
      rfl
    · change items.map _ = _
      rw [hmap, hranked, page, ← hlimit]
      rfl
    · intro hfew
      change c.nFound < c.params.nfirst at hfew
      change c.params.nfirst ≤ c.nCount at hshow
      have hfound := hc.found
      omega
    · exact ⟨hc.keeps.top.perm hsorted.symm (.refl _),
        hc.keeps.quotes.trans (hsorted.symm.map _), hc.keeps.limit⟩
  · refine ⟨⟨c.nFirst, c.nFound, none, none⟩, c, ?_, hc.found, ?_, fun _ => rfl, rfl, hc⟩
    · rw [Documents.finish, if_neg hshow]
      rfl
    · change [] = page c.params tuples ids
      change ¬ c.params.nfirst ≤ c.nCount at hshow
      rw [page, eq_comm, List.drop_eq_nil_iff, List.length_take, hlength]
      rcases hfits with hlimit | hfew
      · have hnLimit : c.nLimit = _ := hlimit
        omega
      · omega

/-- The report of one linear search is exactly the requested page of the ranking. -/
theorem searchPage_eq_page (params : Params W) (hless : StrictTotal params.less)
    (query : IQuery W) (tuples : ℕ → Abstract W) (ids : List ℕ) (hyields : query.Yields tuples ids)
    (hfirst : 1 ≤ params.nfirst) (hcount : 1 ≤ params.ncount)
    (hsize : params.nfirst + params.ncount - 1 < 2 ^ 32)
    (getEntity : ℕ → Option IEntity)
    (hindex : ∀ id ∈ matching tuples ids, (getEntity id).isSome = true)
    (fetchFrom : List UInt8 → Zmap) :
    ∃ report, searchPage params query getEntity fetchFrom = .ok report ∧
      report.found = (matching tuples ids).length ∧
      report.entities = page params tuples ids ∧
      (report.found < params.nfirst → report.items = none) := by
  have hnLimit : params.nLimit = params.nfirst + params.ncount - 1 := by
    unfold Params.nLimit
    omega
  obtain ⟨c, hsearch, rfl, hc, _⟩ :=
    searchLinear_inv hless (show 0 < params.nLimit by omega) hyields
  obtain ⟨report, after, hfinish, hfound, hentities, hnone, -, -⟩ :=
    finish_page hless hc hfirst (.inl hnLimit) getEntity hindex fetchFrom
  refine ⟨report, ?_, hfound, hentities, hnone⟩
  simp only [searchPage, hsearch]
  change (do let (report, _) ← c.finish getEntity fetchFrom; return report) = _
  rw [hfinish]
  rfl

/-! A collector that ranks heavier documents first and shows ranks 2 and 3. -/

/-- The number of words, the greater the better; of two equal ones the smaller id. -/
def secondPage : Params ℕ where
  nfirst := 2
  ncount := 2
  differ := fun d₁ f₁ d₂ f₂ => if f₁ = f₂ then (d₁ : ℤ) - d₂ else (f₂ : ℤ) - f₁
  ranker := fun _ tuples => tuples.nWords
  quoter := none

theorem secondPage_less_iff (a b : Entity ℕ) : secondPage.less a b = true ↔
    b.weight < a.weight ∨ (a.weight = b.weight ∧ a.id < b.id) := by
  rw [Params.less, decide_eq_true_iff]
  change (if a.weight = b.weight then (a.id : ℤ) - b.id else (b.weight : ℤ) - a.weight) < 0 ↔ _
  split <;> omega

theorem secondPage_strictTotal : StrictTotal secondPage.less where
  irrefl a := by
    apply Bool.eq_false_of_not_eq_true
    rw [secondPage_less_iff]
    omega
  trans a b c hab hbc := by
    rw [secondPage_less_iff] at hab hbc ⊢
    omega
  total a b hne := by
    rw [secondPage_less_iff, secondPage_less_iff]
    by_contra hnone
    apply hne
    obtain ⟨id, weight⟩ := a
    obtain ⟨id', weight'⟩ := b
    simp only at hnone
    simp only [Entity.mk.injEq]
    omega

/-- An abstract of three words for each document, one more for even ids. -/
def sampleTuples (id : ℕ) : Abstract ℕ := ⟨3 + (id + 1) % 2, .bm25 []⟩

theorem searchPage_eq_page_three :
    ∃ report, searchPage secondPage (.ofDocuments sampleTuples [3, 4, 9])
        (fun _ => some ⟨"document", []⟩) (fun _ => []) = .ok report ∧
      report.found = 3 ∧ report.entities = [⟨3, 3⟩, ⟨9, 3⟩] ∧
      (report.found < 2 → report.items = none) := by
  have hpage : page secondPage sampleTuples [3, 4, 9] = [⟨3, 3⟩, ⟨9, 3⟩] := by
    have hranked : Ranked secondPage.less [⟨4, 4⟩, ⟨3, 3⟩, ⟨9, 3⟩] := by
      unfold Ranked
      decide
    have hperm : entities secondPage sampleTuples [3, 4, 9] ~ [⟨4, 4⟩, ⟨3, 3⟩, ⟨9, 3⟩] :=
      .swap _ _ _
    rw [page, ranked_congr secondPage_strictTotal hperm,
      ranked_eq_self secondPage_strictTotal hranked]
    rfl
  obtain ⟨report, hok, hfound, hentities, hnone⟩ := searchPage_eq_page secondPage
    secondPage_strictTotal
    (.ofDocuments sampleTuples [3, 4, 9]) sampleTuples [3, 4, 9]
    (IQuery.ofDocuments_yields sampleTuples (by decide) (by decide))
    (by decide) (by decide) (by decide) (fun _ => some ⟨"document", []⟩) (fun _ _ => rfl)
    (fun _ => [])
  exact ⟨report, hok, hfound, hentities.trans hpage, hnone⟩

end Palmira.Collect
