import Palmira.Collect.Defaults
import Palmira.Collect.Bounds
import Palmira.Http.Search
import Palmira.Service.Library

/-!
# Searching the service

`StructoSearch::Search` puts a request together, collects the documents it finds and reports the
page asked for: every document with its id, its metadata and the quotes that the machine makes of
its stored image. Reading an image may throw between two items of a report.
-/

namespace Palmira.Service

open Collect (Abstract Collecting Collects Documents Doubles Item Mover PageFits Params Settles
  byRange copyAbstract entities entityOf getRange matching page smallIds)
open Effects Http TopList

variable {β T B F C W : Type}

/-- What `BuildRichQuery` makes: a query, and the abstracts of the documents it finds. -/
structure Request (W : Type) where
  tuples : ℕ → Abstract W
  query : Collect.Query tuples

/-- What a search uses of `structo` and `mtc` besides; `number` is `GetEntity( uint32_t )`, which
gives the id that a number has in the index. -/
structure Searcher (β F C W : Type) where
  getInt32 : Zmap → String → Int32 → Int32
  buildRichQuery : Zval → Zmap → F → Except Exn (Option (Request W))
  number : ℕ → Option String
  getBundle : Entity β C → Option (List β)
  reader : Reader β
  enquote : F → List Int8 → List Int8 → Abstract W → List Zval
  doubles : Doubles W
  range : W → Zval

/-- The reader undoes what an insertion did, and the index hands out a bundle that is not empty. -/
structure Searcher.Reads (searcher : Searcher β F C W) (lib : Structo β T B F C) : Prop where
  inverts : searcher.reader.Inverts lib
  getBundle_of_ne_nil : ∀ entity : Entity β C, entity.bundle ≠ [] →
    searcher.getBundle entity = some entity.bundle

/-! ## The report as a map -/

/-- One element of `items`. -/
def itemZmap (range : W → Zval) (item : Item W) : Zmap :=
  let fields := (((Zmap.put [] "id" (.charstr item.id)).put "index"
    (.word32 (.ofNat item.index))).put "extra" (.zmap item.extra)).put "range" (range item.range)
  match item.quote with
  | some quote => fields.put "quote" (.arrayZval quote)
  | none => fields

/-- What `Finish` returns. -/
def reportZmap (range : W → Zval) (report : Collect.Report W) : Zmap :=
  let fields := (Zmap.put [] "first" (.word32 (.ofNat report.first))).put "found"
    (.word32 (.ofNat report.found))
  match report.items, report.count with
  | some items, some count =>
      (fields.put "items" (.arrayZmap (items.map (itemZmap range)))).put "count"
        (.word32 (.ofNat count))
  | _, _ => fields

/-- `search.query.get_zmap()->get( "id" ) != nullptr` -/
def asksId : Zval → Bool
  | .zmap fields => (Zmap.get fields "id").isSome
  | _ => false

theorem search_of_not_asksId {lib : Structo β T B F C} {query : Zval}
    (hquery : asksId query = false) (elapsed : UInt32) (attr : Zmap) (s : StructoSearch β F C) :
    lib.search elapsed attr s query = Structo.timing elapsed attr := by
  unfold Structo.search
  cases query with
  | zmap fields =>
      have hnone : Zmap.get fields "id" = none := by simpa [asksId] using hquery
      simp only [hnone]
  | _ => rfl

namespace Searcher

variable (searcher : Searcher β F C W) (lib : Structo β T B F C) (fuel : ℕ)
  (s : StructoSearch β F C)

/-! ## Search -/

/-- `ctxIndex->GetEntity( id )` -/
def getEntity (id : ℕ) : Option (String × Entity β C) :=
  (searcher.number id).bind fun entityId => (s.ctxIndex entityId).map (entityId, ·)

/-- The call of the quotation machine, for a text that is not empty. -/
def quotesOf (fieldMan : F) (mkup text : List Int8) (abstr : Abstract W) : List Zval :=
  if text.isEmpty then [] else searcher.enquote fieldMan text mkup abstr

/-- `quotate`, with a budget for unpacking. -/
def quotate (id : ℕ) (abstr : Abstract W) : Option (Except Exn (List Zval)) :=
  match (searcher.getEntity s id).bind fun entity => searcher.getBundle entity.2 with
  | none => some (.ok [])
  | some bundle => (searcher.reader.quotate fuel bundle).map
      (Except.map fun image => searcher.quotesOf s.fieldMan image.1 image.2 abstr)

/-- One turn of the loop of `Finish`. The metadata are read as `LoadMetadata` reads them; the quotes
are made if the collector has an abstract. -/
def item (c : Documents W) (entity : Collect.Entity W) : Option (Except Exn (Item W)) :=
  match searcher.getEntity s entity.id with
  | none => some (.error (.logicError "index has no entity found by index"))
  | some (id, stored) =>
      let item : Item W := ⟨id, entity.id, lib.metadataOf stored, entity.weight, none⟩
      match c.quoBox.get entity.id with
      | none => some (.ok item)
      | some abstr => (searcher.quotate fuel s entity.id abstr).map
          (Except.map fun quote => { item with quote := some quote })

def items (c : Documents W) : List (Collect.Entity W) → Option (Except Exn (List (Item W)))
  | [] => some (.ok [])
  | entity :: rest =>
      match searcher.item lib fuel s c entity with
      | none => none
      | some (.error thrown) => some (.error thrown)
      | some (.ok item) => (items c rest).map (Except.map (item :: ·))

/-- `collect->Finish( ctxIndex )` with `quotate` as quoter; the collector is not used again. -/
def finish (c : Documents W) : Option (Except Exn (Collect.Report W)) :=
  if c.nFirst ≤ c.nCount then
    let sorted := ranked c.params.less c.buffer
    (searcher.items lib fuel s c (sorted.drop (c.nFirst - 1))).map
      (Except.map fun items => ⟨c.nFirst, c.nFound, some (c.nCount + 1 - c.nFirst), some items⟩)
  else some (.ok ⟨c.nFirst, c.nFound, none, none⟩)

variable [LT W] [DecidableLT W]

/-- The settings of a collector nobody has set, with `GetRange` as ranker. It is asked for
documents that have a mode only. -/
def defaults : Params W where
  nfirst := 1
  ncount := 10
  differ := Documents.compareByRange
  ranker := fun _ tuples => (getRange searcher.doubles tuples).toOption.getD searcher.doubles.zero
  quoter := none

/-- `SetFirst` and `SetCount` -/
def params (order : Zmap) : Except Exn (Params W) :=
  searcher.defaults.ofPage (searcher.getInt32 order "first" 1)
    (searcher.getInt32 order "count" 10)

/-- The branch of a query that is not by id. `movers` is the order in which the threads move. -/
def collect (movers : List Mover) (args : SearchArgs) : Option (Except Exn Zmap) :=
  match searcher.params args.order with
  | .error thrown => some (.error thrown)
  | .ok params =>
      match searcher.buildRichQuery args.query args.terms s.fieldMan with
      | .error thrown => some (.error thrown)
      | .ok none => some (.ok (report 0 "OK" (Zmap.put [] "found" (.word32 0))))
      | .ok (some request) =>
          match Collecting.search true request.query movers (.ok (.create params)) with
          | none => none
          | some (.error thrown) => some (.error thrown)
          | some (.ok c) =>
              (searcher.finish lib fuel s c).map (Except.map (reportZmap searcher.range))

/-- `Search`; nothing stands for a search that does not come back. -/
def search (elapsed : UInt32) (movers : List Mover) (args : SearchArgs) :
    Option (Except Exn Zmap) :=
  if asksId args.query then some (.ok (lib.search elapsed [] s args.query))
  else (searcher.collect lib fuel s movers args).map
    (Except.map fun attr => lib.search elapsed attr s args.query)

/-! ## One report -/

section Report

variable {searcher} {lib} {fuel} {s} {c : Documents W}

omit [LT W] [DecidableLT W] in
/-- When every turn of the loop makes an item, the report has these items. -/
theorem items_eq {shown : Collect.Entity W → Item W} {l : List (Collect.Entity W)}
    (hitem : ∀ entity ∈ l, searcher.item lib fuel s c entity = some (.ok (shown entity))) :
    searcher.items lib fuel s c l = some (.ok (l.map shown)) := by
  induction l with
  | nil => rfl
  | cons entity rest ih =>
      obtain ⟨hhead, hrest⟩ := List.forall_mem_cons.mp hitem
      simp only [Searcher.items, hhead, ih hrest]
      rfl

omit [LT W] [DecidableLT W] in
theorem items_reorder (differ : Collect.DifferFn W) (l : List (Collect.Entity W)) :
    searcher.items lib fuel s (c.reorder differ) l = searcher.items lib fuel s c l := by
  induction l with
  | nil => rfl
  | cons entity rest ih =>
      unfold Searcher.items
      rw [ih]
      rfl

omit [LT W] [DecidableLT W] in
/-- The order decides about the report only by the documents in the buffer. -/
theorem finish_reorder {known : Set ℕ} {differ : Collect.DifferFn W}
    (hagree : Collect.AgreeOn known differ c.params.differ)
    (hbuffer : Collect.AllKnown known c.buffer) :
    searcher.finish lib fuel s (c.reorder differ) = searcher.finish lib fuel s c := by
  unfold Searcher.finish
  simp only [Documents.nFirst_reorder, Documents.nCount_reorder, Documents.params_reorder,
    Documents.buffer_reorder, Documents.nFound_reorder, Collect.ranked_reorder hagree hbuffer,
    items_reorder]

/-- The kept documents from the first one of the page on are the page. -/
theorem shown_eq_page {tuples : ℕ → Abstract W} {ids : List ℕ}
    (hless : StrictTotal c.params.less) (hc : Collects tuples c ids)
    (hfirst : 1 ≤ c.params.nfirst) (hfits : PageFits c.params (matching tuples ids).length) :
    (if c.nFirst ≤ c.nCount then (ranked c.params.less c.buffer).drop (c.nFirst - 1) else []) =
      page c.params tuples ids := by
  -- a report shows the page, whatever the index says of the documents on it
  obtain ⟨report, c', hfinish, -, hentities, -⟩ := Collect.finish_page hless hc hfirst hfits
    (fun _ => some ⟨"", []⟩) (fun _ _ => rfl) fun _ => []
  unfold Documents.finish at hfinish
  rw [← hentities]
  split
  next hshow =>
    rw [if_pos hshow] at hfinish
    obtain ⟨items, hitems, hmap⟩ := Collect.itemsOf_ok (fun _ => some ⟨"", []⟩) (fun _ => [])
      { c with buffer := ranked c.params.less c.buffer }
      ((ranked c.params.less c.buffer).drop (c.nFirst - 1)) fun _ _ => rfl
    simp only [hitems] at hfinish
    cases hfinish
    exact hmap.symm
  next hshow =>
    rw [if_neg hshow] at hfinish
    cases hfinish
    rfl

/-- A collector whose documents can all be shown reports its page. -/
theorem finish_shows {tuples : ℕ → Abstract W} {ids : List ℕ} {shown : Collect.Entity W → Item W}
    (hless : StrictTotal c.params.less) (hc : Collects tuples c ids)
    (hfirst : 1 ≤ c.params.nfirst) (hfits : PageFits c.params (matching tuples ids).length)
    (hitem : ∀ entity ∈ c.buffer, searcher.item lib fuel s c entity = some (.ok (shown entity))) :
    ∃ report, searcher.finish lib fuel s c = some (.ok report) ∧ report.found = c.nFound ∧
      report.items.getD [] = (page c.params tuples ids).map shown := by
  have hpage := shown_eq_page hless hc hfirst hfits
  unfold Searcher.finish
  split
  next hshow =>
    rw [if_pos hshow] at hpage
    have hkept : ∀ entity ∈ (ranked c.params.less c.buffer).drop (c.nFirst - 1),
        searcher.item lib fuel s c entity = some (.ok (shown entity)) := fun entity hmem =>
      hitem entity ((ranked_perm c.buffer).mem_iff.mp (List.mem_of_mem_drop hmem))
    simp only [items_eq hkept]
    rw [← hpage]
    exact ⟨_, rfl, rfl, rfl⟩
  next hshow =>
    rw [if_neg hshow] at hpage
    exact ⟨_, rfl, rfl, by rw [← hpage]; rfl⟩

/-- The settings of a request are the defaults with its page. -/
theorem params_ok {order : Zmap} {params : Params W}
    (hparams : searcher.params order = .ok params) :
    1 ≤ params.nfirst ∧ params.differ = Documents.compareByRange ∧
      params.ranker = searcher.defaults.ranker ∧ params.quoter = none := by
  obtain ⟨first, hfirst, hcount⟩ := bind_ok hparams
  unfold Params.setFirst at hfirst
  split at hfirst
  next => cases hfirst
  next hzero =>
    cases hfirst
    cases hcount
    exact ⟨Nat.one_le_iff_ne_zero.mpr hzero, rfl, rfl, rfl⟩

end Report

/-! ## What a search shows -/

section Shown

variable {β T B F C W : Type} [LinearOrder W] (searcher : Searcher β F C W)
  (lib : Structo β T B F C)

/-- What the search for a request relies on: a page of ranks that do not wrap around, ids between
which no difference does, documents that are in the index, and threads that come back from a wait
that starts settled. The record of the service has no contents by which it could be found. -/
structure Answerable (s : StructoSearch β F C) (movers : List Mover) (args : SearchArgs)
    (params : Params W) (request : Request W) : Prop where
  not_byId : asksId args.query = false
  page : searcher.params args.order = .ok params
  built : searcher.buildRichQuery args.query args.terms s.fieldMan = .ok (some request)
  limit : 0 < params.nLimit
  fits : PageFits params (matching request.tuples request.query.ids).length
  ids_small : ∀ id ∈ request.query.ids, id ∈ smallIds
  indexed : ∀ n ∈ matching request.tuples request.query.ids, ∃ id, searcher.number n = some id ∧
    id ≠ indexMappings ∧ (s.ctxIndex id).isSome = true
  settles : Settles true request.query movers (.ok (.create params))
  back : (Collecting.search true request.query movers (.ok (.create params))).isSome = true

/-- Under this number the index has a document of the library, and a search for the abstract shows
its metadata and the quotes of its text. -/
structure ShowsAt (library : Library T) (fieldMan : F) (n : ℕ) (abstr : Abstract W) (id : String)
    (extra : Zmap) (quote : List Zval) : Prop where
  number : searcher.number n = some id
  document : ∃ document, library id = some document ∧ extra = document.metadata ∧
    ∃ formats limage, lib.Imaged document.textview formats limage ∧
      quote = searcher.quotesOf fieldMan formats limage abstr

/-- The item shows a document of the library that the request has found. -/
structure Shows (library : Library T) (fieldMan : F) (request : Request W) (item : Item W) :
    Prop where
  range : getRange searcher.doubles (request.tuples item.index) = .ok item.range
  document : ∃ quote, item.quote = some quote ∧
    searcher.ShowsAt lib library fieldMan item.index (copyAbstract (request.tuples item.index))
      item.id item.extra quote

variable {searcher} {lib} {library : Library T} {s : StructoSearch β F C}

omit [LinearOrder W] in
/-- From some budget on, the quotes of a document in the index can be made. -/
theorem exists_quotes (hlib : lib.Lawful) (hreads : searcher.Reads lib)
    (hholds : HoldsLibrary lib s library) (hsmall : lib.Packable library) {n : ℕ} {id : String}
    (hnumber : searcher.number n = some id) (hid : id ≠ indexMappings)
    (hindexed : (s.ctxIndex id).isSome = true) (abstr : Abstract W) :
    ∃ quote stored, searcher.getEntity s n = some (id, stored) ∧
      searcher.ShowsAt lib library s.fieldMan n abstr id (lib.metadataOf stored) quote ∧
      ∃ fuel, ∀ more, fuel ≤ more → searcher.quotate more s n abstr = some (.ok quote) := by
  obtain ⟨stored, hstored⟩ := Option.isSome_iff_exists.mp hindexed
  have hheld := hholds id hid
  rw [hstored] at hheld
  obtain ⟨document, hdocument, hkeeps⟩ := hheld.exists_entity
  obtain ⟨formats, limage, himaged, hbundle⟩ := hkeeps.image
  obtain ⟨hformats, hpacked⟩ := hsmall id document hdocument formats limage himaged
  obtain ⟨fuel, hquotate⟩ := exists_quotate hreads.inverts hformats hpacked
  have hentity : searcher.getEntity s n = some (id, stored) := by
    simp [getEntity, hnumber, hstored]
  have hne : stored.bundle ≠ [] := hbundle ▸ hlib.serialize_ne_nil _
  refine ⟨searcher.quotesOf s.fieldMan formats limage abstr, stored, hentity,
    ⟨hnumber, document, hdocument, hkeeps.metadata, formats, limage, himaged, rfl⟩, fuel, ?_⟩
  intro more hmore
  have hbundle' : (searcher.getEntity s n).bind (fun entity => searcher.getBundle entity.2) =
      some (lib.serialize (lib.quoter formats limage)) := by
    rw [hentity, ← hbundle]
    exact hreads.getBundle_of_ne_nil stored hne
  unfold quotate
  rw [hbundle']
  simp only [hquotate more hmore]
  rfl

/-- An entity of a request has the range that `GetRange` gives its abstract. -/
theorem getRange_of_mem {order : Zmap} {params : Params W}
    (hparams : searcher.params order = .ok params) {tuples : ℕ → Abstract W} {ids : List ℕ}
    {entity : Collect.Entity W} (hmem : entity ∈ entities params tuples ids) :
    getRange searcher.doubles (tuples entity.id) = .ok entity.weight := by
  obtain ⟨id, hid, rfl⟩ := List.mem_map.mp hmem
  obtain ⟨weight, hrange⟩ :=
    Collect.getRange_ok searcher.doubles (Collect.mem_matching.mp hid).2
  have hweight : (entityOf params tuples id).weight = weight := by
    unfold entityOf
    rw [(params_ok hparams).2.2.1]
    change (getRange searcher.doubles (tuples id)).toOption.getD searcher.doubles.zero = weight
    rw [hrange]
    rfl
  rw [hweight]
  exact hrange

/-- Whatever clients call to store documents that can be packed, a search that can be answered shows
the page of the documents it finds: the best ones in their order, each with the metadata that its
client has stored and the quotes of the text stored with it. -/
theorem search_shows_library (hlib : lib.Lawful) (hreads : searcher.Reads lib)
    {s₀ : StructoSearch β F C} {library₀ : Library T} (hholds : HoldsLibrary lib s₀ library₀)
    (ops : List (Operation T))
    (hsmall : lib.Packable (librarySession lib s₀ library₀ ops).seen) {movers : List Mover}
    {args : SearchArgs} {params : Params W} {request : Request W}
    (hanswer : searcher.Answerable (librarySession lib s₀ library₀ ops).state movers args params
      request) (elapsed : UInt32) :
    ∃ fuel report,
      searcher.search lib fuel (librarySession lib s₀ library₀ ops).state elapsed movers args =
        some (.ok (Structo.timing elapsed (reportZmap searcher.range report))) ∧
      report.found = (matching request.tuples request.query.ids).length ∧
      report.entities = page (params.reorder byRange) request.tuples request.query.ids ∧
      ∀ item ∈ report.items.getD [],
        searcher.Shows lib (librarySession lib s₀ library₀ ops).seen
          (librarySession lib s₀ library₀ ops).state.fieldMan request item := by
  have hlibrary := holdsLibrary_session hlib hholds ops
  generalize (librarySession lib s₀ library₀ ops).seen = library at hsmall hlibrary ⊢
  generalize (librarySession lib s₀ library₀ ops).state = s at hanswer hlibrary ⊢
  obtain ⟨hfirst, hdiffer, -, hquoter⟩ := params_ok hanswer.page
  -- what the items of the documents found will be
  have hknown : ∀ n ∈ matching request.tuples request.query.ids, ∃ quote id extra,
      (∃ stored, searcher.getEntity s n = some (id, stored) ∧ lib.metadataOf stored = extra) ∧
      searcher.ShowsAt lib library s.fieldMan n (copyAbstract (request.tuples n)) id extra quote ∧
      ∃ fuel, ∀ more, fuel ≤ more →
        searcher.quotate more s n (copyAbstract (request.tuples n)) = some (.ok quote) := by
    intro n hn
    obtain ⟨id, hnumber, hid, hindexed⟩ := hanswer.indexed n hn
    obtain ⟨quote, stored, hentity, hshows, hquotate⟩ := exists_quotes hlib hreads hlibrary hsmall
      hnumber hid hindexed (copyAbstract (request.tuples n))
    exact ⟨quote, id, _, ⟨stored, hentity, rfl⟩, hshows, hquotate⟩
  choose! quotes ids extras hentity hshows hquotate using hknown
  obtain ⟨fuel, hfuel⟩ := Loop.exists_budget hquotate
  -- the collector is what it were if no difference of ids ever wrapped around
  obtain ⟨collector, hback⟩ := Option.isSome_iff_exists.mp hanswer.back
  have hsame : (params.reorder byRange).reorder Documents.compareByRange = params := by
    rw [← hdiffer]
    rfl
  have hless : StrictTotal (params.reorder byRange).less := Collect.byRange_strictTotal params
  obtain ⟨c, rfl, hparams, hc⟩ := Collect.search_known Collect.compareByRange_agree hless
    hanswer.limit hanswer.ids_small (hsame ▸ hanswer.settles) (hsame ▸ hback)
  have hagree : Collect.AgreeOn smallIds Documents.compareByRange c.params.differ :=
    hparams ▸ Collect.compareByRange_agree
  have hitem : ∀ entity ∈ c.buffer, searcher.item lib fuel s c entity = some (.ok
      ⟨ids entity.id, entity.id, extras entity.id, entity.weight, some (quotes entity.id)⟩) := by
    intro entity hmem
    have hn := List.mem_map_of_mem (f := Collect.Entity.id) (hc.keeps.top.subset hmem)
    rw [Collect.entities_ids] at hn
    have hquote := hc.keeps.get_quote (Collect.nodup_entities request.query.yields.nodup _) hmem
    obtain ⟨stored, hstored, hextra⟩ := hentity entity.id hn
    simp only [item, hstored, hextra, hquote, hfuel entity.id hn]
    rfl
  obtain ⟨report, hfinish, hfound, hitems⟩ :=
    finish_shows (hparams ▸ hless) hc (hparams ▸ hfirst) (hparams ▸ hanswer.fits) hitem
  rw [hparams] at hitems
  refine ⟨fuel, report, ?_, hfound.trans hc.found, ?_, ?_⟩
  · have hcollect : searcher.collect lib fuel s movers args =
        some (.ok (reportZmap searcher.range report)) := by
      unfold collect
      simp only [hanswer.page, hanswer.built, hback,
        finish_reorder hagree (hc.allKnown hanswer.ids_small), hfinish]
      rfl
    unfold search
    rw [hanswer.not_byId, hcollect, ← search_of_not_asksId hanswer.not_byId]
    rfl
  · unfold Collect.Report.entities
    rw [hitems, List.map_map]
    exact List.map_id _
  · intro shown hshown
    rw [hitems] at hshown
    obtain ⟨entity, hpage, rfl⟩ := List.mem_map.mp hshown
    have hranked := List.mem_of_mem_take (List.mem_of_mem_drop hpage)
    have hmem : entity ∈ entities params request.tuples request.query.ids :=
      (ranked_perm _).mem_iff.mp hranked
    have hn := List.mem_map_of_mem (f := Collect.Entity.id) hmem
    rw [Collect.entities_ids] at hn
    exact ⟨getRange_of_mem hanswer.page hmem, _, rfl, hshows entity.id hn⟩

end Shown

end Searcher

/-! ## A search over the plain service -/

theorem numbers_increasing : [3, 4, 0x4001].Pairwise (· < ·) := by decide

theorem numbers_range : ∀ id ∈ [3, 4, 0x4001], 1 ≤ id ∧ id < Collect.noDoc := by decide

theorem numbers_lt : ∀ id ∈ [3, 4, 0x4001], id < 0x10001 := by decide

/-- Documents of three or four words in the first two of five sections. -/
def inSections : Request ℕ where
  tuples := Collect.sampleTuples
  query := { Collecting.ofDocuments Collect.sampleTuples [3, 4, 0x4001] numbers_increasing
      numbers_range with
    lastIndex := 0x10001
    below_lastIndex := numbers_lt }

/-- A quote is the whole text. -/
def plainSearcher : Searcher (List Zmap) (List ℕ) (List ℕ) ℕ where
  getInt32 _ _ default := default
  buildRichQuery _ _ _ := .ok (some inSections)
  number
    | 3 => some "readme"
    | 4 => some "guide"
    | 0x4001 => some "about"
    | _ => none
  getBundle entity := some entity.bundle
  reader := knownReader [] []
  enquote _ text _ _ := [.arrayChar text]
  doubles := ⟨0, 1, (· - ·), (· * ·), (· / ·), id⟩
  range := fun weight => .word32 (.ofNat weight)

theorem plainSearcher_reads : plainSearcher.Reads plainStructo where
  inverts :=
    { find_serialize := fun _ _ => rfl
      uncompress_compress := fun _ _ hcompress => by cases hcompress
      ratio := fun _ _ hcompress => by cases hcompress }
  getBundle_of_ne_nil _ _ := rfl

/-- Three documents, and a new title for the second. -/
def threeInserts : List (Operation Unit) :=
  [insertAs "readme" titled, insertAs "guide", insertAs "about",
    .update { objectId := "guide", metadata := titled }]

/-- The caller waits for the tasks of the first two sections; the second one merges first and counts
itself off last. -/
def secondFirst : List Mover :=
  List.replicate 8 .caller ++ [.task 1, .task 0, .task 0, .task 1, .task 1]

theorem search_shows_library_sections : ∃ fuel report,
    plainSearcher.search plainStructo fuel
        (librarySession plainStructo emptyService (fun _ => none) threeInserts).state 0 secondFirst
        {} = some (.ok (Structo.timing 0 (reportZmap plainSearcher.range report))) ∧
    report.found = 3 ∧ Collecting.isSectioned true inSections.query = true ∧
    ∀ item ∈ report.items.getD [],
      plainSearcher.Shows plainStructo
        (librarySession plainStructo emptyService (fun _ => none) threeInserts).seen
        (librarySession plainStructo emptyService (fun _ => none) threeInserts).state.fieldMan
        inSections item := by
  have hsmall : plainStructo.Packable
      (librarySession plainStructo emptyService (fun _ => none) threeInserts).seen := by
    rintro id document - formats limage ⟨body, fieldMan, fieldMan', -, hformats, rfl⟩
    cases hformats
    have hstored : (plainStructo.stored []).length < 2 ^ 32 := by decide
    exact ⟨by decide, hstored⟩
  have hanswer : plainSearcher.Answerable
      (librarySession plainStructo emptyService (fun _ => none) threeInserts).state secondFirst {}
      plainSearcher.defaults inSections :=
    { not_byId := rfl
      page := rfl
      built := rfl
      limit := by decide
      fits := .inl (by decide)
      ids_small := by
        intro id hid
        exact (inSections.query.below_lastIndex id hid).trans (by decide)
      indexed := by decide
      settles := fun _ => ⟨by decide, by decide⟩
      back := rfl }
  have hholds : HoldsLibrary plainStructo emptyService fun _ => none := fun _ _ => .absent
  obtain ⟨fuel, report, hsearch, hfound, -, hshows⟩ :=
    Searcher.search_shows_library plainStructo_lawful plainSearcher_reads hholds threeInserts
      hsmall hanswer 0
  exact ⟨fuel, report, hsearch, hfound, rfl, hshows⟩

end Palmira.Service
