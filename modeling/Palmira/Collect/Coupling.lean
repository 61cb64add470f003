import Palmira.Collect.Linear

/-!
# Quotes and documents

The buffer and the store of abstracts are changed by separate calls, the id of
the evicted document handed over between them. Whatever the comparer, and in any
order of searches and merges, they hold the same documents.
-/

namespace Palmira.Collect

open TopList
open scoped List

variable {W : Type} [LT W] [DecidableLT W]

/-! ## One round of the merge loop -/

namespace Documents

/-- The body of the merge loop for one source entity: the collector and the insertion point to go
on with, or the collector the loop breaks off with. -/
def insertStep (quotes : Abstracts W) (c : Documents W) (dstptr : ℕ) (src : Entity W) :
    Except Exn ((Documents W × ℕ) ⊕ Documents W) :=
  let dstptr := placeFrom c.params.less dstptr src c.buffer
  if dstptr = c.nLimit then .ok (.inr c)
  else
    match quotes.get src.id with
    | none => .error (.undefined "null abstract")
    | some abstr =>
        if c.nCount < c.nLimit then do
          let quoBox ← c.quoBox.set src.id abstr noDoc
          return .inl ({ c with
            quoBox, buffer := c.buffer.take dstptr ++ src :: c.buffer.drop dstptr }, dstptr)
        else
          match c.buffer[c.nLimit - 1]? with
          | none => .error (.undefined "last element out of the buffer")
          | some last => do
              let quoBox ← c.quoBox.set src.id abstr last.id
              return .inl ({ c with
                quoBox
                buffer := c.buffer.take dstptr ++ src :: (c.buffer.drop dstptr).dropLast },
                dstptr)

theorem insertLoop_cons (quotes : Abstracts W) (c : Documents W) (dstptr : ℕ) (src : Entity W)
    (rest : List (Entity W)) :
    c.insertLoop quotes dstptr (src :: rest) = insertStep quotes c dstptr src >>= fun next =>
      match next with
      | .inl (c', dstptr') => c'.insertLoop quotes dstptr' rest
      | .inr c' => .ok c' := by
  simp only [insertLoop, insertStep]
  split
  · rfl
  · cases quotes.get src.id with
    | none => rfl
    | some abstr =>
        simp only
        split
        · cases c.quoBox.set src.id abstr noDoc <;> rfl
        · cases c.buffer[c.nLimit - 1]? with
          | none => rfl
          | some last => cases hset : c.quoBox.set src.id abstr last.id <;> simp only [hset] <;> rfl

end Documents

/-! ## The invariant -/

/-- Buffer and store hold the same documents, all of them among `ids`. -/
structure Coupled (tuples : ℕ → Abstract W) (ids : List ℕ) (c : Documents W) : Prop where
  quotes : c.quoBox.items ~ c.buffer.map (quoteOf tuples)
  limit : c.quoBox.limit = c.nLimit
  room : c.nCount ≤ c.nLimit
  nodup : (c.buffer.map Entity.id).Nodup
  among : ∀ entity ∈ c.buffer, entity.id ∈ ids
  fresh : noDoc ∉ ids
  worst : ∀ worst, c.pWorst = some worst → worst < c.nCount

namespace Coupled

variable {tuples : ℕ → Abstract W} {ids : List ℕ} {c : Documents W}

theorem create (params : Params W) : Coupled tuples [] (.create params) where
  quotes := .refl _
  limit := rfl
  room := Nat.zero_le _
  nodup := .nil
  among := by simp [Documents.create]
  fresh := by simp
  worst := by intro worst hcache; cases hcache

theorem mono (hc : Coupled tuples ids c) {ids' : List ℕ} (hsub : ids ⊆ ids')
    (hfresh : noDoc ∉ ids') : Coupled tuples ids' c :=
  { hc with
    among := fun entity hentity => hsub (hc.among entity hentity)
    fresh := hfresh }

theorem quote_ids (hc : Coupled tuples ids c) :
    c.quoBox.items.map Prod.fst ~ c.buffer.map Entity.id := by
  apply (hc.quotes.map Prod.fst).trans
  rw [List.map_map]
  exact .refl _

theorem quotes_length (hc : Coupled tuples ids c) : c.quoBox.items.length = c.nCount :=
  hc.quotes.length_eq.trans (List.length_map _)

theorem quote_ids_nodup (hc : Coupled tuples ids c) : (c.quoBox.items.map Prod.fst).Nodup :=
  hc.quote_ids.nodup_iff.mpr hc.nodup

theorem get_quote (hc : Coupled tuples ids c) {entity : Entity W} (hmem : entity ∈ c.buffer) :
    c.quoBox.get entity.id = some (copyAbstract (tuples entity.id)) := by
  have hitem : quoteOf tuples entity ∈ c.quoBox.items :=
    hc.quotes.mem_iff.mpr (List.mem_map_of_mem hmem)
  exact Abstracts.get_of_mem hc.quote_ids_nodup hitem

section Change

variable (entity : Entity W) {abstr : Abstract W}

/-- A new document beside documents of the buffer: the ids stay apart and among those seen. -/
theorem joined (hc : Coupled tuples ids c) {others buffer : List (Entity W)}
    (hothers : ∀ e ∈ others, e ∈ c.buffer) (hnodup : (others.map Entity.id).Nodup)
    (hid : entity.id ∉ ids) (hbuffer : buffer ~ entity :: others) :
    (buffer.map Entity.id).Nodup ∧ ∀ e ∈ buffer, e.id ∈ entity.id :: ids := by
  constructor
  · apply ((hbuffer.map Entity.id).nodup_iff).mpr
    refine List.nodup_cons.mpr ⟨?_, hnodup⟩
    intro hmem
    obtain ⟨e, he, heq⟩ := List.mem_map.mp hmem
    exact hid (heq ▸ hc.among e (hothers e he))
  · intro e he
    rcases List.mem_cons.mp (hbuffer.mem_iff.mp he) with rfl | hold
    · exact List.mem_cons_self
    · exact List.mem_cons_of_mem _ (hc.among e (hothers e hold))

/-- A document put beside the others, and its abstract behind theirs. -/
theorem add (hc : Coupled tuples ids c) (hroom : c.nCount < c.nLimit) (hid : entity.id ∉ ids)
    (hdoc : entity.id ≠ noDoc) (hcopy : copyAbstract abstr = copyAbstract (tuples entity.id)) :
    ∃ quoBox, c.quoBox.set entity.id abstr noDoc = .ok quoBox ∧
      ∀ c' : Documents W, c'.params = c.params → c'.quoBox = quoBox →
        c'.buffer ~ entity :: c.buffer → c'.pWorst = c.pWorst →
        Coupled tuples (entity.id :: ids) c' := by
  have habsent : noDoc ∉ c.quoBox.items.map Prod.fst := by
    rw [hc.quote_ids.mem_iff]
    intro hmem
    obtain ⟨held, hheld, heq⟩ := List.mem_map.mp hmem
    exact hc.fresh (heq ▸ hc.among held hheld)
  have hlength : c.quoBox.items.length < c.quoBox.limit := by
    rw [hc.quotes_length, hc.limit]
    exact hroom
  refine ⟨_, Abstracts.set_new hlength habsent entity.id abstr, ?_⟩
  intro c' hparams hquoBox hbuffer hworst
  have hnLimit : c'.nLimit = c.nLimit := congrArg Params.nLimit hparams
  have hnCount : c'.nCount = c.nCount + 1 := hbuffer.length_eq
  obtain ⟨hnodup, hamong⟩ := hc.joined entity (fun _ he => he) hc.nodup hid hbuffer
  refine ⟨?_, ?_, ?_, hnodup, hamong, ?_, ?_⟩
  · rw [hquoBox, hcopy]
    calc c.quoBox.items ++ [quoteOf tuples entity]
      _ ~ quoteOf tuples entity :: c.quoBox.items := List.perm_append_singleton _ _
      _ ~ quoteOf tuples entity :: c.buffer.map (quoteOf tuples) := hc.quotes.cons _
      _ ~ c'.buffer.map (quoteOf tuples) := (hbuffer.map (quoteOf tuples)).symm
  · rw [hquoBox, hnLimit]
    exact hc.limit
  · rw [hnCount, hnLimit]
    exact hroom
  · exact fun hmem => (List.mem_cons.mp hmem).elim hdoc.symm hc.fresh
  · intro worst hcache
    rw [hnCount]
    exact (hc.worst worst (hworst ▸ hcache)).trans (Nat.lt_succ_self _)

/-- A document put in the place of another one, and its abstract in the place of that one's. -/
theorem replace (hc : Coupled tuples ids c) {held : Entity W} {others : List (Entity W)}
    (hheld : c.buffer ~ held :: others) (hid : entity.id ∉ ids) (hdoc : entity.id ≠ noDoc)
    (hcopy : copyAbstract abstr = copyAbstract (tuples entity.id)) :
    ∃ quoBox, c.quoBox.set entity.id abstr held.id = .ok quoBox ∧
      ∀ c' : Documents W, c'.params = c.params → c'.quoBox = quoBox →
        c'.buffer ~ entity :: others → (c'.pWorst = c.pWorst ∨ c'.pWorst = none) →
        Coupled tuples (entity.id :: ids) c' := by
  have hitems : c.quoBox.items ~ quoteOf tuples held :: others.map (quoteOf tuples) :=
    hc.quotes.trans (hheld.map _)
  obtain ⟨items, hset, hitems'⟩ := Abstracts.set_old hitems hc.quote_ids_nodup entity.id abstr
  refine ⟨_, hset, ?_⟩
  intro c' hparams hquoBox hbuffer hworst
  have hnLimit : c'.nLimit = c.nLimit := congrArg Params.nLimit hparams
  have hnCount : c'.nCount = c.nCount := hbuffer.length_eq.trans hheld.length_eq.symm
  have hothers : ∀ e ∈ others, e ∈ c.buffer :=
    fun e he => hheld.mem_iff.mpr (List.mem_cons_of_mem _ he)
  have hrest : (others.map Entity.id).Nodup :=
    (List.nodup_cons.mp (((hheld.map Entity.id).nodup_iff).mp hc.nodup)).2
  obtain ⟨hnodup, hamong⟩ := hc.joined entity hothers hrest hid hbuffer
  refine ⟨?_, ?_, ?_, hnodup, hamong, ?_, ?_⟩
  · rw [hquoBox]
    rw [hcopy] at hitems'
    exact hitems'.trans (hbuffer.map (quoteOf tuples)).symm
  · rw [hquoBox, hnLimit]
    exact hc.limit
  · rw [hnCount, hnLimit]
    exact hc.room
  · exact fun hmem => (List.mem_cons.mp hmem).elim hdoc.symm hc.fresh
  · intro worst hcache
    rw [hnCount]
    -- the cache is reset by the search; a merge keeps the number of entities
    rcases hworst with hsame | hnone
    · exact hc.worst worst (hsame ▸ hcache)
    · rw [hnone] at hcache
      cases hcache

end Change

end Coupled

/-! ## The search -/

variable {tuples : ℕ → Abstract W} {ids : List ℕ} {c : Documents W}

omit [LT W] [DecidableLT W] in
theorem detectWorst_lt (params : Params W) (worst : ℕ) (held : Entity W) (pos : ℕ)
    (rest : List (Entity W)) (hlt : worst < pos) :
    Documents.detectWorst params worst held pos rest < pos + rest.length := by
  induction rest generalizing worst held pos with
  | nil => exact hlt
  | cons beg rest ih =>
      unfold Documents.detectWorst
      rw [List.length_cons, Nat.add_comm rest.length, ← Nat.add_assoc]
      split
      · exact ih pos beg (pos + 1) (Nat.lt_succ_self pos)
      · exact ih worst held (pos + 1) (Nat.lt_succ_of_lt hlt)

theorem Coupled.worstSlot_lt (hc : Coupled tuples ids c) (hne : 0 < c.nCount) :
    ∃ worst, c.worstSlot = some worst ∧ worst < c.nCount := by
  cases hcache : c.pWorst with
  | some worst => exact ⟨worst, by simp [Documents.worstSlot, hcache], hc.worst worst hcache⟩
  | none =>
      cases hbuffer : c.buffer with
      | nil =>
          rw [Documents.nCount, hbuffer] at hne
          cases hne
      | cons first rest =>
          refine ⟨Documents.detectWorst c.params 0 first 1 rest,
            by simp only [Documents.worstSlot, hcache, hbuffer], ?_⟩
          rw [Documents.nCount, hbuffer, List.length_cons, Nat.add_comm]
          exact detectWorst_lt c.params 0 first 1 rest Nat.zero_lt_one

/-- A new document finds its place in buffer and store, or is left out of both. -/
theorem addDoc_coupled (hc : Coupled tuples ids c) (hlimit : 0 < c.nLimit) {id : ℕ}
    (hid : id ∉ ids) (hdoc : id ≠ noDoc) :
    ∃ c', c.addDoc id (tuples id) = .ok c' ∧ c'.params = c.params ∧
      c'.nFound = c.nFound + (matching tuples [id]).length ∧ Coupled tuples (id :: ids) c' := by
  have hfresh : noDoc ∉ id :: ids :=
    fun hmem => (List.mem_cons.mp hmem).elim hdoc.symm hc.fresh
  have hkept : Coupled tuples (id :: ids) c := hc.mono (List.subset_cons_self _ _) hfresh
  by_cases hnone : (tuples id).isNone = true
  · exact ⟨c, by rw [Documents.addDoc, if_pos hnone], rfl, by simp [matching, hnone], hkept⟩
  have hfound : (matching tuples [id]).length = 1 := by simp [matching, hnone]
  rw [hfound]
  by_cases hroom : c.nCount < c.nLimit
  · obtain ⟨quoBox, hset, hcoupled⟩ :=
      hc.add (entityOf c.params tuples id) hroom hid hdoc rfl
    refine ⟨{ c with
      quoBox, buffer := c.buffer ++ [entityOf c.params tuples id], nFound := c.nFound + 1 },
      ?_, rfl, rfl, hcoupled _ rfl rfl (List.perm_append_singleton _ _) rfl⟩
    change c.quoBox.set id (tuples id) noDoc = .ok quoBox at hset
    simp only [Documents.addDoc, hnone, if_pos hroom, hset]
    rfl
  · -- the buffer is full and, as `nLimit` is not 0, not empty
    have hne : 0 < c.nCount := hlimit.trans_le (Nat.not_lt.mp hroom)
    obtain ⟨worst, hslot, hlt⟩ := hc.worstSlot_lt hne
    have hget : c.buffer[worst]? = some c.buffer[worst] := List.getElem?_eq_getElem hlt
    by_cases hbetter : c.params.less (entityOf c.params tuples id) c.buffer[worst] = true
    · have hheld : c.buffer ~ c.buffer[worst] :: c.buffer.eraseIdx worst :=
        (List.getElem_cons_eraseIdx_perm hlt).symm
      obtain ⟨quoBox, hset, hcoupled⟩ :=
        hc.replace (entityOf c.params tuples id) hheld hid hdoc rfl
      refine ⟨{ c with
        quoBox, buffer := c.buffer.set worst (entityOf c.params tuples id),
        nFound := c.nFound + 1, pWorst := none },
        ?_, rfl, rfl, hcoupled _ rfl rfl (List.set_perm_cons_eraseIdx hlt _) (.inr rfl)⟩
      change c.quoBox.set id (tuples id) c.buffer[worst].id = .ok quoBox at hset
      change c.params.less ⟨id, c.params.ranker id (tuples id)⟩ c.buffer[worst] = true at hbetter
      simp only [Documents.addDoc, hnone, if_neg hroom, hslot, hget, if_pos hbetter, hset]
      rfl
    · refine ⟨{ c with nFound := c.nFound + 1, pWorst := some worst }, ?_, rfl, rfl,
        { hkept with worst := ?_ }⟩
      · change ¬ c.params.less ⟨id, c.params.ranker id (tuples id)⟩ c.buffer[worst] = true
          at hbetter
        simp only [Documents.addDoc, hnone, if_neg hroom, hslot, hget, if_neg hbetter]
        rfl
      · intro worst' hcache
        cases hcache
        exact hlt

/-! ## The merge -/

/-- One round of the merge loop breaks off, or puts the entity into buffer and store. -/
theorem insertStep_coupled {quotes : Abstracts W} {dstptr : ℕ} {src : Entity W}
    (hc : Coupled tuples ids c) (hptr : dstptr ≤ c.nCount) (hid : src.id ∉ ids)
    (hdoc : src.id ≠ noDoc) (hquote : quotes.get src.id = some (copyAbstract (tuples src.id))) :
    Documents.insertStep quotes c dstptr src = .ok (.inr c) ∨
    ∃ c' dstptr', Documents.insertStep quotes c dstptr src = .ok (.inl (c', dstptr')) ∧
      dstptr' ≤ c'.nCount ∧ c'.params = c.params ∧ c'.nFound = c.nFound ∧
      Coupled tuples (src.id :: ids) c' := by
  have hplace : placeFrom c.params.less dstptr src c.buffer ≤ c.buffer.length :=
    placeFrom_le dstptr src hptr
  have hcopy := copyAbstract_copyAbstract (tuples src.id)
  simp only [Documents.insertStep]
  generalize placeFrom c.params.less dstptr src c.buffer = p at hplace ⊢
  have hp_le : ∀ back, p ≤ (c.buffer.take p ++ back).length := by
    intro back
    rw [List.length_append, List.length_take_of_le hplace]
    exact Nat.le_add_right _ _
  by_cases hbreak : p = c.nLimit
  · exact .inl (if_pos hbreak)
  right
  by_cases hroom : c.nCount < c.nLimit
  · have hbuffer : c.buffer.take p ++ src :: c.buffer.drop p ~ src :: c.buffer := by
      calc c.buffer.take p ++ src :: c.buffer.drop p
        _ ~ src :: (c.buffer.take p ++ c.buffer.drop p) := List.perm_middle
        _ = src :: c.buffer := by rw [List.take_append_drop]
    obtain ⟨quoBox, hset, hcoupled⟩ := hc.add src hroom hid hdoc hcopy
    let c' : Documents W :=
      { c with quoBox, buffer := c.buffer.take p ++ src :: c.buffer.drop p }
    refine ⟨c', p, ?_, hp_le _, rfl, rfl, hcoupled c' rfl rfl hbuffer rfl⟩
    simp only [if_neg hbreak, hquote, if_pos hroom, hset]
    rfl
  · -- the last entity is moved out; there is one, as the place is not the end
    have hfull : c.buffer.length = c.nLimit := Nat.le_antisymm hc.room (Nat.not_lt.mp hroom)
    have hne : c.buffer.drop p ≠ [] := by
      intro hnil
      have hge := List.drop_eq_nil_iff.mp hnil
      exact hbreak ((Nat.le_antisymm hplace hge).trans hfull)
    obtain ⟨last, hlast, hheld⟩ := exists_last_of_drop hne
    rw [hfull] at hlast
    obtain ⟨quoBox, hset, hcoupled⟩ := hc.replace src hheld hid hdoc hcopy
    let c' : Documents W :=
      { c with quoBox, buffer := c.buffer.take p ++ src :: (c.buffer.drop p).dropLast }
    refine ⟨c', p, ?_, hp_le _, rfl, rfl, hcoupled c' rfl rfl List.perm_middle (.inl rfl)⟩
    simp only [if_neg hbreak, hquote, if_neg hroom, hlast, hset]
    rfl

/-- The merge loop takes in new documents one after the other and never fails. -/
theorem insertLoop_coupled {quotes : Abstracts W} (rest : List (Entity W)) (ids : List ℕ)
    (c : Documents W) (dstptr : ℕ) (hc : Coupled tuples ids c) (hptr : dstptr ≤ c.nCount)
    (hnodup : (rest.map Entity.id).Nodup) (hnew : (rest.map Entity.id).Disjoint ids)
    (hdoc : noDoc ∉ rest.map Entity.id)
    (hquotes : ∀ src ∈ rest, quotes.get src.id = some (copyAbstract (tuples src.id))) :
    ∃ c', c.insertLoop quotes dstptr rest = .ok c' ∧ c'.params = c.params ∧
      c'.nFound = c.nFound ∧ Coupled tuples (rest.map Entity.id ++ ids) c' := by
  induction rest generalizing ids c dstptr with
  | nil => exact ⟨c, rfl, rfl, rfl, hc⟩
  | cons src rest ih =>
      have hfresh : noDoc ∉ (src :: rest).map Entity.id ++ ids :=
        fun hmem => (List.mem_append.mp hmem).elim hdoc hc.fresh
      rw [List.map_cons] at hnodup hnew
      obtain ⟨hsrc, hrest⟩ := List.nodup_cons.mp hnodup
      obtain ⟨hid, hnew'⟩ := List.disjoint_cons_left.mp hnew
      have hne : src.id ≠ noDoc := fun heq => hdoc (heq ▸ List.mem_cons_self)
      rw [Documents.insertLoop_cons]
      rcases insertStep_coupled hc hptr hid hne (hquotes src List.mem_cons_self) with
        hbreak | ⟨c₁, dstptr₁, hgo, hptr₁, hparams₁, hfound₁, hc₁⟩
      · rw [hbreak]
        -- the entities still to come are left out of the collector
        exact ⟨c, rfl, rfl, rfl, hc.mono (List.subset_append_right _ _) hfresh⟩
      · obtain ⟨c', hloop, hparams, hfound, hc'⟩ := ih (src.id :: ids) c₁ dstptr₁ hc₁ hptr₁ hrest
          (List.disjoint_cons_right.mpr ⟨hsrc, hnew'⟩)
          (fun hmem => hdoc (List.mem_cons_of_mem _ hmem))
          (fun s hs => hquotes s (List.mem_cons_of_mem _ hs))
        rw [hgo]
        exact ⟨c', hloop, hparams.trans hparams₁, hfound.trans hfound₁,
          hc'.mono List.perm_middle.subset hfresh⟩

/-- What a merge relies on: the sorted source holds new documents with their abstracts. -/
theorem Coupled.sorted_source {docs : Documents W} {ids' : List ℕ}
    (hdocs : Coupled tuples ids' docs) (less : Entity W → Entity W → Bool) :
    ((ranked less docs.buffer).map Entity.id).Nodup ∧
      (ranked less docs.buffer).map Entity.id ⊆ ids' ∧
      ∀ src ∈ ranked less docs.buffer,
        docs.quoBox.get src.id = some (copyAbstract (tuples src.id)) := by
  have hrest : ranked less docs.buffer ~ docs.buffer := ranked_perm docs.buffer
  refine ⟨(hrest.map Entity.id).nodup_iff.mpr hdocs.nodup, ?_, ?_⟩
  · intro id hmem
    obtain ⟨entity, hentity, rfl⟩ := List.mem_map.mp hmem
    exact hdocs.among entity (hrest.mem_iff.mp hentity)
  · exact fun src hsrc => hdocs.get_quote (hrest.mem_iff.mp hsrc)

theorem insert_coupled {docs : Documents W} {ids' : List ℕ} (hc : Coupled tuples ids c)
    (hdocs : Coupled tuples ids' docs) (hids : ids.Disjoint ids') :
    ∃ c', c.insert docs = .ok c' ∧ c'.params = c.params ∧ c'.nFound = c.nFound + docs.nFound ∧
      Coupled tuples (ids ++ ids') c' := by
  obtain ⟨hnodup, hamong, hquotes⟩ := hdocs.sorted_source c.params.less
  have hnew : ((ranked c.params.less docs.buffer).map Entity.id).Disjoint ids :=
    fun id hsrc hold => hids hold (hamong hsrc)
  obtain ⟨c', hloop, hparams, hfound, hc'⟩ := insertLoop_coupled _ ids c 0 hc (Nat.zero_le _) hnodup
    hnew (fun hmem => hdocs.fresh (hamong hmem)) hquotes
  have hfresh : noDoc ∉ ids ++ ids' :=
    fun hmem => (List.mem_append.mp hmem).elim hc.fresh hdocs.fresh
  refine ⟨{ c' with nFound := c'.nFound + docs.nFound }, ?_, hparams, ?_, ?_⟩
  · rw [Documents.insert, hloop]
    rfl
  · change c'.nFound + docs.nFound = _
    rw [hfound]
  · have hsub : (ranked c.params.less docs.buffer).map Entity.id ++ ids ⊆ ids ++ ids' := by
      intro id hmem
      rcases List.mem_append.mp hmem with hsrc | hold
      · exact List.mem_append_right _ (hamong hsrc)
      · exact List.mem_append_left _ hold
    exact { hc'.mono hsub hfresh with }

/-! ## Every state -/

/-- The collectors a search or a merge can have at hand: fresh ones, after one more document of a
search, after taking in another collector with other documents. -/
inductive Reaches (params : Params W) (tuples : ℕ → Abstract W) : List ℕ → Documents W → Prop where
  | create : Reaches params tuples [] (.create params)
  | found {ids : List ℕ} {c c' : Documents W} {id : ℕ} (hc : Reaches params tuples ids c)
      (hid : id ∉ ids) (hdoc : id ≠ noDoc) (hadd : c.addDoc id (tuples id) = .ok c') :
      Reaches params tuples (id :: ids) c'
  | merged {ids ids' : List ℕ} {c docs c' : Documents W} (hc : Reaches params tuples ids c)
      (hdocs : Reaches params tuples ids' docs) (hids : ids.Disjoint ids')
      (hinsert : c.insert docs = .ok c') : Reaches params tuples (ids ++ ids') c'

theorem Reaches.spec {params : Params W} (hlimit : 0 < params.nLimit)
    (hreach : Reaches params tuples ids c) :
    c.params = params ∧ c.nFound = (matching tuples ids).length ∧ Coupled tuples ids c := by
  induction hreach with
  | create => exact ⟨rfl, rfl, .create params⟩
  | @found ids c c' id _ hid hdoc hadd ih =>
      obtain ⟨hparams, hfound, hc⟩ := ih
      obtain ⟨c₁, hadd₁, hparams₁, hfound₁, hc₁⟩ :=
        addDoc_coupled hc (by rwa [Documents.nLimit, hparams]) hid hdoc
      obtain rfl := Except.ok.inj (hadd.symm.trans hadd₁)
      refine ⟨hparams₁.trans hparams, ?_, hc₁⟩
      rw [hfound₁, hfound, matching, matching, matching, ← List.singleton_append (l := ids),
        List.filter_append, List.length_append, Nat.add_comm]
  | @merged ids ids' c docs c' _ _ hids hinsert ih ih' =>
      obtain ⟨hparams, hfound, hc⟩ := ih
      obtain ⟨-, hfound', hdocs⟩ := ih'
      obtain ⟨c₁, hinsert₁, hparams₁, hfound₁, hc₁⟩ := insert_coupled hc hdocs hids
      obtain rfl := Except.ok.inj (hinsert.symm.trans hinsert₁)
      refine ⟨hparams₁.trans hparams, ?_, hc₁⟩
      rw [hfound₁, hfound, hfound', matching, matching, matching, List.filter_append,
        List.length_append]

/-- A whole search on a collector in use comes to one again, with the documents it visited. -/
theorem Reaches.searchFrom {params : Params W} (hlimit : 0 < params.nLimit) (query : IQuery W) :
    ∃ c ids, (Documents.create params).searchFrom query 0 = .ok c ∧
      ids ~ query.visited 0 ∧ Reaches params query.getTuples ids c := by
  have hstep : ∀ seen id rest (c : Documents W), seen ++ id :: rest = query.visited 0 →
      (∃ ids, ids ~ seen ∧ Reaches params query.getTuples ids c) →
      ∃ c', c.addDoc id (query.getTuples id) = .ok c' ∧
        ∃ ids, ids ~ seen ++ [id] ∧ Reaches params query.getTuples ids c' := by
    intro seen id rest c hvisited ⟨ids, hperm, hreach⟩
    obtain ⟨hincreasing, hrange⟩ := query.visited_spec 0
    rw [← hvisited] at hincreasing hrange
    have hdoc : id ≠ noDoc := (hrange id (by simp)).2.ne
    have hid : id ∉ ids := by
      intro hmem
      have hbefore := (List.pairwise_append.mp hincreasing).2.2 id (hperm.mem_iff.mp hmem) id
        List.mem_cons_self
      exact absurd hbefore (Nat.lt_irrefl id)
    obtain ⟨hparams, -, hc⟩ := hreach.spec hlimit
    obtain ⟨c', hadd, -⟩ := addDoc_coupled hc (by rwa [Documents.nLimit, hparams]) hid hdoc
    refine ⟨c', hadd, id :: ids, ?_, .found hreach hid hdoc hadd⟩
    exact (hperm.cons id).trans (List.perm_append_singleton id seen).symm
  obtain ⟨c, hloop, ids, hperm, hreach⟩ := foldlM_ok hstep ⟨[], .refl _, .create⟩
  exact ⟨c, ids, by rw [searchFrom_eq_foldlM, hloop], hperm, hreach⟩

/-- Buffer and store hold the same documents, each once and with its own abstract, and no later
step can fail. -/
structure QuotesMatch (params : Params W) (tuples : ℕ → Abstract W) (ids : List ℕ)
    (c : Documents W) : Prop where
  count : c.quoBox.items.length = c.nCount
  same : c.quoBox.items.map Prod.fst ~ c.buffer.map Entity.id
  once : (c.quoBox.items.map Prod.fst).Nodup
  quote : ∀ entity ∈ c.buffer, c.quoBox.get entity.id = some (copyAbstract (tuples entity.id))
  search_ok : ∀ id, id ∉ ids → id ≠ noDoc → ∃ c', c.addDoc id (tuples id) = .ok c'
  merge_ok : ∀ ids' docs, Reaches params tuples ids' docs → ids.Disjoint ids' →
    ∃ c', c.insert docs = .ok c'

/-- In every collector that a search or a merge of disjoint parts can have at hand. -/
theorem quotes_match {params : Params W} (hlimit : 1 ≤ params.nLimit)
    (hreach : Reaches params tuples ids c) : QuotesMatch params tuples ids c := by
  obtain ⟨hparams, -, hc⟩ := hreach.spec hlimit
  refine ⟨hc.quotes_length, hc.quote_ids, hc.quote_ids_nodup, fun _ => hc.get_quote, ?_, ?_⟩
  · intro id hid hdoc
    obtain ⟨c', hadd, -⟩ := addDoc_coupled hc (by rwa [Documents.nLimit, hparams]) hid hdoc
    exact ⟨c', hadd⟩
  · intro ids' docs hdocs hids
    obtain ⟨c', hinsert, -⟩ := insert_coupled hc (hdocs.spec hlimit).2.2 hids
    exact ⟨c', hinsert⟩

/-- Four documents are searched in three slots, so one is pushed out, and two others apart from
them; both collectors are merged into a third one. -/
theorem quotes_match_merged : ∃ first second target merged ids,
    (Documents.create secondPage).searchFrom (.ofDocuments sampleTuples [3, 4, 9, 10]) 0 =
      .ok first ∧ first.nCount < first.nFound ∧
    (Documents.create secondPage).searchFrom (.ofDocuments sampleTuples [5, 12]) 0 = .ok second ∧
    (Documents.create secondPage).insert first = .ok target ∧ target.insert second = .ok merged ∧
    merged.nFound = 6 ∧ QuotesMatch secondPage sampleTuples ids merged := by
  have hlimit : 0 < secondPage.nLimit := by decide
  obtain ⟨first, ids, hfirst, hids, hreach⟩ :=
    Reaches.searchFrom hlimit (IQuery.ofDocuments sampleTuples [3, 4, 9, 10])
  obtain ⟨second, ids', hsecond, hids', hreach'⟩ :=
    Reaches.searchFrom hlimit (IQuery.ofDocuments sampleTuples [5, 12])
  have hyields : IQuery.Yields (.ofDocuments sampleTuples [3, 4, 9, 10]) sampleTuples
      [3, 4, 9, 10] := IQuery.ofDocuments_yields sampleTuples (by decide) (by decide)
  have hyields' : IQuery.Yields (.ofDocuments sampleTuples [5, 12]) sampleTuples [5, 12] :=
    IQuery.ofDocuments_yields sampleTuples (by decide) (by decide)
  rw [hyields.visited_zero] at hids
  rw [hyields'.visited_zero] at hids'
  have hapart : ids.Disjoint ids' := by
    intro id hmem hmem'
    have hboth : ∀ id ∈ [3, 4, 9, 10], id ∉ [5, 12] := by decide
    exact hboth id (hids.mem_iff.mp hmem) (hids'.mem_iff.mp hmem')
  obtain ⟨target, htarget⟩ :=
    (quotes_match hlimit .create).merge_ok ids first hreach (List.disjoint_nil_left _)
  have hreached := Reaches.merged .create hreach (List.disjoint_nil_left _) htarget
  rw [List.nil_append] at hreached
  obtain ⟨merged, hmerged⟩ := (quotes_match hlimit hreached).merge_ok ids' second hreach' hapart
  have hlast := Reaches.merged hreached hreach' hapart hmerged
  obtain ⟨hparams, hfound, hcoupled⟩ := hreach.spec hlimit
  have hfour : (matching sampleTuples ids).length = 4 := (hids.filter _).length_eq
  have hsix : (matching sampleTuples (ids ++ ids')).length = 6 :=
    ((hids.append hids').filter _).length_eq
  have hroom : first.nCount ≤ 3 := by
    have hroom := hcoupled.room
    rwa [Documents.nLimit, hparams] at hroom
  refine ⟨first, second, target, merged, ids ++ ids', hfirst, ?_, hsecond, htarget, hmerged,
    (hlast.spec hlimit).2.1.trans hsix, quotes_match hlimit hlast⟩
  rw [hfound]
  exact (Nat.lt_succ_of_le hroom).trans_eq hfour.symm

end Palmira.Collect
