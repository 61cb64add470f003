import Palmira.Collect.Collected

/-!
# Merging collectors

`Insert` puts the entities of another collector into a sorted buffer in one
pass. The pass keeps the buffer sorted and holds the best of everything it has
gone through, so the merged collector has taken in the documents of both.
-/

namespace Palmira.Collect

open TopList
open scoped List

variable {W : Type} [LT W] [DecidableLT W] {tuples : ℕ → Abstract W} {c : Documents W}
  {all : List (Entity W)}

/-! ## One entity -/

section Place

variable (hless : StrictTotal c.params.less) (hkeeps : Keeps tuples c all)
  (hsorted : Ranked c.params.less c.buffer) {p : ℕ} {src : Entity W}
  (hbefore : ∀ y ∈ c.buffer.take p, c.params.less src y = false)
  (hafter : ∀ y ∈ c.buffer.drop p, c.params.less y src = false)

include hkeeps hsorted hbefore hafter

/-- A buffer with room keeps all its entities beside the new one. -/
theorem Keeps.place (hroom : c.nCount < c.nLimit) :
    Keeps tuples { c with
        quoBox := { c.quoBox with items := c.quoBox.items ++ [quoteOf tuples src] }
        buffer := c.buffer.take p ++ src :: c.buffer.drop p } (src :: all) ∧
      Ranked c.params.less (c.buffer.take p ++ src :: c.buffer.drop p) := by
  obtain ⟨hsplit, hroom'⟩ :
      c.buffer.take p ++ c.buffer.drop p = c.buffer ∧ c.buffer.length < c.nLimit :=
    ⟨List.take_append_drop p c.buffer, hroom⟩
  have htop := hkeeps.top
  have hquotes := hkeeps.quotes
  rw [← hsplit] at hsorted htop hroom' hquotes
  obtain ⟨htop', hsorted'⟩ := IsTop.place hsorted hbefore hafter htop hroom'
  refine ⟨⟨htop', ?_, hkeeps.limit⟩, hsorted'⟩
  calc c.quoBox.items ++ [quoteOf tuples src]
    _ ~ quoteOf tuples src :: c.quoBox.items := List.perm_append_singleton _ _
    _ ~ quoteOf tuples src :: (c.buffer.take p ++ c.buffer.drop p).map (quoteOf tuples) :=
        hquotes.cons _
    _ ~ (c.buffer.take p ++ src :: c.buffer.drop p).map (quoteOf tuples) :=
        (List.perm_middle.symm).map (quoteOf tuples)

include hless

/-- In a full buffer the new entity pushes out the last one, and its abstract goes to the same
place of the store. -/
theorem Keeps.place_full (hids : (all.map Entity.id).Nodup) (hfull : c.buffer.length = c.nLimit)
    (hp : p < c.buffer.length) (abstr : Abstract W)
    (hcopy : copyAbstract abstr = copyAbstract (tuples src.id)) :
    ∃ last items, c.buffer[c.nLimit - 1]? = some last ∧
      c.quoBox.set src.id abstr last.id = .ok { c.quoBox with items } ∧
      Keeps tuples { c with
        quoBox := { c.quoBox with items }
        buffer := c.buffer.take p ++ src :: (c.buffer.drop p).dropLast } (src :: all) ∧
      Ranked c.params.less (c.buffer.take p ++ src :: (c.buffer.drop p).dropLast) := by
  have hsplit : c.buffer.take p ++ c.buffer.drop p = c.buffer := List.take_append_drop p c.buffer
  have hne : c.buffer.drop p ≠ [] := by
    intro hnil
    rw [List.drop_eq_nil_iff] at hnil
    omega
  obtain ⟨last, hlast, hperm⟩ := exists_last_of_drop hne
  rw [hfull] at hlast
  obtain ⟨items, hset, hitems⟩ := hkeeps.set_old hids hperm src.id abstr
  have htop := hkeeps.top
  have hfull' := hfull
  rw [← hsplit] at hsorted htop hfull'
  obtain ⟨htop', hsorted'⟩ := IsTop.place_full hless hsorted hbefore hafter htop hfull' hne
  refine ⟨last, items, hlast, hset, ⟨htop', ?_, hkeeps.limit⟩, hsorted'⟩
  rw [hcopy] at hitems
  exact hitems.trans ((List.perm_middle.symm).map (quoteOf tuples))

end Place

/-! ## The pass -/

/-- Before an entity is merged: the buffer holds the best of `all` in order, `rest` is still to
come in order, and everything before the insertion point is ranked before all of it. -/
structure InsertInv (tuples : ℕ → Abstract W) (c : Documents W) (dstptr : ℕ)
    (rest all : List (Entity W)) : Prop where
  keeps : Keeps tuples c all
  sorted : Ranked c.params.less c.buffer
  ptr_le : dstptr ≤ c.buffer.length
  before : ∀ y ∈ c.buffer.take dstptr, ∀ src ∈ rest, c.params.less src y = false
  rest_sorted : Ranked c.params.less rest
  ids : ((rest ++ all).map Entity.id).Nodup
  fresh : noDoc ∉ (rest ++ all).map Entity.id

section Pass

variable {dstptr : ℕ} {src : Entity W} {rest : List (Entity W)} {quotes : Abstracts W}

theorem InsertInv.ids_all (hinv : InsertInv tuples c dstptr rest all) :
    (all.map Entity.id).Nodup := by
  have hids := hinv.ids
  rw [List.map_append] at hids
  exact (List.nodup_append.mp hids).2.1

theorem InsertInv.fresh_all (hinv : InsertInv tuples c dstptr rest all) :
    noDoc ∉ all.map Entity.id := by
  intro hmem
  apply hinv.fresh
  rw [List.map_append]
  exact List.mem_append_right _ hmem

variable (hless : StrictTotal c.params.less)
  (hinv : InsertInv tuples c dstptr (src :: rest) all)

include hless hinv

theorem InsertInv.front :
    ∀ y ∈ c.buffer.take (placeFrom c.params.less dstptr src c.buffer),
      ∀ s ∈ src :: rest, c.params.less s y = false := by
  intro y hy s hs
  have hsrc : c.params.less src y = false := by
    apply not_less_of_mem_take hless ?_ hy
    exact fun z hz => hinv.before z hz src List.mem_cons_self
  rcases List.mem_cons.mp hs with rfl | hs
  · exact hsrc
  · exact hless.not_less_trans ((List.pairwise_cons.mp hinv.rest_sorted).1 s hs) hsrc

/-- The invariant after `src` was put at its place, whatever the buffer holds behind it. -/
theorem InsertInv.next {c' : Documents W} {back : List (Entity W)}
    (hkeeps : Keeps tuples c' (src :: all)) (hsorted : Ranked c.params.less c'.buffer)
    (hparams : c'.params = c.params) (hbuffer : c'.buffer =
      c.buffer.take (placeFrom c.params.less dstptr src c.buffer) ++ src :: back) :
    InsertInv tuples c' (placeFrom c.params.less dstptr src c.buffer) rest (src :: all) := by
  have hp : placeFrom c.params.less dstptr src c.buffer ≤ c.buffer.length :=
    placeFrom_le dstptr src hinv.ptr_le
  have hlen := List.length_take_of_le hp
  refine ⟨hkeeps, hparams ▸ hsorted, ?_, ?_, ?_, ?_, ?_⟩
  · rw [hbuffer, List.length_append, hlen]
    exact Nat.le_add_right _ _
  · intro y hy s hs
    rw [hbuffer, List.take_left' hlen] at hy
    rw [hparams]
    exact hinv.front hless y hy s (List.mem_cons_of_mem _ hs)
  · rw [hparams]
    exact (List.pairwise_cons.mp hinv.rest_sorted).2
  · exact (List.perm_middle.map Entity.id).nodup_iff.mpr hinv.ids
  · exact fun hmem => hinv.fresh ((List.perm_middle.map Entity.id).mem_iff.mp hmem)

/-- One entity: the loop breaks off with nothing left to take in, or goes on. -/
theorem insertLoop_step (hget : quotes.get src.id = some (copyAbstract (tuples src.id))) :
    (c.insertLoop quotes dstptr (src :: rest) = .ok c ∧ Keeps tuples c (src :: rest ++ all)) ∨
    ∃ c' dstptr', c.insertLoop quotes dstptr (src :: rest) = c'.insertLoop quotes dstptr' rest ∧
      c'.params = c.params ∧ c'.nFound = c.nFound ∧
      InsertInv tuples c' dstptr' rest (src :: all) := by
  have hkeeps := hinv.keeps
  have hp : placeFrom c.params.less dstptr src c.buffer ≤ c.buffer.length :=
    placeFrom_le dstptr src hinv.ptr_le
  have hfront : ∀ y ∈ c.buffer.take (placeFrom c.params.less dstptr src c.buffer),
      c.params.less src y = false :=
    fun y hy => hinv.front hless y hy src List.mem_cons_self
  have hback : ∀ y ∈ c.buffer.drop (placeFrom c.params.less dstptr src c.buffer),
      c.params.less y src = false :=
    fun y hy => not_less_of_mem_drop hless hinv.sorted hy
  have hcopy := copyAbstract_copyAbstract (tuples src.id)
  by_cases hbreak : placeFrom c.params.less dstptr src c.buffer = c.nLimit
  · -- the buffer is full and stands before everything still to come
    have hfull : c.buffer.length = c.nLimit :=
      Nat.le_antisymm hkeeps.top.length_le (hbreak ▸ hp)
    refine .inl ⟨?_, ?_, hkeeps.quotes, hkeeps.limit⟩
    · simp only [Documents.insertLoop]
      exact if_pos hbreak
    · apply hkeeps.top.skip_all hfull
      intro s hs y hy
      apply hinv.front hless y ?_ s hs
      rw [hbreak, ← hfull, List.take_length]
      exact hy
  right
  -- in the place there is room for the entity, or the last one is moved out for it
  by_cases hroom : c.nCount < c.nLimit
  · have hset := hkeeps.set_new hroom src.id (copyAbstract (tuples src.id)) hinv.fresh_all
    obtain ⟨hkeeps', hsorted'⟩ := hkeeps.place hinv.sorted hfront hback hroom
    refine ⟨_, _, ?_, ?_, ?_, hinv.next hless hkeeps' hsorted' rfl rfl⟩
    · simp only [Documents.insertLoop, hget, if_pos hroom, hset, hcopy, if_neg hbreak]
      rfl
    · rfl
    · rfl
  · have hfull : c.buffer.length = c.nLimit :=
      Nat.le_antisymm hkeeps.top.length_le (Nat.not_lt.mp hroom)
    obtain ⟨last, items, hlast, hset, hkeeps', hsorted'⟩ :=
      hkeeps.place_full hless hinv.sorted hfront hback hinv.ids_all hfull (by omega)
        (copyAbstract (tuples src.id)) hcopy
    refine ⟨_, _, ?_, ?_, ?_, hinv.next hless hkeeps' hsorted' rfl rfl⟩
    · simp only [Documents.insertLoop, hget, if_neg hroom, hlast, hset, if_neg hbreak]
      rfl
    · rfl
    · rfl

end Pass

/-- The loop takes in all its entities and leaves the buffer sorted. -/
theorem insertLoop_keeps (quotes : Abstracts W) (rest : List (Entity W)) (c : Documents W)
    (dstptr : ℕ) (all : List (Entity W)) (hless : StrictTotal c.params.less)
    (hinv : InsertInv tuples c dstptr rest all)
    (hquotes : ∀ src ∈ rest, quotes.get src.id = some (copyAbstract (tuples src.id))) :
    ∃ c', c.insertLoop quotes dstptr rest = .ok c' ∧ c'.params = c.params ∧
      c'.nFound = c.nFound ∧ Keeps tuples c' (rest ++ all) ∧
      Ranked c.params.less c'.buffer := by
  induction rest generalizing c dstptr all with
  | nil => exact ⟨c, rfl, rfl, rfl, hinv.keeps, hinv.sorted⟩
  | cons src rest ih =>
      rcases insertLoop_step hless hinv (hquotes src List.mem_cons_self) with
        ⟨hloop, hkeeps⟩ | ⟨c₁, dstptr₁, hloop, hparams₁, hfound₁, hinv₁⟩
      · exact ⟨c, hloop, rfl, rfl, hkeeps, hinv.sorted⟩
      · obtain ⟨c', hloop', hparams, hfound, hkeeps, hsorted⟩ :=
          ih c₁ dstptr₁ (src :: all) (hparams₁ ▸ hless) hinv₁
            (fun s hs => hquotes s (List.mem_cons_of_mem _ hs))
        refine ⟨c', hloop.trans hloop', hparams.trans hparams₁, hfound.trans hfound₁,
          hkeeps.perm List.perm_middle, hparams₁ ▸ hsorted⟩

/-- A sorted collector that takes in another one holds the best of both buffers. -/
theorem insert_keeps {docs : Documents W} (hless : StrictTotal c.params.less)
    (hkeeps : Keeps tuples c c.buffer) (hsorted : Ranked c.params.less c.buffer)
    (hids : ((docs.buffer ++ c.buffer).map Entity.id).Nodup)
    (hfresh : noDoc ∉ (docs.buffer ++ c.buffer).map Entity.id)
    (hquotes : ∀ src ∈ docs.buffer,
      docs.quoBox.get src.id = some (copyAbstract (tuples src.id))) :
    ∃ c', c.insert docs = .ok c' ∧ c'.params = c.params ∧ c'.nFound = c.nFound + docs.nFound ∧
      Keeps tuples c' (docs.buffer ++ c.buffer) ∧ Ranked c.params.less c'.buffer := by
  have hrest : ranked c.params.less docs.buffer ~ docs.buffer := ranked_perm docs.buffer
  have hboth := hrest.append_right c.buffer
  have hinv : InsertInv tuples c 0 (ranked c.params.less docs.buffer) c.buffer := by
    refine ⟨hkeeps, hsorted, Nat.zero_le _, by simp, ranked_sorted hless docs.buffer, ?_, ?_⟩
    · exact (hboth.map Entity.id).nodup_iff.mpr hids
    · exact fun hmem => hfresh ((hboth.map Entity.id).mem_iff.mp hmem)
  obtain ⟨c', hloop, hparams, hfound, hkeeps', hsorted'⟩ :=
    insertLoop_keeps docs.quoBox _ c 0 c.buffer hless hinv
      (fun src hsrc => hquotes src (hrest.mem_iff.mp hsrc))
  have hkept := hkeeps'.perm hboth
  refine ⟨{ c' with nFound := c'.nFound + docs.nFound }, ?_, hparams, ?_,
    ⟨hkept.top, hkept.quotes, hkept.limit⟩, hsorted'⟩
  · rw [Documents.insert, hloop]
    rfl
  · change c'.nFound + docs.nFound = _
    rw [hfound]

/-- A sorted collector that takes in another one has taken in the documents of both. -/
theorem insert_collects {docs : Documents W} {ids ids' : List ℕ}
    (hless : StrictTotal c.params.less) (hparams : docs.params = c.params)
    (hc : Collects tuples c ids) (hsorted : Ranked c.params.less c.buffer)
    (hdocs : Collects tuples docs ids') (hids : (ids ++ ids').Nodup)
    (hrange : noDoc ∉ ids ++ ids') :
    ∃ c', c.insert docs = .ok c' ∧ c'.params = c.params ∧ Collects tuples c' (ids ++ ids') ∧
      Ranked c.params.less c'.buffer := by
  -- the kept entities of both sides are among the documents of both sides
  have hkept : ∃ others, (entities c.params tuples (ids ++ ids')).map Entity.id ~
      (docs.buffer ++ c.buffer).map Entity.id ++ others := by
    obtain ⟨more, hmore, -⟩ := hc.keeps.top
    obtain ⟨more', hmore', -⟩ := hdocs.keeps.top
    rw [hparams] at hmore'
    refine ⟨(more ++ more').map Entity.id, ?_⟩
    rw [entities_append, ← List.map_append]
    apply List.Perm.map
    calc entities c.params tuples ids ++ entities c.params tuples ids'
      _ ~ (c.buffer ++ more) ++ (docs.buffer ++ more') := hmore.append hmore'
      _ ~ (c.buffer ++ docs.buffer) ++ (more ++ more') := by
          rw [List.append_assoc, List.append_assoc, ← List.append_assoc more,
            ← List.append_assoc docs.buffer]
          exact (List.perm_append_comm.append_right more').append_left c.buffer
      _ ~ (docs.buffer ++ c.buffer) ++ (more ++ more') := List.perm_append_comm.append_right _
  obtain ⟨others, hothers⟩ := hkept
  have hself : Keeps tuples c c.buffer :=
    ⟨isTop_self hc.keeps.top.length_le, hc.keeps.quotes, hc.keeps.limit⟩
  have hnodup : ((docs.buffer ++ c.buffer).map Entity.id).Nodup :=
    (List.nodup_append.mp (hothers.nodup_iff.mp (nodup_entities hids c.params))).1
  have hfresh : noDoc ∉ (docs.buffer ++ c.buffer).map Entity.id := by
    intro hmem
    exact fresh_entities hrange c.params (hothers.mem_iff.mpr (List.mem_append_left _ hmem))
  have hquotes : ∀ src ∈ docs.buffer,
      docs.quoBox.get src.id = some (copyAbstract (tuples src.id)) := by
    intro src hsrc
    exact hdocs.keeps.get_quote (nodup_entities (List.nodup_append.mp hids).2.1 docs.params) hsrc
  obtain ⟨c', hinsert, hparams', hfound, hkeeps, hsorted'⟩ :=
    insert_keeps hless hself hsorted hnodup hfresh hquotes
  refine ⟨c', hinsert, hparams', ⟨?_, ?_, hkeeps.quotes, hkeeps.limit⟩, hsorted'⟩
  · rw [hfound, hc.found, hdocs.found, matching, matching, matching, List.filter_append,
      List.length_append]
  · have hnLimit : c'.nLimit = c.nLimit := congrArg Params.nLimit hparams'
    have htop := hkeeps.top
    have htop_docs := hdocs.keeps.top
    rw [Documents.nLimit, hparams] at htop_docs
    rw [hparams', hnLimit] at htop ⊢
    rw [entities_append]
    exact hc.keeps.top.append hless htop_docs (htop.perm (.refl _) List.perm_append_comm)

end Palmira.Collect
