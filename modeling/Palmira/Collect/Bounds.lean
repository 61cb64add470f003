import Palmira.Collect.Coupling

/-!
# Pages and memory

The page of a request fixes the room of a collector: the buffer behind the
object and the items of the store of abstracts, both sized in unsigned
arithmetic. Every slot a search, a merge or a report touches has to lie within
that room and within the memory taken for it.
-/

namespace Palmira.Collect

open TopList
open scoped List

variable {W : Type}

/-! ## The page of a request -/

namespace Params

/-- `SetFirst` -/
def setFirst (params : Params W) (first : ℕ) : Except Exn (Params W) :=
  if first = 0 then .error (.invalidArgument "'first' has to be 1-based")
  else .ok { params with nfirst := first }

/-- `SetCount` -/
def setCount (params : Params W) (count : ℕ) : Params W := { params with ncount := count }

/-- The page of a search: `get_int32( "first" )` and `get_int32( "count" )`, passed as
`uint32_t`. -/
def ofPage (params : Params W) (first count : Int32) : Except Exn (Params W) := do
  let params ← params.setFirst first.toUInt32.toNat
  return params.setCount count.toUInt32.toNat

end Params

/-! ## Memory -/

/-- The sizes the compiler gives the classes; `itemsAt` is the offset of `abstracts::items`. -/
structure Layout where
  impl : ℕ
  entity : ℕ
  abstracts : ℕ
  item : ℕ
  itemsAt : ℕ
  impl_pos : 0 < impl
  item_fits : itemsAt + item ≤ abstracts
  item_pos : 0 < item
  small : impl < 2 ^ 16 ∧ entity < 2 ^ 16 ∧ abstracts < 2 ^ 16

namespace Layout

variable (layout : Layout)

/-- Room for `nalloc` bytes, in whole objects of `size` bytes. -/
def objects (size nalloc : ℕ) : ℕ := (nalloc + size - 1) / size

/-- The bytes `impl::Create` takes, in `size_t` arithmetic. -/
def bufferBytes (nLimit : ℕ) : ℕ :=
  objects layout.impl ((layout.impl + nLimit * layout.entity) % 2 ^ 64) * layout.impl

/-- `maxcount - 1`, an `unsigned`. -/
def lastItem (maxcount : ℕ) : ℕ := (maxcount + (2 ^ 32 - 1)) % 2 ^ 32

/-- The bytes `abstracts::Create` takes. -/
def itemsBytes (maxcount : ℕ) : ℕ :=
  objects layout.abstracts ((layout.abstracts + lastItem maxcount * layout.item) % 2 ^ 64) *
    layout.abstracts

/-- Slot `k` of `Buffer()`, which stands behind the object. -/
def BufferFits (nLimit k : ℕ) : Prop :=
  layout.impl + (k + 1) * layout.entity ≤ layout.bufferBytes nLimit

def ItemFits (maxcount k : ℕ) : Prop :=
  layout.itemsAt + (k + 1) * layout.item ≤ layout.itemsBytes maxcount

theorem le_objects_mul {size : ℕ} (hsize : 0 < size) (nalloc : ℕ) :
    nalloc ≤ objects size nalloc * size := by
  have hdiv := Nat.div_add_mod (nalloc + size - 1) size
  have hmod := Nat.mod_lt (nalloc + size - 1) hsize
  rw [objects, Nat.mul_comm]
  omega

theorem lastItem_eq_pred {maxcount : ℕ} (hpos : 0 < maxcount) (hlt : maxcount < 2 ^ 32) :
    lastItem maxcount = maxcount - 1 := by
  unfold lastItem
  omega

theorem bufferFits_of_lt {nLimit k : ℕ} (hlt : nLimit < 2 ^ 32) (hk : k < nLimit) :
    layout.BufferFits nLimit k := by
  have hsmall := layout.small
  have htotal : nLimit * layout.entity ≤ 2 ^ 32 * 2 ^ 16 := Nat.mul_le_mul hlt.le hsmall.2.1.le
  have hslot : (k + 1) * layout.entity ≤ nLimit * layout.entity := Nat.mul_le_mul_right _ hk
  calc layout.impl + (k + 1) * layout.entity
    _ ≤ layout.impl + nLimit * layout.entity := Nat.add_le_add_left hslot _
    _ = (layout.impl + nLimit * layout.entity) % 2 ^ 64 := by rw [Nat.mod_eq_of_lt (by omega)]
    _ ≤ layout.bufferBytes nLimit := le_objects_mul layout.impl_pos _

theorem itemFits_of_lt {maxcount k : ℕ} (hlt : maxcount < 2 ^ 32) (hk : k < maxcount) :
    layout.ItemFits maxcount k := by
  have hsmall := layout.small
  have hfits := layout.item_fits
  have hlast := lastItem_eq_pred (Nat.zero_lt_of_lt hk) hlt
  have htotal : lastItem maxcount * layout.item ≤ 2 ^ 32 * 2 ^ 16 :=
    Nat.mul_le_mul (by omega) (by omega)
  have hslot : k * layout.item ≤ lastItem maxcount * layout.item :=
    Nat.mul_le_mul_right _ (by omega)
  have hpos : 0 < layout.abstracts := by have := layout.item_pos; omega
  calc layout.itemsAt + (k + 1) * layout.item
    _ = layout.itemsAt + layout.item + k * layout.item := by rw [Nat.succ_mul]; omega
    _ ≤ layout.abstracts + lastItem maxcount * layout.item := Nat.add_le_add hfits hslot
    _ = (layout.abstracts + lastItem maxcount * layout.item) % 2 ^ 64 := by
        rw [Nat.mod_eq_of_lt (by omega)]
    _ ≤ layout.itemsBytes maxcount := le_objects_mul hpos _

end Layout

/-! ## The slots a call touches -/

/-- The slots of `items` that `Get` reads. -/
def Abstracts.getSlots (s : Abstracts W) (getid : ℕ) : List ℕ :=
  match s.items.findIdx? (fun item => item.1 == getid) with
  | some p => List.range (p + 1)
  | none => List.range s.items.length

/-- The slots of `items` that `Set` reads or writes. -/
def Abstracts.setSlots (s : Abstracts W) (oldid : ℕ) : List ℕ :=
  match s.items.findIdx? (fun item => item.1 == oldid) with
  | some p => List.range (p + 1)
  | none => List.range (if s.items.length < s.limit then s.items.length + 1 else s.items.length)

/-- The slots of one collector that a call touches. -/
structure Touched where
  buffer : List ℕ
  items : List ℕ

def Touched.append (s t : Touched) : Touched := ⟨s.buffer ++ t.buffer, s.items ++ t.items⟩

namespace Documents

/-- The slots the body of the search loop touches: the next free one, or the scan for the worst
(when none is cached) and the worst itself, which is slot 0 of an empty buffer. -/
def addDocSlots (c : Documents W) (id : ℕ) (tuples : Abstract W) : Touched :=
  if tuples.isNone then ⟨[], []⟩
  else if c.nCount < c.nLimit then ⟨[c.nCount], c.quoBox.setSlots noDoc⟩
  else
    let scanned := match c.pWorst with
      | none => List.range c.nCount
      | some _ => []
    let worst := c.worstSlot.getD 0
    let stored := match c.buffer[worst]? with
      | none => []
      | some held =>
          if c.params.less ⟨id, c.params.ranker id tuples⟩ held then c.quoBox.setSlots held.id
          else []
    ⟨scanned ++ [worst], stored⟩

/-- The slots of the target that one round of the merge loop touches: those compared with `src`,
then those `memmove` shifts and the one `src` goes to. -/
def insertStepSlots (quotes : Abstracts W) (c : Documents W) (dstptr : ℕ) (src : Entity W) :
    Touched :=
  let place := placeFrom c.params.less dstptr src c.buffer
  let compared := (List.range (min (place + 1) c.nCount)).drop dstptr
  if place = c.nLimit ∨ quotes.get src.id = none then ⟨compared, []⟩
  else if c.nCount < c.nLimit then
    ⟨compared ++ (List.range (c.nCount + 1)).drop place, c.quoBox.setSlots noDoc⟩
  else
    let stored := match c.buffer[c.nLimit - 1]? with
      | none => []
      | some last => c.quoBox.setSlots last.id
    ⟨compared ++ [c.nLimit - 1] ++ (List.range c.nLimit).drop place, stored⟩

section Insert

variable [LT W] [DecidableLT W]

/-- The slots of the target that the merge loop touches. -/
def insertLoopSlots (quotes : Abstracts W) (c : Documents W) (dstptr : ℕ) :
    List (Entity W) → Touched
  | [] => ⟨[], []⟩
  | src :: rest =>
      (insertStepSlots quotes c dstptr src).append
        (match insertStep quotes c dstptr src with
        | .ok (.inl (c', dstptr')) => insertLoopSlots quotes c' dstptr' rest
        | .ok (.inr _) => ⟨[], []⟩
        | .error _ => ⟨[], []⟩)

/-- The slots of the target that `Insert( docs )` touches. -/
def insertSlots (c docs : Documents W) : Touched :=
  insertLoopSlots docs.quoBox c 0 (ranked c.params.less docs.buffer)

end Insert

/-- The slots of the source that `Insert( docs )` touches: it sorts and walks the whole buffer and
looks up the abstracts. -/
def sourceSlots (docs : Documents W) : Touched :=
  ⟨List.range docs.nCount, docs.buffer.flatMap (fun entity => docs.quoBox.getSlots entity.id)⟩

/-- The slots `Finish` touches: it sorts the buffer, walks the page and looks up its quotes. -/
def finishSlots (c : Documents W) : Touched :=
  if c.nFirst ≤ c.nCount then
    ⟨List.range c.nCount ++ (List.range c.nCount).drop (c.nFirst - 1),
      if c.params.quoter.isSome then
        c.buffer.flatMap (fun entity => c.quoBox.getSlots entity.id)
      else []⟩
  else ⟨[], []⟩

end Documents

/-! ## Within bounds -/

/-- Every touched slot is below `nLimit` and within the memory of its array. -/
structure Touched.InBounds (t : Touched) (layout : Layout) (nLimit : ℕ) : Prop where
  buffer : ∀ k ∈ t.buffer, k < nLimit ∧ layout.BufferFits nLimit k
  items : ∀ k ∈ t.items, k < nLimit ∧ layout.ItemFits nLimit k

namespace Touched

variable {layout : Layout} {nLimit : ℕ}

theorem inBounds_nil : InBounds ⟨[], []⟩ layout nLimit :=
  ⟨fun _ hmem => (List.not_mem_nil hmem).elim, fun _ hmem => (List.not_mem_nil hmem).elim⟩

theorem InBounds.append {s t : Touched} (hs : s.InBounds layout nLimit)
    (ht : t.InBounds layout nLimit) : (s.append t).InBounds layout nLimit where
  buffer k hk := (List.mem_append.mp hk).elim (hs.buffer k) (ht.buffer k)
  items k hk := (List.mem_append.mp hk).elim (hs.items k) (ht.items k)

/-- Slots below the limit have memory. -/
theorem inBounds_of_lt {t : Touched} (hlt : nLimit < 2 ^ 32) (hbuffer : ∀ k ∈ t.buffer, k < nLimit)
    (hitems : ∀ k ∈ t.items, k < nLimit) : t.InBounds layout nLimit where
  buffer k hk := ⟨hbuffer k hk, layout.bufferFits_of_lt hlt (hbuffer k hk)⟩
  items k hk := ⟨hitems k hk, layout.itemFits_of_lt hlt (hitems k hk)⟩

end Touched

theorem Params.nLimit_lt (params : Params W) : params.nLimit < 2 ^ 32 :=
  Nat.mod_lt _ (Nat.two_pow_pos 32)

namespace Abstracts

variable {s : Abstracts W}

/-- A search for an id that is there does not go behind it. -/
theorem lt_length_of_found {id p k : ℕ}
    (hfind : s.items.findIdx? (fun item => item.1 == id) = some p) (hk : k ∈ List.range (p + 1)) :
    k < s.items.length := by
  have hp := (List.findIdx?_eq_some_iff_getElem.mp hfind).1
  exact (Nat.le_of_lt_succ (List.mem_range.mp hk)).trans_lt hp

theorem lt_of_mem_getSlots {getid k : ℕ} (hk : k ∈ s.getSlots getid) : k < s.items.length := by
  unfold getSlots at hk
  split at hk
  next p hfind => exact lt_length_of_found hfind hk
  next => exact List.mem_range.mp hk

theorem lt_of_mem_setSlots {oldid k : ℕ} (hroom : s.items.length ≤ s.limit)
    (hk : k ∈ s.setSlots oldid) : k < s.limit := by
  unfold setSlots at hk
  split at hk
  next p hfind => exact (lt_length_of_found hfind hk).trans_le hroom
  next =>
    have hlt := List.mem_range.mp hk
    split at hlt <;> omega

end Abstracts

section Reached

variable [LT W] [DecidableLT W] {tuples : ℕ → Abstract W} {ids : List ℕ} {c : Documents W}

namespace Coupled

theorem setSlots_lt (hc : Coupled tuples ids c) (oldid : ℕ) :
    ∀ k ∈ c.quoBox.setSlots oldid, k < c.nLimit := by
  have hroom : c.quoBox.items.length ≤ c.quoBox.limit := by
    rw [hc.quotes_length, hc.limit]
    exact hc.room
  exact fun k hk => hc.limit ▸ Abstracts.lt_of_mem_setSlots hroom hk

theorem getSlots_lt (hc : Coupled tuples ids c) (getid : ℕ) :
    ∀ k ∈ c.quoBox.getSlots getid, k < c.nLimit := by
  intro k hk
  have hlt := Abstracts.lt_of_mem_getSlots hk
  rw [hc.quotes_length] at hlt
  exact hlt.trans_le hc.room

theorem addDocSlots_inBounds (hc : Coupled tuples ids c) (hlimit : 0 < c.nLimit) (layout : Layout)
    (id : ℕ) (abstr : Abstract W) : (c.addDocSlots id abstr).InBounds layout c.nLimit := by
  apply Touched.inBounds_of_lt c.params.nLimit_lt
  · intro k hk
    unfold Documents.addDocSlots at hk
    split at hk
    next => cases hk
    next =>
      split at hk
      next hroom => exact List.mem_singleton.mp hk ▸ hroom
      next hroom =>
        have hfull : c.nLimit ≤ c.nCount := Nat.not_lt.mp hroom
        -- `nLimit` is not 0, so a full buffer has a worst slot to compare with
        obtain ⟨worst, hslot, hworst⟩ := hc.worstSlot_lt (hlimit.trans_le hfull)
        rcases List.mem_append.mp hk with hscan | hheld
        · split at hscan
          · exact (List.mem_range.mp hscan).trans_le hc.room
          · cases hscan
        · rw [List.mem_singleton.mp hheld, hslot]
          exact hworst.trans_le hc.room
  · intro k hk
    unfold Documents.addDocSlots at hk
    split at hk
    next => cases hk
    next =>
      split at hk
      next => exact hc.setSlots_lt noDoc k hk
      next =>
        simp only at hk
        split at hk
        next => cases hk
        next held _ =>
          split at hk
          · exact hc.setSlots_lt held.id k hk
          · cases hk

theorem insertStepSlots_inBounds (hc : Coupled tuples ids c) (layout : Layout)
    (quotes : Abstracts W) (dstptr : ℕ) (src : Entity W) (hptr : dstptr ≤ c.nCount) :
    (Documents.insertStepSlots quotes c dstptr src).InBounds layout c.nLimit := by
  have hplace : placeFrom c.params.less dstptr src c.buffer ≤ c.nCount :=
    placeFrom_le dstptr src hptr
  have hcompared : ∀ k ∈ (List.range (min (placeFrom c.params.less dstptr src c.buffer + 1)
      c.nCount)).drop dstptr, k < c.nLimit := by
    intro k hk
    have hlt := List.mem_range.mp (List.mem_of_mem_drop hk)
    exact hlt.trans_le ((Nat.min_le_right _ _).trans hc.room)
  apply Touched.inBounds_of_lt c.params.nLimit_lt
  · intro k hk
    unfold Documents.insertStepSlots at hk
    simp only at hk
    split at hk
    next => exact hcompared k hk
    next hgo =>
      split at hk
      next hroom =>
        rcases List.mem_append.mp hk with hold | hmoved
        · exact hcompared k hold
        · exact (List.mem_range.mp (List.mem_of_mem_drop hmoved)).trans_le hroom
      next hroom =>
        rcases List.mem_append.mp hk with hk | hmoved
        · rcases List.mem_append.mp hk with hold | hlast
          · exact hcompared k hold
          · -- the entity goes before the end of a full buffer, so there is a last one to move out
            have hlt : placeFrom c.params.less dstptr src c.buffer < c.nLimit :=
              Nat.lt_of_le_of_ne (hplace.trans hc.room) (not_or.mp hgo).1
            rw [List.mem_singleton.mp hlast]
            exact Nat.sub_lt (Nat.zero_lt_of_lt hlt) Nat.zero_lt_one
        · exact List.mem_range.mp (List.mem_of_mem_drop hmoved)
  · intro k hk
    unfold Documents.insertStepSlots at hk
    simp only at hk
    split at hk
    next => cases hk
    next =>
      split at hk
      next => exact hc.setSlots_lt noDoc k hk
      next =>
        simp only at hk
        split at hk
        next => cases hk
        -- the abstract of the entity moved out is looked for
        next last _ => exact hc.setSlots_lt last.id k hk

theorem insertLoopSlots_inBounds {quotes : Abstracts W} (layout : Layout) (rest : List (Entity W))
    (ids : List ℕ) (c : Documents W) (dstptr : ℕ) (hc : Coupled tuples ids c)
    (hptr : dstptr ≤ c.nCount) (hnodup : (rest.map Entity.id).Nodup)
    (hnew : (rest.map Entity.id).Disjoint ids) (hdoc : noDoc ∉ rest.map Entity.id)
    (hquotes : ∀ src ∈ rest, quotes.get src.id = some (copyAbstract (tuples src.id))) :
    (Documents.insertLoopSlots quotes c dstptr rest).InBounds layout c.nLimit := by
  induction rest generalizing ids c dstptr with
  | nil => exact Touched.inBounds_nil
  | cons src rest ih =>
      rw [List.map_cons] at hnodup hnew
      obtain ⟨hsrc, hrest⟩ := List.nodup_cons.mp hnodup
      obtain ⟨hid, hnew'⟩ := List.disjoint_cons_left.mp hnew
      have hne : src.id ≠ noDoc := fun heq => hdoc (heq ▸ List.mem_cons_self)
      have hstep := hc.insertStepSlots_inBounds layout quotes dstptr src hptr
      rw [Documents.insertLoopSlots]
      apply hstep.append
      rcases insertStep_coupled hc hptr hid hne (hquotes src List.mem_cons_self) with
        hbreak | ⟨c₁, dstptr₁, hgo, hptr₁, hparams₁, -, hc₁⟩
      · rw [hbreak]
        exact Touched.inBounds_nil
      · have hnLimit : c₁.nLimit = c.nLimit := congrArg Params.nLimit hparams₁
        rw [hgo, ← hnLimit]
        exact ih (src.id :: ids) c₁ dstptr₁ hc₁ hptr₁ hrest
          (List.disjoint_cons_right.mpr ⟨hsrc, hnew'⟩)
          (fun hmem => hdoc (List.mem_cons_of_mem _ hmem))
          (fun s hs => hquotes s (List.mem_cons_of_mem _ hs))

theorem insertSlots_inBounds {docs : Documents W} {ids' : List ℕ} (hc : Coupled tuples ids c)
    (hdocs : Coupled tuples ids' docs) (hids : ids.Disjoint ids') (layout : Layout) :
    (c.insertSlots docs).InBounds layout c.nLimit := by
  obtain ⟨hnodup, hamong, hquotes⟩ := hdocs.sorted_source c.params.less
  have hnew : ((ranked c.params.less docs.buffer).map Entity.id).Disjoint ids :=
    fun id hsrc hold => hids hold (hamong hsrc)
  exact insertLoopSlots_inBounds layout _ ids c 0 hc (Nat.zero_le _) hnodup hnew
    (fun hmem => hdocs.fresh (hamong hmem)) hquotes

theorem range_nCount_lt (hc : Coupled tuples ids c) : ∀ k ∈ List.range c.nCount, k < c.nLimit :=
  fun _ hk => (List.mem_range.mp hk).trans_le hc.room

theorem getSlots_all_lt (hc : Coupled tuples ids c) :
    ∀ k ∈ c.buffer.flatMap (fun entity => c.quoBox.getSlots entity.id), k < c.nLimit := by
  intro k hk
  obtain ⟨entity, -, hslot⟩ := List.mem_flatMap.mp hk
  exact hc.getSlots_lt entity.id k hslot

theorem sourceSlots_inBounds (hc : Coupled tuples ids c) (layout : Layout) :
    c.sourceSlots.InBounds layout c.nLimit :=
  Touched.inBounds_of_lt c.params.nLimit_lt hc.range_nCount_lt hc.getSlots_all_lt

theorem finishSlots_inBounds (hc : Coupled tuples ids c) (layout : Layout) :
    c.finishSlots.InBounds layout c.nLimit := by
  unfold Documents.finishSlots
  split
  next =>
    apply Touched.inBounds_of_lt c.params.nLimit_lt
    · intro k hk
      rcases List.mem_append.mp hk with hsort | hpage
      · exact hc.range_nCount_lt k hsort
      · exact hc.range_nCount_lt k (List.mem_of_mem_drop hpage)
    · intro k hk
      simp only at hk
      split at hk
      · exact hc.getSlots_all_lt k hk
      · cases hk
  next => exact Touched.inBounds_nil

end Coupled

/-! ## Which pages are safe -/

/-- A page that does not break the collector: the sizes are the numbers they stand for, no call
leaves its arrays, and a page of no documents counts the matches and shows none. -/
structure PageSafe (params : Params W) : Prop where
  nLimit_exact : params.nLimit + 1 = params.nfirst + params.ncount
  lastItem_exact : Layout.lastItem params.nLimit + 1 = params.nLimit
  search : ∀ layout tuples ids c, Reaches params tuples ids c → ∀ id, id ∉ ids → id ≠ noDoc →
    (c.addDocSlots id (tuples id)).InBounds layout params.nLimit
  merge : ∀ layout tuples ids ids' c docs, Reaches params tuples ids c →
    Reaches params tuples ids' docs → ids.Disjoint ids' →
    (c.insertSlots docs).InBounds layout params.nLimit ∧
      docs.sourceSlots.InBounds layout params.nLimit
  finish : ∀ layout tuples ids c, Reaches params tuples ids c →
    c.finishSlots.InBounds layout params.nLimit
  search_ends : ∀ query : IQuery W, ∃ c ids, (Documents.create params).searchFrom query 0 = .ok c ∧
    ids ~ query.visited 0 ∧ Reaches params query.getTuples ids c
  empty : params.ncount = 0 → ∀ getEntity fetchFrom tuples ids c, Reaches params tuples ids c →
    ∃ report c', c.finish getEntity fetchFrom = .ok (report, c') ∧
      report.found = (matching tuples ids).length ∧ report.items = none

theorem finish_empty {params : Params W} (hlimit : params.nLimit + 1 = params.nfirst)
    (hparams : c.params = params) (hc : Coupled tuples ids c) (getEntity : ℕ → Option IEntity)
    (fetchFrom : List UInt8 → Zmap) :
    c.finish getEntity fetchFrom = .ok (⟨c.nFirst, c.nFound, none, none⟩, c) := by
  have hfew : ¬ c.nFirst ≤ c.nCount := by
    have hroom := hc.room
    rw [Documents.nLimit, hparams] at hroom
    rw [Documents.nFirst, hparams]
    omega
  rw [Documents.finish, if_neg hfew]
  rfl

theorem pageSafe_of_sizes {params : Params W}
    (hexact : params.nLimit + 1 = params.nfirst + params.ncount) (hpos : 0 < params.nLimit) :
    PageSafe params where
  nLimit_exact := hexact
  lastItem_exact := by
    rw [Layout.lastItem_eq_pred hpos params.nLimit_lt]
    exact Nat.sub_add_cancel hpos
  search layout tuples ids c hreach id _ _ := by
    obtain ⟨rfl, -, hc⟩ := hreach.spec hpos
    exact hc.addDocSlots_inBounds hpos layout id (tuples id)
  merge layout tuples ids ids' c docs hreach hreach' hids := by
    obtain ⟨rfl, -, hc⟩ := hreach.spec hpos
    obtain ⟨hparams, -, hdocs⟩ := hreach'.spec hpos
    have hsource := hdocs.sourceSlots_inBounds layout
    rw [Documents.nLimit, hparams] at hsource
    exact ⟨hc.insertSlots_inBounds hdocs hids layout, hsource⟩
  finish layout tuples ids c hreach := by
    obtain ⟨rfl, -, hc⟩ := hreach.spec hpos
    exact hc.finishSlots_inBounds layout
  search_ends query := Reaches.searchFrom hpos query
  empty hcount getEntity fetchFrom tuples ids c hreach := by
    obtain ⟨hparams, hfound, hc⟩ := hreach.spec hpos
    rw [hcount] at hexact
    exact ⟨_, c, finish_empty hexact hparams hc getEntity fetchFrom, hfound, rfl⟩

/-- An accepted page is safe exactly when its last rank is an `unsigned` and it is not the page of
no documents from the first one on. -/
theorem pageSafe_iff (base : Params W) (first count : Int32) (params : Params W)
    (haccept : base.ofPage first count = .ok params) :
    PageSafe params ↔ first.toUInt32.toNat + count.toUInt32.toNat ≤ 2 ^ 32 ∧
      ¬ (first.toUInt32.toNat = 1 ∧ count.toUInt32.toNat = 0) := by
  have hfirst_lt := first.toUInt32.toNat_lt
  have hcount_lt := count.toUInt32.toNat_lt
  obtain ⟨hfirst, hcount, hpos⟩ : params.nfirst = first.toUInt32.toNat ∧
      params.ncount = count.toUInt32.toNat ∧ 0 < params.nfirst := by
    unfold Params.ofPage Params.setFirst at haccept
    split at haccept
    next => cases haccept
    next hne =>
      cases haccept
      exact ⟨rfl, rfl, Nat.pos_of_ne_zero hne⟩
  have hlimit : params.nLimit = (params.nfirst + params.ncount + (2 ^ 32 - 1)) % 2 ^ 32 := rfl
  rw [← hfirst, ← hcount] at *
  constructor
  · intro hsafe
    have hexact := hsafe.nLimit_exact
    have hlast := hsafe.lastItem_exact
    omega
  · intro ⟨hsum, hsome⟩
    exact pageSafe_of_sizes (by omega) (by omega)

end Reached

/-- The second page of three documents of `secondPage`. -/
theorem pageSafe_iff_secondPage :
    PageSafe { secondPage with nfirst := 2, ncount := 3 } ↔
      (2 : Int32).toUInt32.toNat + (3 : Int32).toUInt32.toNat ≤ 2 ^ 32 ∧
        ¬ ((2 : Int32).toUInt32.toNat = 1 ∧ (3 : Int32).toUInt32.toNat = 0) :=
  pageSafe_iff secondPage 2 3 _ rfl

/-- `first = 1, count = 0`: `maxcount - 1` wraps around, and the first match is compared with slot 0
of an empty buffer. -/
theorem empty_first_page_not_safe :
    ∃ params, secondPage.ofPage 1 0 = .ok params ∧ ¬ PageSafe params ∧
      ∀ layout, ¬ ((Documents.create params).addDocSlots 3 (sampleTuples 3)).InBounds layout
        params.nLimit := by
  refine ⟨{ secondPage with nfirst := 1, ncount := 0 }, rfl, ?_, ?_⟩
  · intro hsafe
    exact absurd hsafe.lastItem_exact (by decide)
  · intro layout hbounds
    exact absurd (hbounds.buffer 0 List.mem_cons_self).1 (by decide)

end Palmira.Collect
