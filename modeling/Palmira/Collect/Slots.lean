import Palmira.Collect.Coupling
import Palmira.Collect.Merge
import Palmira.Foundation.Cells

/-!
# Merging in place

`Insert` over the slots of `Buffer()`: a cursor into the destination, `memmove`
of the tail, and an end that moves until the buffer is full. It runs as the merge
of lists does and writes no slot behind the last one. What it leaves are the
first documents of both buffers.
-/

namespace Palmira.Collect

open TopList
open scoped List

variable {W : Type}

/-! ## The code -/

/-- `Documents::impl` with `Buffer()` as memory; the first `nCount` slots are constructed. -/
structure SlotDocuments (W : Type) where
  params : Params W
  quoBox : Abstracts W
  buffer : Cells (Entity W)
  nCount : ℕ
  nFound : ℕ
  pWorst : Option ℕ

namespace SlotDocuments

def nLimit (c : SlotDocuments W) : ℕ := c.params.nLimit

def held (c : SlotDocuments W) : List (Entity W) := c.buffer.block 0 c.nCount

def toDocuments (c : SlotDocuments W) : Documents W :=
  ⟨c.params, c.quoBox, c.held, c.nFound, c.pWorst⟩

@[simp] theorem toDocuments_params (c : SlotDocuments W) : c.toDocuments.params = c.params := rfl

@[simp] theorem toDocuments_quoBox (c : SlotDocuments W) : c.toDocuments.quoBox = c.quoBox := rfl

@[simp] theorem toDocuments_buffer (c : SlotDocuments W) : c.toDocuments.buffer = c.held := rfl

@[simp] theorem toDocuments_nFound (c : SlotDocuments W) : c.toDocuments.nFound = c.nFound := rfl

@[simp] theorem toDocuments_nLimit (c : SlotDocuments W) : c.toDocuments.nLimit = c.nLimit := rfl

@[simp] theorem length_held (c : SlotDocuments W) : c.held.length = c.nCount :=
  Cells.length_block _ _ _

@[simp] theorem toDocuments_nCount (c : SlotDocuments W) : c.toDocuments.nCount = c.nCount :=
  c.length_held

variable [LT W] [DecidableLT W]

/-- The body of the merge loop: `dstptr` and `dstend` to go on with, or the break. -/
def insertStep (quotes : Abstracts W) (c : SlotDocuments W) (dstptr dstend : ℕ) (src : Entity W) :
    Except Exn ((SlotDocuments W × ℕ × ℕ) ⊕ SlotDocuments W) :=
  let dstptr := c.buffer.passWhile (fun dst => c.params.less dst src) dstptr (dstend - dstptr)
  let dstlim := c.nLimit
  if dstptr = dstlim then .ok (.inr c)
  else
    match quotes.get src.id with
    | none => .error (.undefined "null abstract")
    | some abstr =>
        if dstend < dstlim then do
          let quoBox ← c.quoBox.set src.id abstr noDoc
          let moved := c.buffer.move (dstptr + 1) dstptr (dstend - dstptr)
          return .inl ({ c with quoBox, buffer := moved.put dstptr src, nCount := c.nCount + 1 },
            dstptr, c.nCount + 1)
        else do
          -- the entity of `dstlim[-1]` falls out
          let quoBox ← c.quoBox.set src.id abstr (c.buffer.get (dstlim - 1)).id
          let moved := c.buffer.move (dstptr + 1) dstptr (dstlim - dstptr - 1)
          return .inl ({ c with quoBox, buffer := moved.put dstptr src }, dstptr, dstend)

def insertLoop (quotes : Abstracts W) (c : SlotDocuments W) (dstptr dstend : ℕ) :
    List (Entity W) → Except Exn (SlotDocuments W)
  | [] => .ok c
  | src :: rest => do
      match ← insertStep quotes c dstptr dstend src with
      | .inl (c', dstptr', dstend') => insertLoop quotes c' dstptr' dstend' rest
      | .inr c' => return c'

/-- `Insert( docs )` -/
def insert (c docs : SlotDocuments W) : Except Exn (SlotDocuments W) := do
  let c' ← insertLoop docs.quoBox c 0 c.nCount (ranked c.params.less docs.held)
  return { c' with nFound := c'.nFound + docs.nFound }

/-! ## The run on lists -/

omit [LT W] [DecidableLT W] in
theorem passWhile_eq_placeFrom (c : SlotDocuments W) (src : Entity W) {dstptr : ℕ}
    (hptr : dstptr ≤ c.nCount) :
    c.buffer.passWhile (fun dst => c.params.less dst src) dstptr (c.nCount - dstptr) =
      placeFrom c.params.less dstptr src c.held := by
  obtain ⟨n, hn⟩ := Nat.exists_eq_add_of_le hptr
  rw [Cells.passWhile_eq, placeFrom, held, hn, Cells.drop_block, Nat.add_sub_cancel_left]

omit [LT W] [DecidableLT W] in
theorem toDocuments_grown (c : SlotDocuments W) (quoBox : Abstracts W) (src : Entity W) {p : ℕ}
    (hp : p ≤ c.nCount) :
    toDocuments { c with
        quoBox, buffer := c.buffer.insertAt p (c.nCount - p) src, nCount := c.nCount + 1 } =
      { c.toDocuments with quoBox, buffer := c.held.take p ++ src :: c.held.drop p } := by
  obtain ⟨n, hn⟩ := Nat.exists_eq_add_of_le hp
  simp only [toDocuments, held, hn, Nat.add_sub_cancel_left, Nat.add_assoc,
    Cells.block_insertAt, Cells.drop_block, Cells.take_block _ 0 (Nat.le_add_right p n)]

omit [LT W] [DecidableLT W] in
theorem toDocuments_full (c : SlotDocuments W) (quoBox : Abstracts W) (src : Entity W) {p : ℕ}
    (hp : p < c.nCount) :
    toDocuments { c with quoBox, buffer := c.buffer.insertAt p (c.nCount - p - 1) src } =
      { c.toDocuments with
        quoBox, buffer := c.held.take p ++ src :: (c.held.drop p).dropLast } := by
  obtain ⟨n, hn⟩ : ∃ n, c.nCount = p + (n + 1) := ⟨c.nCount - p - 1, by omega⟩
  have hcount : p + (n + 1) - p - 1 = n := by omega
  simp only [toDocuments, held, hn, hcount, Cells.block_insertAt,
    Cells.drop_block, Cells.dropLast_block, Cells.take_block _ 0 (Nat.le_add_right p (n + 1))]

variable (quotes : Abstracts W) {c : SlotDocuments W} {dstptr : ℕ}

/-- One round over the slots is the round over the list, within the buffer. -/
theorem insertStep_simulates (src : Entity W) (hroom : c.nCount ≤ c.nLimit)
    (hptr : dstptr ≤ c.nCount) :
    (insertStep quotes c dstptr c.nCount src = .ok (.inr c) ∧
      Documents.insertStep quotes c.toDocuments dstptr src = .ok (.inr c.toDocuments)) ∨
    (∃ c' dstptr', insertStep quotes c dstptr c.nCount src = .ok (.inl (c', dstptr', c'.nCount)) ∧
      Documents.insertStep quotes c.toDocuments dstptr src = .ok (.inl (c'.toDocuments, dstptr')) ∧
      dstptr' ≤ c'.nCount ∧ c'.nCount ≤ c.nLimit ∧ c'.params = c.params ∧
      c.buffer.WritesBelow c.nLimit c'.buffer) ∨
    ∃ e, insertStep quotes c dstptr c.nCount src = .error e ∧
      Documents.insertStep quotes c.toDocuments dstptr src = .error e := by
  have hplace : placeFrom c.params.less dstptr src c.held ≤ c.nCount := by
    apply (placeFrom_le dstptr src ?_).trans_eq c.length_held
    rwa [length_held]
  simp only [insertStep, Documents.insertStep, passWhile_eq_placeFrom c src hptr,
    toDocuments_params, toDocuments_quoBox, toDocuments_buffer, toDocuments_nLimit,
    toDocuments_nCount]
  generalize placeFrom c.params.less dstptr src c.held = p at hplace ⊢
  by_cases hbreak : p = c.nLimit
  · exact .inl ⟨if_pos hbreak, if_pos hbreak⟩
  right
  simp only [if_neg hbreak]
  cases hquote : quotes.get src.id with
  | none => exact .inr ⟨_, rfl, rfl⟩
  | some abstr =>
      by_cases hgrow : c.nCount < c.nLimit
      · simp only [if_pos hgrow]
        cases hset : c.quoBox.set src.id abstr noDoc with
        | error e => exact .inr ⟨e, rfl, rfl⟩
        | ok quoBox =>
            refine .inl ⟨_, p, rfl, ?_, hplace.trans (Nat.le_succ _), hgrow, rfl, ?_⟩
            · rw [← Cells.insertAt, toDocuments_grown c quoBox src hplace]
              rfl
            · exact Cells.writesBelow_insertAt c.buffer src (by omega)
      · -- the slot before `dstlim` is the last one of the list
        have hfull : c.nCount = c.nLimit := Nat.le_antisymm hroom (Nat.not_lt.mp hgrow)
        have hlt : p < c.nCount := Nat.lt_of_le_of_ne hplace (hfull ▸ hbreak)
        have hlast : c.held[c.nLimit - 1]? = some (c.buffer.get (c.nLimit - 1)) := by
          rw [held, Cells.getElem?_block c.buffer 0 (by omega), Nat.zero_add]
        simp only [if_neg hgrow, hlast]
        cases hset : c.quoBox.set src.id abstr (c.buffer.get (c.nLimit - 1)).id with
        | error e => exact .inr ⟨e, rfl, rfl⟩
        | ok quoBox =>
            refine .inl ⟨_, p, rfl, ?_, hplace, hroom, rfl, ?_⟩
            · rw [← Cells.insertAt, ← hfull, toDocuments_full c quoBox src hlt]
              rfl
            · exact Cells.writesBelow_insertAt c.buffer src (by omega)

/-- The merge over the slots is the merge of the lists, within the buffer. -/
theorem insertLoop_simulates (rest : List (Entity W)) (c : SlotDocuments W) (dstptr : ℕ)
    (hroom : c.nCount ≤ c.nLimit) (hptr : dstptr ≤ c.nCount) :
    (∃ c', insertLoop quotes c dstptr c.nCount rest = .ok c' ∧
      c.toDocuments.insertLoop quotes dstptr rest = .ok c'.toDocuments ∧
      c.buffer.WritesBelow c.nLimit c'.buffer) ∨
    ∃ e, insertLoop quotes c dstptr c.nCount rest = .error e ∧
      c.toDocuments.insertLoop quotes dstptr rest = .error e := by
  induction rest generalizing c dstptr with
  | nil => exact .inl ⟨c, rfl, rfl, .refl _ _⟩
  | cons src rest ih =>
      rw [insertLoop, Documents.insertLoop_cons]
      rcases insertStep_simulates quotes src hroom hptr with
        ⟨hbreak, hbreak'⟩ | ⟨c₁, dstptr₁, hgo, hgo', hptr₁, hroom₁, hparams, hwrites⟩ |
        ⟨e, hfail, hfail'⟩
      · rw [hbreak, hbreak']
        exact .inl ⟨c, rfl, rfl, .refl _ _⟩
      · have hnLimit : c₁.nLimit = c.nLimit := congrArg Params.nLimit hparams
        rw [hgo, hgo']
        rcases ih c₁ dstptr₁ (hroom₁.trans_eq hnLimit.symm) hptr₁ with
          ⟨c', hloop, hloop', hwrites'⟩ | ⟨e, hfail, hfail'⟩
        · exact .inl ⟨c', hloop, hloop', hwrites.trans (hnLimit ▸ hwrites')⟩
        · exact .inr ⟨e, hfail, hfail'⟩
      · rw [hfail, hfail']
        exact .inr ⟨e, rfl, rfl⟩

/-- `Insert` over the slots is the insertion of the list model, within the buffer. -/
theorem insert_simulates (docs : SlotDocuments W) (hroom : c.nCount ≤ c.nLimit) :
    (∃ c', c.insert docs = .ok c' ∧ c.toDocuments.insert docs.toDocuments = .ok c'.toDocuments ∧
      c.buffer.WritesBelow c.nLimit c'.buffer) ∨
    ∃ e, c.insert docs = .error e ∧ c.toDocuments.insert docs.toDocuments = .error e := by
  simp only [insert, Documents.insert, toDocuments_params, toDocuments_quoBox, toDocuments_buffer,
    toDocuments_nFound]
  rcases insertLoop_simulates docs.quoBox (ranked c.params.less docs.held) c 0 hroom
    (Nat.zero_le _) with ⟨c', hloop, hloop', hwrites⟩ | ⟨e, hfail, hfail'⟩
  · refine .inl ⟨{ c' with nFound := c'.nFound + docs.nFound }, ?_, ?_, hwrites⟩
    · rw [hloop]
      rfl
    · rw [hloop']
      rfl
  · refine .inr ⟨e, ?_, ?_⟩
    · rw [hfail]
      rfl
    · rw [hfail']
      rfl

end SlotDocuments

/-! ## The first documents of both -/

/-- What every collector keeps to: each document of the buffer is there once, and the store has a
copied abstract for it. -/
structure Documents.Consistent [LT W] [DecidableLT W] (c : Documents W) : Prop where
  room : c.nCount ≤ c.nLimit
  limit : c.quoBox.limit = c.nLimit
  stored : c.quoBox.items.map Prod.fst ~ c.buffer.map Entity.id
  copied : ∀ item ∈ c.quoBox.items, copyAbstract item.2 = item.2
  nodup : (c.buffer.map Entity.id).Nodup
  fresh : noDoc ∉ c.buffer.map Entity.id

section Consistent

variable [LT W] [DecidableLT W] {tuples : ℕ → Abstract W} {c : Documents W}

theorem Coupled.consistent {ids : List ℕ} (hc : Coupled tuples ids c) : c.Consistent where
  room := hc.room
  limit := hc.limit
  stored := hc.quote_ids
  copied item hitem := by
    obtain ⟨entity, -, rfl⟩ := List.mem_map.mp (hc.quotes.mem_iff.mp hitem)
    exact copyAbstract_copyAbstract (tuples entity.id)
  nodup := hc.nodup
  fresh hmem := by
    obtain ⟨entity, hentity, heq⟩ := List.mem_map.mp hmem
    exact hc.fresh (heq ▸ hc.among entity hentity)

/-- The collectors of searches and merges are consistent. -/
theorem Reaches.consistent {params : Params W} {ids : List ℕ} (hlimit : 0 < params.nLimit)
    (hreach : Reaches params tuples ids c) : c.Consistent :=
  (hreach.spec hlimit).2.2.consistent

namespace Documents.Consistent

theorem quotes (hc : c.Consistent) (htuples : ∀ item ∈ c.quoBox.items, tuples item.1 = item.2) :
    c.quoBox.items ~ c.buffer.map (quoteOf tuples) := by
  have hitems : c.quoBox.items =
      (c.quoBox.items.map Prod.fst).map (fun id => (id, copyAbstract (tuples id))) := by
    rw [List.map_map]
    refine (List.map_id _).symm.trans (List.map_congr_left ?_)
    intro item hitem
    change item = (item.1, copyAbstract (tuples item.1))
    rw [htuples item hitem, hc.copied item hitem]
  rw [hitems]
  exact (hc.stored.map _).trans (.of_eq (List.map_map ..))

theorem nodup_stored (hc : c.Consistent) : (c.quoBox.items.map Prod.fst).Nodup :=
  hc.stored.nodup_iff.mpr hc.nodup

theorem get_stored (hc : c.Consistent) {item : ℕ × Abstract W} (hitem : item ∈ c.quoBox.items) :
    c.quoBox.get item.1 = some item.2 :=
  Abstracts.get_of_mem hc.nodup_stored hitem

/-- The merged buffer is sorted and holds the first documents of both. -/
theorem insert_first {docs : Documents W} (hc : c.Consistent) (hdocs : docs.Consistent)
    (hless : StrictTotal c.params.less) (hsorted : Ranked c.params.less c.buffer)
    (hids : (c.buffer.map Entity.id).Disjoint (docs.buffer.map Entity.id)) :
    ∃ c', c.insert docs = .ok c' ∧ c'.nFound = c.nFound + docs.nFound ∧
      Ranked c.params.less c'.buffer ∧
      IsTop c.params.less c.nLimit c'.buffer (c.buffer ++ docs.buffer) := by
  have hboth : ((c.quoBox.items ++ docs.quoBox.items).map Prod.fst).Nodup := by
    rw [List.map_append]
    apply hc.nodup_stored.append hdocs.nodup_stored
    intro id hid hid'
    exact hids (hc.stored.mem_iff.mp hid) (hdocs.stored.mem_iff.mp hid')
  -- the abstracts of both stores, under their ids
  let both : Abstracts W := ⟨0, c.quoBox.items ++ docs.quoBox.items⟩
  let tuples : ℕ → Abstract W := fun id => (both.get id).getD ⟨0, .none⟩
  have htuples : ∀ item ∈ both.items, tuples item.1 = item.2 := by
    intro item hitem
    simp only [tuples, Abstracts.get_of_mem hboth hitem, Option.getD_some]
  have hquotes := hdocs.quotes (fun item hitem => htuples item (List.mem_append_right _ hitem))
  have hkeeps : Keeps tuples c c.buffer :=
    ⟨isTop_self hc.room, hc.quotes (fun item hitem => htuples item (List.mem_append_left _ hitem)),
      hc.limit⟩
  have hnodup : ((docs.buffer ++ c.buffer).map Entity.id).Nodup := by
    rw [List.map_append]
    exact hdocs.nodup.append hc.nodup (List.disjoint_symm hids)
  have hfresh : noDoc ∉ (docs.buffer ++ c.buffer).map Entity.id := by
    rw [List.map_append]
    exact fun hmem => (List.mem_append.mp hmem).elim hdocs.fresh hc.fresh
  obtain ⟨c', hinsert, hparams, hfound, hkeeps', hsorted'⟩ :=
    insert_keeps hless hkeeps hsorted hnodup hfresh (fun src hsrc =>
      hdocs.get_stored (hquotes.mem_iff.mpr (List.mem_map_of_mem hsrc)))
  have htop := hkeeps'.top.perm (.refl _) List.perm_append_comm
  rw [Documents.nLimit, hparams] at htop
  exact ⟨c', hinsert, hfound, hsorted', htop⟩

end Documents.Consistent

end Consistent

/-- What `Insert` leaves in a sorted collector, whatever the order of the source's buffer. -/
theorem SlotDocuments.insert_merges [LT W] [DecidableLT W] (c docs : SlotDocuments W)
    (hc : c.toDocuments.Consistent) (hdocs : docs.toDocuments.Consistent)
    (hless : StrictTotal c.params.less) (hsorted : Ranked c.params.less c.held)
    (hids : (c.held.map Entity.id).Disjoint (docs.held.map Entity.id)) :
    ∃ c', c.insert docs = .ok c' ∧ Ranked c.params.less c'.held ∧
      c'.held = (ranked c.params.less (c.held ++ docs.held)).take c.nLimit ∧
      c'.nCount = min c.nLimit (c.nCount + docs.nCount) ∧ c'.nFound = c.nFound + docs.nFound ∧
      c.buffer.WritesBelow c.nLimit c'.buffer := by
  have hroom : c.nCount ≤ c.nLimit := c.toDocuments_nCount ▸ hc.room
  obtain ⟨merged, hinsert, hfound, hranked, htop⟩ := hc.insert_first hdocs hless hsorted hids
  rcases insert_simulates docs hroom with ⟨c', hslots, hlist, hwrites⟩ | ⟨e, -, hfail⟩
  · obtain rfl := Except.ok.inj (hinsert.symm.trans hlist)
    refine ⟨c', hslots, hranked, ?_, ?_, hfound, hwrites⟩
    · exact (ranked_eq_self hless hranked).symm.trans (htop.ranked_eq hless)
    · have hlength := htop.length_eq
      rw [List.length_append] at hlength
      simpa using hlength
  · rw [hinsert] at hfail
    cases hfail

/-- A consistent collector of two documents of `secondPage`. -/
def sampleSlots (first second : Entity ℕ) : SlotDocuments ℕ where
  params := secondPage
  quoBox := ⟨3, [(first.id, sampleTuples first.id), (second.id, sampleTuples second.id)]⟩
  buffer := ⟨fun k => if k = 0 then first else second, []⟩
  nCount := 2
  nFound := 2
  pWorst := none

theorem sampleSlots_consistent {first second : Entity ℕ} (hne : first.id ≠ second.id)
    (hfirst : first.id ≠ noDoc) (hsecond : second.id ≠ noDoc) :
    (sampleSlots first second).toDocuments.Consistent where
  room := show 2 ≤ secondPage.nLimit by decide
  limit := show 3 = secondPage.nLimit by decide
  stored := .refl _
  copied item hitem := by
    rcases List.mem_pair.mp hitem with rfl | rfl <;> rfl
  nodup := List.nodup_cons.mpr
    ⟨fun hmem => hne (List.mem_singleton.mp hmem), List.nodup_singleton _⟩
  fresh hmem := (List.mem_pair.mp hmem).elim (Ne.symm hfirst) (Ne.symm hsecond)

/-- The third document finds room, the fourth pushes out the last one. -/
theorem insert_merges_four :
    ∃ c', (sampleSlots ⟨4, 4⟩ ⟨9, 3⟩).insert (sampleSlots ⟨3, 3⟩ ⟨6, 4⟩) = .ok c' ∧
      c'.held = [⟨4, 4⟩, ⟨6, 4⟩, ⟨3, 3⟩] ∧ c'.nCount = 3 ∧ c'.nFound = 4 ∧
      (sampleSlots ⟨4, 4⟩ ⟨9, 3⟩).buffer.WritesBelow 3 c'.buffer := by
  have hunion : ranked secondPage.less [⟨4, 4⟩, ⟨9, 3⟩, ⟨3, 3⟩, ⟨6, 4⟩] =
      [⟨4, 4⟩, ⟨6, 4⟩, ⟨3, 3⟩, ⟨9, 3⟩] := by
    apply (ranked_sorted secondPage_strictTotal _).eq_of_perm secondPage_strictTotal
    · unfold Ranked
      decide
    · exact (ranked_perm _).trans ((List.reverse_perm _).symm.cons _)
  have hnLimit : secondPage.nLimit = 3 := by decide
  have hids : ([4, 9] : List ℕ).Disjoint [3, 6] := by simp
  obtain ⟨c', hinsert, -, hheld, hcount, hfound, hwrites⟩ :=
    SlotDocuments.insert_merges (sampleSlots ⟨4, 4⟩ ⟨9, 3⟩) (sampleSlots ⟨3, 3⟩ ⟨6, 4⟩)
      (sampleSlots_consistent (by decide) (by decide) (by decide))
      (sampleSlots_consistent (by decide) (by decide) (by decide)) secondPage_strictTotal
      (by unfold Ranked; decide) hids
  change _ = List.take secondPage.nLimit _ at hheld
  change _ = min secondPage.nLimit 4 at hcount
  change Cells.WritesBelow secondPage.nLimit _ _ at hwrites
  rw [hnLimit] at hheld hcount hwrites
  exact ⟨c', hinsert, hheld.trans (congrArg (List.take 3) hunion), hcount, hfound, hwrites⟩

end Palmira.Collect
