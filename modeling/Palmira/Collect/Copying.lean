import Palmira.Collect.Chosen
import Palmira.Foundation.Cells

/-!
# Copying by pointers

`CopyAbstract` with its pointers: the entries are selected, sorted and given new
spreads in the room behind `output`, where the positions follow. What is read
through the pointers it leaves is `copyAbstract` of what is read through those it
was given.
-/

namespace Palmira.Collect

open Cells
open scoped List

variable {W : Type}

/-! ## The code -/

/-- A pair of pointers to objects of one type. -/
structure Range where
  pbeg : ℕ
  pend : ℕ
  le : pbeg ≤ pend

/-- `size()` -/
def Range.size (r : Range) : ℕ := r.pend - r.pbeg

@[simp] theorem Range.size_mk (pbeg n : ℕ) :
    (Range.mk pbeg (pbeg + n) (Nat.le_add_right _ _)).size = n :=
  Nat.add_sub_cancel_left _ _

theorem Range.pbeg_add_size (r : Range) : r.pbeg + r.size = r.pend := Nat.add_sub_of_le r.le

/-- `Abstract::EntrySet` with the pointers of its spread. -/
structure EntryCell (W : Type) where
  uMin : ℕ
  weight : W
  spread : Range
  payload : ℕ

/-- The objects of each type; a pointer is the number of a cell. -/
structure Memory (W : Type) where
  entries : Cells (EntryCell W)
  positions : Cells EntryPos
  terms : Cells (BM25Term W)

/-- The pointers of an abstract for each `dwMode`. -/
inductive Pointers where
  | none
  | bm25 (factors : Range)
  | rich (entries : Range)

/-- An `Abstract` as it lies in memory. -/
structure AbstractCell where
  nWords : ℕ
  pointers : Pointers

/-- Where the terms, or the entries and the positions, of an output begin. -/
structure Output where
  terms : ℕ
  entries : ℕ
  positions : ℕ

/-- The state of the selection: the entries with `srcbeg`, `entptr` and `pworst`. -/
structure Selection (W : Type) where
  cells : Cells (EntryCell W)
  srcbeg : ℕ
  entptr : ℕ
  pworst : ℕ

section Select

variable [LT W] [DecidableLT W]

/-- `if ( (*entptr++ = *srcbeg++).weight < pworst->weight ) pworst = entptr - 1` -/
def Selection.take (s : Selection W) : Selection W :=
  let cells := s.cells.put s.entptr (s.cells.get s.srcbeg)
  { cells
    srcbeg := s.srcbeg + 1
    entptr := s.entptr + 1
    pworst :=
      if (cells.get s.entptr).weight < (cells.get s.pworst).weight then s.entptr else s.pworst }

/-- The first loop, with `room` entries up to `entend` and `left` ones up to the end of the
source. -/
def takeEntries : ℕ → ℕ → Selection W → Selection W
  | 0, _, s => s
  | _ + 1, 0, s => s
  | room + 1, left + 1, s => takeEntries room left s.take

/-- `for ( auto p = entend - max_EntrySet_count; p != entend; ++p )` -/
def lightestCell (cells : Cells (EntryCell W)) (beg pworst : ℕ) : ℕ :=
  (List.range' beg maxEntrySetCount).foldl
    (fun worst p => if (cells.get p).weight < (cells.get worst).weight then p else worst) pworst

/-- The second loop, with `left` entries up to the end of the source. -/
def replaceCells (beg : ℕ) : ℕ → Cells (EntryCell W) → ℕ → ℕ → Cells (EntryCell W)
  | 0, cells, _, _ => cells
  | left + 1, cells, srcbeg, pworst =>
      if (cells.get pworst).weight < (cells.get srcbeg).weight then
        let cells' := cells.put pworst (cells.get srcbeg)
        replaceCells beg left cells' (srcbeg + 1) (lightestCell cells' beg pworst)
      else replaceCells beg left cells (srcbeg + 1) pworst

/-- Both loops and the sort behind them; the result holds the number of entries before `entptr`. -/
def selectCells (cells : Cells (EntryCell W)) (beg : ℕ) (source : Range) :
    Cells (EntryCell W) × ℕ :=
  let s := takeEntries maxEntrySetCount source.size ⟨cells, source.pbeg, beg, beg⟩
  let chosen := replaceCells beg (source.pend - s.srcbeg) s.cells s.srcbeg s.pworst
  (if s.entptr = beg + maxEntrySetCount then
      chosen.sort beg maxEntrySetCount (fun l r => decide (l.uMin ≤ r.uMin))
    else chosen,
    s.entptr - beg)

end Select

/-- The body of the last loop; the result holds `posptr`. -/
def copyEntry (posend : ℕ) (mem : Memory W) (entend posptr : ℕ) : Memory W × ℕ :=
  let cell := mem.entries.get entend
  let copied := min cell.spread.size (posend - posptr)
  let positions := mem.positions.copyUp posptr cell.spread.pbeg copied
  ({ mem with
      entries := mem.entries.put entend
        { cell with spread := ⟨posptr, posptr + copied, Nat.le_add_right _ _⟩ }
      positions := positions.sort posptr copied (fun p q => decide (p.offset ≤ q.offset)) },
    posptr + copied)

/-- The last loop, for `count` entries from `entend` on. -/
def copyPositions (posend : ℕ) : ℕ → Memory W → ℕ → ℕ → Memory W
  | 0, mem, _, _ => mem
  | count + 1, mem, entend, posptr =>
      let (mem', posptr') := copyEntry posend mem entend posptr
      copyPositions posend count mem' (entend + 1) posptr'

/-- `CopyAbstract( output, source )` -/
def Memory.copyAbstract [LT W] [DecidableLT W] (mem : Memory W) (output : Output)
    (source : AbstractCell) : Memory W × AbstractCell :=
  match source.pointers with
  | .none => (mem, ⟨source.nWords, .none⟩)
  | .bm25 factors =>
      let nterms := min factors.size maxBM25TermCount
      ({ mem with terms := mem.terms.copyUp output.terms factors.pbeg nterms },
        ⟨source.nWords, .bm25 ⟨output.terms, output.terms + nterms, Nat.le_add_right _ _⟩⟩)
  | .rich entries =>
      let (cells, count) := selectCells mem.entries output.entries entries
      (copyPositions (output.positions + maxEntryPosCount) count { mem with entries := cells }
          output.entries output.positions,
        ⟨source.nWords,
          .rich ⟨output.entries, output.entries + count, Nat.le_add_right _ _⟩⟩)

/-! ## What is read through pointers -/

namespace Memory

def entryOf (positions : Cells EntryPos) (cell : EntryCell W) : EntrySet W :=
  ⟨cell.uMin, cell.weight, positions.block cell.spread.pbeg cell.spread.size, cell.payload⟩

def read (mem : Memory W) (a : AbstractCell) : Abstract W where
  nWords := a.nWords
  content :=
    match a.pointers with
    | .none => .none
    | .bm25 factors => .bm25 (mem.terms.block factors.pbeg factors.size)
    | .rich entries =>
        .rich ((mem.entries.block entries.pbeg entries.size).map (entryOf mem.positions))

end Memory

/-! ## The selection -/

section Selects

variable [LT W] [DecidableLT W] {view : EntryCell W → EntrySet W}
  {s : Selection W} {beg left worst : ℕ} {chosen src : List (EntrySet W)}

/-- The selection stands for the lists `chosen` and `src`, seen through `view`. -/
structure Tracks (view : EntryCell W → EntrySet W) (beg left : ℕ) (s : Selection W)
    (chosen : List (EntrySet W)) (worst : ℕ) (src : List (EntrySet W)) : Prop where
  entptr_eq : s.entptr = beg + chosen.length
  pworst_eq : s.pworst = beg + worst
  worst_lt : worst = 0 ∨ worst < chosen.length
  chosen_eq : (s.cells.block beg chosen.length).map view = chosen
  src_eq : (s.cells.block s.srcbeg left).map view = src

omit [LT W] [DecidableLT W] in
theorem getElem?_view (view : EntryCell W → EntrySet W) (cells : Cells (EntryCell W)) (beg : ℕ)
    {count p : ℕ} (hp : p < count) :
    ((cells.block beg count).map view)[p]? = some (view (cells.get (beg + p))) := by
  rw [List.getElem?_map, getElem?_block cells beg hp, Option.map_some]

theorem lighter_eq {cells : Cells (EntryCell W)} {count p q : ℕ}
    (hview : ∀ cell, (view cell).weight = cell.weight)
    (hchosen : (cells.block beg count).map view = chosen) (hp : p < count) (hq : q < count) :
    lighter chosen p q =
      decide ((cells.get (beg + p)).weight < (cells.get (beg + q)).weight) := by
  unfold lighter
  rw [← hchosen, getElem?_view view cells beg hp, getElem?_view view cells beg hq]
  simp only [hview]

omit [LT W] [DecidableLT W] in
theorem Tracks.entptr_within (htracks : Tracks view beg left s chosen worst src) :
    beg ≤ s.entptr ∧ s.entptr < beg + (chosen.length + 1) := by
  rw [htracks.entptr_eq]
  omega

theorem Tracks.sameOutside_take (htracks : Tracks view beg left s chosen worst src) :
    SameOutside beg (chosen.length + 1) s.cells s.take.cells :=
  sameOutside_put s.cells (s.cells.get s.srcbeg) htracks.entptr_within.1 htracks.entptr_within.2

/-- An entry is taken while there is room and the source is outside of it. -/
theorem Tracks.take (hview : ∀ cell, (view cell).weight = cell.weight) {entry : EntrySet W}
    (htracks : Tracks view beg (left + 1) s chosen worst (entry :: src))
    (hsource : Outside beg (chosen.length + 1) s.srcbeg (s.srcbeg + (left + 1))) :
    Tracks view beg left s.take (chosen ++ [entry])
      (if lighter (chosen ++ [entry]) chosen.length worst then chosen.length else worst) src := by
  have hsame := htracks.sameOutside_take
  obtain ⟨hentptr, hpworst, hworst, hchosen, hsrc⟩ := htracks
  rw [block_cons, List.map_cons, List.cons.injEq] at hsrc
  obtain ⟨hentry, hrest⟩ := hsrc
  have hlength : (chosen ++ [entry]).length = chosen.length + 1 := List.length_append
  have hchosen' : (s.take.cells.block beg (chosen.length + 1)).map view = chosen ++ [entry] := by
    change ((s.cells.put s.entptr (s.cells.get s.srcbeg)).block _ _).map view = _
    rw [hentptr, block_put_end, List.map_append, hchosen, List.map_singleton, hentry]
  have hlighter := lighter_eq hview hchosen' (Nat.lt_succ_self chosen.length)
    (show worst < chosen.length + 1 by omega)
  refine ⟨?_, ?_, ?_, ?_, ?_⟩
  · rw [hlength, ← Nat.add_assoc, ← hentptr]
    rfl
  · change (if (s.take.cells.get s.entptr).weight < (s.take.cells.get s.pworst).weight then s.entptr
      else s.pworst) = _
    rw [hlighter, hentptr, hpworst]
    by_cases hlt : (s.take.cells.get (beg + chosen.length)).weight <
        (s.take.cells.get (beg + worst)).weight
    · rw [if_pos hlt, if_pos (decide_eq_true hlt)]
    · rw [if_neg hlt, if_neg (by simpa using hlt)]
  · rw [hlength]
    split <;> omega
  · rw [hlength]
    exact hchosen'
  · rw [← hrest]
    change (s.take.cells.block (s.srcbeg + 1) left).map view = _
    rw [hsame.block_eq (hsource.mono (Nat.le_succ _) (by omega))]

/-- The first loop is `fillEntries`. -/
theorem takeEntries_tracks (hview : ∀ cell, (view cell).weight = cell.weight) (room left : ℕ)
    (s : Selection W) (chosen : List (EntrySet W)) (worst : ℕ) (src : List (EntrySet W))
    (htracks : Tracks view beg left s chosen worst src)
    (hsource : Outside beg (chosen.length + room) s.srcbeg (s.srcbeg + left)) :
    ∃ chosen' worst' src', fillEntries room src chosen worst = (chosen', worst', src') ∧
      Tracks view beg (left - room) (takeEntries room left s) chosen' worst' src' ∧
      chosen'.length = chosen.length + min room left ∧
      (takeEntries room left s).srcbeg = s.srcbeg + min room left ∧
      SameOutside beg (chosen.length + room) s.cells (takeEntries room left s).cells := by
  induction room generalizing left s chosen worst src with
  | zero =>
      refine ⟨chosen, worst, src, ?_, htracks, ?_, ?_, .refl _ _ _⟩
      · cases src <;> rfl
      · rw [Nat.zero_min, Nat.add_zero]
      · rw [Nat.zero_min, Nat.add_zero, takeEntries]
  | succ room ih =>
      cases left with
      | zero =>
          obtain rfl : src = [] := by
            rw [← htracks.src_eq]
            rfl
          refine ⟨chosen, worst, [], rfl, ?_, rfl, rfl, .refl _ _ _⟩
          rwa [takeEntries, Nat.zero_sub]
      | succ left =>
          obtain ⟨entry, rest, rfl⟩ : ∃ entry rest, src = entry :: rest := by
            rw [← htracks.src_eq, block_cons]
            exact ⟨_, _, rfl⟩
          have hsame := htracks.sameOutside_take.mono (Nat.le_refl beg)
            (show _ ≤ beg + (chosen.length + (room + 1)) by omega)
          have htake := htracks.take hview (hsource.within (Nat.le_refl beg) (by omega))
          have hlength : (chosen ++ [entry]).length + room = chosen.length + (room + 1) := by
            rw [List.length_append, List.length_singleton]
            omega
          obtain ⟨chosen', worst', src', hfill, htracks', hcount, hsrcbeg, hrest⟩ :=
            ih left s.take _ _ rest htake (by
              rw [hlength]
              exact hsource.mono (Nat.le_succ _) (show s.srcbeg + 1 + left ≤ _ by omega))
          rw [hlength] at hrest
          rw [List.length_append, List.length_singleton] at hcount
          refine ⟨chosen', worst', src', hfill, ?_, ?_, ?_, hsame.trans hrest⟩
          · rw [Nat.succ_sub_succ]
            exact htracks'
          · omega
          · rw [takeEntries, hsrcbeg]
            change s.srcbeg + 1 + _ = _
            omega

/-- Over any slots, the scan of the cells is the scan of the list. -/
theorem foldl_lighter {cells : Cells (EntryCell W)} {count : ℕ}
    (hview : ∀ cell, (view cell).weight = cell.weight)
    (hchosen : (cells.block beg count).map view = chosen) (slots : List ℕ) (worst : ℕ)
    (hslots : ∀ p ∈ slots, p < count) (hworst : worst < count) :
    (slots.map (beg + ·)).foldl
        (fun worst p => if (cells.get p).weight < (cells.get worst).weight then p else worst)
        (beg + worst) =
      beg + slots.foldl (fun w p => if lighter chosen p w then p else w) worst ∧
    slots.foldl (fun w p => if lighter chosen p w then p else w) worst < count := by
  induction slots generalizing worst with
  | nil => exact ⟨rfl, hworst⟩
  | cons p slots ih =>
      obtain ⟨hp, hrest⟩ := List.forall_mem_cons.mp hslots
      rw [List.map_cons, List.foldl_cons, List.foldl_cons, lighter_eq hview hchosen hp hworst]
      by_cases hlt : (cells.get (beg + p)).weight < (cells.get (beg + worst)).weight
      · rw [if_pos hlt, if_pos (decide_eq_true hlt)]
        exact ih p hrest hp
      · rw [if_neg hlt, if_neg (by simpa using hlt)]
        exact ih worst hrest hworst

theorem lightestCell_eq {cells : Cells (EntryCell W)}
    (hview : ∀ cell, (view cell).weight = cell.weight)
    (hchosen : (cells.block beg maxEntrySetCount).map view = chosen)
    (hworst : worst < maxEntrySetCount) :
    lightestCell cells beg (beg + worst) = beg + findLightest chosen worst ∧
      findLightest chosen worst < maxEntrySetCount := by
  have hlength : chosen.length = maxEntrySetCount := by
    rw [← hchosen, List.length_map, length_block]
  unfold lightestCell findLightest
  rw [hlength, List.range'_eq_map_range]
  exact foldl_lighter hview hchosen _ worst (fun p hp => List.mem_range.mp hp) hworst

/-- The second loop is `replaceLighter`. -/
theorem replaceCells_eq (hview : ∀ cell, (view cell).weight = cell.weight) (left : ℕ)
    (cells : Cells (EntryCell W)) (srcbeg worst : ℕ) (hworst : worst < maxEntrySetCount)
    (hsource : Outside beg maxEntrySetCount srcbeg (srcbeg + left)) :
    ((replaceCells beg left cells srcbeg (beg + worst)).block beg maxEntrySetCount).map view =
        replaceLighter ((cells.block srcbeg left).map view)
          ((cells.block beg maxEntrySetCount).map view) worst ∧
      SameOutside beg maxEntrySetCount cells
        (replaceCells beg left cells srcbeg (beg + worst)) := by
  induction left generalizing cells srcbeg worst with
  | zero => exact ⟨rfl, .refl _ _ _⟩
  | succ left ih =>
      have hrest : Outside beg maxEntrySetCount (srcbeg + 1) (srcbeg + 1 + left) :=
        hsource.mono (Nat.le_succ _) (by omega)
      rw [block_cons, List.map_cons, replaceCells, replaceLighter]
      simp only [getElem?_view view cells beg hworst, hview]
      by_cases hheavier : (cells.get (beg + worst)).weight < (cells.get srcbeg).weight
      · rw [if_pos hheavier, if_pos hheavier]
        have hput : SameOutside beg maxEntrySetCount cells
            (cells.put (beg + worst) (cells.get srcbeg)) :=
          sameOutside_put cells _ (Nat.le_add_right _ _) (Nat.add_lt_add_left hworst beg)
        have hset : ((cells.put (beg + worst) (cells.get srcbeg)).block beg maxEntrySetCount).map
            view = ((cells.block beg maxEntrySetCount).map view).set worst
              (view (cells.get srcbeg)) := by
          rw [block_put, List.map_set]
        obtain ⟨hlightest, hlt⟩ := lightestCell_eq hview hset hworst
        obtain ⟨hblock, hsame⟩ := ih (cells.put (beg + worst) (cells.get srcbeg)) (srcbeg + 1) _
          hlt hrest
        rw [hlightest]
        refine ⟨?_, hput.trans hsame⟩
        rw [hblock, hput.block_eq hrest, hset]
      · rw [if_neg hheavier, if_neg hheavier]
        exact ih cells (srcbeg + 1) worst hworst hrest

/-- What the sort finds: the entries of both loops. -/
theorem chosenCells_eq (hview : ∀ cell, (view cell).weight = cell.weight)
    (cells : Cells (EntryCell W)) (beg : ℕ) (source : Range)
    (hsource : Outside beg maxEntrySetCount source.pbeg source.pend) :
    let s := takeEntries maxEntrySetCount source.size ⟨cells, source.pbeg, beg, beg⟩
    let chosen := replaceCells beg (source.pend - s.srcbeg) s.cells s.srcbeg s.pworst
    s.entptr = beg + min maxEntrySetCount source.size ∧
      (chosen.block beg (min maxEntrySetCount source.size)).map view =
        chooseEntries ((cells.block source.pbeg source.size).map view) ∧
      SameOutside beg maxEntrySetCount cells chosen := by
  intro s chosen
  rw [← source.pbeg_add_size] at hsource
  have hstart : Tracks view beg source.size ⟨cells, source.pbeg, beg, beg⟩ [] 0
      ((cells.block source.pbeg source.size).map view) :=
    ⟨rfl, rfl, .inl rfl, rfl, rfl⟩
  obtain ⟨taken, worst, src, hfill, htracks, hlength, hsrcbeg, hsame⟩ :=
    takeEntries_tracks hview maxEntrySetCount source.size _ _ _ _ hstart
      (by rwa [List.length_nil, Nat.zero_add])
  rw [List.length_nil, Nat.zero_add] at hlength hsame
  have hchoose : chooseEntries ((cells.block source.pbeg source.size).map view) =
      replaceLighter src taken worst := by
    rw [chooseEntries, hfill]
  have hbeg : s.srcbeg = source.pbeg + min maxEntrySetCount source.size := hsrcbeg
  have hcount : source.pend - s.srcbeg = source.size - maxEntrySetCount := by
    rw [← source.pbeg_add_size]
    omega
  refine ⟨hlength ▸ htracks.entptr_eq, ?_⟩
  by_cases hmore : source.size ≤ maxEntrySetCount
  · -- all entries are taken, so the second loop has none to look at
    have hnone : source.size - maxEntrySetCount = 0 := Nat.sub_eq_zero_of_le hmore
    have hsrc : src = [] := by
      rw [← htracks.src_eq, hnone]
      rfl
    have hchosen : chosen = s.cells := by
      simp only [chosen, hcount, hnone, replaceCells]
    rw [hchoose, hsrc, hchosen, ← hlength]
    exact ⟨htracks.chosen_eq, hsame⟩
  · have hfull : taken.length = maxEntrySetCount := by omega
    have hworst : worst < maxEntrySetCount := by
      rcases htracks.worst_lt with hzero | hlt
      · rw [hzero]
        decide
      · exact hfull ▸ hlt
    have hpworst : s.pworst = beg + worst := htracks.pworst_eq
    have hchosen : chosen =
        replaceCells beg (source.size - maxEntrySetCount) s.cells s.srcbeg (beg + worst) := by
      simp only [chosen, hcount, hpworst]
    obtain ⟨hblock, hsame'⟩ := replaceCells_eq hview (source.size - maxEntrySetCount) s.cells
      s.srcbeg worst hworst (hsource.mono (by omega) (by omega))
    have htaken := htracks.chosen_eq
    rw [hfull] at htaken
    rw [hchosen, hchoose, ← hlength, hfull]
    refine ⟨?_, hsame.trans hsame'⟩
    rw [hblock, htaken, htracks.src_eq]

/-- Selected and sorted entries, seen through a view that keeps what is compared. -/
theorem selectCells_eq (hview : ∀ cell, (view cell).weight = cell.weight)
    (hmin : ∀ cell, (view cell).uMin = cell.uMin) (cells : Cells (EntryCell W)) (beg : ℕ)
    (source : Range) (hsource : Outside beg maxEntrySetCount source.pbeg source.pend) :
    (selectCells cells beg source).2 = min maxEntrySetCount source.size ∧
      ((selectCells cells beg source).1.block beg (min maxEntrySetCount source.size)).map view =
        arrangeEntries (chooseEntries ((cells.block source.pbeg source.size).map view)) ∧
      SameOutside beg maxEntrySetCount cells (selectCells cells beg source).1 := by
  obtain ⟨hentptr, hchosen, hsame⟩ := chosenCells_eq hview cells beg source hsource
  have hlength := congrArg List.length hchosen
  rw [List.length_map, length_block] at hlength
  simp only [selectCells, arrangeEntries, ← hlength]
  refine ⟨by rw [hentptr, Nat.add_sub_cancel_left], ?_⟩
  by_cases hfull : min maxEntrySetCount source.size = maxEntrySetCount
  · rw [hfull] at hchosen hentptr
    rw [if_pos hentptr, if_pos hfull, hfull]
    refine ⟨?_, hsame.trans (sameOutside_sort _ _ _ _)⟩
    rw [block_sort, ← hchosen]
    apply List.map_mergeSort
    intro l _ r _
    simp only [hmin]
  · have hroom : ¬ (takeEntries maxEntrySetCount source.size
        ⟨cells, source.pbeg, beg, beg⟩).entptr = beg + maxEntrySetCount := by
      rw [hentptr]
      omega
    rw [if_neg hroom, if_neg hfull]
    exact ⟨hchosen, hsame⟩

omit [LT W] [DecidableLT W] in
/-- The view of an entry by its own pointers. -/
theorem exists_bare_view : ∃ bare : EntryCell W → EntrySet W, Function.Injective bare ∧
    (∀ cell, (bare cell).weight = cell.weight) ∧ ∀ cell, (bare cell).uMin = cell.uMin := by
  refine ⟨fun cell => ⟨cell.uMin, cell.weight, [⟨cell.spread.pbeg, cell.spread.pend⟩],
    cell.payload⟩, ?_, fun _ => rfl, fun _ => rfl⟩
  intro a b heq
  obtain ⟨uMin, weight, ⟨pbeg, pend, _⟩, payload⟩ := a
  obtain ⟨uMin', weight', ⟨pbeg', pend', _⟩, payload'⟩ := b
  simp_all

/-- Every selected entry stands in the source with the same pointers. -/
theorem mem_of_mem_selectCells (cells : Cells (EntryCell W)) (beg : ℕ) (source : Range)
    (hsource : Outside beg maxEntrySetCount source.pbeg source.pend) {cell : EntryCell W}
    (hcell : cell ∈ (selectCells cells beg source).1.block beg
      (min maxEntrySetCount source.size)) : cell ∈ cells.block source.pbeg source.size := by
  obtain ⟨bare, hinjective, hweight, hmin⟩ := exists_bare_view (W := W)
  obtain ⟨-, hselected, -⟩ := selectCells_eq hweight hmin cells beg source hsource
  obtain ⟨others, hperm⟩ := chooseEntries_perm ((cells.block source.pbeg source.size).map bare)
  have hmem := List.mem_map_of_mem (f := bare) hcell
  rw [hselected] at hmem
  have hchosen := (arrangeEntries_perm _).mem_iff.mp hmem
  apply (List.mem_map_of_injective hinjective).mp
  exact hperm.mem_iff.mpr (List.mem_append_left _ hchosen)

end Selects

/-! ## The positions -/

/-- What the last loop makes of `mem`: spreads read as those of `copySpreads`, which lie between
`posptr` and `posend`, and nothing else is written. -/
structure PositionsCopied (posend count : ℕ) (mem : Memory W) (entend posptr : ℕ)
    (mem' : Memory W) : Prop where
  spreads : (mem'.entries.block entend count).map (Memory.entryOf mem'.positions) =
    copySpreads (posend - posptr)
      ((mem.entries.block entend count).map (Memory.entryOf mem.positions))
  within : ∀ cell ∈ mem'.entries.block entend count,
    posptr ≤ cell.spread.pbeg ∧ cell.spread.pend ≤ posend
  entries : SameOutside entend count mem.entries mem'.entries
  positions : SameOutside posptr (posend - posptr) mem.positions mem'.positions
  terms : mem'.terms = mem.terms

theorem take_spread (positions : Cells EntryPos) (cell : EntryCell W) (room : ℕ) :
    (Memory.entryOf positions cell).spread.take room =
      positions.block cell.spread.pbeg (min cell.spread.size room) :=
  take_block_min positions cell.spread.pbeg cell.spread.size room

/-- One entry gets the positions there is room for, sorted. -/
theorem copyEntry_copied {posend : ℕ} {mem : Memory W} {entend posptr : ℕ}
    (hsource : Outside posptr (posend - posptr) (mem.entries.get entend).spread.pbeg
      (mem.entries.get entend).spread.pend) :
    ∃ mem' n, copyEntry posend mem entend posptr = (mem', posptr + n) ∧ n ≤ posend - posptr ∧
      mem'.entries = mem.entries.put entend
        { mem.entries.get entend with spread := ⟨posptr, posptr + n, Nat.le_add_right _ _⟩ } ∧
      ((Memory.entryOf mem.positions (mem.entries.get entend)).spread.take
        (posend - posptr)).length = n ∧
      mem'.positions.block posptr n =
        ((Memory.entryOf mem.positions (mem.entries.get entend)).spread.take
          (posend - posptr)).mergeSort (fun p q => decide (p.offset ≤ q.offset)) ∧
      SameOutside posptr n mem.positions mem'.positions ∧ mem'.terms = mem.terms := by
  generalize hcell : mem.entries.get entend = cell at hsource ⊢
  let n := min cell.spread.size (posend - posptr)
  have hn : n ≤ posend - posptr := Nat.min_le_right _ _
  have hsize : n ≤ cell.spread.size := Nat.min_le_left _ _
  have hread : Outside posptr n cell.spread.pbeg (cell.spread.pbeg + n) := by
    rw [← cell.spread.pbeg_add_size] at hsource
    exact (hsource.within (Nat.le_refl _) (by omega)).mono (Nat.le_refl _) (by omega)
  refine ⟨(copyEntry posend mem entend posptr).1, n, ?_, hn, ?_, ?_, ?_, ?_, rfl⟩
  · rw [copyEntry, hcell]
  · rw [copyEntry, hcell]
  · rw [take_spread, length_block]
  · rw [take_spread, copyEntry, hcell]
    simp only
    rw [block_sort, block_copyUp mem.positions hread]
  · rw [copyEntry, hcell]
    exact (sameOutside_copyUp _ _ _ _).trans (sameOutside_sort _ _ _ _)

theorem entryOf_placed (positions : Cells EntryPos) {positions' : Cells EntryPos} {posptr n : ℕ}
    (cell : EntryCell W) {spread : List EntryPos} (hblock : positions'.block posptr n = spread) :
    Memory.entryOf positions'
        { cell with spread := ⟨posptr, posptr + n, Nat.le_add_right _ _⟩ } =
      { Memory.entryOf positions cell with spread } := by
  simp only [Memory.entryOf, Range.size_mk, hblock]

/-- An entry whose spread lies outside of what is written reads as before. -/
theorem entryOf_congr {pos count : ℕ} {positions positions' : Cells EntryPos} {cell : EntryCell W}
    (hsame : SameOutside pos count positions positions')
    (houtside : Outside pos count cell.spread.pbeg cell.spread.pend) :
    Memory.entryOf positions' cell = Memory.entryOf positions cell := by
  rw [← cell.spread.pbeg_add_size] at houtside
  rw [Memory.entryOf, Memory.entryOf, hsame.block_eq houtside]

theorem copyPositions_copied (posend count : ℕ) (mem : Memory W) (entend posptr : ℕ)
    (hle : posptr ≤ posend) (hsource : ∀ cell ∈ mem.entries.block entend count,
      Outside posptr (posend - posptr) cell.spread.pbeg cell.spread.pend) :
    PositionsCopied posend count mem entend posptr
      (copyPositions posend count mem entend posptr) := by
  induction count generalizing mem entend posptr with
  | zero => exact ⟨rfl, nofun, .refl _ _ _, .refl _ _ _, rfl⟩
  | succ count ih =>
      rw [block_cons] at hsource
      obtain ⟨hhead, htail⟩ := List.forall_mem_cons.mp hsource
      obtain ⟨mem₁, n, hcopy, hn, hentries, hlength, hblock, hpositions, hterms⟩ :=
        copyEntry_copied hhead
      have hput : SameOutside entend (count + 1) mem.entries mem₁.entries := by
        rw [hentries]
        exact sameOutside_put _ _ (Nat.le_refl _) (by omega)
      have hrest : mem₁.entries.block (entend + 1) count =
          mem.entries.block (entend + 1) count := by
        apply block_congr
        intro k hge _
        rw [hentries]
        exact get_put_of_ne _ _ (by omega)
      have hsource₁ : ∀ cell ∈ mem₁.entries.block (entend + 1) count,
          Outside (posptr + n) (posend - (posptr + n)) cell.spread.pbeg cell.spread.pend := by
        rw [hrest]
        exact fun cell hcell => (htail cell hcell).within (Nat.le_add_right _ _) (by omega)
      obtain ⟨hspreads, hwithin, hentries₁, hpositions₁, hterms₁⟩ :=
        ih mem₁ (entend + 1) (posptr + n) (by omega) hsource₁
      rw [copyPositions, hcopy]
      simp only
      generalize copyPositions posend count mem₁ (entend + 1) (posptr + n) = mem' at *
      have hget : mem'.entries.get entend =
          { mem.entries.get entend with spread := ⟨posptr, posptr + n, Nat.le_add_right _ _⟩ } := by
        rw [hentries₁ entend (.inl (Nat.lt_succ_self _)), hentries, get_put_self]
      -- the spread of this entry lies before all that is written for the others
      have hspread := entryOf_placed mem.positions (mem.entries.get entend)
        ((hpositions₁.block_eq (outside_of_disjoint (.inl (Nat.le_refl _)))).trans hblock)
      have hothers : (mem.entries.block (entend + 1) count).map (Memory.entryOf mem₁.positions) =
          (mem.entries.block (entend + 1) count).map (Memory.entryOf mem.positions) := by
        apply List.map_congr_left
        intro cell hcell
        exact entryOf_congr hpositions ((htail cell hcell).within (Nat.le_refl _) (by omega))
      refine ⟨?_, ?_, ?_, ?_, hterms₁.trans hterms⟩
      · rw [block_cons, List.map_cons, hget, hspread, hspreads, hrest, hothers, block_cons,
          List.map_cons, copySpreads, hlength, Nat.sub_sub]
      · rw [block_cons]
        refine List.forall_mem_cons.mpr ⟨?_, ?_⟩
        · rw [hget]
          exact ⟨Nat.le_refl _, by simp only; omega⟩
        · intro cell hcell
          obtain ⟨hge, hend⟩ := hwithin cell hcell
          exact ⟨(Nat.le_add_right _ _).trans hge, hend⟩
      · exact hput.trans (hentries₁.mono (Nat.le_succ _) (by omega))
      · exact (hpositions.mono (Nat.le_refl _) (by omega)).trans
          (hpositions₁.mono (Nat.le_add_right _ _) (by omega))

/-! ## The copy -/

namespace Output

/-- Nothing the abstract is read from lies in the room of the output. -/
def Apart (output : Output) (mem : Memory W) (a : AbstractCell) : Prop :=
  match a.pointers with
  | .none => True
  | .bm25 factors => Outside output.terms maxBM25TermCount factors.pbeg factors.pend
  | .rich entries => Outside output.entries maxEntrySetCount entries.pbeg entries.pend ∧
      ∀ cell ∈ mem.entries.block entries.pbeg entries.size,
        Outside output.positions maxEntryPosCount cell.spread.pbeg cell.spread.pend

/-- All the abstract is read from lies in the room of the output. -/
def Holds (output : Output) (mem : Memory W) (a : AbstractCell) : Prop :=
  match a.pointers with
  | .none => True
  | .bm25 factors =>
      output.terms ≤ factors.pbeg ∧ factors.pend ≤ output.terms + maxBM25TermCount
  | .rich entries =>
      (output.entries ≤ entries.pbeg ∧ entries.pend ≤ output.entries + maxEntrySetCount) ∧
      ∀ cell ∈ mem.entries.block entries.pbeg entries.size,
        output.positions ≤ cell.spread.pbeg ∧
          cell.spread.pend ≤ output.positions + maxEntryPosCount

/-- Only the room of the output is written. -/
structure Frame (output : Output) (mem mem' : Memory W) : Prop where
  terms : SameOutside output.terms maxBM25TermCount mem.terms mem'.terms
  entries : SameOutside output.entries maxEntrySetCount mem.entries mem'.entries
  positions : SameOutside output.positions maxEntryPosCount mem.positions mem'.positions

/-- The rooms of the two outputs have nothing in common. -/
structure Disjoint (first second : Output) : Prop where
  terms : Outside second.terms maxBM25TermCount first.terms (first.terms + maxBM25TermCount)
  entries : Outside second.entries maxEntrySetCount first.entries
    (first.entries + maxEntrySetCount)
  positions : Outside second.positions maxEntryPosCount first.positions
    (first.positions + maxEntryPosCount)

variable {output first second : Output} {mem mem' : Memory W} {a : AbstractCell}

theorem Holds.apart (hholds : first.Holds mem a) (hdisjoint : first.Disjoint second) :
    second.Apart mem a := by
  obtain ⟨nWords, pointers⟩ := a
  cases pointers with
  | none => trivial
  | bm25 factors => exact hdisjoint.terms.mono hholds.1 hholds.2
  | rich entries =>
      refine ⟨hdisjoint.entries.mono hholds.1.1 hholds.1.2, ?_⟩
      intro cell hcell
      exact hdisjoint.positions.mono (hholds.2 cell hcell).1 (hholds.2 cell hcell).2

/-- What lies apart from the output reads as before. -/
theorem Frame.read_eq (hframe : output.Frame mem mem') (hapart : output.Apart mem a) :
    mem'.read a = mem.read a := by
  obtain ⟨nWords, pointers⟩ := a
  cases pointers with
  | none => rfl
  | bm25 factors =>
      have hfactors : Outside output.terms maxBM25TermCount factors.pbeg factors.pend := hapart
      rw [← factors.pbeg_add_size] at hfactors
      simp only [Memory.read, hframe.terms.block_eq hfactors]
  | rich entries =>
      obtain ⟨hentries, hspreads⟩ := hapart
      rw [← entries.pbeg_add_size] at hentries
      simp only [Memory.read, hframe.entries.block_eq hentries]
      have hmap := List.map_congr_left fun cell hcell =>
        entryOf_congr hframe.positions (hspreads cell hcell)
      rw [hmap]

end Output

/-! ### Every abstract in memory -/

/-- The entries with their positions written from `pos` on. -/
def layOut : Cells EntryPos → ℕ → List (EntrySet W) → Cells EntryPos × List (EntryCell W)
  | positions, _, [] => (positions, [])
  | positions, pos, entry :: rest =>
      let (positions', cells) :=
        layOut (positions.store pos entry.spread) (pos + entry.spread.length) rest
      (positions', ⟨entry.uMin, entry.weight,
        ⟨pos, pos + entry.spread.length, Nat.le_add_right _ _⟩, entry.payload⟩ :: cells)

theorem layOut_reads (positions : Cells EntryPos) (pos : ℕ) (entries : List (EntrySet W)) :
    (layOut positions pos entries).2.map (Memory.entryOf (layOut positions pos entries).1) =
        entries ∧
      (∀ cell ∈ (layOut positions pos entries).2, pos ≤ cell.spread.pbeg) ∧
      ∀ k < pos, (layOut positions pos entries).1.get k = positions.get k := by
  induction entries generalizing positions pos with
  | nil => exact ⟨rfl, nofun, fun _ _ => rfl⟩
  | cons entry rest ih =>
      obtain ⟨hreads, hbehind, hsame⟩ :=
        ih (positions.store pos entry.spread) (pos + entry.spread.length)
      refine ⟨List.cons_eq_cons.mpr ⟨?_, hreads⟩, ?_, ?_⟩
      · have hspread : (layOut (positions.store pos entry.spread) (pos + entry.spread.length)
            rest).1.block pos entry.spread.length = entry.spread :=
          (block_congr fun k _ hlt => hsame k hlt).trans (block_store positions pos entry.spread)
        simp only [layOut, Memory.entryOf, Range.size_mk]
        rw [hspread]
      · refine List.forall_mem_cons.mpr ⟨Nat.le_refl _, ?_⟩
        exact fun cell hcell => (Nat.le_add_right _ _).trans (hbehind cell hcell)
      · intro k hk
        exact (hsame k (hk.trans_le (Nat.le_add_right _ _))).trans
          (sameOutside_store positions pos entry.spread k (.inl hk))

/-- Any abstract can be read from a memory, apart from a given output. -/
theorem exists_read (weight : W) (a : Abstract W) (output : Output) :
    ∃ (mem : Memory W) (source : AbstractCell), mem.read source = a ∧ output.Apart mem source := by
  let terms : Cells (BM25Term W) := ⟨fun _ => ⟨weight, 0⟩, []⟩
  let positions : Cells EntryPos := ⟨fun _ => ⟨0, 0⟩, []⟩
  let entries : Cells (EntryCell W) := ⟨fun _ => ⟨0, weight, ⟨0, 0, Nat.le_refl _⟩, 0⟩, []⟩
  obtain ⟨nWords, content⟩ := a
  cases content with
  | none => exact ⟨⟨entries, positions, terms⟩, ⟨nWords, .none⟩, rfl, trivial⟩
  | bm25 factors =>
      refine ⟨⟨entries, positions, terms.store (output.terms + maxBM25TermCount) factors⟩,
        ⟨nWords, .bm25 ⟨_, _, Nat.le_add_right (output.terms + maxBM25TermCount) factors.length⟩⟩,
        ?_, outside_of_disjoint (.inr (Nat.le_refl _))⟩
      simp only [Memory.read, Range.size_mk, block_store]
  | rich kept =>
      obtain ⟨hreads, hbehind, -⟩ :=
        layOut_reads positions (output.positions + maxEntryPosCount) kept
      generalize layOut positions (output.positions + maxEntryPosCount) kept = laid at *
      have hblock := block_store entries (output.entries + maxEntrySetCount) laid.2
      refine ⟨⟨entries.store (output.entries + maxEntrySetCount) laid.2, laid.1, terms⟩,
        ⟨nWords, .rich ⟨_, _, Nat.le_add_right (output.entries + maxEntrySetCount)
          laid.2.length⟩⟩, ?_, outside_of_disjoint (.inr (Nat.le_refl _)), ?_⟩
      · simp only [Memory.read, Range.size_mk, hblock, hreads]
      · simp only [Range.size_mk, hblock]
        exact fun cell hcell => outside_of_disjoint (.inr (hbehind cell hcell))

section Copy

variable [LT W] [DecidableLT W] {mem : Memory W} {output : Output}

/-- What one call leaves: `copyAbstract` of what it was given, in the room of the output. -/
structure CopiedTo (mem : Memory W) (output : Output) (source : AbstractCell) (mem' : Memory W)
    (copy : AbstractCell) : Prop where
  read : mem'.read copy = copyAbstract (mem.read source)
  holds : output.Holds mem' copy
  frame : output.Frame mem mem'

theorem copied_bm25 (nWords : ℕ) (factors : Range)
    (hfactors : Outside output.terms maxBM25TermCount factors.pbeg factors.pend) :
    CopiedTo mem output ⟨nWords, .bm25 factors⟩
      (mem.copyAbstract output ⟨nWords, .bm25 factors⟩).1
      (mem.copyAbstract output ⟨nWords, .bm25 factors⟩).2 := by
  have hsize : min factors.size maxBM25TermCount ≤ factors.size := Nat.min_le_left _ _
  have hroom : min factors.size maxBM25TermCount ≤ maxBM25TermCount := Nat.min_le_right _ _
  rw [← factors.pbeg_add_size] at hfactors
  have hread : Outside output.terms (min factors.size maxBM25TermCount) factors.pbeg
      (factors.pbeg + min factors.size maxBM25TermCount) :=
    (hfactors.within (Nat.le_refl _) (Nat.add_le_add_left hroom _)).mono (Nat.le_refl _)
      (Nat.add_le_add_left hsize _)
  refine ⟨?_, ⟨Nat.le_refl _, Nat.add_le_add_left hroom _⟩, ?_, .refl _ _ _, .refl _ _ _⟩
  · simp only [Memory.copyAbstract, Memory.read, copyAbstract, Range.size_mk]
    rw [block_copyUp _ hread, take_block_min]
  · exact (sameOutside_copyUp _ _ _ _).mono (Nat.le_refl _) (Nat.add_le_add_left hroom _)

theorem copied_rich (nWords : ℕ) (entries : Range)
    (hentries : Outside output.entries maxEntrySetCount entries.pbeg entries.pend)
    (hspreads : ∀ cell ∈ mem.entries.block entries.pbeg entries.size,
      Outside output.positions maxEntryPosCount cell.spread.pbeg cell.spread.pend) :
    CopiedTo mem output ⟨nWords, .rich entries⟩
      (mem.copyAbstract output ⟨nWords, .rich entries⟩).1
      (mem.copyAbstract output ⟨nWords, .rich entries⟩).2 := by
  have hweight : ∀ cell : EntryCell W,
      (Memory.entryOf mem.positions cell).weight = cell.weight := fun _ => rfl
  obtain ⟨hcount, hselected, hsame⟩ :=
    selectCells_eq hweight (fun _ => rfl) mem.entries output.entries entries hentries
  have hmem : ∀ cell ∈ (selectCells mem.entries output.entries entries).1.block output.entries
      (min maxEntrySetCount entries.size), cell ∈ mem.entries.block entries.pbeg entries.size :=
    fun cell hcell => mem_of_mem_selectCells mem.entries output.entries entries hentries hcell
  simp only [Memory.copyAbstract, hcount]
  generalize (selectCells mem.entries output.entries entries).1 = cells at *
  have hcopied := copyPositions_copied (output.positions + maxEntryPosCount)
    (min maxEntrySetCount entries.size) { mem with entries := cells } output.entries
    output.positions (Nat.le_add_right _ _) (by
      intro cell hcell
      rw [Nat.add_sub_cancel_left]
      exact hspreads cell (hmem cell hcell))
  obtain ⟨hread, hwithin, hcells, hpositions, hterms⟩ := hcopied
  rw [Nat.add_sub_cancel_left] at hread hpositions
  have hroom : min maxEntrySetCount entries.size ≤ maxEntrySetCount := Nat.min_le_left _ _
  refine ⟨?_, ⟨⟨Nat.le_refl _, Nat.add_le_add_left hroom _⟩, ?_⟩, ?_, ?_, hpositions⟩
  · simp only [Memory.read, copyAbstract, Range.size_mk, hread, hselected]
  · simp only [Range.size_mk]
    exact hwithin
  · rw [hterms]
    exact .refl _ _ _
  · exact hsame.trans (hcells.mono (Nat.le_refl _) (Nat.add_le_add_left hroom _))

theorem copyAbstract_copied (source : AbstractCell) (hapart : output.Apart mem source) :
    CopiedTo mem output source (mem.copyAbstract output source).1
      (mem.copyAbstract output source).2 := by
  obtain ⟨nWords, pointers⟩ := source
  cases pointers with
  | none => exact ⟨rfl, trivial, .refl _ _ _, .refl _ _ _, .refl _ _ _⟩
  | bm25 factors => exact copied_bm25 nWords factors hapart
  | rich entries => exact copied_rich nWords entries hapart.1 hapart.2

/-- The second copy reads as the first one, which it leaves alone, and so a store has the same item
for the abstract as for its copy. -/
theorem copyAbstract_twice (mem : Memory W) (first second : Output) (source : AbstractCell)
    (hsource : first.Apart mem source) (hrooms : first.Disjoint second) :
    let once := mem.copyAbstract first source
    let twice := once.1.copyAbstract second once.2
    twice.1.read twice.2 = once.1.read once.2 ∧
      twice.1.read once.2 = once.1.read once.2 ∧
      ∀ (s : Abstracts W) (newid oldid : ℕ),
        s.set newid (once.1.read once.2) oldid = s.set newid (mem.read source) oldid := by
  intro once twice
  have honce := copyAbstract_copied source hsource
  have hapart := honce.holds.apart hrooms
  have htwice := copyAbstract_copied once.2 hapart
  have hcopy := copyAbstract_copyAbstract (mem.read source)
  refine ⟨?_, htwice.frame.read_eq hapart, ?_⟩
  · calc twice.1.read twice.2
      _ = copyAbstract (once.1.read once.2) := htwice.read
      _ = copyAbstract (copyAbstract (mem.read source)) := congrArg copyAbstract honce.read
      _ = once.1.read once.2 := hcopy.trans honce.read.symm
  · intro s newid oldid
    rw [honce.read, Abstracts.set, Abstracts.set, hcopy]

end Copy

/-- Entries of two positions each, the positions in falling order. -/
def fallingOffsets : Memory ℕ where
  entries := ⟨fun k => ⟨k, 1, ⟨2 * k, 2 * k + 2, Nat.le_add_right _ _⟩, 0⟩, []⟩
  positions := ⟨fun k => ⟨0x400 - k, 0⟩, []⟩
  terms := ⟨fun _ => ⟨1, 0⟩, []⟩

/-- Five entries, one more than a copy has room for. -/
theorem copyAbstract_twice_five :
    let once := fallingOffsets.copyAbstract ⟨0x100, 0x100, 0x100⟩ ⟨7, .rich ⟨0, 5, by decide⟩⟩
    let twice := once.1.copyAbstract ⟨0x200, 0x200, 0x200⟩ once.2
    twice.1.read twice.2 = once.1.read once.2 := by
  have hsource : Output.Apart ⟨0x100, 0x100, 0x100⟩ fallingOffsets
      ⟨7, .rich ⟨0, 5, by decide⟩⟩ := by
    refine ⟨outside_of_disjoint (.inl (by decide)), ?_⟩
    intro cell hcell
    obtain ⟨k, hk, rfl⟩ := List.mem_map.mp hcell
    obtain ⟨-, hlt⟩ := List.mem_range'_1.mp hk
    apply outside_of_disjoint
    left
    change k < 0 + 5 at hlt
    change 2 * k + 2 ≤ 0x100
    omega
  have hrooms : Output.Disjoint ⟨0x100, 0x100, 0x100⟩ ⟨0x200, 0x200, 0x200⟩ :=
    ⟨outside_of_disjoint (.inl (by decide)), outside_of_disjoint (.inl (by decide)),
      outside_of_disjoint (.inl (by decide))⟩
  exact (copyAbstract_twice fallingOffsets _ _ _ hsource hrooms).1

end Palmira.Collect
