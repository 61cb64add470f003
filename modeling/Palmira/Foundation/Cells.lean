import Mathlib.Data.List.Range

/-!
# Memory by cells

Numbered cells with the log of the writes. A block of cells is a list. Moving
the tail of a block up by one cell and putting a value into the gap inserts the
value into that list, and writes no cell behind the block. Writing into one block
leaves every block outside of it as it is.
-/

/-- `written` holds the numbers of the cells written, the last one first. -/
structure Cells (α : Type*) where
  get : ℕ → α
  written : List ℕ

namespace Cells

variable {α : Type*} {mem mem' mem'' : Cells α}

def put (mem : Cells α) (pos : ℕ) (x : α) : Cells α :=
  ⟨fun k => if k = pos then x else mem.get k, pos :: mem.written⟩

/-- The `count` cells from `src` on are copied to `dst`, also where both overlap. -/
def move (mem : Cells α) (dst src count : ℕ) : Cells α :=
  ⟨fun k => if dst ≤ k ∧ k < dst + count then mem.get (src + (k - dst)) else mem.get k,
    List.range' dst count ++ mem.written⟩

/-- What the `count` cells from `pos` on hold. -/
def block (mem : Cells α) (pos count : ℕ) : List α := (List.range' pos count).map mem.get

/-- The first cell from `pos` on that does not satisfy `p`, or the end after `count` cells. -/
def passWhile (mem : Cells α) (p : α → Bool) : ℕ → ℕ → ℕ
  | pos, 0 => pos
  | pos, count + 1 => if p (mem.get pos) then mem.passWhile p (pos + 1) count else pos

/-- `count` cells are copied one after the other. -/
def copyUp : Cells α → ℕ → ℕ → ℕ → Cells α
  | mem, _, _, 0 => mem
  | mem, dst, src, count + 1 => (mem.put dst (mem.get src)).copyUp (dst + 1) (src + 1) count

/-- A list is written from `pos` on. -/
def store : Cells α → ℕ → List α → Cells α
  | mem, _, [] => mem
  | mem, pos, x :: xs => (mem.put pos x).store (pos + 1) xs

/-- The block of `count` cells at `pos` is sorted; the sort is stable. -/
def sort (mem : Cells α) (pos count : ℕ) (le : α → α → Bool) : Cells α :=
  mem.store pos ((mem.block pos count).mergeSort le)

theorem get_put_self (mem : Cells α) (pos : ℕ) (x : α) : (mem.put pos x).get pos = x := if_pos rfl

theorem get_put_of_ne (mem : Cells α) {pos k : ℕ} (x : α) (hne : k ≠ pos) :
    (mem.put pos x).get k = mem.get k := if_neg hne

/-! ## Blocks -/

@[simp] theorem length_block (mem : Cells α) (pos count : ℕ) :
    (mem.block pos count).length = count := by
  rw [block, List.length_map, List.length_range']

theorem block_cons (mem : Cells α) (pos count : ℕ) :
    mem.block pos (count + 1) = mem.get pos :: mem.block (pos + 1) count := by
  rw [block, List.range'_succ]
  rfl

theorem block_append (mem : Cells α) (pos m n : ℕ) :
    mem.block pos (m + n) = mem.block pos m ++ mem.block (pos + m) n := by
  rw [block, block, block, ← List.map_append, List.range'_append_1]

theorem block_congr {pos count : ℕ} (hsame : ∀ k, pos ≤ k → k < pos + count →
    mem.get k = mem'.get k) : mem.block pos count = mem'.block pos count := by
  apply List.map_congr_left
  intro k hk
  obtain ⟨hge, hlt⟩ := List.mem_range'_1.mp hk
  exact hsame k hge hlt

theorem take_block (mem : Cells α) (pos : ℕ) {count k : ℕ} (hle : k ≤ count) :
    (mem.block pos count).take k = mem.block pos k := by
  obtain ⟨n, rfl⟩ := Nat.exists_eq_add_of_le hle
  rw [block_append, List.take_left' (length_block mem pos k)]

theorem take_block_min (mem : Cells α) (pos count k : ℕ) :
    (mem.block pos count).take k = mem.block pos (min count k) := by
  rw [List.take_eq_take_min, length_block, Nat.min_comm, take_block mem pos (Nat.min_le_left _ _)]

theorem drop_block (mem : Cells α) (pos n : ℕ) :
    (mem.block 0 (pos + n)).drop pos = mem.block pos n := by
  rw [block_append, List.drop_left' (length_block mem 0 pos), Nat.zero_add]

theorem dropLast_block (mem : Cells α) (pos n : ℕ) :
    (mem.block pos (n + 1)).dropLast = mem.block pos n := by
  rw [block_append]
  exact List.dropLast_concat

theorem getElem?_block (mem : Cells α) (pos : ℕ) {count k : ℕ} (hlt : k < count) :
    (mem.block pos count)[k]? = some (mem.get (pos + k)) := by
  rw [block, List.getElem?_map, List.getElem?_range' hlt, Option.map_some, Nat.one_mul]

theorem block_put (mem : Cells α) (pos count k : ℕ) (x : α) :
    (mem.put (pos + k) x).block pos count = (mem.block pos count).set k x := by
  ext i : 1
  rw [List.getElem?_set, length_block]
  by_cases hi : i < count
  · rw [getElem?_block _ _ hi, getElem?_block _ _ hi]
    split
    next heq =>
      rw [if_pos (heq ▸ hi), ← heq, get_put_self]
    next hne =>
      rw [get_put_of_ne]
      omega
  · have hnone : ∀ cells : Cells α, (cells.block pos count)[i]? = none := by
      intro cells
      rw [List.getElem?_eq_none_iff, length_block]
      exact Nat.not_lt.mp hi
    rw [hnone, hnone]
    split
    next heq => rw [if_neg (heq ▸ hi)]
    next => rfl

theorem block_put_end (mem : Cells α) (pos count : ℕ) (x : α) :
    (mem.put (pos + count) x).block pos (count + 1) = mem.block pos count ++ [x] := by
  rw [block_append]
  congr 1
  · apply block_congr
    intro k _ hlt
    exact get_put_of_ne mem x hlt.ne
  · change [(mem.put (pos + count) x).get (pos + count)] = [x]
    rw [get_put_self]

theorem block_move (mem : Cells α) (dst src count : ℕ) :
    (mem.move dst src count).block dst count = mem.block src count := by
  rw [block, block, List.range'_eq_map_range, List.range'_eq_map_range, List.map_map, List.map_map]
  apply List.map_congr_left
  intro k hk
  have hlt : dst + k < dst + count := Nat.add_lt_add_left (List.mem_range.mp hk) dst
  change (if dst ≤ dst + k ∧ dst + k < dst + count then _ else _) = _
  rw [if_pos ⟨Nat.le_add_right _ _, hlt⟩, Nat.add_sub_cancel_left]
  rfl

theorem passWhile_eq (mem : Cells α) (p : α → Bool) (pos count : ℕ) :
    mem.passWhile p pos count = pos + ((mem.block pos count).takeWhile p).length := by
  induction count generalizing pos with
  | zero => rfl
  | succ count ih =>
      rw [passWhile, block_cons]
      split
      next hp =>
        rw [ih, List.takeWhile_cons_of_pos hp, List.length_cons]
        omega
      next hp => rw [List.takeWhile_cons_of_neg hp, List.length_nil, Nat.add_zero]

/-! ## Insertion -/

/-- The `count` cells from `pos` on are moved up and `x` is put in front of them. -/
def insertAt (mem : Cells α) (pos count : ℕ) (x : α) : Cells α :=
  (mem.move (pos + 1) pos count).put pos x

theorem block_insertAt (mem : Cells α) (pos count : ℕ) (x : α) :
    (mem.insertAt pos count x).block 0 (pos + (count + 1)) =
      mem.block 0 pos ++ x :: mem.block pos count := by
  have hfront : (mem.insertAt pos count x).block 0 pos = mem.block 0 pos := by
    apply block_congr
    intro k _ hlt
    change (if k = pos then x else if pos + 1 ≤ k ∧ _ then _ else mem.get k) = mem.get k
    rw [if_neg (by omega), if_neg (by omega)]
  have hgap : (mem.insertAt pos count x).get pos = x := if_pos rfl
  have hback : (mem.insertAt pos count x).block (pos + 1) count = mem.block pos count := by
    rw [← block_move mem (pos + 1) pos count]
    apply block_congr
    intro k hge _
    exact if_neg (by omega)
  calc (mem.insertAt pos count x).block 0 (pos + (count + 1))
    _ = mem.block 0 pos ++ (mem.insertAt pos count x).block pos (count + 1) := by
        rw [block_append, hfront, Nat.zero_add]
    _ = mem.block 0 pos ++ x :: mem.block pos count := by rw [block_cons, hgap, hback]

/-! ## Writes into one block -/

/-- The cells from `first` to `last` lie outside the block of `count` cells at `pos`. -/
def Outside (pos count first last : ℕ) : Prop :=
  ∀ k, first ≤ k → k < last → k < pos ∨ pos + count ≤ k

/-- Only the block of `count` cells at `pos` may differ. -/
def SameOutside (pos count : ℕ) (mem mem' : Cells α) : Prop :=
  ∀ k, k < pos ∨ pos + count ≤ k → mem'.get k = mem.get k

theorem outside_of_disjoint {pos count first last : ℕ}
    (hdisjoint : last ≤ pos ∨ pos + count ≤ first) : Outside pos count first last := by
  intro k hge hlt
  omega

theorem Outside.mono {pos count first last first' last' : ℕ}
    (houtside : Outside pos count first last) (hfirst : first ≤ first') (hlast : last' ≤ last) :
    Outside pos count first' last' :=
  fun k hge hlt => houtside k (hfirst.trans hge) (hlt.trans_le hlast)

theorem Outside.within {pos count pos' count' first last : ℕ}
    (houtside : Outside pos count first last) (hpos : pos ≤ pos')
    (hend : pos' + count' ≤ pos + count) : Outside pos' count' first last := by
  intro k hge hlt
  have hk := houtside k hge hlt
  omega

namespace SameOutside

variable {pos count : ℕ}

theorem refl (pos count : ℕ) (mem : Cells α) : SameOutside pos count mem mem := fun _ _ => rfl

theorem trans (hfirst : SameOutside pos count mem mem') (hnext : SameOutside pos count mem' mem'') :
    SameOutside pos count mem mem'' :=
  fun k hk => (hnext k hk).trans (hfirst k hk)

theorem mono {pos' count' : ℕ} (hsame : SameOutside pos count mem mem') (hpos : pos' ≤ pos)
    (hend : pos + count ≤ pos' + count') : SameOutside pos' count' mem mem' := by
  intro k hk
  exact hsame k (by omega)

theorem block_eq {first n : ℕ} (hsame : SameOutside pos count mem mem')
    (houtside : Outside pos count first (first + n)) : mem'.block first n = mem.block first n :=
  block_congr fun k hge hlt => hsame k (houtside k hge hlt)

end SameOutside

theorem sameOutside_put (mem : Cells α) {pos count k : ℕ} (x : α) (hge : pos ≤ k)
    (hlt : k < pos + count) : SameOutside pos count mem (mem.put k x) := by
  intro j hj
  apply get_put_of_ne
  omega

theorem sameOutside_copyUp (mem : Cells α) (dst src count : ℕ) :
    SameOutside dst count mem (mem.copyUp dst src count) := by
  induction count generalizing mem dst src with
  | zero => exact .refl _ _ _
  | succ count ih =>
      have hput := sameOutside_put mem (mem.get src) (Nat.le_refl dst)
        (Nat.lt_add_of_pos_right (Nat.succ_pos count))
      exact hput.trans ((ih _ (dst + 1) (src + 1)).mono (by omega) (by omega))

theorem block_copyUp (mem : Cells α) {dst src count : ℕ}
    (houtside : Outside dst count src (src + count)) :
    (mem.copyUp dst src count).block dst count = mem.block src count := by
  induction count generalizing mem dst src with
  | zero => rfl
  | succ count ih =>
      -- no cell that is still to be read is written
      have hread : (mem.put dst (mem.get src)).block (src + 1) count =
          mem.block (src + 1) count := by
        apply block_congr
        intro k hge hlt
        apply get_put_of_ne
        have hk := houtside k (by omega) (by omega)
        omega
      have hrest : Outside (dst + 1) count (src + 1) (src + 1 + count) := by
        intro k hge hlt
        have hk := houtside k (by omega) (by omega)
        omega
      have hhead := sameOutside_copyUp (mem.put dst (mem.get src)) (dst + 1) (src + 1) count dst
        (.inl (Nat.lt_succ_self dst))
      rw [copyUp, block_cons, block_cons, ih _ hrest, hread, hhead, get_put_self]

theorem sameOutside_store (mem : Cells α) (pos : ℕ) (xs : List α) :
    SameOutside pos xs.length mem (mem.store pos xs) := by
  induction xs generalizing mem pos with
  | nil => exact .refl _ _ _
  | cons x xs ih =>
      have hput := sameOutside_put mem x (Nat.le_refl pos)
        (Nat.lt_add_of_pos_right (Nat.succ_pos xs.length))
      rw [List.length_cons]
      exact hput.trans ((ih _ (pos + 1)).mono (by omega) (by omega))

theorem block_store (mem : Cells α) (pos : ℕ) (xs : List α) :
    (mem.store pos xs).block pos xs.length = xs := by
  induction xs generalizing mem pos with
  | nil => rfl
  | cons x xs ih =>
      have hhead := sameOutside_store (mem.put pos x) (pos + 1) xs pos
        (.inl (Nat.lt_succ_self pos))
      rw [store, List.length_cons, block_cons, ih, hhead, get_put_self]

theorem block_sort (mem : Cells α) (pos count : ℕ) (le : α → α → Bool) :
    (mem.sort pos count le).block pos count = (mem.block pos count).mergeSort le := by
  have hstore := block_store mem pos ((mem.block pos count).mergeSort le)
  rwa [List.length_mergeSort, length_block] at hstore

theorem sameOutside_sort (mem : Cells α) (pos count : ℕ) (le : α → α → Bool) :
    SameOutside pos count mem (mem.sort pos count le) := by
  have hstore := sameOutside_store mem pos ((mem.block pos count).mergeSort le)
  rwa [List.length_mergeSort, length_block] at hstore

/-! ## Writes below a limit -/

/-- Between the two memories only cells below `limit` were written. -/
structure WritesBelow (limit : ℕ) (mem mem' : Cells α) : Prop where
  log : ∃ more, mem'.written = more ++ mem.written ∧ ∀ k ∈ more, k < limit
  same : ∀ k, limit ≤ k → mem'.get k = mem.get k

theorem WritesBelow.refl (limit : ℕ) (mem : Cells α) : WritesBelow limit mem mem :=
  ⟨⟨[], rfl, by simp⟩, fun _ _ => rfl⟩

theorem WritesBelow.trans {limit : ℕ} (hfirst : WritesBelow limit mem mem')
    (hnext : WritesBelow limit mem' mem'') : WritesBelow limit mem mem'' := by
  obtain ⟨⟨more, hmore, hbelow⟩, hsame⟩ := hfirst
  obtain ⟨⟨more', hmore', hbelow'⟩, hsame'⟩ := hnext
  refine ⟨⟨more' ++ more, ?_, ?_⟩, fun k hk => (hsame' k hk).trans (hsame k hk)⟩
  · rw [hmore', hmore, List.append_assoc]
  · exact fun k hk => (List.mem_append.mp hk).elim (hbelow' k) (hbelow k)

theorem writesBelow_insertAt (mem : Cells α) {pos count limit : ℕ} (x : α)
    (hlt : pos + count < limit) : WritesBelow limit mem (mem.insertAt pos count x) where
  log := by
    refine ⟨pos :: List.range' (pos + 1) count, rfl, ?_⟩
    intro k hk
    rcases List.mem_cons.mp hk with rfl | hmoved
    · exact Nat.lt_of_le_of_lt (Nat.le_add_right _ _) hlt
    · have hend := (List.mem_range'_1.mp hmoved).2
      omega
  same k hk := by
    change (if k = pos then x else if pos + 1 ≤ k ∧ k < pos + 1 + count then _ else mem.get k) = _
    rw [if_neg (by omega), if_neg (by omega)]

end Cells
