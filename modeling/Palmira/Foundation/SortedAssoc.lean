import Mathlib.Data.List.Pairwise
import Mathlib.Order.Lattice

/-!
# Finite maps in normal form

A finite map is kept as its association list in strictly increasing key order.
Each map has one such list, so equality of lists is equality of maps, and the
order in which pairs were put in leaves no trace.
-/

namespace SortedAssoc

variable {κ α β : Type*} [LinearOrder κ]

/-- The normal form: keys strictly increase along the list. -/
def Sorted (l : List (κ × α)) : Prop := l.Pairwise (fun a b => a.1 < b.1)

/-- The value stored under a key. -/
def get? : List (κ × α) → κ → Option α
  | [], _ => none
  | (k, v) :: rest, key => if key = k then some v else get? rest key

/-- Store a value under a key, replacing an earlier one. -/
def put : List (κ × α) → κ → α → List (κ × α)
  | [], key, val => [(key, val)]
  | (k, v) :: rest, key, val =>
      if key < k then (key, val) :: (k, v) :: rest
      else if key = k then (key, val) :: rest
      else (k, v) :: put rest key val

@[simp] theorem get?_put_self (l : List (κ × α)) (key : κ) (val : α) :
    get? (put l key val) key = some val := by
  induction l with
  | nil => simp [put, get?]
  | cons head rest ih =>
      obtain ⟨k, v⟩ := head
      unfold put
      split
      · simp [get?]
      · split
        next heq => simp [get?]
        next hne => simp [get?, hne, ih]

@[simp] theorem get?_put_of_ne (l : List (κ × α)) {key other : κ} (val : α)
    (hne : other ≠ key) : get? (put l key val) other = get? l other := by
  induction l with
  | nil => simp [put, get?, hne]
  | cons head rest ih =>
      obtain ⟨k, v⟩ := head
      unfold put
      split
      · simp [get?, hne]
      · split
        next heq => subst heq; simp [get?, hne]
        next => simp [get?, ih]

theorem mem_of_get? {l : List (κ × α)} {key : κ} {val : α} (hget : get? l key = some val) :
    (key, val) ∈ l := by
  induction l with
  | nil => cases hget
  | cons head rest ih =>
      obtain ⟨k, v⟩ := head
      rw [get?] at hget
      split at hget
      next heq =>
        cases hget
        rw [heq]
        exact List.mem_cons_self
      next => exact List.mem_cons_of_mem _ (ih hget)

theorem sorted_cons {k : κ} {v : α} {rest : List (κ × α)} :
    Sorted ((k, v) :: rest) ↔ (∀ pair ∈ rest, k < pair.1) ∧ Sorted rest :=
  List.pairwise_cons

/-- A key above every stored key lands at the end. -/
theorem put_of_forall_lt {l : List (κ × α)} {key : κ} (val : α)
    (hbelow : ∀ pair ∈ l, pair.1 < key) : put l key val = l ++ [(key, val)] := by
  induction l with
  | nil => rfl
  | cons head rest ih =>
      obtain ⟨k, v⟩ := head
      have hlt : k < key := hbelow (k, v) List.mem_cons_self
      have htail := ih (fun pair hpair => hbelow pair (List.mem_cons_of_mem _ hpair))
      simp [put, hlt.le, hlt.ne', htail]

theorem mem_put {l : List (κ × α)} {key : κ} {val : α} {pair : κ × α}
    (hmem : pair ∈ put l key val) : pair = (key, val) ∨ pair ∈ l := by
  induction l with
  | nil => exact .inl (List.mem_singleton.mp hmem)
  | cons head rest ih =>
      obtain ⟨k, v⟩ := head
      unfold put at hmem
      split at hmem
      · exact List.mem_cons.mp hmem
      split at hmem
      · exact (List.mem_cons.mp hmem).imp_right (List.mem_cons_of_mem _)
      · rcases List.mem_cons.mp hmem with hhead | hrest
        · exact .inr (List.mem_cons.mpr (.inl hhead))
        · exact (ih hrest).imp_right (List.mem_cons_of_mem _)

/-- Storing keeps the normal form. -/
theorem Sorted.put {l : List (κ × α)} (hsorted : Sorted l) (key : κ) (val : α) :
    Sorted (SortedAssoc.put l key val) := by
  induction l with
  | nil => exact List.pairwise_singleton _ _
  | cons head rest ih =>
      obtain ⟨k, v⟩ := head
      obtain ⟨hhead, hrest⟩ := sorted_cons.mp hsorted
      unfold SortedAssoc.put
      split
      next hlt =>
        refine sorted_cons.mpr ⟨fun pair hpair => ?_, hsorted⟩
        rcases List.mem_cons.mp hpair with rfl | hpair
        · exact hlt
        · exact hlt.trans (hhead pair hpair)
      next hge =>
        split
        next heq =>
          subst heq
          exact sorted_cons.mpr ⟨hhead, hrest⟩
        next hne =>
          -- the key is above the head, and so is everything behind the head
          have hlt : k < key := lt_of_le_of_ne (not_lt.mp hge) (Ne.symm hne)
          refine sorted_cons.mpr ⟨fun pair hpair => ?_, ih hrest⟩
          rcases mem_put hpair with rfl | hpair
          · exact hlt
          · exact hhead pair hpair

end SortedAssoc
