import Mathlib.Data.List.Basic

/-!
# Copying inside an array

A block of an array is copied over another block of it. The result is that of
copying through a buffer; a language may leave a copy between blocks that overlap
without meaning, which the strict reading does.
-/

namespace BlockCopy

variable {α : Type*}

/-- The array with `count` elements from `src` on put at `dst`. -/
def blit (mem : List α) (dst src count : ℕ) : List α :=
  mem.take dst ++ (mem.drop src).take count ++ mem.drop (dst + count)

def Overlap (dst src count : ℕ) : Prop := 0 < count ∧ dst < src + count ∧ src < dst + count

instance (dst src count : ℕ) : Decidable (Overlap dst src count) :=
  inferInstanceAs (Decidable (_ ∧ _))

/-- Nothing stands for a copy without meaning. -/
def memcpy (strict : Bool) (mem : List α) (dst src count : ℕ) : Option (List α) :=
  if strict = true ∧ Overlap dst src count then none else some (blit mem dst src count)

theorem memcpy_eq_none {strict : Bool} {mem : List α} {dst src count : ℕ} :
    memcpy strict mem dst src count = none ↔ strict = true ∧ Overlap dst src count := by
  unfold memcpy
  split
  next hboth => exact iff_of_true rfl hboth
  next hnot => exact iff_of_false nofun hnot

theorem memcpy_eq_blit {strict : Bool} {mem : List α} {dst src count : ℕ}
    (hmeant : ¬ (strict = true ∧ Overlap dst src count)) :
    memcpy strict mem dst src count = some (blit mem dst src count) :=
  if_neg hmeant

/-- Onto itself a block is copied without a change. -/
theorem blit_self (mem : List α) (dst count : ℕ) : blit mem dst dst count = mem := by
  rw [blit, List.append_assoc, ← List.drop_drop, List.take_append_drop, List.take_append_drop]

/-- Moving the tail of an array down, over what stands before it. -/
theorem blit_tail (front middle tail : List α) :
    blit (front ++ middle ++ tail) front.length (front.length + middle.length) tail.length =
      front ++ tail ++ (front ++ middle ++ tail).drop (front.length + tail.length) := by
  have hfront : (front ++ middle ++ tail).take front.length = front := by
    rw [List.append_assoc, List.take_left]
  have htail : (front ++ middle ++ tail).drop (front.length + middle.length) = tail := by
    rw [← List.length_append, List.drop_left]
  rw [blit, hfront, htail, List.take_length]

end BlockCopy
