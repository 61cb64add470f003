import Palmira.Collect.Documents
import Palmira.Foundation.ThreeWay

/-!
# The ranking comparers

Both comparers of the collector break a tie of weights by `d1 - d2`, a difference
of unsigned ids returned as `int`. The comparers order documents as long as the
ids of equally ranked ones lie close enough together.
-/

namespace Palmira.Collect

open ThreeWay

variable {W : Type}

/-- `DifferFn` -/
abbrev DifferFn (W : Type) := ℕ → W → ℕ → W → ℤ

namespace Documents

/-- `d1 - d2` of two `uint32_t`, returned as `int`. -/
def idDifference (d₁ d₂ : ℕ) : ℤ := ((d₁ : ℤ) - d₂).bmod (2 ^ 32)

/-- `WrapDifferFn`. The conditional turns `res` into an `unsigned` and the return makes it an `int`
again, which changes nothing. -/
def wrapDiffer (differ : DifferFn W) : DifferFn W := fun d₁ f₁ d₂ f₂ =>
  let res := differ d₁ f₁ d₂ f₂
  if res ≠ 0 then res else idDifference d₁ d₂

/-- `(f1 < f2) - (f1 > f2)`: the heavier document comes first. -/
def rangeDifference [LT W] [DecidableLT W] : DifferFn W := fun _ f₁ _ f₂ =>
  (if f₁ < f₂ then 1 else 0) - (if f₂ < f₁ then 1 else 0)

/-- `compareByRange`, the comparer of `Documents` without `SetOrder`. -/
def compareByRange [LT W] [DecidableLT W] : DifferFn W := wrapDiffer rangeDifference

end Documents

open Documents

/-- A comparer applied to two documents. -/
def DifferFn.on (cmp : DifferFn W) (a b : Entity W) : ℤ := cmp a.id a.weight b.id b.weight

/-- What `std::sort`, the scan for the worst and the merge take for granted. -/
structure RanksStrictly (cmp : DifferFn W) (docs : Set (Entity W)) : Prop where
  orders : Orders cmp.on docs
  zero : ∀ a ∈ docs, ∀ b ∈ docs, cmp.on a b = 0 → a.id = b.id

/-- From some id on, counted modulo `2 ^ 32`, all three ids come within `2 ^ 31`. -/
def IdsClose (a b c : Entity W) : Prop := InWindow (2 ^ 32) a.id b.id c.id

theorem wrapDiffer_on (differ : DifferFn W) :
    (wrapDiffer differ).on = thenBy differ.on (fun a b => serial (2 ^ 32) a.id b.id) := rfl

/-- A comparer with the tie-break ranks documents strictly exactly when the ids of any three that
the comparer ties are close. -/
theorem wrapDiffer_ranksStrictly_iff {differ : DifferFn W} {docs : Set (Entity W)}
    (hids : ∀ e ∈ docs, e.id < 2 ^ 32) (hdiffer : Orders differ.on docs) :
    RanksStrictly (wrapDiffer differ) docs ↔
      ∀ a ∈ docs, ∀ b ∈ docs, ∀ c ∈ docs, differ.on a b = 0 → differ.on b c = 0 →
        IdsClose a b c := by
  have hzero : ∀ a ∈ docs, ∀ b ∈ docs, (wrapDiffer differ).on a b = 0 → a.id = b.id := by
    intro a ha b hb hcmp
    rw [wrapDiffer_on] at hcmp
    by_cases htie : differ.on a b = 0
    · rw [thenBy_of_tie htie] at hcmp
      have hlt := hids a ha
      have hlt' := hids b hb
      exact Int.ofNat_inj.mp (eq_of_serial_eq_zero (by omega) (by omega) hcmp)
    · rw [thenBy_of_ne htie] at hcmp
      exact absurd hcmp htie
  -- the tie-break orders the documents when it orders each class of documents the comparer ties
  have horders : Orders (wrapDiffer differ).on docs ↔
      ∀ a ∈ docs, ∀ b ∈ {b | b ∈ docs ∧ differ.on a b = 0},
        ∀ c ∈ {b | b ∈ docs ∧ differ.on a b = 0}, ∀ d ∈ {b | b ∈ docs ∧ differ.on a b = 0},
          IdsClose b c d := by
    rw [wrapDiffer_on, thenBy_orders_iff hdiffer]
    exact forall₂_congr fun a _ =>
      serial_orders_iff (Nat.two_pow_pos 32) (fun e : Entity W => (e.id : ℤ)) _
  constructor
  · intro hranks a ha b hb c hc hab hbc
    exact horders.mp hranks.orders a ha a ⟨ha, hdiffer.tie_self ha⟩ b ⟨hb, hab⟩ c
      ⟨hc, hdiffer.tie_trans ha hb hc hab hbc⟩
  · intro hclose
    refine ⟨horders.mpr ?_, hzero⟩
    intro a ha b ⟨hb, hab⟩ c ⟨hc, hac⟩ d ⟨hd, had⟩
    have hbc := hdiffer.tie_trans hb ha hc (hdiffer.tie_symm ha hb hab) hac
    have hcd := hdiffer.tie_trans hc ha hd (hdiffer.tie_symm ha hc hac) had
    exact hclose b hb c hc d hd hbc hcd

section Range

variable [LinearOrder W]

theorem rangeDifference_le_iff (a b : Entity W) :
    DifferFn.on rangeDifference a b ≤ 0 ↔ b.weight ≤ a.weight := by
  rcases lt_trichotomy a.weight b.weight with hlt | heq | hgt
  · simp [DifferFn.on, rangeDifference, hlt, hlt.not_gt]
  · simp [DifferFn.on, rangeDifference, heq]
  · simp [DifferFn.on, rangeDifference, hgt, hgt.not_gt, hgt.le]

theorem rangeDifference_eq_zero_iff (a b : Entity W) :
    DifferFn.on rangeDifference a b = 0 ↔ a.weight = b.weight := by
  rcases lt_trichotomy a.weight b.weight with hlt | heq | hgt
  · simp [DifferFn.on, rangeDifference, hlt, hlt.not_gt, hlt.ne]
  · simp [DifferFn.on, rangeDifference, heq]
  · simp [DifferFn.on, rangeDifference, hgt, hgt.not_gt, hgt.ne']

theorem rangeDifference_orders (docs : Set (Entity W)) :
    Orders (DifferFn.on rangeDifference) docs where
  antisymm a _ b _ := by
    have hneg : DifferFn.on rangeDifference a b = -DifferFn.on rangeDifference b a := by
      simp only [DifferFn.on, rangeDifference, neg_sub]
    rw [hneg, Int.sign_neg]
  trans a _ b _ c _ hab hbc := by
    rw [rangeDifference_le_iff] at *
    exact hbc.trans hab

/-- The comparers are strict orders of the documents exactly when the ids of any three equally
ranked ones are close: `compareByRange`, and the tie-break around any comparer that is itself a
three-way preorder. -/
theorem comparers_rank_iff (docs : Set (Entity W)) (hids : ∀ e ∈ docs, e.id < 2 ^ 32) :
    (RanksStrictly compareByRange docs ↔
      ∀ a ∈ docs, ∀ b ∈ docs, ∀ c ∈ docs, a.weight = b.weight → b.weight = c.weight →
        IdsClose a b c) ∧
    ∀ differ : DifferFn W, Orders differ.on docs →
      (RanksStrictly (wrapDiffer differ) docs ↔
        ∀ a ∈ docs, ∀ b ∈ docs, ∀ c ∈ docs, differ.on a b = 0 → differ.on b c = 0 →
          IdsClose a b c) := by
  refine ⟨?_, fun differ hdiffer => wrapDiffer_ranksStrictly_iff hids hdiffer⟩
  have hrange := wrapDiffer_ranksStrictly_iff hids (rangeDifference_orders docs)
  simp only [rangeDifference_eq_zero_iff] at hrange
  exact hrange

end Range

/-- Two documents of one weight whose ids are `2 ^ 31` apart. -/
def farDocs : Set (Entity ℕ) := {⟨1, 5⟩, ⟨0x80000001, 5⟩}

theorem farDocs_ids : ∀ e ∈ farDocs, e.id < 2 ^ 32 := by
  rintro e (rfl | rfl) <;> decide

theorem comparers_rank_iff_farDocs :
    (RanksStrictly compareByRange farDocs ↔
      ∀ a ∈ farDocs, ∀ b ∈ farDocs, ∀ c ∈ farDocs, a.weight = b.weight → b.weight = c.weight →
        IdsClose a b c) ∧
    (RanksStrictly (wrapDiffer rangeDifference) farDocs ↔
      ∀ a ∈ farDocs, ∀ b ∈ farDocs, ∀ c ∈ farDocs, DifferFn.on rangeDifference a b = 0 →
        DifferFn.on rangeDifference b c = 0 → IdsClose a b c) :=
  ⟨(comparers_rank_iff farDocs farDocs_ids).1,
    (comparers_rank_iff farDocs farDocs_ids).2 rangeDifference (rangeDifference_orders farDocs)⟩

/-- Each of the two comes before the other. -/
theorem farDocs_not_ranked : ¬ RanksStrictly compareByRange farDocs := by
  intro hranks
  have hsign := hranks.orders.antisymm ⟨1, 5⟩ (.inl rfl) ⟨0x80000001, 5⟩ (.inr rfl)
  exact absurd hsign (by decide)

end Palmira.Collect
