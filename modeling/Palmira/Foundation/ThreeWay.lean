import Mathlib.Algebra.Order.Ring.Int
import Mathlib.Data.Set.Basic

/-!
# Three-way comparers

A comparer answers a number below, at or above zero. It can be sorted by when it
is antisymmetric and transitive. One comparer can break the ties of another, and
the difference of two numbers modulo `m`, taken as a signed number, orders them
as long as they lie in a window of less than half the modulus.
-/

namespace ThreeWay

variable {α : Type*}

/-- The comparer is a three-way preorder of these elements. -/
structure Orders (cmp : α → α → ℤ) (s : Set α) : Prop where
  antisymm : ∀ a ∈ s, ∀ b ∈ s, (cmp a b).sign = -(cmp b a).sign
  trans : ∀ a ∈ s, ∀ b ∈ s, ∀ c ∈ s, cmp a b ≤ 0 → cmp b c ≤ 0 → cmp a c ≤ 0

theorem sign_eq_neg_sign_iff (x y : ℤ) : x.sign = -y.sign ↔ (x ≤ 0 ↔ 0 ≤ y) ∧ (y ≤ 0 ↔ 0 ≤ x) := by
  rcases lt_trichotomy x 0 with hx | rfl | hx <;> rcases lt_trichotomy y 0 with hy | rfl | hy <;>
    simp [Int.sign_eq_one_of_pos, Int.sign_eq_neg_one_of_neg, *] <;> omega

namespace Orders

variable {cmp : α → α → ℤ} {s : Set α} {a b c : α}

theorem subset (horders : Orders cmp s) {t : Set α} (hsub : t ⊆ s) : Orders cmp t where
  antisymm a ha b hb := horders.antisymm a (hsub ha) b (hsub hb)
  trans a ha b hb c hc := horders.trans a (hsub ha) b (hsub hb) c (hsub hc)

theorem nonneg_iff (horders : Orders cmp s) (ha : a ∈ s) (hb : b ∈ s) :
    0 ≤ cmp a b ↔ cmp b a ≤ 0 :=
  ((sign_eq_neg_sign_iff _ _).mp (horders.antisymm b hb a ha)).1.symm

theorem le_total (horders : Orders cmp s) (ha : a ∈ s) (hb : b ∈ s) :
    cmp a b ≤ 0 ∨ cmp b a ≤ 0 := by
  have hiff := horders.nonneg_iff ha hb
  omega

theorem tie_self (horders : Orders cmp s) (ha : a ∈ s) : cmp a a = 0 := by
  have hiff := horders.nonneg_iff ha ha
  omega

theorem tie_symm (horders : Orders cmp s) (ha : a ∈ s) (hb : b ∈ s) (htie : cmp a b = 0) :
    cmp b a = 0 := by
  have hiff := horders.nonneg_iff ha hb
  have hiff' := horders.nonneg_iff hb ha
  omega

theorem tie_trans (horders : Orders cmp s) (ha : a ∈ s) (hb : b ∈ s) (hc : c ∈ s)
    (hab : cmp a b = 0) (hbc : cmp b c = 0) : cmp a c = 0 := by
  have hle := horders.trans a ha b hb c hc hab.le hbc.le
  have hge := horders.trans c hc b hb a ha (horders.tie_symm hb hc hbc).le
    (horders.tie_symm ha hb hab).le
  have hiff := horders.nonneg_iff ha hc
  omega

/-- Among three elements one comes first. -/
theorem exists_least (horders : Orders cmp s) (ha : a ∈ s) (hb : b ∈ s) (hc : c ∈ s) :
    ∃ m ∈ s, cmp m a ≤ 0 ∧ cmp m b ≤ 0 ∧ cmp m c ≤ 0 := by
  obtain ⟨m, hm, hma, hmb⟩ : ∃ m ∈ s, cmp m a ≤ 0 ∧ cmp m b ≤ 0 := by
    rcases horders.le_total ha hb with hle | hle
    · exact ⟨a, ha, (horders.tie_self ha).le, hle⟩
    · exact ⟨b, hb, hle, (horders.tie_self hb).le⟩
  rcases horders.le_total hm hc with hle | hle
  · exact ⟨m, hm, hma, hmb, hle⟩
  · exact ⟨c, hc, horders.trans c hc m hm a ha hle hma, horders.trans c hc m hm b hb hle hmb,
      (horders.tie_self hc).le⟩

end Orders

/-! ## Breaking ties -/

/-- The first comparer decides; the second one breaks its ties. -/
def thenBy (first second : α → α → ℤ) (a b : α) : ℤ :=
  if first a b ≠ 0 then first a b else second a b

section ThenBy

variable {first second : α → α → ℤ} {s : Set α}

theorem thenBy_of_tie {a b : α} (htie : first a b = 0) : thenBy first second a b = second a b :=
  if_neg (not_not.mpr htie)

theorem thenBy_of_ne {a b : α} (hne : first a b ≠ 0) : thenBy first second a b = first a b :=
  if_pos hne

theorem first_le_of_thenBy_le {a b : α} (hle : thenBy first second a b ≤ 0) : first a b ≤ 0 := by
  by_cases htie : first a b = 0
  · exact htie.le
  · exact thenBy_of_ne htie ▸ hle

/-- The combined comparer orders the elements exactly when the second one orders every class of
elements that the first one ties. -/
theorem thenBy_orders_iff (hfirst : Orders first s) :
    Orders (thenBy first second) s ↔
      ∀ a ∈ s, Orders second {b | b ∈ s ∧ first a b = 0} := by
  constructor
  · intro horders a ha
    have htie : ∀ b ∈ s, first a b = 0 → ∀ c ∈ s, first a c = 0 → first b c = 0 :=
      fun b hb hab c hc hac => hfirst.tie_trans hb ha hc (hfirst.tie_symm ha hb hab) hac
    constructor
    · intro b ⟨hb, hab⟩ c ⟨hc, hac⟩
      have hsign := horders.antisymm b hb c hc
      rwa [thenBy_of_tie (htie b hb hab c hc hac), thenBy_of_tie (htie c hc hac b hb hab)] at hsign
    · intro b ⟨hb, hab⟩ c ⟨hc, hac⟩ d ⟨hd, had⟩
      have htrans := horders.trans b hb c hc d hd
      rwa [thenBy_of_tie (htie b hb hab c hc hac), thenBy_of_tie (htie c hc hac d hd had),
        thenBy_of_tie (htie b hb hab d hd had)] at htrans
  · intro hclasses
    constructor
    · intro a ha b hb
      by_cases htie : first a b = 0
      · rw [thenBy_of_tie htie, thenBy_of_tie (hfirst.tie_symm ha hb htie)]
        exact (hclasses a ha).antisymm a ⟨ha, hfirst.tie_self ha⟩ b ⟨hb, htie⟩
      · rw [thenBy_of_ne htie, thenBy_of_ne (fun h => htie (hfirst.tie_symm hb ha h))]
        exact hfirst.antisymm a ha b hb
    · intro a ha b hb c hc hab hbc
      have hab' := first_le_of_thenBy_le hab
      have hbc' := first_le_of_thenBy_le hbc
      have hac' := hfirst.trans a ha b hb c hc hab' hbc'
      by_cases htie : first a c = 0
      · -- a tie of the ends ties all three
        have hca := (hfirst.tie_symm ha hc htie).le
        have htie_ab : first a b = 0 := by
          have hba := hfirst.trans b hb c hc a ha hbc' hca
          exact le_antisymm hab' ((hfirst.nonneg_iff ha hb).mpr hba)
        have htie_bc : first b c = 0 := by
          have hcb := hfirst.trans c hc a ha b hb hca hab'
          exact le_antisymm hbc' ((hfirst.nonneg_iff hb hc).mpr hcb)
        rw [thenBy_of_tie htie_ab] at hab
        rw [thenBy_of_tie htie_bc] at hbc
        rw [thenBy_of_tie htie]
        exact (hclasses a ha).trans a ⟨ha, hfirst.tie_self ha⟩ b ⟨hb, htie_ab⟩ c ⟨hc, htie⟩ hab hbc
      · rwa [thenBy_of_ne htie]

end ThenBy

/-! ## Differences modulo `m` -/

/-- The signed difference modulo `m`. -/
def serial (m : ℕ) (x y : ℤ) : ℤ := (x - y).bmod m

/-- Counted from some base, all three lie in the lower half of the modulus. -/
def InWindow (m : ℕ) (x y z : ℤ) : Prop :=
  ∃ base, 2 * ((x - base) % m) < m ∧ 2 * ((y - base) % m) < m ∧ 2 * ((z - base) % m) < m

section Serial

variable {m : ℕ}

theorem serial_nonneg_iff (hm : 0 < m) (x base : ℤ) :
    0 ≤ serial m x base ↔ 2 * ((x - base) % m) < m := by
  have hnonneg := Int.emod_nonneg (x - base) (by omega : (m : ℤ) ≠ 0)
  have hlt := Int.emod_lt_of_pos (x - base) (by omega : (0 : ℤ) < m)
  rw [serial, Int.bmod_eq_emod]
  split <;> omega

/-- Within a window the signed difference is that of the distances from its base. -/
theorem serial_eq_of_window (hm : 0 < m) {x y base : ℤ} (hx : 2 * ((x - base) % m) < m)
    (hy : 2 * ((y - base) % m) < m) :
    serial m x y = (x - base) % m - (y - base) % m := by
  have hxpos := Int.emod_nonneg (x - base) (by omega : (m : ℤ) ≠ 0)
  have hypos := Int.emod_nonneg (y - base) (by omega : (m : ℤ) ≠ 0)
  calc serial m x y
    _ = ((x - base) - (y - base)).bmod m := by rw [serial, sub_sub_sub_cancel_right]
    _ = ((x - base) % m - (y - base) % m).bmod m := by rw [Int.emod_sub_bmod, Int.sub_emod_bmod]
    _ = (x - base) % m - (y - base) % m := Int.bmod_eq_of_le_mul_two (by omega) (by omega)

/-- The signed difference orders numbers exactly when every three of them lie in a window. -/
theorem serial_orders_iff (hm : 0 < m) (f : α → ℤ) (s : Set α) :
    Orders (fun a b => serial m (f a) (f b)) s ↔
      ∀ a ∈ s, ∀ b ∈ s, ∀ c ∈ s, InWindow m (f a) (f b) (f c) := by
  constructor
  · intro horders a ha b hb c hc
    obtain ⟨least, hleast, hle⟩ := horders.exists_least ha hb hc
    refine ⟨f least, ?_, ?_, ?_⟩
    · exact (serial_nonneg_iff hm _ _).mp ((horders.nonneg_iff ha hleast).mpr hle.1)
    · exact (serial_nonneg_iff hm _ _).mp ((horders.nonneg_iff hb hleast).mpr hle.2.1)
    · exact (serial_nonneg_iff hm _ _).mp ((horders.nonneg_iff hc hleast).mpr hle.2.2)
  · intro hwindow
    constructor
    · intro a ha b hb
      obtain ⟨base, ha', hb', -⟩ := hwindow a ha b hb b hb
      simp only [serial_eq_of_window hm ha' hb', serial_eq_of_window hm hb' ha']
      rw [← Int.sign_neg, neg_sub]
    · intro a ha b hb c hc hab hbc
      obtain ⟨base, ha', hb', hc'⟩ := hwindow a ha b hb c hc
      simp only [serial_eq_of_window hm ha' hb', serial_eq_of_window hm hb' hc',
        serial_eq_of_window hm ha' hc'] at hab hbc ⊢
      omega

/-- Numbers below the modulus have a difference of zero only when they are equal. -/
theorem eq_of_serial_eq_zero {x y : ℤ} (hx : 0 ≤ x ∧ x < m) (hy : 0 ≤ y ∧ y < m)
    (hzero : serial m x y = 0) : x = y := by
  have hdvd : (m : ℤ) ∣ x - y := Int.dvd_of_bmod_eq_zero hzero
  have hdiff : x - y = 0 := Int.eq_zero_of_dvd_of_natAbs_lt_natAbs hdvd (by omega)
  exact sub_eq_zero.mp hdiff

end Serial

end ThreeWay
