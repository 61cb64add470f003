import Mathlib.Data.List.Sort

/-!
# The first elements of a ranking

A bounded list that keeps the first `k` elements of a ranking while elements
arrive in any order. `IsTop` says what such a list holds without fixing its own
order; it determines the list up to that order, and it is closed under the two
ways elements arrive: one by one, and as the bounded list of another part.
-/

namespace TopList

open scoped List

variable {α : Type*}

/-- A strict total order given by its comparison. -/
structure StrictTotal (less : α → α → Bool) : Prop where
  irrefl : ∀ a, less a a = false
  trans : ∀ a b c, less a b = true → less b c = true → less a c = true
  total : ∀ a b, a ≠ b → less a b = true ∨ less b a = true

namespace StrictTotal

variable {less : α → α → Bool} (hless : StrictTotal less)

include hless

theorem asymm {a b : α} (hab : less a b = true) : less b a = false := by
  by_contra hba
  have haa := hless.trans a b a hab (Bool.eq_true_of_not_eq_false hba)
  rw [hless.irrefl a] at haa
  cases haa

theorem antisymm {a b : α} (hab : less a b = false) (hba : less b a = false) : a = b := by
  by_contra hne
  rcases hless.total a b hne with h | h
  · rw [h] at hab; cases hab
  · rw [h] at hba; cases hba

/-- Not being ranked before is transitive. -/
theorem not_less_trans {a b c : α} (hab : less a b = false) (hbc : less b c = false) :
    less a c = false := by
  by_contra hac
  have hlt : less a c = true := Bool.eq_true_of_not_eq_false hac
  by_cases heq : b = c
  · subst heq; rw [hlt] at hab; cases hab
  · rcases hless.total b c heq with h | h
    · rw [h] at hbc; cases hbc
    · rw [hless.trans a c b hlt h] at hab; cases hab

theorem less_of_not_less_of_less {a b c : α} (hba : less b a = false) (hbc : less b c = true) :
    less a c = true := by
  by_cases heq : a = b
  · exact heq ▸ hbc
  · rcases hless.total a b heq with h | h
    · exact hless.trans a b c h hbc
    · rw [h] at hba; cases hba

end StrictTotal

/-- The list in the order of the ranking. -/
def ranked (less : α → α → Bool) (l : List α) : List α := l.mergeSort (fun a b => !less b a)

/-- No element stands after one it is ranked before. -/
def Ranked (less : α → α → Bool) (l : List α) : Prop := l.Pairwise (fun a b => less b a = false)

/-- `top` holds the first `k` elements of `all`, in any order: what is left out is not ranked
before anything kept, and something is left out only when `top` is full. -/
def IsTop (less : α → α → Bool) (k : ℕ) (top all : List α) : Prop :=
  ∃ rest, all.Perm (top ++ rest) ∧ (∀ x ∈ top, ∀ y ∈ rest, less y x = false) ∧
    top.length ≤ k ∧ (rest ≠ [] → top.length = k)

variable {less : α → α → Bool} {k : ℕ}

theorem ranked_perm (l : List α) : (ranked less l).Perm l := List.mergeSort_perm l _

theorem ranked_sorted (hless : StrictTotal less) (l : List α) : Ranked less (ranked less l) := by
  have hsorted := @List.pairwise_mergeSort _ (fun a b => !less b a)
    (by
      intro a b c hab hbc
      simp only [Bool.not_eq_true'] at hab hbc ⊢
      exact hless.not_less_trans hbc hab)
    (by
      intro a b
      simp only [Bool.or_eq_true, Bool.not_eq_true']
      by_cases hba : less b a = true
      · exact .inr (hless.asymm hba)
      · exact .inl (Bool.eq_false_of_not_eq_true hba)) l
  exact hsorted.imp (fun h => by simpa using h)

/-- A set of distinct-ranked elements has one ranked list. -/
theorem Ranked.eq_of_perm (hless : StrictTotal less) {l l' : List α} (hl : Ranked less l)
    (hl' : Ranked less l') (hperm : l.Perm l') : l = l' :=
  hperm.eq_of_pairwise (fun _ _ _ _ hab hba => hless.antisymm hba hab) hl hl'

theorem ranked_eq_self (hless : StrictTotal less) {l : List α} (hl : Ranked less l) :
    ranked less l = l :=
  (ranked_sorted hless l).eq_of_perm hless hl (ranked_perm l)

theorem ranked_congr (hless : StrictTotal less) {l l' : List α} (hperm : l.Perm l') :
    ranked less l = ranked less l' :=
  (ranked_sorted hless l).eq_of_perm hless (ranked_sorted hless l')
    ((ranked_perm l).trans (hperm.trans (ranked_perm l').symm))

/-- Where what has a property stands before what has not, reading up to the first without it finds
all that have it. -/
theorem takeWhile_eq_filter {p : α → Bool} {l : List α}
    (hfirst : l.Pairwise (fun a b => p b = true → p a = true)) : l.takeWhile p = l.filter p := by
  induction l with
  | nil => rfl
  | cons a rest ih =>
      obtain ⟨ha, hrest⟩ := List.pairwise_cons.mp hfirst
      by_cases hp : p a = true
      · rw [List.takeWhile_cons_of_pos hp, List.filter_cons_of_pos hp, ih hrest]
      · have hnone : ∀ b ∈ rest, ¬ p b = true := fun b hmem hb => hp (ha b hmem hb)
        rw [List.takeWhile_cons_of_neg hp, List.filter_cons_of_neg hp,
          List.filter_eq_nil_iff.mpr hnone]

/-! ## Elements arriving one by one -/

theorem isTop_self {l : List α} (hlen : l.length ≤ k) : IsTop less k l l :=
  ⟨[], by simp, by simp, hlen, by simp⟩

theorem isTop_nil : IsTop less k [] [] := isTop_self (Nat.zero_le k)

theorem IsTop.perm {top top' all all' : List α} (htop : IsTop less k top all)
    (hkept : top.Perm top') (hall : all.Perm all') : IsTop less k top' all' := by
  obtain ⟨rest, hperm, hrank, hlen, hfull⟩ := htop
  refine ⟨rest, ?_, ?_, hkept.length_eq ▸ hlen, hkept.length_eq ▸ hfull⟩
  · exact hall.symm.trans (hperm.trans (hkept.append_right rest))
  · exact fun x hx y hy => hrank x (hkept.mem_iff.mpr hx) y hy

theorem IsTop.length_le {top all : List α} (htop : IsTop less k top all) : top.length ≤ k := by
  obtain ⟨_, _, _, hlen, _⟩ := htop
  exact hlen

theorem IsTop.length_eq {top all : List α} (htop : IsTop less k top all) :
    top.length = min k all.length := by
  obtain ⟨rest, hperm, _, hlen, hfull⟩ := htop
  have htotal : all.length = top.length + rest.length := by simpa using hperm.length_eq
  cases rest with
  | nil => simp only [List.length_nil] at htotal; omega
  | cons y ys =>
      have hk := hfull (List.cons_ne_nil _ _)
      simp only [List.length_cons] at htotal
      omega

theorem IsTop.subset {top all : List α} (htop : IsTop less k top all) {x : α} (hx : x ∈ top) :
    x ∈ all := by
  obtain ⟨rest, hperm, _, _, _⟩ := htop
  exact hperm.mem_iff.mpr (List.mem_append_left _ hx)

/-- While there is room, an arriving element is kept. -/
theorem IsTop.add {top all : List α} (htop : IsTop less k top all) (hroom : top.length < k)
    (x : α) : IsTop less k (x :: top) (x :: all) := by
  obtain ⟨rest, hperm, hrank, _, hfull⟩ := htop
  have hrest : rest = [] := by
    by_contra hne
    exact absurd (hfull hne) (by omega)
  subst hrest
  exact ⟨[], hperm.cons x, by simp, by rw [List.length_cons]; omega, by simp⟩

/-- An element ranked before nothing that is kept does not enter a full list. -/
theorem IsTop.skip {top all : List α} (htop : IsTop less k top all) (hfull : top.length = k)
    {x : α} (hworse : ∀ y ∈ top, less x y = false) : IsTop less k top (x :: all) := by
  obtain ⟨rest, hperm, hrank, hlen, _⟩ := htop
  refine ⟨x :: rest, (hperm.cons x).trans List.perm_middle.symm, ?_, hlen, fun _ => hfull⟩
  intro y hy z hz
  rcases List.mem_cons.mp hz with rfl | hz
  · exact hworse y hy
  · exact hrank y hy z hz

/-- An element no worse than the worst one kept takes its place in a full list. -/
theorem IsTop.replace (hless : StrictTotal less) {worst : α} {top all : List α}
    (htop : IsTop less k (worst :: top) all) (hfull : top.length + 1 = k)
    (hworst : ∀ y ∈ top, less worst y = false) {x : α} (hbetter : less worst x = false) :
    IsTop less k (x :: top) (x :: all) := by
  obtain ⟨rest, hperm, hrank, hlen, _⟩ := htop
  refine ⟨worst :: rest, ?_, ?_, by simpa using hlen, fun _ => by simpa using hfull⟩
  · exact (hperm.trans List.perm_middle.symm).cons x
  · intro y hy z hz
    rcases List.mem_cons.mp hy with rfl | hy <;> rcases List.mem_cons.mp hz with rfl | hz
    · exact hbetter
    · exact hless.not_less_trans (hrank worst List.mem_cons_self z hz) hbetter
    · exact hworst y hy
    · exact hrank y (List.mem_cons_of_mem _ hy) z hz

/-! ## A list of one part arriving as a whole -/

/-- What a part left out is not needed: `k` kept elements of that part are ranked before it. -/
theorem IsTop.absorb (hless : StrictTotal less) {top part more kept : List α}
    (hpart : IsTop less k top part) (hkept : IsTop less k kept (top ++ more)) :
    IsTop less k kept (part ++ more) := by
  obtain ⟨rest, hperm, hrank, _, hfull⟩ := hpart
  obtain ⟨out, hkperm, hkrank, hklen, hkfull⟩ := hkept
  refine ⟨out ++ rest, ?_, ?_, hklen, ?_⟩
  · calc part ++ more
        ~ (top ++ rest) ++ more := hperm.append_right more
      _ ~ (top ++ more) ++ rest := by
          rw [List.append_assoc, List.append_assoc]
          exact List.perm_append_comm.append_left top
      _ ~ (kept ++ out) ++ rest := hkperm.append_right rest
      _ ~ kept ++ (out ++ rest) := by rw [List.append_assoc]
  · intro x hx y hy
    rcases List.mem_append.mp hy with hout | hrest
    · exact hkrank x hx y hout
    · -- otherwise all `k` elements of `top` are ranked before `x`, and `kept` is too short
      by_contra hyx
      have hlt : less y x = true := Bool.eq_true_of_not_eq_false hyx
      have htop : ∀ z ∈ top, less z x = true := fun z hz =>
        hless.less_of_not_less_of_less (hrank z hz y hrest) hlt
      have hcount : top.countP (fun z => less z x) = k := by
        rw [List.countP_eq_length.mpr htop, hfull (List.ne_nil_of_mem hrest)]
      have hout : out.countP (fun z => less z x) = 0 :=
        List.countP_eq_zero.mpr (fun z hz => by simp [hkrank x hx z hz])
      have hsum := hkperm.countP_eq (fun z => less z x)
      simp only [List.countP_append, hcount, hout] at hsum
      have hle := List.countP_le_length (p := fun z => less z x) (l := kept)
      have hall := List.countP_eq_length.mp (show kept.countP (fun z => less z x) = kept.length by
        omega) x hx
      rw [hless.irrefl x] at hall
      cases hall
  · intro hne
    by_cases hout : out = []
    · subst hout
      have hk := hfull (by simpa using hne)
      have htotal := hkperm.length_eq
      simp only [List.length_append, List.length_nil] at htotal
      omega
    · exact hkfull hout

/-- The first elements of two parts are the first elements of their own first elements. -/
theorem IsTop.append (hless : StrictTotal less) {top top' part part' kept : List α}
    (hpart : IsTop less k top part) (hpart' : IsTop less k top' part')
    (hkept : IsTop less k kept (top ++ top')) : IsTop less k kept (part ++ part') := by
  have hleft := hpart.absorb hless hkept
  have hright := hpart'.absorb hless (hleft.perm (.refl _) List.perm_append_comm)
  exact hright.perm (.refl _) List.perm_append_comm

/-! ## The ranking determines the list -/

theorem IsTop.ranked_eq (hless : StrictTotal less) {top all : List α}
    (htop : IsTop less k top all) : ranked less top = (ranked less all).take k := by
  obtain ⟨rest, hperm, hrank, hlen, hfull⟩ := htop
  have hsorted : Ranked less (ranked less top ++ ranked less rest) := by
    refine List.pairwise_append.mpr ⟨ranked_sorted hless top, ranked_sorted hless rest, ?_⟩
    exact fun x hx y hy =>
      hrank x ((ranked_perm top).mem_iff.mp hx) y ((ranked_perm rest).mem_iff.mp hy)
  have hall : ranked less all = ranked less top ++ ranked less rest :=
    (ranked_sorted hless all).eq_of_perm hless hsorted ((ranked_perm all).trans
      (hperm.trans ((ranked_perm top).symm.append (ranked_perm rest).symm)))
  have hlength : (ranked less top).length = top.length := (ranked_perm top).length_eq
  rw [hall]
  cases rest with
  | nil =>
      have hnil : ranked less ([] : List α) = [] := (ranked_perm []).eq_nil
      rw [hnil, List.append_nil, List.take_of_length_le (by omega)]
  | cons y ys =>
      have hk := hfull (List.cons_ne_nil _ _)
      rw [List.take_append_of_le_length (by omega), List.take_of_length_le (by omega)]

theorem IsTop.unique (hless : StrictTotal less) {top top' all : List α}
    (htop : IsTop less k top all) (htop' : IsTop less k top' all) : top.Perm top' := by
  have heq : ranked less top = ranked less top' :=
    (htop.ranked_eq hless).trans (htop'.ranked_eq hless).symm
  exact (ranked_perm top).symm.trans (heq ▸ ranked_perm top')

/-! ## Placing an element into a ranked list -/

/-- The place of `x` in a ranked list, sought from `n` on: behind everything ranked before it. -/
def placeFrom (less : α → α → Bool) (n : ℕ) (x : α) (l : List α) : ℕ :=
  n + ((l.drop n).takeWhile (fun y => less y x)).length

theorem placeFrom_le (n : ℕ) (x : α) {l : List α} (hn : n ≤ l.length) :
    placeFrom less n x l ≤ l.length := by
  have hle : ((l.drop n).takeWhile (fun y => less y x)).length ≤ (l.drop n).length :=
    (List.takeWhile_sublist _).length_le
  rw [List.length_drop] at hle
  unfold placeFrom
  omega

theorem take_placeFrom (n : ℕ) (x : α) (l : List α) :
    l.take (placeFrom less n x l) = l.take n ++ (l.drop n).takeWhile (fun y => less y x) := by
  rw [placeFrom, List.take_add]
  congr 1
  exact (List.prefix_iff_eq_take.mp (List.takeWhile_prefix _)).symm

theorem drop_placeFrom (n : ℕ) (x : α) (l : List α) :
    l.drop (placeFrom less n x l) = (l.drop n).dropWhile (fun y => less y x) := by
  rw [placeFrom, ← List.drop_drop]
  generalize l.drop n = back
  calc back.drop (back.takeWhile (fun y => less y x)).length
    _ = (back.takeWhile (fun y => less y x) ++ back.dropWhile (fun y => less y x)).drop
          (back.takeWhile (fun y => less y x)).length := by rw [List.takeWhile_append_dropWhile]
    _ = back.dropWhile (fun y => less y x) := List.drop_left

/-- The last element of a list with something behind `p`, and the other ones. -/
theorem exists_last_of_drop {l : List α} {p : ℕ} (hne : l.drop p ≠ []) :
    ∃ last, l[l.length - 1]? = some last ∧ l ~ last :: (l.take p ++ (l.drop p).dropLast) := by
  have hl : l ≠ [] := by
    intro hnil
    rw [hnil, List.drop_nil] at hne
    exact hne rfl
  refine ⟨(l.drop p).getLast hne, ?_, ?_⟩
  · rw [← List.getLast?_eq_getElem?, List.getLast?_eq_some_getLast hl, ← List.getLast_drop hne]
  · calc l
      _ = l.take p ++ ((l.drop p).dropLast ++ [(l.drop p).getLast hne]) := by
          rw [List.dropLast_append_getLast hne, List.take_append_drop]
      _ ~ l.take p ++ ((l.drop p).getLast hne :: (l.drop p).dropLast) :=
          (List.perm_append_singleton _ _).append_left _
      _ ~ (l.drop p).getLast hne :: (l.take p ++ (l.drop p).dropLast) := List.perm_middle

/-- What stands before the place of `x` is not ranked behind it. -/
theorem not_less_of_mem_take (hless : StrictTotal less) {n : ℕ} {x : α} {l : List α}
    (hbefore : ∀ y ∈ l.take n, less x y = false) {y : α}
    (hy : y ∈ l.take (placeFrom less n x l)) : less x y = false := by
  rw [take_placeFrom] at hy
  rcases List.mem_append.mp hy with hy | hy
  · exact hbefore y hy
  · apply hless.asymm
    exact List.all_eq_true.mp List.all_takeWhile y hy

/-- What stands behind the place of `x` is not ranked before it. -/
theorem not_less_of_mem_drop (hless : StrictTotal less) {n : ℕ} {x : α} {l : List α}
    (hsorted : Ranked less l) {y : α} (hy : y ∈ l.drop (placeFrom less n x l)) :
    less y x = false := by
  have htail : Ranked less (l.drop (placeFrom less n x l)) :=
    hsorted.sublist (List.drop_sublist _ _)
  rw [drop_placeFrom] at hy htail
  cases hrest : (l.drop n).dropWhile (fun y => less y x) with
  | nil =>
      rw [hrest] at hy
      cases hy
  | cons first rest =>
      have hfirst : less first x = false := by
        have hhead := List.head?_dropWhile_not (fun y => less y x) (l.drop n)
        simpa [hrest] using hhead
      rw [hrest] at hy htail
      rcases List.mem_cons.mp hy with rfl | hy
      · exact hfirst
      · exact hless.not_less_trans ((List.pairwise_cons.mp htail).1 y hy) hfirst

section Place

variable (hless : StrictTotal less) {before after all : List α} {x : α}
  (hsorted : Ranked less (before ++ after)) (hbefore : ∀ y ∈ before, less x y = false)
  (hafter : ∀ y ∈ after, less y x = false)

include hsorted hbefore hafter

theorem Ranked.place : Ranked less (before ++ x :: after) := by
  obtain ⟨hfirst, hsecond, hcross⟩ := List.pairwise_append.mp hsorted
  refine List.pairwise_append.mpr ⟨hfirst, List.pairwise_cons.mpr ⟨hafter, hsecond⟩, ?_⟩
  intro y hy z hz
  rcases List.mem_cons.mp hz with rfl | hz
  · exact hbefore y hy
  · exact hcross y hy z hz

include hless

/-- In a full ranked list the element pushes out the last one. -/
theorem IsTop.place_full (htop : IsTop less k (before ++ after) all)
    (hfull : (before ++ after).length = k) (hne : after ≠ []) :
    IsTop less k (before ++ x :: after.dropLast) (x :: all) ∧
      Ranked less (before ++ x :: after.dropLast) := by
  have hsplit : before ++ after = (before ++ after.dropLast) ++ [after.getLast hne] := by
    rw [List.append_assoc, List.dropLast_append_getLast hne]
  have hlast : ∀ y ∈ before ++ after.dropLast, less (after.getLast hne) y = false := by
    intro y hy
    rw [hsplit] at hsorted
    exact (List.pairwise_append.mp hsorted).2.2 y hy _ (List.mem_singleton_self _)
  constructor
  · have hworst : IsTop less k (after.getLast hne :: (before ++ after.dropLast)) all :=
      htop.perm (hsplit ▸ List.perm_append_singleton _ _) (.refl all)
    have hlen : (before ++ after.dropLast).length + 1 = k := by
      rw [← hfull, congrArg List.length hsplit, ← List.length_concat, List.concat_eq_append]
    exact (hworst.replace hless hlen hlast (hafter _ (List.getLast_mem hne))).perm
      List.perm_middle.symm (.refl _)
  · refine Ranked.place (hsorted.sublist ?_) hbefore
      (fun y hy => hafter y (after.dropLast_sublist.subset hy))
    exact (List.dropLast_sublist after).append_left before

omit hless in
/-- While there is room the element is kept beside all others. -/
theorem IsTop.place (htop : IsTop less k (before ++ after) all)
    (hroom : (before ++ after).length < k) :
    IsTop less k (before ++ x :: after) (x :: all) ∧ Ranked less (before ++ x :: after) :=
  ⟨(htop.add hroom x).perm List.perm_middle.symm (.refl _), hsorted.place hbefore hafter⟩

end Place

/-- Elements ranked before nothing that is kept leave a full list as it is. -/
theorem IsTop.skip_all {top all : List α} (htop : IsTop less k top all) (hfull : top.length = k)
    (more : List α) (hworse : ∀ x ∈ more, ∀ y ∈ top, less x y = false) :
    IsTop less k top (more ++ all) := by
  induction more with
  | nil => exact htop
  | cons x rest ih =>
      exact (ih (fun z hz => hworse z (List.mem_cons_of_mem _ hz))).skip hfull
        (hworse x List.mem_cons_self)

end TopList
