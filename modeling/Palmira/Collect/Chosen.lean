import Palmira.Collect.Quotes
import Palmira.Foundation.Binary

/-!
# The entries a copy keeps

`CopyAbstract` keeps four entries at most, none lighter than one it leaves out,
and shares the room for positions among them in their order. The positions of the
copy are ranges of one array that lie one behind the other.
-/

namespace Palmira.Collect

open scoped List

variable {W : Type}

/-! ## The array of positions -/

/-- The last loop of `CopyAbstract` with its pointers: `posptr` is the end of what is written to
the array so far, and the spread of an entry is the range written for it. -/
def layPositions (posend : ℕ) :
    List EntryPos → List (EntrySet W) → List EntryPos × List (ℕ × ℕ)
  | array, [] => (array, [])
  | array, entry :: rest =>
      let taken := entry.spread.take (posend - array.length)
      let array' := array ++ taken.mergeSort (fun p q => decide (p.offset ≤ q.offset))
      let (final, ranges) := layPositions posend array' rest
      (final, (array.length, array'.length) :: ranges)

/-- What a range of the array holds. -/
def slice (array : List EntryPos) (range : ℕ × ℕ) : List EntryPos :=
  (array.take range.2).drop range.1

/-- The ranges lie one behind the other from `start` to `stop`. -/
def Adjacent : ℕ → List (ℕ × ℕ) → ℕ → Prop
  | start, [], stop => start = stop
  | start, (pbeg, pend) :: rest, stop => pbeg = start ∧ pbeg ≤ pend ∧ Adjacent pend rest stop

theorem Adjacent.le {start stop : ℕ} {ranges : List (ℕ × ℕ)}
    (hadjacent : Adjacent start ranges stop) : start ≤ stop := by
  induction ranges generalizing start with
  | nil => exact Nat.le_of_eq hadjacent
  | cons range rest ih =>
      obtain ⟨rfl, hle, hrest⟩ := hadjacent
      exact hle.trans (ih hrest)

/-- The array grows at its end only and stays within the room. -/
theorem layPositions_grows (posend : ℕ) (array : List EntryPos) (entries : List (EntrySet W))
    (hroom : array.length ≤ posend) :
    array <+: (layPositions posend array entries).1 ∧
      (layPositions posend array entries).1.length ≤ posend ∧
      Adjacent array.length (layPositions posend array entries).2
        (layPositions posend array entries).1.length := by
  induction entries generalizing array with
  | nil => exact ⟨List.prefix_refl array, hroom, rfl⟩
  | cons entry rest ih =>
      have hlength : (array ++ (entry.spread.take (posend - array.length)).mergeSort
          (fun p q => decide (p.offset ≤ q.offset))).length ≤ posend := by
        rw [List.length_append, List.length_mergeSort, List.length_take]
        omega
      obtain ⟨hfront, hle, hadjacent⟩ := ih _ hlength
      refine ⟨(List.prefix_append _ _).trans hfront, hle, rfl, ?_, hadjacent⟩
      rw [List.length_append]
      exact Nat.le_add_right _ _

/-- Read through the ranges, the array holds what `copySpreads` gives the entries. -/
theorem layPositions_slices (posend : ℕ) (array : List EntryPos) (entries : List (EntrySet W))
    (hroom : array.length ≤ posend) :
    (layPositions posend array entries).2.map (slice (layPositions posend array entries).1) =
      (copySpreads (posend - array.length) entries).map EntrySet.spread := by
  induction entries generalizing array with
  | nil => rfl
  | cons entry rest ih =>
      let taken := entry.spread.take (posend - array.length)
      let array' := array ++ taken.mergeSort (fun p q => decide (p.offset ≤ q.offset))
      have hlength : array'.length = array.length + taken.length := by
        rw [List.length_append, List.length_mergeSort]
      have htaken : taken.length ≤ posend - array.length := List.length_take_le _ _
      obtain ⟨⟨more, hmore⟩, -, -⟩ := layPositions_grows posend array' rest (by omega)
      have hrest := ih array' (by omega)
      rw [hlength, ← Nat.sub_sub] at hrest
      simp only [layPositions, copySpreads, List.map_cons]
      refine List.cons_eq_cons.mpr ⟨?_, hrest⟩
      -- the range written for this entry is not touched any more
      change slice (layPositions posend array' rest).1 (array.length, array'.length) = _
      rw [slice, ← hmore, List.take_left, List.drop_left]

/-! ## The choice -/

/-- An entry takes the place of another, which is left over. -/
theorem cons_perm_cons_set {chosen : List (EntrySet W)} {worst : ℕ} {held : EntrySet W}
    (hheld : chosen[worst]? = some held) (entry : EntrySet W) :
    entry :: chosen ~ held :: chosen.set worst entry := by
  obtain ⟨hlt, hget⟩ := List.getElem?_eq_some_iff.mp hheld
  have hout : chosen ~ held :: chosen.eraseIdx worst :=
    hget ▸ (List.getElem_cons_eraseIdx_perm hlt).symm
  calc entry :: chosen
    _ ~ entry :: held :: chosen.eraseIdx worst := hout.cons _
    _ ~ held :: entry :: chosen.eraseIdx worst := .swap _ _ _
    _ ~ held :: chosen.set worst entry := (List.set_perm_cons_eraseIdx hlt entry).symm.cons _

section Choose

variable [LT W] [DecidableLT W]

/-- The second loop drops entries, the ones it replaces among them, and loses no other. -/
theorem replaceLighter_perm (src chosen : List (EntrySet W)) (worst : ℕ) :
    ∃ left, chosen ++ src ~ replaceLighter src chosen worst ++ left := by
  induction src generalizing chosen worst with
  | nil => exact ⟨[], .refl _⟩
  | cons entry rest ih =>
      unfold replaceLighter
      split
      next held hheld =>
        split
        next =>
          obtain ⟨left, hleft⟩ := ih (chosen.set worst entry)
            (findLightest (chosen.set worst entry) worst)
          refine ⟨held :: left, ?_⟩
          calc chosen ++ entry :: rest
            _ ~ entry :: chosen ++ rest := List.perm_middle
            _ ~ held :: chosen.set worst entry ++ rest :=
                (cons_perm_cons_set hheld entry).append_right rest
            _ ~ held :: (replaceLighter rest _ _ ++ left) := hleft.cons _
            _ ~ replaceLighter rest _ _ ++ held :: left := List.perm_middle.symm
        next =>
          obtain ⟨left, hleft⟩ := ih chosen worst
          exact ⟨entry :: left, (List.perm_middle.trans (hleft.cons _)).trans
            List.perm_middle.symm⟩
      next => exact ⟨entry :: rest, .refl _⟩

theorem chooseEntries_perm (entries : List (EntrySet W)) :
    ∃ left, entries ~ chooseEntries entries ++ left := by
  obtain ⟨worst, hfill⟩ := fillEntries_eq maxEntrySetCount entries [] 0
  obtain ⟨left, hleft⟩ := replaceLighter_perm (entries.drop maxEntrySetCount)
    (entries.take maxEntrySetCount) worst
  rw [List.take_append_drop] at hleft
  exact ⟨left, by simpa [chooseEntries, hfill] using hleft⟩

/-- What the comparison of weights is relied on for, among weights that are known to compare. -/
structure Compares (known : W → Prop) : Prop where
  asymm : ∀ {a b : W}, a < b → ¬ b < a
  not_trans : ∀ {a b c : W}, known b → ¬ a < b → ¬ b < c → ¬ a < c

/-- No chosen entry is lighter than the one in this slot. -/
def Lightest (chosen : List (EntrySet W)) (worst : ℕ) : Prop :=
  ∃ held, chosen[worst]? = some held ∧ ∀ entry ∈ chosen, ¬ entry.weight < held.weight

theorem lighter_eq_true_iff {chosen : List (EntrySet W)} {p worst : ℕ} {a b : EntrySet W}
    (ha : chosen[p]? = some a) (hb : chosen[worst]? = some b) :
    lighter chosen p worst = true ↔ a.weight < b.weight := by
  simp [lighter, ha, hb]

section Known

variable {known : W → Prop} (hcompares : Compares known) {chosen : List (EntrySet W)} {worst : ℕ}

include hcompares

/-- Up to slot `p` the scan has found an entry that no other is lighter than. -/
theorem findLightest_scan (hknown : ∀ entry ∈ chosen, known entry.weight) {start : EntrySet W}
    (hstart : chosen[worst]? = some start) (p : ℕ) (hp : p ≤ chosen.length) :
    ∃ held, chosen[(List.range p).foldl
        (fun w q => if lighter chosen q w then q else w) worst]? = some held ∧
      ∀ q < p, ∀ entry, chosen[q]? = some entry → ¬ entry.weight < held.weight := by
  induction p with
  | zero => exact ⟨start, hstart, fun q hq => absurd hq (Nat.not_lt_zero q)⟩
  | succ p ih =>
      obtain ⟨held, hheld, hleast⟩ := ih (Nat.le_of_succ_le hp)
      obtain ⟨next, hnext⟩ : ∃ next, chosen[p]? = some next :=
        ⟨chosen[p], List.getElem?_eq_getElem hp⟩
      rw [List.range_succ, List.foldl_append, List.foldl_cons, List.foldl_nil]
      by_cases hlighter : next.weight < held.weight
      · rw [if_pos ((lighter_eq_true_iff hnext hheld).mpr hlighter)]
        refine ⟨next, hnext, fun q hq entry hentry => ?_⟩
        rcases Nat.lt_succ_iff_lt_or_eq.mp hq with hlt | rfl
        · exact hcompares.not_trans (hknown held (List.mem_of_getElem? hheld))
            (hleast q hlt entry hentry) (hcompares.asymm hlighter)
        · rw [Option.some.inj (hentry.symm.trans hnext)]
          exact fun hself => hcompares.asymm hself hself
      · rw [if_neg (mt (lighter_eq_true_iff hnext hheld).mp hlighter)]
        refine ⟨held, hheld, fun q hq entry hentry => ?_⟩
        rcases Nat.lt_succ_iff_lt_or_eq.mp hq with hlt | rfl
        · exact hleast q hlt entry hentry
        · rwa [Option.some.inj (hentry.symm.trans hnext)]

theorem findLightest_lightest (hknown : ∀ entry ∈ chosen, known entry.weight)
    (hworst : worst < chosen.length) : Lightest chosen (findLightest chosen worst) := by
  obtain ⟨held, hheld, hleast⟩ := findLightest_scan hcompares hknown
    (List.getElem?_eq_getElem hworst) chosen.length (Nat.le_refl _)
  refine ⟨held, hheld, fun entry hmem => ?_⟩
  obtain ⟨q, hq, hget⟩ := List.getElem_of_mem hmem
  exact hleast q hq entry (hget ▸ List.getElem?_eq_getElem hq)

/-- The slot watched by the first loop stays right when an entry is taken. -/
theorem Lightest.take (hlightest : Lightest chosen worst) (entry : EntrySet W)
    (hknown : ∀ e ∈ chosen, known e.weight) :
    Lightest (chosen ++ [entry])
      (if lighter (chosen ++ [entry]) chosen.length worst then chosen.length else worst) := by
  obtain ⟨held, hheld, hleast⟩ := hlightest
  have hlt : worst < chosen.length := (List.getElem?_eq_some_iff.mp hheld).1
  have hheld' : (chosen ++ [entry])[worst]? = some held := by
    rw [List.getElem?_append_left hlt, hheld]
  have hentry : (chosen ++ [entry])[chosen.length]? = some entry := by simp
  by_cases hlighter : entry.weight < held.weight
  · rw [if_pos ((lighter_eq_true_iff hentry hheld').mpr hlighter)]
    refine ⟨entry, hentry, fun e he => ?_⟩
    rcases List.mem_append.mp he with he | he
    · exact hcompares.not_trans (hknown held (List.mem_of_getElem? hheld)) (hleast e he)
        (hcompares.asymm hlighter)
    · rw [List.mem_singleton.mp he]
      exact fun hself => hcompares.asymm hself hself
  · rw [if_neg (mt (lighter_eq_true_iff hentry hheld').mp hlighter)]
    refine ⟨held, hheld', fun e he => ?_⟩
    rcases List.mem_append.mp he with he | he
    · exact hleast e he
    · rwa [List.mem_singleton.mp he]

theorem fillEntries_lightest (room : ℕ) (src : List (EntrySet W))
    (hknown : ∀ e ∈ chosen ++ src, known e.weight) (hlightest : Lightest chosen worst) :
    Lightest (fillEntries room src chosen worst).1 (fillEntries room src chosen worst).2.1 := by
  induction room generalizing src chosen worst with
  | zero => exact hlightest
  | succ room ih =>
      cases src with
      | nil => exact hlightest
      | cons entry rest =>
          apply ih rest
          · simpa using hknown
          · exact hlightest.take hcompares entry
              (fun e he => hknown e (List.mem_append_left _ he))

/-- The second loop: what has been left out is not heavier than anything chosen. -/
theorem replaceLighter_heaviest (src left : List (EntrySet W))
    (hknown : ∀ e ∈ chosen ++ (left ++ src), known e.weight) (hlightest : Lightest chosen worst)
    (hleft : ∀ l ∈ left, ∀ k ∈ chosen, ¬ k.weight < l.weight) :
    ∃ left', chosen ++ (left ++ src) ~ replaceLighter src chosen worst ++ left' ∧
      ∀ l ∈ left', ∀ k ∈ replaceLighter src chosen worst, ¬ k.weight < l.weight := by
  induction src generalizing chosen worst left with
  | nil => exact ⟨left, by rw [List.append_nil]; rfl, hleft⟩
  | cons entry rest ih =>
      obtain ⟨held, hheld, hleast⟩ := hlightest
      have hlt : worst < chosen.length := (List.getElem?_eq_some_iff.mp hheld).1
      have hmem : held ∈ chosen := List.mem_of_getElem? hheld
      simp only [replaceLighter, hheld]
      by_cases hheavier : held.weight < entry.weight
      · rw [if_pos hheavier]
        have hsame : chosen ++ (left ++ entry :: rest) ~
            chosen.set worst entry ++ (held :: left ++ rest) := by
          calc chosen ++ (left ++ entry :: rest)
            _ ~ chosen ++ entry :: (left ++ rest) := List.perm_middle.append_left _
            _ ~ entry :: chosen ++ (left ++ rest) := List.perm_middle
            _ ~ held :: chosen.set worst entry ++ (left ++ rest) :=
                (cons_perm_cons_set hheld entry).append_right _
            _ ~ chosen.set worst entry ++ (held :: left ++ rest) := List.perm_middle.symm
        have hknown' : ∀ e ∈ chosen.set worst entry ++ (held :: left ++ rest), known e.weight :=
          fun e he => hknown e (hsame.mem_iff.mpr he)
        have hlightest' : Lightest (chosen.set worst entry)
            (findLightest (chosen.set worst entry) worst) := by
          apply findLightest_lightest hcompares
          · exact fun e he => hknown' e (List.mem_append_left _ he)
          · rwa [List.length_set]
        obtain ⟨left', hperm, hleft'⟩ := ih (held :: left) hknown' hlightest' (by
          intro l hl k hk
          have hother : k ∈ chosen ∨ k = entry := List.mem_or_eq_of_mem_set hk
          rcases List.mem_cons.mp hl with rfl | hl
          · rcases hother with hk | rfl
            · exact hleast k hk
            · exact hcompares.asymm hheavier
          · rcases hother with hk | rfl
            · exact hleft l hl k hk
            · -- were the new entry lighter than `l`, the replaced one would have been as well
              intro hlighter
              have hl' : known l.weight :=
                hknown l (List.mem_append_right _ (List.mem_append_left _ hl))
              exact hcompares.not_trans hl' (hleft l hl held hmem) (hcompares.asymm hlighter)
                hheavier)
        exact ⟨left', hsame.trans hperm, hleft'⟩
      · rw [if_neg hheavier]
        obtain ⟨left', hperm, hleft'⟩ := ih (left ++ [entry]) (by simpa using hknown)
          ⟨held, hheld, hleast⟩ (by
          intro l hl k hk
          rcases List.mem_append.mp hl with hl | hl
          · exact hleft l hl k hk
          · rw [List.mem_singleton.mp hl]
            exact hcompares.not_trans (hknown held (List.mem_append_left _ hmem)) (hleast k hk)
              hheavier)
        refine ⟨left', ?_, hleft'⟩
        rwa [List.append_assoc] at hperm

/-- No entry left out is heavier than a chosen one. -/
theorem chooseEntries_heaviest {entries : List (EntrySet W)}
    (hknown : ∀ e ∈ entries, known e.weight) {left : List (EntrySet W)}
    (hperm : entries ~ chooseEntries entries ++ left) :
    ∀ l ∈ left, ∀ k ∈ chooseEntries entries, ¬ k.weight < l.weight := by
  cases entries with
  | nil =>
      have hnil : chooseEntries ([] : List (EntrySet W)) = [] := rfl
      intro l hl k hk
      rw [hnil] at hk
      exact absurd hk List.not_mem_nil
  | cons first rest =>
      have hstart : Lightest [first] 0 := by
        refine ⟨first, by simp, fun e he => ?_⟩
        rw [List.mem_singleton.mp he]
        exact fun hself => hcompares.asymm hself hself
      have hlightest := fillEntries_lightest hcompares 3 rest hknown hstart
      obtain ⟨worst, hfill⟩ := fillEntries_eq 3 rest [first] 0
      rw [hfill] at hlightest
      have hchoose : chooseEntries (first :: rest) =
          replaceLighter (rest.drop 3) ([first] ++ rest.take 3) worst := by
        simp only [chooseEntries, maxEntrySetCount, fillEntries, List.nil_append, List.length_nil,
          ite_self, hfill]
      have hsplit : [first] ++ rest.take 3 ++ ([] ++ rest.drop 3) = first :: rest := by simp
      obtain ⟨left', hperm', hheaviest⟩ := replaceLighter_heaviest hcompares (rest.drop 3) []
        (hsplit ▸ hknown) hlightest (fun l hl => absurd hl List.not_mem_nil)
      rw [hsplit, ← hchoose] at hperm'
      rw [← hchoose] at hheaviest
      have hsame : left ~ left' :=
        (List.perm_append_left_iff _).mp (hperm.symm.trans hperm')
      exact fun l hl => hheaviest l (hsame.mem_iff.mp hl)

end Known

end Choose

/-! ## The copy -/

/-- `copied` are the entries `kept` in their order, each with the positions of its own that the ones
before it have left room for, sorted by offset. -/
structure CopyOf (room : ℕ) (kept copied : List (EntrySet W)) : Prop where
  same : copied.map (fun e => { e with spread := [] }) = kept.map (fun e => { e with spread := [] })
  spread_perm : ∀ (i : ℕ) (k c : EntrySet W), kept[i]? = some k → copied[i]? = some c →
    c.spread ~ k.spread.take (room - ((copied.take i).map (fun e => e.spread.length)).sum)
  spread_sorted : ∀ c ∈ copied, c.spread.Pairwise (fun p q => p.offset ≤ q.offset)
  total_le : (copied.map (fun e => e.spread.length)).sum ≤ room

theorem copySpreads_copyOf (room : ℕ) (kept : List (EntrySet W)) :
    CopyOf room kept (copySpreads room kept) := by
  obtain ⟨htotal, hsorted⟩ := copySpreads_fits room kept
  refine ⟨?_, ?_, hsorted, htotal⟩
  · clear htotal hsorted
    induction kept generalizing room with
    | nil => rfl
    | cons entry rest ih => simp [copySpreads, ih]
  · clear htotal hsorted
    induction kept generalizing room with
    | nil => intro i k c hk; simp at hk
    | cons entry rest ih =>
        intro i k c hk hc
        cases i with
        | zero =>
            simp only [copySpreads, List.getElem?_cons_zero, Option.some.injEq] at hk hc
            rw [← hk, ← hc]
            exact List.mergeSort_perm _ _
        | succ i =>
            simp only [copySpreads, List.getElem?_cons_succ] at hk hc
            have hspread := ih _ i k c hk hc
            simp only [copySpreads, List.take_succ_cons, List.map_cons, List.sum_cons,
              List.length_mergeSort]
            rwa [← Nat.sub_sub]

/-- Doubles that are not `nan` compare with each other. -/
theorem compares_numbers : Compares (fun w : Binary64 => w.number ≠ .nan) where
  asymm hab hba := absurd (Number.less_asymm hab) (ne_false_of_eq_true hba)
  not_trans hb hab hbc := ne_true_of_eq_false
    (Number.not_less_trans hb (eq_false_of_ne_true hab) (eq_false_of_ne_true hbc))

/-- The copy of a rich abstract: four entries at most, the heaviest ones where the weights are
numbers, in the order of the text where the source is, their positions one behind the other in an
array of 128. -/
theorem copyAbstract_best (nWords : ℕ) (entries : List (EntrySet Binary64)) :
    ∃ kept left copied, copyAbstract ⟨nWords, .rich entries⟩ = ⟨nWords, .rich copied⟩ ∧
      entries ~ kept ++ left ∧ kept.length = min maxEntrySetCount entries.length ∧
      ((∀ e ∈ entries, e.weight.number ≠ .nan) →
        ∀ l ∈ left, ∀ k ∈ kept, ¬ k.weight < l.weight) ∧
      (entries.Pairwise (fun l r => l.uMin ≤ r.uMin) →
        copied.Pairwise (fun l r => l.uMin ≤ r.uMin)) ∧
      CopyOf maxEntryPosCount kept copied ∧
      ∃ array ranges, layPositions maxEntryPosCount [] kept = (array, ranges) ∧
        copied.map EntrySet.spread = ranges.map (slice array) ∧
        Adjacent 0 ranges array.length ∧ array.length ≤ maxEntryPosCount := by
  obtain ⟨left, hperm⟩ := chooseEntries_perm entries
  have harranged : arrangeEntries (chooseEntries entries) ~ chooseEntries entries :=
    arrangeEntries_perm (chooseEntries entries)
  refine ⟨arrangeEntries (chooseEntries entries), left, _, rfl,
    hperm.trans (harranged.symm.append_right left), ?_, ?_, ?_, copySpreads_copyOf _ _, ?_⟩
  · rw [arrangeEntries_length, chooseEntries_length]
  · intro hnumbers l hl k hk
    exact chooseEntries_heaviest compares_numbers hnumbers hperm l hl k (harranged.mem_iff.mp hk)
  · intro hordered
    have hsorted : (arrangeEntries (chooseEntries entries)).Pairwise
        (fun l r => l.uMin ≤ r.uMin) := by
      -- a full choice has been sorted, any other is the source itself
      by_cases hfull : (chooseEntries entries).length = maxEntrySetCount
      · exact arrangeEntries_sorted _ hfull
      · rw [chooseEntries_length] at hfull
        have hfew : entries.length ≤ maxEntrySetCount := by omega
        rw [chooseEntries_of_length_le entries hfew]
        rwa [arrangeEntries_of_sorted entries (fun _ => hordered)]
    apply List.pairwise_map.mp
    rw [copySpreads_uMin]
    exact List.pairwise_map.mpr hsorted
  · obtain ⟨-, hle, hadjacent⟩ := layPositions_grows maxEntryPosCount []
      (arrangeEntries (chooseEntries entries)) (Nat.zero_le _)
    refine ⟨_, _, rfl, ?_, hadjacent, hle⟩
    exact (layPositions_slices maxEntryPosCount [] _ (Nat.zero_le _)).symm

/-! An entry without a number for a weight, and four others after it. -/

def weightedEntry (uMin : ℕ) (bits : UInt64) : EntrySet Binary64 := ⟨uMin, ⟨bits⟩, [], 0⟩

/-- The weights `nan`, 1, 2, 3 and 100. -/
def afterNan : List (EntrySet Binary64) :=
  [weightedEntry 0 0x7FF8000000000000, weightedEntry 1 0x3FF0000000000000,
    weightedEntry 2 0x4000000000000000, weightedEntry 3 0x4008000000000000,
    weightedEntry 4 0x4059000000000000]

/-- Nothing takes the place of the first entry, the only one that is watched. -/
theorem chooseEntries_afterNan : chooseEntries afterNan = afterNan.take 4 := by
  have hone : ¬ (weightedEntry 1 0x3FF0000000000000).weight <
      (weightedEntry 0 0x7FF8000000000000).weight := by decide +kernel
  have htwo : ¬ (weightedEntry 2 0x4000000000000000).weight <
      (weightedEntry 0 0x7FF8000000000000).weight := by decide +kernel
  have hthree : ¬ (weightedEntry 3 0x4008000000000000).weight <
      (weightedEntry 0 0x7FF8000000000000).weight := by decide +kernel
  have hfour : ¬ (weightedEntry 0 0x7FF8000000000000).weight <
      (weightedEntry 4 0x4059000000000000).weight := by decide +kernel
  simp [chooseEntries, afterNan, maxEntrySetCount, fillEntries, lighter, replaceLighter, hone,
    htwo, hthree, hfour]

theorem copyAbstract_afterNan : ∃ copied kept left,
    copyAbstract ⟨5, .rich afterNan⟩ = ⟨5, .rich copied⟩ ∧
    copied.map EntrySet.uMin = [0, 1, 2, 3] ∧ kept ∈ copied ∧ left ∈ afterNan ∧
    left.uMin ∉ copied.map EntrySet.uMin ∧ kept.weight < left.weight := by
  have harranged : arrangeEntries (afterNan.take 4) = afterNan.take 4 := by
    apply arrangeEntries_of_sorted
    decide
  have hcopied : copyAbstract ⟨5, .rich afterNan⟩ =
      ⟨5, .rich (copySpreads maxEntryPosCount (afterNan.take 4))⟩ := by
    simp only [copyAbstract, chooseEntries_afterNan, harranged]
  have hsame : copySpreads maxEntryPosCount (afterNan.take 4) = afterNan.take 4 := by
    apply copySpreads_of_fits
    · decide
    · simp [afterNan, weightedEntry]
  rw [hsame] at hcopied
  refine ⟨_, weightedEntry 1 0x3FF0000000000000, weightedEntry 4 0x4059000000000000, hcopied, rfl,
    ?_, ?_, by decide, by decide +kernel⟩
  · simp [afterNan]
  · simp [afterNan]

end Palmira.Collect
