import Mathlib.Algebra.GroupWithZero.Nat
import Mathlib.Data.List.Sort
import Palmira.Core.Exception

/-!
# Stored abstracts

A collector keeps, beside each kept document, a bounded copy of the abstract the
query gave for it. `copyAbstract` is the bounded copy, `Abstracts` the store.
-/

namespace Palmira.Collect

open scoped List

/-- `uint32_t(-1)`: the id no document has. -/
def noDoc : ℕ := 0xFFFFFFFF

def maxBM25TermCount : ℕ := 0x20
def maxEntrySetCount : ℕ := 4
def maxEntryPosCount : ℕ := 0x80

/-! The fields the code only moves along with an element stand together as `payload`. -/

structure EntryPos where
  offset : ℕ
  payload : ℕ
  deriving DecidableEq

structure EntrySet (W : Type) where
  uMin : ℕ
  weight : W
  spread : List EntryPos
  payload : ℕ

structure BM25Term (W : Type) where
  dblIDF : W
  payload : ℕ

/-- What an abstract holds in each of its modes. -/
inductive Content (W : Type) where
  | none
  | bm25 (factors : List (BM25Term W))
  | rich (entries : List (EntrySet W))

structure Abstract (W : Type) where
  nWords : ℕ
  content : Content W

/-- `dwMode == Abstract::None` -/
def Abstract.isNone {W : Type} (a : Abstract W) : Bool :=
  match a.content with
  | .none => true
  | .bm25 _ => false
  | .rich _ => false

variable {W : Type}

section Choose

variable [LT W] [DecidableLT W]

/-- Whether the entry in slot `p` weighs less than the one in slot `worst`. -/
def lighter (chosen : List (EntrySet W)) (p worst : ℕ) : Bool :=
  match chosen[p]?, chosen[worst]? with
  | some a, some b => decide (a.weight < b.weight)
  | _, _ => false

/-- The first loop of `CopyAbstract`: take entries while there is room, watching the worst. The
result holds the chosen entries, the slot of the worst and the entries left over. -/
def fillEntries : ℕ → List (EntrySet W) → List (EntrySet W) → ℕ →
    List (EntrySet W) × ℕ × List (EntrySet W)
  | 0, src, chosen, worst => (chosen, worst, src)
  | _ + 1, [], chosen, worst => (chosen, worst, [])
  | room + 1, entry :: src, chosen, worst =>
      let chosen' := chosen ++ [entry]
      fillEntries room src chosen'
        (if lighter chosen' chosen.length worst then chosen.length else worst)

/-- The worst slot after a replacement, looked up from the replaced one. -/
def findLightest (chosen : List (EntrySet W)) (worst : ℕ) : ℕ :=
  (List.range chosen.length).foldl (fun w p => if lighter chosen p w then p else w) worst

/-- The second loop: each heavier entry left over takes the place of the worst. -/
def replaceLighter : List (EntrySet W) → List (EntrySet W) → ℕ → List (EntrySet W)
  | [], chosen, _ => chosen
  | entry :: src, chosen, worst =>
      match chosen[worst]? with
      | some held =>
          if held.weight < entry.weight then
            let chosen' := chosen.set worst entry
            replaceLighter src chosen' (findLightest chosen' worst)
          else replaceLighter src chosen worst
      | none => chosen

def chooseEntries (entries : List (EntrySet W)) : List (EntrySet W) :=
  let (chosen, worst, more) := fillEntries maxEntrySetCount entries [] 0
  replaceLighter more chosen worst

/-- The first loop takes as many entries as there is room for. -/
theorem fillEntries_eq (room : ℕ) (src chosen : List (EntrySet W)) (worst : ℕ) :
    ∃ worst', fillEntries room src chosen worst =
      (chosen ++ src.take room, worst', src.drop room) := by
  induction room generalizing src chosen worst with
  | zero => exact ⟨worst, by simp [fillEntries]⟩
  | succ room ih =>
      cases src with
      | nil => exact ⟨worst, by simp [fillEntries]⟩
      | cons entry rest =>
          obtain ⟨worst', hfill⟩ := ih rest (chosen ++ [entry])
            (if lighter (chosen ++ [entry]) chosen.length worst then chosen.length else worst)
          exact ⟨worst', by simp [fillEntries, hfill]⟩

theorem replaceLighter_length (src chosen : List (EntrySet W)) (worst : ℕ) :
    (replaceLighter src chosen worst).length = chosen.length := by
  induction src generalizing chosen worst with
  | nil => rfl
  | cons entry rest ih =>
      unfold replaceLighter
      split
      · split
        · rw [ih, List.length_set]
        · exact ih chosen worst
      · rfl

theorem chooseEntries_length (entries : List (EntrySet W)) :
    (chooseEntries entries).length = min maxEntrySetCount entries.length := by
  obtain ⟨worst, hfill⟩ := fillEntries_eq maxEntrySetCount entries [] 0
  simp [chooseEntries, hfill, replaceLighter_length]

theorem chooseEntries_of_length_le (entries : List (EntrySet W))
    (hlen : entries.length ≤ maxEntrySetCount) : chooseEntries entries = entries := by
  obtain ⟨worst, hfill⟩ := fillEntries_eq maxEntrySetCount entries [] 0
  rw [List.take_of_length_le hlen, List.drop_of_length_le hlen] at hfill
  simp [chooseEntries, hfill, replaceLighter]

end Choose

/-- A full choice is sorted by the place in the text; the sort is stable. -/
def arrangeEntries (chosen : List (EntrySet W)) : List (EntrySet W) :=
  if chosen.length = maxEntrySetCount then
    chosen.mergeSort (fun l r => decide (l.uMin ≤ r.uMin))
  else chosen

/-- The last loop: positions are copied while there is room for them, sorted within each entry. -/
def copySpreads : ℕ → List (EntrySet W) → List (EntrySet W)
  | _, [] => []
  | room, entry :: rest =>
      let taken := entry.spread.take room
      { entry with spread := taken.mergeSort (fun p q => decide (p.offset ≤ q.offset)) } ::
        copySpreads (room - taken.length) rest

/-- `CopyAbstract`: the part of an abstract that fits a stored item. -/
def copyAbstract [LT W] [DecidableLT W] (source : Abstract W) : Abstract W :=
  { nWords := source.nWords
    content := match source.content with
      | .none => .none
      | .bm25 factors => .bm25 (factors.take maxBM25TermCount)
      | .rich entries =>
          .rich (copySpreads maxEntryPosCount (arrangeEntries (chooseEntries entries))) }

/-! ## A copy of a copy is the copy -/

theorem pairwise_mergeSort_key {α : Type} (key : α → ℕ) (l : List α) :
    (l.mergeSort (fun a b => decide (key a ≤ key b))).Pairwise (fun a b => key a ≤ key b) := by
  have hsorted := @List.pairwise_mergeSort _ (fun a b => decide (key a ≤ key b))
    (by
      intro a b c hab hbc
      simp only [decide_eq_true_eq] at hab hbc ⊢
      exact hab.trans hbc)
    (by
      intro a b
      simp only [Bool.or_eq_true, decide_eq_true_eq]
      exact Nat.le_total _ _) l
  exact hsorted.imp (fun h => of_decide_eq_true h)

theorem mergeSort_key_of_pairwise {α : Type} {key : α → ℕ} {l : List α}
    (hsorted : l.Pairwise (fun a b => key a ≤ key b)) :
    l.mergeSort (fun a b => decide (key a ≤ key b)) = l :=
  List.mergeSort_of_pairwise (hsorted.imp (fun h => decide_eq_true h))

theorem arrangeEntries_perm (chosen : List (EntrySet W)) : arrangeEntries chosen ~ chosen := by
  unfold arrangeEntries
  split
  next => exact List.mergeSort_perm chosen _
  next => exact .refl _

theorem arrangeEntries_length (chosen : List (EntrySet W)) :
    (arrangeEntries chosen).length = chosen.length :=
  (arrangeEntries_perm chosen).length_eq

theorem arrangeEntries_sorted (chosen : List (EntrySet W))
    (hfull : chosen.length = maxEntrySetCount) :
    (arrangeEntries chosen).Pairwise (fun l r => l.uMin ≤ r.uMin) := by
  rw [arrangeEntries, if_pos hfull]
  exact pairwise_mergeSort_key EntrySet.uMin chosen

theorem arrangeEntries_of_sorted (chosen : List (EntrySet W))
    (hsorted : chosen.length = maxEntrySetCount →
      chosen.Pairwise (fun l r => l.uMin ≤ r.uMin)) : arrangeEntries chosen = chosen := by
  unfold arrangeEntries
  split
  next hfull => exact mergeSort_key_of_pairwise (hsorted hfull)
  next => rfl

@[simp] theorem copySpreads_length (room : ℕ) (entries : List (EntrySet W)) :
    (copySpreads room entries).length = entries.length := by
  induction entries generalizing room with
  | nil => rfl
  | cons entry rest ih => simp [copySpreads, ih]

theorem copySpreads_uMin (room : ℕ) (entries : List (EntrySet W)) :
    (copySpreads room entries).map EntrySet.uMin = entries.map EntrySet.uMin := by
  induction entries generalizing room with
  | nil => rfl
  | cons entry rest ih => simp [copySpreads, ih]

/-- The copied positions fit into the room and are sorted within each entry. -/
theorem copySpreads_fits (room : ℕ) (entries : List (EntrySet W)) :
    ((copySpreads room entries).map (fun e => e.spread.length)).sum ≤ room ∧
      ∀ e ∈ copySpreads room entries, e.spread.Pairwise (fun p q => p.offset ≤ q.offset) := by
  induction entries generalizing room with
  | nil => simp [copySpreads]
  | cons entry rest ih =>
      obtain ⟨hsum, hsorted⟩ := ih (room - (entry.spread.take room).length)
      constructor
      · have htaken : (entry.spread.take room).length ≤ room := List.length_take_le _ _
        simp only [copySpreads, List.map_cons, List.sum_cons, List.length_mergeSort]
        omega
      · intro e he
        rcases List.mem_cons.mp he with rfl | he
        · exact pairwise_mergeSort_key EntryPos.offset _
        · exact hsorted e he

theorem copySpreads_of_fits (room : ℕ) (entries : List (EntrySet W))
    (hsum : (entries.map (fun e => e.spread.length)).sum ≤ room)
    (hsorted : ∀ e ∈ entries, e.spread.Pairwise (fun p q => p.offset ≤ q.offset)) :
    copySpreads room entries = entries := by
  induction entries generalizing room with
  | nil => rfl
  | cons entry rest ih =>
      simp only [List.map_cons, List.sum_cons] at hsum
      have htake : entry.spread.take room = entry.spread :=
        List.take_of_length_le (by omega)
      have hhead : entry.spread.mergeSort (fun p q => decide (p.offset ≤ q.offset)) =
          entry.spread :=
        mergeSort_key_of_pairwise (hsorted entry List.mem_cons_self)
      have htail := ih (room - entry.spread.length) (by omega)
        (fun e he => hsorted e (List.mem_cons_of_mem _ he))
      simp [copySpreads, htake, hhead, htail]

theorem copyAbstract_copyAbstract [LT W] [DecidableLT W] (source : Abstract W) :
    copyAbstract (copyAbstract source) = copyAbstract source := by
  obtain ⟨nWords, content⟩ := source
  cases content with
  | none => rfl
  | bm25 factors => simp [copyAbstract, List.take_take]
  | rich entries =>
      let chosen := chooseEntries entries
      let copied := copySpreads maxEntryPosCount (arrangeEntries chosen)
      have hlen : copied.length = chosen.length := by
        simp only [copied, copySpreads_length, arrangeEntries_length]
      -- a copy passes each of the three stages of `CopyAbstract` unchanged
      have hchoose : chooseEntries copied = copied :=
        chooseEntries_of_length_le copied
          (by rw [hlen, chooseEntries_length]; exact Nat.min_le_left _ _)
      have harrange : arrangeEntries copied = copied := by
        apply arrangeEntries_of_sorted copied
        intro hfull
        have hsorted := arrangeEntries_sorted chosen (hlen ▸ hfull)
        have hmins : (copied.map EntrySet.uMin).Pairwise (· ≤ ·) := by
          rw [copySpreads_uMin]
          exact List.pairwise_map.mpr hsorted
        exact List.pairwise_map.mp hmins
      obtain ⟨hsum, hspread⟩ := copySpreads_fits maxEntryPosCount (arrangeEntries chosen)
      have hcopy : copySpreads maxEntryPosCount copied = copied :=
        copySpreads_of_fits maxEntryPosCount copied hsum hspread
      change Abstract.mk nWords (.rich (copySpreads maxEntryPosCount
        (arrangeEntries (chooseEntries copied)))) = Abstract.mk nWords (.rich copied)
      rw [hchoose, harrange, hcopy]

/-! ## The store -/

/-- `Abstracts::abstracts`: at most `limit` items, each a copied abstract under a document id. -/
structure Abstracts (W : Type) where
  limit : ℕ
  items : List (ℕ × Abstract W)

namespace Abstracts

def create (maxcount : ℕ) : Abstracts W := ⟨maxcount, []⟩

/-- The first item stored under `oldid` gives way to `item`. -/
def replaceItem (oldid : ℕ) (item : ℕ × Abstract W) :
    List (ℕ × Abstract W) → Option (List (ℕ × Abstract W))
  | [] => none
  | stored :: rest =>
      if stored.1 = oldid then some (item :: rest)
      else (replaceItem oldid item rest).map (stored :: ·)

/-- `Abstracts::Set` -/
def set [LT W] [DecidableLT W] (s : Abstracts W) (newid : ℕ) (abstr : Abstract W) (oldid : ℕ) :
    Except Exn (Abstracts W) :=
  match replaceItem oldid (newid, copyAbstract abstr) s.items with
  | some items => .ok { s with items }
  | none =>
      if s.items.length < s.limit then
        .ok { s with items := s.items ++ [(newid, copyAbstract abstr)] }
      else .error (.logicError "Abstracts storage overflow")

/-- `Abstracts::Get` -/
def get (s : Abstracts W) (getid : ℕ) : Option (Abstract W) :=
  (s.items.find? (fun item => item.1 == getid)).map Prod.snd

theorem replaceItem_none {oldid : ℕ} {item : ℕ × Abstract W} {items : List (ℕ × Abstract W)}
    (habsent : oldid ∉ items.map Prod.fst) : replaceItem oldid item items = none := by
  induction items with
  | nil => rfl
  | cons stored rest ih =>
      simp only [List.map_cons, List.mem_cons, not_or] at habsent
      simp [replaceItem, Ne.symm habsent.1, ih habsent.2]

theorem replaceItem_perm {old : ℕ × Abstract W} (item : ℕ × Abstract W)
    {items rest : List (ℕ × Abstract W)} (hperm : items.Perm (old :: rest))
    (hnodup : (items.map Prod.fst).Nodup) :
    ∃ items', replaceItem old.1 item items = some items' ∧ items'.Perm (item :: rest) := by
  induction items generalizing rest with
  | nil => exact absurd hperm.length_eq (by simp)
  | cons stored tail ih =>
      obtain ⟨hfresh, htail⟩ := List.nodup_cons.mp
        (show (stored.1 :: tail.map Prod.fst).Nodup from hnodup)
      by_cases heq : stored.1 = old.1
      · -- ids are different, so the first item with the id is the one
        have hsame : stored = old := by
          by_contra hne
          have hmem : old ∈ tail := by
            have := hperm.mem_iff.mpr (List.mem_cons_self (a := old) (l := rest))
            exact (List.mem_cons.mp this).resolve_left (Ne.symm hne)
          exact hfresh (heq ▸ List.mem_map_of_mem hmem)
        subst hsame
        refine ⟨item :: tail, by simp [replaceItem], ?_⟩
        exact ((List.perm_cons stored).mp hperm).cons item
      · have hmem : stored ∈ rest := by
          have := hperm.mem_iff.mp (List.mem_cons_self (a := stored) (l := tail))
          exact (List.mem_cons.mp this).resolve_left (fun h => heq (congrArg Prod.fst h))
        obtain ⟨front, back, rfl⟩ := List.append_of_mem hmem
        have htailperm : tail.Perm (old :: (front ++ back)) := by
          refine (List.perm_cons stored).mp (hperm.trans ?_)
          exact (List.perm_middle.cons old).trans (List.Perm.swap _ _ _)
        obtain ⟨items', hreplace, hperm'⟩ := ih htailperm htail
        refine ⟨stored :: items', by simp [replaceItem, heq, hreplace], ?_⟩
        calc stored :: items'
          _ ~ stored :: item :: (front ++ back) := hperm'.cons stored
          _ ~ item :: stored :: (front ++ back) := List.Perm.swap _ _ _
          _ ~ item :: (front ++ stored :: back) := List.perm_middle.symm.cons item

section Set

variable [LT W] [DecidableLT W] {s : Abstracts W}

/-- An unknown id is stored behind the others while there is room. -/
theorem set_new (hroom : s.items.length < s.limit) {oldid : ℕ}
    (habsent : oldid ∉ s.items.map Prod.fst) (newid : ℕ) (abstr : Abstract W) :
    s.set newid abstr oldid =
      .ok { s with items := s.items ++ [(newid, copyAbstract abstr)] } := by
  simp [set, replaceItem_none habsent, hroom]

/-- A stored item gives way to the new one. -/
theorem set_old {held : ℕ × Abstract W} {others : List (ℕ × Abstract W)}
    (hperm : s.items ~ held :: others) (hnodup : (s.items.map Prod.fst).Nodup) (newid : ℕ)
    (abstr : Abstract W) :
    ∃ items, s.set newid abstr held.1 = .ok { s with items } ∧
      items ~ (newid, copyAbstract abstr) :: others := by
  obtain ⟨items, hreplace, hitems⟩ := replaceItem_perm (newid, copyAbstract abstr) hperm hnodup
  exact ⟨items, by simp [set, hreplace], hitems⟩

end Set

theorem get_of_mem {s : Abstracts W} (hnodup : (s.items.map Prod.fst).Nodup)
    {item : ℕ × Abstract W} (hmem : item ∈ s.items) : s.get item.1 = some item.2 := by
  obtain ⟨found, hfind⟩ : ∃ found, s.items.find? (fun stored => stored.1 == item.1) =
      some found := by
    apply Option.isSome_iff_exists.mp
    exact List.find?_isSome.mpr ⟨item, hmem, by simp⟩
  have hid : found.1 = item.1 := by simpa using List.find?_some hfind
  -- ids are distinct, so the first item under this id is the only one
  have heq : found = item :=
    List.inj_on_of_nodup_map hnodup (List.mem_of_find?_eq_some hfind) hmem hid
  rw [get, hfind, heq]
  rfl

end Abstracts

end Palmira.Collect
