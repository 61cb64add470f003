import Palmira.Readers.Minizip
import Mathlib.Order.OrderIsoNat

/-!
# Archives in archives

`minizip::Read` unpacks an archive before it looks inside, and nothing makes what is
unpacked smaller: an archive may contain itself. `Read` ends when no infinite chain of
nested archives starts at its input.
-/

namespace Palmira.Minizip

/-- `Read` calls itself with `child` when it is called with `parent`. -/
def Nested (z : Unzip) (child parent : Bytes) : Prop :=
  parent ≠ [] ∧ ∃ entries, z.unzOpen2 parent = some entries ∧
    ∃ e ∈ entries, e.Nests ∧ e.zipbuf = child

/-- An infinite chain of nested archives starts here. -/
def EndlesslyNested (z : Unzip) (input : Bytes) : Prop :=
  ∃ chain : ℕ → Bytes, chain 0 = input ∧ ∀ i, Nested z (chain (i + 1)) (chain i)

/-- Every name that is read into the array has a zero there. -/
def NamesEnd (z : Unzip) : Prop := ∀ input entries, z.unzOpen2 input = some entries →
  ∀ e ∈ entries, e.Nests → Terminated e.name

theorem acc_nested_iff {z : Unzip} {input : Bytes} :
    Acc (Nested z) input ↔ ¬ EndlesslyNested z input := by
  rw [acc_iff_isEmpty_descending_chain, ← not_nonempty_iff, nonempty_subtype]
  rfl

/-! ## The calls a call makes -/

/-- The arguments of the recursive calls. -/
def children (z : Unzip) (args : Args) : List Args :=
  if args.1 = [] then []
  else match z.unzOpen2 args.1 with
    | none => []
    | some entries => entries.filterMap fun e =>
        if e.Nests then (szname e.name).map fun name => (e.zipbuf, args.2 ++ [name]) else none

theorem mem_children {z : Unzip} {args child : Args} :
    child ∈ children z args ↔ args.1 ≠ [] ∧ ∃ entries, z.unzOpen2 args.1 = some entries ∧
      ∃ e ∈ entries, e.Nests ∧ ∃ name, szname e.name = some name ∧
        (e.zipbuf, args.2 ++ [name]) = child := by
  unfold children
  split
  next hempty => exact ⟨fun h => absurd h List.not_mem_nil, fun h => absurd hempty h.1⟩
  next hroot =>
      cases hopen : z.unzOpen2 args.1 with
      | none => exact ⟨fun h => absurd h List.not_mem_nil, fun ⟨_, _, h, _⟩ => nomatch h⟩
      | some entries =>
          simp only [List.mem_filterMap, Option.ite_none_right_eq_some, Option.map_eq_some_iff,
            Option.some.injEq, exists_eq_left']
          exact ⟨fun h => ⟨hroot, h⟩, fun h => h.2⟩

theorem readEntries_asks {read : Args → Option Result} {names : List Bytes}
    {entries : List Entry} (hread : ∀ e ∈ entries, e.Nests → ∀ name, szname e.name = some name →
      ∃ result, read (e.zipbuf, names ++ [name]) = some result) :
    ∃ result, readEntries read names entries = some result := by
  induction entries with
  | nil => exact ⟨_, rfl⟩
  | cons e rest ih =>
      obtain ⟨others, hothers⟩ := ih fun e he => hread e (List.mem_cons_of_mem _ he)
      by_cases hnests : e.Nests
      · simp only [readEntries, if_pos hnests]
        cases hname : szname e.name with
        | none => exact ⟨_, rfl⟩
        | some name =>
            obtain ⟨mine, hmine⟩ := hread e List.mem_cons_self hnests name hname
            simp only [hmine, hothers]
            cases mine with
            | error thrown => exact ⟨_, rfl⟩
            | ok texts => exact ⟨_, rfl⟩
      · exact ⟨others, (readEntries_skip hnests rest).trans hothers⟩

theorem body_asks (z : Unzip) (fnTxt : Bool) :
    Recursion.Asks (body z fnTxt) (children z) := by
  intro read args hchildren
  unfold body
  split
  next => exact ⟨_, rfl⟩
  next =>
      split
      next => exact ⟨_, rfl⟩
      next hroot =>
          cases hopen : z.unzOpen2 args.1 with
          | none => exact ⟨_, rfl⟩
          | some entries =>
              apply readEntries_asks
              intro e he hnests name hname
              exact hchildren _ (mem_children.mpr
                ⟨hroot, entries, hopen, e, he, hnests, name, hname, rfl⟩)

/-- With names that end, the loop throws nothing that the calls do not throw. -/
theorem readEntries_ok {read : Args → Option Result} {names : List Bytes} {entries : List Entry}
    (hok : ∀ args result, args.1 ≠ [] → read args = some result → ∃ texts, result = .ok texts)
    (hnames : ∀ e ∈ entries, e.Nests → Terminated e.name) {result : Result}
    (hread : readEntries read names entries = some result) : ∃ texts, result = .ok texts := by
  induction entries generalizing result with
  | nil => exact ⟨[], (Option.some.inj hread).symm⟩
  | cons e rest ih =>
      have hrest : ∀ {result}, readEntries read names rest = some result →
          ∃ texts, result = .ok texts :=
        ih fun e he => hnames e (List.mem_cons_of_mem _ he)
      by_cases hnests : e.Nests
      · have hname := szname_of_terminated (hnames e List.mem_cons_self hnests)
        simp only [readEntries, if_pos hnests, hname] at hread
        split at hread
        next => cases hread
        next thrown hthrown =>
            obtain ⟨texts, htexts⟩ := hok _ _ hnests.2.2 hthrown
            cases htexts
        next texts htexts =>
            obtain ⟨others, hothers, hmap⟩ := Option.map_eq_some_iff.mp hread
            obtain ⟨left, rfl⟩ := hrest hothers
            exact ⟨texts ++ left, hmap.symm⟩
      · exact hrest ((readEntries_skip hnests rest).symm.trans hread)

theorem run_ok {z : Unzip} (hnames : NamesEnd z) (fuel : ℕ) (args : Args) (result : Result)
    (hroot : args.1 ≠ []) (hrun : Recursion.run (body z true) fuel args = some result) :
    ∃ texts, result = .ok texts := by
  induction fuel generalizing args result with
  | zero => cases hrun
  | succ fuel ih =>
      rw [Recursion.run] at hrun
      cases hopen : z.unzOpen2 args.1 with
      | none =>
          rw [body_text hroot hopen] at hrun
          exact ⟨_, (Option.some.inj hrun).symm⟩
      | some entries =>
          rw [body_zip hroot hopen] at hrun
          exact readEntries_ok ih (hnames args.1 entries hopen) hrun

/-- A loop that ends without an exception has called `Read` for every nested archive. -/
theorem readEntries_needs {read : Args → Option Result} {names : List Bytes}
    {entries : List Entry} {texts : List Text}
    (hread : readEntries read names entries = some (.ok texts)) :
    ∀ e ∈ entries, e.Nests → ∃ name mine, szname e.name = some name ∧
      read (e.zipbuf, names ++ [name]) = some (.ok mine) := by
  induction entries generalizing texts with
  | nil => nofun
  | cons first rest ih =>
      obtain ⟨⟨others, hothers⟩, hfirst⟩ := readEntries_cons_ok hread
      intro e he
      rcases List.mem_cons.mp he with rfl | he
      · exact hfirst
      · exact ih hothers e he

theorem body_needs {z : Unzip} (hnames : NamesEnd z) :
    Recursion.Needs (body z true) (children z) := by
  intro fuel args result hrun child hchild
  obtain ⟨hroot, entries, hopen, e, he, hnests, name, hname, rfl⟩ := mem_children.mp hchild
  obtain ⟨texts, rfl⟩ := run_ok hnames (fuel + 1) args result hroot hrun
  rw [Recursion.run, body_zip hroot hopen] at hrun
  obtain ⟨read, mine, hread, hmine⟩ := readEntries_needs hrun e he hnests
  rw [hname] at hread
  cases hread
  exact ⟨_, hmine⟩

/-! ## When reading ends -/

theorem acc_children {z : Unzip} {args : Args} (hacc : Acc (Nested z) args.1) :
    Acc (fun child parent => child ∈ children z parent) args := by
  apply Subrelation.accessible _ (InvImage.accessible Prod.fst hacc)
  intro child parent hchild
  obtain ⟨hroot, entries, hopen, e, he, hnests, _, _, rfl⟩ := mem_children.mp hchild
  exact ⟨hroot, entries, hopen, e, he, hnests, rfl⟩

theorem acc_nested {z : Unzip} (hnames : NamesEnd z) {args : Args}
    (hacc : Acc (fun child parent => child ∈ children z parent) args) : Acc (Nested z) args.1 := by
  induction hacc with
  | intro args _ ih =>
      apply Acc.intro
      intro child hnested
      obtain ⟨hroot, entries, hopen, e, he, hnests, rfl⟩ := hnested
      have hname := szname_of_terminated (hnames args.1 entries hopen e he hnests)
      exact ih (e.zipbuf, args.2 ++ [cstring e.name])
        (mem_children.mpr ⟨hroot, entries, hopen, e, he, hnests, _, hname, rfl⟩)

/-- `Read` ends where no infinite chain of nested archives starts, and if names end in the
array, only there. -/
theorem read_ends (z : Unzip) (fnTxt : Bool) (input : Bytes) (names : List Bytes) :
    (¬ EndlesslyNested z input → Recursion.Ends (body z fnTxt) (input, names)) ∧
      (NamesEnd z → Recursion.Ends (body z true) (input, names) → ¬ EndlesslyNested z input) := by
  constructor
  · intro hchain
    apply Recursion.ends_of_acc (body_monotone z fnTxt) (body_asks z fnTxt)
    exact acc_children (acc_nested_iff.mpr hchain)
  · intro hnames hends
    apply acc_nested_iff.mp
    exact acc_nested hnames (Recursion.acc_of_ends (body_needs hnames) hends)

/-- No chain of nested archives is endless where each one is shorter than the one around it. -/
theorem not_endlesslyNested_of_shorter {z : Unzip}
    (hshorter : ∀ child parent, Nested z child parent → child.length < parent.length)
    (input : Bytes) : ¬ EndlesslyNested z input := by
  intro ⟨chain, _, hchain⟩
  exact not_strictAnti_of_wellFoundedLT (fun i => (chain i).length)
    (strictAnti_nat_of_succ_lt fun i => hshorter _ _ (hchain i))

theorem nested_opensNested {child parent : Bytes} (hnested : Nested opensNested child parent) :
    child.length < parent.length := by
  obtain ⟨_, entries, hopen, e, he, _, rfl⟩ := hnested
  have hall : (entries.all fun e => e.zipbuf.length < parent.length) = true := by
    by_cases houter : parent = outerZip
    · rw [houter, opensNested_outer] at hopen
      rw [← Option.some.inj hopen, houter]
      decide +kernel
    · by_cases hinner : parent = innerZip
      · rw [hinner, opensNested_inner] at hopen
        rw [← Option.some.inj hopen, hinner]
        decide +kernel
      · simp only [opensNested, if_neg houter, if_neg hinner, reduceCtorEq] at hopen
  exact of_decide_eq_true (List.all_eq_true.mp hall e he)

theorem read_ends_nested :
    Recursion.Ends (body opensNested true) (outerZip, [[0x6f]]) :=
  (read_ends opensNested true outerZip [[0x6f]]).1
    (not_endlesslyNested_of_shorter (fun _ _ => nested_opensNested) outerZip)

/-! ## An archive that contains itself -/

/-- Every archive has itself as its only entry. -/
def reproducing : Unzip where
  unzOpen2 input := if input = [] then none else some [⟨[0x72], true, true, [input]⟩]

theorem reproducing_run (fuel : ℕ) {input : Bytes} (hroot : input ≠ []) (names : List Bytes) :
    Recursion.run (body reproducing true) fuel (input, names) = none := by
  induction fuel generalizing names with
  | zero => rfl
  | succ fuel ih =>
      have hopen : reproducing.unzOpen2 input = some [⟨[0x72], true, true, [input]⟩] :=
        if_neg hroot
      have hself : (⟨[0x72], true, true, [input]⟩ : Entry).zipbuf = input := by
        rw [zipbuf_of_chunks [0x72] (by simpa using hroot.symm), List.flatten_singleton]
      have hnests : (⟨[0x72], true, true, [input]⟩ : Entry).Nests :=
        ⟨rfl, rfl, by rwa [hself]⟩
      have hname : szname [0x72] = some [0x72] := by decide
      have hbody : body reproducing true (Recursion.run (body reproducing true) fuel)
          (input, names) = readEntries (Recursion.run (body reproducing true) fuel) names
            [⟨[0x72], true, true, [input]⟩] := body_zip hroot hopen
      rw [Recursion.run, hbody]
      simp only [readEntries, if_pos hnests, hname, hself, ih]

theorem reproducing_never_ends :
    ¬ Recursion.Ends (body reproducing true) ([0x50, 0x4b, 3, 4], []) := by
  intro ⟨result, fuel, hrun⟩
  rw [reproducing_run fuel (List.cons_ne_nil _ _)] at hrun
  cases hrun

end Palmira.Minizip
