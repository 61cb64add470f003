import Palmira.Core.Exception
import Palmira.Foundation.Recursion
import Palmira.Http.Message
import Mathlib.Data.List.TakeWhile

/-!
# Reading archives

`minizip::Read` calls a function for an input that is no zip archive, and itself for
each entry of one that is, with what the entry unpacks to and its name added to the
names it was given. The name is read into an array of 0x400 chars.
-/

namespace Palmira.Minizip

abbrev Bytes := Http.Bytes

/-- What `minizip` says of one entry: its name, whether `unzGetCurrentFileInfo` and
`unzOpenCurrentFile` are `UNZ_OK`, and what the calls of `unzReadCurrentFile` give. -/
structure Entry where
  name : Bytes
  info : Bool := true
  opens : Bool := true
  reads : List Bytes

/-- `unzOpen2` gives null, or an archive with these entries in the order of `unzGoToNextFile`. -/
structure Unzip where
  unzOpen2 : Bytes → Option (List Entry)

/-- `while ( (cbread = unzReadCurrentFile( unz, buffer, sizeof(buffer) )) > 0 )` -/
def Entry.zipbuf (e : Entry) : Bytes := (e.reads.takeWhile (· ≠ [])).flatten

/-- `Read` calls itself with what the entry unpacks to. -/
abbrev Entry.Nests (e : Entry) : Prop := e.info = true ∧ e.opens = true ∧ e.zipbuf ≠ []

/-- `szname` as a string. `unzGetCurrentFileInfo` puts no zero behind a name that fills the
array, and nothing stands for a string without one. -/
def szname (name : Bytes) : Option Bytes :=
  let array := name.take 0x400 ++ (if name.length < 0x400 then [0] else [])
  if 0 ∈ array then some (array.takeWhile (· ≠ 0)) else none

/-- A call of `fnTxt`. -/
structure Text where
  input : Bytes
  names : List Bytes
  deriving DecidableEq

/-- What a call gives: the calls of `fnTxt` it has made, or an exception. -/
abbrev Result := Except Exn (List Text)

/-- The arguments `input` and `names`. -/
abbrev Args := Bytes × List Bytes

/-- The loop over the entries; `read` is the recursive call. -/
def readEntries (read : Args → Option Result) (names : List Bytes) : List Entry → Option Result
  | [] => some (.ok [])
  | e :: rest =>
      if e.Nests then
        match szname e.name with
        | none => some (.error (.undefined "szname without a zero"))
        | some name =>
            match read (e.zipbuf, names ++ [name]) with
            | none => none
            | some (.error thrown) => some (.error thrown)
            | some (.ok texts) => (readEntries read names rest).map (Except.map (texts ++ ·))
      else readEntries read names rest

/-- `Read`; `fnTxt` tells whether there is a function to call. -/
def body (z : Unzip) (fnTxt : Bool) (read : Args → Option Result) (args : Args) : Option Result :=
  if fnTxt = false then
    some (.error (.invalidArgument "undefined minizip::Read( fRead... ) parameter"))
  else if args.1 = [] then
    some (.error (.invalidArgument "empty minizip::Read( ...input ... ) parameter"))
  else
    match z.unzOpen2 args.1 with
    | none => some (.ok [⟨args.1, args.2⟩])
    | some entries => readEntries read args.2 entries

/-- `Read` returns this. -/
def Reads (z : Unzip) (input : Bytes) (names : List Bytes) (result : Result) : Prop :=
  Recursion.Returns (body z true) (input, names) result

/-! ## Names -/

/-- The array of the name has a zero. -/
def Terminated (name : Bytes) : Prop := name.length < 0x400 ∨ 0 ∈ name.take 0x400

/-- A name as a string that ends at its first zero. -/
def cstring (name : Bytes) : Bytes := name.takeWhile (· ≠ 0)

theorem cstring_eq_self_iff {name : Bytes} : cstring name = name ↔ 0 ∉ name := by
  rw [cstring, List.takeWhile_eq_self_iff]
  constructor
  · intro hall hzero
    exact absurd (hall 0 hzero) (by decide)
  · intro hzero x hx
    exact decide_eq_true fun h => hzero (h ▸ hx)

theorem takeWhile_append_of_mem (p : UInt8 → Bool) {as : Bytes} (hmem : ∃ a ∈ as, p a = false)
    (bs : Bytes) : (as ++ bs).takeWhile p = as.takeWhile p := by
  obtain ⟨a, hmem, ha⟩ := hmem
  have hlt : (as.takeWhile p).length < as.length :=
    lt_of_le_of_ne (List.takeWhile_prefix p).length_le fun hlength => by
      rw [List.takeWhile_eq_self_iff.mp ((List.takeWhile_prefix p).eq_of_length hlength) a hmem]
        at ha
      cases ha
  rw [List.takeWhile_append, if_neg (Nat.ne_of_lt hlt)]

theorem szname_of_terminated {name : Bytes} (hname : Terminated name) :
    szname name = some (cstring name) := by
  unfold cstring
  by_cases hshort : name.length < 0x400
  · simp only [szname, if_pos hshort, List.take_of_length_le (Nat.le_of_lt hshort),
      List.mem_append, List.mem_singleton, or_true, if_true]
    rw [List.takeWhile_append]
    split
    next hall =>
        have hself := (List.takeWhile_prefix _).eq_of_length hall
        simp only [List.takeWhile_cons, ne_eq, not_true_eq_false, decide_false,
          Bool.false_eq_true, if_false, List.append_nil]
        exact congrArg some hself.symm
    next hall => rfl
  · have hzero := hname.resolve_left hshort
    simp only [szname, if_neg hshort, List.append_nil, if_pos hzero]
    conv_rhs => rw [← List.take_append_drop 0x400 name]
    rw [takeWhile_append_of_mem _ ⟨0, hzero, by simp⟩]

theorem szname_of_not_terminated {name : Bytes} (hname : ¬ Terminated name) :
    szname name = none := by
  unfold Terminated at hname
  rw [not_or] at hname
  simp only [szname, if_neg hname.1, List.append_nil, if_neg hname.2]

theorem szname_eq_some_iff {name read : Bytes} :
    szname name = some read ↔ Terminated name ∧ read = cstring name := by
  by_cases hname : Terminated name
  · rw [szname_of_terminated hname, Option.some.injEq]
    exact ⟨fun h => ⟨hname, h.symm⟩, fun h => h.2.symm⟩
  · rw [szname_of_not_terminated hname]
    exact ⟨nofun, fun h => absurd h.1 hname⟩

/-! ## Trees of archives -/

mutual

/-- A byte string that is no zip, or one that is. -/
inductive Archive where
  | text (content : Bytes)
  | zip (content : Bytes) (entries : Entries)

/-- The named entries of a zip. -/
inductive Entries where
  | nil
  | cons (name : Bytes) (archive : Archive) (rest : Entries)

end

def Archive.content : Archive → Bytes
  | .text content => content
  | .zip content _ => content

mutual

/-- The non-empty leaves, in depth-first entry order, each with `names` and the chain of entry
names leading to it. -/
def Archive.leaves (names : List Bytes) : Archive → List Text
  | .text content => if content = [] then [] else [⟨content, names⟩]
  | .zip _ entries => entries.leaves names

def Entries.leaves (names : List Bytes) : Entries → List Text
  | .nil => []
  | .cons name archive rest => archive.leaves (names ++ [name]) ++ rest.leaves names

end

mutual

/-- `minizip` finds this tree in its content: every entry is readable, in whatever chunks. -/
def Archive.FoundBy (z : Unzip) : Archive → Prop
  | .text content => z.unzOpen2 content = none
  | .zip content entries =>
      content ≠ [] ∧ ∃ stored, z.unzOpen2 content = some stored ∧ entries.FoundBy z stored

def Entries.FoundBy (z : Unzip) : Entries → List Entry → Prop
  | .nil, stored => stored = []
  | .cons name archive rest, stored => ∃ reads others,
      stored = ⟨name, true, true, reads⟩ :: others ∧ [] ∉ reads ∧
        reads.flatten = archive.content ∧ archive.FoundBy z ∧ rest.FoundBy z others

end

/-- What `Read` has of an entry. -/
def Entry.given (e : Entry) : Bytes := if e.info = true ∧ e.opens = true then e.zipbuf else []

mutual

/-- `Read` gets this tree out of its content, whether or not every entry could be read whole. -/
def Archive.ReadBy (z : Unzip) : Archive → Prop
  | .text content => z.unzOpen2 content = none
  | .zip content entries =>
      content ≠ [] ∧ ∃ stored, z.unzOpen2 content = some stored ∧ entries.ReadBy z stored

def Entries.ReadBy (z : Unzip) : Entries → List Entry → Prop
  | .nil, stored => stored = []
  | .cons name archive rest, stored => ∃ e others, stored = e :: others ∧ e.name = name ∧
      e.given = archive.content ∧ archive.ReadBy z ∧ rest.ReadBy z others

end

mutual

/-- The names of the non-empty entries have a zero in the array, at any depth. -/
def Archive.Terminated : Archive → Prop
  | .text _ => True
  | .zip _ entries => entries.Terminated

def Entries.Terminated : Entries → Prop
  | .nil => True
  | .cons name archive rest =>
      (archive.content ≠ [] → Minizip.Terminated name) ∧ archive.Terminated ∧ rest.Terminated

end

/-! ## The loop over the entries -/

theorem readEntries_skip {read : Args → Option Result} {names : List Bytes} {e : Entry}
    (hskip : ¬ e.Nests) (rest : List Entry) :
    readEntries read names (e :: rest) = readEntries read names rest := if_neg hskip

theorem readEntries_nested {read : Args → Option Result} {names : List Bytes} {e : Entry}
    {name : Bytes} {texts : List Text} (hnests : e.Nests) (hname : szname e.name = some name)
    (hread : read (e.zipbuf, names ++ [name]) = some (.ok texts)) (rest : List Entry) :
    readEntries read names (e :: rest) =
      (readEntries read names rest).map (Except.map (texts ++ ·)) := by
  simp only [readEntries, if_pos hnests, hname, hread]

/-- What the loop does with an entry when it ends without an exception. -/
theorem readEntries_cons_ok {read : Args → Option Result} {names : List Bytes} {e : Entry}
    {rest : List Entry} {texts : List Text}
    (hread : readEntries read names (e :: rest) = some (.ok texts)) :
    (∃ others, readEntries read names rest = some (.ok others)) ∧
      (e.Nests → ∃ name mine, szname e.name = some name ∧
        read (e.zipbuf, names ++ [name]) = some (.ok mine)) := by
  by_cases hnests : e.Nests
  · simp only [readEntries, if_pos hnests] at hread
    split at hread
    next => cases hread
    next name hname =>
        split at hread
        next => cases hread
        next => cases hread
        next mine hmine =>
            obtain ⟨result, hrest, hmap⟩ := Option.map_eq_some_iff.mp hread
            cases result with
            | error thrown => cases hmap
            | ok others => exact ⟨⟨others, hrest⟩, fun _ => ⟨name, mine, hname, hmine⟩⟩
  · rw [readEntries_skip hnests] at hread
    exact ⟨⟨texts, hread⟩, fun h => absurd h hnests⟩

theorem readEntries_mono {f g : Args → Option Result}
    (hfg : ∀ args result, f args = some result → g args = some result) {names : List Bytes}
    {entries : List Entry} {result : Result} (hread : readEntries f names entries = some result) :
    readEntries g names entries = some result := by
  induction entries generalizing result with
  | nil => exact hread
  | cons e rest ih =>
      by_cases hnests : e.Nests
      · simp only [readEntries, if_pos hnests] at hread ⊢
        cases hname : szname e.name with
        | none => rwa [hname] at hread
        | some name =>
            simp only [hname] at hread ⊢
            cases hf : f (e.zipbuf, names ++ [name]) with
            | none => rw [hf] at hread; cases hread
            | some mine =>
                rw [hf] at hread
                rw [hfg _ _ hf]
                cases mine with
                | error thrown => exact hread
                | ok texts =>
                    obtain ⟨others, hrest, hmap⟩ := Option.map_eq_some_iff.mp hread
                    exact Option.map_eq_some_iff.mpr ⟨others, ih hrest, hmap⟩
      · rw [readEntries_skip hnests] at hread ⊢
        exact ih hread

theorem body_zip {z : Unzip} {read : Args → Option Result} {args : Args} {entries : List Entry}
    (hargs : args.1 ≠ []) (hopen : z.unzOpen2 args.1 = some entries) :
    body z true read args = readEntries read args.2 entries := by
  simp only [body, Bool.true_eq_false, if_false, if_neg hargs, hopen]

theorem body_text {z : Unzip} {read : Args → Option Result} {args : Args}
    (hargs : args.1 ≠ []) (hopen : z.unzOpen2 args.1 = none) :
    body z true read args = some (.ok [⟨args.1, args.2⟩]) := by
  simp only [body, Bool.true_eq_false, if_false, if_neg hargs, hopen]

theorem body_monotone (z : Unzip) (fnTxt : Bool) : Recursion.Monotone (body z fnTxt) := by
  intro f g hfg args result hbody
  unfold body at hbody ⊢
  split
  next hfn => rwa [if_pos hfn] at hbody
  next hfn =>
      rw [if_neg hfn] at hbody
      split
      next hempty => rwa [if_pos hempty] at hbody
      next hempty =>
          rw [if_neg hempty] at hbody
          cases hopen : z.unzOpen2 args.1 with
          | none => rwa [hopen] at hbody
          | some entries =>
              rw [hopen] at hbody
              exact readEntries_mono hfg hbody

/-! ## The leaves are what is called -/

/-- The call for a leaf whose chain is `leaf.names`. -/
def Text.below (names : List Bytes) (leaf : Text) : Text :=
  ⟨leaf.input, names ++ leaf.names.map cstring⟩

mutual

theorem Archive.leaves_append (names chain : List Bytes) : (archive : Archive) →
    archive.leaves (names ++ chain) =
      (archive.leaves chain).map fun leaf => ⟨leaf.input, names ++ leaf.names⟩
  | .text content => by
      simp only [Archive.leaves]
      split
      next => rfl
      next => rfl
  | .zip _ entries => Entries.leaves_append names chain entries

theorem Entries.leaves_append (names chain : List Bytes) : (entries : Entries) →
    entries.leaves (names ++ chain) =
      (entries.leaves chain).map fun leaf => ⟨leaf.input, names ++ leaf.names⟩
  | .nil => rfl
  | .cons name archive rest => by
      simp only [Entries.leaves, List.map_append, List.append_assoc]
      rw [Archive.leaves_append names (chain ++ [name]) archive,
        Entries.leaves_append names chain rest]

end

theorem below_eq_iff {names : List Bytes} {leaf : Text} :
    (⟨leaf.input, names ++ leaf.names⟩ : Text) = leaf.below names ↔
      ∀ name ∈ leaf.names, 0 ∉ name := by
  rw [Text.below, Text.mk.injEq, List.append_right_inj]
  conv_lhs => rw [← List.map_id leaf.names]
  simp only [List.map_map, List.map_inj_left, true_and, Function.comp_apply, id_eq]
  exact forall₂_congr fun name _ => eq_comm.trans cstring_eq_self_iff

theorem zipbuf_of_chunks (name : Bytes) {reads : List Bytes} (hreads : [] ∉ reads) :
    (⟨name, true, true, reads⟩ : Entry).zipbuf = reads.flatten := by
  have hall : reads.takeWhile (· ≠ []) = reads :=
    List.takeWhile_eq_self_iff.mpr fun chunk hchunk =>
      decide_eq_true fun h => hreads (h ▸ hchunk)
  rw [Entry.zipbuf, hall]

theorem Entry.nests_iff (e : Entry) : e.Nests ↔ e.given ≠ [] := by
  unfold Entry.given
  by_cases hopens : e.info = true ∧ e.opens = true
  · rw [if_pos hopens]
    exact ⟨fun h => h.2.2, fun h => ⟨hopens.1, hopens.2, h⟩⟩
  · rw [if_neg hopens]
    exact ⟨fun h => absurd ⟨h.1, h.2.1⟩ hopens, fun h => absurd rfl h⟩

theorem Entry.Nests.given_eq {e : Entry} (hnests : e.Nests) : e.given = e.zipbuf :=
  if_pos ⟨hnests.1, hnests.2.1⟩

mutual

theorem Archive.FoundBy.readBy {z : Unzip} : (archive : Archive) → archive.FoundBy z →
    archive.ReadBy z
  | .text _, hfound => hfound
  | .zip _ entries, hfound => by
      obtain ⟨hroot, stored, hopen, hentries⟩ := hfound
      exact ⟨hroot, stored, hopen, Entries.FoundBy.readBy entries stored hentries⟩

theorem Entries.FoundBy.readBy {z : Unzip} : (entries : Entries) → (stored : List Entry) →
    entries.FoundBy z stored → entries.ReadBy z stored
  | .nil, _, hfound => hfound
  | .cons name archive rest, _, hfound => by
      obtain ⟨reads, others, rfl, hreads, hcontent, harchive, hrest⟩ := hfound
      exact ⟨_, others, rfl, rfl, (zipbuf_of_chunks name hreads).trans hcontent,
        Archive.FoundBy.readBy archive harchive, Entries.FoundBy.readBy rest others hrest⟩

end

/-- The calls for a list of entries are those for the first one with its name added, then the
others. -/
theorem Entries.map_below_leaves (names : List Bytes) (name : Bytes) (archive : Archive)
    (rest : Entries) :
    ((Entries.cons name archive rest).leaves []).map (Text.below names) =
      (archive.leaves []).map (Text.below (names ++ [cstring name])) ++
        (rest.leaves []).map (Text.below names) := by
  have hchain := Archive.leaves_append [name] [] archive
  rw [List.append_nil] at hchain
  simp only [Entries.leaves, List.nil_append, hchain, List.map_append, List.map_map]
  congr 2
  funext leaf
  simp only [Function.comp_apply, Text.below, List.map_append, List.map_cons, List.map_nil,
    List.append_assoc]

/-- Only a text is empty. -/
theorem Archive.eq_text_of_empty {z : Unzip} {archive : Archive} (hfound : archive.ReadBy z)
    (hempty : archive.content = []) : archive = .text [] := by
  cases archive with
  | text content => exact congrArg Archive.text hempty
  | zip content entries => exact absurd hempty hfound.1

mutual

theorem Archive.reads {z : Unzip} : (archive : Archive) → archive.ReadBy z →
    archive.Terminated → archive.content ≠ [] → (names : List Bytes) →
      Reads z archive.content names (.ok ((archive.leaves []).map (Text.below names)))
  | .text content, hfound, _, hroot, names => by
      have hleaves : Archive.leaves [] (.text content) = [⟨content, []⟩] := if_neg hroot
      have hbody : body z true (Recursion.run (body z true) 0) (content, names) =
          some (.ok [⟨content, names⟩]) := body_text hroot hfound
      refine ⟨1, ?_⟩
      rw [Recursion.run, hleaves, List.map_singleton, Text.below, List.map_nil, List.append_nil]
      exact hbody
  | .zip content entries, hfound, hterminated, hroot, names => by
      obtain ⟨_, stored, hopen, hentries⟩ := hfound
      obtain ⟨fuel, hrun⟩ := Entries.reads entries stored hentries hterminated names
      refine ⟨fuel + 1, ?_⟩
      rw [Recursion.run, body_zip hroot hopen]
      exact hrun

theorem Entries.reads {z : Unzip} : (entries : Entries) → (stored : List Entry) →
    entries.ReadBy z stored → entries.Terminated → (names : List Bytes) →
      ∃ fuel, readEntries (Recursion.run (body z true) fuel) names stored =
        some (.ok ((entries.leaves []).map (Text.below names)))
  | .nil, _, hfound, _, names => ⟨0, by rw [hfound]; rfl⟩
  | .cons name archive rest, _, hfound, hterminated, names => by
      obtain ⟨e, others, rfl, rfl, hcontent, harchive, hrest⟩ := hfound
      obtain ⟨hname, hdeep, hothers⟩ := hterminated
      obtain ⟨fuel, hrun⟩ := Entries.reads rest others hrest hothers names
      by_cases hempty : archive.content = []
      · have hskip : ¬ e.Nests := fun h => e.nests_iff.mp h (hcontent.trans hempty)
        rw [Archive.eq_text_of_empty harchive hempty]
        exact ⟨fuel, (readEntries_skip hskip others).trans hrun⟩
      · have hnests : e.Nests := e.nests_iff.mpr (hcontent ▸ hempty)
        obtain ⟨fuel', hmine⟩ :=
          Archive.reads archive harchive hdeep hempty (names ++ [cstring e.name])
        rw [← hcontent, hnests.given_eq] at hmine
        have hlater := Recursion.run_mono (body_monotone z true) (Nat.le_max_left fuel' fuel) hmine
        refine ⟨max fuel' fuel, ?_⟩
        rw [readEntries_nested hnests (szname_of_terminated (hname hempty)) hlater,
          readEntries_mono (fun _ _ => Recursion.run_mono (body_monotone z true)
            (Nat.le_max_right fuel' fuel)) hrun]
        rw [Entries.map_below_leaves]
        rfl

end

mutual

theorem Archive.terminated_of_run {z : Unzip} : (archive : Archive) → archive.ReadBy z →
    archive.content ≠ [] → (fuel : ℕ) → (names : List Bytes) → (texts : List Text) →
      Recursion.run (body z true) fuel (archive.content, names) = some (.ok texts) →
        archive.Terminated
  | .text _, _, _, _, _, _, _ => trivial
  | .zip content entries, hfound, hroot, 0, names, texts, hrun => nomatch hrun
  | .zip content entries, hfound, hroot, fuel + 1, names, texts, hrun => by
      obtain ⟨_, stored, hopen, hentries⟩ := hfound
      rw [Recursion.run, body_zip hroot hopen] at hrun
      exact Entries.terminated_of_run entries stored hentries fuel names texts hrun

theorem Entries.terminated_of_run {z : Unzip} : (entries : Entries) → (stored : List Entry) →
    entries.ReadBy z stored → (fuel : ℕ) → (names : List Bytes) → (texts : List Text) →
      readEntries (Recursion.run (body z true) fuel) names stored = some (.ok texts) →
        entries.Terminated
  | .nil, _, _, _, _, _, _ => trivial
  | .cons name archive rest, _, hfound, fuel, names, texts, hrun => by
      obtain ⟨e, others, rfl, rfl, hcontent, harchive, hrest⟩ := hfound
      obtain ⟨⟨left, hleft⟩, hentry⟩ := readEntries_cons_ok hrun
      have hothers := Entries.terminated_of_run rest others hrest fuel names left hleft
      by_cases hempty : archive.content = []
      · rw [Archive.eq_text_of_empty harchive hempty]
        exact ⟨fun h => absurd rfl h, trivial, hothers⟩
      · have hnests : e.Nests := e.nests_iff.mpr (hcontent ▸ hempty)
        obtain ⟨read, mine, hname, hmine⟩ := hentry hnests
        rw [← hnests.given_eq, hcontent] at hmine
        exact ⟨fun _ => (szname_eq_some_iff.mp hname).1,
          Archive.terminated_of_run archive harchive hempty fuel _ mine hmine, hothers⟩

end

/-- `Read` calls `fnTxt` for the leaves of the tree and for nothing else. -/
def EnumeratesLeaves (z : Unzip) (tree : Archive) (names : List Bytes) : Prop :=
  Reads z tree.content names (.ok (tree.leaves names))

/-- `Read` enumerates a tree exactly when the names of non-empty entries end in the array and
those on the way to a leaf have no zero. -/
theorem enumeratesLeaves_iff (z : Unzip) (tree : Archive) (names : List Bytes)
    (hfound : tree.FoundBy z) (hroot : tree.content ≠ []) :
    EnumeratesLeaves z tree names ↔
      tree.Terminated ∧ ∀ leaf ∈ tree.leaves [], ∀ name ∈ leaf.names, 0 ∉ name := by
  have hread := Archive.FoundBy.readBy tree hfound
  have hchain := Archive.leaves_append names [] tree
  rw [List.append_nil] at hchain
  have hsame : tree.leaves names = (tree.leaves []).map (Text.below names) ↔
      ∀ leaf ∈ tree.leaves [], ∀ name ∈ leaf.names, 0 ∉ name := by
    rw [hchain, List.map_inj_left]
    exact forall₂_congr fun leaf _ => below_eq_iff
  rw [← hsame]
  constructor
  · intro hreads
    obtain ⟨fuel, hrun⟩ := hreads
    have hterminated := tree.terminated_of_run hread hroot fuel names _ hrun
    have hbelow := tree.reads hread hterminated hroot names
    exact ⟨hterminated, Except.ok.inj (hbelow.unique (body_monotone z true) ⟨fuel, hrun⟩).symm⟩
  · intro ⟨hterminated, hleaves⟩
    rw [EnumeratesLeaves, hleaves]
    exact tree.reads hread hterminated hroot names

/-! ## Zips with stored entries -/

/-- An entry that is not compressed; `crc` is the checksum of its content. -/
structure Packed where
  name : Bytes
  content : Bytes
  crc : ℕ

def le16 (n : ℕ) : Bytes := [UInt8.ofNat n, UInt8.ofNat (n / 0x100)]

def le32 (n : ℕ) : Bytes := le16 n ++ le16 (n / 0x10000)

/-- The fields of the local header that the central directory repeats. -/
def Packed.fields (p : Packed) : Bytes :=
  [le16 20, le16 0, le16 0, le16 0, le16 33, le32 p.crc, le32 p.content.length,
    le32 p.content.length, le16 p.name.length, le16 0].flatten

def localEntry (p : Packed) : Bytes := [0x50, 0x4b, 3, 4] ++ (p.fields ++ p.name ++ p.content)

def centralEntry (offset : ℕ) (p : Packed) : Bytes :=
  [0x50, 0x4b, 1, 2] ++ le16 20 ++ p.fields ++
    [le16 0, le16 0, le16 0, le32 0, le32 offset].flatten ++ p.name

/-- The central directory of entries that start at an offset. -/
def directory (offset : ℕ) : List Packed → Bytes
  | [] => []
  | p :: rest => centralEntry offset p ++ directory (offset + (localEntry p).length) rest

/-- The bytes of a zip with these entries. -/
def storedZip (entries : List Packed) : Bytes :=
  entries.flatMap localEntry ++ (directory 0 entries ++ [0x50, 0x4b, 5, 6] ++
    [le16 0, le16 0, le16 entries.length, le16 entries.length,
      le32 (directory 0 entries).length, le32 (entries.flatMap localEntry).length,
      le16 0].flatten)

theorem storedZip_eq_cons (p : Packed) (others : List Packed) :
    ∃ rest, storedZip (p :: others) = 0x50 :: 0x4b :: rest := by
  rw [storedZip, List.flatMap_cons, localEntry, List.append_assoc, List.append_assoc,
    List.cons_append, List.cons_append]
  exact ⟨_, rfl⟩

/-- The zip of the letter x under a name. -/
def zipOfX (name : Bytes) : Bytes := storedZip [⟨name, [0x78], 0x8cdc1683⟩]

/-- `minizip` where this is the only zip. -/
def opensZipOfX (name : Bytes) : Unzip where
  unzOpen2 input := if input = zipOfX name then some [⟨name, true, true, [[0x78]]⟩] else none

def treeOfX (name : Bytes) : Archive := .zip (zipOfX name) (.cons name (.text [0x78]) .nil)

theorem zipOfX_ne_nil (name : Bytes) : zipOfX name ≠ [] := by
  obtain ⟨rest, hzip⟩ := storedZip_eq_cons ⟨name, [0x78], 0x8cdc1683⟩ []
  exact fun h => List.cons_ne_nil _ _ (hzip.symm.trans h)

theorem x_ne_zipOfX (name : Bytes) : [0x78] ≠ zipOfX name := by
  obtain ⟨rest, hzip⟩ := storedZip_eq_cons ⟨name, [0x78], 0x8cdc1683⟩ []
  exact fun h => List.cons_ne_nil _ _ (List.cons.inj (h.trans hzip)).2.symm

theorem treeOfX_found (name : Bytes) : (treeOfX name).FoundBy (opensZipOfX name) := by
  have htext : (opensZipOfX name).unzOpen2 [0x78] = none := by
    simp only [opensZipOfX, if_neg (x_ne_zipOfX name)]
  have hzipped : (opensZipOfX name).unzOpen2 (zipOfX name) =
      some [⟨name, true, true, [[0x78]]⟩] := by
    simp only [opensZipOfX, if_true]
  exact ⟨zipOfX_ne_nil name, _, hzipped, [[0x78]], [], rfl, by decide, rfl, htext, rfl⟩

/-- A name of 0x400 letters leaves no room for the zero in the array. -/
theorem long_name_not_enumerated :
    (treeOfX (.replicate 0x400 0x61)).FoundBy (opensZipOfX (.replicate 0x400 0x61)) ∧
      ¬ EnumeratesLeaves (opensZipOfX (.replicate 0x400 0x61))
        (treeOfX (.replicate 0x400 0x61)) [] := by
  refine ⟨treeOfX_found _, fun ⟨fuel, hrun⟩ => ?_⟩
  have hread := Archive.FoundBy.readBy _ (treeOfX_found (.replicate 0x400 0x61))
  have hterminated := Archive.terminated_of_run _ hread hread.1 fuel [] _ hrun
  rcases hterminated.1 nofun with hshort | hzero
  · rw [List.length_replicate] at hshort
    exact absurd hshort (Nat.lt_irrefl _)
  · have hletter := List.eq_of_mem_replicate (List.mem_of_mem_take hzero)
    exact absurd hletter (by decide)

/-! ### A zip in a zip -/

/-- A document of 0x500 letters x, an empty one, and the letter y. -/
def innerZip : Bytes :=
  storedZip [⟨[0x62], .replicate 0x500 0x78, 0xef1182de⟩, ⟨[0x65], [], 0⟩,
    ⟨[0x63], [0x79], 0xfbdb2615⟩]

/-- That zip and the letter x. -/
def outerZip : Bytes :=
  storedZip [⟨[0x61, 0x2e, 0x7a, 0x69, 0x70], innerZip, 0xa20094d7⟩, ⟨[0x64], [0x78], 0x8cdc1683⟩]

/-- `minizip` fills the buffer of 0x400 bytes as long as it can. -/
def opensNested : Unzip where
  unzOpen2 input :=
    if input = outerZip then
      some [⟨[0x61, 0x2e, 0x7a, 0x69, 0x70], true, true,
          [innerZip.take 0x400, innerZip.drop 0x400]⟩,
        ⟨[0x64], true, true, [[0x78]]⟩]
    else if input = innerZip then
      some [⟨[0x62], true, true, [.replicate 0x400 0x78, .replicate 0x100 0x78]⟩,
        ⟨[0x65], true, true, []⟩, ⟨[0x63], true, true, [[0x79]]⟩]
    else none

def nestedTree : Archive :=
  .zip outerZip
    (.cons [0x61, 0x2e, 0x7a, 0x69, 0x70]
      (.zip innerZip (.cons [0x62] (.text (.replicate 0x500 0x78)) (.cons [0x65] (.text [])
        (.cons [0x63] (.text [0x79]) .nil))))
      (.cons [0x64] (.text [0x78]) .nil))

theorem innerZip_ne_outerZip : innerZip ≠ outerZip := fun h =>
  absurd (congrArg (List.take 20) h) (by decide +kernel)

theorem opensNested_text {content : Bytes} (hfirst : content.take 1 ≠ [0x50]) :
    opensNested.unzOpen2 content = none := by
  have houter : content ≠ outerZip := fun h => hfirst (h ▸ by decide +kernel)
  have hinner : content ≠ innerZip := fun h => hfirst (h ▸ by decide +kernel)
  simp only [opensNested, if_neg houter, if_neg hinner]

theorem opensNested_inner : opensNested.unzOpen2 innerZip =
    some [⟨[0x62], true, true, [.replicate 0x400 0x78, .replicate 0x100 0x78]⟩,
      ⟨[0x65], true, true, []⟩, ⟨[0x63], true, true, [[0x79]]⟩] := by
  simp only [opensNested, if_neg innerZip_ne_outerZip, if_true]

theorem opensNested_outer : opensNested.unzOpen2 outerZip =
    some [⟨[0x61, 0x2e, 0x7a, 0x69, 0x70], true, true,
        [innerZip.take 0x400, innerZip.drop 0x400]⟩,
      ⟨[0x64], true, true, [[0x78]]⟩] := by
  simp only [opensNested, if_true]

theorem nestedTree_found : nestedTree.FoundBy opensNested := by
  have hwhole : [innerZip.take 0x400, innerZip.drop 0x400].flatten = innerZip := by
    rw [List.flatten_cons, List.flatten_singleton, List.take_append_drop]
  have hxs : [List.replicate 0x400 (0x78 : UInt8), .replicate 0x100 0x78].flatten =
      .replicate 0x500 0x78 := by
    rw [List.flatten_cons, List.flatten_singleton, List.replicate_append_replicate]
  refine ⟨by decide +kernel, _, opensNested_outer, _, _, rfl, by decide +kernel, hwhole,
    ⟨by decide +kernel, _, opensNested_inner, ?_⟩,
    _, _, rfl, by decide, rfl, opensNested_text (by decide), rfl⟩
  exact ⟨_, _, rfl, by decide +kernel, hxs, opensNested_text (by decide +kernel),
    _, _, rfl, by decide, rfl, opensNested_text (by decide),
    _, _, rfl, by decide, rfl, opensNested_text (by decide), rfl⟩

theorem enumeratesLeaves_nested :
    Reads opensNested outerZip [[0x6f]] (.ok
      [⟨.replicate 0x500 0x78, [[0x6f], [0x61, 0x2e, 0x7a, 0x69, 0x70], [0x62]]⟩,
        ⟨[0x79], [[0x6f], [0x61, 0x2e, 0x7a, 0x69, 0x70], [0x63]]⟩,
        ⟨[0x78], [[0x6f], [0x64]]⟩]) := by
  have hshort : ∀ name : Bytes, name.length < 0x400 → Terminated name := fun _ => .inl
  exact (enumeratesLeaves_iff opensNested nestedTree [[0x6f]] nestedTree_found
    nestedTree_found.1).mpr
      ⟨⟨fun _ => hshort _ (by decide),
        ⟨fun _ => hshort _ (by decide), trivial, fun _ => hshort _ (by decide), trivial,
          fun _ => hshort _ (by decide), trivial, trivial⟩,
        fun _ => hshort _ (by decide), trivial, trivial⟩, by decide +kernel⟩

end Palmira.Minizip
