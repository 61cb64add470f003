import Mathlib.Data.List.DropRight
import Palmira.Core.Zval
import Palmira.Foundation.Recursion
import Palmira.Libruseq.Listing

/-!
# The books of the archives

`libruseq-index` lists the files below a folder, and reads each as an archive, and the
entries of an archive as archives again; what is no archive is a book. A book goes by the
folder of its archive and the names that lead to it there, and is described by the tags of
its text. `β` stands for buffers, `T` for texts, `V` for views of them.
-/

namespace Palmira.Libruseq.Books

open Listing (Entries)

variable {β T V : Type}

/-! ## ListFiles -/

/-- `strcmp( dirent.string(), "." ) != 0 && strcmp( dirent.string(), ".." ) != 0` -/
def isListed (name : List Char) : Bool := name ≠ ['.'] ∧ name ≠ ['.', '.']

/-- What `ListFiles` lists of a folder, `canContinue` being set. -/
def listFiles (folder : List Char) : Entries → List (List Char)
  | .done => []
  | .file name rest =>
      (if isListed name then [folder ++ name] else []) ++ listFiles folder rest
  | .dir name entries rest =>
      (if isListed name then listFiles (folder ++ name ++ ['/']) entries else []) ++
        listFiles folder rest

/-! ## ReadZipped -/

/-- What `ReadDir` and `GetFile` give in turn, and whether in the end one of them throws. An
archive that cannot be opened without an exception is one of these too. -/
structure Archive (β : Type) where
  entries : List (List Char × β)
  torn : Bool

/-- What the indexer uses of `DeliriX`: `OpenZip`, which may give null, and `ParseFB2`, which may
throw. -/
structure DeliriX (β T : Type) where
  openZip : β → Option (Archive β)
  parseFB2 : β → Option T

/-- A book with its `sourceId`. -/
abbrev Book (T : Type) := List Char × T

/-- What a call of `ReadZipped` puts into `fb2Texts`, and whether it is left by an exception. -/
structure Puts (T : Type) where
  texts : List (Book T)
  thrown : Bool

/-- `str` up to the last of its slashes, which `find_last_of( "\\/" )` finds. -/
def folderOf (str : List Char) : List Char := str.rdropWhile fun c => !(c == '\\' || c == '/')

section ReadZipped

variable (lib : DeliriX β T)

/-- The loop over the entries; `read` is the recursive call. -/
def readDir (read : β × List Char → Option (Puts T)) (str : List Char) (torn : Bool) :
    List (List Char × β) → Option (Puts T)
  | [] => some ⟨[], torn⟩
  | (name, file) :: rest =>
      match read (file, folderOf str ++ name) with
      | none => none
      | some puts =>
          if puts.thrown then some puts
          else (readDir read str torn rest).map fun more =>
            ⟨puts.texts ++ more.texts, more.thrown⟩

/-- `ReadZipped`. What is no archive and no book is left out. -/
def readZipped (read : β × List Char → Option (Puts T)) (args : β × List Char) :
    Option (Puts T) :=
  match lib.openZip args.1 with
  | some archive => readDir read args.2 archive.torn archive.entries
  | none =>
      match lib.parseFB2 args.1 with
      | some thedoc => some ⟨[(args.2, thedoc)], false⟩
      | none => some ⟨[], false⟩

end ReadZipped

/-! ## LoadString -/

/-- A block of a text; its encoding is -1 where it is wide. -/
inductive Block where
  | wide (str : WideStr)
  | chars (encoding : UInt32) (str : String)

/-- What the indexer uses of a text and of `codepages`. -/
structure TextView (T V : Type) where
  view : T → V
  findFirst : V → String → Option V
  getBlocks : V → List Block
  widetombcs : WideStr → String
  mbcstombcs : UInt32 → String → String

/-- `str.c_str()` as the `%s` of `strprintf` reads it. -/
def cstr (str : String) : String := String.ofList (str.toList.takeWhile fun c => c != '\x00')

section LoadString

variable (env : TextView T V)

/-- A block in UTF-8. -/
def Block.utf8 : Block → String
  | .wide str => env.widetombcs str
  | .chars encoding str => env.mbcstombcs encoding str

/-- `LoadString`: the blocks of what the tags lead to, a line each. -/
def loadString (text : T) (tags : List String) : String :=
  match tags.foldlM env.findFirst (env.view text) with
  | none => ""
  | some ptag => (env.getBlocks ptag).foldl (fun output next =>
      cstr output ++ (if output = "" then "" else "\n") ++ cstr (next.utf8 env)) ""

/-- `author` in `IndexTexts` -/
def author (name surn nick : String) : String :=
  let author := name
  let author := if surn = "" then author else if author = "" then surn else author ++ " " ++ surn
  if nick = "" then author
  else if author = "" then cstr nick
  else author ++ " (" ++ nick ++ ")"

/-- `zmdata` in `IndexTexts` -/
def metadata (text : T) : Zmap :=
  let ttlStr := loadString env text ["book-title"]
  let author := author (loadString env text ["author", "first-name"])
    (loadString env text ["author", "last-name"]) (loadString env text ["author", "nickname"])
  let zmdata : Zmap := if ttlStr = "" then [] else Zmap.put [] "title" (.charstr ttlStr)
  if author = "" then zmdata else Zmap.put zmdata "author" (.charstr author)

end LoadString

/-! ## The names of books -/

/-- The `sourceId` of what these names lead to in an archive: of every name but the last its folder
is left. -/
def sourceId (str : List Char) (names : List (List Char)) : List Char :=
  match names.getLast? with
  | some name => folderOf str ++ names.dropLast.flatMap folderOf ++ name
  | none => str

theorem folderOf_append (str name : List Char) :
    folderOf (folderOf str ++ name) = folderOf str ++ folderOf name := by
  unfold folderOf
  induction name using List.reverseRecOn with
  | nil => rw [List.append_nil, List.rdropWhile_idempotent, List.rdropWhile_nil, List.append_nil]
  | append_singleton name c ih =>
      rw [← List.append_assoc, List.rdropWhile_concat, List.rdropWhile_concat]
      split
      · exact ih
      · exact List.append_assoc _ _ _

theorem sourceId_cons (str name : List Char) (names : List (List Char)) :
    sourceId (folderOf str ++ name) names = sourceId str (name :: names) := by
  unfold sourceId
  induction names using List.reverseRecOn with
  | nil => simp
  | append_singleton names last _ =>
      rw [List.getLast?_concat, ← List.cons_append, List.getLast?_concat, List.dropLast_concat,
        List.dropLast_concat]
      simp [folderOf_append]

/-! ## What is in an archive -/

section Contains

variable (lib : DeliriX β T)

/-- These names lead from a buffer to another one. -/
inductive Leads : β → List (List Char) → β → Prop
  | here (buf : β) : Leads buf [] buf
  | entry {buf file leaf : β} {archive : Archive β} {name : List Char} {names : List (List Char)}
      (hopen : lib.openZip buf = some archive) (hmem : (name, file) ∈ archive.entries)
      (hrest : Leads file names leaf) : Leads buf (name :: names) leaf

/-- A book that a buffer of this name contains. -/
def Contains (buf : β) (str : List Char) (book : Book T) : Prop :=
  ∃ names leaf, Leads lib buf names leaf ∧ lib.openZip leaf = none ∧
    lib.parseFB2 leaf = some book.2 ∧ book.1 = sourceId str names

/-- No archive that a buffer leads to throws. -/
def Whole (buf : β) : Prop :=
  ∀ names file archive, Leads lib buf names file → lib.openZip file = some archive →
    archive.torn = false

/-- One buffer is an entry of the other. -/
def Nested (child parent : β) : Prop :=
  ∃ archive name, lib.openZip parent = some archive ∧ (name, child) ∈ archive.entries

/-- An infinite chain of archives starts here. -/
def EndlesslyNested (buf : β) : Prop :=
  ∃ chain : ℕ → β, chain 0 = buf ∧ ∀ i, Nested lib (chain (i + 1)) (chain i)

end Contains

section Reading

variable {lib : DeliriX β T} {read : β × List Char → Option (Puts T)} {str : List Char}
  {torn : Bool} {entries : List (List Char × β)} {puts : Puts T}

/-- What the loop does with its first entry. -/
theorem readDir_cons {name : List Char} {file : β} {rest : List (List Char × β)}
    (hdir : readDir read str torn ((name, file) :: rest) = some puts) :
    ∃ mine, read (file, folderOf str ++ name) = some mine ∧
      ((mine.thrown = true ∧ puts = mine) ∨
        (mine.thrown = false ∧ ∃ more, readDir read str torn rest = some more ∧
          puts = ⟨mine.texts ++ more.texts, more.thrown⟩)) := by
  simp only [readDir] at hdir
  cases hread : read (file, folderOf str ++ name) with
  | none =>
      rw [hread] at hdir
      cases hdir
  | some mine =>
      simp only [hread] at hdir
      refine ⟨mine, rfl, ?_⟩
      cases hthrown : mine.thrown with
      | true =>
          rw [hthrown] at hdir
          exact .inl ⟨rfl, (Option.some.inj hdir).symm⟩
      | false =>
          rw [hthrown] at hdir
          obtain ⟨more, hmore, hputs⟩ := Option.map_eq_some_iff.mp hdir
          exact .inr ⟨rfl, more, hmore, hputs.symm⟩

/-- What the loop has put, one of its calls has. -/
theorem mem_readDir (hdir : readDir read str torn entries = some puts) {book : Book T}
    (hbook : book ∈ puts.texts) : ∃ name file mine, (name, file) ∈ entries ∧
      read (file, folderOf str ++ name) = some mine ∧ book ∈ mine.texts := by
  induction entries generalizing puts with
  | nil =>
      cases hdir
      exact absurd hbook List.not_mem_nil
  | cons first rest ih =>
      obtain ⟨mine, hread, ⟨-, rfl⟩ | ⟨-, more, hmore, rfl⟩⟩ := readDir_cons hdir
      · exact ⟨_, _, puts, List.mem_cons_self, hread, hbook⟩
      · rcases List.mem_append.mp hbook with hmine | hothers
        · exact ⟨_, _, mine, List.mem_cons_self, hread, hmine⟩
        · obtain ⟨name, file, mine', hmem, hread', hbook'⟩ := ih hmore hothers
          exact ⟨name, file, mine', List.mem_cons_of_mem _ hmem, hread', hbook'⟩

/-- A loop that is not left by an exception has made all its calls, and none of them was. -/
theorem readDir_whole (hdir : readDir read str torn entries = some puts)
    (hwhole : puts.thrown = false) {name : List Char} {file : β} (hmem : (name, file) ∈ entries) :
    ∃ mine, read (file, folderOf str ++ name) = some mine ∧ mine.thrown = false ∧
      mine.texts ⊆ puts.texts := by
  induction entries generalizing puts with
  | nil => exact absurd hmem List.not_mem_nil
  | cons first rest ih =>
      obtain ⟨mine, hread, ⟨hthrown, rfl⟩ | ⟨hthrown, more, hmore, rfl⟩⟩ := readDir_cons hdir
      · rw [hwhole] at hthrown
        cases hthrown
      · rcases List.mem_cons.mp hmem with rfl | hmem
        · exact ⟨mine, hread, hthrown, List.subset_append_left _ _⟩
        · obtain ⟨mine', hread', hthrown', hsub⟩ := ih hmore hwhole hmem
          exact ⟨mine', hread', hthrown', List.subset_append_of_subset_right _ hsub⟩

/-- An exception comes from the archive itself or out of one of the calls. -/
theorem readDir_thrown (hdir : readDir read str torn entries = some puts)
    (hthrown : puts.thrown = true) : torn = true ∨ ∃ name file mine, (name, file) ∈ entries ∧
      read (file, folderOf str ++ name) = some mine ∧ mine.thrown = true := by
  induction entries generalizing puts with
  | nil =>
      cases hdir
      exact .inl hthrown
  | cons first rest ih =>
      obtain ⟨mine, hread, ⟨hmine, rfl⟩ | ⟨-, more, hmore, rfl⟩⟩ := readDir_cons hdir
      · exact .inr ⟨_, _, puts, List.mem_cons_self, hread, hmine⟩
      · rcases ih hmore hthrown with htorn | ⟨name, file, mine', hmem, hread', hmine'⟩
        · exact .inl htorn
        · exact .inr ⟨name, file, mine', List.mem_cons_of_mem _ hmem, hread', hmine'⟩

theorem readDir_mono {read' : β × List Char → Option (Puts T)}
    (hread : ∀ args mine, read args = some mine → read' args = some mine)
    (hdir : readDir read str torn entries = some puts) :
    readDir read' str torn entries = some puts := by
  induction entries generalizing puts with
  | nil => exact hdir
  | cons first rest ih =>
      obtain ⟨mine, hmine, ⟨hthrown, rfl⟩ | ⟨hthrown, more, hmore, rfl⟩⟩ := readDir_cons hdir
      · simp only [readDir, hread _ _ hmine, hthrown, if_true]
      · simp only [readDir, hread _ _ hmine, hthrown, ih hmore, Bool.false_eq_true, if_false,
          Option.map_some]

/-- The loop has a result once its calls have. -/
theorem exists_readDir (hread : ∀ name file, (name, file) ∈ entries →
      ∃ mine, read (file, folderOf str ++ name) = some mine) :
    ∃ puts, readDir read str torn entries = some puts := by
  induction entries with
  | nil => exact ⟨_, rfl⟩
  | cons first rest ih =>
      obtain ⟨name, file⟩ := first
      obtain ⟨mine, hmine⟩ := hread name file List.mem_cons_self
      obtain ⟨more, hmore⟩ := ih fun name file hmem => hread name file (List.mem_cons_of_mem _ hmem)
      simp only [readDir, hmine, hmore]
      cases mine.thrown with
      | true => exact ⟨_, rfl⟩
      | false => exact ⟨_, rfl⟩

end Reading

section Reads

variable {lib : DeliriX β T}

/-- The arguments of the recursive calls. -/
def children (lib : DeliriX β T) (args : β × List Char) : List (β × List Char) :=
  match lib.openZip args.1 with
  | some archive => archive.entries.map fun entry => (entry.2, folderOf args.2 ++ entry.1)
  | none => []

theorem readZipped_monotone (lib : DeliriX β T) : Recursion.Monotone (readZipped lib) := by
  intro read read' hread args puts hrun
  unfold readZipped at hrun ⊢
  cases hopen : lib.openZip args.1 with
  | some archive =>
      rw [hopen] at hrun
      exact readDir_mono hread hrun
  | none =>
      rw [hopen] at hrun
      exact hrun

theorem readZipped_asks (lib : DeliriX β T) : Recursion.Asks (readZipped lib) (children lib) := by
  intro read args hchildren
  unfold readZipped
  unfold children at hchildren
  cases hopen : lib.openZip args.1 with
  | some archive =>
      rw [hopen] at hchildren
      exact exists_readDir fun name file hmem =>
        hchildren _ (List.mem_map_of_mem (a := (name, file)) hmem)
  | none =>
      cases lib.parseFB2 args.1 with
      | some thedoc => exact ⟨_, rfl⟩
      | none => exact ⟨_, rfl⟩

/-- `ReadZipped` ends where no infinite chain of archives starts. -/
theorem readZipped_ends {buf : β} (hends : ¬ EndlesslyNested lib buf) (str : List Char) :
    Recursion.Ends (readZipped lib) (buf, str) := by
  have hacc : Acc (Nested lib) buf := by
    rw [acc_iff_isEmpty_descending_chain, ← not_nonempty_iff, nonempty_subtype]
    exact hends
  apply Recursion.ends_of_acc (readZipped_monotone lib) (readZipped_asks lib)
  apply Subrelation.accessible _ (InvImage.accessible Prod.fst hacc)
  intro child parent hchild
  unfold children at hchild
  cases hopen : lib.openZip parent.1 with
  | some archive =>
      rw [hopen] at hchild
      obtain ⟨⟨name, file⟩, hmem, rfl⟩ := List.mem_map.mp hchild
      exact ⟨archive, name, hopen, hmem⟩
  | none =>
      rw [hopen] at hchild
      exact absurd hchild List.not_mem_nil

variable {puts : Puts T}

/-- What a call puts are books that its archive contains. -/
theorem contains_of_run {fuel : ℕ} {buf : β} {str : List Char}
    (hrun : Recursion.run (readZipped lib) fuel (buf, str) = some puts) {book : Book T}
    (hbook : book ∈ puts.texts) : Contains lib buf str book := by
  induction fuel generalizing buf str puts with
  | zero => cases hrun
  | succ fuel ih =>
      rw [Recursion.run, readZipped] at hrun
      cases hopen : lib.openZip buf with
      | some archive =>
          simp only [hopen] at hrun
          obtain ⟨name, file, mine, hmem, hread, hmine⟩ := mem_readDir hrun hbook
          obtain ⟨names, leaf, hleads, hleaf, hparse, hid⟩ := ih hread hmine
          exact ⟨name :: names, leaf, .entry hopen hmem hleads, hleaf, hparse,
            hid.trans (sourceId_cons str name names)⟩
      | none =>
          simp only [hopen] at hrun
          cases hparse : lib.parseFB2 buf with
          | some thedoc =>
              rw [hparse] at hrun
              cases hrun
              obtain rfl := List.mem_singleton.mp hbook
              exact ⟨[], buf, .here buf, hopen, hparse, rfl⟩
          | none =>
              rw [hparse] at hrun
              cases hrun
              exact absurd hbook List.not_mem_nil

/-- A call that is not left by an exception puts every book of its archive. -/
theorem mem_of_contains {fuel : ℕ} {buf : β} {str : List Char}
    (hrun : Recursion.run (readZipped lib) fuel (buf, str) = some puts)
    (hwhole : puts.thrown = false) {book : Book T} (hcontains : Contains lib buf str book) :
    book ∈ puts.texts := by
  obtain ⟨names, leaf, hleads, hleaf, hparse, hid⟩ := hcontains
  induction hleads generalizing fuel str puts with
  | here buf =>
      cases fuel with
      | zero => cases hrun
      | succ fuel =>
          simp only [Recursion.run, readZipped, hleaf, hparse] at hrun
          cases hrun
          exact List.mem_singleton.mpr (Prod.ext hid rfl)
  | entry hopen hmem hrest ih =>
      cases fuel with
      | zero => cases hrun
      | succ fuel =>
          simp only [Recursion.run, readZipped, hopen] at hrun
          obtain ⟨mine, hread, hmine, hsub⟩ := readDir_whole hrun hwhole hmem
          exact hsub (ih hread hmine hleaf hparse (hid.trans (sourceId_cons _ _ _).symm))

/-- Only an archive that throws leaves a call by an exception. -/
theorem not_thrown {fuel : ℕ} {buf : β} {str : List Char}
    (hrun : Recursion.run (readZipped lib) fuel (buf, str) = some puts) (hwhole : Whole lib buf) :
    puts.thrown = false := by
  induction fuel generalizing buf str puts with
  | zero => cases hrun
  | succ fuel ih =>
      rw [Recursion.run, readZipped] at hrun
      cases hopen : lib.openZip buf with
      | some archive =>
          simp only [hopen] at hrun
          cases hthrown : puts.thrown with
          | false => rfl
          | true =>
              rcases readDir_thrown hrun hthrown with htorn | ⟨name, file, mine, hmem, hread, hmine⟩
              · rw [hwhole [] buf archive (.here buf) hopen] at htorn
                cases htorn
              · have hfile : Whole lib file := fun names leaf nested hleads hnested =>
                  hwhole (name :: names) leaf nested (.entry hopen hmem hleads) hnested
                rw [ih hread hfile] at hmine
                cases hmine
      | none =>
          simp only [hopen] at hrun
          cases hparse : lib.parseFB2 buf with
          | some thedoc =>
              rw [hparse] at hrun
              cases hrun
              rfl
          | none =>
              rw [hparse] at hrun
              cases hrun
              rfl

end Reads

end Palmira.Libruseq.Books
