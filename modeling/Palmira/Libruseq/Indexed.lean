import Palmira.Libruseq.Books
import Palmira.Libruseq.Drained
import Palmira.Service.Store

/-!
# The index of the books

The whole of `libruseq-index`: what the folder and its archives contain, the threads that
read and insert it in any order, and the service that is behind them when they are joined.
-/

namespace Palmira.Libruseq.Books

open Effects Http Service StepSystem
open Listing (Entries)

variable {β T V : Type}

/-! ## The program -/

/-- What `ParseTexts` puts for an archive, with a budget of nested calls; `LoadFile` gives the
buffer or throws. -/
def textsOf (lib : DeliriX β T) (load : List Char → Option β) (fuel : ℕ) (file : List Char) :
    List (Book T) :=
  match load file with
  | some buf => ((Recursion.run (readZipped lib) fuel (buf, file)).map Puts.texts).getD []
  | none => []

/-- What `IndexTexts` inserts for a book. -/
def insertArgs (env : TextView T V) (book : Book T) : InsertArgs T :=
  { objectId := String.ofList book.1, metadata := metadata env book.2, textview := book.2 }

section Insertions

variable {γ B F C : Type} (service : Structo γ T B F C)

/-- The service behind these insertions. -/
def inserted (env : TextView T V) (s : StructoSearch γ F C) (books : List (Book T)) :
    Session (StructoSearch γ F C) Stored :=
  session service s (books.map fun book => .insert (insertArgs env book))

/-- The service takes the book, in whatever state it is. -/
def Takes (env : TextView T V) (book : Book T) : Prop :=
  ∀ s, Ends (service.insert (insertArgs env book)) s (fun answer _ => succeeded answer = true)
    (fun _ _ => False)

variable {service} {env : TextView T V} {s : StructoSearch γ F C} {books : List (Book T)}

theorem inserted_concat (book : Book T) : inserted service env s (books ++ [book]) =
    Session.step service.perform recordAnswer (inserted service env s books)
      (.insert (insertArgs env book)) := by
  unfold inserted session
  rw [List.map_append, List.map_singleton, Session.run_concat]

/-- An insertion is recorded under its id or tells nothing. -/
theorem seen_insert (h : Session (StructoSearch γ F C) Stored) (args : InsertArgs T) :
    (Session.step service.perform recordAnswer h (.insert args)).seen = h.seen ∨
      (Session.step service.perform recordAnswer h (.insert args)).seen =
        Function.update h.seen args.objectId (some args.metadata) := by
  unfold Session.step
  split
  next answer state _ =>
    cases hok : succeeded answer with
    | true => exact .inr (if_pos hok)
    | false => exact .inl (if_neg (by rw [hok]; exact Bool.false_ne_true))
  next => exact .inl rfl

theorem seen_insert_of_takes {book : Book T} (htakes : Takes service env book)
    (h : Session (StructoSearch γ F C) Stored) :
    (Session.step service.perform recordAnswer h (.insert (insertArgs env book))).seen =
      Function.update h.seen (String.ofList book.1) (some (metadata env book.2)) := by
  obtain ⟨answer, state, hrun, hok⟩ := (htakes h.state).returns
  have hperform : (service.perform (.insert (insertArgs env book))).run.run h.state =
      (.ok answer, state) := hrun
  unfold Session.step
  rw [hperform]
  exact if_pos hok

/-- What is stored under an id is what was there before or describes a book of this id. -/
theorem seen_inserted (id : String) :
    (inserted service env s books).seen id = service.documents s.ctxIndex id ∨
      ∃ book ∈ books, String.ofList book.1 = id ∧
        (inserted service env s books).seen id = some (metadata env book.2) := by
  induction books using List.reverseRecOn with
  | nil => exact .inl rfl
  | append_singleton books last ih =>
      rw [inserted_concat]
      have hkept : (inserted service env s books).seen id = service.documents s.ctxIndex id ∨
          ∃ book ∈ books ++ [last], String.ofList book.1 = id ∧
            (inserted service env s books).seen id = some (metadata env book.2) := by
        refine ih.imp_right ?_
        rintro ⟨book, hmem, hbook⟩
        exact ⟨book, List.mem_append_left _ hmem, hbook⟩
      rcases seen_insert (inserted service env s books) (insertArgs env last) with
        hsame | hstored
      · rw [hsame]
        exact hkept
      · rw [hstored]
        by_cases hid : id = (insertArgs env last).objectId
        · rw [hid, Function.update_self]
          exact .inr ⟨last, List.mem_append_right _ (List.mem_singleton_self last), rfl, rfl⟩
        · rw [Function.update_of_ne hid]
          exact hkept

/-- Where the service takes every book, each id of a book has the description of a book. -/
theorem seen_inserted_of_takes (htakes : ∀ book ∈ books, Takes service env book) {book : Book T}
    (hmem : book ∈ books) : ∃ other ∈ books, String.ofList other.1 = String.ofList book.1 ∧
      (inserted service env s books).seen (String.ofList book.1) =
        some (metadata env other.2) := by
  induction books using List.reverseRecOn with
  | nil => exact absurd hmem List.not_mem_nil
  | append_singleton books last ih =>
      have hlast := List.mem_append_right books (List.mem_singleton_self last)
      rw [inserted_concat, seen_insert_of_takes (htakes last hlast)]
      by_cases hid : String.ofList book.1 = String.ofList last.1
      · rw [hid, Function.update_self]
        exact ⟨last, hlast, rfl, rfl⟩
      · rw [Function.update_of_ne hid]
        rcases List.mem_append.mp hmem with hold | hnew
        · obtain ⟨other, hother, hstored⟩ :=
            ih (fun book hmem => htakes book (List.mem_append_left _ hmem)) hold
          exact ⟨other, List.mem_append_left _ hother, hstored⟩
        · exact absurd (congrArg (String.ofList ·.1) (List.mem_singleton.mp hnew)) hid

/-- The index holds what the insertions have told. -/
theorem documents_inserted (hlib : service.Lawful) {id : String} (hid : id ≠ indexMappings) :
    service.documents (inserted service env s books).state.ctxIndex id =
      (inserted service env s books).seen id := by
  have hholds : HoldsStored service (inserted service env s books).state
      (inserted service env s books).seen :=
    Session.run_invariant (fun _ _ op hinv => holdsStored_perform hlib op hinv) (fun _ _ => rfl) _
  exact hholds id hid

end Insertions

/-! ## The books of the folder -/

section Folder

variable (lib : DeliriX β T) (load : List Char → Option β) (files : List (List Char))

/-- A book of an archive that is listed. -/
def Listed (book : Book T) : Prop :=
  ∃ file ∈ files, ∃ buf, load file = some buf ∧ Contains lib buf file book

/-- The archives that are listed end, and none of them throws. -/
def AllWhole : Prop := ∀ file ∈ files, ∀ buf, load file = some buf → Whole lib buf

variable {lib load files}

/-- With enough nested calls the parsers put books that are listed, and all of them if no archive
throws. -/
theorem exists_textsOf (hends : ∀ file ∈ files, ∀ buf, load file = some buf →
      ¬ EndlesslyNested lib buf) : ∃ fuel, ∀ more, fuel ≤ more →
    (∀ book ∈ files.flatMap (textsOf lib load more), Listed lib load files book) ∧
      (AllWhole lib load files → ∀ book, Listed lib load files book →
        book ∈ files.flatMap (textsOf lib load more)) := by
  have hone : ∀ file ∈ files, ∃ fuel, ∀ more, fuel ≤ more → ∀ later, more ≤ later → ∀ buf,
      load file = some buf →
        ∃ puts, Recursion.run (readZipped lib) later (buf, file) = some puts := by
    intro file hfile
    cases hload : load file with
    | none => exact ⟨0, fun _ _ _ _ _ h => by cases h⟩
    | some buf =>
        obtain ⟨puts, fuel, hrun⟩ := readZipped_ends (hends file hfile buf hload) file
        refine ⟨fuel, fun more hmore later hlater _ h => ?_⟩
        cases h
        exact ⟨puts, Recursion.run_mono (readZipped_monotone lib) (hmore.trans hlater) hrun⟩
  obtain ⟨fuel, hfuel⟩ := Loop.exists_budget hone
  refine ⟨fuel, fun more hmore => ⟨?_, ?_⟩⟩
  · intro book hbook
    obtain ⟨file, hfile, hput⟩ := List.mem_flatMap.mp hbook
    unfold textsOf at hput
    cases hload : load file with
    | none =>
        rw [hload] at hput
        exact absurd hput List.not_mem_nil
    | some buf =>
        obtain ⟨puts, hrun⟩ := hfuel file hfile more hmore buf hload
        simp only [hload, hrun, Option.map_some, Option.getD_some] at hput
        exact ⟨file, hfile, buf, hload, contains_of_run hrun hput⟩
  · rintro hwhole book ⟨file, hfile, buf, hload, hcontains⟩
    obtain ⟨puts, hrun⟩ := hfuel file hfile more hmore buf hload
    refine List.mem_flatMap.mpr ⟨file, hfile, ?_⟩
    simp only [textsOf, hload, hrun, Option.map_some, Option.getD_some]
    exact mem_of_contains hrun (not_thrown hrun (hwhole file hfile buf hload)) hcontains

/-- Every book a thread has inserted is one of those that were put, and these are all inserted when
none is left in the queue. -/
theorem mem_inserted {textsOf : List Char → List (Book T)} {nParsers nIndexers : ℕ}
    {actors : List Actor} {s : System (List Char) (Book T)}
    (hrun : run (step textsOf) (start files nParsers nIndexers) actors = some s)
    (hjoined : s.main = .joined) :
    (∀ book ∈ s.shared.inserted, book ∈ files.flatMap textsOf) ∧
      (s.shared.fb2Texts = [] → ∀ book ∈ files.flatMap textsOf, book ∈ s.shared.inserted) := by
  have haccounted : Accounted textsOf files s :=
    run_invariant (fun _ _ _ h hstep => accounted_step h hstep)
      (accounted_start textsOf files nParsers nIndexers) hrun
  obtain ⟨-, -, htexts⟩ := accounted_joined haccounted hjoined
  rw [Multiset.coe_add, Multiset.coe_eq_coe] at htexts
  refine ⟨fun book hmem => htexts.subset (List.mem_append_right _ hmem), ?_⟩
  intro hnone book hmem
  rw [hnone, List.nil_append] at htexts
  exact htexts.symm.subset hmem

end Folder

/-- However its threads take turns, the indexer leaves under every id but the service's own what was
there before or the description of a book of this id; and where no archive throws, the service takes
every book and no text is left in the queue, it leaves such a description under the id of every book
that is listed. -/
theorem index_holds_books {γ B F C : Type} {service : Structo γ T B F C} (hlib : service.Lawful)
    (env : TextView T V) {lib : DeliriX β T} {load : List Char → Option β} {folder : List Char}
    {entries : Entries} (hends : ∀ file ∈ listFiles folder entries, ∀ buf, load file = some buf →
      ¬ EndlesslyNested lib buf) (before : StructoSearch γ F C) :
    ∃ fuel, ∀ more, fuel ≤ more → ∀ (nParsers nIndexers : ℕ) (actors : List Actor)
      (s : System (List Char) (Book T)),
      run (step (textsOf lib load more)) (start (listFiles folder entries) nParsers nIndexers)
        actors = some s → s.main = .joined → ∀ id, id ≠ indexMappings →
      (service.documents (inserted service env before s.shared.inserted).state.ctxIndex id =
          service.documents before.ctxIndex id ∨
        ∃ book, Listed lib load (listFiles folder entries) book ∧ String.ofList book.1 = id ∧
          service.documents (inserted service env before s.shared.inserted).state.ctxIndex id =
            some (metadata env book.2)) ∧
      (AllWhole lib load (listFiles folder entries) →
        (∀ book, Listed lib load (listFiles folder entries) book → Takes service env book) →
        s.shared.fb2Texts = [] →
        (∃ book, Listed lib load (listFiles folder entries) book ∧ String.ofList book.1 = id) →
        ∃ book, Listed lib load (listFiles folder entries) book ∧ String.ofList book.1 = id ∧
          service.documents (inserted service env before s.shared.inserted).state.ctxIndex id =
            some (metadata env book.2)) := by
  obtain ⟨fuel, htexts⟩ := exists_textsOf hends
  refine ⟨fuel, fun more hmore nParsers nIndexers actors s hrun hjoined id hid => ?_⟩
  obtain ⟨hlisted, hall⟩ := htexts more hmore
  obtain ⟨hput, hdone⟩ := mem_inserted hrun hjoined
  rw [documents_inserted hlib hid]
  constructor
  · refine (seen_inserted id).imp_right ?_
    rintro ⟨book, hmem, hbook⟩
    exact ⟨book, hlisted book (hput book hmem), hbook⟩
  · rintro hwhole htakes hnone ⟨book, hbook, rfl⟩
    have hmem := hdone hnone book (hall hwhole book hbook)
    obtain ⟨other, hother, hsame, hstored⟩ := seen_inserted_of_takes
      (fun book hmem => htakes book (hlisted book (hput book hmem))) hmem
    exact ⟨other, hlisted other (hput other hother), hsame, hstored⟩

/-- `true` is an archive with one book in it, which is `false`. -/
def novelLib : DeliriX Bool Unit where
  openZip zipped := if zipped then some ⟨[("x.fb2".toList, false)], false⟩ else none
  parseFB2 _ := some ()

def loadNovel (_ : List Char) : Option Bool := some true

def novelFolder : List (List Char) := listFiles "books/".toList (.file "a.zip".toList .done)

/-- A view without tags. -/
def untagged : TextView Unit Unit where
  view := id
  findFirst _ _ := none
  getBlocks _ := []
  widetombcs _ := ""
  mbcstombcs _ := id

theorem not_endlesslyNested_novel (buf : Bool) : ¬ EndlesslyNested novelLib buf := by
  rintro ⟨chain, -, hchain⟩
  obtain ⟨archive, name, hopen, hmem⟩ := hchain 0
  obtain ⟨nested, _, hnested, -⟩ := hchain 1
  cases hzip : chain 0 with
  | true =>
      rw [hzip] at hopen
      cases hopen
      rw [(Prod.mk.inj (List.mem_singleton.mp hmem)).2] at hnested
      cases hnested
  | false =>
      rw [hzip] at hopen
      cases hopen

theorem whole_novel (buf : Bool) : Whole novelLib buf := by
  intro names file archive hleads hopen
  cases file with
  | true =>
      cases hopen
      rfl
  | false => cases hopen

theorem listed_novel : Listed novelLib loadNovel novelFolder ("books/x.fb2".toList, ()) :=
  ⟨_, List.mem_singleton_self _, true, rfl, ["x.fb2".toList], false,
    .entry rfl (List.mem_singleton_self _) (.here false), rfl, rfl, by decide⟩

theorem takes_plain (book : Book Unit) : Takes plainStructo untagged book := fun _ => rfl

theorem textsOf_novel (fuel : ℕ) : textsOf novelLib loadNovel (fuel + 2) =
    fun file => [(folderOf file ++ "x.fb2".toList, ())] := rfl

theorem index_holds_books_novel :
    ∃ fuel s, run (step (textsOf novelLib loadNovel fuel)) (start novelFolder 1 1) inTime =
        some s ∧ s.main = .joined ∧
      plainStructo.documents (inserted plainStructo untagged emptyService
        s.shared.inserted).state.ctxIndex "books/x.fb2" = some [] := by
  have hends : ∀ file ∈ novelFolder, ∀ buf, loadNovel file = some buf →
      ¬ EndlesslyNested novelLib buf := fun _ _ buf _ => not_endlesslyNested_novel buf
  obtain ⟨fuel, hindex⟩ := index_holds_books plainStructo_lawful untagged hends emptyService
  have hrun : ∃ s, run (step (textsOf novelLib loadNovel (fuel + 2))) (start novelFolder 1 1)
      inTime = some s ∧ s.main = .joined ∧ s.shared.fb2Texts = [] := by
    rw [textsOf_novel]
    exact ⟨_, rfl, rfl, rfl⟩
  obtain ⟨s, hrun, hjoined, hnone⟩ := hrun
  obtain ⟨book, -, -, hstored⟩ := (hindex (fuel + 2) (Nat.le_add_right _ _) 1 1 inTime s hrun
    hjoined "books/x.fb2" (by decide)).2 (fun _ _ buf _ => whole_novel buf)
    (fun book _ => takes_plain book) hnone ⟨_, listed_novel, rfl⟩
  exact ⟨fuel + 2, s, hrun, hjoined, hstored⟩

end Palmira.Libruseq.Books
