import Mathlib.Algebra.Order.Group.Multiset
import Mathlib.Data.Multiset.Bind
import Mathlib.Data.Set.List
import Palmira.Foundation.Monitor

/-!
# The list of archives

`libruseq-sender`: the main thread walks the archive directory and lists what its mask
matches, waiting while a hundred archives are listed; the readers take the archives from
the list and parse them. Nothing in the source sets `archives::done` or clears
`canContinue`.

`ParseArchive` waits in `IndexArchive`, on another condition variable, until the service
has answered enough of the requests. It may do so for good, so whether it comes back with
an archive is given for each archive.
-/

namespace Palmira.Libruseq.Listing

open StepSystem Threads Monitor

/-- What is left to read of a directory, in the order of `Get`. A directory that cannot be opened
has no entries. -/
inductive Entries where
  | done
  | file (name : List Char) (rest : Entries)
  | dir (name : List Char) (entries rest : Entries)

/-- `archives`; `taken` records what the readers have got. -/
structure Archives where
  list : List (List Char)
  done : Bool
  taken : List (List Char)

/-- A level of the recursion of `ListArchives`: `dirent.folder()` and what is left to read there. -/
abbrev Frame := List Char × Entries

/-- The main thread in `ListArchives`, the innermost call first, and behind it in `join`; a reader
before the lock, in `ParseArchive`, behind its loop, with what it has parsed so far. -/
inductive Thread where
  | main (frames : List Frame)
  | idle (parsed : List (List Char))
  | parsing (file : List Char) (parsed : List (List Char))
  | ended (parsed : List (List Char))

/-- How many archives are listed at a time. -/
def limit : ℕ := 100

section Code

variable (matchesMask comesBack : List Char → Bool)

/-- `*dirent.string() != '.'` -/
def isVisible (name : List Char) : Bool := name.head? ≠ some '.'

/-- What `ListArchives` lists, with the mask applied to the whole path. -/
def ListArchives (folder : List Char) : Entries → List (List Char)
  | .done => []
  | .file name rest =>
      (if isVisible name && matchesMask (folder ++ name) then [folder ++ name] else []) ++
        ListArchives folder rest
  | .dir name entries rest =>
      (if isVisible name then ListArchives (folder ++ name ++ ['/']) entries else []) ++
        ListArchives folder rest

/-- What the calls in progress are still to list. -/
def pending : List Frame → List (List Char)
  | [] => []
  | (folder, entries) :: outer => ListArchives matchesMask folder entries ++ pending outer

/-- Whether the next entry is listed, for which the thread takes the lock. -/
def enters : Thread → Bool
  | .main ((folder, .file name _) :: _) => isVisible name && matchesMask (folder ++ name)
  | .main _ => false
  | .idle _ => true
  | .parsing _ _ => false
  | .ended _ => false

/-- The turns of the loops that need no lock, and the parsing of an archive once `ParseArchive`
comes back. -/
def work : Thread → Option Thread
  | .main [] => none
  | .main ((_, .done) :: outer) => some (.main outer)
  | .main ((folder, .file _ rest) :: outer) => some (.main ((folder, rest) :: outer))
  | .main ((folder, .dir name entries rest) :: outer) =>
      if isVisible name then
        some (.main ((folder ++ name ++ ['/'], entries) :: (folder, rest) :: outer))
      else some (.main ((folder, rest) :: outer))
  | .idle _ => none
  | .parsing file parsed => if comesBack file then some (.idle (parsed ++ [file])) else none
  | .ended _ => none

/-- The predicates of the waits. -/
def ready (a : Archives) : Thread → Bool
  | .main _ => a.list.length < limit
  | _ => a.done || !a.list.isEmpty

/-- Behind the wait the main thread lists the archive and notifies under the lock; a reader takes
the first one and notifies without it, or ends. -/
def act (a : Archives) : Thread → Act Archives Thread
  | .main ((folder, .file name rest) :: outer) =>
      .change { a with list := a.list ++ [folder ++ name] } (.main ((folder, rest) :: outer)) false
  | .idle parsed =>
      match a.list with
      | file :: list =>
          .change { a with list, taken := a.taken ++ [file] } (.parsing file parsed) true
      | [] => if a.done then .quiet (.ended parsed) else .quiet (.idle parsed)
  | thread => .quiet thread

def code : Code Archives Thread where
  enters := enters matchesMask
  work thread a := (work comesBack thread).map fun thread' => (a, thread')
  ready thread a := ready a thread
  act thread a := act a thread

/-- The main thread is about to list the directory, the readers to wait. -/
def start (folder : List Char) (entries : Entries) (readers : ℕ) : State Archives Thread :=
  Code.start ⟨[], false, []⟩ (.main [(folder, entries)] :: List.replicate readers (.idle []))

end Code

/-! ## What the threads can change -/

/-- The turns that a reading of the entries takes, its end included. -/
def Entries.turns : Entries → ℕ
  | .done => 1
  | .file _ rest => rest.turns + 1
  | .dir _ entries rest => entries.turns + rest.turns + 1

/-- The turns that the calls in progress still take. -/
def turns (frames : List Frame) : ℕ := (frames.map fun frame => frame.2.turns).sum

theorem turns_cons (frame : Frame) (frames : List Frame) :
    turns (frame :: frames) = frame.2.turns + turns frames := rfl

variable {matchesMask comesBack : List Char → Bool}

/-- The changes, one case for each kind. -/
inductive Step (matchesMask : List Char → Bool) (a : Archives) :
    Thread → Archives → Thread → Prop where
  | turn {frames frames' : List Frame}
      (hpending : pending matchesMask frames' = pending matchesMask frames)
      (hless : turns frames' < turns frames) :
      Step matchesMask a (.main frames) a (.main frames')
  | list {file : List Char} {frames frames' : List Frame}
      (hpending : pending matchesMask frames = file :: pending matchesMask frames')
      (hless : turns frames' < turns frames)
      (hroom : a.list.length < limit) :
      Step matchesMask a (.main frames) { a with list := a.list ++ [file] } (.main frames')
  | take {file : List Char} {list parsed : List (List Char)} (hlist : a.list = file :: list) :
      Step matchesMask a (.idle parsed) { a with list, taken := a.taken ++ [file] }
        (.parsing file parsed)
  | parse (file : List Char) (parsed : List (List Char)) :
      Step matchesMask a (.parsing file parsed) a (.idle (parsed ++ [file]))
  | close {parsed : List (List Char)} (hdone : a.done = true) :
      Step matchesMask a (.idle parsed) a (.ended parsed)

theorem step_of_work {a : Archives} {thread thread' : Thread}
    (houtside : enters matchesMask thread = false) (hwork : work comesBack thread = some thread') :
    Step matchesMask a thread a thread' := by
  cases thread with
  | main frames =>
      cases frames with
      | nil => cases hwork
      | cons frame outer =>
          obtain ⟨folder, entries⟩ := frame
          cases entries with
          | done =>
              cases hwork
              exact .turn rfl (by simp only [turns_cons, Entries.turns]; omega)
          | file name rest =>
              cases hwork
              refine .turn ?_ (by simp only [turns_cons, Entries.turns]; omega)
              simp only [enters] at houtside
              simp [pending, ListArchives, houtside]
          | dir name entries rest =>
              simp only [work] at hwork
              split at hwork
              next hvisible =>
                cases hwork
                refine .turn ?_ (by simp only [turns_cons, Entries.turns]; omega)
                simp [pending, ListArchives, hvisible]
              next hhidden =>
                cases hwork
                refine .turn ?_ (by simp only [turns_cons, Entries.turns]; omega)
                simp [pending, ListArchives, hhidden]
  | idle parsed => cases hwork
  | parsing file parsed =>
      simp only [work] at hwork
      split at hwork
      next =>
        cases hwork
        exact .parse file parsed
      next => cases hwork
  | ended parsed => cases hwork

theorem step_of_change {a a' : Archives} {thread thread' : Thread}
    (hchange : (code matchesMask comesBack).Change a thread a' thread') :
    Step matchesMask a thread a' thread' := by
  cases hchange with
  | work houtside hwork =>
      obtain ⟨w, hwork, heq⟩ := Option.map_eq_some_iff.mp hwork
      cases heq
      exact step_of_work houtside hwork
  | quiet henters hready hact =>
      cases thread with
      | main frames =>
          obtain _ | ⟨⟨folder, _ | _ | _⟩, outer⟩ := frames
          · cases henters
          · cases henters
          · cases hact
          · cases henters
      | idle parsed =>
          simp only [code, act] at hact
          split at hact
          next => cases hact
          next hnil =>
            split at hact
            next hdone =>
              cases hact
              exact .close hdone
            next hopen => simp [code, ready, hnil, hopen] at hready
      | parsing file parsed => cases henters
      | ended parsed => cases henters
  | change henters hready hact =>
      cases thread with
      | main frames =>
          obtain _ | ⟨⟨folder, _ | ⟨name, rest⟩ | _⟩, outer⟩ := frames
          · cases henters
          · cases henters
          · cases hact
            refine .list ?_ (by simp only [turns_cons, Entries.turns]; omega)
              (of_decide_eq_true hready)
            have hlisted : (isVisible name && matchesMask (folder ++ name)) = true := henters
            simp [pending, ListArchives, hlisted]
          · cases henters
      | idle parsed =>
          simp only [code, act] at hact
          split at hact
          next file list hlist =>
            cases hact
            exact .take hlist
          next => split at hact <;> cases hact
      | parsing file parsed => cases henters
      | ended parsed => cases henters

/-! ## What a run keeps -/

/-- The archives a reader has taken. -/
def Thread.held : Thread → Multiset (List Char)
  | .main _ => 0
  | .idle parsed => parsed
  | .parsing file parsed => file ::ₘ parsed
  | .ended parsed => parsed

/-- A reader that is not behind its loop. -/
def Thread.Runs : Thread → Prop
  | .idle _ => True
  | .parsing _ _ => True
  | _ => False

/-- The main thread is in front of the readers, none of which is at its end. What is taken, listed
and still to list are the archives, in order; what is taken is with one reader each. -/
structure Kept (matchesMask : List Char → Bool) (archives : List (List Char)) (a : Archives)
    (frames : List Frame) (readers : List Thread) : Prop where
  running : ∀ reader ∈ readers, reader.Runs
  notDone : a.done = false
  bounded : a.list.length ≤ limit
  inOrder : a.taken ++ a.list ++ pending matchesMask frames = archives
  held : (readers.map Thread.held).sum = (a.taken : Multiset (List Char))

variable {archives : List (List Char)} {a a' : Archives}

theorem Kept.main {frames frames' : List Frame} {readers : List Thread}
    (hkept : Kept matchesMask archives a frames readers)
    (hstep : Step matchesMask a (.main frames) a' (.main frames')) :
    Kept matchesMask archives a' frames' readers := by
  obtain ⟨hrunning, hnotDone, hbounded, hinOrder, hheld⟩ := hkept
  cases hstep with
  | turn hpending => exact ⟨hrunning, hnotDone, hbounded, hpending ▸ hinOrder, hheld⟩
  | list hpending _ hroom =>
      refine ⟨hrunning, hnotDone, ?_, ?_, hheld⟩
      · rw [List.length_append, List.length_singleton]
        exact hroom
      · rw [← hinOrder, hpending, List.append_assoc, List.append_assoc, List.append_assoc]
        rfl

theorem sum_held_middle (before after : List Thread) (thread : Thread) :
    ((before ++ thread :: after).map Thread.held).sum =
      thread.held + ((before ++ after).map Thread.held).sum := by
  simp only [List.map_append, List.map_cons, List.sum_append, List.sum_cons]
  exact add_left_comm _ _ _

theorem Kept.reader {frames : List Frame} {before after : List Thread} {reader reader' : Thread}
    (hkept : Kept matchesMask archives a frames (before ++ reader :: after))
    (hstep : Step matchesMask a reader a' reader') :
    Kept matchesMask archives a' frames (before ++ reader' :: after) := by
  obtain ⟨hrunning, hnotDone, hbounded, hinOrder, hheld⟩ := hkept
  rw [List.forall_mem_append, List.forall_mem_cons] at hrunning
  obtain ⟨hbefore, hreader, hafter⟩ := hrunning
  have hruns : reader'.Runs → ∀ other ∈ before ++ reader' :: after, other.Runs := by
    intro hreader'
    rw [List.forall_mem_append, List.forall_mem_cons]
    exact ⟨hbefore, hreader', hafter⟩
  rw [sum_held_middle] at hheld
  cases hstep with
  | turn => exact absurd hreader id
  | list => exact absurd hreader id
  | take hlist =>
      rename_i file list parsed
      refine ⟨hruns trivial, hnotDone, ?_, ?_, ?_⟩
      · rw [hlist, List.length_cons] at hbounded
        exact Nat.le_of_succ_le hbounded
      · rw [← hinOrder, hlist]
        simp
      · rw [sum_held_middle, ← Multiset.coe_add, ← hheld, Multiset.coe_singleton]
        simp only [Thread.held, ← Multiset.singleton_add]
        abel
  | parse file parsed =>
      refine ⟨hruns trivial, hnotDone, hbounded, hinOrder, ?_⟩
      rw [sum_held_middle, ← hheld]
      simp only [Thread.held, ← Multiset.singleton_add, ← Multiset.coe_add, Multiset.coe_singleton]
      abel
  | close hdone =>
      rw [hnotDone] at hdone
      cases hdone

theorem Kept.current_mem {frames : List Frame} {places : List (Place Thread)} {file : List Char}
    {parsed : List (List Char)}
    (hkept : Kept matchesMask archives a frames (places.map Place.who))
    (hmem : .outside (.parsing file parsed) ∈ places) : file ∈ a.taken := by
  obtain ⟨before, after, rfl⟩ := List.append_of_mem hmem
  have hheld := hkept.held
  rw [List.map_append, List.map_cons, sum_held_middle] at hheld
  rw [← Multiset.mem_coe, ← hheld]
  exact Multiset.mem_add.mpr (.inl (Multiset.mem_cons_self file (parsed : Multiset (List Char))))

theorem kept_run {folder : List Char} {entries : Entries} {count : ℕ} {actions : List Action}
    {s : State Archives Thread}
    (hrun : run (code matchesMask comesBack).step (start folder entries count) actions = some s) :
    ∃ frames readers, s.threads.map Place.who = .main frames :: readers ∧
      readers.length = count ∧
      Kept matchesMask (ListArchives matchesMask folder entries) s.data frames readers := by
  apply Code.run_keeps (fun a threads => ∃ frames readers,
    threads = .main frames :: readers ∧ readers.length = count ∧
      Kept matchesMask (ListArchives matchesMask folder entries) a frames readers) ?_ ?_ hrun
  · rintro a a' thread thread' before after ⟨frames, readers, heq, hcount, hkept⟩ hchange
    have hstep := step_of_change hchange
    cases before with
    | nil =>
        cases heq
        cases hstep with
        | turn hpending hless => exact ⟨_, _, rfl, hcount, hkept.main (.turn hpending hless)⟩
        | list hpending hless hroom =>
            exact ⟨_, _, rfl, hcount, hkept.main (.list hpending hless hroom)⟩
    | cons first before =>
        cases heq
        refine ⟨_, _, rfl, ?_, hkept.reader hstep⟩
        simpa using hcount
  · refine ⟨_, _, rfl, List.length_replicate, ?_, rfl, Nat.zero_le _, ?_, ?_⟩
    · intro reader hmem
      rw [List.eq_of_mem_replicate hmem]
      trivial
    · simp [pending]
    · simp [Thread.held]

/-- At every moment the archives taken, those listed and those still to list are, in this order, the
archives of the directory. At most a hundred are listed, and each archive taken is with one
reader. No reader is ever behind its loop, so the program never gets behind its `join`. -/
theorem archives_in_order {folder : List Char} {entries : Entries} {count : ℕ}
    {actions : List Action} {s : State Archives Thread}
    (hrun : run (code matchesMask comesBack).step (start folder entries count) actions = some s) :
    ∃ frames readers, s.threads.map Place.who = .main frames :: readers ∧
      s.data.taken ++ s.data.list ++ pending matchesMask frames =
        ListArchives matchesMask folder entries ∧
      s.data.list.length ≤ limit ∧
      (readers.map Thread.held).sum = (s.data.taken : Multiset (List Char)) ∧
      ∀ reader ∈ readers, reader.Runs := by
  obtain ⟨frames, readers, hthreads, -, hkept⟩ := kept_run hrun
  exact ⟨frames, readers, hthreads, hkept.inOrder, hkept.bounded, hkept.held, hkept.running⟩

/-- A hidden file, and an archive in a directory. -/
def books : Entries := .file ['.', 'x'] (.dir ['b'] (.file ['1'] .done) .done)

/-- The reader blocks, the main thread lists the archive, the reader parses it and blocks again. -/
def oneArchive : List Action :=
  [1, 1, 0, 0, 0, 0, 0, 0, 0, 0, 1, 1, 1, 1, 1, 1, 1].map .thread

theorem archives_in_order_books :
    ∃ s, run (code (fun _ => true) fun _ => true).step (start ['/'] books 1) oneArchive = some s ∧
      ∃ frames readers, s.threads.map Place.who = .main frames :: readers ∧
        s.data.taken ++ s.data.list ++ pending (fun _ => true) frames =
          ListArchives (fun _ => true) ['/'] books ∧
        s.data.list.length ≤ limit ∧
        (readers.map Thread.held).sum = (s.data.taken : Multiset (List Char)) ∧
        ∀ reader ∈ readers, reader.Runs := by
  obtain ⟨s, hrun⟩ := Option.isSome_iff_exists.mp (rfl : (run (code (fun _ => true) fun _ =>
    true).step (start ['/'] books 1) oneArchive).isSome = true)
  exact ⟨s, hrun, archives_in_order hrun⟩

/-! ## Where it ends -/

/-- The reader is blocked in its wait. -/
def Waits (place : Place Thread) : Prop := ∃ parsed, place = .blocked (.idle parsed)

/-- The reader is in `ParseArchive`, which does not come back. -/
def HeldUp (comesBack : List Char → Bool) (place : Place Thread) : Prop :=
  ∃ file parsed, place = .outside (.parsing file parsed) ∧ comesBack file = false

/-- Where `ParseArchive` comes back with every archive, no reader is held up. -/
theorem Kept.not_heldUp {frames : List Frame} {places : List (Place Thread)} {place : Place Thread}
    (hkept : Kept matchesMask archives a frames (places.map Place.who))
    (hcomesBack : ∀ file ∈ archives, comesBack file = true) (hmem : place ∈ places) :
    ¬ HeldUp comesBack place := by
  rintro ⟨file, parsed, rfl, hheldUp⟩
  have hlisted : file ∈ archives := by
    rw [← hkept.inOrder]
    exact List.mem_append_left _ (List.mem_append_left _ (hkept.current_mem hmem))
  rw [hcomesBack file hlisted] at hheldUp
  cases hheldUp

theorem notified_ready :
    (code matchesMask comesBack).Notified fun thread a => ready a thread = true where
  ready thread a hready := hready
  work := by
    intro thread thread' a a' hwork
    obtain ⟨w, -, heq⟩ := Option.map_eq_some_iff.mp hwork
    cases heq
    exact fun other => id

/-- A reader that rests is blocked, with no archive in the list, or held up. -/
theorem rests_reader {place : Place Thread} (hruns : place.who.Runs) (hnotDone : a.done = false)
    (hrests : (code matchesMask comesBack).Rests (fun thread a => ready a thread = true) a place) :
    (a.list = [] ∧ Waits place) ∨ HeldUp comesBack place := by
  cases hrests with
  | ended houtside hwork =>
      rename_i thread
      cases thread with
      | idle parsed => cases houtside
      | parsing file parsed =>
          simp only [code, work, Option.map_eq_none_iff] at hwork
          split at hwork
          next => cases hwork
          next hheld => exact .inr ⟨file, parsed, rfl, Bool.eq_false_iff.mpr hheld⟩
      | main frames => exact absurd hruns id
      | ended parsed => exact absurd hruns id
  | waits henters hwaits =>
      rename_i thread
      cases thread with
      | idle parsed =>
          refine .inl ⟨?_, parsed, rfl⟩
          simpa [ready, hnotDone] using hwaits
      | parsing file parsed => cases henters
      | main frames => exact absurd hruns id
      | ended parsed => exact absurd hruns id

/-- The main thread that rests with an empty list is behind `ListArchives`. -/
theorem rests_main {place : Place Thread} {frames : List Frame} (hwho : place.who = .main frames)
    (hlist : a.list = [])
    (hrests : (code matchesMask comesBack).Rests (fun thread a => ready a thread = true) a place) :
    place = .outside (.main []) ∧ frames = [] := by
  cases hrests with
  | ended houtside hwork =>
      cases hwho
      obtain _ | ⟨⟨folder, _ | _ | ⟨name, entries, rest⟩⟩, outer⟩ := frames
      · exact ⟨rfl, rfl⟩
      · cases hwork
      · cases hwork
      · simp only [code, work] at hwork
        split at hwork <;> cases hwork
  | waits henters hwaits =>
      cases hwho
      exact absurd (by simp [ready, hlist, limit]) hwaits

/-- What readers that wait have taken they have parsed. -/
theorem sum_held_of_waits {readers : List (Place Thread)}
    (hwaits : ∀ reader ∈ readers, Waits reader) :
    ∃ parsed : List (List (List Char)),
      readers = parsed.map (fun files => .blocked (.idle files)) ∧
      (readers.map fun reader => reader.who.held).sum =
        (parsed.flatten : Multiset (List Char)) := by
  obtain ⟨parsed, rfl⟩ :
      readers ∈ Set.range (List.map fun files => Place.blocked (Thread.idle files)) := by
    rw [Set.range_list_map]
    intro reader hmem
    obtain ⟨files, hreader⟩ := hwaits reader hmem
    exact ⟨files, hreader.symm⟩
  refine ⟨parsed, rfl, ?_⟩
  rw [← Multiset.coe_join, Multiset.join, Multiset.sum_coe, List.map_map]
  rfl

/-- When no thread can move on, each reader is blocked in its wait or held up in `ParseArchive`. As
long as one is not held up, the main thread is behind `ListArchives` and each archive has been taken
by one reader, which has parsed it or is held up with it. If `ParseArchive` comes back with every
archive, each has been parsed once. -/
theorem archives_parsed {folder : List Char} {entries : Entries} {count : ℕ}
    {actions : List Action} {s : State Archives Thread}
    (hrun : run (code matchesMask comesBack).step (start folder entries count) actions = some s)
    (hstuck : (code matchesMask comesBack).Stuck s) :
    ∃ main readers, s.threads = main :: readers ∧ readers.length = count ∧
      (∀ reader ∈ readers, Waits reader ∨ HeldUp comesBack reader) ∧
      ((∃ reader ∈ readers, Waits reader) →
        main = .outside (.main []) ∧ s.data.list = [] ∧
          (readers.map fun reader => reader.who.held).sum =
            (ListArchives matchesMask folder entries : Multiset (List Char))) ∧
      ((∀ file ∈ ListArchives matchesMask folder entries, comesBack file = true) → 0 < count →
        ∃ parsed : List (List (List Char)),
          readers = parsed.map (fun files => .blocked (.idle files)) ∧
          parsed.flatten.Perm (ListArchives matchesMask folder entries)) := by
  obtain ⟨frames, threads, hthreads, hlength, hkept⟩ := kept_run hrun
  have hrests := Code.rests_of_stuck notified_ready hrun hstuck
  obtain ⟨main, readers, heq, hmain, rfl⟩ := List.map_eq_cons_iff.mp hthreads
  rw [heq, List.forall_mem_cons] at hrests
  obtain ⟨hrestsMain, hrests⟩ := hrests
  rw [List.length_map] at hlength
  have hheld : (readers.map fun reader => reader.who.held).sum = s.data.taken := by
    have hheld := hkept.held
    rwa [List.map_map] at hheld
  have hreader : ∀ reader ∈ readers, (s.data.list = [] ∧ Waits reader) ∨ HeldUp comesBack reader :=
    fun reader hmem =>
      rests_reader (hkept.running _ (List.mem_map_of_mem hmem)) hkept.notDone (hrests reader hmem)
  -- a reader that waits has found the list empty, so the main thread is at its end
  have hall : ∀ reader ∈ readers, Waits reader →
      main = .outside (.main []) ∧ s.data.list = [] ∧
        (readers.map fun reader => reader.who.held).sum =
          (ListArchives matchesMask folder entries : Multiset (List Char)) := by
    rintro reader hmem ⟨files, rfl⟩
    have hlist : s.data.list = [] := by
      rcases hreader _ hmem with ⟨hlist, -⟩ | ⟨file, parsed, hheldUp, -⟩
      · exact hlist
      · cases hheldUp
    obtain ⟨rfl, rfl⟩ := rests_main hmain hlist hrestsMain
    refine ⟨rfl, hlist, ?_⟩
    rw [hheld, ← hkept.inOrder, hlist, pending, List.append_nil, List.append_nil]
  refine ⟨main, readers, heq, hlength, fun reader hmem => (hreader reader hmem).imp_left (·.2),
    fun ⟨reader, hmem, hwaits⟩ => hall reader hmem hwaits, ?_⟩
  intro hcomesBack hcount
  have hwaits : ∀ reader ∈ readers, Waits reader := fun reader hmem =>
    (hreader reader hmem).elim And.right
      fun hheldUp => absurd hheldUp (hkept.not_heldUp hcomesBack hmem)
  obtain ⟨parsed, hparsed, hsum⟩ := sum_held_of_waits hwaits
  obtain ⟨reader, hmem⟩ := List.exists_mem_of_length_pos (hlength ▸ hcount)
  refine ⟨parsed, hparsed, Multiset.coe_eq_coe.mp ?_⟩
  rw [← hsum, (hall reader hmem (hwaits reader hmem)).2.2]

/-- An archive in a directory, and two besides it. -/
def library : Entries := .dir ['b'] (.file ['1'] .done) (.file ['2'] (.file ['3'] .done))

/-- `ParseArchive` does not come back with the archive in the directory. -/
def exceptFirst (file : List Char) : Bool := file ≠ ['/', 'b', '/', '1']

/-- Two readers block, the main thread lists the archives; one reader takes the first and is held up
with it, the other parses the rest. -/
def oneHeldUp : List Action :=
  ([1, 1, 2, 2, 0, 0, 0, 0, 0, 1, 1, 1, 1, 2, 2] ++ [0, 0, 0, 0, 0, 2, 2, 2, 2, 2, 2, 2] ++
    [0, 0, 0, 0, 2, 2, 2, 2, 2, 2, 2, 0]).map .thread

theorem archives_parsed_library :
    ∃ s, run (code (fun _ => true) exceptFirst).step (start ['/'] library 2) oneHeldUp = some s ∧
      ∃ main, s.threads = [main, .outside (.parsing ['/', 'b', '/', '1'] []),
          .blocked (.idle [['/', '2'], ['/', '3']])] ∧
        main = .outside (.main []) ∧ s.data.list = [] := by
  have hsome : (run (code (fun _ => true) exceptFirst).step (start ['/'] library 2)
      oneHeldUp).isSome = true := rfl
  have hstuck : (code (fun _ => true) exceptFirst).Stuck
      ((run (code (fun _ => true) exceptFirst).step (start ['/'] library 2) oneHeldUp).get
        hsome) := by
    rintro (_ | _ | _ | i)
    · rfl
    · rfl
    · rfl
    · rfl
  obtain ⟨main, readers, hthreads, -, -, hwaits, -⟩ :=
    archives_parsed (Option.some_get hsome).symm hstuck
  have hreaders : readers = [.outside (.parsing ['/', 'b', '/', '1'] []),
      .blocked (.idle [['/', '2'], ['/', '3']])] := (List.cons.inj hthreads).2.symm
  subst hreaders
  obtain ⟨hmain, hlist, -⟩ := hwaits ⟨_, List.mem_cons_of_mem _ List.mem_cons_self, _, rfl⟩
  exact ⟨_, (Option.some_get hsome).symm, main, hthreads, hmain, hlist⟩

/-- What a thread still brings about, as far as it can tell. -/
def Thread.cost (matchesMask : List Char → Bool) : Thread → ℕ
  | .main frames => turns frames + 3 * (pending matchesMask frames).length
  | .idle _ => 1
  | .parsing _ _ => 2
  | .ended _ => 0

/-- However the threads take turns, they come to rest: a run is not longer than the archives, the
entries of the directories and the spurious wake-ups allow. -/
theorem listing_rests {folder : List Char} {entries : Entries} {count : ℕ}
    {actions : List Action} {s : State Archives Thread}
    (hrun : run (code matchesMask comesBack).step (start folder entries count) actions = some s) :
    actions.length ≤
      (entries.turns + 3 * (ListArchives matchesMask folder entries).length + count) *
        (3 * count + 8) + 3 * count + 3 + 4 * actions.countP Action.isSpurious := by
  have hle := Code.length_run_le (fun a threads =>
    3 * a.list.length + (threads.map (Thread.cost matchesMask)).sum) ?_ hrun
  · have hcost : (((.main [(folder, entries)] :: List.replicate count (.idle []) :
        List Thread)).map (Thread.cost matchesMask)).sum =
          entries.turns + 3 * (ListArchives matchesMask folder entries).length + count := by
      simp [Thread.cost, turns, pending]
    have hthreads : 3 * (count + 1) + 5 = 3 * count + 8 := by omega
    rw [hcost, List.length_cons, List.length_replicate, List.length_nil, Nat.mul_zero,
      Nat.zero_add, hthreads] at hle
    omega
  · intro a a' thread thread' before after hchange
    simp only [List.map_append, List.map_cons, List.sum_append, List.sum_cons]
    cases step_of_change hchange with
    | turn hpending hless =>
        simp only [Thread.cost, hpending]
        omega
    | list hpending hless hroom =>
        simp only [Thread.cost, hpending, List.length_append, List.length_cons, List.length_nil]
        omega
    | take hlist =>
        simp only [Thread.cost, hlist, List.length_cons]
        omega
    | parse =>
        simp only [Thread.cost]
        omega
    | close =>
        simp only [Thread.cost]
        omega

theorem listing_rests_books :
    ∃ s, run (code (fun _ => true) fun _ => true).step (start ['/'] books 1) oneArchive = some s ∧
      oneArchive.length ≤ (5 + 3 * 1 + 1) * (3 * 1 + 8) + 3 * 1 + 3 + 4 * 0 := by
  obtain ⟨s, hrun⟩ := Option.isSome_iff_exists.mp
    (rfl : (run (code (fun _ => true) fun _ => true).step (start ['/'] books 1) oneArchive).isSome =
      true)
  exact ⟨s, hrun, listing_rests hrun⟩

end Palmira.Libruseq.Listing
