import Mathlib.Algebra.Order.BigOperators.Group.List
import Mathlib.Data.Multiset.OrderedMonoid
import Palmira.Libruseq.Indexer

/-!
# What the local indexer loses

Every archive and every text is at each moment in exactly one place: still to be
listed, queued, in the hands of a thread, or done. The texts that are queued or
with a parser when the stop flag is set are never inserted; all others are.
-/

namespace Palmira.Libruseq

open StepSystem Threads

variable {F T : Type} {textsOf : F → List T}

/-! ## Where archives and texts are -/

def Parser.files : Parser F T → Multiset F
  | .get => 0
  | .reading file _ => {file}
  | .finished => 0

/-- The texts of its archive that a parser has not put yet. -/
def Parser.texts : Parser F T → Multiset T
  | .get => 0
  | .reading _ rest => rest
  | .finished => 0

def Indexer.texts : Indexer T → Multiset T
  | .get => 0
  | .inserting text => {text}
  | .finished => 0

@[simp] theorem Parser.files_get : (Parser.get : Parser F T).files = 0 := rfl

@[simp] theorem Parser.files_finished : (Parser.finished : Parser F T).files = 0 := rfl

@[simp] theorem Parser.texts_get : (Parser.get : Parser F T).texts = 0 := rfl

@[simp] theorem Parser.texts_finished : (Parser.finished : Parser F T).texts = 0 := rfl

@[simp] theorem Indexer.texts_get : (Indexer.get : Indexer T).texts = 0 := rfl

@[simp] theorem Indexer.texts_finished : (Indexer.finished : Indexer T).texts = 0 := rfl

def Main.files : Main F T → Multiset F
  | .listing rest => rest
  | .parsing parser => parser.files
  | .indexing _ => 0
  | .joining => 0
  | .joined => 0

def Main.texts (textsOf : F → List T) : Main F T → Multiset T
  | .listing rest => rest.flatMap textsOf
  | .parsing parser => parser.texts
  | .indexing indexer => indexer.texts
  | .joining => 0
  | .joined => 0

def Shared.files (s : Shared F T) : Multiset F := s.archives + s.parsed

def Shared.texts (textsOf : F → List T) (s : Shared F T) : Multiset T :=
  s.archives.flatMap textsOf + s.fb2Texts + s.inserted

/-- All archives, wherever they are. -/
def System.files (s : System F T) : Multiset F :=
  s.shared.files + (s.parsers.map Parser.files).sum + s.main.files

/-- All texts, wherever they are. -/
def System.texts (textsOf : F → List T) (s : System F T) : Multiset T :=
  s.shared.texts textsOf + (s.parsers.map Parser.texts).sum + (s.indexers.map Indexer.texts).sum +
    s.main.texts textsOf

/-! ## One move of a thread -/

theorem get_cases {V : Type} {canContinue noMoreFiles : Bool} {list : List V}
    {got : Collector.Got V} (hget : Collector.get canContinue noMoreFiles list = some got) :
    (∃ v rest, got = .value v rest ∧ canContinue = true ∧ list = v :: rest) ∨
    (got = .closed ∧ (canContinue = false ∨ (noMoreFiles = true ∧ list = []))) := by
  unfold Collector.get at hget
  split at hget
  next hstop =>
    cases hget
    exact .inr ⟨rfl, .inl hstop⟩
  next hgo =>
    split at hget
    next v rest =>
      cases hget
      exact .inl ⟨v, rest, rfl, Bool.eq_true_of_not_eq_false hgo, rfl⟩
    next =>
      split at hget
      next hnone =>
        cases hget
        exact .inr ⟨rfl, .inr ⟨hnone, rfl⟩⟩
      next => cases hget

theorem put_eq {V : Type} {limit : ℕ} {canContinue : Bool} {list list' : List V} {v : V}
    (hput : Collector.put limit canContinue list v = some list') : list' = list ++ [v] := by
  unfold Collector.put at hput
  split at hput
  · cases hput
    rfl
  · cases hput

/-- The moves of a parser. -/
inductive ParserMove (textsOf : F → List T) (s : Shared F T) :
    Parser F T → Shared F T → Parser F T → Prop where
  | take (file : F) (rest : List F) (hgo : s.canContinue = true)
      (harchives : s.archives = file :: rest) :
      ParserMove textsOf s .get { s with archives := rest } (.reading file (textsOf file))
  | close (hclosed : s.canContinue = false ∨ (s.noMoreFiles = true ∧ s.archives = [])) :
      ParserMove textsOf s .get s .finished
  | put (file : F) (text : T) (rest : List T) :
      ParserMove textsOf s (.reading file (text :: rest))
        { s with fb2Texts := s.fb2Texts ++ [text] } (.reading file rest)
  | done (file : F) :
      ParserMove textsOf s (.reading file []) { s with parsed := s.parsed ++ [file] } .get

theorem stepParser_cases {s s' : Shared F T} {parser parser' : Parser F T}
    (hstep : stepParser textsOf s parser = some (s', parser')) :
    ParserMove textsOf s parser s' parser' := by
  cases parser with
  | get =>
      simp only [stepParser, Option.map_eq_some_iff] at hstep
      obtain ⟨got, hget, heq⟩ := hstep
      rcases get_cases hget with ⟨file, rest, rfl, hgo, harchives⟩ | ⟨rfl, hclosed⟩
      · cases heq
        exact .take file rest hgo harchives
      · cases heq
        exact .close hclosed
  | reading file rest =>
      cases rest with
      | nil =>
          cases hstep
          exact .done file
      | cons text rest =>
          simp only [stepParser, Option.map_eq_some_iff] at hstep
          obtain ⟨list, hput, heq⟩ := hstep
          obtain rfl := put_eq hput
          cases heq
          exact .put file text rest
  | finished => cases hstep

/-- The moves of an indexer. -/
inductive IndexerMove (s : Shared F T) : Indexer T → Shared F T → Indexer T → Prop where
  | take (text : T) (rest : List T) (hgo : s.canContinue = true)
      (htexts : s.fb2Texts = text :: rest) :
      IndexerMove s .get { s with fb2Texts := rest } (.inserting text)
  | close (hclosed : s.canContinue = false ∨ (s.noMoreFiles = true ∧ s.fb2Texts = [])) :
      IndexerMove s .get s .finished
  | insert (text : T) :
      IndexerMove s (.inserting text) { s with inserted := s.inserted ++ [text] } .get

theorem stepIndexer_cases {s s' : Shared F T} {indexer indexer' : Indexer T}
    (hstep : stepIndexer s indexer = some (s', indexer')) : IndexerMove s indexer s' indexer' := by
  cases indexer with
  | get =>
      simp only [stepIndexer, Option.map_eq_some_iff] at hstep
      obtain ⟨got, hget, heq⟩ := hstep
      rcases get_cases hget with ⟨text, rest, rfl, hgo, htexts⟩ | ⟨rfl, hclosed⟩
      · cases heq
        exact .take text rest hgo htexts
      · cases heq
        exact .close hclosed
  | inserting text =>
      cases hstep
      exact .insert text
  | finished => cases hstep

theorem parser_files {s s' : Shared F T} {parser parser' : Parser F T}
    (hmove : ParserMove textsOf s parser s' parser') :
    s'.files + parser'.files = s.files + parser.files := by
  cases hmove with
  | take file rest _ harchives =>
      simp only [Shared.files, Parser.files, harchives, ← Multiset.cons_coe,
        ← Multiset.singleton_add]
      abel
  | close => rfl
  | put => rfl
  | done file =>
      simp only [Shared.files, Parser.files, ← Multiset.coe_add, Multiset.coe_singleton]
      abel

theorem parser_texts {s s' : Shared F T} {parser parser' : Parser F T}
    (hmove : ParserMove textsOf s parser s' parser') :
    s'.texts textsOf + parser'.texts = s.texts textsOf + parser.texts := by
  cases hmove with
  | take file rest _ harchives =>
      simp only [Shared.texts, Parser.texts, harchives, List.flatMap_cons, ← Multiset.coe_add]
      abel
  | close => rfl
  | put file text rest =>
      simp only [Shared.texts, Parser.texts, ← Multiset.coe_add, ← Multiset.cons_coe,
        ← Multiset.singleton_add]
      abel
  | done => rfl

theorem indexer_texts {s s' : Shared F T} {indexer indexer' : Indexer T}
    (hmove : IndexerMove s indexer s' indexer') :
    s'.texts textsOf + indexer'.texts = s.texts textsOf + indexer.texts := by
  cases hmove with
  | take text rest _ htexts =>
      simp only [Shared.texts, Indexer.texts, htexts, ← Multiset.cons_coe,
        ← Multiset.singleton_add]
      abel
  | close => rfl
  | insert text =>
      simp only [Shared.texts, Indexer.texts, ← Multiset.coe_add, Multiset.coe_singleton]
      abel

theorem indexer_files {s s' : Shared F T} {indexer indexer' : Indexer T}
    (hmove : IndexerMove s indexer s' indexer') : s'.files = s.files := by
  cases hmove <;> rfl

/-! ## One step of the program -/

/-- The steps of the program. -/
inductive Move (textsOf : F → List T) (s : System F T) : Actor → System F T → Prop where
  | list (file : F) (rest : List F) (hmain : s.main = .listing (file :: rest)) :
      Move textsOf s .main { s with
        shared := { s.shared with archives := s.shared.archives ++ [file] }
        main := .listing rest }
  | listed (rest : List F) (hmain : s.main = .listing rest)
      (hend : rest = [] ∨ s.shared.canContinue = false) :
      Move textsOf s .main { s with
        shared := { s.shared with noMoreFiles := true }
        main := .parsing .get }
  | parse (parser parser' : Parser F T) (shared : Shared F T) (hmain : s.main = .parsing parser)
      (hmove : ParserMove textsOf s.shared parser shared parser') :
      Move textsOf s .main { s with shared, main := .parsing parser' }
  | parsed (hmain : s.main = .parsing .finished) :
      Move textsOf s .main { s with main := .indexing .get }
  | index (indexer indexer' : Indexer T) (shared : Shared F T) (hmain : s.main = .indexing indexer)
      (hmove : IndexerMove s.shared indexer shared indexer') :
      Move textsOf s .main { s with shared, main := .indexing indexer' }
  | stop (hmain : s.main = .indexing .finished) :
      Move textsOf s .main { s with
        shared := { s.shared with canContinue := false }
        main := .joining }
  | join (hmain : s.main = .joining) (hparsers : ∀ p ∈ s.parsers, p = .finished)
      (hindexers : ∀ p ∈ s.indexers, p = .finished) :
      Move textsOf s .main { s with main := .joined }
  | parser (i : ℕ) (shared : Shared F T) (parsers : List (Parser F T))
      (hstep : stepAt (stepParser textsOf) s.shared s.parsers i = some (shared, parsers)) :
      Move textsOf s (.parser i) { s with shared, parsers }
  | indexer (i : ℕ) (shared : Shared F T) (indexers : List (Indexer T))
      (hstep : stepAt stepIndexer s.shared s.indexers i = some (shared, indexers)) :
      Move textsOf s (.indexer i) { s with shared, indexers }

theorem Parser.eq_finished {parser : Parser F T} (h : parser.isFinished = true) :
    parser = .finished := by
  cases parser with
  | finished => rfl
  | get => cases h
  | reading file rest => cases h

theorem Indexer.eq_finished {indexer : Indexer T} (h : indexer.isFinished = true) :
    indexer = .finished := by
  cases indexer with
  | finished => rfl
  | get => cases h
  | inserting text => cases h

theorem stepMain_cases {s s' : System F T} (hstep : stepMain textsOf s = some s') :
    Move textsOf s .main s' := by
  have hparse : ∀ parser, s.main = .parsing parser → (stepParser textsOf s.shared parser).map
      (fun run => ({ s with shared := run.1, main := .parsing run.2 } : System F T)) =
        some s' → Move textsOf s .main s' := by
    intro parser hmain hmap
    obtain ⟨⟨shared, parser'⟩, hparser, rfl⟩ := Option.map_eq_some_iff.mp hmap
    exact .parse parser parser' shared hmain (stepParser_cases hparser)
  have hindex : ∀ indexer, s.main = .indexing indexer → (stepIndexer s.shared indexer).map
      (fun run => ({ s with shared := run.1, main := .indexing run.2 } : System F T)) =
        some s' → Move textsOf s .main s' := by
    intro indexer hmain hmap
    obtain ⟨⟨shared, indexer'⟩, hindexer, rfl⟩ := Option.map_eq_some_iff.mp hmap
    exact .index indexer indexer' shared hmain (stepIndexer_cases hindexer)
  unfold stepMain at hstep
  split at hstep
  next file rest hmain =>
    split at hstep
    next =>
      obtain ⟨list, hput, rfl⟩ := Option.map_eq_some_iff.mp hstep
      obtain rfl := put_eq hput
      exact .list file rest hmain
    next hstop =>
      cases hstep
      exact .listed _ hmain (.inr (Bool.eq_false_of_not_eq_true hstop))
  next hmain =>
    cases hstep
    exact .listed _ hmain (.inl rfl)
  next hmain =>
    cases hstep
    exact .parsed hmain
  next parser _ hmain => exact hparse parser hmain hstep
  next hmain =>
    cases hstep
    exact .stop hmain
  next indexer _ hmain => exact hindex indexer hmain hstep
  next hmain =>
    split at hstep
    next hall =>
      cases hstep
      obtain ⟨hparsers, hindexers⟩ := Bool.and_eq_true_iff.mp hall
      exact .join hmain (fun p hp => Parser.eq_finished (List.all_eq_true.mp hparsers p hp))
        (fun p hp => Indexer.eq_finished (List.all_eq_true.mp hindexers p hp))
    next => cases hstep
  next => cases hstep

theorem step_cases {s s' : System F T} {actor : Actor} (hstep : step textsOf s actor = some s') :
    Move textsOf s actor s' := by
  cases actor with
  | main => exact stepMain_cases hstep
  | parser i =>
      obtain ⟨⟨shared, parsers⟩, hparser, rfl⟩ := Option.map_eq_some_iff.mp hstep
      exact .parser i shared parsers hparser
  | indexer i =>
      obtain ⟨⟨shared, indexers⟩, hindexer, rfl⟩ := Option.map_eq_some_iff.mp hstep
      exact .indexer i shared indexers hindexer

/-! ## The flags -/

/-- What moves of parsers and indexers leave as it is. -/
structure Kept (s s' : Shared F T) : Prop where
  canContinue : s'.canContinue = s.canContinue
  noMoreFiles : s'.noMoreFiles = s.noMoreFiles
  archives : s.archives = [] → s'.archives = []

theorem ParserMove.kept {s s' : Shared F T} {parser parser' : Parser F T}
    (hmove : ParserMove textsOf s parser s' parser') : Kept s s' := by
  cases hmove with
  | take file rest _ harchives =>
      exact ⟨rfl, rfl, fun hnil => absurd (harchives.symm.trans hnil) (List.cons_ne_nil _ _)⟩
  | close => exact ⟨rfl, rfl, id⟩
  | put => exact ⟨rfl, rfl, id⟩
  | done => exact ⟨rfl, rfl, id⟩

theorem IndexerMove.kept {s s' : Shared F T} {indexer indexer' : Indexer T}
    (hmove : IndexerMove s indexer s' indexer') : Kept s s' := by
  cases hmove with
  | take => exact ⟨rfl, rfl, id⟩
  | close => exact ⟨rfl, rfl, id⟩
  | insert => exact ⟨rfl, rfl, id⟩

/-- What the flags and the first queue tell in each phase of the main thread. -/
def Phase (s : System F T) : Prop :=
  match s.main with
  | .listing _ => s.shared.canContinue = true
  | .parsing parser => s.shared.canContinue = true ∧ s.shared.noMoreFiles = true ∧
      (parser = .finished → s.shared.archives = [])
  | .indexing _ => s.shared.canContinue = true ∧ s.shared.archives = []
  | .joining => s.shared.canContinue = false ∧ s.shared.archives = []
  | .joined => s.shared.canContinue = false ∧ s.shared.archives = [] ∧
      (∀ p ∈ s.parsers, p = .finished) ∧ (∀ p ∈ s.indexers, p = .finished)

theorem phase_start (files : List F) (nParsers nIndexers : ℕ) :
    Phase (start files nParsers nIndexers : System F T) := rfl

/-- Moves of the other threads keep the phase until all of them are finished. -/
theorem Phase.of_kept {s : System F T} (hphase : Phase s) {shared : Shared F T}
    (hkept : Kept s.shared shared) (hjoined : s.main ≠ .joined) (parsers : List (Parser F T))
    (indexers : List (Indexer T)) : Phase { s with shared, parsers, indexers } := by
  unfold Phase at *
  cases hmain : s.main with
  | listing rest =>
      simp only [hmain] at hphase ⊢
      exact hkept.canContinue.trans hphase
  | parsing parser =>
      simp only [hmain] at hphase ⊢
      exact ⟨hkept.canContinue.trans hphase.1, hkept.noMoreFiles.trans hphase.2.1,
        fun hfinished => hkept.archives (hphase.2.2 hfinished)⟩
  | indexing indexer =>
      simp only [hmain] at hphase ⊢
      exact ⟨hkept.canContinue.trans hphase.1, hkept.archives hphase.2⟩
  | joining =>
      simp only [hmain] at hphase ⊢
      exact ⟨hkept.canContinue.trans hphase.1, hkept.archives hphase.2⟩
  | joined => exact absurd hmain hjoined

theorem phase_step {s s' : System F T} {actor : Actor} (hphase : Phase s)
    (hmove : Move textsOf s actor s') : Phase s' := by
  cases hmove with
  | list file rest hmain =>
      simp only [Phase, hmain] at hphase ⊢
      exact hphase
  | listed rest hmain =>
      simp only [Phase, hmain] at hphase
      exact ⟨hphase, rfl, fun hfinished => by cases hfinished⟩
  | parse parser parser' shared hmain hmove =>
      have hkept := hmove.kept
      simp only [Phase, hmain] at hphase ⊢
      refine ⟨hkept.canContinue.trans hphase.1, hkept.noMoreFiles.trans hphase.2.1, ?_⟩
      rintro rfl
      cases hmove with
      | close hclosed =>
          -- all archives are listed and none is stopped, so the end is that of an empty queue
          rcases hclosed with hstop | ⟨-, hnil⟩
          · rw [hphase.1] at hstop
            cases hstop
          · exact hnil
  | parsed hmain =>
      simp only [Phase, hmain] at hphase
      exact ⟨hphase.1, hphase.2.2 trivial⟩
  | index indexer indexer' shared hmain hmove =>
      have hkept := hmove.kept
      simp only [Phase, hmain] at hphase ⊢
      exact ⟨hkept.canContinue.trans hphase.1, hkept.archives hphase.2⟩
  | stop hmain =>
      simp only [Phase, hmain] at hphase
      exact ⟨rfl, hphase.2⟩
  | join hmain hparsers hindexers =>
      simp only [Phase, hmain] at hphase ⊢
      exact ⟨hphase.1, hphase.2, hparsers, hindexers⟩
  | parser i shared parsers hstep =>
      obtain ⟨before, p, p', after, hparsers, -, hp⟩ := stepAt_cases hstep
      apply hphase.of_kept (stepParser_cases hp).kept
      intro hmain
      simp only [Phase, hmain] at hphase
      -- a joined thread takes no step
      have hfinished := hphase.2.2.1 p (hparsers ▸ List.mem_append_right _ List.mem_cons_self)
      subst hfinished
      cases hp
  | indexer i shared indexers hstep =>
      obtain ⟨before, p, p', after, hindexers, -, hp⟩ := stepAt_cases hstep
      apply hphase.of_kept (stepIndexer_cases hp).kept
      intro hmain
      simp only [Phase, hmain] at hphase
      have hfinished := hphase.2.2.2 p (hindexers ▸ List.mem_append_right _ List.mem_cons_self)
      subst hfinished
      cases hp

/-! ## Nothing is lost or doubled on the way -/

theorem files_conserved {s s' : System F T} {actor : Actor} (hphase : Phase s)
    (hmove : Move textsOf s actor s') : s'.files = s.files := by
  cases hmove with
  | list file rest hmain =>
      simp only [System.files, Shared.files, Main.files, hmain, ← Multiset.coe_add,
        ← Multiset.cons_coe, ← Multiset.singleton_add, Multiset.coe_nil, add_zero]
      abel
  | listed rest hmain hend =>
      simp only [Phase, hmain] at hphase
      -- nothing is stopped while the files are listed, so all of them were put
      obtain rfl := hend.resolve_right (by simp [hphase])
      simp only [System.files, Shared.files, Main.files, Parser.files, hmain, Multiset.coe_nil]
  | parse parser parser' shared hmain hmove =>
      have hfiles := parser_files hmove
      simp only [System.files, Main.files, hmain]
      exact add_shift hfiles _
  | parsed hmain => simp only [System.files, Main.files, hmain, Parser.files]
  | index indexer indexer' shared hmain hmove =>
      simp only [System.files, Main.files, hmain, indexer_files hmove]
  | stop hmain => simp only [System.files, Shared.files, Main.files, hmain]
  | join hmain => simp only [System.files, Main.files, hmain]
  | parser i shared parsers hstep =>
      have hfiles := stepAt_conserves Shared.files Parser.files
        (fun _ _ _ h => parser_files (stepParser_cases h)) hstep
      simp only [System.files, hfiles]
  | indexer i shared indexers hstep =>
      obtain ⟨before, p, p', after, -, -, hp⟩ := stepAt_cases hstep
      simp only [System.files, indexer_files (stepIndexer_cases hp)]

theorem texts_conserved {s s' : System F T} {actor : Actor} (hphase : Phase s)
    (hmove : Move textsOf s actor s') : s'.texts textsOf = s.texts textsOf := by
  cases hmove with
  | list file rest hmain =>
      simp only [System.texts, Shared.texts, Main.texts, hmain, List.flatMap_append,
        List.flatMap_cons, List.flatMap_nil, List.append_nil, ← Multiset.coe_add]
      abel
  | listed rest hmain hend =>
      simp only [Phase, hmain] at hphase
      obtain rfl := hend.resolve_right (by simp [hphase])
      simp only [System.texts, Shared.texts, Main.texts, Parser.texts, hmain, List.flatMap_nil,
        Multiset.coe_nil]
  | parse parser parser' shared hmain hmove =>
      have htexts := parser_texts hmove
      have hshift := add_shift htexts
        ((s.parsers.map Parser.texts).sum + (s.indexers.map Indexer.texts).sum)
      simpa only [System.texts, Main.texts, hmain, add_assoc] using hshift
  | parsed hmain => simp only [System.texts, Main.texts, hmain, Parser.texts, Indexer.texts]
  | index indexer indexer' shared hmain hmove =>
      have htexts : shared.texts textsOf + indexer'.texts = _ := indexer_texts hmove
      have hshift := add_shift htexts
        ((s.parsers.map Parser.texts).sum + (s.indexers.map Indexer.texts).sum)
      simpa only [System.texts, Main.texts, hmain, add_assoc] using hshift
  | stop hmain => simp only [System.texts, Shared.texts, Main.texts, Indexer.texts, hmain]
  | join hmain => simp only [System.texts, Main.texts, hmain]
  | parser i shared parsers hstep =>
      have htexts := stepAt_conserves (Shared.texts textsOf) Parser.texts
        (fun _ _ _ h => parser_texts (stepParser_cases h)) hstep
      simp only [System.texts, htexts]
  | indexer i shared indexers hstep =>
      have htexts := stepAt_conserves (Shared.texts textsOf) Indexer.texts
        (fun _ _ _ h => indexer_texts (stepIndexer_cases h)) hstep
      exact congrArg (· + s.main.texts textsOf) (add_shift htexts _)

/-! ## What is not inserted -/

/-- The texts that are queued or still to be put by a parser thread. -/
def System.pending (s : System F T) : Multiset T :=
  s.shared.fb2Texts + (s.parsers.map Parser.texts).sum

/-- When the main thread sets `canContinue = false`, the queue of texts is empty and no parser
thread has a text left to put. -/
def DrainsFirst (s : System F T) (actor : Actor) : Prop :=
  actor = .main → s.main = .indexing .finished →
    s.shared.fb2Texts = [] ∧ ∀ p ∈ s.parsers, p.texts = 0

/-- No text is behind when the queues are closed. -/
def Drained (s : System F T) : Prop := s.shared.canContinue = false → s.pending = 0

theorem pending_eq_zero_iff (s : System F T) :
    s.pending = 0 ↔ s.shared.fb2Texts = [] ∧ ∀ p ∈ s.parsers, p.texts = 0 := by
  unfold System.pending
  rw [add_eq_zero, Multiset.coe_eq_zero, List.sum_eq_zero_iff]
  simp

/-- Once closed, the second queue only takes in what the parsers still put. -/
theorem parser_pending {s s' : Shared F T} {parser parser' : Parser F T}
    (hstop : s.canContinue = false) (hmove : ParserMove textsOf s parser s' parser') :
    (s'.fb2Texts : Multiset T) + parser'.texts = s.fb2Texts + parser.texts := by
  cases hmove with
  | take file rest hgo =>
      rw [hstop] at hgo
      cases hgo
  | close => rfl
  | put file text rest =>
      simp only [Parser.texts, ← Multiset.coe_add, ← Multiset.cons_coe, ← Multiset.singleton_add,
        Multiset.coe_nil, add_zero, add_assoc]
  | done => rfl

theorem indexer_pending {s s' : Shared F T} {indexer indexer' : Indexer T}
    (hstop : s.canContinue = false) (hmove : IndexerMove s indexer s' indexer') :
    s'.fb2Texts = s.fb2Texts := by
  cases hmove with
  | take text rest hgo =>
      rw [hstop] at hgo
      cases hgo
  | close => rfl
  | insert => rfl

/-- Only the stop closes the queues; it leaves the pending texts, and so does every later step. -/
theorem pending_step {s s' : System F T} {actor : Actor} (hphase : Phase s)
    (hmove : Move textsOf s actor s') :
    ((actor = .main ∧ s.main = .indexing .finished) ∧ s.shared.canContinue = true ∧
      s'.shared.canContinue = false ∧ s'.pending = s.pending) ∨
    (¬ (actor = .main ∧ s.main = .indexing .finished) ∧
      s'.shared.canContinue = s.shared.canContinue ∧
      (s.shared.canContinue = false → s'.pending = s.pending)) := by
  cases hmove with
  | list file rest hmain => exact .inr ⟨by simp [hmain], rfl, fun _ => rfl⟩
  | listed rest hmain => exact .inr ⟨by simp [hmain], rfl, fun _ => rfl⟩
  | parse parser parser' shared hmain hmove =>
      simp only [Phase, hmain] at hphase
      refine .inr ⟨by simp [hmain], hmove.kept.canContinue, fun hstop => ?_⟩
      rw [hphase.1] at hstop
      cases hstop
  | parsed hmain => exact .inr ⟨by simp [hmain], rfl, fun _ => rfl⟩
  | index indexer indexer' shared hmain hmove =>
      simp only [Phase, hmain] at hphase
      refine .inr ⟨?_, hmove.kept.canContinue, fun hstop => ?_⟩
      · rintro ⟨-, hfinished⟩
        rw [hmain] at hfinished
        cases hfinished
        cases hmove
      · rw [hphase.1] at hstop
        cases hstop
  | stop hmain =>
      simp only [Phase, hmain] at hphase
      -- the only step that closes the queues
      exact .inl ⟨⟨rfl, hmain⟩, hphase.1, rfl, rfl⟩
  | join hmain => exact .inr ⟨by simp [hmain], rfl, fun _ => rfl⟩
  | parser i shared parsers hstep =>
      obtain ⟨before, p, p', after, -, -, hp⟩ := stepAt_cases hstep
      refine .inr ⟨by simp, (stepParser_cases hp).kept.canContinue, fun hstop => ?_⟩
      exact stepAt_conserves (fun g => (g.fb2Texts : Multiset T)) Parser.texts
        (fun _ _ _ h => parser_pending hstop (stepParser_cases h)) hstep
  | indexer i shared indexers hstep =>
      obtain ⟨before, p, p', after, -, -, hp⟩ := stepAt_cases hstep
      have hmove := stepIndexer_cases hp
      refine .inr ⟨by simp, hmove.kept.canContinue, fun hstop => ?_⟩
      simp only [System.pending, indexer_pending hstop hmove]

theorem drained_step_iff {s s' : System F T} {actor : Actor} (hphase : Phase s)
    (hdrained : Drained s) (hmove : Move textsOf s actor s') :
    Drained s' ↔ DrainsFirst s actor := by
  rcases pending_step hphase hmove with
    ⟨⟨hactor, hmain⟩, -, hstopped, hpending⟩ | ⟨hother, hsame, hpending⟩
  · rw [Drained, hpending, pending_eq_zero_iff]
    constructor
    · exact fun hzero _ _ => hzero hstopped
    · exact fun hfirst _ => hfirst hactor hmain
  · refine iff_of_true (fun hstop => ?_) (fun hactor hmain => absurd ⟨hactor, hmain⟩ hother)
    rw [hsame] at hstop
    rw [hpending hstop]
    exact hdrained hstop

theorem not_drained_step {s s' : System F T} {actor : Actor} (hphase : Phase s)
    (hlost : ¬ Drained s) (hmove : Move textsOf s actor s') : ¬ Drained s' := by
  obtain ⟨hstop, hne⟩ := Classical.not_imp.mp hlost
  rcases pending_step hphase hmove with ⟨-, hgo, -⟩ | ⟨-, hsame, hpending⟩
  · rw [hgo] at hstop
    cases hstop
  · refine Classical.not_imp.mpr ⟨hsame.trans hstop, ?_⟩
    rw [hpending hstop]
    exact hne

/-! ## When all threads are joined -/

/-- Every archive has been parsed, and every text of every archive inserted, each once. -/
structure LosesNothing (textsOf : F → List T) (files : List F) (s : System F T) : Prop where
  parsed : s.shared.parsed.Perm files
  inserted : s.shared.inserted.Perm (files.flatMap textsOf)

/-- What every reachable state satisfies. -/
structure Accounted (textsOf : F → List T) (files : List F) (s : System F T) : Prop where
  phase : Phase s
  files_eq : s.files = files
  texts_eq : s.texts textsOf = files.flatMap textsOf

theorem accounted_start (textsOf : F → List T) (files : List F) (nParsers nIndexers : ℕ) :
    Accounted textsOf files (start files nParsers nIndexers) where
  phase := rfl
  files_eq := by
    simp [System.files, start, Shared.files, Main.files]
  texts_eq := by
    simp [System.texts, start, Shared.texts, Main.texts]

theorem accounted_step {files : List F} {s s' : System F T} {actor : Actor}
    (haccounted : Accounted textsOf files s) (hstep : step textsOf s actor = some s') :
    Accounted textsOf files s' where
  phase := phase_step haccounted.phase (step_cases hstep)
  files_eq := (files_conserved haccounted.phase (step_cases hstep)).trans haccounted.files_eq
  texts_eq := (texts_conserved haccounted.phase (step_cases hstep)).trans haccounted.texts_eq

/-- Threads that are all in one state without a weight have none. -/
theorem sum_eq_zero_of_all {M : Type*} [AddCommMonoid M] {P : Type} {weight : P → M} {p : P}
    (hzero : weight p = 0) {threads : List P} (hall : ∀ q ∈ threads, q = p) :
    (threads.map weight).sum = 0 := by
  rw [List.eq_replicate_of_mem hall, List.map_replicate, hzero, List.sum_replicate, nsmul_zero]

/-- Every archive has been parsed, and what is not inserted is in the queue of texts. -/
theorem accounted_joined {files : List F} {s : System F T}
    (haccounted : Accounted textsOf files s) (hjoined : s.main = .joined) :
    (s.shared.canContinue = false ∧ s.pending = s.shared.fb2Texts) ∧
      s.shared.parsed.Perm files ∧
      (s.shared.fb2Texts : Multiset T) + s.shared.inserted = files.flatMap textsOf := by
  obtain ⟨hphase, hfiles, htexts⟩ := haccounted
  simp only [Phase, hjoined] at hphase
  obtain ⟨hstopped, harchives, hparsers, hindexers⟩ := hphase
  have hheld : (s.parsers.map Parser.files).sum = 0 :=
    sum_eq_zero_of_all Parser.files_finished hparsers
  have hrest : (s.parsers.map Parser.texts).sum = 0 :=
    sum_eq_zero_of_all Parser.texts_finished hparsers
  have hinserting : (s.indexers.map Indexer.texts).sum = 0 :=
    sum_eq_zero_of_all Indexer.texts_finished hindexers
  simp only [System.files, Shared.files, Main.files, hjoined, harchives, hheld, add_zero,
    Multiset.coe_nil, zero_add] at hfiles
  simp only [System.texts, Shared.texts, Main.texts, hjoined, harchives, hrest, hinserting,
    add_zero, List.flatMap_nil, Multiset.coe_nil, zero_add] at htexts
  have hpending : s.pending = s.shared.fb2Texts := by rw [System.pending, hrest, add_zero]
  exact ⟨⟨hstopped, hpending⟩, Multiset.coe_eq_coe.mp hfiles, htexts⟩

theorem losesNothing_iff_drained {files : List F} {s : System F T}
    (haccounted : Accounted textsOf files s) (hjoined : s.main = .joined) :
    LosesNothing textsOf files s ↔ Drained s := by
  obtain ⟨⟨hstopped, hpending⟩, hparsed, htexts⟩ := accounted_joined haccounted hjoined
  rw [Drained, hpending]
  constructor
  · intro hall _
    rw [← Multiset.coe_eq_coe.mpr hall.inserted] at htexts
    exact add_eq_right.mp htexts
  · intro hdrained
    rw [hdrained hstopped, zero_add] at htexts
    exact ⟨hparsed, Multiset.coe_eq_coe.mp htexts⟩

/-- When all threads are joined nothing has been lost, exactly when the main thread closed the
queues with no text behind. -/
theorem losesNothing_iff (textsOf : F → List T) (files : List F) (nParsers nIndexers : ℕ)
    (actors : List Actor) (s : System F T)
    (hrun : run (step textsOf) (start files nParsers nIndexers) actors = some s)
    (hjoined : s.main = .joined) :
    LosesNothing textsOf files s ↔
      StepsMeet (step textsOf) DrainsFirst (start files nParsers nIndexers) actors := by
  have haccounted : Accounted textsOf files s :=
    run_invariant (fun _ _ _ h hstep => accounted_step h hstep)
      (accounted_start textsOf files nParsers nIndexers) hrun
  rw [losesNothing_iff_drained haccounted hjoined]
  have hphase : ∀ s actor s', Phase s → step textsOf s actor = some s' → Phase s' :=
    fun _ _ _ h hstep => phase_step h (step_cases hstep)
  have hkeep : ∀ s actor s', Phase s → Drained s → step textsOf s actor = some s' →
      (Drained s' ↔ DrainsFirst s actor) :=
    fun _ _ _ h hdrained hstep => drained_step_iff h hdrained (step_cases hstep)
  have hlost : ∀ s actor s', Phase s → ¬ Drained s → step textsOf s actor = some s' →
      ¬ Drained s' :=
    fun _ _ _ h hlost hstep => not_drained_step h hlost (step_cases hstep)
  have hstart : Drained (start files nParsers nIndexers : System F T) :=
    fun hstop => by cases hstop
  exact inv_iff_stepsMeet hphase hkeep hlost (phase_start files nParsers nIndexers) hstart hrun

/-- One archive with one text; the text is put and inserted before the main thread goes on. -/
def inTime : List Actor :=
  [.main, .parser 0, .parser 0, .parser 0, .indexer 0, .indexer 0, .main, .main, .main, .main,
    .main, .parser 0, .indexer 0, .main]

theorem losesNothing_iff_inTime :
    ∃ s, run (step fun _ => [7]) (start [1] 1 1) inTime = some s ∧ s.main = .joined ∧
      (LosesNothing (fun _ => [7]) [1] s ↔
        StepsMeet (step fun _ => [7]) DrainsFirst (start [1] 1 1) inTime) :=
  ⟨_, rfl, rfl, losesNothing_iff (fun _ => [7]) [1] 1 1 inTime _ rfl rfl⟩

/-- The parser has taken the archive, the main thread finds both queues empty and closes them, and
the parser puts its text into a queue nobody reads. -/
def tooLate : List Actor :=
  [.main, .parser 0, .main, .main, .main, .main, .main, .parser 0, .parser 0, .parser 0, .indexer 0,
    .main]

theorem tooLate_loses_text :
    ∃ s, run (step fun _ => [7]) (start [1] 1 1) tooLate = some s ∧ s.main = .joined ∧
      ¬ LosesNothing (fun _ => [7]) [1] s := by
  refine ⟨_, rfl, rfl, ?_⟩
  intro hall
  have hnil : ([] : List ℕ).Perm [7] := hall.inserted
  exact absurd hnil.length_eq (by decide)

end Palmira.Libruseq
