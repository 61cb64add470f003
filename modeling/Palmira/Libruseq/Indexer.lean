import Palmira.Foundation.StepSystem
import Palmira.Foundation.Threads

/-!
# The local indexer

`libruseq-index`: the main thread lists archives into a queue, parser threads put
the texts of each archive into a second one, indexer threads insert them. One
pair of flags closes both queues. `F` stands for the archives, `T` for the texts;
`parsed` and `inserted` record what has been done.
-/

namespace Palmira.Libruseq

open StepSystem Threads

variable {F T : Type}

structure Shared (F T : Type) where
  archives : List F
  fb2Texts : List T
  canContinue : Bool
  noMoreFiles : Bool
  parsed : List F
  inserted : List T
  deriving DecidableEq

/-- The limit of `archives`. -/
def archivesLimit : ℕ := 0x100

/-- The limit of `fb2Texts`. -/
def textsLimit : ℕ := 0x10

/-! ## Collector -/

namespace Collector

variable {V : Type}

/-- `Put( v )` once it need not wait any more. -/
def put (limit : ℕ) (canContinue : Bool) (list : List V) (v : V) : Option (List V) :=
  if list.length < limit ∨ canContinue = false then some (list ++ [v]) else none

/-- What `Get` comes back with: a value and the rest of the queue, or `false`. -/
inductive Got (V : Type) where
  | value (v : V) (rest : List V)
  | closed

/-- `Get( v )`: an empty queue is looked at again until the flags change. -/
def get (canContinue noMoreFiles : Bool) (list : List V) : Option (Got V) :=
  if canContinue = false then some .closed
  else
    match list with
    | v :: rest => some (.value v rest)
    | [] => if noMoreFiles = true then some .closed else none

end Collector

/-! ## The threads -/

/-- A thread in `ParseTexts`: before `Get`, in `ReadZipped` with the texts still to put, behind the
loop. -/
inductive Parser (F T : Type) where
  | get
  | reading (file : F) (rest : List T)
  | finished
  deriving DecidableEq

def Parser.isFinished : Parser F T → Bool
  | .finished => true
  | .get => false
  | .reading _ _ => false

/-- A thread in `IndexTexts`: before `Get`, in `Insert`, behind the loop. -/
inductive Indexer (T : Type) where
  | get
  | inserting (text : T)
  | finished
  deriving DecidableEq

def Indexer.isFinished : Indexer T → Bool
  | .finished => true
  | .get => false
  | .inserting _ => false

/-- The main thread: in `ListFiles`, in its own `ParseTexts` and `IndexTexts`, in `join`. -/
inductive Main (F T : Type) where
  | listing (rest : List F)
  | parsing (parser : Parser F T)
  | indexing (indexer : Indexer T)
  | joining
  | joined
  deriving DecidableEq

/-- `ParseTexts` -/
def stepParser (textsOf : F → List T) (s : Shared F T) :
    Parser F T → Option (Shared F T × Parser F T)
  | .get =>
      (Collector.get s.canContinue s.noMoreFiles s.archives).map fun got =>
        match got with
        | .value file rest => ({ s with archives := rest }, .reading file (textsOf file))
        | .closed => (s, .finished)
  | .reading file [] => some ({ s with parsed := s.parsed ++ [file] }, .get)
  | .reading file (text :: rest) =>
      (Collector.put textsLimit s.canContinue s.fb2Texts text).map fun list =>
        ({ s with fb2Texts := list }, .reading file rest)
  | .finished => none

/-- `IndexTexts` -/
def stepIndexer (s : Shared F T) : Indexer T → Option (Shared F T × Indexer T)
  | .get =>
      (Collector.get s.canContinue s.noMoreFiles s.fb2Texts).map fun got =>
        match got with
        | .value text rest => ({ s with fb2Texts := rest }, .inserting text)
        | .closed => (s, .finished)
  | .inserting text => some ({ s with inserted := s.inserted ++ [text] }, .get)
  | .finished => none

structure System (F T : Type) where
  shared : Shared F T
  main : Main F T
  parsers : List (Parser F T)
  indexers : List (Indexer T)
  deriving DecidableEq

inductive Actor where
  | main
  | parser (i : ℕ)
  | indexer (i : ℕ)

/-- One step of `main`. -/
def stepMain (textsOf : F → List T) (s : System F T) : Option (System F T) :=
  match s.main with
  | .listing (file :: rest) =>
      if s.shared.canContinue = true then
        (Collector.put archivesLimit s.shared.canContinue s.shared.archives file).map fun list =>
          { s with shared := { s.shared with archives := list }, main := .listing rest }
      else some { s with shared := { s.shared with noMoreFiles := true }, main := .parsing .get }
  | .listing [] =>
      some { s with shared := { s.shared with noMoreFiles := true }, main := .parsing .get }
  | .parsing .finished => some { s with main := .indexing .get }
  | .parsing parser =>
      (stepParser textsOf s.shared parser).map fun (shared, parser) =>
        { s with shared, main := .parsing parser }
  | .indexing .finished =>
      some { s with shared := { s.shared with canContinue := false }, main := .joining }
  | .indexing indexer =>
      (stepIndexer s.shared indexer).map fun (shared, indexer) =>
        { s with shared, main := .indexing indexer }
  | .joining =>
      if s.parsers.all Parser.isFinished && s.indexers.all Indexer.isFinished then
        some { s with main := .joined }
      else none
  | .joined => none

/-- The threads of the program in any interleaving. -/
def step (textsOf : F → List T) (s : System F T) : Actor → Option (System F T)
  | .main => stepMain textsOf s
  | .parser i =>
      (stepAt (stepParser textsOf) s.shared s.parsers i).map fun (shared, parsers) =>
        { s with shared, parsers }
  | .indexer i =>
      (stepAt stepIndexer s.shared s.indexers i).map fun (shared, indexers) =>
        { s with shared, indexers }

/-- All threads run before the first file is listed. -/
def start (files : List F) (nParsers nIndexers : ℕ) : System F T where
  shared := ⟨[], [], true, false, [], []⟩
  main := .listing files
  parsers := List.replicate nParsers .get
  indexers := List.replicate nIndexers .get

end Palmira.Libruseq
