import Palmira.Core.Zval
import Palmira.Collect.Quotes
import Palmira.Foundation.TopList

/-!
# The documents collector

`Documents::impl`: a buffer of the best `nLimit` documents found so far, the
abstracts stored for them, and the search, merge and report calls on it. `W` is
the type of weights; the code uses `double`. Counters and ids are `uint32_t`.
-/

namespace Palmira.Collect

variable {W : Type}

/-- `max_thread_section` -/
def maxThreadSection : ℕ := 0x4000

/-- A query as the collector uses it: `SearchDoc( k )` answers an id not below `k`, or
`uint32_t(-1)`; `GetTuples` gives the abstract of a found document. -/
structure IQuery (W : Type) where
  searchDoc : ℕ → ℕ
  getTuples : ℕ → Abstract W
  le_searchDoc : ∀ k ≤ noDoc, k ≤ searchDoc k
  searchDoc_le : ∀ k, searchDoc k ≤ noDoc

structure Entity (W : Type) where
  id : ℕ
  weight : W

/-- `Documents::data`, without the thread pool. -/
structure Params (W : Type) where
  nfirst : ℕ
  ncount : ℕ
  differ : ℕ → W → ℕ → W → ℤ
  ranker : ℕ → Abstract W → W
  quoter : Option (ℕ → Abstract W → List Zval)

/-- `nLimit( params.nfirst + params.ncount - 1 )` -/
def Params.nLimit (params : Params W) : ℕ := (params.nfirst + params.ncount + (2 ^ 32 - 1)) % 2 ^ 32

/-- The comparison every sort and scan of the collector makes. -/
def Params.less (params : Params W) (l r : Entity W) : Bool :=
  decide (params.differ l.id l.weight r.id r.weight < 0)

/-- `Documents::impl`. `buffer` holds the constructed entities, so `nCount` is its length;
`pWorst` is the slot of the cached worst one. -/
structure Documents (W : Type) where
  params : Params W
  quoBox : Abstracts W
  buffer : List (Entity W)
  nFound : ℕ
  pWorst : Option ℕ

/-- An entity of the index: its id and its extra data. -/
structure IEntity where
  getId : String
  getExtra : List UInt8

/-- One element of `items` in the report. -/
structure Item (W : Type) where
  id : String
  index : ℕ
  extra : Zmap
  range : W
  quote : Option (List Zval)

structure Report (W : Type) where
  first : ℕ
  found : ℕ
  count : Option ℕ
  items : Option (List (Item W))

namespace Documents

def nFirst (c : Documents W) : ℕ := c.params.nfirst

def nLimit (c : Documents W) : ℕ := c.params.nLimit

def nCount (c : Documents W) : ℕ := c.buffer.length

def create (params : Params W) : Documents W :=
  ⟨params, .create params.nLimit, [], 0, none⟩

/-! ## Search( linear ) -/

/-- The scan for the worst element: `worst` is the best candidate so far, `pos` the next slot. -/
def detectWorst (params : Params W) : ℕ → Entity W → ℕ → List (Entity W) → ℕ
  | worst, _, _, [] => worst
  | worst, held, pos, beg :: rest =>
      if params.less held beg then detectWorst params pos beg (pos + 1) rest
      else detectWorst params worst held (pos + 1) rest

/-- `pWorst`, looked up when it is not cached. -/
def worstSlot (c : Documents W) : Option ℕ :=
  match c.pWorst, c.buffer with
  | some worst, _ => some worst
  | none, [] => none
  | none, first :: rest => some (detectWorst c.params 0 first 1 rest)

section Search

variable [LT W] [DecidableLT W]

/-- The body of the search loop for a found document. -/
def addDoc (c : Documents W) (id : ℕ) (tuples : Abstract W) : Except Exn (Documents W) :=
  if tuples.isNone then .ok c
  else
    let entity : Entity W := ⟨id, c.params.ranker id tuples⟩
    if c.nCount < c.nLimit then do
      let quoBox ← c.quoBox.set id tuples noDoc
      return { c with quoBox, buffer := c.buffer ++ [entity], nFound := c.nFound + 1 }
    else
      match c.worstSlot with
      | none => .error (.undefined "worst element of an empty buffer")
      | some worst =>
          match c.buffer[worst]? with
          | none => .error (.undefined "worst element out of the buffer")
          | some held =>
              if c.params.less entity held then do
                let quoBox ← c.quoBox.set id tuples held.id
                return { c with
                  quoBox, buffer := c.buffer.set worst entity, nFound := c.nFound + 1,
                  pWorst := none }
              else return { c with nFound := c.nFound + 1, pWorst := some worst }

/-- `for ( ; (id = query->SearchDoc( id + 1 )) != uint32_t(-1); )` -/
def searchFrom (query : IQuery W) (c : Documents W) (id : ℕ) : Except Exn (Documents W) :=
  if hid : id < noDoc then
    if query.searchDoc (id + 1) = noDoc then .ok c
    else do
      let c' ← c.addDoc (query.searchDoc (id + 1)) (query.getTuples (query.searchDoc (id + 1)))
      searchFrom query c' (query.searchDoc (id + 1))
  else .ok c
termination_by noDoc - id
decreasing_by
  have hle := query.le_searchDoc (id + 1) hid
  omega

/-- `Search( linear, query )`, starting at id 0; it answers whether anything was found. -/
def searchLinear (c : Documents W) (query : IQuery W) : Except Exn (Bool × Documents W) := do
  let c' ← c.searchFrom query 0
  return (c'.nFound != 0, c')

/-! ## Insert -/

/-- The merge loop. `dstptr` is the insertion point, `src` the source entities not yet merged;
`memmove` and the placement of the new entity put it at `dstptr`, and in a full buffer the last
one falls out. -/
def insertLoop (quotes : Abstracts W) (c : Documents W) (dstptr : ℕ) :
    List (Entity W) → Except Exn (Documents W)
  | [] => .ok c
  | src :: rest =>
      -- the inner loop: past everything ranked before `src`
      let dstptr := TopList.placeFrom c.params.less dstptr src c.buffer
      if dstptr = c.nLimit then .ok c
      else
        match quotes.get src.id with
        | none => .error (.undefined "null abstract")
        | some abstr =>
            if c.nCount < c.nLimit then do
              let quoBox ← c.quoBox.set src.id abstr noDoc
              insertLoop quotes { c with
                quoBox, buffer := c.buffer.take dstptr ++ src :: c.buffer.drop dstptr } dstptr rest
            else
              match c.buffer[c.nLimit - 1]? with
              | none => .error (.undefined "last element out of the buffer")
              | some last => do
                  let quoBox ← c.quoBox.set src.id abstr last.id
                  insertLoop quotes { c with
                    quoBox
                    buffer := c.buffer.take dstptr ++ src :: (c.buffer.drop dstptr).dropLast }
                    dstptr rest

/-- `Insert( docs )`: both buffers are merged by the order of the target. -/
def insert (c docs : Documents W) : Except Exn (Documents W) := do
  let c' ← insertLoop docs.quoBox c 0 (TopList.ranked c.params.less docs.buffer)
  return { c' with nFound := c'.nFound + docs.nFound }

end Search

/-! ## Finish -/

section Finish

variable (getEntity : ℕ → Option IEntity) (fetchFrom : List UInt8 → Zmap)

/-- The report of one kept entity; empty extra data give an empty map. -/
def item (c : Documents W) (entity : Entity W) : Except Exn (Item W) :=
  match getEntity entity.id with
  | none => .error (.logicError "index has no entity found by index")
  | some stored => .ok
      { id := stored.getId
        index := entity.id
        extra := if stored.getExtra.isEmpty then [] else fetchFrom stored.getExtra
        range := entity.weight
        quote := c.params.quoter.bind fun quoter =>
          (c.quoBox.get entity.id).map (quoter entity.id) }

def itemsOf (c : Documents W) : List (Entity W) → Except Exn (List (Item W))
  | [] => .ok []
  | entity :: rest => do
      return (← c.item getEntity fetchFrom entity) :: (← itemsOf c rest)

/-- `Finish( pIndex )`: the buffer is left sorted. -/
def finish (c : Documents W) : Except Exn (Report W × Documents W) :=
  if c.nFirst ≤ c.nCount then do
    let sorted := TopList.ranked c.params.less c.buffer
    let c' := { c with buffer := sorted }
    let items ← c'.itemsOf getEntity fetchFrom (sorted.drop (c.nFirst - 1))
    return (⟨c.nFirst, c.nFound, some (c.nCount + 1 - c.nFirst), some items⟩, c')
  else return (⟨c.nFirst, c.nFound, none, none⟩, c)

end Finish

end Documents

end Palmira.Collect
