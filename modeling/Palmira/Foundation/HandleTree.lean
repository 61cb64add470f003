import Mathlib.Algebra.GroupWithZero.Nat
import Mathlib.Data.List.GetD
import Palmira.Foundation.StepSystem

/-!
# Trees built through handles

A tree of texts and named tags is built by calls on handles: each call adds a
text or a tag at the end of the root or of a tag added before, in any order. The
calls alone say which tree that is. A store keeps one cell for each tag; whatever
its cells are, as long as they take in one piece after another, the store holds
the tree of the calls.
-/

namespace HandleTree

variable {τ L : Type}

inductive Tree (τ L : Type) where
  | text (t : τ)
  | tag (name : L) (contents : List (Tree τ L))

/-- Where a call adds: at the root, or in the tag that was the `k`-th to be added. -/
inductive Handle where
  | root
  | node (k : ℕ)
  deriving DecidableEq

inductive Call (τ L : Type) where
  | addTag (on : Handle) (name : L)
  | addText (on : Handle) (t : τ)

/-- What a call adds at its handle. The contents of a tag are kept elsewhere, at `node`. -/
inductive Piece (τ L : Type) where
  | text (t : τ)
  | tag (name : L) (node : ℕ)
  deriving DecidableEq

namespace Call

def on : Call τ L → Handle
  | .addTag on _ => on
  | .addText on _ => on

/-- The piece a call adds when `n` tags have been added before. -/
def piece (n : ℕ) : Call τ L → Piece τ L
  | .addTag _ name => .tag name n
  | .addText _ t => .text t

def tags : Call τ L → ℕ
  | .addTag _ _ => 1
  | .addText _ _ => 0

def mapText {τ' : Type} (f : τ → τ') : Call τ L → Call τ' L
  | .addTag on name => .addTag on name
  | .addText on t => .addText on (f t)

end Call

/-! ## The tree of the calls -/

/-- All pieces in the order they were added, each with its place. -/
def added : ℕ → List (Call τ L) → List (Handle × Piece τ L)
  | _, [] => []
  | n, call :: rest => (call.on, call.piece n) :: added (n + call.tags) rest

def tagCount (calls : List (Call τ L)) : ℕ := (calls.map Call.tags).sum

/-- What the calls added at one place, in order. -/
def childrenOf (calls : List (Call τ L)) (place : Handle) : List (Piece τ L) :=
  ((added 0 calls).filter (fun entry => entry.1 = place)).map Prod.snd

/-- Pieces read as trees: a tag has the contents that its node holds. -/
inductive Reads (kids : ℕ → List (Piece τ L)) : List (Piece τ L) → List (Tree τ L) → Prop where
  | nil : Reads kids [] []
  | text (t : τ) {rest : List (Piece τ L)} {trees : List (Tree τ L)}
      (hrest : Reads kids rest trees) : Reads kids (.text t :: rest) (.text t :: trees)
  | tag (name : L) (node : ℕ) {rest : List (Piece τ L)} {inner trees : List (Tree τ L)}
      (hinner : Reads kids (kids node) inner) (hrest : Reads kids rest trees) :
      Reads kids (.tag name node :: rest) (.tag name inner :: trees)

/-- The contents of the root as the calls describe them. -/
def Describes (calls : List (Call τ L)) (trees : List (Tree τ L)) : Prop :=
  Reads (fun k => childrenOf calls (.node k)) (childrenOf calls .root) trees

namespace Reads

variable {kids : ℕ → List (Piece τ L)}

/-- Pieces are read in one way only. -/
theorem unique {pieces : List (Piece τ L)} {trees trees' : List (Tree τ L)}
    (hreads : Reads kids pieces trees) (hreads' : Reads kids pieces trees') : trees = trees' := by
  induction hreads generalizing trees' with
  | nil =>
      cases hreads'
      rfl
  | text t hrest ih =>
      cases hreads' with
      | text _ hrest' => rw [ih hrest']
  | tag name node hinner hrest ihinner ihrest =>
      cases hreads' with
      | tag _ _ hinner' hrest' => rw [ihinner hinner', ihrest hrest']

theorem append {front back : List (Piece τ L)} {trees trees' : List (Tree τ L)}
    (hfront : Reads kids front trees) (hback : Reads kids back trees') :
    Reads kids (front ++ back) (trees ++ trees') := by
  induction hfront with
  | nil => exact hback
  | text t hrest ih => exact .text t ih
  | tag name node hinner hrest ihinner ihrest => exact .tag name node hinner ihrest

end Reads

/-- The node of a tag lies in these bounds. -/
def Piece.Within (lo hi : ℕ) : Piece τ L → Prop
  | .text _ => True
  | .tag _ node => lo ≤ node ∧ node < hi

theorem Piece.Within.mono {lo lo' hi hi' : ℕ} {x : Piece τ L} (hwithin : x.Within lo hi)
    (hlo : lo' ≤ lo) (hhi : hi ≤ hi') : x.Within lo' hi' := by
  cases x with
  | text t => trivial
  | tag name node => exact ⟨Nat.le_trans hlo hwithin.1, Nat.lt_of_lt_of_le hwithin.2 hhi⟩

theorem Call.piece_within (call : Call τ L) {n k : ℕ} (hk : k ≤ n) :
    (call.piece n).Within k (n + call.tags) := by
  cases call with
  | addTag on name => exact ⟨hk, Nat.lt_succ_self n⟩
  | addText on t => trivial

/-- Where the pieces of a node have later nodes only, all pieces can be read. -/
theorem exists_reads {kids : ℕ → List (Piece τ L)} {n : ℕ}
    (hlater : ∀ k, ∀ x ∈ kids k, x.Within (k + 1) n) {pieces : List (Piece τ L)}
    (hpieces : ∀ x ∈ pieces, x.Within 0 n) : ∃ trees, Reads kids pieces trees := by
  -- the induction is on the number of nodes from `lo` on
  suffices hfrom : ∀ m lo, n - lo ≤ m → ∀ pieces : List (Piece τ L),
      (∀ x ∈ pieces, x.Within lo n) → ∃ trees, Reads kids pieces trees from
    hfrom n 0 (Nat.sub_le n 0) pieces hpieces
  intro m
  induction m with
  | zero =>
      intro lo hlo pieces hpieces
      induction pieces with
      | nil => exact ⟨[], .nil⟩
      | cons x rest ih =>
          obtain ⟨trees, hrest⟩ := ih (fun y hy => hpieces y (List.mem_cons_of_mem _ hy))
          have hx := hpieces x List.mem_cons_self
          cases x with
          | text t => exact ⟨_, .text t hrest⟩
          | tag name node =>
              obtain ⟨hge, hlt⟩ := hx
              omega
  | succ m ihm =>
      intro lo hlo pieces hpieces
      induction pieces with
      | nil => exact ⟨[], .nil⟩
      | cons x rest ih =>
          obtain ⟨trees, hrest⟩ := ih (fun y hy => hpieces y (List.mem_cons_of_mem _ hy))
          have hx := hpieces x List.mem_cons_self
          cases x with
          | text t => exact ⟨_, .text t hrest⟩
          | tag name node =>
              obtain ⟨hge, hlt⟩ := hx
              obtain ⟨inner, hinner⟩ := ihm (node + 1) (by omega) (kids node) (hlater node)
              exact ⟨_, .tag name node hinner hrest⟩

section Calls

theorem added_append (n : ℕ) (calls more : List (Call τ L)) :
    added n (calls ++ more) = added n calls ++ added (n + tagCount calls) more := by
  induction calls generalizing n with
  | nil => rfl
  | cons call rest ih =>
      rw [List.cons_append, added, added, ih, tagCount, tagCount, List.map_cons, List.sum_cons,
        Nat.add_assoc]
      rfl

@[simp] theorem tagCount_concat (calls : List (Call τ L)) (call : Call τ L) :
    tagCount (calls ++ [call]) = tagCount calls + call.tags := by
  simp [tagCount]

/-- One more call adds its piece at its own place and nothing anywhere else. -/
theorem childrenOf_concat (calls : List (Call τ L)) (call : Call τ L) (place : Handle) :
    childrenOf (calls ++ [call]) place = childrenOf calls place ++
      if call.on = place then [call.piece (tagCount calls)] else [] := by
  rw [childrenOf, added_append, List.filter_append, List.map_append, Nat.zero_add]
  congr 1
  by_cases hplace : call.on = place
  · simp [added, hplace]
  · simp [added, hplace]

end Calls

/-! ## Stores -/

/-- What is kept of the root and of each tag. -/
structure Store (ρ γ : Type) where
  root : ρ
  nodes : List γ

/-- How the cells of a store take in a piece. -/
structure Holder (τ L ρ γ : Type) where
  fresh : γ
  pushRoot : ρ → Piece τ L → ρ
  push : γ → Piece τ L → γ

namespace Holder

variable {ρ γ : Type} (H : Holder τ L ρ γ)

def put (s : Store ρ γ) (place : Handle) (x : Piece τ L) : Option (Store ρ γ) :=
  match place with
  | .root => some { s with root := H.pushRoot s.root x }
  | .node k =>
      match s.nodes[k]? with
      | some cell => some { s with nodes := s.nodes.set k (H.push cell x) }
      | none => none

/-- A call on a handle that has not been returned yet is none. -/
def step (s : Store ρ γ) (call : Call τ L) : Option (Store ρ γ) :=
  (H.put s call.on (call.piece s.nodes.length)).map fun s' =>
    { s' with nodes := s'.nodes ++ List.replicate call.tags H.fresh }

/-- The cells hold lists of pieces, each in one way. -/
structure Holds (holdRoot : List (Piece τ L) → ρ) (hold : List (Piece τ L) → γ) : Prop where
  fresh_eq : H.fresh = hold []
  pushRoot_eq : ∀ pieces x, H.pushRoot (holdRoot pieces) x = holdRoot (pieces ++ [x])
  push_eq : ∀ pieces x, H.push (hold pieces) x = hold (pieces ++ [x])

/-- The store holds at each place what the calls added there. Tags have later nodes only. -/
structure Built (holdRoot : List (Piece τ L) → ρ) (hold : List (Piece τ L) → γ)
    (calls : List (Call τ L)) (s : Store ρ γ) : Prop where
  root : s.root = holdRoot (childrenOf calls .root)
  length : s.nodes.length = tagCount calls
  nodes : ∀ k < tagCount calls, s.nodes[k]? = some (hold (childrenOf calls (.node k)))
  unborn : ∀ k, tagCount calls ≤ k → childrenOf calls (.node k) = []
  later_root : ∀ x ∈ childrenOf calls .root, x.Within 0 (tagCount calls)
  later : ∀ k, ∀ x ∈ childrenOf calls (.node k), x.Within (k + 1) (tagCount calls)

section Built

variable {H} {holdRoot : List (Piece τ L) → ρ} {hold : List (Piece τ L) → γ}
  {calls : List (Call τ L)} {call : Call τ L} {s s' : Store ρ γ}

theorem built_nil : Built holdRoot hold ([] : List (Call τ L)) ⟨holdRoot [], []⟩ where
  root := rfl
  length := rfl
  nodes := nofun
  unborn _ _ := rfl
  later_root := nofun
  later := nofun

/-- A call that is one adds its piece to its own cell only. -/
theorem put_cases (hput : H.put s call.on (call.piece s.nodes.length) = some s') :
    (call.on = .root ∧ s' = { s with root := H.pushRoot s.root (call.piece s.nodes.length) }) ∨
    ∃ k cell, call.on = .node k ∧ s.nodes[k]? = some cell ∧
      s' = { s with nodes := s.nodes.set k (H.push cell (call.piece s.nodes.length)) } := by
  unfold put at hput
  split at hput
  next hroot => exact .inl ⟨hroot, (Option.some.inj hput).symm⟩
  next k hnode =>
    split at hput
    next cell hcell => exact .inr ⟨k, cell, hnode, hcell, (Option.some.inj hput).symm⟩
    next => cases hput

theorem built_step (hholds : H.Holds holdRoot hold) (hbuilt : Built holdRoot hold calls s)
    (hstep : H.step s call = some s') : Built holdRoot hold (calls ++ [call]) s' := by
  obtain ⟨hroot, hlength, hnodes, hunborn, hlater_root, hlater⟩ := hbuilt
  obtain ⟨s₁, hput, rfl⟩ := Option.map_eq_some_iff.mp hstep
  have hput := put_cases hput
  rw [hlength] at hput
  -- the place of the call is the root or a tag added before
  have hplace : ∀ k, call.on = .node k → k < tagCount calls := by
    intro k hk
    rcases hput with ⟨hon, -⟩ | ⟨k', cell, hon, hcell, -⟩
    · rw [hon] at hk
      cases hk
    · rw [hon] at hk
      cases hk
      exact hlength ▸ (List.getElem?_eq_some_iff.mp hcell).1
  have hlength₁ : s₁.nodes.length = tagCount calls := by
    rcases hput with ⟨-, rfl⟩ | ⟨k, cell, -, -, rfl⟩
    · exact hlength
    · rw [List.length_set, hlength]
  have hnodes₁ : ∀ k < tagCount calls,
      s₁.nodes[k]? = some (hold (childrenOf (calls ++ [call]) (.node k))) := by
    intro k hk
    rw [childrenOf_concat]
    rcases hput with ⟨hon, rfl⟩ | ⟨k', cell, hon, hcell, rfl⟩
    · rw [if_neg (by rw [hon]; nofun), List.append_nil]
      exact hnodes k hk
    · by_cases hsame : k' = k
      · subst hsame
        have hcell' := hcell.symm.trans (hnodes k' hk)
        rw [if_pos hon, List.getElem?_set_self (hlength ▸ hk), Option.some.inj hcell',
          hholds.push_eq]
      · rw [if_neg (by rw [hon]; simpa using hsame), List.append_nil,
          List.getElem?_set_ne hsame]
        exact hnodes k hk
  have hunborn' : ∀ k, tagCount calls ≤ k → childrenOf (calls ++ [call]) (.node k) = [] := by
    intro k hk
    rw [childrenOf_concat, hunborn k hk, List.nil_append,
      if_neg (fun hon => absurd (hplace k hon) (Nat.not_lt.mpr hk))]
  have hmore : tagCount calls ≤ tagCount (calls ++ [call]) := by
    rw [tagCount_concat]
    exact Nat.le_add_right _ _
  refine ⟨?_, ?_, ?_, ?_, ?_, ?_⟩
  · rw [childrenOf_concat]
    rcases hput with ⟨hon, rfl⟩ | ⟨k, cell, hon, -, rfl⟩
    · rw [if_pos hon, ← hholds.pushRoot_eq, ← hroot]
    · rw [if_neg (by rw [hon]; nofun), List.append_nil]
      exact hroot
  · rw [tagCount_concat, List.length_append, List.length_replicate, hlength₁]
  · intro k hk
    by_cases hold' : k < tagCount calls
    · rw [List.getElem?_append_left (hlength₁ ▸ hold')]
      exact hnodes₁ k hold'
    · -- the cell of a tag just added
      have hge : tagCount calls ≤ k := Nat.not_lt.mp hold'
      rw [tagCount_concat] at hk
      have hnew : (List.replicate call.tags H.fresh)[k - tagCount calls]? = some H.fresh := by
        rw [List.getElem?_replicate, if_pos (by omega)]
      rw [List.getElem?_append_right (hlength₁ ▸ hge), hlength₁, hnew, hunborn' k hge,
        hholds.fresh_eq]
  · exact fun k hk => hunborn' k (Nat.le_trans hmore hk)
  · intro x hx
    rw [childrenOf_concat] at hx
    rcases List.mem_append.mp hx with hx | hx
    · exact (hlater_root x hx).mono (Nat.le_refl 0) hmore
    · split at hx
      next =>
        rw [List.mem_singleton.mp hx, tagCount_concat]
        exact call.piece_within (Nat.zero_le _)
      next => cases hx
  · intro k x hx
    rw [childrenOf_concat] at hx
    rcases List.mem_append.mp hx with hx | hx
    · exact (hlater k x hx).mono (Nat.le_refl _) hmore
    · split at hx
      next hon =>
        rw [List.mem_singleton.mp hx, tagCount_concat]
        exact call.piece_within (hplace k hon)
      next => cases hx

/-- Any run of calls: the store holds at each place what the calls added there. -/
theorem built_run (hholds : H.Holds holdRoot hold) {more : List (Call τ L)}
    (hbuilt : Built holdRoot hold calls s) (hrun : StepSystem.run H.step s more = some s') :
    Built holdRoot hold (calls ++ more) s' := by
  induction more generalizing calls s with
  | nil =>
      cases hrun
      rwa [List.append_nil]
  | cons call rest ih =>
      obtain ⟨s₁, hstep, hrest⟩ := StepSystem.exists_step_of_run_cons hrun
      rw [← List.singleton_append, ← List.append_assoc]
      exact ih (built_step hholds hbuilt hstep) hrest

/-- What was built can be read. -/
theorem Built.exists_describes (hbuilt : Built holdRoot hold calls s) :
    ∃ trees, Describes calls trees :=
  exists_reads hbuilt.later hbuilt.later_root

end Built

end Holder

/-! ## A tree added at one place -/

/-- The pieces of every place are kept as they are. -/
def listHolder : Holder τ L (List (Piece τ L)) (List (Piece τ L)) where
  fresh := []
  pushRoot pieces x := pieces ++ [x]
  push pieces x := pieces ++ [x]

abbrev ListStore (τ L : Type) := Store (List (Piece τ L)) (List (Piece τ L))

namespace Store

def Has (s : ListStore τ L) : Handle → Prop
  | .root => True
  | .node k => k < s.nodes.length

/-- More pieces at one place, and more nodes. -/
def extend (s : ListStore τ L) (place : Handle) (pieces : List (Piece τ L))
    (more : List (List (Piece τ L))) : ListStore τ L :=
  match place with
  | .root => ⟨s.root ++ pieces, s.nodes ++ more⟩
  | .node k => ⟨s.root, s.nodes.set k (s.nodes.getD k [] ++ pieces) ++ more⟩

variable {s : ListStore τ L} {place : Handle}

@[simp] theorem length_extend (pieces : List (Piece τ L)) (more : List (List (Piece τ L))) :
    (s.extend place pieces more).nodes.length = s.nodes.length + more.length := by
  cases place <;> simp [extend]

theorem Has.extend (hhas : s.Has place) (pieces : List (Piece τ L))
    (more : List (List (Piece τ L))) : (s.extend place pieces more).Has place := by
  cases place with
  | root => trivial
  | node k =>
      rw [Has, length_extend]
      exact Nat.lt_add_right _ hhas

theorem extend_nil (hhas : s.Has place) : s.extend place [] [] = s := by
  cases place with
  | root => simp [extend]
  | node k =>
      have hcell : s.nodes.set k (s.nodes.getD k []) = s.nodes := by
        rw [List.getD_eq_getElem s.nodes [] hhas]
        exact List.set_getElem_self hhas
      simp only [extend, List.append_nil, hcell]

theorem extend_extend (hhas : s.Has place) (pieces pieces' : List (Piece τ L))
    (more more' : List (List (Piece τ L))) :
    (s.extend place pieces more).extend place pieces' more' =
      s.extend place (pieces ++ pieces') (more ++ more') := by
  cases place with
  | root => simp [extend, List.append_assoc]
  | node k =>
      have hk : k < (s.nodes.set k (s.nodes.getD k [] ++ pieces)).length := by
        rw [List.length_set]
        exact hhas
      have hcell : (s.nodes.set k (s.nodes.getD k [] ++ pieces) ++ more).getD k [] =
          s.nodes.getD k [] ++ pieces := by
        rw [List.getD_eq_getElem?_getD, List.getElem?_append_left hk,
          List.getElem?_set_self hhas]
        rfl
      simp only [extend, hcell, List.set_append_left _ _ hk, List.set_set, List.append_assoc]

/-- Pieces added in a tag that has just been added go to its new node. -/
theorem extend_new (x : Piece τ L) (pieces : List (Piece τ L)) (more : List (List (Piece τ L))) :
    (s.extend place [x] [[]]).extend (.node s.nodes.length) pieces more =
      s.extend place [x] (pieces :: more) := by
  have hnew : ∀ nodes : List (List (Piece τ L)), nodes.length = s.nodes.length →
      (nodes ++ [[]]).set s.nodes.length ((nodes ++ [[]]).getD s.nodes.length [] ++ pieces) ++
        more = nodes ++ pieces :: more := by
    intro nodes hlength
    rw [← hlength, List.set_append_right _ _ (Nat.le_refl _)]
    simp
  cases place with
  | root =>
      simp only [extend]
      rw [hnew s.nodes rfl]
  | node k =>
      simp only [extend]
      rw [hnew _ List.length_set]

end Store

theorem step_listHolder {s : ListStore τ L} {call : Call τ L} (hhas : s.Has call.on) :
    listHolder.step s call = some (s.extend call.on [call.piece s.nodes.length]
      (List.replicate call.tags [])) := by
  cases hon : call.on with
  | root => simp [Holder.step, Holder.put, hon, Store.extend, listHolder]
  | node k =>
      rw [hon] at hhas
      obtain ⟨cell, hcell⟩ : ∃ cell, s.nodes[k]? = some cell :=
        ⟨_, List.getElem?_eq_getElem hhas⟩
      simp [Holder.step, Holder.put, hon, Store.extend, listHolder, hcell]

/-- Pieces and nodes that hold these trees, when the first of the nodes is the `n`-th of a store. -/
structure Adds (n : ℕ) (pieces : List (Piece τ L)) (more : List (List (Piece τ L)))
    (trees : List (Tree τ L)) : Prop where
  within : ∀ x ∈ pieces, x.Within n (n + more.length)
  later : ∀ (i : ℕ) (cell : List (Piece τ L)), more[i]? = some cell →
    ∀ x ∈ cell, x.Within (n + i + 1) (n + more.length)
  reads : ∀ kids : ℕ → List (Piece τ L), (∀ (i : ℕ) (cell : List (Piece τ L)),
    more[i]? = some cell → kids (n + i) = cell) → Reads kids pieces trees

namespace Adds

variable {n : ℕ}

theorem nil : Adds n ([] : List (Piece τ L)) [] [] where
  within := nofun
  later _ _ hcell := by simp at hcell
  reads _ _ := .nil

theorem text (t : τ) : Adds n ([.text t] : List (Piece τ L)) [] [.text t] where
  within x hx := by
    rw [List.mem_singleton.mp hx]
    trivial
  later _ _ hcell := by simp at hcell
  reads _ _ := .text t .nil

variable {pieces pieces' : List (Piece τ L)} {more more' : List (List (Piece τ L))}
  {trees trees' : List (Tree τ L)}

/-- A tag and behind its own node those of its contents. -/
theorem tag (name : L) (hadds : Adds (n + 1) pieces more trees) :
    Adds n [.tag name n] (pieces :: more) [.tag name trees] where
  within x hx := by
    rw [List.mem_singleton.mp hx]
    exact ⟨Nat.le_refl n, by simp⟩
  later i cell hcell x hx := by
    cases i with
    | zero =>
        obtain rfl : pieces = cell := by simpa using hcell
        exact (hadds.within x hx).mono (Nat.le_refl _) (by simp; omega)
    | succ i => exact (hadds.later i cell hcell x hx).mono (by omega) (by simp; omega)
  reads kids hkids := by
    refine .tag name n ?_ .nil
    have hnode : kids n = pieces := hkids 0 pieces rfl
    rw [hnode]
    apply hadds.reads kids
    intro i cell hcell
    rw [Nat.add_assoc, Nat.add_comm 1 i]
    exact hkids (i + 1) cell hcell

theorem append (hadds : Adds n pieces more trees)
    (hadds' : Adds (n + more.length) pieces' more' trees') :
    Adds n (pieces ++ pieces') (more ++ more') (trees ++ trees') where
  within x hx := by
    rw [List.length_append]
    rcases List.mem_append.mp hx with hx | hx
    · exact (hadds.within x hx).mono (Nat.le_refl n) (by omega)
    · exact (hadds'.within x hx).mono (by omega) (by omega)
  later i cell hcell x hx := by
    rw [List.length_append]
    by_cases hi : i < more.length
    · rw [List.getElem?_append_left hi] at hcell
      exact (hadds.later i cell hcell x hx).mono (Nat.le_refl _) (by omega)
    · rw [List.getElem?_append_right (Nat.not_lt.mp hi)] at hcell
      exact (hadds'.later _ cell hcell x hx).mono (by omega) (by omega)
  reads kids hkids := by
    apply (hadds.reads kids ?_).append (hadds'.reads kids ?_)
    · intro i cell hcell
      have hi : i < more.length := (List.getElem?_eq_some_iff.mp hcell).1
      exact hkids i cell ((List.getElem?_append_left hi).trans hcell)
    · intro i cell hcell
      rw [Nat.add_assoc]
      apply hkids
      rw [List.getElem?_append_right (Nat.le_add_right _ _), Nat.add_sub_cancel_left, hcell]

end Adds

/-! ## Values of cells that refer to later ones -/

/-- The value of each cell, worked out from the last cell to the first; `value` gets the values of
the cells behind its own. -/
def valuesFrom {β γ : Type} (value : (ℕ → β) → γ → β) (absent : β) : ℕ → List γ → List β
  | _, [] => []
  | start, cell :: rest =>
      let later := valuesFrom value absent (start + 1) rest
      value (fun k => later.getD (k - (start + 1)) absent) cell :: later

section Values

variable {β γ : Type} {value : (ℕ → β) → γ → β} {absent : β}

theorem getElem?_valuesFrom (start : ℕ) (cells : List γ)
    (hlater : ∀ i cell, cells[i]? = some cell → ∀ f g : ℕ → β,
      (∀ k, start + i < k → f k = g k) → value f cell = value g cell)
    {i : ℕ} {cell : γ} (hcell : cells[i]? = some cell) :
    (valuesFrom value absent start cells)[i]? = some (value
      (fun k => (valuesFrom value absent start cells).getD (k - start) absent) cell) := by
  induction cells generalizing start i with
  | nil => simp at hcell
  | cons head rest ih =>
      -- behind its own place a cell sees the same values from either start
      have hsame : ∀ k, start < k →
          (valuesFrom value absent (start + 1) rest).getD (k - (start + 1)) absent =
            (valuesFrom value absent start (head :: rest)).getD (k - start) absent := by
        intro k hk
        have hsub : k - start = (k - (start + 1)) + 1 := by omega
        rw [hsub, valuesFrom, List.getD_cons_succ]
      cases i with
      | zero =>
          obtain rfl : head = cell := by simpa using hcell
          rw [valuesFrom, List.getElem?_cons_zero]
          congr 1
          exact hlater 0 head rfl _ _ (fun k hk => hsame k hk)
      | succ i =>
          have hcell' : rest[i]? = some cell := hcell
          have hrest := ih (start + 1) (fun i cell hcell f g hfg =>
            hlater (i + 1) cell hcell f g (fun k hk => hfg k (by omega))) hcell'
          rw [valuesFrom, List.getElem?_cons_succ, hrest]
          congr 1
          exact hlater (i + 1) cell hcell _ _ (fun k hk => hsame k (by omega))

/-- The value of every cell, from the values of all of them. -/
theorem getD_valuesFrom (cells : List γ)
    (hlater : ∀ i cell, cells[i]? = some cell → ∀ f g : ℕ → β,
      (∀ k, i < k → f k = g k) → value f cell = value g cell)
    {i : ℕ} {cell : γ} (hcell : cells[i]? = some cell) :
    (valuesFrom value absent 0 cells).getD i absent =
      value (fun k => (valuesFrom value absent 0 cells).getD k absent) cell := by
  rw [List.getD_eq_getElem?_getD, getElem?_valuesFrom 0 cells ?_ hcell]
  · rfl
  · simpa using hlater

end Values

end HandleTree
