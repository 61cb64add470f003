import Mathlib.Data.Nat.Basic
import Mathlib.Order.WellFounded

/-!
# Recursion with a budget

A recursive procedure over nodes, run with a budget of nested calls. Each node has
finitely many children, and the body of a node asks for these only. When it asks
for all of them, the procedure ends exactly at the nodes from which no infinite
chain of children starts.
-/

namespace Recursion

variable {N R : Type*} (body : (N → Option R) → N → Option R)

/-- The result of a node with at most this many nested calls. -/
def run : ℕ → N → Option R
  | 0, _ => none
  | fuel + 1, node => body (run fuel) node

/-- The procedure ends at the node with this result. -/
def Returns (node : N) (result : R) : Prop := ∃ fuel, run body fuel node = some result

def Ends (node : N) : Prop := ∃ result, Returns body node result

/-- More answered calls change no result. -/
def Monotone : Prop := ∀ f g : N → Option R, (∀ node r, f node = some r → g node = some r) →
  ∀ node r, body f node = some r → body g node = some r

/-- The body has a result once the children have. -/
def Asks (children : N → List N) : Prop := ∀ (f : N → Option R) node,
  (∀ child ∈ children node, ∃ r, f child = some r) → ∃ r, body f node = some r

/-- A node has no result before its children have. -/
def Needs (children : N → List N) : Prop := ∀ fuel node r,
  run body (fuel + 1) node = some r → ∀ child ∈ children node, ∃ r, run body fuel child = some r

variable {body} {children : N → List N}

theorem run_succ (hmono : Monotone body) (fuel : ℕ) (node : N) (r : R)
    (hrun : run body fuel node = some r) : run body (fuel + 1) node = some r := by
  induction fuel generalizing node r with
  | zero => cases hrun
  | succ fuel ih => exact hmono _ _ ih node r hrun

theorem run_mono (hmono : Monotone body) {fuel fuel' : ℕ} (hle : fuel ≤ fuel') {node : N} {r : R}
    (hrun : run body fuel node = some r) : run body fuel' node = some r := by
  induction hle with
  | refl => exact hrun
  | step _ ih => exact run_succ hmono _ node r ih

theorem Returns.unique (hmono : Monotone body) {node : N} {r r' : R} (hr : Returns body node r)
    (hr' : Returns body node r') : r = r' := by
  obtain ⟨fuel, hrun⟩ := hr
  obtain ⟨fuel', hrun'⟩ := hr'
  have hmax := run_mono hmono (Nat.le_max_left fuel fuel') hrun
  rw [run_mono hmono (Nat.le_max_right fuel fuel') hrun'] at hmax
  exact (Option.some.inj hmax).symm

/-- Finitely many nodes that end do so with one budget. -/
theorem exists_fuel_forall (hmono : Monotone body) {nodes : List N}
    (hends : ∀ node ∈ nodes, Ends body node) :
    ∃ fuel, ∀ node ∈ nodes, ∃ r, run body fuel node = some r := by
  induction nodes with
  | nil => exact ⟨0, nofun⟩
  | cons first rest ih =>
      obtain ⟨r, fuel, hrun⟩ := hends first List.mem_cons_self
      obtain ⟨fuel', hrest⟩ := ih fun node hmem => hends node (List.mem_cons_of_mem _ hmem)
      refine ⟨max fuel fuel', fun node hmem => ?_⟩
      rcases List.mem_cons.mp hmem with rfl | hmem
      · exact ⟨r, run_mono hmono (Nat.le_max_left _ _) hrun⟩
      · obtain ⟨r', hrun'⟩ := hrest node hmem
        exact ⟨r', run_mono hmono (Nat.le_max_right _ _) hrun'⟩

theorem ends_of_acc (hmono : Monotone body) (hasks : Asks body children) {node : N}
    (hacc : Acc (fun child parent => child ∈ children parent) node) : Ends body node := by
  induction hacc with
  | intro node _ ih =>
      obtain ⟨fuel, hchildren⟩ := exists_fuel_forall hmono ih
      obtain ⟨r, hbody⟩ := hasks (run body fuel) node hchildren
      exact ⟨r, fuel + 1, hbody⟩

theorem acc_of_ends (hneeds : Needs body children) {node : N} (hends : Ends body node) :
    Acc (fun child parent => child ∈ children parent) node := by
  obtain ⟨r, fuel, hrun⟩ := hends
  induction fuel generalizing node r with
  | zero => cases hrun
  | succ fuel ih =>
      apply Acc.intro
      intro child hchild
      obtain ⟨r', hrun'⟩ := hneeds _ node r hrun child hchild
      exact ih r' hrun'

end Recursion
