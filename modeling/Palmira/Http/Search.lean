import Palmira.Http.Wire

/-!
# A search on the binary wire

`MakeContents` has overloads for the arguments along one branch of the class
hierarchy. The search stands on another one and shares its root with it, so its
body is what the root makes of it; the server does not read that either.
-/

namespace Palmira.Http

structure SearchArgs extends TimingArgs where
  query : Zval := .untyped
  order : Zmap := []
  terms : Zmap := []

section

variable {β T : Type} (f : Formats β T)

/-- `MakeContents( const palmira::SearchArgs& req )`. Of the overloads that fill a map only the one
for `TimingArgs` takes the arguments of a search. -/
def SearchArgs.contents (req : SearchArgs) : List β :=
  f.serialize (req.toTimingArgs.makeContents [])

/-- `Load( palmira::SearchArgs& arg, req, src )` -/
def SearchArgs.load (arg : SearchArgs) (_req : Message) (_src : List β) :
    Except Exn SearchArgs :=
  .ok arg

/-- The body holds the timeout, whatever is searched for. -/
theorem SearchArgs.contents_eq_of_timeout {left right : SearchArgs}
    (htimeout : left.fTimeout = right.fTimeout) : left.contents f = right.contents f := by
  unfold SearchArgs.contents TimingArgs.makeContents
  rw [htimeout]

/-- No reading of the body tells two searches with one timeout apart. -/
theorem SearchArgs.not_recovered {left right : SearchArgs}
    (htimeout : left.fTimeout = right.fTimeout) (hdiffer : left.query ≠ right.query)
    (decode : List β → SearchArgs) :
    (decode (left.contents f)).query ≠ left.query ∨
      (decode (right.contents f)).query ≠ right.query := by
  rw [SearchArgs.contents_eq_of_timeout f htimeout]
  by_contra hboth
  obtain ⟨hleft, hright⟩ := not_or.mp hboth
  exact hdiffer ((not_not.mp hleft).symm.trans (not_not.mp hright))

/-- The server searches for what the client asked for. -/
def SearchArgs.Survives (req : Message) (args : SearchArgs) : Prop :=
  ∃ got, SearchArgs.load {} req (args.contents f) = .ok got ∧
    got.query = args.query ∧ got.order = args.order ∧ got.terms = args.terms

/-- A search survives exactly if it asks for nothing. -/
theorem search_survives_iff (req : Message) (args : SearchArgs) :
    args.Survives f req ↔ args.query = .untyped ∧ args.order = [] ∧ args.terms = [] := by
  constructor
  · intro ⟨got, hgot, hquery, horder, hterms⟩
    cases hgot
    exact ⟨hquery.symm, horder.symm, hterms.symm⟩
  · intro ⟨hquery, horder, hterms⟩
    exact ⟨{}, rfl, hquery.symm, horder.symm, hterms.symm⟩

end

/-- Streams that give back every map, and a search for one word. -/
theorem query_not_survives :
    wholeFormats.Inverse ∧
      ¬ SearchArgs.Survives wholeFormats ⟨[]⟩ { query := .charstr "word" } := by
  refine ⟨wholeFormats_inverse, ?_⟩
  intro ⟨got, hgot, hquery, _⟩
  cases hgot
  cases hquery

end Palmira.Http
