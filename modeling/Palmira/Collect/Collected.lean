import Mathlib.Data.List.Find
import Mathlib.Data.List.Perm.Basic
import Palmira.Collect.Documents

/-!
# What a collector holds

Documents are their ids together with the abstracts a query gives for them. A
collector that has taken in a list of documents holds the best of them and one
copied abstract for each it holds; the store of abstracts keeps up with every
change the search and the merge make to the buffer.
-/

namespace Palmira.Collect

open TopList
open scoped List

variable {W : Type}

/-- The query finds exactly the documents `ids`, in increasing order, with these abstracts. -/
structure IQuery.Yields (query : IQuery W) (tuples : ℕ → Abstract W) (ids : List ℕ) : Prop where
  increasing : ids.Pairwise (· < ·)
  inRange : ∀ id ∈ ids, 1 ≤ id ∧ id < noDoc
  searchDoc_eq : ∀ k ≤ noDoc,
    query.searchDoc k = (ids.find? (fun id => decide (k ≤ id))).getD noDoc
  getTuples_eq : ∀ id ∈ ids, query.getTuples id = tuples id

theorem IQuery.Yields.nodup {query : IQuery W} {tuples : ℕ → Abstract W} {ids : List ℕ}
    (hyields : query.Yields tuples ids) : ids.Nodup :=
  hyields.increasing.imp (fun h => Nat.ne_of_lt h)

theorem IQuery.Yields.noDoc_not_mem {query : IQuery W} {tuples : ℕ → Abstract W} {ids : List ℕ}
    (hyields : query.Yields tuples ids) : noDoc ∉ ids :=
  fun hmem => absurd (hyields.inRange noDoc hmem).2 (Nat.lt_irrefl _)

/-- A query over a list of documents: the first id not below `k`. -/
def IQuery.ofDocuments (tuples : ℕ → Abstract W) (ids : List ℕ) : IQuery W where
  searchDoc k := (ids.find? (fun id => decide (k ≤ id) && decide (id < noDoc))).getD noDoc
  getTuples := tuples
  le_searchDoc k hk := by
    cases hfind : ids.find? (fun id => decide (k ≤ id) && decide (id < noDoc)) with
    | none => exact hk
    | some id =>
        have hid := List.find?_some hfind
        simp only [Bool.and_eq_true, decide_eq_true_eq] at hid
        exact hid.1
  searchDoc_le k := by
    cases hfind : ids.find? (fun id => decide (k ≤ id) && decide (id < noDoc)) with
    | none => exact Nat.le_refl noDoc
    | some id =>
        have hid := List.find?_some hfind
        simp only [Bool.and_eq_true, decide_eq_true_eq] at hid
        exact hid.2.le

theorem IQuery.ofDocuments_yields (tuples : ℕ → Abstract W) {ids : List ℕ}
    (hincreasing : ids.Pairwise (· < ·)) (hrange : ∀ id ∈ ids, 1 ≤ id ∧ id < noDoc) :
    (IQuery.ofDocuments tuples ids).Yields tuples ids where
  increasing := hincreasing
  inRange := hrange
  searchDoc_eq k _ := by
    have hcongr : ids.find? (fun id => decide (k ≤ id) && decide (id < noDoc)) =
        ids.find? (fun id => decide (k ≤ id)) := by
      apply List.find?_congr
      intro id hid
      simp [(hrange id hid).2]
    simp only [IQuery.ofDocuments, hcongr]
  getTuples_eq _ _ := rfl

/-- The documents a search behind `id` comes to, in its order. -/
def IQuery.visited (query : IQuery W) (id : ℕ) : List ℕ :=
  if hid : id < noDoc then
    if query.searchDoc (id + 1) = noDoc then []
    else query.searchDoc (id + 1) :: visited query (query.searchDoc (id + 1))
  else []
termination_by noDoc - id
decreasing_by
  have hle := query.le_searchDoc (id + 1) hid
  omega

theorem IQuery.visited_spec (query : IQuery W) (id : ℕ) :
    (query.visited id).Pairwise (· < ·) ∧ ∀ d ∈ query.visited id, id < d ∧ d < noDoc := by
  fun_induction IQuery.visited query id with
  | case1 => simp
  | case2 id hid hend ih =>
      have hle := query.le_searchDoc (id + 1) hid
      have hlt := Nat.lt_of_le_of_ne (query.searchDoc_le (id + 1)) hend
      refine ⟨List.pairwise_cons.mpr ⟨fun d hd => (ih.2 d hd).1, ih.1⟩, ?_⟩
      intro d hd
      rcases List.mem_cons.mp hd with rfl | hd
      · exact ⟨hle, hlt⟩
      · exact ⟨Nat.lt_of_le_of_lt (Nat.le_of_succ_le hle) (ih.2 d hd).1, (ih.2 d hd).2⟩
  | case3 => simp

/-- The documents that count: those whose abstract has a mode. -/
def matching (tuples : ℕ → Abstract W) (ids : List ℕ) : List ℕ :=
  ids.filter (fun id => !(tuples id).isNone)

def entityOf (params : Params W) (tuples : ℕ → Abstract W) (id : ℕ) : Entity W :=
  ⟨id, params.ranker id (tuples id)⟩

/-- The whole list of matching documents, as entities. -/
def entities (params : Params W) (tuples : ℕ → Abstract W) (ids : List ℕ) : List (Entity W) :=
  (matching tuples ids).map (entityOf params tuples)

theorem mem_matching {tuples : ℕ → Abstract W} {ids : List ℕ} {id : ℕ} :
    id ∈ matching tuples ids ↔ id ∈ ids ∧ (tuples id).isNone = false := by
  simp [matching]

theorem entities_ids (params : Params W) (tuples : ℕ → Abstract W) (ids : List ℕ) :
    (entities params tuples ids).map Entity.id = matching tuples ids := by
  simp [entities, entityOf, Function.comp_def]

theorem entities_append (params : Params W) (tuples : ℕ → Abstract W) (ids ids' : List ℕ) :
    entities params tuples (ids ++ ids') =
      entities params tuples ids ++ entities params tuples ids' := by
  simp [entities, matching]

theorem entities_cons_of_some {params : Params W} {tuples : ℕ → Abstract W} {ids : List ℕ} {id : ℕ}
    (hsome : (tuples id).isNone = false) :
    entities params tuples (id :: ids) =
      entityOf params tuples id :: entities params tuples ids := by
  simp [entities, matching, hsome]

theorem nodup_entities {tuples : ℕ → Abstract W} {ids : List ℕ} (hids : ids.Nodup)
    (params : Params W) :
    ((entities params tuples ids).map Entity.id).Nodup := by
  rw [entities_ids]
  exact hids.filter _

theorem fresh_entities {tuples : ℕ → Abstract W} {ids : List ℕ} {id : ℕ} (hid : id ∉ ids)
    (params : Params W) :
    id ∉ (entities params tuples ids).map Entity.id := by
  rw [entities_ids]
  exact fun hmem => hid (mem_matching.mp hmem).1

variable [LT W] [DecidableLT W]

/-- The search adds the documents it comes to, one after the other. -/
theorem searchFrom_eq_foldlM (query : IQuery W) (c : Documents W) (id : ℕ) :
    c.searchFrom query id =
      (query.visited id).foldlM (fun c d => c.addDoc d (query.getTuples d)) c := by
  fun_induction IQuery.visited query id generalizing c with
  | case1 id hid hend =>
      rw [Documents.searchFrom, dif_pos hid, if_pos hend]
      rfl
  | case2 id hid hend ih =>
      rw [Documents.searchFrom, dif_pos hid, if_neg hend, List.foldlM_cons]
      exact bind_congr fun c' => ih c'
  | case3 id hid =>
      rw [Documents.searchFrom, dif_neg hid]
      rfl

/-- The stored item that belongs to an entity of the buffer. -/
def quoteOf (tuples : ℕ → Abstract W) (entity : Entity W) : ℕ × Abstract W :=
  (entity.id, copyAbstract (tuples entity.id))

/-- The collector holds the best of `all`, and an abstract for each entity it holds. -/
structure Keeps (tuples : ℕ → Abstract W) (c : Documents W) (all : List (Entity W)) : Prop where
  top : IsTop c.params.less c.nLimit c.buffer all
  quotes : c.quoBox.items ~ c.buffer.map (quoteOf tuples)
  limit : c.quoBox.limit = c.nLimit

variable {tuples : ℕ → Abstract W} {c : Documents W} {all : List (Entity W)}

namespace Keeps

theorem perm {all' : List (Entity W)} (hkeeps : Keeps tuples c all) (hperm : all ~ all') :
    Keeps tuples c all' where
  top := hkeeps.top.perm (.refl _) hperm
  quotes := hkeeps.quotes
  limit := hkeeps.limit

/-- Kept documents are among the collected ones, each once. -/
theorem nodup (hkeeps : Keeps tuples c all) (hids : (all.map Entity.id).Nodup) :
    (c.buffer.map Entity.id).Nodup := by
  obtain ⟨rest, hperm, _⟩ := hkeeps.top
  have hsplit := (hperm.map Entity.id).nodup_iff.mp hids
  rw [List.map_append] at hsplit
  exact (List.nodup_append.mp hsplit).1

theorem quote_ids (hkeeps : Keeps tuples c all) :
    c.quoBox.items.map Prod.fst ~ c.buffer.map Entity.id := by
  apply (hkeeps.quotes.map Prod.fst).trans
  rw [List.map_map]
  exact .refl _

theorem quote_ids_nodup (hkeeps : Keeps tuples c all) (hids : (all.map Entity.id).Nodup) :
    (c.quoBox.items.map Prod.fst).Nodup :=
  hkeeps.quote_ids.nodup_iff.mpr (hkeeps.nodup hids)

/-- While the buffer has room, a new abstract is appended. -/
theorem set_new (hkeeps : Keeps tuples c all) (hroom : c.nCount < c.nLimit) (id : ℕ)
    (abstr : Abstract W) (hfresh : noDoc ∉ all.map Entity.id) :
    c.quoBox.set id abstr noDoc =
      .ok { c.quoBox with items := c.quoBox.items ++ [(id, copyAbstract abstr)] } := by
  apply Abstracts.set_new
  · rw [hkeeps.quotes.length_eq, List.length_map, hkeeps.limit]
    exact hroom
  · rw [hkeeps.quote_ids.mem_iff]
    intro hmem
    obtain ⟨entity, hentity, heq⟩ := List.mem_map.mp hmem
    exact hfresh (heq ▸ List.mem_map_of_mem (hkeeps.top.subset hentity))

/-- The abstract of a kept document gives way to a new one. -/
theorem set_old (hkeeps : Keeps tuples c all) (hids : (all.map Entity.id).Nodup) {held : Entity W}
    {others : List (Entity W)} (hperm : c.buffer ~ held :: others) (id : ℕ) (abstr : Abstract W) :
    ∃ items, c.quoBox.set id abstr held.id = .ok { c.quoBox with items } ∧
      items ~ (id, copyAbstract abstr) :: others.map (quoteOf tuples) := by
  have hitems : c.quoBox.items ~ quoteOf tuples held :: others.map (quoteOf tuples) :=
    hkeeps.quotes.trans (hperm.map _)
  exact Abstracts.set_old hitems (hkeeps.quote_ids_nodup hids) id abstr

/-- Every kept document has its abstract. -/
theorem get_quote (hkeeps : Keeps tuples c all) (hids : (all.map Entity.id).Nodup)
    {entity : Entity W} (hmem : entity ∈ c.buffer) :
    c.quoBox.get entity.id = some (copyAbstract (tuples entity.id)) := by
  have hitem : quoteOf tuples entity ∈ c.quoBox.items :=
    hkeeps.quotes.mem_iff.mpr (List.mem_map_of_mem hmem)
  exact Abstracts.get_of_mem (hkeeps.quote_ids_nodup hids) hitem

end Keeps

/-- The collector has taken in the documents `ids`. -/
structure Collects (tuples : ℕ → Abstract W) (c : Documents W) (ids : List ℕ) : Prop where
  found : c.nFound = (matching tuples ids).length
  keeps : Keeps tuples c (entities c.params tuples ids)

namespace Collects

variable {ids : List ℕ}

theorem create (params : Params W) (tuples : ℕ → Abstract W) :
    Collects tuples (.create params) [] where
  found := rfl
  keeps := ⟨isTop_nil, .refl _, rfl⟩

theorem perm {ids' : List ℕ} (hc : Collects tuples c ids) (hperm : ids ~ ids') :
    Collects tuples c ids' where
  found := hc.found.trans (hperm.filter _).length_eq
  keeps := hc.keeps.perm ((hperm.filter _).map _)

/-- Documents that do not count add nothing. -/
theorem append_none {part : List ℕ} (hc : Collects tuples c ids)
    (hnone : matching tuples part = []) : Collects tuples c (ids ++ part) := by
  have hmatching : matching tuples (ids ++ part) = matching tuples ids := by
    rw [matching, List.filter_append]
    change matching tuples ids ++ matching tuples part = _
    rw [hnone, List.append_nil]
  have hentities : entities c.params tuples (ids ++ part) = entities c.params tuples ids := by
    rw [entities, hmatching, entities]
  refine ⟨?_, ?_⟩
  · rw [hmatching]
    exact hc.found
  · rw [hentities]
    exact hc.keeps

/-- The documents taken in determine the buffer up to its order, and every abstract in it. -/
theorem unique (hless : StrictTotal c.params.less) {c' : Documents W}
    (hparams : c'.params = c.params) (hids : ids.Nodup) (hc : Collects tuples c ids)
    (hc' : Collects tuples c' ids) :
    c'.nFound = c.nFound ∧ c'.buffer ~ c.buffer ∧
      ∀ entity ∈ c.buffer, c'.quoBox.get entity.id = c.quoBox.get entity.id ∧
        (c.quoBox.get entity.id).isSome = true := by
  have htop' : IsTop c.params.less c.nLimit c'.buffer (entities c.params tuples ids) := by
    have htop := hc'.keeps.top
    rw [hparams, Documents.nLimit, hparams] at htop
    exact htop
  have hbuffer : c'.buffer ~ c.buffer := htop'.unique hless hc.keeps.top
  refine ⟨hc'.found.trans hc.found.symm, hbuffer, ?_⟩
  intro entity hmem
  have hquote := hc.keeps.get_quote (nodup_entities hids _) hmem
  have hquote' := hc'.keeps.get_quote (nodup_entities hids _) (hbuffer.mem_iff.mpr hmem)
  rw [hquote, hquote']
  exact ⟨rfl, rfl⟩

end Collects

end Palmira.Collect
