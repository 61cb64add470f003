import Palmira.Foundation.RefCount
import Palmira.Service.Fields

/-!
# The lives of a service

Whoever uses the service holds a reference to it, and the `Detach` that takes the last
one away commits before it deletes the object. Services are started over an index one
after the other; any threads share each of them. The service has no lock: what its calls
store is told of calls that do not overlap. A `Commit` that an `Insert` overtakes stores
the old table and clears `modified`.
-/

namespace Palmira.Service

open Effects RefCount StepSystem

variable {β T B F C N : Type}

/-- What `Detach` does behind a count of zero, and whether it comes to the `delete`. -/
def lastDetach (lib : Structo β T B F C) (s : StructoSearch β F C) : StructoSearch β F C × Bool :=
  match lib.commit.run.run s with
  | (.ok _, s') => (s', true)
  | (.error _, s') => (s', false)

/-- The service as its threads use it. -/
def sharedService (lib : Structo β T B F C) : Code (StructoSearch β F C) (Operation T) where
  perform op s := ((lib.perform op).run.run s).2
  close := lastDetach lib

section Life

variable {lib : Structo β T B F C} {s₀ : StructoSearch β F C}
  {s : State (StructoSearch β F C) (Operation T)}

theorem lastDetach_of_ends {good bad : StructoSearch β F C → Prop}
    (hends : Ends lib.commit s₀ (fun _ => good) (fun _ => bad)) :
    if (lastDetach lib s₀).2 = true then good (lastDetach lib s₀).1
    else bad (lastDetach lib s₀).1 := by
  unfold Ends at hends
  unfold lastDetach
  split at hends
  next answer s' hcommit =>
    rw [hcommit]
    exact hends
  next thrown s' hcommit =>
    rw [hcommit]
    exact hends

/-- Calls one after the other, of whatever threads, are a session of one client. -/
theorem called_eq {γ : Type} (see : Operation T → Zmap → StructoSearch β F C → γ → γ) (seen : γ)
    (calls : List (Operation T)) :
    called (sharedService lib) s₀ calls =
      (Session.run lib.perform see ⟨s₀, seen⟩ calls).state := by
  rw [Session.run_state]
  rfl

/-- What every call keeps of the service and an account of it, and every commit too, holds as long
as the service is there and behind its deletion, if no calls overlap. -/
theorem kept_of_sound {γ : Type} {see : Operation T → Zmap → StructoSearch β F C → γ → γ}
    {seen : γ} {inv : StructoSearch β F C → γ → Prop}
    (hkeep : ∀ s g op, inv s g → Ends (lib.perform op) s
      (fun answer s' => inv s' (see op answer s' g)) (fun _ s' => inv s' g))
    (hcommit : ∀ s g, inv s g → Ends lib.commit s (fun _ s' => inv s' g) (fun _ s' => inv s' g))
    (hinit : inv s₀ seen) (hs : Sound (sharedService lib) s₀ s)
    (hapart : s.shared.overlapped = false) :
    inv s.shared.object (Session.run lib.perform see ⟨s₀, seen⟩ s.shared.calls).seen := by
  have hcalled : inv (called (sharedService lib) s₀ s.shared.calls) _ :=
    called_eq see seen s.shared.calls ▸
      Session.run_invariant hkeep (h := ⟨s₀, seen⟩) hinit s.shared.calls
  obtain ⟨hopened, hclosed⟩ := hs.history hapart
  rcases hs.closings_cases with hopen | hone
  · rw [hopened hopen]
    exact hcalled
  · have hlast := lastDetach_of_ends (hcommit _ _ hcalled)
    rw [ite_self] at hlast
    rw [(Prod.mk.inj (hclosed hone)).1]
    exact hlast

end Life

/-! ## One life after the other -/

section Lives

variable (lib : Structo β T B F C) (use : FieldUse F C N)

/-- The documents after these calls, by the answers; `stored` are those from before. -/
def storedAfter (s₀ : StructoSearch β F C) (stored : Stored) (calls : List (Operation T)) :
    Stored :=
  (Session.run lib.perform recordAnswer ⟨s₀, stored⟩ calls).seen

/-- An index that services were started over one after the other, each by a run of any number of
threads at whose end it is deleted, with no calls overlapping; the documents stored in all these
lives, and their fields. -/
inductive Lived : ContentsIndex β C → Stored → Option (Set N) → Prop where
  | new : Lived (fun _ => none) (fun _ => none) none
  | next {ctxIndex : ContentsIndex β C} {stored : Stored} {used : Option (Set N)} {fm : F}
      {s₀ : StructoSearch β F C} {others : ℕ}
      {actions : List (Action (StructoSearch β F C) (Operation T))}
      {s : State (StructoSearch β F C) (Operation T)} (hlived : Lived ctxIndex stored used)
      (hcreate : lib.create ctxIndex fm = .ok s₀)
      (hrun : run (step (sharedService lib)) (start s₀ others) actions = some s)
      (hapart : s.shared.overlapped = false) (hdeleted : s.shared.deleted = true) :
      Lived s.shared.object.ctxIndex (storedAfter lib s₀ stored s.shared.calls)
        (fieldSession lib use s₀ used s.shared.calls).seen

variable {lib} {use} {s₀ : StructoSearch β F C} {s : State (StructoSearch β F C) (Operation T)}
  {ctxIndex : ContentsIndex β C} {stored : Stored} {used : Option (Set N)} {fm : F}

/-- The documents of a service are those of its index and of its calls. -/
theorem documents_of_sound (hlib : lib.Lawful) (hcreate : lib.create ctxIndex fm = .ok s₀)
    (hstored : ∀ id, id ≠ indexMappings → lib.documents ctxIndex id = stored id)
    (hs : Sound (sharedService lib) s₀ s) (hapart : s.shared.overlapped = false) {id : String}
    (hid : id ≠ indexMappings) :
    lib.documents s.shared.object.ctxIndex id = storedAfter lib s₀ stored s.shared.calls id := by
  have hinit : HoldsStored lib s₀ stored := by
    unfold HoldsStored
    rw [create_ctxIndex hcreate]
    exact hstored
  exact kept_of_sound (fun _ _ op hinv => holdsStored_perform hlib op hinv)
    (fun _ _ hinv => hinv.commit) hinit hs hapart id hid

/-- A service that is deleted has recorded the fields of all documents. -/
theorem recorded_of_sound (hlib : lib.Lawful) (huse : use.Sound lib)
    (hcreate : lib.create ctxIndex fm = .ok s₀)
    (hrecorded : ∀ fields, used = some fields → Recorded lib use ctxIndex fields)
    (hs : Sound (sharedService lib) s₀ s) (hapart : s.shared.overlapped = false)
    (hdeleted : s.shared.deleted = true) {fields : Set N}
    (hused : (fieldSession lib use s₀ used s.shared.calls).seen = some fields) :
    Recorded lib use s.shared.object.ctxIndex fields := by
  have hcovers : Covers lib use (called (sharedService lib) s₀ s.shared.calls) _ :=
    called_eq (trackFields lib use) used s.shared.calls ▸
      Session.run_invariant (fun _ _ op hinv => covers_perform hlib huse op hinv)
        (h := ⟨s₀, used⟩) (covers_create huse hcreate hrecorded) s.shared.calls
  have hends : Ends lib.commit (called (sharedService lib) s₀ s.shared.calls)
      (fun _ s' => Recorded lib use s'.ctxIndex fields) (fun _ _ => True) :=
    (covers_commit hlib hcovers).imp (fun _ _ hgood => hgood.2 fields hused) (fun _ _ _ => trivial)
  have hlast := lastDetach_of_ends hends
  have hclosed := (hs.history hapart).2 (hs.closings_of_deleted hdeleted)
  obtain ⟨hobject, hreturned⟩ := Prod.mk.inj hclosed
  have hreturned' : (lastDetach lib (called (sharedService lib) s₀ s.shared.calls)).2 = true :=
    hreturned.symm.trans hdeleted
  rw [if_pos hreturned'] at hlast
  rw [hobject]
  exact hlast

/-- What all lives have stored the index holds, and it has recorded the fields. -/
theorem Lived.held (hlib : lib.Lawful) (huse : use.Sound lib)
    (hlived : Lived lib use ctxIndex stored used) :
    (∀ id, id ≠ indexMappings → lib.documents ctxIndex id = stored id) ∧
      ∀ fields, used = some fields → Recorded lib use ctxIndex fields := by
  induction hlived with
  | new => exact ⟨fun _ _ => rfl, fun _ hnone => by cases hnone⟩
  | next hlived hcreate hrun hapart hdeleted ih =>
      have hs := sound_run hrun
      exact ⟨fun id hid => documents_of_sound hlib hcreate ih.1 hs hapart hid,
        fun fields hused => recorded_of_sound hlib huse hcreate ih.2 hs hapart hdeleted hused⟩

/-- However many services were started over the index, each shared by any threads whose calls did
not overlap, the next service knows the fields of the documents stored, whatever it is configured
with. However its threads take turns, none of them touches it once it is deleted; the `Detach` that
is to commit finds no call in progress; and when no reference is left, exactly one has committed. As
long as no calls overlap, whenever none is in progress the index holds the documents that all calls
so far have stored; and when no reference is left, that one `Detach` has deleted the service behind
all calls, unless its commit threw. -/
theorem lives_hold_documents (hlib : lib.Lawful) (huse : use.Sound lib)
    (hlived : Lived lib use ctxIndex stored used) (fm : F) :
    (∀ fields, used = some fields →
      ∃ s₀, lib.create ctxIndex fm = .ok s₀ ∧ fields ⊆ use.numbers s₀.fieldMan) ∧
    ∀ s₀, lib.create ctxIndex fm = .ok s₀ →
      ∀ (others : ℕ) (actions : List (Action (StructoSearch β F C) (Operation T)))
        (s : State (StructoSearch β F C) (Operation T)),
        run (step (sharedService lib)) (start s₀ others) actions = some s →
      s.shared.misused = false ∧
      (∀ t ∈ s.threads, t.rCount = some 0 → s.shared.inside = 0) ∧
      (s.Released → s.shared.closings = 1) ∧
      (s.shared.overlapped = false →
        (s.shared.inside = 0 → ∀ id, id ≠ indexMappings →
          lib.documents s.shared.object.ctxIndex id =
            storedAfter lib s₀ stored s.shared.calls id) ∧
        (s.Released → (s.shared.object, s.shared.deleted) =
          lastDetach lib (session lib s₀ s.shared.calls).state)) := by
  obtain ⟨hstored, hrecorded⟩ := hlived.held hlib huse
  refine ⟨fun fields hused => (hrecorded fields hused).startsWith huse fm, ?_⟩
  intro s₀ hcreate others actions s hrun
  have hs := sound_run hrun
  refine ⟨hs.unhurt, fun t hmem hcloser => hs.inside_of_closer hmem hcloser,
    hs.closings_of_released, fun hapart => ⟨fun _ id hid => ?_, fun hreleased => ?_⟩⟩
  · exact documents_of_sound hlib hcreate hstored hs hapart hid
  · rw [(hs.history hapart).2 (hs.closings_of_released hreleased), called_eq recordAnswer]
    rfl

end Lives

/-- A thread makes a call and comes back from it. -/
def makes (thread : ℕ) (op : Operation Unit) :
    List (Action (StructoSearch (List Zmap) (List ℕ) (List ℕ)) (Operation Unit)) :=
  [⟨thread, .enter op⟩, ⟨thread, .finish emptyService⟩]

/-- A thread inserts a document and hands its reference over to another one, which inserts another
document, gives it a title and commits; the first thread comes out of its `Detach` meanwhile. -/
def handedOver : List (Action (StructoSearch (List Zmap) (List ℕ) (List ℕ)) (Operation Unit)) :=
  makes 0 (insertAs "readme") ++
    [⟨0, .attach⟩, ⟨0, .keep⟩, ⟨0, .detach⟩, ⟨1, .take⟩, ⟨1, .enter (insertAs "about")⟩,
      ⟨0, .leave⟩, ⟨1, .finish emptyService⟩] ++
    makes 1 (.update { objectId := "about", metadata := titled }) ++ makes 1 .commit ++
    [⟨1, .detach⟩, ⟨1, .leave⟩]

/-- The calls of this life. -/
def stores : List (Operation Unit) :=
  [insertAs "readme", insertAs "about", .update { objectId := "about", metadata := titled },
    .commit]

/-- Two threads share the service; one removes the first document. -/
def letGo : List (Action (StructoSearch (List Zmap) (List ℕ) (List ℕ)) (Operation Unit)) :=
  [⟨0, .attach⟩, ⟨0, .keep⟩, ⟨1, .take⟩] ++ makes 1 (.remove { objectId := "readme" }) ++
    [⟨1, .detach⟩, ⟨0, .detach⟩, ⟨1, .leave⟩, ⟨0, .leave⟩]

/-- The documents of both lives. -/
def storedInBoth (s₂ : StructoSearch (List Zmap) (List ℕ) (List ℕ)) : Stored :=
  storedAfter plainStructo s₂ (storedAfter plainStructo emptyService (fun _ => none) stores)
    [.remove { objectId := "readme" }]

theorem lives_hold_documents_readme :
    ∃ s₁ s₂ s, run (step (sharedService plainStructo)) (start emptyService 1) handedOver = some s₁ ∧
      plainStructo.create s₁.shared.object.ctxIndex [] = .ok s₂ ∧
      run (step (sharedService plainStructo)) (start s₂ 1) letGo = some s ∧
      s.shared.misused = false ∧ s.shared.closings = 1 ∧
      plainStructo.documents s.shared.object.ctxIndex "readme" = none ∧
      plainStructo.documents s.shared.object.ctxIndex "about" = some titled := by
  obtain ⟨s₁, s₂, s, hrun₁, hapart₁, hdeleted, hcalls₁, hcreate, hrun, hapart, hcalls, hinside,
      hthreads, hkept, hreadme, habout⟩ :
      ∃ s₁ s₂ s, run (step (sharedService plainStructo)) (start emptyService 1) handedOver =
          some s₁ ∧
        s₁.shared.overlapped = false ∧ s₁.shared.deleted = true ∧ s₁.shared.calls = stores ∧
        plainStructo.create s₁.shared.object.ctxIndex [] = .ok s₂ ∧
        run (step (sharedService plainStructo)) (start s₂ 1) letGo = some s ∧
        s.shared.overlapped = false ∧ s.shared.calls = [.remove { objectId := "readme" }] ∧
        s.shared.inside = 0 ∧ s.threads = [⟨0, none, none⟩, ⟨0, none, none⟩] ∧
        s.shared.kept = 0 ∧ storedInBoth s₂ "readme" = none ∧
        storedInBoth s₂ "about" = some titled :=
    ⟨_, _, _, rfl, rfl, rfl, rfl, rfl, rfl, rfl, rfl, rfl, rfl, rfl, rfl, rfl⟩
  have hnew : plainStructo.create (fun _ => none) [] = .ok emptyService := rfl
  have hlived : Lived plainStructo plainUse _ _ _ := .next .new hnew hrun₁ hapart₁ hdeleted
  have hreleased : s.Released := ⟨hkept, by simp [hthreads]⟩
  obtain ⟨-, hlife⟩ := lives_hold_documents plainStructo_lawful plainUse_sound hlived []
  obtain ⟨hunhurt, -, hclosings, hheld⟩ := hlife s₂ hcreate 1 letGo s hrun
  obtain ⟨hstored, -⟩ := hheld hapart
  rw [hcalls₁, hcalls] at hstored
  exact ⟨s₁, s₂, s, hrun₁, hcreate, hrun, hunhurt, hclosings hreleased,
    (hstored hinside "readme" (by decide)).trans hreadme,
    (hstored hinside "about" (by decide)).trans habout⟩

end Palmira.Service
