import Mathlib.Data.List.Nodup
import Mathlib.Data.List.DropRight
import Palmira.Foundation.StepSystem

/-!
# Indexing a directory

`IndexDir` reads a directory, calls itself for what the reader calls a directory and
offers the files with the right extension. The reader calls a link to a directory a
directory too; the test for links asks `stat`, which answers for what the link leads
to.
-/

namespace Palmira.K2

open StepSystem

variable {D : Type}

/-- What a name in a directory stands for. A link leads to a directory. -/
inductive Kind (D : Type) where
  | file
  | dir (d : D)
  | link (d : D)

/-- Directories and the links between them, without the names `.` and `..`. A directory is under one
name in one directory, and not below itself. -/
structure DirectoryGraph (D : Type) where
  entries : D → List (List Char × Kind D)
  names_nodup : ∀ d, ((entries d).map Prod.fst).Nodup
  parent_unique : ∀ {d d' x : D} {name name' : List Char}, (name, .dir x) ∈ entries d →
    (name', .dir x) ∈ entries d' → d = d' ∧ name = name'
  height : D → ℕ
  height_lt : ∀ {d x : D} {name : List Char}, (name, .dir x) ∈ entries d → height x < height d

/-- `st_mode` -/
inductive Mode where
  | reg
  | dir
  | lnk
  deriving DecidableEq

/-- `stat` answers for what a link leads to. -/
def stat : Kind D → Mode
  | .file => .reg
  | .dir _ => .dir
  | .link _ => .dir

/-- `dirent.attrib() & mtc::directory::attr_dir`: the directory, also when a link leads to it. -/
def attrDir : Kind D → Option D
  | .file => none
  | .dir d => some d
  | .link d => some d

/-- The characters behind the last dot, if there is one. -/
def extstr (stpath : List Char) : Option (List Char) :=
  if '.' ∈ stpath then some (stpath.rtakeWhile (· ≠ '.')) else none

def CheckExt (stpath : List Char) (extset : List (List Char)) : Bool :=
  match extstr stpath with
  | some ext => extset.contains ext
  | none => false

def extensions : List (List Char) :=
  ["h".toList, "hpp".toList, "c".toList, "cpp".toList, "cxx".toList, "txt".toList]

/-- `!dir.empty() && dir.back() != '/' ? dir + '/' : dir` -/
def folder (dir : List Char) : List Char :=
  if dir ≠ [] ∧ dir.getLast? ≠ some '/' then dir ++ ['/'] else dir

/-- An entry that a loop has still to look at: `dirent.folder()`, `dirent.string()` and what it is,
with the directory that is read. -/
structure Pending (D : Type) where
  dir : D
  folder : List Char
  name : List Char
  kind : Kind D

def Pending.stpath (p : Pending D) : List Char := p.folder ++ p.name

/-- Where an entry is, whatever path has led there. -/
def Pending.place (p : Pending D) : D × List Char := (p.dir, p.name)

/-- What `IndexDir` has done: the directories it has entered, the links it has followed and the
files it has offered to the queue. `pending` is what the loops of the nested calls have still to do,
the innermost first. -/
structure Scan (D : Type) where
  pending : List (Pending D)
  entered : List D
  followed : List (Pending D)
  offered : List (Pending D)

variable (g : DirectoryGraph D)

/-- A call for a directory. -/
def entriesOf (d : D) (dir : List Char) : List (Pending D) :=
  (g.entries d).map fun (name, kind) => ⟨d, folder dir, name, kind⟩

def Scan.enter (s : Scan D) (d : D) (dir : List Char) : Scan D :=
  { s with pending := entriesOf g d dir ++ s.pending, entered := s.entered ++ [d] }

/-- One turn of the innermost loop; `found` is whether the search for the path has found
something. -/
def step (s : Scan D) (found : Bool) : Option (Scan D) :=
  match s.pending with
  | [] => none
  | p :: rest =>
      let s := { s with pending := rest }
      if p.name.head? = some '.' then some s
      else
        match attrDir p.kind with
        | some d =>
            if stat p.kind ≠ .lnk then
              let s := match p.kind with
                | .link _ => { s with followed := s.followed ++ [p] }
                | _ => s
              some (s.enter g d p.stpath)
            else some s
        | none =>
            if CheckExt p.stpath extensions = true ∧ found = false then
              some { s with offered := s.offered ++ [p] }
            else some s

/-- `IndexDir( service, dir )` with the start directory entered. -/
def start (d : D) (dir : List Char) : Scan D :=
  Scan.enter g ⟨[], [], [], []⟩ d dir

/-! ## Below a directory -/

variable {g}

/-- The directory is entered from the other through names that are read, and through no link. -/
inductive Below (g : DirectoryGraph D) (d : D) : D → Prop where
  | self : Below g d d
  | entry {x y : D} {name : List Char} (hbelow : Below g d x) (hname : name.head? ≠ some '.')
      (hentry : (name, .dir y) ∈ g.entries x) : Below g d y

/-- The name of a link is read in a directory below. -/
def LinkBelow (g : DirectoryGraph D) (d : D) : Prop :=
  ∃ x name y, Below g d x ∧ name.head? ≠ some '.' ∧ (name, .link y) ∈ g.entries x

theorem Below.trans {d x y : D} (hx : Below g d x) (hy : Below g x y) : Below g d y := by
  induction hy with
  | self => exact hx
  | entry _ hname hentry ih => exact .entry ih hname hentry

/-- No link is followed, each directory is entered and each file offered at most once. -/
def Once (s : Scan D) : Prop :=
  s.followed = [] ∧ s.entered.Nodup ∧ (s.offered.map Pending.place).Nodup

/-! ## What a turn does -/

/-- A turn leaves the entry alone, offers it, enters the directory, or follows the link. -/
inductive Turn (g : DirectoryGraph D) (s : Scan D) (p : Pending D) (rest : List (Pending D)) :
    Scan D → Prop where
  | skip (hskip : ∀ d, p.kind = .dir d ∨ p.kind = .link d → p.name.head? = some '.') :
      Turn g s p rest { s with pending := rest }
  | offer (hfile : p.kind = .file) :
      Turn g s p rest { s with pending := rest, offered := s.offered ++ [p] }
  | enter {d : D} (hname : p.name.head? ≠ some '.') (hdir : p.kind = .dir d) :
      Turn g s p rest (Scan.enter g { s with pending := rest } d p.stpath)
  | follow {d : D} (hname : p.name.head? ≠ some '.') (hlink : p.kind = .link d) :
      Turn g s p rest
        (Scan.enter g { s with pending := rest, followed := s.followed ++ [p] } d p.stpath)

theorem step_cases {s s' : Scan D} {found : Bool} (hstep : step g s found = some s') :
    ∃ p rest, s.pending = p :: rest ∧ Turn g s p rest s' := by
  unfold step at hstep
  split at hstep
  next => cases hstep
  next p rest hpending =>
    refine ⟨p, rest, hpending, ?_⟩
    dsimp only at hstep
    split at hstep
    next hdot =>
      cases hstep
      exact .skip fun _ _ => hdot
    next hname =>
      cases hkind : p.kind with
      | file =>
          simp only [hkind, attrDir] at hstep
          split at hstep
          · cases hstep
            exact .offer hkind
          · cases hstep
            exact .skip (by simp [hkind])
      | dir d =>
          simp only [hkind, attrDir, stat, ne_eq, reduceCtorEq, not_false_eq_true, if_true] at hstep
          cases hstep
          exact .enter hname hkind
      | link d =>
          simp only [hkind, attrDir, stat, ne_eq, reduceCtorEq, not_false_eq_true, if_true] at hstep
          cases hstep
          exact .follow hname hkind

/-! ## Without links -/

theorem Below.height_le {d x : D} (hbelow : Below g d x) : g.height x ≤ g.height d := by
  induction hbelow with
  | self => exact le_rfl
  | entry _ _ hentry ih => exact (g.height_lt hentry).le.trans ih

theorem places_entriesOf (d : D) (dir : List Char) :
    (entriesOf g d dir).map Pending.place = ((g.entries d).map Prod.fst).map (d, ·) := by
  simp [entriesOf, Pending.place]

theorem places_nodup (d : D) (dir : List Char) :
    ((entriesOf g d dir).map Pending.place).Nodup := by
  rw [places_entriesOf]
  exact (g.names_nodup d).map fun _ _ heq => (Prod.mk.inj heq).2

theorem mem_entriesOf {d : D} {dir : List Char} {p : Pending D} (hp : p ∈ entriesOf g d dir) :
    p.dir = d ∧ (p.name, p.kind) ∈ g.entries d := by
  obtain ⟨⟨name, kind⟩, hentry, rfl⟩ := List.mem_map.mp hp
  exact ⟨rfl, hentry⟩

/-- What holds of a scan that has met no link, with the places it is done with. -/
structure Tidy (g : DirectoryGraph D) (root : D) (done : List (D × List Char)) (s : Scan D) :
    Prop where
  followed : s.followed = []
  places : (done ++ s.pending.map Pending.place).Nodup
  known : ∀ p ∈ s.pending, Below g root p.dir ∧ (p.name, p.kind) ∈ g.entries p.dir
  owned : ∀ k ∈ done ++ s.pending.map Pending.place, k.1 ∈ s.entered
  cause : ∀ d ∈ s.entered, d = root ∨ ∃ k ∈ done, (k.2, .dir d) ∈ g.entries k.1
  entered : s.entered.Nodup
  offered : (s.offered.map Pending.place).Sublist done

namespace Tidy

variable {root : D} {done : List (D × List Char)} {s : Scan D} {p : Pending D}
  {rest : List (Pending D)}

theorem once (htidy : Tidy g root done s) : Once s :=
  ⟨htidy.followed, htidy.entered,
    (List.nodup_append.mp htidy.places).1.sublist htidy.offered⟩

/-- An entry is done with. -/
theorem pass (htidy : Tidy g root done s) (hpending : s.pending = p :: rest) :
    Tidy g root (done ++ [p.place]) { s with pending := rest } := by
  obtain ⟨hfollowed, hplaces, hknown, howned, hcause, hentered, hoffered⟩ := htidy
  have hsame : done ++ [p.place] ++ rest.map Pending.place =
      done ++ s.pending.map Pending.place := by
    rw [hpending, List.map_cons, List.append_assoc, List.singleton_append]
  refine ⟨hfollowed, ?_, ?_, ?_, ?_, hentered, ?_⟩
  · rw [hsame]
    exact hplaces
  · intro q hq
    exact hknown q (hpending ▸ List.mem_cons_of_mem _ hq)
  · rw [hsame]
    exact howned
  · intro d hd
    rcases hcause d hd with hroot | ⟨k, hk, hentry⟩
    · exact .inl hroot
    · exact .inr ⟨k, List.mem_append_left _ hk, hentry⟩
  · exact hoffered.trans (List.sublist_append_left _ _)

/-- A directory is entered under its one name, which is done with only now. -/
theorem not_entered (htidy : Tidy g root done s) (hpending : s.pending = p :: rest) {d : D}
    (hdir : p.kind = .dir d) : d ∉ s.entered := by
  intro hmem
  obtain ⟨hbelow, hentry⟩ := htidy.known p (hpending ▸ List.mem_cons_self)
  rw [hdir] at hentry
  rcases htidy.cause d hmem with rfl | ⟨k, hk, hother⟩
  · exact absurd (g.height_lt hentry) (not_lt.mpr hbelow.height_le)
  · obtain ⟨hfirst, hname⟩ := g.parent_unique hother hentry
    have hplace : k = p.place := Prod.ext hfirst hname
    have hplaces := htidy.places
    rw [hpending, List.map_cons, List.nodup_append] at hplaces
    exact hplaces.2.2 k hk p.place List.mem_cons_self hplace

theorem offer (htidy : Tidy g root done s) (hpending : s.pending = p :: rest) :
    Tidy g root (done ++ [p.place]) { s with pending := rest, offered := s.offered ++ [p] } := by
  have hpass := htidy.pass hpending
  refine ⟨hpass.followed, hpass.places, hpass.known, hpass.owned, hpass.cause, hpass.entered, ?_⟩
  rw [List.map_append]
  exact htidy.offered.append (List.Sublist.refl _)

theorem enter (htidy : Tidy g root done s) (hpending : s.pending = p :: rest) {d : D}
    (hname : p.name.head? ≠ some '.') (hdir : p.kind = .dir d) :
    Tidy g root (done ++ [p.place]) (Scan.enter g { s with pending := rest } d p.stpath) := by
  have hpass := htidy.pass hpending
  have hnew := htidy.not_entered hpending hdir
  obtain ⟨hbelow, hentry⟩ := htidy.known p (hpending ▸ List.mem_cons_self)
  rw [hdir] at hentry
  have hfresh : ∀ k ∈ done ++ [p.place] ++ rest.map Pending.place, k.1 ≠ d :=
    fun k hk heq => hnew (heq ▸ hpass.owned k hk)
  have hplaces : ∀ k ∈ (entriesOf g d p.stpath).map Pending.place, k.1 = d := by
    intro k hk
    obtain ⟨q, hq, rfl⟩ := List.mem_map.mp hk
    exact (mem_entriesOf hq).1
  refine ⟨hpass.followed, ?_, ?_, ?_, ?_, ?_, hpass.offered⟩
  · simp only [Scan.enter, List.map_append]
    rw [(List.perm_append_comm_assoc _ _ _).nodup_iff, List.nodup_append]
    refine ⟨places_nodup d p.stpath, hpass.places, fun k hk k' hk' heq => ?_⟩
    exact hfresh k' hk' (heq ▸ hplaces k hk)
  · intro q hq
    rcases List.mem_append.mp hq with hq | hq
    · obtain ⟨hqdir, hqentry⟩ := mem_entriesOf hq
      rw [hqdir]
      exact ⟨.entry hbelow hname hentry, hqentry⟩
    · exact hpass.known q hq
  · intro k hk
    change k.1 ∈ s.entered ++ [d]
    simp only [Scan.enter, List.map_append, List.mem_append] at hk
    rcases hk with hk | hk | hk
    · exact List.mem_append_left _ (hpass.owned k (List.mem_append_left _ (List.mem_append.mpr hk)))
    · exact List.mem_append_right _ (List.mem_singleton.mpr (hplaces k hk))
    · exact List.mem_append_left _ (hpass.owned k (List.mem_append_right _ hk))
  · intro x hx
    rcases List.mem_append.mp hx with hx | hx
    · exact hpass.cause x hx
    · obtain rfl := List.mem_singleton.mp hx
      exact .inr ⟨p.place, List.mem_append_right _ (List.mem_singleton_self _), hentry⟩
  · exact List.nodup_append.mpr ⟨htidy.entered, List.nodup_singleton d, fun x hx y hy heq =>
      hnew (List.mem_singleton.mp hy ▸ heq ▸ hx)⟩

end Tidy

theorem tidy_start (g : DirectoryGraph D) (d : D) (dir : List Char) :
    Tidy g d [] (start g d dir) := by
  have hpending : (start g d dir).pending = entriesOf g d dir := List.append_nil _
  refine ⟨rfl, ?_, ?_, ?_, ?_, List.nodup_singleton d, List.Sublist.refl _⟩
  · rw [List.nil_append, hpending]
    exact places_nodup d dir
  · intro p hp
    rw [hpending] at hp
    obtain ⟨hdir, hentry⟩ := mem_entriesOf hp
    rw [hdir]
    exact ⟨.self, hentry⟩
  · intro k hk
    rw [List.nil_append, hpending] at hk
    obtain ⟨p, hp, rfl⟩ := List.mem_map.mp hk
    exact List.mem_singleton.mpr (mem_entriesOf hp).1
  · exact fun x hx => .inl (List.mem_singleton.mp hx)

theorem tidy_step {root : D} (hlinks : ¬ LinkBelow g root) {s s' : Scan D} {found : Bool}
    (hinv : ∃ done, Tidy g root done s) (hstep : step g s found = some s') :
    ∃ done, Tidy g root done s' := by
  obtain ⟨done, htidy⟩ := hinv
  obtain ⟨p, rest, hpending, hturn⟩ := step_cases hstep
  cases hturn with
  | skip => exact ⟨_, htidy.pass hpending⟩
  | offer => exact ⟨_, htidy.offer hpending⟩
  | enter hname hdir => exact ⟨_, htidy.enter hpending hname hdir⟩
  | @follow d hname hlink =>
      obtain ⟨hbelow, hentry⟩ := htidy.known p (hpending ▸ List.mem_cons_self)
      rw [hlink] at hentry
      exact absurd ⟨p.dir, p.name, d, hbelow, hname, hentry⟩ hlinks

/-! ## With a link -/

section Link

variable {s : Scan D} {p : Pending D} {rest : List (Pending D)} (hpending : s.pending = p :: rest)

include hpending

theorem step_dot (hname : p.name.head? = some '.') (found : Bool) :
    step g s found = some { s with pending := rest } := by
  simp only [step, hpending, if_pos hname]

theorem step_file (hkind : p.kind = .file) : step g s true = some { s with pending := rest } := by
  simp only [step, hpending, hkind, attrDir, Bool.true_eq_false, and_false, if_false, ite_self]

theorem step_dir {d : D} (hname : p.name.head? ≠ some '.') (hkind : p.kind = .dir d)
    (found : Bool) :
    step g s found = some (Scan.enter g { s with pending := rest } d p.stpath) := by
  simp only [step, hpending, if_neg hname, hkind, attrDir, stat, ne_eq, reduceCtorEq,
    not_false_eq_true, if_true]

theorem step_link {d : D} (hname : p.name.head? ≠ some '.') (hkind : p.kind = .link d)
    (found : Bool) : step g s found =
      some (Scan.enter g { s with pending := rest, followed := s.followed ++ [p] } d p.stpath) := by
  simp only [step, hpending, if_neg hname, hkind, attrDir, stat, ne_eq, reduceCtorEq,
    not_false_eq_true, if_true]

end Link

theorem Below.cases_first {d x : D} (hbelow : Below g d x) : x = d ∨
    ∃ y name, name.head? ≠ some '.' ∧ (name, .dir y) ∈ g.entries d ∧ Below g y x := by
  induction hbelow with
  | self => exact .inl rfl
  | entry _ hname hentry ih =>
      right
      rcases ih with rfl | ⟨y, first, hfirst, hy, hbelow⟩
      · exact ⟨_, _, hname, hentry, .self⟩
      · exact ⟨y, first, hfirst, hy, .entry hbelow hname hentry⟩

/-- Looking at the entry leads to no link. -/
def LeadsToNone (g : DirectoryGraph D) (kind : Kind D) : Prop :=
  match kind with
  | .file => True
  | .dir d => ¬ LinkBelow g d
  | .link _ => False

theorem not_linkBelow_of_entries {d : D}
    (hentries : ∀ entry ∈ g.entries d, entry.1.head? ≠ some '.' → LeadsToNone g entry.2) :
    ¬ LinkBelow g d := by
  rintro ⟨x, name, y, hbelow, hname, hlink⟩
  rcases hbelow.cases_first with rfl | ⟨z, first, hfirst, hz, hbelow⟩
  · exact hentries _ hlink hname
  · exact hentries _ hz hfirst ⟨x, name, y, hbelow, hname, hlink⟩

/-- From here the scan follows a link, or comes to this point. -/
def Comes (g : DirectoryGraph D) (s : Scan D) (rest : List (Pending D)) (clean : Prop) : Prop :=
  ∃ answers s', run (step g) s answers = some s' ∧
    (s'.followed ≠ [] ∨ s'.pending = rest ∧ clean)

theorem Comes.step {s s₁ : Scan D} {found : Bool} (hstep : step g s found = some s₁)
    {rest : List (Pending D)} {clean : Prop} (hcomes : Comes g s₁ rest clean) :
    Comes g s rest clean := by
  obtain ⟨answers, s', hrun, hend⟩ := hcomes
  exact ⟨found :: answers, s', (run_cons hstep answers).trans hrun, hend⟩

theorem Comes.bind {s : Scan D} {middle rest : List (Pending D)} {first clean : Prop}
    (hfirst : Comes g s middle first)
    (hnext : ∀ s₁ : Scan D, s₁.pending = middle → first → Comes g s₁ rest clean) :
    Comes g s rest clean := by
  obtain ⟨answers, s₁, hrun, hfollowed | ⟨hpending, hclean⟩⟩ := hfirst
  · exact ⟨answers, s₁, hrun, .inl hfollowed⟩
  · obtain ⟨answers', s₂, hrun', hend⟩ := hnext s₁ hpending hclean
    exact ⟨answers ++ answers', s₂, run_append hrun hrun', hend⟩

/-- The entries of a directory, once this is known of the directories below it. -/
theorem comes_entries {ps rest : List (Pending D)}
    (hdirs : ∀ p ∈ ps, ∀ d, p.kind = .dir d → ∀ (s : Scan D) dir rest,
      s.pending = entriesOf g d dir ++ rest → Comes g s rest (¬ LinkBelow g d)) {s : Scan D}
    (hpending : s.pending = ps ++ rest) :
    Comes g s rest (∀ p ∈ ps, p.name.head? ≠ some '.' → LeadsToNone g p.kind) := by
  induction ps generalizing s with
  | nil => exact ⟨[], s, rfl, .inr ⟨hpending, nofun⟩⟩
  | cons p ps ih =>
      obtain ⟨hself, hothers⟩ := List.forall_mem_cons.mp hdirs
      -- what is left once the first entry leads to no link
      have hrest : ∀ s₁ : Scan D, s₁.pending = ps ++ rest →
          (p.name.head? ≠ some '.' → LeadsToNone g p.kind) →
          Comes g s₁ rest (∀ q ∈ p :: ps, q.name.head? ≠ some '.' → LeadsToNone g q.kind) := by
        intro s₁ hs₁ hclean
        obtain ⟨answers, s', hrun, hend⟩ := ih hothers hs₁
        exact ⟨answers, s', hrun, hend.imp_right fun hboth =>
          ⟨hboth.1, List.forall_mem_cons.mpr ⟨hclean, hboth.2⟩⟩⟩
      by_cases hname : p.name.head? = some '.'
      · exact .step (step_dot hpending hname true) (hrest _ rfl fun hnot => absurd hname hnot)
      cases hkind : p.kind with
      | file =>
          refine .step (step_file hpending hkind) (hrest _ rfl fun _ => ?_)
          rw [hkind]
          trivial
      | dir d =>
          refine .step (step_dir hpending hname hkind true) ?_
          refine .bind (hself d hkind _ p.stpath (ps ++ rest) rfl) fun s₁ hs₁ hclean => ?_
          refine hrest s₁ hs₁ fun _ => ?_
          rw [hkind]
          exact hclean
      | link d =>
          refine ⟨[true], _, run_cons (step_link hpending hname hkind true) [], .inl ?_⟩
          exact List.append_ne_nil_of_right_ne_nil _ (List.cons_ne_nil _ _)

/-- A directory is read to its end unless a link is followed below it. -/
theorem comes_directory (d : D) (s : Scan D) (dir : List Char) (rest : List (Pending D))
    (hpending : s.pending = entriesOf g d dir ++ rest) : Comes g s rest (¬ LinkBelow g d) := by
  have hdirs : ∀ p ∈ entriesOf g d dir, ∀ x, p.kind = .dir x → ∀ (s : Scan D) dir rest,
      s.pending = entriesOf g x dir ++ rest → Comes g s rest (¬ LinkBelow g x) := by
    intro p hp x hkind s' dir' rest' hpending'
    have hentry := (mem_entriesOf hp).2
    rw [hkind] at hentry
    have hlt := g.height_lt hentry
    exact comes_directory x s' dir' rest' hpending'
  refine .bind (comes_entries hdirs hpending) fun s₁ hs₁ hclean => ?_
  refine ⟨[], s₁, rfl, .inr ⟨hs₁, not_linkBelow_of_entries fun entry hentry hname => ?_⟩⟩
  exact hclean ⟨d, folder dir, entry.1, entry.2⟩ (List.mem_map.mpr ⟨entry, hentry, rfl⟩) hname
termination_by g.height d

/-- Whatever the searches answer, the scan follows no link, enters no directory twice and offers no
file twice exactly when no link is read in the directories below the start. -/
theorem scan_once_iff (g : DirectoryGraph D) (d : D) (dir : List Char) :
    (∀ answers s, run (step g) (start g d dir) answers = some s → Once s) ↔ ¬ LinkBelow g d := by
  constructor
  · intro hall
    obtain ⟨answers, s, hrun, hfollowed | ⟨-, hclean⟩⟩ :=
      comes_directory d (start g d dir) dir [] rfl
    · exact absurd (hall answers s hrun).1 hfollowed
    · exact hclean
  · intro hlinks answers s hrun
    obtain ⟨done, htidy⟩ := run_invariant (fun _ _ _ => tidy_step hlinks)
      ⟨[], tidy_start g d dir⟩ hrun
    exact htidy.once

/-- A directory with a link to itself. -/
def selfLink : DirectoryGraph Unit where
  entries _ := [(['a'], .link ())]
  names_nodup _ := List.nodup_singleton _
  parent_unique hentry := by simp at hentry
  height _ := 0
  height_lt hentry := by simp at hentry

theorem entered_twice :
    ¬ ∀ (D : Type) (g : DirectoryGraph D) (d : D) (dir : List Char) (answers : List Bool)
      (s : Scan D), run (step g) (start g d dir) answers = some s →
        s.entered.Nodup ∧ (s.offered.map Pending.place).Nodup := by
  intro hall
  have hentered := (hall Unit selfLink () ['r'] [false] _ rfl).1
  exact absurd hentered (by decide)

end Palmira.K2
