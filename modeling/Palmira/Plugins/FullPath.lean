import Mathlib.Data.List.DropRight
import Palmira.Foundation.PathLookup

/-!
# The full path of a library

`fullpath` cuts a path at its last separator, goes to the directory before it to learn
its name, goes back, and puts the rest of the path behind that name. The buffers for
the directories have 0x400 chars.
-/

namespace Palmira.Plugins

open PathLookup
open FileTree (Path)

variable {N : Type*}

/-- `*pslash == '/' || *pslash == '\\'` -/
def isSeparator (c : Char) : Bool := c == '/' || c == '\\'

/-- `for ( ; pslash > psz && *pslash != '/' && *pslash != '\\'; --pslash )`, from this index; behind
the string is its zero. -/
def lastSeparator (psz : List Char) : ℕ → ℕ
  | 0 => 0
  | k + 1 => if isSeparator (psz.getD (k + 1) '\x00') then k + 1 else lastSeparator psz k

def getdir (psz : List Char) : List Char := psz.take (lastSeparator psz psz.length)

/-- `while ( *pslash == '/' || *pslash == '\\' ) ++pslash` -/
def pslash (psz : List Char) : List Char :=
  (psz.drop (lastSeparator psz psz.length)).dropWhile isSeparator

/-- `chdir( getdir )`, if there is something to change to. -/
def changed (fs : Directories N) (cwd : N) (psz : List Char) : Option N :=
  if getdir psz = [] then some cwd else fs.chdir cwd (getdir psz)

/-- What `fullpath` returns and the directory it leaves; `none` when it reads a buffer that
`getcwd` has not filled. -/
def fullpath (fs : Directories N) (cwd : N) (cch : ℕ) (psz : Option (List Char)) :
    Option (Option (List Char) × N) :=
  match psz with
  | none => some (none, cwd)
  | some psz =>
      if 0x400 ≤ psz.length then some (none, cwd)
      else
        let curdir := fs.getcwd cwd 0x400
        match changed fs cwd psz with
        | none => curdir.map fun curdir => (none, (fs.chdir cwd curdir).getD cwd)
        | some dir =>
            match curdir, fs.getcwd dir 0x400 with
            | some curdir, some newdir =>
                let back := (fs.chdir dir curdir).getD dir
                if cch < newdir.length + 2 + (pslash psz).length then some (none, back)
                else some (some (newdir ++ '/' :: pslash psz), back)
            | _, _ => none

/-! ## What a path names -/

/-- The part of a path behind its last slash, in which a backslash is a character as any other. -/
def basePart (psz : List Char) : List Char := psz.rtakeWhile (· ≠ '/')

/-- The part up to its last slash. -/
def dirPart (psz : List Char) : List Char := psz.rdropWhile (· ≠ '/')

/-- The directory that the directory part finds. -/
def directory (fs : Directories N) (cwd : N) (psz : List Char) : Option N :=
  if dirPart psz = [] then some cwd else fs.lookup cwd (dirPart psz)

/-- The file is found by an absolute path in the buffer, once its directory is there and the path
fits, and the current directory is what it was. -/
def NamesSame (fs : Directories N) (cwd : N) (cch : ℕ) (psz : List Char) : Prop :=
  ∃ out, fullpath fs cwd cch (some psz) = some (out, cwd) ∧
    (∀ path, out = some path → path.length + 1 ≤ cch) ∧
    ∀ d, directory fs cwd psz = some d →
      (fs.name d).length + 2 + (basePart psz).length ≤ cch →
      ∃ path, out = some path ∧ path.head? = some '/' ∧ fs.lookup cwd path = fs.lookup cwd psz

/-- There is nothing to change to, or the process may go there. -/
def Entered (fs : Directories N) (d : N) (psz : List Char) : Prop :=
  dirPart psz = [] ∨ fs.searchable d = true

/-- When the path fits, the process may go to its directory and finds it by its name, or the path
finds nothing; and from a directory it goes to, whose name fits in `newdir`, it can go back by the
name of the current one. -/
def CanReturn (fs : Directories N) (cwd : N) (cch : ℕ) (psz : List Char) : Prop :=
  ∀ d, directory fs cwd psz = some d →
    ((fs.name d).length + 2 + (basePart psz).length ≤ cch →
      Entered fs d psz ∧ (fs.FoundByName d ∨ fs.lookup cwd psz = none)) ∧
    (Entered fs d psz → (fs.name d).length < 0x400 ∧ (d = cwd ∨ fs.Enterable cwd))

/-- The path is not empty, has no backslash behind its last slash and more than the slash before
it. -/
def CutWhereItShould (psz : List Char) : Prop :=
  psz ≠ [] ∧ '\\' ∉ basePart psz ∧ dirPart psz ≠ ['/']

section Parts

variable {psz : List Char}

theorem dirPart_append_basePart (psz : List Char) : dirPart psz ++ basePart psz = psz :=
  List.rdropWhile_append_rtakeWhile

theorem slash_notMem_basePart (psz : List Char) : '/' ∉ basePart psz := by
  intro hmem
  simpa using List.mem_rtakeWhile_imp hmem

/-- The directory part is empty or ends with a slash. -/
theorem dirPart_cases (psz : List Char) : dirPart psz = [] ∨ ∃ dir, dirPart psz = dir ++ ['/'] := by
  by_cases hnil : dirPart psz = []
  · exact .inl hnil
  · right
    have hlast : (dirPart psz).getLast hnil = '/' := by
      by_contra hother
      exact List.rdropWhile_last_not (fun c => decide (c ≠ '/')) psz hnil (decide_eq_true hother)
    refine ⟨(dirPart psz).dropLast, ?_⟩
    rw [← hlast, List.dropLast_concat_getLast]

theorem directory_relative {fs : Directories N} {cwd : N} (hnil : dirPart psz = []) :
    directory fs cwd psz = some cwd := if_pos hnil

theorem directory_eq_filter {fs : Directories N} {cwd : N} {dir : List Char} (hne : dir ≠ [])
    (hdir : dirPart psz = dir ++ ['/']) :
    directory fs cwd psz = (fs.lookup cwd dir).filter fs.isDir := by
  rw [directory, hdir, if_neg (List.append_ne_nil_of_right_ne_nil _ (List.cons_ne_nil _ _)),
    lookup_separator hne]

/-- A component finds what it is in the directory that the part before it finds. -/
theorem lookup_component (fs : FileSystem N) {cwd d : N} {before component : List Char}
    (hbefore : before = [] ∨ ∃ dir, before = dir ++ ['/']) (hslash : '/' ∉ component)
    (hne : before ++ component ≠ [])
    (hd : (if before = [] then some cwd else fs.lookup cwd before) = some d) :
    fs.lookup cwd (before ++ component) = fs.step d component := by
  rcases hbefore with rfl | ⟨dir, rfl⟩
  · cases hd
    exact lookup_relative hne hslash cwd
  · rw [if_neg (List.append_ne_nil_of_right_ne_nil _ (List.cons_ne_nil _ _))] at hd
    rw [List.append_assoc, List.singleton_append, ← walk_component hslash]
    by_cases hroot : dir = []
    · rw [hroot, List.nil_append, fs.lookup_root, walk_component List.not_mem_nil,
        Directories.step, if_pos rfl, if_pos fs.root_isDir] at hd
      cases hd
      rw [hroot, List.nil_append, fs.lookup_root]
    · rw [lookup_separator hroot] at hd
      rw [lookup_append hroot, (Option.filter_eq_some_iff.mp hd).1, Option.bind_some]

theorem directory_isDir {fs : Directories N} {cwd d : N} (hcwd : fs.isDir cwd = true)
    (hroot : dirPart psz ≠ ['/']) (hd : directory fs cwd psz = some d) : fs.isDir d = true := by
  rcases dirPart_cases psz with hnil | ⟨dir, hdir⟩
  · rw [directory_relative hnil] at hd
    cases hd
    exact hcwd
  · have hne : dir ≠ [] := by
      rintro rfl
      exact hroot hdir
    rw [directory_eq_filter hne hdir] at hd
    exact (Option.filter_eq_some_iff.mp hd).2

/-- A path finds what its base part finds in its directory. -/
theorem lookup_of_directory (fs : FileSystem N) {cwd d : N} (hne : psz ≠ [])
    (hd : directory fs.toDirectories cwd psz = some d) :
    fs.lookup cwd psz = fs.step d (basePart psz) := by
  have hparts := dirPart_append_basePart psz
  conv_lhs => rw [← hparts]
  exact lookup_component fs (dirPart_cases psz) (slash_notMem_basePart psz)
    (by rw [hparts]; exact hne) hd

end Parts

/-! ## Where the code cuts -/

section Cut

variable {before rest : List Char}

theorem isSeparator_slash : isSeparator '/' = true := rfl

theorem isSeparator_iff {c : Char} : isSeparator c = true ↔ c = '/' ∨ c = '\\' := by
  simp [isSeparator]

/-- The scan goes down over what is no separator. -/
theorem lastSeparator_eq (psz : List Char) {i : ℕ}
    (hi : i = 0 ∨ isSeparator (psz.getD i '\x00') = true) {k : ℕ} (hle : i ≤ k)
    (hnone : ∀ j, i < j → j ≤ k → isSeparator (psz.getD j '\x00') = false) :
    lastSeparator psz k = i := by
  induction k with
  | zero => exact (Nat.le_zero.mp hle).symm
  | succ k ih =>
      rw [lastSeparator]
      rcases Nat.lt_or_eq_of_le hle with hlt | rfl
      · rw [hnone (k + 1) hlt le_rfl, if_neg Bool.false_ne_true]
        exact ih (Nat.le_of_lt_succ hlt) fun j hj hjk => hnone j hj (Nat.le_succ_of_le hjk)
      · rw [hi.resolve_left (Nat.succ_ne_zero k), if_pos rfl]

theorem isSeparator_getD_eq_false {str : List Char} (hnone : ∀ c ∈ str, isSeparator c = false)
    (j : ℕ) : isSeparator (str.getD j '\x00') = false := by
  rw [List.getD_eq_getElem?_getD]
  cases hget : str[j]? with
  | none => rfl
  | some c => exact hnone c (List.mem_of_getElem? hget)

/-- The cut is at the last separator. -/
theorem lastSeparator_append {s : Char} (hs : isSeparator s = true)
    (hrest : ∀ c ∈ rest, isSeparator c = false) :
    lastSeparator (before ++ s :: rest) (before ++ s :: rest).length = before.length := by
  apply lastSeparator_eq
  · right
    rw [List.getD_eq_getElem?_getD, List.getElem?_append_right le_rfl, Nat.sub_self]
    exact hs
  · rw [List.length_append]
    exact Nat.le_add_right _ _
  · intro j hj _
    obtain ⟨k, rfl⟩ := Nat.exists_eq_add_of_lt hj
    have hindex : before.length + k + 1 - before.length = k + 1 := by omega
    rw [List.getD_eq_getElem?_getD, List.getElem?_append_right (by omega), hindex,
      List.getElem?_cons_succ, ← List.getD_eq_getElem?_getD]
    exact isSeparator_getD_eq_false hrest k

/-- Without a separator the cut is at the start. -/
theorem lastSeparator_of_none (hrest : ∀ c ∈ rest, isSeparator c = false) :
    lastSeparator rest rest.length = 0 :=
  lastSeparator_eq rest (.inl rfl) (Nat.zero_le _) fun j _ _ => isSeparator_getD_eq_false hrest j

theorem dropWhile_isSeparator (hrest : ∀ c ∈ rest, isSeparator c = false) :
    rest.dropWhile isSeparator = rest := by
  cases rest with
  | nil => rfl
  | cons c rest => exact List.dropWhile_cons_of_neg (by simp [hrest c List.mem_cons_self])

/-- A path whose last separator is `s`. -/
theorem getdir_append (before : List Char) {s : Char} (hs : isSeparator s = true)
    (hrest : ∀ c ∈ rest, isSeparator c = false) : getdir (before ++ s :: rest) = before := by
  rw [getdir, lastSeparator_append hs hrest, List.take_left]

theorem pslash_append (before : List Char) {s : Char} (hs : isSeparator s = true)
    (hrest : ∀ c ∈ rest, isSeparator c = false) : pslash (before ++ s :: rest) = rest := by
  rw [pslash, lastSeparator_append hs hrest, List.drop_left, List.dropWhile_cons_of_pos hs,
    dropWhile_isSeparator hrest]

theorem getdir_of_none (hrest : ∀ c ∈ rest, isSeparator c = false) : getdir rest = [] := by
  rw [getdir, lastSeparator_of_none hrest, List.take_zero]

theorem pslash_of_none (hrest : ∀ c ∈ rest, isSeparator c = false) : pslash rest = rest := by
  rw [pslash, lastSeparator_of_none hrest, List.drop_zero, dropWhile_isSeparator hrest]

end Cut

/-! ## What the code returns -/

section Returns

variable {fs : FileSystem N} {cwd d : N} {cch : ℕ} {psz : List Char}

theorem getcwd_eq_some (hfits : (fs.name d).length < 0x400) :
    fs.getcwd d 0x400 = some (fs.name d) := if_pos hfits

theorem getcwd_eq_none (hlong : ¬ (fs.name d).length < 0x400) : fs.getcwd d 0x400 = none :=
  if_neg hlong

/-- Where the process is once it has gone back. -/
theorem back_eq_iff (hcwd : fs.isDir cwd = true) :
    (fs.chdir d (fs.name cwd)).getD d = cwd ↔ d = cwd ∨ fs.Enterable cwd := by
  rcases FileSystem.chdir_name hcwd d with ⟨henter, hchdir⟩ | ⟨hclosed, hchdir⟩
  · rw [hchdir, Option.getD_some]
    exact iff_of_true rfl (.inr henter)
  · rw [hchdir, Option.getD_none]
    exact ⟨.inl, fun hback => hback.resolve_right hclosed⟩

variable (hlen : psz.length < 0x400) (hname : (fs.name cwd).length < 0x400)

include hlen hname

/-- There is no directory to go to. -/
theorem fullpath_of_changed_none (hcwd : fs.isDir cwd = true)
    (hchanged : changed fs.toDirectories cwd psz = none) :
    fullpath fs.toDirectories cwd cch (some psz) = some (none, cwd) := by
  rw [fullpath, if_neg (Nat.not_le.mpr hlen)]
  simp only [hchanged, getcwd_eq_some hname, Option.map_some, (back_eq_iff hcwd).mpr (.inl rfl)]

/-- The process has gone to the directory, and its name fits in the buffer. -/
theorem fullpath_of_changed (hchanged : changed fs.toDirectories cwd psz = some d)
    (hfits : (fs.name d).length < 0x400) :
    fullpath fs.toDirectories cwd cch (some psz) =
      some (if cch < (fs.name d).length + 2 + (pslash psz).length then none
        else some (fs.name d ++ '/' :: pslash psz), (fs.chdir d (fs.name cwd)).getD d) := by
  rw [fullpath, if_neg (Nat.not_le.mpr hlen)]
  simp only [hchanged, getcwd_eq_some hname, getcwd_eq_some hfits]
  split <;> rfl

/-- The process has gone to the directory, and its name does not fit. -/
theorem fullpath_of_long (hchanged : changed fs.toDirectories cwd psz = some d)
    (hlong : ¬ (fs.name d).length < 0x400) :
    fullpath fs.toDirectories cwd cch (some psz) = none := by
  rw [fullpath, if_neg (Nat.not_le.mpr hlen)]
  simp only [hchanged, getcwd_eq_some hname, getcwd_eq_none hlong]

end Returns

/-! ## Paths that are cut where they should be -/

section Should

variable {fs : FileSystem N} {cwd : N} {psz : List Char} (hcut : CutWhereItShould psz)

theorem isSeparator_basePart (hbackslash : '\\' ∉ basePart psz) :
    ∀ c ∈ basePart psz, isSeparator c = false := by
  intro c hc
  rw [Bool.eq_false_iff, ne_eq, isSeparator_iff]
  rintro (rfl | rfl)
  · exact slash_notMem_basePart psz hc
  · exact hbackslash hc

include hcut

theorem pslash_eq_basePart : pslash psz = basePart psz := by
  have hparts := dirPart_append_basePart psz
  have hnone := isSeparator_basePart hcut.2.1
  rcases dirPart_cases psz with hnil | ⟨dir, hdir⟩
  · rw [hnil, List.nil_append] at hparts
    conv_lhs => rw [← hparts]
    exact pslash_of_none hnone
  · rw [hdir, List.append_assoc, List.singleton_append] at hparts
    conv_lhs => rw [← hparts]
    exact pslash_append _ isSeparator_slash hnone

theorem changed_cases {d : N} (hd : directory fs.toDirectories cwd psz = some d) :
    (Entered fs.toDirectories d psz ∧ changed fs.toDirectories cwd psz = some d) ∨
      (¬ Entered fs.toDirectories d psz ∧ changed fs.toDirectories cwd psz = none) := by
  have hparts := dirPart_append_basePart psz
  have hnone := isSeparator_basePart hcut.2.1
  rcases dirPart_cases psz with hnil | ⟨dir, hdir⟩
  · have hgetdir : getdir psz = [] := by
      rw [hnil, List.nil_append] at hparts
      rw [← hparts]
      exact getdir_of_none hnone
    rw [directory_relative hnil] at hd
    rw [changed, if_pos hgetdir]
    exact .inl ⟨.inl hnil, hd⟩
  · have hgetdir : getdir psz = dir := by
      rw [hdir, List.append_assoc, List.singleton_append] at hparts
      conv_lhs => rw [← hparts]
      exact getdir_append _ isSeparator_slash hnone
    have hne : dir ≠ [] := by
      rintro rfl
      exact hcut.2.2 hdir
    have hsome : dirPart psz ≠ [] := hdir ▸ List.append_ne_nil_of_right_ne_nil _ (by decide)
    rw [directory_eq_filter hne hdir] at hd
    rw [changed, hgetdir, if_neg hne, Directories.chdir, hd, Option.filter_some]
    cases hsearch : fs.searchable d with
    | true => exact .inl ⟨.inr hsearch, rfl⟩
    | false =>
        refine .inr ⟨?_, rfl⟩
        rintro (hnil | hopen)
        · exact hsome hnil
        · exact Bool.false_ne_true (hsearch.symm.trans hopen)

theorem changed_of_directory_none (hd : directory fs.toDirectories cwd psz = none) :
    changed fs.toDirectories cwd psz = none := by
  have hparts := dirPart_append_basePart psz
  have hnone := isSeparator_basePart hcut.2.1
  rcases dirPart_cases psz with hnil | ⟨dir, hdir⟩
  · rw [directory_relative hnil] at hd
    cases hd
  · have hgetdir : getdir psz = dir := by
      rw [hdir, List.append_assoc, List.singleton_append] at hparts
      conv_lhs => rw [← hparts]
      exact getdir_append _ isSeparator_slash hnone
    have hne : dir ≠ [] := by
      rintro rfl
      exact hcut.2.2 hdir
    rw [directory_eq_filter hne hdir] at hd
    rw [changed, hgetdir, if_neg hne, Directories.chdir, hd, Option.filter_none]

/-- What the path behind the directory's name finds. -/
theorem lookup_full {d : N} (hcwd : fs.isDir cwd = true)
    (hd : directory fs.toDirectories cwd psz = some d) :
    fs.lookup cwd (fs.name d ++ '/' :: basePart psz) = fs.lookup cwd psz ↔
      fs.FoundByName d ∨ fs.lookup cwd psz = none := by
  have hdir := directory_isDir hcwd hcut.2.2 hd
  have hpath := lookup_of_directory fs hcut.1 hd
  rw [FileSystem.lookup_name_append hdir, Directories.FoundByName]
  cases hwalk : fs.walk fs.root (fs.name d) with
  | none => simp [eq_comm]
  | some found =>
      obtain rfl := fs.walk_name d found hdir hwalk
      rw [Option.bind_some, walk_component (slash_notMem_basePart psz), hpath]
      exact iff_of_true rfl (.inl rfl)

variable (hlen : psz.length < 0x400) (hcwd : fs.isDir cwd = true)
  (hname : (fs.name cwd).length < 0x400)

include hlen hcwd hname

/-- The directory is gone to, and its name fits in the buffer. -/
theorem namesSame_iff_of_changed {d : N} {cch : ℕ}
    (hd : directory fs.toDirectories cwd psz = some d)
    (hchanged : changed fs.toDirectories cwd psz = some d) (hfits : (fs.name d).length < 0x400) :
    NamesSame fs.toDirectories cwd cch psz ↔
      ((fs.name d).length + 2 + (basePart psz).length ≤ cch →
        fs.FoundByName d ∨ fs.lookup cwd psz = none) ∧ (d = cwd ∨ fs.Enterable cwd) := by
  have hdir := directory_isDir hcwd hcut.2.2 hd
  unfold NamesSame
  rw [fullpath_of_changed hlen hname hchanged hfits, pslash_eq_basePart hcut, ← back_eq_iff hcwd]
  simp only [hd, Option.some.injEq, forall_eq', Prod.mk.injEq]
  constructor
  · rintro ⟨out, ⟨hout, hback⟩, -, hfound⟩
    refine ⟨fun hcch => ?_, hback⟩
    obtain ⟨path, hpath, -, hsame⟩ := hfound hcch
    rw [if_neg (Nat.not_lt.mpr hcch), hpath, Option.some.injEq] at hout
    subst hout
    exact (lookup_full hcut hcwd hd).mp hsame
  · rintro ⟨hfull, hback⟩
    refine ⟨_, ⟨rfl, hback⟩, ?_, fun hcch => ?_⟩
    · intro path hpath
      split at hpath
      next => cases hpath
      next hcch =>
          cases hpath
          rw [List.length_append, List.length_cons]
          omega
    · refine ⟨_, if_neg (Nat.not_lt.mpr hcch), ?_, (lookup_full hcut hcwd hd).mpr (hfull hcch)⟩
      rw [List.head?_append_of_ne_nil _ (FileSystem.name_ne_nil hdir)]
      exact fs.name_head d hdir

theorem namesSame_iff_of_cut (cch : ℕ) :
    NamesSame fs.toDirectories cwd cch psz ↔ CanReturn fs.toDirectories cwd cch psz := by
  unfold CanReturn
  cases hd : directory fs.toDirectories cwd psz with
  | none =>
      have hchanged := changed_of_directory_none hcut hd
      refine iff_of_true ⟨none, fullpath_of_changed_none hlen hname hcwd hchanged, ?_, ?_⟩ ?_
      · intro path hpath
        cases hpath
      · intro d hsome
        rw [hd] at hsome
        cases hsome
      · intro d hsome
        cases hsome
  | some d =>
      simp only [Option.some.injEq, forall_eq']
      rcases changed_cases hcut hd with ⟨hentered, hchanged⟩ | ⟨hclosed, hchanged⟩
      · by_cases hfits : (fs.name d).length < 0x400
        · rw [namesSame_iff_of_changed hcut hlen hcwd hname hd hchanged hfits]
          constructor
          · exact fun hreturn =>
              ⟨fun hcch => ⟨hentered, hreturn.1 hcch⟩, fun _ => ⟨hfits, hreturn.2⟩⟩
          · exact fun hreturn => ⟨fun hcch => (hreturn.1 hcch).2, (hreturn.2 hentered).2⟩
        · refine iff_of_false ?_ fun hreturn => hfits (hreturn.2 hentered).1
          rintro ⟨out, hreturns, -⟩
          rw [fullpath_of_long hlen hname hchanged hfits] at hreturns
          cases hreturns
      · have hreturns : fullpath fs.toDirectories cwd cch (some psz) = _ :=
          fullpath_of_changed_none hlen hname hcwd hchanged
        constructor
        · rintro ⟨out, hout, -, hfound⟩
          refine ⟨fun hcch => ?_, fun hentered => absurd hentered hclosed⟩
          obtain ⟨path, rfl, -, -⟩ := hfound d hd hcch
          rw [hreturns] at hout
          cases hout
        · rintro ⟨hentered, -⟩
          refine ⟨none, hreturns, ?_, ?_⟩
          · intro path hpath
            cases hpath
          · intro d' hd' hcch
            rw [hd] at hd'
            cases hd'
            exact absurd (hentered hcch).1 hclosed

end Should

/-! ## Paths that are cut elsewhere -/

section AllNames

/-- A directory in a directory of the root. -/
def subsub : Path := [⟨['d'], by decide⟩, ⟨['d'], by decide⟩]

theorem enter_subsub_ne_enter_root (component : List Char) :
    FileTree.enter subsub component ≠ FileTree.enter [] component := by
  unfold FileTree.enter
  split
  · intro heq
    have hlength := congrArg List.length heq
    simp [subsub] at hlength
  · split <;> decide

variable {psz : List Char}

theorem allNames_chdir (cwd : Path) (str : List Char) :
    allNames.chdir cwd str = allNames.lookup cwd str := by
  unfold Directories.chdir
  cases allNames.lookup cwd str <;> rfl

theorem allNames_root_lookup {str : List Char} (hne : str ≠ []) :
    allNames.lookup [] str = allNames.walk [] str := by
  rw [Directories.lookup, if_neg hne]
  exact congrArg (allNames.walk · str) (ite_self _)

/-- The directory of a path, from the root. -/
theorem allNames_directory (psz : List Char) :
    ∃ d, directory allNames [] psz = some d ∧
      (allNames.name d).length ≤ (dirPart psz).length + 1 := by
  have hwalk : directory allNames [] psz = allNames.walk [] (dirPart psz) := by
    unfold directory
    split
    next hnil => rw [hnil]; rfl
    next hne => exact allNames_root_lookup hne
  obtain ⟨d, hd⟩ := allNames_walk_eq_some [] (dirPart psz)
  rw [hwalk]
  exact ⟨d, hd, length_name_le hd⟩

/-- Every directory can be entered by its name, so only the length of one can matter. -/
theorem canReturn_allNames {cwd d : Path} (cch : ℕ) (hd : directory allNames cwd psz = some d)
    (hfits : (allNames.name d).length < 0x400) : CanReturn allNames cwd cch psz := by
  intro d' hd'
  rw [hd] at hd'
  cases hd'
  exact ⟨fun _ => ⟨.inr rfl, .inl (allNames_foundByName d)⟩,
    fun _ => ⟨hfits, .inr ⟨allNames_foundByName cwd, rfl⟩⟩⟩

/-- The code finds another file than the path does. -/
theorem not_namesSame_of_ne {cwd d dir : Path} (hlen : psz.length < 0x400)
    (hname : (allNames.name cwd).length < 0x400) (hd : directory allNames cwd psz = some d)
    (hchanged : changed allNames cwd psz = some dir) (hslash : '/' ∉ pslash psz)
    (hne : allNames.step dir (pslash psz) ≠ allNames.lookup cwd psz) :
    ¬ NamesSame allNames cwd ((allNames.name d).length + 2 + (basePart psz).length) psz := by
  rintro ⟨out, hreturns, -, hfound⟩
  obtain ⟨path, rfl, -, hpath⟩ := hfound d hd le_rfl
  have hdir : allNamesSystem.isDir dir = true := rfl
  have hwalk : allNamesSystem.walk allNamesSystem.root (allNamesSystem.name dir) = some dir :=
    allNames_foundByName dir
  change fullpath allNamesSystem.toDirectories cwd _ (some psz) = _ at hreturns
  by_cases hfits : (allNamesSystem.name dir).length < 0x400
  · rw [fullpath_of_changed hlen hname hchanged hfits, Option.some.injEq, Prod.mk.injEq]
      at hreturns
    have hout := hreturns.1
    split at hout
    · cases hout
    · cases hout
      change allNamesSystem.lookup cwd _ = _ at hpath
      rw [FileSystem.lookup_name_append hdir, hwalk, Option.bind_some, walk_component hslash]
        at hpath
      exact hne hpath
  · rw [fullpath_of_long hlen hname hchanged hfits] at hreturns
    cases hreturns

/-- Where the code cuts when there is a backslash behind the last slash. -/
theorem cut_of_backslash (hmem : '\\' ∈ basePart psz) :
    ∃ middle tail, basePart psz = middle ++ '\\' :: tail ∧ '/' ∉ middle ∧ '/' ∉ tail ∧
      getdir psz = dirPart psz ++ middle ∧ pslash psz = tail := by
  have hslash := slash_notMem_basePart psz
  obtain ⟨back, front, hback, hnot⟩ := List.eq_append_cons_of_mem (List.mem_reverse.mpr hmem)
  have hbase : basePart psz = front.reverse ++ '\\' :: back.reverse := by
    have hreverse := congrArg List.reverse hback
    simpa using hreverse
  have htail : '/' ∉ back.reverse :=
    fun hin => hslash (hbase ▸ List.mem_append_right _ (List.mem_cons_of_mem _ hin))
  have hnone : ∀ c ∈ back.reverse, isSeparator c = false := by
    intro c hc
    rw [Bool.eq_false_iff, ne_eq, isSeparator_iff]
    rintro (rfl | rfl)
    · exact htail hc
    · exact hnot (List.mem_reverse.mp hc)
  have hcutAt : psz = (dirPart psz ++ front.reverse) ++ '\\' :: back.reverse := by
    rw [List.append_assoc, ← hbase, dirPart_append_basePart]
  refine ⟨front.reverse, back.reverse, hbase, ?_, htail, ?_, ?_⟩
  · exact fun hin => hslash (hbase ▸ List.mem_append_left _ hin)
  · conv_lhs => rw [hcutAt]
    exact getdir_append _ rfl hnone
  · conv_lhs => rw [hcutAt]
    exact pslash_append _ rfl hnone

/-- A backslash behind the last slash. -/
theorem exists_not_namesSame_of_backslash (hlen : psz.length < 0x400)
    (hmem : '\\' ∈ basePart psz) :
    ∃ cch, CanReturn allNames [] cch psz ∧ ¬ NamesSame allNames [] cch psz := by
  obtain ⟨d, hd, hlength⟩ := allNames_directory psz
  obtain ⟨middle, tail, hbase, hmiddle, htail, hgetdir, hpslash⟩ := cut_of_backslash hmem
  have hparts := dirPart_append_basePart psz
  have hne : psz ≠ [] := by
    rw [← hparts]
    exact List.append_ne_nil_of_right_ne_nil _ (List.ne_nil_of_mem hmem)
  have hchanged : changed allNames [] psz = some (FileTree.enter d middle) := by
    unfold changed
    rw [hgetdir]
    split
    next hnil =>
        obtain ⟨hdir, hfront⟩ := List.append_eq_nil_iff.mp hnil
        rw [directory_relative hdir] at hd
        cases hd
        rw [hfront, FileTree.enter_nil]
    next hsome =>
        rw [allNames_chdir]
        exact (lookup_component allNamesSystem (dirPart_cases psz) hmiddle hsome hd).trans
          (allNames_step d _)
  have hpath : allNames.lookup [] psz = allNames.step d (basePart psz) :=
    lookup_of_directory allNamesSystem hne hd
  have hbaseName : FileTree.IsName (middle ++ '\\' :: tail) := by
    rw [← hbase]
    refine ⟨slash_notMem_basePart psz, ?_, ?_, ?_⟩ <;>
      exact fun heq => absurd (heq ▸ hmem) (by decide)
  have hfits : (allNames.name d).length < 0x400 := by
    have hlengths := congrArg List.length hparts
    rw [List.length_append] at hlengths
    have hpositive := List.length_pos_of_mem hmem
    omega
  refine ⟨_, canReturn_allNames _ hd hfits,
    not_namesSame_of_ne hlen (by decide) hd hchanged ?_ ?_⟩
  · rw [hpslash]
    exact htail
  · rw [hpath, hpslash, hbase]
    exact fun heq => enter_enter_ne hbaseName d (Option.some.inj
      (((allNames_step _ _).symm.trans heq).trans (allNames_step _ _)))

/-- No character before the last slash. -/
theorem exists_not_namesSame_of_root (hlen : psz.length < 0x400) (hdir : dirPart psz = ['/'])
    (hbackslash : '\\' ∉ basePart psz) :
    ∃ cch, CanReturn allNames subsub cch psz ∧ ¬ NamesSame allNames subsub cch psz := by
  have hparts := dirPart_append_basePart psz
  have hnone := isSeparator_basePart hbackslash
  rw [hdir] at hparts
  have hgetdir : getdir psz = [] := by
    rw [← hparts]
    exact getdir_append [] isSeparator_slash hnone
  have hpslash : pslash psz = basePart psz := by
    conv_lhs => rw [← hparts]
    exact pslash_append [] isSeparator_slash hnone
  have hd : directory allNames subsub psz = some [] := by
    rw [directory, hdir]
    rfl
  have hne : psz ≠ [] := hparts ▸ List.cons_ne_nil _ _
  have hpath : allNames.lookup subsub psz = allNames.step [] (basePart psz) :=
    lookup_of_directory allNamesSystem hne hd
  refine ⟨_, canReturn_allNames _ hd (by decide), not_namesSame_of_ne hlen (by decide) hd
    (if_pos hgetdir) (hpslash ▸ slash_notMem_basePart psz) ?_⟩
  rw [hpath, hpslash]
  exact fun heq => enter_subsub_ne_enter_root _ (Option.some.inj
    (((allNames_step _ _).symm.trans heq).trans (allNames_step _ _)))

/-- The empty path finds nothing, and the code finds the current directory. -/
theorem exists_not_namesSame_of_nil :
    ∃ cch, CanReturn allNames [] cch [] ∧ ¬ NamesSame allNames [] cch [] := by
  have hd : directory allNames [] [] = some [] := rfl
  exact ⟨_, canReturn_allNames _ hd (by decide),
    not_namesSame_of_ne (by decide) (by decide) hd rfl List.not_mem_nil nofun⟩

end AllNames

/-- In every file system a path shorter than the buffer is made the full path of the file it names,
with the current directory left as it was, once the directory can be gone to and come back from and
only then, exactly when it is not empty, has no backslash behind its last slash and something before
that slash. -/
theorem fullpath_namesSame_iff {psz : List Char} (hlen : psz.length < 0x400) :
    (∀ (N : Type) (fs : FileSystem N) (cwd : N) (cch : ℕ), fs.isDir cwd = true →
      (fs.name cwd).length < 0x400 →
      (NamesSame fs.toDirectories cwd cch psz ↔ CanReturn fs.toDirectories cwd cch psz)) ↔
      CutWhereItShould psz := by
  constructor
  · intro hall
    by_contra hcut
    unfold CutWhereItShould at hcut
    by_cases hnil : psz = []
    · subst hnil
      obtain ⟨cch, hreturn, hnot⟩ := exists_not_namesSame_of_nil
      exact hnot ((hall Path allNamesSystem [] cch rfl (by decide)).mpr hreturn)
    by_cases hbackslash : '\\' ∈ basePart psz
    · obtain ⟨cch, hreturn, hnot⟩ := exists_not_namesSame_of_backslash hlen hbackslash
      exact hnot ((hall Path allNamesSystem [] cch rfl (by decide)).mpr hreturn)
    by_cases hroot : dirPart psz = ['/']
    · obtain ⟨cch, hreturn, hnot⟩ := exists_not_namesSame_of_root hlen hroot hbackslash
      exact hnot ((hall Path allNamesSystem subsub cch rfl (by decide)).mpr hreturn)
    · exact hcut ⟨hnil, hbackslash, hroot⟩
  · intro hcut N fs cwd cch hcwd hname
    exact namesSame_iff_of_cut hcut hlen hcwd hname cch

theorem fullpath_namesSame_iff_relative :
    CutWhereItShould ['a', '/', 'b'] ∧
      ((∀ (N : Type) (fs : FileSystem N) (cwd : N) (cch : ℕ), fs.isDir cwd = true →
        (fs.name cwd).length < 0x400 →
        (NamesSame fs.toDirectories cwd cch ['a', '/', 'b'] ↔
          CanReturn fs.toDirectories cwd cch ['a', '/', 'b'])) ↔
        CutWhereItShould ['a', '/', 'b']) :=
  ⟨by unfold CutWhereItShould; decide, fullpath_namesSame_iff (by decide)⟩

/-- A file in the root directory is taken for one in the current directory. -/
theorem root_file_misnamed :
    ¬ ∀ (N : Type) (fs : FileSystem N) (cwd : N) (cch : ℕ) (psz : List Char),
      psz.length < 0x400 → fs.isDir cwd = true → (fs.name cwd).length < 0x400 →
      NamesSame fs.toDirectories cwd cch psz := by
  intro hall
  have hlen : ['/', 'x'].length < 0x400 := by decide
  obtain ⟨cch, -, hnot⟩ := exists_not_namesSame_of_root hlen (by decide) (by decide)
  exact hnot (hall Path allNamesSystem subsub cch ['/', 'x'] hlen rfl (by decide))

end Palmira.Plugins
