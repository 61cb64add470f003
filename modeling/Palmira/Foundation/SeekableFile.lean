import Mathlib.Data.Nat.Basic

/-!
# Files with a position

The contract of a file that is read at a position and not written: what a call of
read, seek or tell may answer, and where it leaves the position. An implementation
follows the contract over a sequence of calls when each of its answers is allowed
and its state goes on standing for the file.
-/

namespace SeekableFile

variable {α : Type*}

structure File (α : Type*) where
  content : List α
  pos : ℕ
  pos_le : pos ≤ content.length

/-- Where an offset counts from. -/
inductive Origin where
  | start
  | current
  | last

/-- A call; the origin of a seek is `none` when it is not one of the three. -/
inductive Call where
  | read (count : ℕ)
  | seek (offset : ℕ) (origin : Option Origin)
  | tell

inductive Reply (α : Type*) where
  | items (items : List α)
  | moved
  | rejected (error : ℤ)
  | position (pos : ℤ)

namespace File

/-- A file at its start. -/
def opened (content : List α) : File α := ⟨content, 0, Nat.zero_le _⟩

def upcoming (f : File α) : List α := f.content.drop f.pos

def moveTo (f : File α) (pos : ℕ) (hpos : pos ≤ f.content.length) : File α :=
  { f with pos := pos, pos_le := hpos }

def base (f : File α) : Origin → ℕ
  | .start => 0
  | .current => f.pos
  | .last => f.content.length

/-- What a read of `count` items gives. -/
def taken (f : File α) (count : ℕ) : List α := f.upcoming.take count

theorem length_taken (f : File α) (count : ℕ) :
    (f.taken count).length = min count (f.content.length - f.pos) := by
  rw [taken, List.length_take, upcoming, List.length_drop]

theorem pos_add_length_taken_le (f : File α) (count : ℕ) :
    f.pos + (f.taken count).length ≤ f.content.length := by
  have hle := f.pos_le
  rw [length_taken]
  omega

/-- Past what a read of `count` items gives. -/
def advance (f : File α) (count : ℕ) : File α :=
  f.moveTo (f.pos + (f.taken count).length) (f.pos_add_length_taken_le count)

end File

variable (wrap : ℕ)

/-- A call may answer so and leave the file so. Offsets count modulo `wrap`: an offset just below
it leads back. -/
inductive Allows : File α → Call → Reply α → File α → Prop
  | read (f : File α) (count : ℕ) :
      Allows f (.read count) (.items (f.taken count)) (f.advance count)
  | moved (f : File α) (offset : ℕ) (origin : Origin)
      (hpos : (f.base origin + offset) % wrap ≤ f.content.length) :
      Allows f (.seek offset (some origin)) .moved (f.moveTo _ hpos)
  | rejected (f : File α) (offset : ℕ) (origin : Option Origin) {error : ℤ} (herror : error ≠ 0) :
      Allows f (.seek offset origin) (.rejected error) f
  | tell (f : File α) : Allows f .tell (.position f.pos) f

variable {wrap}

theorem Allows.moved_pos {f f' : File α} {offset : ℕ} {origin : Origin}
    (hallows : Allows wrap f (.seek offset (some origin)) .moved f') :
    f'.pos = (f.base origin + offset) % wrap := by
  cases hallows
  rfl

/-- An offset that leaves the base where it is leads nowhere else only if it is zero. -/
theorem offset_eq_zero_of_add_mod_eq {base offset : ℕ} (hbase : base < wrap)
    (hoffset : offset < wrap) (heq : (base + offset) % wrap = base) : offset = 0 := by
  rcases Nat.lt_or_ge (base + offset) wrap with hlt | hge
  · rw [Nat.mod_eq_of_lt hlt] at heq
    omega
  · rw [Nat.mod_eq_sub_mod hge, Nat.mod_eq_of_lt (by omega)] at heq
    omega

section Implementation

variable {S C : Type*} (step : S → C → Option (Reply α × S)) (meaning : C → Call)
  (stands : S → File α → Prop)

variable (wrap) in
/-- The implementation answers the call as the contract allows, and stands for the file as it is
then. -/
def Answers (f : File α) (s : S) (c : C) (f' : File α) (s' : S) : Prop :=
  ∃ reply, step s c = some (reply, s') ∧ Allows wrap f (meaning c) reply f' ∧ stands s' f'

variable (wrap) in
/-- The implementation answers every call so. -/
def Follows : File α → S → List C → Prop
  | _, _, [] => True
  | f, s, c :: rest =>
      ∃ f' s', Answers wrap step meaning stands f s c f' s' ∧ Follows f' s' rest

variable {step meaning stands}

/-- When one call is answered as allowed exactly under a condition on the call, a sequence of calls
is exactly when each meets the condition. -/
theorem follows_iff_forall {ok : C → Prop}
    (hstep : ∀ f s c, stands s f →
      ((∃ f' s', Answers wrap step meaning stands f s c f' s') ↔ ok c))
    {f : File α} {s : S} (hstands : stands s f) (calls : List C) :
    Follows wrap step meaning stands f s calls ↔ ∀ c ∈ calls, ok c := by
  induction calls generalizing f s with
  | nil => exact iff_of_true trivial nofun
  | cons c rest ih =>
      rw [List.forall_mem_cons]
      constructor
      · rintro ⟨f', s', hanswers, hrest⟩
        have hstands' : stands s' f' := by
          obtain ⟨_, _, _, hstands'⟩ := hanswers
          exact hstands'
        exact ⟨(hstep f s c hstands).mp ⟨f', s', hanswers⟩, (ih hstands').mp hrest⟩
      · rintro ⟨hok, hrest⟩
        obtain ⟨f', s', hanswers⟩ := (hstep f s c hstands).mpr hok
        have hstands' : stands s' f' := by
          obtain ⟨_, _, _, hstands'⟩ := hanswers
          exact hstands'
        exact ⟨f', s', hanswers, (ih hstands').mpr hrest⟩

end Implementation

end SeekableFile
