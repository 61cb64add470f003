import Mathlib.Algebra.Group.Nat.Defs
import Mathlib.Data.List.TakeWhile

/-!
# Reading a number as C does

`strtoul` of the C standard in base 10, on a string without its terminator: blanks
and a sign may stand before the digits, a number too large gives the greatest
value, and a minus negates in unsigned arithmetic. What is left of the string is
the whole of it when there is no number.
-/

namespace Strtoul

/-- `isspace` in the C locale. -/
def isSpace (c : UInt8) : Bool := c == 0x20 || (0x09 ≤ c && c ≤ 0x0D)

def isDigit (c : UInt8) : Bool := 0x30 ≤ c && c ≤ 0x39

inductive Sign where
  | none
  | plus
  | minus
  deriving DecidableEq

def Sign.text : Sign → List UInt8
  | .none => []
  | .plus => [0x2B]
  | .minus => [0x2D]

def takeSign : List UInt8 → Sign × List UInt8
  | [] => (.none, [])
  | c :: rest =>
      if c = 0x2D then (.minus, rest)
      else if c = 0x2B then (.plus, rest)
      else (.none, c :: rest)

/-- The number that decimal digits stand for. -/
def decimal (digits : List UInt8) : ℕ :=
  digits.foldl (fun number c => 10 * number + (c.toNat - 0x30)) 0

/-- A signed number in an unsigned type of this width. -/
def convert (width : ℕ) (sign : Sign) (number : ℕ) : ℕ :=
  if 2 ^ width ≤ number then 2 ^ width - 1
  else
    match sign with
    | .minus => (2 ^ width - number) % 2 ^ width
    | _ => number

theorem convert_none {width number : ℕ} (hlt : number < 2 ^ width) :
    convert width .none number = number :=
  if_neg (Nat.not_le.mpr hlt)

/-- The value and what follows the number. -/
def strtoul (width : ℕ) (s : List UInt8) : ℕ × List UInt8 :=
  let (sign, subject) := takeSign (s.dropWhile isSpace)
  let digits := subject.takeWhile isDigit
  if digits = [] then (0, s)
  else (convert width sign (decimal digits), subject.dropWhile isDigit)

/-- A string that is a number with these parts, and something after it. -/
structure Reads (s spaces : List UInt8) (sign : Sign) (digits rest : List UInt8) : Prop where
  text : s = spaces ++ (sign.text ++ (digits ++ rest))
  blank : ∀ c ∈ spaces, isSpace c = true
  digit : ∀ c ∈ digits, isDigit c = true
  nonempty : digits ≠ []
  stop : ∀ c ∈ rest.head?, isDigit c = false

/-- A digit is neither a blank nor a sign. -/
theorem isDigit_cases {c : UInt8} (hdigit : isDigit c = true) :
    isSpace c = false ∧ c ≠ 0x2D ∧ c ≠ 0x2B := by
  simp only [isDigit, isSpace, Bool.and_eq_true, decide_eq_true_eq, Bool.or_eq_false_iff,
    beq_eq_false_iff_ne, Bool.and_eq_false_imp, decide_eq_false_iff_not, UInt8.le_iff_toNat_le,
    ne_eq, ← UInt8.toNat_inj, UInt8.reduceToNat] at hdigit ⊢
  omega

theorem takeWhile_stop {p : UInt8 → Bool} {body rest : List UInt8} (hbody : ∀ c ∈ body, p c = true)
    (hstop : ∀ c ∈ rest.head?, p c = false) :
    (body ++ rest).takeWhile p = body ∧ (body ++ rest).dropWhile p = rest := by
  rw [List.takeWhile_append_of_pos hbody, List.dropWhile_append_of_pos hbody]
  cases rest with
  | nil => exact ⟨List.append_nil body, rfl⟩
  | cons c rest =>
      have hc := hstop c rfl
      simp [hc]

theorem takeSign_text (sign : Sign) {digits rest : List UInt8} (hne : digits ≠ [])
    (hdigits : ∀ c ∈ digits, isDigit c = true) :
    takeSign (sign.text ++ (digits ++ rest)) = (sign, digits ++ rest) := by
  cases sign with
  | plus => rfl
  | minus => rfl
  | none =>
      cases digits with
      | nil => exact absurd rfl hne
      | cons c digits =>
          obtain ⟨-, hminus, hplus⟩ := isDigit_cases (hdigits c List.mem_cons_self)
          simp [Sign.text, takeSign, hminus, hplus]

theorem takeSign_eq (s : List UInt8) : (takeSign s).1.text ++ (takeSign s).2 = s := by
  cases s with
  | nil => rfl
  | cons c rest =>
      by_cases hminus : c = 0x2D
      · rw [takeSign, if_pos hminus, hminus]
        rfl
      · by_cases hplus : c = 0x2B
        · rw [takeSign, if_neg hminus, if_pos hplus, hplus]
          rfl
        · rw [takeSign, if_neg hminus, if_neg hplus]
          rfl

theorem strtoul_of_reads {s spaces digits rest : List UInt8} {sign : Sign}
    (hreads : Reads s spaces sign digits rest) (width : ℕ) :
    strtoul width s = (convert width sign (decimal digits), rest) := by
  obtain ⟨rfl, hblank, hdigit, hne, hstop⟩ := hreads
  have hhead : ∀ c ∈ (sign.text ++ (digits ++ rest)).head?, isSpace c = false := by
    intro c' hc'
    cases sign with
    | plus =>
        obtain rfl := Option.some.inj hc'
        rfl
    | minus =>
        obtain rfl := Option.some.inj hc'
        rfl
    | none =>
        cases digits with
        | nil => exact absurd rfl hne
        | cons c digits =>
            obtain rfl := Option.some.inj hc'
            exact (isDigit_cases (hdigit c List.mem_cons_self)).1
  simp only [strtoul, (takeWhile_stop hblank hhead).2, takeSign_text sign hne hdigit,
    (takeWhile_stop hdigit hstop).1, (takeWhile_stop hdigit hstop).2, if_neg hne]

/-- A value other than 0 was read from a number. -/
theorem reads_of_strtoul {width : ℕ} {s rest : List UInt8} {number : ℕ}
    (hread : strtoul width s = (number, rest)) (hnumber : number ≠ 0) :
    ∃ spaces sign digits, Reads s spaces sign digits rest ∧
      number = convert width sign (decimal digits) := by
  unfold strtoul at hread
  generalize hsign : takeSign (s.dropWhile isSpace) = signed at hread
  simp only at hread
  split at hread
  next => exact absurd (congrArg Prod.fst hread).symm hnumber
  next hne =>
    obtain ⟨rfl, rfl⟩ := Prod.mk.inj hread
    have htext := takeSign_eq (s.dropWhile isSpace)
    rw [hsign] at htext
    refine ⟨s.takeWhile isSpace, signed.1, signed.2.takeWhile isDigit, ⟨?_, ?_, ?_, hne, ?_⟩, rfl⟩
    · rw [List.takeWhile_append_dropWhile, htext, List.takeWhile_append_dropWhile]
    · exact fun c => List.mem_takeWhile_imp
    · exact fun c => List.mem_takeWhile_imp
    · intro c hc
      have hhead := List.head?_dropWhile_not isDigit signed.2
      rw [Option.mem_def.mp hc] at hhead
      exact hhead

/-- What follows the number is the end of the string. -/
theorem strtoul_suffix (width : ℕ) (s : List UInt8) : (strtoul width s).2 <:+ s := by
  unfold strtoul
  generalize hsign : takeSign (s.dropWhile isSpace) = signed
  simp only
  split
  next => exact List.suffix_refl s
  next =>
    have htext := takeSign_eq (s.dropWhile isSpace)
    rw [hsign] at htext
    have hsubject : signed.2 <:+ s.dropWhile isSpace := htext ▸ List.suffix_append _ _
    exact (List.dropWhile_suffix isDigit).trans (hsubject.trans (List.dropWhile_suffix isSpace))

/-! ## Plain numerals -/

/-- Digits and nothing else. -/
def Numeral (s : List UInt8) : Prop := s ≠ [] ∧ ∀ c ∈ s, isDigit c = true

theorem Numeral.reads {s : List UInt8} (hs : Numeral s) : Reads s [] .none s [] :=
  ⟨(List.append_nil s).symm, nofun, hs.2, hs.1, nofun⟩

/-- A plain numeral has no blanks and no sign. -/
theorem Numeral.parts {s spaces digits : List UInt8} {sign : Sign} (hs : Numeral s)
    (hreads : Reads s spaces sign digits []) : spaces = [] ∧ sign = .none ∧ digits = s := by
  have htext := hreads.text
  have hspaces : spaces = [] := by
    cases spaces with
    | nil => rfl
    | cons c spaces =>
        have hmem : c ∈ s := by
          rw [htext]
          exact List.mem_append_left _ List.mem_cons_self
        have hblank := hreads.blank c List.mem_cons_self
        rw [(isDigit_cases (hs.2 c hmem)).1] at hblank
        cases hblank
  have hsign : sign = .none := by
    cases sign with
    | none => rfl
    | plus =>
        have hmem : 0x2B ∈ s := by
          rw [htext]
          exact List.mem_append_right _ List.mem_cons_self
        exact absurd (hs.2 _ hmem) (by decide)
    | minus =>
        have hmem : 0x2D ∈ s := by
          rw [htext]
          exact List.mem_append_right _ List.mem_cons_self
        exact absurd (hs.2 _ hmem) (by decide)
  rw [hspaces, hsign, List.append_nil] at htext
  exact ⟨hspaces, hsign, htext.symm⟩

end Strtoul
