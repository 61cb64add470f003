import Palmira.Core.Exception
import Palmira.Foundation.Strtoul
import Palmira.Http.Message

/-!
# The address of a server

`Client::SetAddress( const char* )` copies the host into an array of 0x100 chars
and gives the rest to `strtoul`. A string stands without its terminator; a read at
its end gives the zero.
-/

namespace Palmira.Http

open Strtoul

/-- `*outstr = c` -/
def store (szhost : Bytes) (outstr : ℕ) (c : UInt8) : Except Exn Bytes :=
  if outstr < szhost.length then .ok (szhost.set outstr c)
  else .error (.undefined "write outside szhost")

/-- `while ( outstr != std::end(szhost) && *address != '\0' && *address != ':' )` -/
def copyHost (szhost : Bytes) (outstr : ℕ) : Bytes → Except Exn (Bytes × ℕ × Bytes)
  | [] => .ok (szhost, outstr, [])
  | c :: address =>
      if outstr ≠ szhost.length ∧ c ≠ 0 ∧ c ≠ 0x3A then
        match store szhost outstr c with
        | .ok szhost => copyHost szhost (outstr + 1) address
        | .error e => .error e
      else .ok (szhost, outstr, c :: address)

/-- `strtoul` into `uint32_t dwport`, and what `SetAddress( szhost, dwport )` is called with. -/
def parsePort (szhost address : Bytes) : Except Exn (Bytes × ℕ) :=
  let (number, outstr) := strtoul 64 address
  let dwport := number % 2 ^ 32
  if dwport = 0 ∨ dwport % 2 ^ 16 ≠ dwport ∨ outstr.headD 0 ≠ 0 then
    .error (.invalidArgument "port as uint16 expected")
  else .ok (szhost.takeWhile (· ≠ 0), dwport % 2 ^ 16)

/-- `Client::SetAddress( const char* address )`: the host and the port it goes on with. What is in
`szhost` at first is left from before. -/
def setAddress (szhost address : Bytes) : Except Exn (Bytes × ℕ) :=
  match copyHost szhost 0 address with
  | .error e => .error e
  | .ok (szhost, outstr, address) =>
      if outstr = szhost.length then .error (.invalidArgument "host address is too long")
      else if address.headD 0 ≠ 0x3A then .error (.invalidArgument "host:port expected")
      else
        match store szhost outstr 0 with
        | .error e => .error e
        | .ok szhost => parsePort szhost address.tail

/-! ## Copying -/

theorem store_ok {szhost : Bytes} {outstr : ℕ} (hlt : outstr < szhost.length) (c : UInt8) :
    store szhost outstr c = .ok (szhost.set outstr c) := if_pos hlt

theorem take_store {szhost : Bytes} {outstr : ℕ} (hlt : outstr < szhost.length) (c : UInt8) :
    (szhost.set outstr c).take (outstr + 1) = szhost.take outstr ++ [c] := by
  rw [List.take_add_one, List.take_set_of_le (Nat.le_refl _), List.getElem?_set_self hlt]
  rfl

/-- The loop copies up to the end of the array, a colon or the end of the string. -/
theorem copyHost_eq {host rest : Bytes} (hhost : ∀ c ∈ host, c ≠ 0 ∧ c ≠ 0x3A) {szhost : Bytes}
    {outstr : ℕ} (hroom : outstr + host.length ≤ szhost.length)
    (hstop : outstr + host.length = szhost.length ∨ rest = [] ∨ rest.head? = some 0x3A) :
    copyHost szhost outstr (host ++ rest) =
      .ok (szhost.take outstr ++ host ++ szhost.drop (outstr + host.length),
        outstr + host.length, rest) := by
  induction host generalizing szhost outstr with
  | nil =>
      have hsame : szhost.take outstr ++ [] ++ szhost.drop (outstr + 0) = szhost := by
        rw [List.append_nil, Nat.add_zero, List.take_append_drop]
      rw [List.length_nil, hsame]
      cases rest with
      | nil => rfl
      | cons c rest =>
          have hleft : ¬ (outstr ≠ szhost.length ∧ c ≠ 0 ∧ c ≠ 0x3A) := by
            intro ⟨hmore, _, hcolon⟩
            rcases hstop with hend | hnil | hhead
            · exact hmore hend
            · cases hnil
            · exact hcolon (Option.some.inj hhead)
          change copyHost szhost outstr (c :: rest) = _
          rw [copyHost, if_neg hleft]
          rfl
  | cons c host ih =>
      rw [List.length_cons] at hroom hstop
      have hlt : outstr < szhost.length := by omega
      have hcount : outstr + (host.length + 1) = outstr + 1 + host.length := by omega
      rw [hcount] at hroom hstop
      rw [List.cons_append, copyHost, if_pos ⟨hlt.ne, hhost c List.mem_cons_self⟩, store_ok hlt]
      simp only
      rw [ih (fun c' hmem => hhost c' (List.mem_cons_of_mem _ hmem))
        (by rwa [List.length_set]) (by rwa [List.length_set])]
      rw [take_store hlt, List.drop_set_of_lt (by omega), List.length_cons, hcount,
        List.append_assoc (szhost.take outstr) [c] host, List.singleton_append]

section Cases

variable {szhost host p : Bytes} (hsize : szhost.length = 0x100)
  (hhost : ∀ c ∈ host, c ≠ 0 ∧ c ≠ 0x3A)

include hsize

theorem overwritten_length (hle : host.length ≤ 0x100) :
    (host ++ szhost.drop host.length).length = 0x100 := by
  rw [List.length_append, List.length_drop, hsize]
  omega

include hhost

theorem copyHost_start (hle : host.length ≤ 0x100) (rest : Bytes)
    (hstop : host.length = 0x100 ∨ rest = [] ∨ rest.head? = some 0x3A) :
    copyHost szhost 0 (host ++ rest) =
      .ok (host ++ szhost.drop host.length, host.length, rest) := by
  have hroom : 0 + host.length ≤ szhost.length := by omega
  have hcopy := copyHost_eq hhost hroom (hstop.imp_left (by omega))
  rwa [List.take_zero, List.nil_append, Nat.zero_add] at hcopy

theorem setAddress_long (hlong : host.length = 0x100) (rest : Bytes) :
    setAddress szhost (host ++ rest) =
      .error (.invalidArgument "host address is too long") := by
  have hcopy := copyHost_start hsize hhost hlong.le rest (.inl hlong)
  simp only [setAddress, hcopy]
  rw [if_pos (by rw [overwritten_length hsize hlong.le, hlong])]

theorem setAddress_bare (hshort : host.length < 0x100) :
    setAddress szhost host = .error (.invalidArgument "host:port expected") := by
  have hcopy := copyHost_start hsize hhost hshort.le [] (.inr (.inl rfl))
  rw [List.append_nil] at hcopy
  simp only [setAddress, hcopy]
  rw [if_neg (by rw [overwritten_length hsize hshort.le]; omega), if_pos (by decide)]

/-- With a colon in place the rest is read as the port. -/
theorem setAddress_split (hshort : host.length < 0x100) :
    ∃ copied, copied.takeWhile (· ≠ 0) = host ∧
      setAddress szhost (host ++ 0x3A :: p) = parsePort copied p := by
  have hcopy := copyHost_start hsize hhost hshort.le (0x3A :: p) (.inr (.inr rfl))
  have hlength := overwritten_length hsize hshort.le
  have hlt : host.length < (host ++ szhost.drop host.length).length := by omega
  have hmore : ¬ host.length = (host ++ szhost.drop host.length).length := by omega
  have htext : ∀ c ∈ host, decide (c ≠ 0) = true := fun c hmem => decide_eq_true (hhost c hmem).1
  refine ⟨(host ++ szhost.drop host.length).set host.length 0, ?_, ?_⟩
  · rw [List.set_eq_take_append_cons_drop, if_pos hlt, List.take_left,
      List.takeWhile_append_of_pos htext]
    exact List.append_nil host
  · simp only [setAddress, hcopy, if_neg hmore, store_ok hlt]
    rfl

end Cases

/-! ## The port -/

/-- A string that `strtoul` reads whole as a number other than 0 within 16 bits, after the cut to
32, though it is not a plain numeral of that range: blanks or a sign stand before the digits, or
the number has more than 16 bits. -/
def Misread (p : Bytes) : Prop :=
  ∃ spaces sign digits, Reads p spaces sign digits [] ∧
    (spaces ≠ [] ∨ sign ≠ .none ∨ 2 ^ 16 ≤ decimal digits) ∧
    0 < convert 64 sign (decimal digits) % 2 ^ 32 ∧
    convert 64 sign (decimal digits) % 2 ^ 32 < 2 ^ 16

/-- A decimal numeral from 1 to 65535. -/
def PortNumeral (p : Bytes) : Prop := Numeral p ∧ 0 < decimal p ∧ decimal p < 2 ^ 16

section Port

variable {p : Bytes} {number : ℕ}

theorem PortNumeral.not_misread (hp : PortNumeral p) : ¬ Misread p := by
  intro ⟨spaces, sign, digits, hreads, hother, _, _⟩
  obtain ⟨hspaces, hsign, rfl⟩ := hp.1.parts hreads
  rcases hother with hblank | hsigned | hlarge
  · exact hblank hspaces
  · exact hsigned hsign
  · exact absurd hp.2.2 (Nat.not_lt.mpr hlarge)

theorem strtoul_portNumeral (hp : PortNumeral p) : strtoul 64 p = (decimal p, []) := by
  have hsmall : decimal p < 2 ^ 64 := hp.2.2.trans (by decide)
  rw [strtoul_of_reads hp.1.reads, convert_none hsmall]

/-- What is read whole as a port is a numeral of the range, or misread. -/
theorem port_cases (hread : strtoul 64 p = (number, [])) (hpos : 0 < number % 2 ^ 32)
    (hlt : number % 2 ^ 32 < 2 ^ 16) : PortNumeral p ∨ Misread p := by
  have hne : number ≠ 0 := by
    intro hzero
    rw [hzero] at hpos
    exact absurd hpos (by decide)
  obtain ⟨spaces, sign, digits, hreads, rfl⟩ := reads_of_strtoul hread hne
  by_cases hplain : spaces = [] ∧ sign = .none ∧ decimal digits < 2 ^ 16
  · obtain ⟨rfl, rfl, hdigits⟩ := hplain
    have htext : p = digits := hreads.text.trans (List.append_nil digits)
    subst htext
    rw [convert_none (hdigits.trans (by decide))] at hpos
    exact .inl ⟨⟨hreads.nonempty, hreads.digit⟩, by omega, hdigits⟩
  · refine .inr ⟨spaces, sign, digits, hreads, ?_, hpos, hlt⟩
    by_contra hnone
    rw [not_or, not_or, not_not, not_not, Nat.not_le] at hnone
    exact hplain hnone

/-- The call goes on with the low bits of what was read whole, or throws. -/
theorem parsePort_cases (hzero : 0 ∉ p) (copied : Bytes) :
    (∃ number, strtoul 64 p = (number, []) ∧ 0 < number % 2 ^ 32 ∧ number % 2 ^ 32 < 2 ^ 16 ∧
      parsePort copied p = .ok (copied.takeWhile (· ≠ 0), number % 2 ^ 32)) ∨
    ((¬ ∃ number, strtoul 64 p = (number, []) ∧ 0 < number % 2 ^ 32 ∧ number % 2 ^ 32 < 2 ^ 16) ∧
      parsePort copied p = .error (.invalidArgument "port as uint16 expected")) := by
  have hsuffix := strtoul_suffix 64 p
  generalize hread : strtoul 64 p = result at hsuffix
  obtain ⟨number, outstr⟩ := result
  have hend : outstr.headD 0 ≠ 0 ↔ outstr ≠ [] := by
    cases outstr with
    | nil => simp
    | cons c outstr =>
        refine iff_of_true ?_ (List.cons_ne_nil c outstr)
        intro hc
        change c = 0 at hc
        exact hzero (hsuffix.mem (hc ▸ List.mem_cons_self))
  simp only [parsePort, hread, hend]
  split
  next hbad =>
    refine .inr ⟨?_, rfl⟩
    intro ⟨number', hsame, hpos, hlt⟩
    obtain ⟨rfl, rfl⟩ := Prod.mk.inj hsame
    rcases hbad with hnone | hwide | hmore
    · omega
    · omega
    · exact hmore rfl
  next hgood =>
    rw [not_or, not_or, not_not, not_not] at hgood
    obtain ⟨hne, hwidth, rfl⟩ := hgood
    refine .inl ⟨number, rfl, by omega, by omega, ?_⟩
    rw [hwidth]

end Port

/-! ## host:port -/

/-- A host and the text after the first colon. -/
structure Split (address host p : Bytes) : Prop where
  text : address = host ++ 0x3A :: p
  short : host.length ≤ 255
  colon : 0x3A ∉ host

theorem Split.unique {address host p host' p' : Bytes} (hsplit : Split address host p)
    (hsplit' : Split address host' p') : host = host' ∧ p = p' := by
  have hhost : ∀ {host p : Bytes}, Split address host p →
      address.takeWhile (· ≠ 0x3A) = host ∧ address.dropWhile (· ≠ 0x3A) = 0x3A :: p := by
    intro host p hsplit
    rw [hsplit.text]
    apply takeWhile_stop
    · intro c hmem
      exact decide_eq_true fun hc => hsplit.colon (hc ▸ hmem)
    · intro c hc
      obtain rfl := Option.some.inj hc
      rfl
  obtain ⟨hfirst, hrest⟩ := hhost hsplit
  obtain ⟨hfirst', hrest'⟩ := hhost hsplit'
  exact ⟨hfirst.symm.trans hfirst', (List.cons.inj (hrest.symm.trans hrest')).2⟩

/-- The address is host:port. -/
def HostPort (address host p : Bytes) : Prop := Split address host p ∧ PortNumeral p

/-- The call goes on with the host and the port of host:port, and throws on anything else. -/
def AcceptsHostPort (szhost address : Bytes) : Prop :=
  (∀ host p, HostPort address host p → setAddress szhost address = .ok (host, decimal p)) ∧
  ((¬ ∃ host p, HostPort address host p) →
    ∃ what, setAddress szhost address = .error (.invalidArgument what))

section Accepts

variable {szhost address host p : Bytes} (hsize : szhost.length = 0x100) (hzero : 0 ∉ address)

include hzero

theorem Split.chars (hsplit : Split address host p) : (∀ c ∈ host, c ≠ 0 ∧ c ≠ 0x3A) ∧ 0 ∉ p := by
  obtain ⟨rfl, -, hcolon⟩ := hsplit
  refine ⟨fun c hmem => ⟨fun hc => ?_, fun hc => hcolon (hc ▸ hmem)⟩, fun hmem => ?_⟩
  · exact hzero (List.mem_append_left _ (hc ▸ hmem))
  · exact hzero (List.mem_append_right _ (List.mem_cons_of_mem _ hmem))

include hsize

/-- With a host of at most 255 chars the port decides. -/
theorem setAddress_of_split (hsplit : Split address host p) :
    (∃ number, strtoul 64 p = (number, []) ∧ 0 < number % 2 ^ 32 ∧ number % 2 ^ 32 < 2 ^ 16 ∧
      setAddress szhost address = .ok (host, number % 2 ^ 32)) ∨
    ((¬ ∃ number, strtoul 64 p = (number, []) ∧ 0 < number % 2 ^ 32 ∧ number % 2 ^ 32 < 2 ^ 16) ∧
      setAddress szhost address = .error (.invalidArgument "port as uint16 expected")) := by
  obtain ⟨hchars, hpzero⟩ := hsplit.chars hzero
  obtain ⟨copied, hcopied, hset⟩ :=
    setAddress_split (p := p) hsize hchars (Nat.lt_succ_of_le hsplit.short)
  rw [hsplit.text, hset, ← hcopied]
  exact parsePort_cases hpzero copied

/-- Without one it throws. -/
theorem setAddress_of_not_split (hnone : ¬ ∃ host p, Split address host p) :
    ∃ what, setAddress szhost address = .error (.invalidArgument what) := by
  have hsplit : ∃ host rest, address = host ++ rest ∧ 0x3A ∉ host ∧
      (rest = [] ∨ rest.head? = some 0x3A) := by
    by_cases hmem : 0x3A ∈ address
    · obtain ⟨host, p, htext, hcolon⟩ := List.eq_append_cons_of_mem hmem
      exact ⟨host, 0x3A :: p, htext, hcolon, .inr rfl⟩
    · exact ⟨address, [], (List.append_nil address).symm, hmem, .inl rfl⟩
  obtain ⟨host, rest, rfl, hcolon, hrest⟩ := hsplit
  have hchars : ∀ c ∈ host, c ≠ 0 ∧ c ≠ 0x3A := fun c hmem =>
    ⟨fun hc => hzero (List.mem_append_left _ (hc ▸ hmem)), fun hc => hcolon (hc ▸ hmem)⟩
  by_cases hlong : 0x100 ≤ host.length
  · -- the copy stops at the end of the array
    have htake : (host.take 0x100).length = 0x100 := List.length_take_of_le hlong
    have hset := setAddress_long hsize (fun c hmem => hchars c (List.mem_of_mem_take hmem)) htake
      (host.drop 0x100 ++ rest)
    rw [← List.append_assoc, List.take_append_drop] at hset
    exact ⟨_, hset⟩
  · rcases hrest with rfl | hhead
    · rw [List.append_nil]
      exact ⟨_, setAddress_bare hsize hchars (by omega)⟩
    · cases rest with
      | nil => cases hhead
      | cons c p =>
          obtain rfl := Option.some.inj hhead
          exact absurd ⟨host, p, rfl, by omega, hcolon⟩ hnone

theorem setAddress_of_hostPort (haddress : HostPort address host p) :
    setAddress szhost address = .ok (host, decimal p) := by
  obtain ⟨hsplit, hp⟩ := haddress
  have hread := strtoul_portNumeral hp
  have hnarrow : decimal p % 2 ^ 32 = decimal p := Nat.mod_eq_of_lt (hp.2.2.trans (by decide))
  rcases setAddress_of_split hsize hzero hsplit with
    ⟨number, hsame, -, -, hset⟩ | ⟨hrejected, -⟩
  · obtain rfl := (Prod.mk.inj (hread.symm.trans hsame)).1
    rw [hset, hnarrow]
  · refine absurd ⟨decimal p, hread, ?_, ?_⟩ hrejected
    · rw [hnarrow]
      exact hp.2.1
    · rw [hnarrow]
      exact hp.2.2

theorem setAddress_of_misread (hsplit : Split address host p) (hmisread : Misread p) :
    ∃ number, setAddress szhost address = .ok (host, number) := by
  obtain ⟨spaces, sign, digits, hreads, -, hpos, hlt⟩ := hmisread
  rcases setAddress_of_split hsize hzero hsplit with ⟨number, -, -, -, hset⟩ | ⟨hrejected, -⟩
  · exact ⟨_, hset⟩
  · exact absurd ⟨_, strtoul_of_reads hreads 64, hpos, hlt⟩ hrejected

/-- What is neither a host and a port nor misread as one is thrown at. -/
theorem setAddress_of_other (hother : ¬ ∃ host p, HostPort address host p)
    (hnone : ¬ ∃ host p, Split address host p ∧ Misread p) :
    ∃ what, setAddress szhost address = .error (.invalidArgument what) := by
  by_cases hsplit : ∃ host p, Split address host p
  · obtain ⟨host, p, hsplit⟩ := hsplit
    rcases setAddress_of_split hsize hzero hsplit with ⟨number, hread, hpos, hlt, -⟩ | ⟨-, hset⟩
    · rcases port_cases hread hpos hlt with hp | hmisread
      · exact absurd ⟨host, p, hsplit, hp⟩ hother
      · exact absurd ⟨host, p, hsplit, hmisread⟩ hnone
    · exact ⟨_, hset⟩
  · exact setAddress_of_not_split hsize hzero hsplit

/-- Of every string without a zero the call accepts host:port and throws on anything else exactly
when the text after the host is not misread as a port. -/
theorem acceptsHostPort_iff :
    AcceptsHostPort szhost address ↔ ¬ ∃ host p, Split address host p ∧ Misread p := by
  constructor
  · intro ⟨_, hthrows⟩ ⟨host, p, hsplit, hmisread⟩
    have hnot : ¬ ∃ host p, HostPort address host p := by
      intro ⟨host', p', hsplit', hp'⟩
      obtain ⟨rfl, rfl⟩ := hsplit.unique hsplit'
      exact hp'.not_misread hmisread
    obtain ⟨what, hthrown⟩ := hthrows hnot
    obtain ⟨number, hset⟩ := setAddress_of_misread hsize hzero hsplit hmisread
    rw [hset] at hthrown
    cases hthrown
  · intro hnone
    exact ⟨fun host p => setAddress_of_hostPort hsize hzero,
      fun hother => setAddress_of_other hsize hzero hother hnone⟩

end Accepts

theorem acceptsHostPort_iff_h80 :
    AcceptsHostPort (List.replicate 0x100 0) [0x68, 0x3A, 0x38, 0x30] := by
  apply (acceptsHostPort_iff List.length_replicate (by decide)).mpr
  intro ⟨host, p, hsplit, hmisread⟩
  have hsame : Split [0x68, 0x3A, 0x38, 0x30] [0x68] [0x38, 0x30] := ⟨rfl, by decide, by decide⟩
  obtain ⟨rfl, rfl⟩ := hsplit.unique hsame
  have hp : PortNumeral [0x38, 0x30] :=
    ⟨⟨by decide, List.all_eq_true.mp (by decide)⟩, by decide, by decide⟩
  exact hp.not_misread hmisread

/-- "4294967297", which is 2^32 + 1. -/
def pastBits : Bytes := [0x34, 0x32, 0x39, 0x34, 0x39, 0x36, 0x37, 0x32, 0x39, 0x37]

/-- "h:4294967297" is taken for the port 1 of h. -/
theorem port_past_32_bits_accepted :
    setAddress (List.replicate 0x100 0) (0x68 :: 0x3A :: pastBits) = .ok ([0x68], 1) ∧
      ¬ AcceptsHostPort (List.replicate 0x100 0) (0x68 :: 0x3A :: pastBits) := by
  have hsplit : Split (0x68 :: 0x3A :: pastBits) [0x68] pastBits := ⟨rfl, by decide, by decide⟩
  have hread : strtoul 64 pastBits = (4294967297, []) := by decide
  have hset : setAddress (List.replicate 0x100 0) (0x68 :: 0x3A :: pastBits) =
      .ok ([0x68], 1) := by
    rcases setAddress_of_split List.length_replicate (by decide) hsplit with
      ⟨number, hsame, -, -, hset⟩ | ⟨hrejected, -⟩
    · rw [hset, ← (Prod.mk.inj (hread.symm.trans hsame)).1]
      rfl
    · exact absurd ⟨_, hread, by decide, by decide⟩ hrejected
  refine ⟨hset, fun ⟨_, hthrows⟩ => ?_⟩
  have hnot : ¬ ∃ host p, HostPort (0x68 :: 0x3A :: pastBits) host p := by
    intro ⟨host, p, hsame, hp⟩
    obtain ⟨rfl, rfl⟩ := hsame.unique hsplit
    exact absurd hp.2.2 (by decide)
  obtain ⟨what, hthrown⟩ := hthrows hnot
  rw [hset] at hthrown
  cases hthrown

/-- "-4294967295" is negated in 64 bits and cut to 1. -/
example : Misread [0x2D, 0x34, 0x32, 0x39, 0x34, 0x39, 0x36, 0x37, 0x32, 0x39, 0x35] :=
  ⟨[], .minus, [0x34, 0x32, 0x39, 0x34, 0x39, 0x36, 0x37, 0x32, 0x39, 0x35],
    ⟨rfl, nofun, List.all_eq_true.mp (by decide), by decide, nofun⟩, .inr (.inl nofun), by decide,
      by decide⟩

end Palmira.Http
