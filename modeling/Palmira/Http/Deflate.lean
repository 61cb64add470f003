import Palmira.Http.Unpack

/-!
# Deflate and back

`Deflate` makes one call over the whole vector; what it makes is unpacked by
`Inflate` and read in pieces of any sizes. `avail_out` is 32 bits wide, so the
two are inverse as long as the vector `Inflate` starts with is shorter than 2^32.
-/

namespace Palmira.Http

open StreamDecoder

/-- What the code uses of zlib's `deflate`: whether `deflateInit` is `Z_OK`, and what `deflate` with
`Z_FINISH` answers and writes for a whole input and some room. -/
structure Deflater where
  deflateInit : Bool
  deflateBound : ℕ → ℕ
  deflate : Bytes → ℕ → Code × Bytes

/-- `Deflate` -/
def deflate (d : Deflater) (src : Bytes) : Except Exn Bytes :=
  if src = [] then .ok []
  else if d.deflateInit = false then .error (.runtimeError "deflate init error")
  else if maxSize < d.deflateBound src.length then
    .error (.lengthError "vector::_M_default_append")
  else
    let size := d.deflateBound src.length
    let (code, written) := d.deflate (src.take (src.length % 2 ^ 32)) (size % 2 ^ 32)
    match code with
    | .streamEnd => .ok ((overwrite (List.replicate size 0) 0 written).take written.length)
    | _ => .error (.runtimeError "data compression error")

/-! ## Reading what was unpacked -/

structure StreamOnVector where
  data : Bytes
  curpos : ℕ

/-- `StreamOnVector::Get` -/
def StreamOnVector.get (s : StreamOnVector) (cc : ℕ) : Bytes × StreamOnVector :=
  let count := min cc ((s.data.length - s.curpos) % 2 ^ 32)
  ((s.data.drop s.curpos).take count, { s with curpos := s.curpos + count })

/-- A reader that asks for these sizes in turn: the stream, the number of its calls and what it has
got. -/
structure Reading where
  stream : StreamOnVector
  calls : ℕ
  got : Bytes

/-- One call; a reader stops when it gets nothing. -/
def readRound (sizes : ℕ → ℕ) (s : Reading) : Reading ⊕ Bytes :=
  let (piece, stream) := s.stream.get (sizes s.calls)
  if piece = [] then .inr s.got
  else .inl ⟨stream, s.calls + 1, s.got ++ piece⟩

/-- Reading the stream over this vector in these sizes gives these bytes. -/
def ReadsAs (unpacked : Bytes) (sizes : ℕ → ℕ) (x : Bytes) : Prop :=
  Loop.Leaves (readRound sizes) ⟨⟨unpacked, 0⟩, 0, []⟩ x

/-- The sizes a caller may give to `Get` and still expect something. -/
def Positive (sizes : ℕ → ℕ) : Prop := ∀ call, 0 < sizes call ∧ sizes call < 2 ^ 32

/-- What a reader of this vector has got, short of the low 32 bits of its length. -/
structure Reading.Of (unpacked : Bytes) (s : Reading) : Prop where
  data : s.stream.data = unpacked
  curpos_le : s.stream.curpos ≤ unpacked.length % 2 ^ 32
  got : s.got = unpacked.take s.stream.curpos

theorem readRound_of {unpacked : Bytes} {sizes : ℕ → ℕ} (hsizes : Positive sizes) {s : Reading}
    (hs : s.Of unpacked) :
    (s.stream.curpos = unpacked.length % 2 ^ 32 ∧ readRound sizes s = .inr s.got) ∨
      ∃ next, readRound sizes s = .inl next ∧ next.Of unpacked ∧
        s.stream.curpos < next.stream.curpos := by
  obtain ⟨hdata, hle, hgot⟩ := hs
  obtain ⟨hpos, -⟩ := hsizes s.calls
  have hleft : (unpacked.length - s.stream.curpos) % 2 ^ 32 =
      unpacked.length % 2 ^ 32 - s.stream.curpos := by omega
  simp only [readRound, StreamOnVector.get, hdata, hleft]
  generalize hcount : min (sizes s.calls) (unpacked.length % 2 ^ 32 - s.stream.curpos) = count
  have hpiece : ((unpacked.drop s.stream.curpos).take count).length = count := by
    rw [List.length_take, List.length_drop]
    omega
  by_cases hzero : count = 0
  · rw [hzero, List.take_zero, if_pos rfl]
    exact .inl ⟨by omega, rfl⟩
  · have hne : (unpacked.drop s.stream.curpos).take count ≠ [] := by
      intro hnone
      rw [hnone, List.length_nil] at hpiece
      exact hzero hpiece.symm
    rw [if_neg hne]
    refine .inr ⟨_, rfl, ⟨rfl, ?_, ?_⟩, ?_⟩
    · change s.stream.curpos + count ≤ _
      omega
    · change s.got ++ (unpacked.drop s.stream.curpos).take count = _
      rw [hgot, List.take_add]
    · exact Nat.lt_add_of_pos_right (Nat.pos_of_ne_zero hzero)

/-- Every reader gets the vector up to the low 32 bits of its length. -/
theorem readsAs_take (unpacked : Bytes) {sizes : ℕ → ℕ} (hsizes : Positive sizes) :
    ReadsAs unpacked sizes (unpacked.take (unpacked.length % 2 ^ 32)) := by
  have hround : ∀ s next : Reading, s.Of unpacked → readRound sizes s = .inl next →
      next.Of unpacked ∧ unpacked.length % 2 ^ 32 - next.stream.curpos <
        unpacked.length % 2 ^ 32 - s.stream.curpos := by
    intro s next hs hstep
    rcases readRound_of hsizes hs with ⟨-, hlast⟩ | ⟨next', hnext, hof, hlt⟩
    · rw [hlast] at hstep
      cases hstep
    · obtain rfl := Sum.inl.inj (hnext.symm.trans hstep)
      have hle := hof.curpos_le
      exact ⟨hof, by omega⟩
  have hlast : ∀ (s : Reading) result, s.Of unpacked → readRound sizes s = .inr result →
      result = unpacked.take (unpacked.length % 2 ^ 32) := by
    intro s result hs hstep
    rcases readRound_of hsizes hs with ⟨hend, hlast⟩ | ⟨next, hnext, -, -⟩
    · rw [← Sum.inr.inj (hlast.symm.trans hstep), hs.got, hend]
    · rw [hnext] at hstep
      cases hstep
  obtain ⟨result, hreads, rfl⟩ :=
    Loop.leaves_of_measure hround hlast (s := ⟨⟨unpacked, 0⟩, 0, []⟩) ⟨rfl, Nat.zero_le _, rfl⟩
  exact hreads

/-! ## The two together -/

/-- `Deflate` succeeds, and every reader of what `Inflate` makes of it gets the vector back. -/
def InflateUndoesDeflate (d : Deflater) (z : Zlib) (avail₀ : ℕ) (x : Bytes) : Prop :=
  ∃ deflated, deflate d x = .ok deflated ∧ ∃ fuel unpacked,
    inflate z avail₀ fuel (some deflated) = some (.ok unpacked) ∧
    ∀ sizes, Positive sizes → ReadsAs unpacked sizes x

/-- The length of the vector in the first call of `inflate`: it is doubled at once where `avail_out`
is 0 by chance. -/
def startSize (deflated : Bytes) (avail₀ : ℕ) : ℕ :=
  deflated.length * (if avail₀ = 0 then 8 else 4)

/-- zlib deflates the vector to this: `deflate` with `Z_FINISH` ends in the room of `deflateBound`,
a vector under 2^30 has a bound under 2^32, and a run of zeros shrinks to less than half. -/
structure Deflater.Deflates (d : Deflater) (x deflated : Bytes) : Prop where
  init : d.deflateInit = true
  bound_lt : x.length < 2 ^ 30 → d.deflateBound x.length < 2 ^ 32
  finish : d.deflate x (d.deflateBound x.length) = (.streamEnd, deflated)
  fits : deflated.length ≤ d.deflateBound x.length
  zeros : (∀ b ∈ x, b = 0) → 0x200 < x.length → 2 * deflated.length < x.length

/-- zlib's `inflate` gives the vector on its deflated form and ends there, in calls that cut the
work in any way. -/
structure Zlib.Inflates (z : Zlib) (future : z.decoder.State → Bytes → Bytes × Verdict)
    (fresh : z.decoder.State) (deflated x : Bytes) : Prop where
  lawful : Lawful z.decoder future
  init : z.inflateInit = some fresh
  nothing : future fresh [] = ([], .starved)
  ended : future fresh deflated = (x, .ended)

section Deflating

variable {d : Deflater} {x deflated : Bytes}

theorem deflate_ok (hd : d.Deflates x deflated) (hne : x ≠ []) (hshort : x.length < 2 ^ 30) :
    deflate d x = .ok deflated := by
  have hbound := hd.bound_lt hshort
  have hmax : ¬ maxSize < d.deflateBound x.length := by
    unfold maxSize
    omega
  have hlength : x.length % 2 ^ 32 = x.length := Nat.mod_eq_of_lt (by omega)
  have hsize : d.deflateBound x.length % 2 ^ 32 = d.deflateBound x.length :=
    Nat.mod_eq_of_lt hbound
  have hwritten : (overwrite (List.replicate (d.deflateBound x.length) 0) 0 deflated).take
      deflated.length = deflated := by
    rw [← Nat.zero_add deflated.length, overwrite_take_end (Nat.zero_le _)]
    rfl
  rw [deflate, if_neg hne, if_neg (by rw [hd.init]; nofun), if_neg hmax, hlength, List.take_length]
  simp only [hsize, hd.finish, hwritten]

/-- On a source under 2^32 bytes `Inflate` is its loop. -/
theorem inflate_eq_run {z : Zlib} {fresh : z.decoder.State} (hinit : z.inflateInit = some fresh)
    (hfits : deflated.length < 2 ^ 32) (avail₀ fuel : ℕ) :
    inflate z avail₀ fuel (some deflated) = Loop.run (inflateRound z) fuel
      ⟨fresh, deflated, List.replicate (deflated.length * 4) 0, 0, avail₀⟩ := by
  simp only [inflate, hinit, readSource_eq, inflateStart_eq fresh hfits]

end Deflating

/-! ## In small sizes -/

section Restored

variable {z : Zlib} {future : z.decoder.State → Bytes → Bytes × Verdict}
  {s next : Inflating z.decoder.State} {x : Bytes}

/-- What is written and what is to come make up the vector, and the buffer stays small. -/
structure Restoring (future : z.decoder.State → Bytes → Bytes × Verdict) (x : Bytes)
    (s : Inflating z.decoder.State) : Prop where
  verdict : (future s.state s.input).2 = .ended
  produced : s.output.take s.outlen ++ (future s.state s.input).1 = x
  outlen_le : s.outlen ≤ s.output.length
  pos : s.output ≠ []
  size : s.output.length < 2 ^ 32
  double : s.availOut = 0 → 2 * s.output.length < 2 ^ 32

theorem restoring_grow (hs : Restoring future x s) {output : Bytes}
    (hgrow : grow s.output s.availOut = .ok output) :
    s.outlen ≤ output.length ∧ output ≠ [] ∧ output.length < 2 ^ 32 ∧
      output.take s.outlen = s.output.take s.outlen := by
  obtain ⟨grown, hgrown, hle, hlt⟩ := grow_small hs.size hs.double
  obtain rfl := Except.ok.inj (hgrow.symm.trans hgrown)
  have hpos := (List.length_pos_iff.mpr hs.pos).trans_le hle
  exact ⟨hs.outlen_le.trans hle, List.length_pos_iff.mp hpos, hlt, grow_take hgrow hs.outlen_le⟩

theorem restoring_round (hlawful : Lawful z.decoder future) (hx : x.length < 2 ^ 31)
    (hs : Restoring future x s) (hround : inflateRound z s = .inl next) :
    Restoring future x next := by
  obtain ⟨output, reply, hgrow, hcall, hcode, rfl⟩ := inflateRound_inl hround
  have hreply : LawfulReply future s.state s.input (s.room output) reply :=
    hcall ▸ hlawful s.state s.input (s.room output)
  obtain ⟨hle, hne, hlt, hkept⟩ := restoring_grow hs hgrow
  have hlength := advance_length hreply.output_le
  have hverdict := hs.verdict
  have hproduced := hs.produced
  rw [hreply.future_eq hcode] at hverdict hproduced
  rw [← List.append_assoc, ← hkept, ← advance_written hlt hle hreply.output_le] at hproduced
  refine ⟨hverdict, hproduced, ?_, ?_, hlength ▸ hlt, ?_⟩
  · rw [hlength]
    exact (advance_outlen_le hle).2
  · rw [← List.length_pos_iff, hlength, List.length_pos_iff]
    exact hne
  · -- a full vector holds a part of `x`
    intro hzero
    have hfull : (s.advance output reply).outlen = output.length := by
      change output.length - (s.advance output reply).availOut = _
      rw [hzero]
      rfl
    have hpart := congrArg List.length hproduced
    rw [List.length_append, hfull, List.length_take_of_le hlength.ge] at hpart
    omega

theorem restoring_last (hlawful : Lawful z.decoder future) (hs : Restoring future x s)
    {result : Except Exn Bytes} (hround : inflateRound z s = .inr result) : result = .ok x := by
  rcases inflateRound_inr hround with ⟨e, hgrow, -⟩ | ⟨output, hgrow, hrest⟩
  · obtain ⟨grown, hgrown, -⟩ := grow_small hs.size hs.double
    cases hgrow.symm.trans hgrown
  obtain ⟨hle, hne, hlt, hkept⟩ := restoring_grow hs hgrow
  rcases hrest with ⟨-, hnone, -⟩ | ⟨reply, hcall, hend⟩
  · exact absurd hnone hne
  have hreply : LawfulReply future s.state s.input (s.room output) reply :=
    hcall ▸ hlawful s.state s.input (s.room output)
  rcases hend with ⟨hcode, rfl⟩ | ⟨code, hcode, -⟩
  · have hproduced := hs.produced
    rw [hreply.streamEnd hcode] at hproduced
    rw [advance_written hlt hle hreply.output_le, hkept, hproduced]
  · have hcorrupt := hreply.failed code hcode
    rw [hs.verdict] at hcorrupt
    cases hcorrupt

/-- `Inflate` gives the vector back when it starts with less than 2^32 bytes, or half of that
where `avail_out` is 0 by chance. -/
theorem inflate_restores {deflated : Bytes} {fresh : z.decoder.State} {avail₀ : ℕ}
    (hz : z.Inflates future fresh deflated x) (hx : x.length < 2 ^ 31)
    (hsmall : startSize deflated avail₀ < 2 ^ 32) :
    ∃ fuel, inflate z avail₀ fuel (some deflated) = some (.ok x) := by
  have hne : deflated ≠ [] := by
    intro hnone
    have hended := hz.ended
    rw [hnone, hz.nothing] at hended
    cases hended
  have hpos := List.length_pos_iff.mpr hne
  unfold startSize at hsmall
  have hfour : deflated.length * 4 < 2 ^ 32 := by
    split at hsmall <;> omega
  have hlength : deflated.length % 2 ^ 32 = deflated.length := Nat.mod_eq_of_lt (by omega)
  have hfed : ¬ Starves z future (some deflated) := by
    intro ⟨source, state, hsource, hstate, _, hstarved⟩
    obtain rfl := Option.some.inj hsource
    obtain rfl := Option.some.inj (hz.init.symm.trans hstate)
    rw [hlength, List.take_length, hz.ended] at hstarved
    cases hstarved
  have hfresh : ∀ state, z.inflateInit = some state → future state [] = ([], .starved) := by
    intro state hstate
    obtain rfl := Option.some.inj (hz.init.symm.trans hstate)
    exact hz.nothing
  obtain ⟨fuel, result, hrun⟩ := inflate_ends hz.lawful hfresh avail₀ (some deflated) hfed
  refine ⟨fuel, hrun.trans (congrArg some ?_)⟩
  rw [inflate_eq_run hz.init (by omega)] at hrun
  apply Loop.Leaves.post (fun _ _ => restoring_round hz.lawful hx)
    (fun _ _ hs => restoring_last hz.lawful hs) ?_ ⟨fuel, hrun⟩
  refine ⟨congrArg Prod.snd hz.ended, ?_, Nat.zero_le _, ?_, ?_, ?_⟩
  · rw [List.take_zero, hz.ended]
    rfl
  · rw [← List.length_pos_iff, List.length_replicate]
    omega
  · rw [List.length_replicate]
    omega
  · intro hzero
    rw [if_pos hzero] at hsmall
    rw [List.length_replicate]
    omega

end Restored

/-! ## In large sizes -/

section Adrift

variable {z : Zlib} {future : z.decoder.State → Bytes → Bytes × Verdict}
  {s next : Inflating z.decoder.State} {count : ℕ} {kept : Bytes}

/-- `outlen` has gone past 2^32, and the head of the vector is out of reach. -/
structure Adrift {S : Type} (count : ℕ) (kept : Bytes) (s : Inflating S) : Prop where
  far : 2 ^ 32 ≤ s.outlen
  outlen_le : s.outlen ≤ s.output.length
  head : s.output.take count = kept

theorem adrift_advance (hcount : count ≤ 2 ^ 32) (hs : Adrift count kept s) {output : Bytes}
    (hgrow : grow s.output s.availOut = .ok output) {reply : Reply z.decoder.State UInt8}
    (hfits : reply.output.length ≤ s.room output) :
    Adrift count kept (s.advance output reply) := by
  obtain ⟨hfar, hle, hhead⟩ := hs
  have hgrown : s.outlen ≤ output.length := by
    rcases grow_length hgrow with ⟨-, rfl⟩ | ⟨-, hdouble, -⟩
    · exact hle
    · omega
  have hoff : s.outlen ≤ (s.advance output reply).outlen ∧
      (s.advance output reply).outlen ≤ output.length := advance_outlen_le hgrown
  refine ⟨hfar.trans hoff.1, ?_, ?_⟩
  · rw [advance_length hfits]
    exact hoff.2
  · have hhere : (s.advance output reply).output.take count = output.take count :=
      overwrite_take (by omega) hgrown
    rw [hhere, grow_take hgrow (by omega), hhead]

theorem adrift_round (hlawful : Lawful z.decoder future) (hcount : count ≤ 2 ^ 32)
    (hs : Adrift count kept s) (hround : inflateRound z s = .inl next) :
    Adrift count kept next := by
  obtain ⟨output, reply, hgrow, hcall, -, rfl⟩ := inflateRound_inl hround
  exact adrift_advance hcount hs hgrow (hcall ▸ (hlawful s.state s.input (s.room output)).output_le)

theorem adrift_last (hlawful : Lawful z.decoder future) (hcount : count ≤ 2 ^ 32)
    (hs : Adrift count kept s) {result : Except Exn Bytes}
    (hround : inflateRound z s = .inr result) :
    ∀ unpacked, result = .ok unpacked → unpacked.take count = kept := by
  intro unpacked hok
  subst hok
  rcases inflateRound_inr hround with ⟨e, -, herror⟩ | ⟨output, hgrow, hrest⟩
  · cases herror
  rcases hrest with ⟨-, -, herror⟩ | ⟨reply, hcall, hend⟩
  · cases herror
  rcases hend with ⟨-, hresult⟩ | ⟨code, -, herror⟩
  · have hadrift := adrift_advance hcount hs hgrow
      (hcall ▸ (hlawful s.state s.input (s.room output)).output_le)
    have hfar := hadrift.far
    rw [Except.ok.inj hresult, List.take_take, Nat.min_eq_left (by omega)]
    exact hadrift.head
  · cases herror

end Adrift

/-- zlib on one stream that it takes in one call, giving at most this portion there. -/
def oneStream (deflated : Bytes) (portion : ℕ) (x : Bytes) : Zlib where
  decoder := recorded UInt8
  inflateInit := some ⟨deflated, portion, x⟩
  nullData := true

theorem oneStream_inflates {deflated : Bytes} (hne : deflated ≠ []) (portion : ℕ) (x : Bytes) :
    (oneStream deflated portion x).Inflates recordedFuture ⟨deflated, portion, x⟩ deflated x := by
  refine ⟨recorded_lawful, rfl, ?_, ?_⟩
  · rw [recordedFuture, if_neg, if_pos List.nil_prefix]
    exact fun hbegins => hne (List.prefix_nil.mp hbegins)
  · exact if_pos (List.prefix_refl deflated)

section Large

variable {d : Deflater} {x deflated : Bytes} {portion avail₀ : ℕ}

theorem grow_start (hfits : deflated.length < 2 ^ 32) :
    grow (List.replicate (deflated.length * 4) 0) avail₀ =
      .ok (List.replicate (startSize deflated avail₀) 0) := by
  unfold grow startSize
  by_cases hzero : avail₀ = 0
  · have hmax : deflated.length * 4 * 2 ≤ maxSize := by
      unfold maxSize
      omega
    have hdouble : deflated.length * 4 + deflated.length * 4 = deflated.length * 8 := by omega
    rw [if_pos hzero, if_pos hzero, List.length_replicate, if_pos hmax,
      List.replicate_append_replicate, hdouble]
  · rw [if_neg hzero, if_neg hzero]

/-- The first call moves `outlen` by 2^32 at the least, whatever it gives. -/
theorem first_round (hne : deflated ≠ []) (hfits : deflated.length < 2 ^ 32)
    (hlarge : 2 ^ 32 ≤ startSize deflated avail₀)
    (hrest : min portion (startSize deflated avail₀ % 2 ^ 32) < x.length) :
    ∃ next, inflateRound (oneStream deflated portion x) ⟨⟨deflated, portion, x⟩, deflated,
        List.replicate (deflated.length * 4) 0, 0, avail₀⟩ = .inl next ∧
      ∀ count, Adrift count ((x.take (min portion (startSize deflated avail₀ % 2 ^ 32)) ++
        List.replicate (startSize deflated avail₀ -
          min portion (startSize deflated avail₀ % 2 ^ 32)) 0).take count) next := by
  generalize hL : startSize deflated avail₀ = size at hlarge hrest ⊢
  have hgrow : grow (List.replicate (deflated.length * 4) 0) avail₀ =
      .ok (List.replicate size 0) := hL ▸ grow_start hfits
  let start : Inflating (Record UInt8) :=
    ⟨⟨deflated, portion, x⟩, deflated, List.replicate (deflated.length * 4) 0, 0, avail₀⟩
  have hroom : start.room (List.replicate size 0) = size % 2 ^ 32 := by
    change ((List.replicate size (0 : UInt8)).length - 0) % 2 ^ 32 = _
    rw [List.length_replicate, Nat.sub_zero]
  have hcall : recordedCall start.state start.input (start.room (List.replicate size 0)) =
      ⟨.ok, { start.state with
          expected := [], rest := x.drop (min portion (size % 2 ^ 32)) }, deflated.length,
        x.take (min portion (size % 2 ^ 32))⟩ := by
    rw [hroom]
    change recordedCall ⟨deflated, portion, x⟩ deflated (size % 2 ^ 32) = _
    rw [recordedCall, if_neg hne, if_pos (List.prefix_refl deflated), if_neg (by simp only; omega)]
  generalize hgiven : min portion (size % 2 ^ 32) = given at hcall hrest ⊢
  have hround : inflateRound (oneStream deflated portion x) start = .inl (start.advance
      (List.replicate size 0) (recordedCall start.state start.input
        (start.room (List.replicate size 0)))) := by
    refine inflateRound_of_code (z := oneStream deflated portion x) hgrow ?_ (.inl ?_)
    · intro _ hnone
      have hlength := congrArg List.length hnone
      rw [List.length_replicate, List.length_nil] at hlength
      omega
    · change (recordedCall start.state start.input (start.room (List.replicate size 0))).code = _
      rw [hcall]
  refine ⟨_, hround, fun count => ?_⟩
  rw [hcall]
  have hlength : (x.take given).length = given := List.length_take_of_le hrest.le
  refine ⟨?_, ?_, ?_⟩
  · change 2 ^ 32 ≤ (List.replicate size (0 : UInt8)).length -
      (start.room (List.replicate size 0) - (x.take given).length)
    rw [List.length_replicate, hroom]
    omega
  · rw [advance_length]
    · exact Nat.sub_le _ _
    · change (x.take given).length ≤ _
      rw [hlength, hroom]
      omega
  · change (overwrite (List.replicate size 0) 0 (x.take given)).take count = _
    rw [overwrite, hlength, List.take_zero, List.drop_replicate, List.nil_append, Nat.zero_add]

/-- Then a reader gets what the first call has given and zeros after it. -/
theorem not_inflateUndoesDeflate (hd : d.Deflates x deflated) (hne : deflated ≠ [])
    (hshort : x.length < 2 ^ 30) (hlarge : 2 ^ 32 ≤ startSize deflated avail₀)
    (hbyte : ∃ b ∈ x.drop (min portion (startSize deflated avail₀ % 2 ^ 32)), b ≠ 0) :
    ¬ InflateUndoesDeflate d (oneStream deflated portion x) avail₀ x := by
  intro ⟨same, hdeflate, fuel, unpacked, hinflate, hreads⟩
  generalize hgiven : min portion (startSize deflated avail₀ % 2 ^ 32) = given at hbyte
  have hrest : given < x.length := by
    obtain ⟨b, hmem, -⟩ := hbyte
    by_contra hlong
    rw [List.drop_eq_nil_of_le (by omega)] at hmem
    cases hmem
  have hxne : x ≠ [] := List.length_pos_iff.mp (by omega)
  obtain rfl := Except.ok.inj ((deflate_ok hd hxne hshort).symm.trans hdeflate)
  have hfits : deflated.length < 2 ^ 32 := hd.fits.trans_lt (hd.bound_lt hshort)
  obtain ⟨next, hround, hadrift⟩ := first_round hne hfits hlarge (hgiven ▸ hrest)
  rw [hgiven] at hadrift
  have hsize : given ≤ startSize deflated avail₀ := by
    have hmod := Nat.mod_le (startSize deflated avail₀) (2 ^ 32)
    omega
  have hcount : x.length ≤ 2 ^ 32 := by omega
  have hhead : unpacked.take x.length = x.take given ++ List.replicate (x.length - given) 0 := by
    have hrun : Loop.Leaves (inflateRound (oneStream deflated portion x)) next (.ok unpacked) := by
      rw [inflate_eq_run rfl hfits] at hinflate
      exact Loop.Leaves.of_inl hround ⟨fuel, hinflate⟩
    have hkept := Loop.Leaves.post (fun _ _ => adrift_round recorded_lawful hcount)
      (fun _ _ hs => adrift_last recorded_lawful hcount hs) (hadrift x.length) hrun
    rw [hkept unpacked rfl, List.take_append, List.take_take, Nat.min_eq_right hrest.le,
      List.length_take_of_le hrest.le, List.take_replicate, Nat.min_eq_left (by omega)]
  -- one byte at a time is as good as any other way to read
  have hsizes : Positive (fun _ => 1) := fun _ => ⟨Nat.one_pos, Nat.one_lt_two_pow (by decide)⟩
  have hx : x = unpacked.take (unpacked.length % 2 ^ 32) :=
    Loop.Leaves.unique (hreads _ hsizes) (readsAs_take unpacked hsizes)
  have hbegins : x <+: unpacked := hx ▸ List.take_prefix _ _
  rw [← List.prefix_iff_eq_take.mp hbegins] at hhead
  obtain ⟨b, hmem, hb⟩ := hbyte
  have hsplit : x.take given ++ x.drop given =
      x.take given ++ List.replicate (x.length - given) 0 := by
    rw [List.take_append_drop]
    exact hhead
  rw [List.append_cancel_left hsplit] at hmem
  exact hb (List.eq_of_mem_replicate hmem)

end Large

/-- Over 0x200 bytes and under 2^30, `Inflate` gives every reader what was given to `Deflate`,
however zlib cuts its work, exactly when the deflated form is under 2^30 bytes; under 2^29 where
`avail_out` is 0 by chance. -/
theorem inflateUndoesDeflate_iff {d : Deflater} {x deflated : Bytes} (hd : d.Deflates x deflated)
    (hlong : 0x200 < x.length) (hshort : x.length < 2 ^ 30) (avail₀ : ℕ) :
    (∀ (z : Zlib) (future : z.decoder.State → Bytes → Bytes × Verdict) (fresh : z.decoder.State),
      z.Inflates future fresh deflated x → InflateUndoesDeflate d z avail₀ x) ↔
    startSize deflated avail₀ < 2 ^ 32 := by
  constructor
  · intro hundoes
    by_contra hlarge
    have hne : deflated ≠ [] := by
      intro hnone
      rw [hnone, startSize, List.length_nil, Nat.zero_mul] at hlarge
      exact hlarge (Nat.two_pow_pos 32)
    -- the first call takes the source and gives nothing yet
    apply not_inflateUndoesDeflate hd hne hshort (Nat.not_lt.mp hlarge) _
      (hundoes _ _ _ (oneStream_inflates hne 0 x))
    rw [Nat.zero_min, List.drop_zero]
    by_contra hzeros
    have hpacked := hd.zeros (fun b hmem => by_contra fun hb => hzeros ⟨b, hmem, hb⟩) hlong
    have hfits : startSize deflated avail₀ ≤ deflated.length * 8 := by
      unfold startSize
      split <;> omega
    omega
  · intro hsmall z future fresh hz
    have hne : x ≠ [] := List.length_pos_iff.mp (by omega)
    obtain ⟨fuel, hinflate⟩ := inflate_restores hz (by omega) hsmall
    refine ⟨deflated, deflate_ok hd hne hshort, fuel, x, hinflate, fun sizes hsizes => ?_⟩
    have hlength : x.length % 2 ^ 32 = x.length := Nat.mod_eq_of_lt (by omega)
    have hreads := readsAs_take x hsizes
    rwa [hlength, List.take_length] at hreads

/-! ## What zlib does not compress -/

def noiseAt (i : ℕ) : UInt8 :=
  let h := i * 0x9E3779B97F4A7C15 % 2 ^ 64
  UInt8.ofNat ((h ^^^ h / 2 ^ 32) * 0xBF58476D1CE4E5B9 / 2 ^ 56)

/-- Bytes in which zlib finds nothing to compress. -/
def noise (count : ℕ) : Bytes := (List.range count).map noiseAt

@[simp] theorem noise_length (count : ℕ) : (noise count).length = count := by
  simp [noise]

theorem noise_cons (count : ℕ) : noiseAt 0 :: (noise (count + 1)).tail = noise (count + 1) := by
  simp [noise, List.range_succ_eq_map]

/-- A stored block: the flag of the last one, the length and its complement, the bytes. -/
def storedBlock (last : Bool) (bytes : Bytes) : Bytes :=
  (if last then 1 else 0) :: UInt8.ofNat bytes.length :: UInt8.ofNat (bytes.length / 256) ::
    UInt8.ofNat (65535 - bytes.length) :: UInt8.ofNat ((65535 - bytes.length) / 256) :: bytes

/-- zlib closes a block after 16383 bytes that it has not compressed. -/
def storedBlocks (x : Bytes) : Bytes :=
  if _h : x.length ≤ 16383 then storedBlock true x
  else storedBlock false (x.take 16383) ++ storedBlocks (x.drop 16383)
termination_by x.length
decreasing_by
  rw [List.length_drop]
  omega

def adler32 (x : Bytes) : Bytes :=
  let (a, b) := x.foldl (fun (a, b) byte =>
    ((a + byte.toNat) % 65521, (b + a + byte.toNat) % 65521)) (1, 0)
  [UInt8.ofNat (b / 256), UInt8.ofNat b, UInt8.ofNat (a / 256), UInt8.ofNat a]

/-- The zlib form of bytes that are stored as they are. -/
def storedForm (x : Bytes) : Bytes := 0x78 :: 0x9C :: (storedBlocks x ++ adler32 x)

theorem storedBlocks_length (x : Bytes) (hne : x ≠ []) :
    (storedBlocks x).length = x.length + 5 * ((x.length + 16382) / 16383) := by
  have hpos := List.length_pos_iff.mpr hne
  induction x using storedBlocks.induct with
  | case1 x hle =>
      rw [storedBlocks, dif_pos hle]
      simp only [storedBlock, List.length_cons]
      omega
  | case2 x hlong ih =>
      have hdrop : 0 < (x.drop 16383).length := by
        rw [List.length_drop]
        omega
      rw [storedBlocks, dif_neg hlong, List.length_append,
        ih (List.length_pos_iff.mp hdrop) hdrop, List.length_drop]
      simp only [storedBlock, List.length_cons, List.length_take]
      omega

theorem storedForm_length (x : Bytes) (hne : x ≠ []) :
    (storedForm x).length = x.length + 5 * ((x.length + 16382) / 16383) + 6 := by
  simp only [storedForm, adler32, List.length_cons, List.length_append,
    storedBlocks_length x hne, List.length_nil]

/-- zlib on what it does not compress. -/
def storing : Deflater where
  deflateInit := true
  deflateBound count := count + count / 2 ^ 12 + count / 2 ^ 14 + count / 2 ^ 25 + 13
  deflate x room :=
    if (storedForm x).length ≤ room then (.streamEnd, storedForm x)
    else (.ok, (storedForm x).take room)

theorem mem_drop_noise {i count skipped : ℕ} (hle : skipped ≤ i) (hlt : i < count) :
    noiseAt i ∈ (noise count).drop skipped := by
  have hlast : i - skipped + skipped < (noise count).length := by
    rw [noise_length]
    omega
  refine List.mem_drop_iff_getElem.mpr ⟨i - skipped, hlast, ?_⟩
  simp [noise, hle]

theorem mem_noise {i count : ℕ} (hlt : i < count) : noiseAt i ∈ noise count :=
  List.mem_of_mem_drop (mem_drop_noise (Nat.zero_le i) hlt)

theorem storing_deflates {count : ℕ} (hcount : 1 < count)
    (hbound : 5 * ((count + 16382) / 16383) ≤
      count / 2 ^ 12 + count / 2 ^ 14 + count / 2 ^ 25 + 7) :
    storing.Deflates (noise count) (storedForm (noise count)) := by
  have hne : noise count ≠ [] := List.ne_nil_of_mem (mem_noise hcount)
  have hfits : (storedForm (noise count)).length ≤ storing.deflateBound (noise count).length := by
    rw [storedForm_length _ hne, noise_length]
    change _ ≤ count + count / 2 ^ 12 + count / 2 ^ 14 + count / 2 ^ 25 + 13
    omega
  refine ⟨rfl, ?_, if_pos hfits, hfits, ?_⟩
  · intro hshort
    rw [noise_length] at hshort ⊢
    change count + count / 2 ^ 12 + count / 2 ^ 14 + count / 2 ^ 25 + 13 < 2 ^ 32
    omega
  · intro hzeros
    exact absurd (hzeros _ (mem_noise hcount)) (by decide)

theorem inflateUndoesDeflate_iff_noise :
    InflateUndoesDeflate storing (oneStream (storedForm (noise 0x201)) 0x100 (noise 0x201)) 1
      (noise 0x201) := by
  have hne : storedForm (noise 0x201) ≠ [] := List.cons_ne_nil _ _
  apply (inflateUndoesDeflate_iff (storing_deflates (by decide) (by decide)) ?_ ?_ 1).mpr ?_ _ _ _
    (oneStream_inflates hne 0x100 (noise 0x201))
  · rw [noise_length]
    decide
  · rw [noise_length]
    decide
  · rw [startSize, storedForm_length _ (List.ne_nil_of_mem (mem_noise (i := 0) (by decide))),
      noise_length]
    decide

/-- Just under 2^30 bytes that zlib stores as they are: the vector starts with 2^32 + 1310840, and
the first call gives 1310840 of them. -/
theorem noise_not_restored :
    ¬ InflateUndoesDeflate storing
      (oneStream (storedForm (noise (2 ^ 30 - 1))) (2 ^ 32) (noise (2 ^ 30 - 1))) 1
      (noise (2 ^ 30 - 1)) := by
  have hne : storedForm (noise (2 ^ 30 - 1)) ≠ [] := List.cons_ne_nil _ _
  have hsize : startSize (storedForm (noise (2 ^ 30 - 1))) 1 = 2 ^ 32 + 1310840 := by
    rw [startSize, storedForm_length _ (List.ne_nil_of_mem (mem_noise (i := 0) (by decide))),
      noise_length, if_neg Nat.one_ne_zero]
    omega
  refine not_inflateUndoesDeflate (storing_deflates (by decide) (by decide)) hne ?_ ?_ ?_
  · rw [noise_length]
    decide
  · rw [hsize]
    decide
  · rw [hsize]
    refine ⟨noiseAt (2 ^ 30 - 2), mem_drop_noise ?_ ?_, by decide⟩
    · exact (Nat.min_le_right _ _).trans (by omega)
    · omega

end Palmira.Http
