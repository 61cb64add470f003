import Mathlib.Data.Nat.Basic
import Mathlib.Tactic.Ring
import Palmira.Core.Exception
import Palmira.Foundation.Loop
import Palmira.Foundation.StreamDecoder
import Palmira.Http.Message

/-!
# Unpacking

`Inflate` over a source stream: the source is read whole, and the output vector
doubles when `inflate` has filled it. zlib is a streaming decoder. The counters
of `z_stream` are 32 bits wide, `size_t` is 64.
-/

namespace Palmira.Http

open StreamDecoder

/-- What the code uses of zlib, and how the vector stands to it. `inflateInit` gives a fresh state,
or it is not `Z_OK`; `inflate` answers `Z_STREAM_ERROR` to a null `next_out`, and `nullData` tells
whether `data()` of an empty vector is null. -/
structure Zlib where
  decoder : Decoder UInt8
  inflateInit : Option decoder.State
  nullData : Bool

/-- `std::vector<char>::max_size()` -/
def maxSize : ℕ := 2 ^ 63 - 1

/-- `while ( (cbread = src->Get( buffer, 0x400 )) > 0 )` -/
def readSource (src : Bytes) : Bytes :=
  if _h : src = [] then []
  else src.take 0x400 ++ readSource (src.drop 0x400)
termination_by src.length
decreasing_by
  have hpos := List.length_pos_iff.mpr _h
  rw [List.length_drop]
  omega

@[simp] theorem readSource_eq (src : Bytes) : readSource src = src := by
  induction src using readSource.induct with
  | case1 => simp [readSource]
  | case2 src hne ih => rw [readSource, dif_neg hne, ih, List.take_append_drop]

/-- `inflate( &stream, Z_NO_FLUSH )` between two calls: the decoder, `next_in`, the output vector,
`outlen` and `stream.avail_out`. -/
structure Inflating (S : Type) where
  state : S
  input : Bytes
  output : Bytes
  outlen : ℕ
  availOut : ℕ

/-- Writes the bytes over the vector from `outlen` on. -/
def overwrite (output : Bytes) (outlen : ℕ) (written : Bytes) : Bytes :=
  output.take outlen ++ written ++ output.drop (outlen + written.length)

theorem overwrite_length {output : Bytes} {outlen : ℕ} {written : Bytes}
    (hfits : written.length ≤ output.length - outlen) :
    (overwrite output outlen written).length = output.length := by
  simp only [overwrite, List.length_append, List.length_take, List.length_drop]
  omega

/-- The vector before a call: doubled when there is no room left. -/
def grow (output : Bytes) (availOut : ℕ) : Except Exn Bytes :=
  if availOut = 0 then
    if output.length * 2 ≤ maxSize then .ok (output ++ List.replicate output.length 0)
    else .error (.lengthError "vector::_M_default_append")
  else .ok output

/-- `stream.avail_out = static_cast<uInt>( output.size() - outlen )` -/
def Inflating.room {S : Type} (s : Inflating S) (output : Bytes) : ℕ :=
  (output.length - s.outlen) % 2 ^ 32

/-- The state after a call on this output vector; `outlen = output.size() - stream.avail_out`. -/
def Inflating.advance {S : Type} (s : Inflating S) (output : Bytes) (reply : Reply S UInt8) :
    Inflating S :=
  { state := reply.state
    input := s.input.drop reply.used
    output := overwrite output s.outlen reply.output
    outlen := output.length - (s.room output - reply.output.length)
    availOut := s.room output - reply.output.length }

/-- One round of the loop. It goes on after `Z_OK` and after `Z_BUF_ERROR`. -/
def inflateRound (z : Zlib) (s : Inflating z.decoder.State) :
    Inflating z.decoder.State ⊕ Except Exn Bytes :=
  match grow s.output s.availOut with
  | .error e => .inr (.error e)
  | .ok output =>
      -- a null `next_out` is `Z_STREAM_ERROR`, whatever the decoder is at
      if z.nullData && output.isEmpty then .inr (.error (.runtimeError "data decompression error"))
      else
        let reply := z.decoder.call s.state s.input (s.room output)
        let next := s.advance output reply
        match reply.code with
        | .ok => .inl next
        | .bufError => .inl next
        | .streamEnd => .inr (.ok (next.output.take next.outlen))
        | .failed _ => .inr (.error (.runtimeError "data decompression error"))

/-- The state before the first round. `avail_out` has not been set by then: it is whatever `avail₀`
was in memory. -/
def inflateStart {S : Type} (source : Bytes) (fresh : S) (avail₀ : ℕ) :
    Except Exn (Inflating S) :=
  if source.length * 4 % 2 ^ 64 ≤ maxSize then .ok
    { state := fresh
      input := source.take (source.length % 2 ^ 32)
      output := List.replicate (source.length * 4 % 2 ^ 64) 0
      outlen := 0
      availOut := avail₀ }
  else .error (.lengthError "vector::_M_default_append")

/-- `Inflate( mtc::IByteStream* src )`, with a budget of rounds for its loop. -/
def inflate (z : Zlib) (avail₀ fuel : ℕ) (src : Option Bytes) : Option (Except Exn Bytes) :=
  match src with
  | none => some (.error (.invalidArgument "logic_error: null source stream"))
  | some src =>
      match z.inflateInit with
      | none => some (.error (.runtimeError "could not inflateInit"))
      | some fresh =>
          match inflateStart (readSource src) fresh avail₀ with
          | .error e => some (.error e)
          | .ok start => Loop.run (inflateRound z) fuel start

/-- A larger budget does what a smaller one does. -/
theorem inflate_mono {z : Zlib} {avail₀ fuel more : ℕ} (hle : fuel ≤ more) {src : Option Bytes}
    {result : Except Exn Bytes} (hrun : inflate z avail₀ fuel src = some result) :
    inflate z avail₀ more src = some result := by
  cases src with
  | none => exact hrun
  | some source =>
      simp only [inflate] at hrun ⊢
      cases hinit : z.inflateInit with
      | none =>
          rw [hinit] at hrun
          exact hrun
      | some fresh =>
          simp only [hinit] at hrun ⊢
          cases hstart : inflateStart (readSource source) fresh avail₀ with
          | error e =>
              rw [hstart] at hrun
              exact hrun
          | ok start =>
              rw [hstart] at hrun
              exact Loop.run_mono hle hrun

/-- The budget decides whether there is a result, not which. -/
theorem inflate_unique {z : Zlib} {avail₀ fuel fuel' : ℕ} {src : Option Bytes}
    {result result' : Except Exn Bytes} (hrun : inflate z avail₀ fuel src = some result)
    (hrun' : inflate z avail₀ fuel' src = some result') : result = result' := by
  have hmax := inflate_mono (Nat.le_max_left fuel fuel') hrun
  rw [inflate_mono (Nat.le_max_right fuel fuel') hrun'] at hmax
  exact (Option.some.inj hmax).symm

/-- The call returns or throws. -/
def InflateEnds (z : Zlib) (avail₀ : ℕ) (src : Option Bytes) : Prop :=
  ∃ fuel result, inflate z avail₀ fuel src = some result

/-- The decoder runs out of source before the stream ends or proves malformed. An empty source does
not get as far as that where it leaves `next_out` null. -/
def Starves (z : Zlib) (future : z.decoder.State → Bytes → Bytes × Verdict)
    (src : Option Bytes) : Prop :=
  ∃ source fresh, src = some source ∧ z.inflateInit = some fresh ∧
    (z.nullData = true → source ≠ []) ∧
    (future fresh (source.take (source.length % 2 ^ 32))).2 = .starved

theorem inflateStart_eq {S : Type} (fresh : S) {avail₀ : ℕ} {source : Bytes}
    (hfits : source.length < 2 ^ 32) :
    inflateStart source fresh avail₀ =
      .ok ⟨fresh, source, List.replicate (source.length * 4) 0, 0, avail₀⟩ := by
  have hsize : source.length * 4 % 2 ^ 64 = source.length * 4 := Nat.mod_eq_of_lt (by omega)
  have hmax : source.length * 4 ≤ maxSize := by
    unfold maxSize
    omega
  rw [inflateStart, hsize, if_pos hmax, Nat.mod_eq_of_lt hfits, List.take_length]

theorem inflateEnds_iff_loop {z : Zlib} {avail₀ : ℕ} {source : Bytes} {fresh : z.decoder.State}
    {start : Inflating z.decoder.State} (hinit : z.inflateInit = some fresh)
    (hstart : inflateStart source fresh avail₀ = .ok start) :
    InflateEnds z avail₀ (some source) ↔ Loop.Ends (inflateRound z) start := by
  simp only [InflateEnds, inflate, hinit, readSource_eq, hstart]
  exact exists_comm

/-! ## What a round can do -/

section Round

variable {z : Zlib} {s next : Inflating z.decoder.State}

/-- A round that goes on has grown the vector as needed and had `Z_OK` or `Z_BUF_ERROR`. -/
theorem inflateRound_inl (hround : inflateRound z s = .inl next) :
    ∃ output reply, grow s.output s.availOut = .ok output ∧
      reply = z.decoder.call s.state s.input (s.room output) ∧
      (reply.code = .ok ∨ reply.code = .bufError) ∧ next = s.advance output reply := by
  unfold inflateRound at hround
  cases hgrow : grow s.output s.availOut with
  | error e =>
      simp only [hgrow] at hround
      cases hround
  | ok output =>
      simp only [hgrow] at hround
      split at hround
      next => cases hround
      next =>
        refine ⟨output, z.decoder.call s.state s.input (s.room output), rfl, rfl, ?_⟩
        cases hcode : (z.decoder.call s.state s.input (s.room output)).code with
        | ok =>
            simp only [hcode] at hround
            exact ⟨.inl rfl, (Sum.inl.inj hround).symm⟩
        | bufError =>
            simp only [hcode] at hround
            exact ⟨.inr rfl, (Sum.inl.inj hround).symm⟩
        | streamEnd =>
            simp only [hcode] at hround
            cases hround
        | failed code =>
            simp only [hcode] at hround
            cases hround

theorem inflateRound_of_code {output : Bytes} (hgrow : grow s.output s.availOut = .ok output)
    (hdata : z.nullData = true → output ≠ [])
    (hcode : (z.decoder.call s.state s.input (s.room output)).code = .ok ∨
      (z.decoder.call s.state s.input (s.room output)).code = .bufError) :
    inflateRound z s =
      .inl (s.advance output (z.decoder.call s.state s.input (s.room output))) := by
  have hcalled : ¬ (z.nullData && output.isEmpty) = true := by
    rw [Bool.and_eq_true, List.isEmpty_iff]
    exact fun h => hdata h.1 h.2
  unfold inflateRound
  rcases hcode with hcode | hcode
  · simp only [hgrow, if_neg hcalled, hcode]
  · simp only [hgrow, if_neg hcalled, hcode]

/-- The last round throws, or it had `Z_STREAM_END`. -/
theorem inflateRound_inr {result : Except Exn Bytes} (hround : inflateRound z s = .inr result) :
    (∃ e, grow s.output s.availOut = .error e ∧ result = .error e) ∨
    ∃ output, grow s.output s.availOut = .ok output ∧
      ((z.nullData = true ∧ output = [] ∧
          result = .error (.runtimeError "data decompression error")) ∨
        ∃ reply, reply = z.decoder.call s.state s.input (s.room output) ∧
          ((reply.code = .streamEnd ∧ result =
              .ok ((s.advance output reply).output.take (s.advance output reply).outlen)) ∨
            ∃ code, reply.code = .failed code ∧
              result = .error (.runtimeError "data decompression error"))) := by
  unfold inflateRound at hround
  cases hgrow : grow s.output s.availOut with
  | error e =>
      simp only [hgrow] at hround
      exact .inl ⟨e, rfl, (Sum.inr.inj hround).symm⟩
  | ok output =>
      simp only [hgrow] at hround
      refine .inr ⟨output, rfl, ?_⟩
      split at hround
      next hnull =>
        rw [Bool.and_eq_true, List.isEmpty_iff] at hnull
        exact .inl ⟨hnull.1, hnull.2, (Sum.inr.inj hround).symm⟩
      next =>
        refine .inr ⟨z.decoder.call s.state s.input (s.room output), rfl, ?_⟩
        cases hcode : (z.decoder.call s.state s.input (s.room output)).code with
        | ok =>
            simp only [hcode] at hround
            cases hround
        | bufError =>
            simp only [hcode] at hround
            cases hround
        | streamEnd =>
            simp only [hcode] at hround
            exact .inl ⟨rfl, (Sum.inr.inj hround).symm⟩
        | failed code =>
            simp only [hcode] at hround
            exact .inr ⟨code, rfl, (Sum.inr.inj hround).symm⟩

/-- An empty source with a null `next_out` is thrown at in the first round. -/
theorem inflateRound_null (hnull : z.nullData = true) (hempty : s.output = []) :
    inflateRound z s = .inr (.error (.runtimeError "data decompression error")) := by
  have hgrow : grow s.output s.availOut = .ok [] := by
    rw [hempty, grow]
    split
    · exact if_pos (Nat.zero_le maxSize)
    · rfl
  simp only [inflateRound, hgrow, hnull]
  rfl

/-- The vector keeps its length when there is room, and doubles otherwise. -/
theorem grow_length {output output' : Bytes} {availOut : ℕ}
    (hgrow : grow output availOut = .ok output') :
    (availOut ≠ 0 ∧ output' = output) ∨
      (availOut = 0 ∧ output'.length = 2 * output.length ∧ output'.length ≤ maxSize) := by
  unfold grow at hgrow
  split at hgrow
  next hzero =>
    split at hgrow
    next hle =>
      have heq := Except.ok.inj hgrow
      refine .inr ⟨hzero, ?_, ?_⟩
      · rw [← heq, List.length_append, List.length_replicate]
        omega
      · rw [← heq, List.length_append, List.length_replicate]
        omega
    next => cases hgrow
  next hne => exact .inl ⟨hne, (Except.ok.inj hgrow).symm⟩

/-- A vector that stays under 2^32 bytes does not shrink. -/
theorem grow_small {output : Bytes} {availOut : ℕ} (hsize : output.length < 2 ^ 32)
    (hdouble : availOut = 0 → 2 * output.length < 2 ^ 32) :
    ∃ output', grow output availOut = .ok output' ∧ output.length ≤ output'.length ∧
      output'.length < 2 ^ 32 := by
  unfold grow
  by_cases hzero : availOut = 0
  · have hlt := hdouble hzero
    have hmax : output.length * 2 ≤ maxSize := by
      unfold maxSize
      omega
    refine ⟨output ++ List.replicate output.length 0, by rw [if_pos hzero, if_pos hmax], ?_, ?_⟩
    · rw [List.length_append]
      exact Nat.le_add_right _ _
    · rw [List.length_append, List.length_replicate]
      omega
  · exact ⟨output, by rw [if_neg hzero], Nat.le_refl _, hsize⟩

/-- Growing leaves what has been written. -/
theorem grow_take {output output' : Bytes} {availOut count : ℕ}
    (hgrow : grow output availOut = .ok output') (hle : count ≤ output.length) :
    output'.take count = output.take count := by
  unfold grow at hgrow
  split at hgrow
  next =>
    split at hgrow
    next =>
      rw [← Except.ok.inj hgrow, List.take_append_of_le_length hle]
    next => cases hgrow
  next => rw [Except.ok.inj hgrow]

theorem overwrite_take {output written : Bytes} {outlen count : ℕ} (hle : count ≤ outlen)
    (houtlen : outlen ≤ output.length) :
    (overwrite output outlen written).take count = output.take count := by
  have hwritten : (output.take outlen).length = outlen := List.length_take_of_le houtlen
  rw [overwrite, List.append_assoc, List.take_append_of_le_length (by omega), List.take_take,
    Nat.min_eq_left hle]

theorem overwrite_take_end {output written : Bytes} {outlen : ℕ}
    (houtlen : outlen ≤ output.length) :
    (overwrite output outlen written).take (outlen + written.length) =
      output.take outlen ++ written := by
  have hlength : (output.take outlen ++ written).length = outlen + written.length := by
    rw [List.length_append, List.length_take_of_le houtlen]
  rw [overwrite, List.take_append_of_le_length (by omega), ← hlength, List.take_length]

/-- `outlen` never goes back, and stays within the vector. -/
theorem advance_outlen_le {S : Type} {s : Inflating S} {output : Bytes} {reply : Reply S UInt8}
    (hle : s.outlen ≤ output.length) :
    s.outlen ≤ (s.advance output reply).outlen ∧
      (s.advance output reply).outlen ≤ output.length := by
  have hroom : s.room output ≤ output.length - s.outlen := Nat.mod_le _ _
  constructor
  · change s.outlen ≤ output.length - (s.room output - reply.output.length)
    omega
  · exact Nat.sub_le _ _

/-- In small sizes `outlen` moves by what the call has given. -/
theorem advance_outlen {S : Type} {s : Inflating S} {output : Bytes} {reply : Reply S UInt8}
    (hlt : output.length < 2 ^ 32) (hle : s.outlen ≤ output.length)
    (hfits : reply.output.length ≤ s.room output) :
    (s.advance output reply).outlen = s.outlen + reply.output.length := by
  have hroom : s.room output = output.length - s.outlen := by
    apply Nat.mod_eq_of_lt
    omega
  change output.length - (s.room output - reply.output.length) = _
  omega

/-- In small sizes the output of a call stands behind what was written before. -/
theorem advance_written {S : Type} {s : Inflating S} {output : Bytes} {reply : Reply S UInt8}
    (hlt : output.length < 2 ^ 32) (hle : s.outlen ≤ output.length)
    (hfits : reply.output.length ≤ s.room output) :
    (s.advance output reply).output.take (s.advance output reply).outlen =
      output.take s.outlen ++ reply.output := by
  rw [advance_outlen hlt hle hfits]
  exact overwrite_take_end hle

theorem advance_length {S : Type} {s : Inflating S} {output : Bytes} {reply : Reply S UInt8}
    (hfits : reply.output.length ≤ s.room output) :
    (s.advance output reply).output.length = output.length := by
  apply overwrite_length
  exact hfits.trans (Nat.mod_le _ _)

end Round

/-! ## A source that does not starve -/

section Ends

variable {z : Zlib} {future : z.decoder.State → Bytes → Bytes × Verdict}
  {s next : Inflating z.decoder.State}

/-- The decoder gets to an end on what is left, and the vector is not empty. -/
structure Nourished (future : z.decoder.State → Bytes → Bytes × Verdict)
    (s : Inflating z.decoder.State) : Prop where
  verdict : (future s.state s.input).2 ≠ .starved
  pos : 1 ≤ s.output.length
  size : s.output.length ≤ maxSize

/-- Work left for the decoder, growth left for the vector, and one more round for a call that finds
no room at first. -/
def roundsLeft (future : z.decoder.State → Bytes → Bytes × Verdict)
    (s : Inflating z.decoder.State) : ℕ :=
  2 * (toDo future s.state s.input + (2 ^ 63 - s.output.length)) + (if s.availOut = 0 then 0 else 1)

/-- What a call leaves for the decoder: less after `Z_OK`, the same after `Z_BUF_ERROR`, which a
nourished decoder gives for want of room only. -/
theorem advance_toDo (hverdict : (future s.state s.input).2 ≠ .starved) {output : Bytes}
    {reply : Reply z.decoder.State UInt8}
    (hreply : LawfulReply future s.state s.input (s.room output) reply)
    (hcode : reply.code = .ok ∨ reply.code = .bufError) :
    (future (s.advance output reply).state (s.advance output reply).input).2 ≠ .starved ∧
      (toDo future (s.advance output reply).state (s.advance output reply).input <
          toDo future s.state s.input ∨
        toDo future (s.advance output reply).state (s.advance output reply).input =
          toDo future s.state s.input ∧ s.room output = 0) := by
  have hfuture := hreply.future_eq hcode
  rcases hcode with hok | hbuf
  · constructor
    · rw [hfuture] at hverdict
      exact hverdict
    · exact .inl (hreply.toDo_lt hok)
  · -- `Z_BUF_ERROR` moves nothing, so what is to do is the same
    obtain ⟨hused, -, hstate, hwhy⟩ := hreply.bufError hbuf
    have hsame : (s.advance output reply).state = s.state ∧
        (s.advance output reply).input = s.input := by
      refine ⟨hstate, ?_⟩
      change s.input.drop reply.used = s.input
      rw [hused, List.drop_zero]
    rw [hsame.1, hsame.2]
    refine ⟨hverdict, .inr ⟨rfl, hwhy.resolve_right ?_⟩⟩
    intro hstarved
    rw [hstarved] at hverdict
    exact hverdict rfl

theorem nourished_round (hlawful : Lawful z.decoder future) (hs : Nourished future s)
    (hround : inflateRound z s = .inl next) :
    Nourished future next ∧ roundsLeft future next < roundsLeft future s := by
  obtain ⟨output, reply, hgrow, hcall, hcode, rfl⟩ := inflateRound_inl hround
  have hreply : LawfulReply future s.state s.input (s.room output) reply :=
    hcall ▸ hlawful s.state s.input (s.room output)
  have hlength := advance_length hreply.output_le
  obtain ⟨hverdict, hless⟩ := advance_toDo hs.verdict hreply hcode
  have hpos := hs.pos
  have hsize := hs.size
  unfold maxSize at hsize
  have hflag : ∀ availOut : ℕ, (if availOut = 0 then 0 else 1) ≤ 1 := by
    intro availOut
    split <;> omega
  -- a vector with room keeps its size; one without room is doubled
  rcases grow_length hgrow with ⟨hne, rfl⟩ | ⟨hzero, hdouble, hmax⟩
  · refine ⟨⟨hverdict, hlength ▸ hpos, hlength ▸ hs.size⟩, ?_⟩
    simp only [roundsLeft, hlength, if_neg hne]
    rcases hless with hlt | ⟨hsame, hroom⟩
    · have hle := hflag (s.advance s.output reply).availOut
      omega
    · -- no room at first: the next round starts with `avail_out` at 0 and doubles the vector
      have hnone : (s.advance s.output reply).availOut = 0 := by
        change s.room s.output - _ = 0
        omega
      rw [hnone, hsame]
      simp
  · unfold maxSize at hmax
    refine ⟨⟨hverdict, by omega, by unfold maxSize; omega⟩, ?_⟩
    simp only [roundsLeft, hlength, hdouble, hzero, if_true]
    have hle := hflag (s.advance output reply).availOut
    omega

theorem inflate_ends (hlawful : Lawful z.decoder future)
    (hfresh : ∀ fresh, z.inflateInit = some fresh → future fresh [] = ([], .starved))
    (avail₀ : ℕ) (src : Option Bytes) (hfed : ¬ Starves z future src) :
    InflateEnds z avail₀ src := by
  cases src with
  | none => exact ⟨0, _, rfl⟩
  | some source =>
      cases hinit : z.inflateInit with
      | none => exact ⟨0, .error (.runtimeError "could not inflateInit"), by simp [inflate, hinit]⟩
      | some fresh =>
          by_cases hnull : z.nullData = true ∧ source = []
          · obtain ⟨hnull, rfl⟩ := hnull
            rw [inflateEnds_iff_loop hinit rfl]
            exact ⟨_, Loop.leaves_of_inr (inflateRound_null hnull rfl)⟩
          have hverdict : (future fresh (source.take (source.length % 2 ^ 32))).2 ≠ .starved :=
            fun hstarved => hfed ⟨source, fresh, rfl, hinit, not_and.mp hnull, hstarved⟩
          -- an empty input starves, so the lengths are not multiples of 2^32
          have hne : source.length % 2 ^ 32 ≠ 0 := by
            intro hzero
            rw [hzero, List.take_zero, hfresh fresh hinit] at hverdict
            exact hverdict rfl
          cases hstart : inflateStart source fresh avail₀ with
          | error e => exact ⟨0, .error e, by simp [inflate, hinit, hstart]⟩
          | ok start =>
              rw [inflateEnds_iff_loop hinit hstart]
              apply Loop.ends_of_measure (fun _ _ => nourished_round hlawful)
              unfold inflateStart at hstart
              split at hstart
              next hsize =>
                obtain rfl := Except.ok.inj hstart
                refine ⟨hverdict, ?_, ?_⟩
                · rw [List.length_replicate]
                  omega
                · rw [List.length_replicate]
                  exact hsize
              next => cases hstart

end Ends

/-! ## A source that starves -/

section Hungry

variable {z : Zlib} {future : z.decoder.State → Bytes → Bytes × Verdict}
  {s : Inflating z.decoder.State} {total : ℕ}

/-- The decoder will need more than what is left, and the vector stays small. -/
structure Hungry (future : z.decoder.State → Bytes → Bytes × Verdict) (total : ℕ)
    (s : Inflating z.decoder.State) : Prop where
  data : z.nullData = true → s.output ≠ []
  verdict : (future s.state s.input).2 = .starved
  produced : s.outlen + (future s.state s.input).1.length = total
  outlen_le : s.outlen ≤ s.output.length
  size : s.output.length < 2 ^ 32
  double : s.availOut = 0 → 2 * s.output.length < 2 ^ 32

theorem hungry_round (hlawful : Lawful z.decoder future) (htotal : total < 2 ^ 31)
    (hs : Hungry future total s) :
    ∃ next, inflateRound z s = .inl next ∧ Hungry future total next := by
  obtain ⟨output, hgrow, hle, hlt⟩ := grow_small hs.size hs.double
  have hreply := hlawful s.state s.input (s.room output)
  have hcode := hreply.code_of_starved hs.verdict
  have hdata : z.nullData = true → output ≠ [] := by
    intro hnull hempty
    rw [hempty, List.length_nil, Nat.le_zero, List.length_eq_zero_iff] at hle
    exact hs.data hnull hle
  refine ⟨_, inflateRound_of_code hgrow hdata hcode, ?_⟩
  generalize z.decoder.call s.state s.input (s.room output) = reply at hreply hcode
  have hlength := advance_length hreply.output_le
  have hproduced := hs.produced
  have houtlen := hs.outlen_le
  have hmoved := advance_outlen hlt (houtlen.trans hle) hreply.output_le
  have hroom : s.room output = output.length - s.outlen := Nat.mod_eq_of_lt (by omega)
  have hfits := hreply.output_le
  have hverdict := hs.verdict
  rw [hreply.future_eq hcode] at hproduced hverdict
  rw [List.length_append] at hproduced
  refine ⟨?_, hverdict, ?_, ?_, ?_, ?_⟩
  · intro hnull hempty
    rw [hempty, List.length_nil, eq_comm, List.length_eq_zero_iff] at hlength
    exact hdata hnull hlength
  · rw [hmoved]
    change s.outlen + reply.output.length +
      (future reply.state (s.input.drop reply.used)).1.length = total
    omega
  · rw [hmoved, hlength]
    omega
  · rw [hlength]
    exact hlt
  · intro hzero
    change s.room output - reply.output.length = 0 at hzero
    rw [hlength]
    omega

theorem not_inflate_ends (hlawful : Lawful z.decoder future) (avail₀ : ℕ) {source : Bytes}
    {fresh : z.decoder.State} (hinit : z.inflateInit = some fresh)
    (hdata : z.nullData = true → source ≠ []) (hsource : source.length < 2 ^ 29)
    (hgiven : (future fresh source).1.length < 2 ^ 31)
    (hstarved : (future fresh source).2 = .starved) : ¬ InflateEnds z avail₀ (some source) := by
  rw [inflateEnds_iff_loop hinit (inflateStart_eq fresh (by omega))]
  apply Loop.not_ends_of_invariant (fun _ => hungry_round hlawful hgiven)
  refine ⟨?_, hstarved, Nat.zero_add _, Nat.zero_le _, ?_, fun _ => ?_⟩
  · intro hnull hempty
    have hnone := congrArg List.length hempty
    rw [List.length_replicate, List.length_nil] at hnone
    exact hdata hnull (List.length_eq_zero_iff.mp (by omega))
  · rw [List.length_replicate]
    omega
  · rw [List.length_replicate]
    omega

end Hungry

/-- `Inflate` ends on every source that does not starve the decoder, and on no other one of less
than 2^29 bytes that gives less than 2^31. -/
theorem inflateEnds_iff_not_starves (z : Zlib)
    (future : z.decoder.State → Bytes → Bytes × Verdict) (hlawful : Lawful z.decoder future)
    (hfresh : ∀ fresh, z.inflateInit = some fresh → future fresh [] = ([], .starved))
    (avail₀ : ℕ) :
    (∀ src, ¬ Starves z future src → InflateEnds z avail₀ src) ∧
    ∀ source fresh, z.inflateInit = some fresh → source.length < 2 ^ 29 →
      (future fresh source).1.length < 2 ^ 31 →
      (InflateEnds z avail₀ (some source) ↔ ¬ Starves z future (some source)) := by
  refine ⟨inflate_ends hlawful hfresh avail₀, ?_⟩
  intro source fresh hinit hsource hgiven
  refine ⟨?_, inflate_ends hlawful hfresh avail₀ (some source)⟩
  rintro hends ⟨same, state, hsame, hstate, hdata, hstarved⟩
  cases hsame
  rw [hinit] at hstate
  cases hstate
  have hlength : source.length % 2 ^ 32 = source.length := Nat.mod_eq_of_lt (by omega)
  rw [hlength, List.take_length] at hstarved
  exact not_inflate_ends hlawful avail₀ hinit hdata hsource hgiven hstarved hends

/-- zlib on one stream: the deflated form of the single byte 'a'. -/
def deflatedA : Zlib where
  decoder := scripted UInt8
  inflateInit := some [(0x78, none), (0x9C, none), (0x4B, none), (0x04, some 0x61), (0x00, none),
    (0x00, none), (0x62, none), (0x00, none), (0x62, none)]
  nullData := true

theorem inflateEnds_iff_not_starves_deflatedA :
    InflateEnds deflatedA 0 (some [0x78, 0x9C, 0x4B, 0x04, 0x00, 0x00, 0x62, 0x00, 0x62]) := by
  have hends := inflateEnds_iff_not_starves deflatedA scriptedFuture scripted_lawful
    (by intro fresh hinit; cases hinit; rfl) 0
  apply hends.1
  rintro ⟨source, fresh, hsource, hinit, -, hstarved⟩
  cases hsource
  cases hinit
  revert hstarved
  decide

/-- The first byte of a stream and no more: the loop calls `inflate` for ever. -/
theorem inflate_truncated_spins :
    ¬ ∃ fuel result, inflate deflatedA 0 fuel (some [0x78]) = some result :=
  not_inflate_ends scripted_lawful 0 rfl nofun (by decide) (by decide) (by decide)

end Palmira.Http
