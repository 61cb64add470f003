import Mathlib.Data.Int.Notation
import Mathlib.Data.List.Basic

/-!
# Streaming decoders

A decoder works off its input in calls, each with some room for output. What it
would give in the end, and how the input would turn out, does not depend on how
the calls cut the work; `Lawful` says so, and that only a call that can do
nothing at all answers that it needs a buffer.
-/

namespace StreamDecoder

variable {β : Type}

/-- How the decoding of an input turns out: the stream ends, it is malformed, or the input runs
out before either. -/
inductive Verdict where
  | ended
  | corrupt
  | starved
  deriving DecidableEq

/-- The answer of one call. -/
inductive Code where
  | ok
  | streamEnd
  | bufError
  | failed (code : ℤ)
  deriving DecidableEq

/-- One call takes `used` elements of its input and gives `output`. -/
structure Reply (S β : Type) where
  code : Code
  state : S
  used : ℕ
  output : List β

structure Decoder (β : Type) where
  State : Type
  call : State → List β → ℕ → Reply State β

/-- The laws of one call, over what each state would make of an input: the whole output and the
verdict. -/
structure LawfulReply {S : Type} (future : S → List β → List β × Verdict) (s : S)
    (input : List β) (room : ℕ) (reply : Reply S β) : Prop where
  used_le : reply.used ≤ input.length
  output_le : reply.output.length ≤ room
  ok : reply.code = .ok → 0 < reply.used + reply.output.length ∧
    future s input = (reply.output ++ (future reply.state (input.drop reply.used)).1,
      (future reply.state (input.drop reply.used)).2)
  streamEnd : reply.code = .streamEnd → future s input = (reply.output, .ended)
  bufError : reply.code = .bufError → reply.used = 0 ∧ reply.output = [] ∧ reply.state = s ∧
    (room = 0 ∨ future s input = ([], .starved))
  failed : ∀ code, reply.code = .failed code → (future s input).2 = .corrupt

def Lawful (d : Decoder β) (future : d.State → List β → List β × Verdict) : Prop :=
  ∀ s input room, LawfulReply future s input room (d.call s input room)

/-! ## What is left to do -/

section Measure

variable {S : Type} {future : S → List β → List β × Verdict} {s : S} {input : List β} {room : ℕ}
  {reply : Reply S β} (hreply : LawfulReply future s input room reply)

/-- Input left and output to come. -/
def toDo (future : S → List β → List β × Verdict) (s : S) (input : List β) : ℕ :=
  input.length + (future s input).1.length

include hreply

theorem LawfulReply.toDo_lt (hok : reply.code = .ok) :
    toDo future reply.state (input.drop reply.used) < toDo future s input := by
  obtain ⟨hprogress, hfuture⟩ := hreply.ok hok
  have hused := hreply.used_le
  have hlength : (future s input).1.length = reply.output.length +
      (future reply.state (input.drop reply.used)).1.length := by
    rw [hfuture, List.length_append]
  simp only [toDo, List.length_drop]
  omega

/-- A call that is not the last one gives a part of the output and leaves the rest. -/
theorem LawfulReply.future_eq (hcode : reply.code = .ok ∨ reply.code = .bufError) :
    future s input = (reply.output ++ (future reply.state (input.drop reply.used)).1,
      (future reply.state (input.drop reply.used)).2) := by
  rcases hcode with hok | hbuf
  · exact (hreply.ok hok).2
  · obtain ⟨hused, hnone, hstate, -⟩ := hreply.bufError hbuf
    rw [hused, hnone, hstate, List.drop_zero]
    rfl

/-- A starved decoder only ever takes more or needs a buffer. -/
theorem LawfulReply.code_of_starved (hstarved : (future s input).2 = .starved) :
    reply.code = .ok ∨ reply.code = .bufError := by
  cases hcode : reply.code with
  | ok => exact .inl rfl
  | bufError => exact .inr rfl
  | streamEnd =>
      rw [hreply.streamEnd hcode] at hstarved
      cases hstarved
  | failed code =>
      rw [hreply.failed code hcode] at hstarved
      cases hstarved

end Measure

/-! ## A decoder of one stream -/

section Scripted

variable [DecidableEq β]

/-- Takes the next expected element, or fails; its output needs room. -/
def scriptedCall : List (β × Option β) → List β → ℕ → Reply (List (β × Option β)) β
  | [], _, _ => ⟨.streamEnd, [], 0, []⟩
  | next :: rest, [], _ => ⟨.bufError, next :: rest, 0, []⟩
  | next :: rest, x :: _, room =>
      if x ≠ next.1 then ⟨.failed (-3), next :: rest, 0, []⟩
      else if next.2.toList.length ≤ room then
        ⟨if rest.isEmpty then .streamEnd else .ok, rest, 1, next.2.toList⟩
      else ⟨.bufError, next :: rest, 0, []⟩

/-- A decoder that knows one stream: each element with what it gives. -/
def scripted (β : Type) [DecidableEq β] : Decoder β where
  State := List (β × Option β)
  call := scriptedCall

def scriptedFuture : List (β × Option β) → List β → List β × Verdict
  | [], _ => ([], .ended)
  | _ :: _, [] => ([], .starved)
  | next :: rest, x :: input =>
      if x ≠ next.1 then ([], .corrupt)
      else (next.2.toList ++ (scriptedFuture rest input).1, (scriptedFuture rest input).2)

theorem scripted_lawful : Lawful (scripted β) scriptedFuture := by
  intro script input room
  change LawfulReply scriptedFuture script input room (scriptedCall script input room)
  match script, input with
  | [], input =>
      exact ⟨Nat.zero_le _, Nat.zero_le _, nofun, fun _ => rfl, nofun, nofun⟩
  | next :: rest, [] =>
      exact ⟨Nat.zero_le _, Nat.zero_le _, nofun, nofun, fun _ => ⟨rfl, rfl, rfl, .inr rfl⟩, nofun⟩
  | next :: rest, x :: more =>
      by_cases hexpected : x ≠ next.1
      · have hcorrupt : scriptedFuture (next :: rest) (x :: more) = ([], .corrupt) := by
          rw [scriptedFuture, if_pos hexpected]
        rw [scriptedCall, if_pos hexpected]
        exact ⟨Nat.zero_le _, Nat.zero_le _, nofun, nofun, nofun, fun _ _ => by rw [hcorrupt]⟩
      have hfuture : scriptedFuture (next :: rest) (x :: more) =
          (next.2.toList ++ (scriptedFuture rest more).1, (scriptedFuture rest more).2) := by
        rw [scriptedFuture, if_neg hexpected]
      rw [scriptedCall, if_neg hexpected]
      by_cases hroom : next.2.toList.length ≤ room
      · rw [if_pos hroom]
        cases rest with
        | nil =>
            refine ⟨Nat.le_add_left _ _, hroom, nofun, fun _ => ?_, nofun, nofun⟩
            rw [hfuture]
            simp [scriptedFuture]
        | cons second others =>
            refine ⟨Nat.le_add_left _ _, hroom, fun _ => ⟨Nat.lt_of_lt_of_le Nat.one_pos
              (Nat.le_add_right _ _), hfuture⟩, nofun, nofun, nofun⟩
      · rw [if_neg hroom]
        refine ⟨Nat.zero_le _, Nat.zero_le _, nofun, nofun, ?_, nofun⟩
        refine fun _ => ⟨rfl, rfl, rfl, .inl ?_⟩
        -- an element gives one element at most
        have hone : next.2.toList.length ≤ 1 := by cases next.2 <;> simp
        omega

end Scripted

/-! ## A decoder that takes its whole source at once -/

section Recorded

variable [DecidableEq β]

/-- What the decoder still expects of its source, how much it gives in the call that takes it, and
what it has left to give. -/
structure Record (β : Type) where
  expected : List β
  portion : ℕ
  rest : List β

/-- Takes the source in one call and gives at most a portion there; gives what there is room for
later on. -/
def recordedCall (s : Record β) (input : List β) (room : ℕ) : Reply (Record β) β :=
  if s.expected = [] then
    if s.rest.length ≤ room then ⟨.streamEnd, s, 0, s.rest⟩
    else if room = 0 then ⟨.bufError, s, 0, []⟩
    else ⟨.ok, { s with expected := [], rest := s.rest.drop room }, 0, s.rest.take room⟩
  else if s.expected <+: input then
    if s.rest.length ≤ min s.portion room then ⟨.streamEnd, s, s.expected.length, s.rest⟩
    else ⟨.ok, { s with expected := [], rest := s.rest.drop (min s.portion room) },
      s.expected.length, s.rest.take (min s.portion room)⟩
  else if input <+: s.expected then ⟨.bufError, s, 0, []⟩
  else ⟨.failed (-3), s, 0, []⟩

/-- A decoder that knows one stream. -/
def recorded (β : Type) [DecidableEq β] : Decoder β where
  State := Record β
  call := recordedCall

def recordedFuture (s : Record β) (input : List β) : List β × Verdict :=
  if s.expected <+: input then (s.rest, .ended)
  else if input <+: s.expected then ([], .starved)
  else ([], .corrupt)

/-- What a decoder gives now and what it gives later make up the whole. -/
theorem recordedFuture_give {s : Record β} {input : List β}
    (hended : recordedFuture s input = (s.rest, .ended)) (given : ℕ) (more : List β) :
    recordedFuture s input = (s.rest.take given ++
        (recordedFuture { s with expected := [], rest := s.rest.drop given } more).1,
      (recordedFuture { s with expected := [], rest := s.rest.drop given } more).2) := by
  have hlater : recordedFuture { s with expected := [], rest := s.rest.drop given } more =
      (s.rest.drop given, .ended) := if_pos List.nil_prefix
  rw [hended, hlater, List.take_append_drop]

theorem recordedCall_lawful (s : Record β) (input : List β) (room : ℕ) :
    LawfulReply recordedFuture s input room (recordedCall s input room) := by
  unfold recordedCall
  by_cases htaken : s.expected = []
  · have hended : recordedFuture s input = (s.rest, .ended) := by
      rw [recordedFuture, htaken, if_pos List.nil_prefix]
    rw [if_pos htaken]
    split
    next hfits => exact ⟨Nat.zero_le _, hfits, nofun, fun _ => hended, nofun, nofun⟩
    next hlong =>
      split
      next hnone =>
        exact ⟨Nat.zero_le _, Nat.zero_le _, nofun, nofun,
          fun _ => ⟨rfl, rfl, rfl, .inl hnone⟩, nofun⟩
      next hroom =>
        refine ⟨Nat.zero_le _, List.length_take_le _ _, fun _ => ⟨?_, ?_⟩, nofun, nofun, nofun⟩
        · simp only [List.length_take]
          omega
        · exact recordedFuture_give hended room _
  rw [if_neg htaken]
  by_cases hbegins : s.expected <+: input
  · have hended : recordedFuture s input = (s.rest, .ended) := if_pos hbegins
    have hpos := List.length_pos_iff.mpr htaken
    have hportion := Nat.min_le_right s.portion room
    rw [if_pos hbegins]
    split
    next hfits =>
      exact ⟨hbegins.length_le, Nat.le_trans hfits hportion, nofun, fun _ => hended, nofun, nofun⟩
    next hlong =>
      refine ⟨hbegins.length_le, ?_, fun _ => ⟨?_, ?_⟩, nofun, nofun, nofun⟩
      · exact Nat.le_trans (List.length_take_le _ _) hportion
      · exact Nat.add_pos_left hpos _
      · exact recordedFuture_give hended _ _
  rw [if_neg hbegins]
  by_cases hshort : input <+: s.expected
  · have hstarved : recordedFuture s input = ([], .starved) := by
      rw [recordedFuture, if_neg hbegins, if_pos hshort]
    rw [if_pos hshort]
    exact ⟨Nat.zero_le _, Nat.zero_le _, nofun, nofun,
      fun _ => ⟨rfl, rfl, rfl, .inr hstarved⟩, nofun⟩
  · have hcorrupt : recordedFuture s input = ([], .corrupt) := by
      rw [recordedFuture, if_neg hbegins, if_neg hshort]
    rw [if_neg hshort]
    exact ⟨Nat.zero_le _, Nat.zero_le _, nofun, nofun, nofun, fun _ _ => by rw [hcorrupt]⟩

theorem recorded_lawful : Lawful (recorded β) recordedFuture := recordedCall_lawful

end Recorded

end StreamDecoder
