import Palmira.Readers.Minizip
import Palmira.Foundation.SeekableFile
import Mathlib.Data.BitVec

/-!
# The input as a file

`minizip` reads the input through functions on a structure `STM`: a buffer, a position
and the last error. The position is an `int64_t` and the arguments are `uLong`s.
-/

namespace Palmira.Minizip

open SeekableFile

abbrev uLong := BitVec 64

/-- `IByteBuffer`. No object is larger than a difference of pointers can tell. -/
structure ByteBuffer where
  bytes : Bytes
  length_lt : bytes.length < 2 ^ 63

namespace ByteBuffer

def GetLen (data : ByteBuffer) : uLong := BitVec.ofNat 64 data.bytes.length

/-- `memcpy( ptr, GetPtr() + cpos, cbr )`; what is outside the buffer has no meaning. -/
def copy (data : ByteBuffer) (cpos cbr : BitVec 64) : Option Bytes :=
  if 0 ≤ cpos.toInt ∧ cpos.toInt + cbr.toNat ≤ data.bytes.length then
    some ((data.bytes.drop cpos.toInt.toNat).take cbr.toNat)
  else none

theorem toNat_GetLen (data : ByteBuffer) : data.GetLen.toNat = data.bytes.length := by
  have hlt := data.length_lt
  rw [GetLen, BitVec.toNat_ofNat]
  exact Nat.mod_eq_of_lt (by omega)

end ByteBuffer

structure STM where
  data : ByteBuffer
  cpos : BitVec 64 := 0
  nerr : ℤ := 0

def EINVAL : ℤ := 22
def ERANGE : ℤ := 34
def SEEK_SET : ℤ := 0
def SEEK_CUR : ℤ := 1
def SEEK_END : ℤ := 2

def zip_open_file (name : ByteBuffer) : STM := { data := name }

/-- What the call has put at `ptr`; its length is what the call returns. -/
def zip_read_file (mem : STM) (len : uLong) : Option (Bytes × STM) :=
  let left := mem.data.GetLen - mem.cpos
  let cbr := if len < left then len else left
  let after := { mem with nerr := 0, cpos := mem.cpos + cbr }
  if 0 < cbr then (mem.data.copy mem.cpos cbr).map (·, after) else some ([], after)

def zip_tell_file (mem : STM) : ℤ × STM := (mem.cpos.toInt, { mem with nerr := 0 })

def zip_seek_file (mem : STM) (pos32 : uLong) (origin : ℤ) : ℤ × STM :=
  if origin = SEEK_SET then
    if mem.data.GetLen < pos32 then (-1, { mem with nerr := ERANGE })
    else (0, { mem with cpos := pos32 })
  else if origin = SEEK_CUR then (0, mem)
  else if origin = SEEK_END then (0, { mem with cpos := mem.data.GetLen })
  else (-1, { mem with nerr := EINVAL })

def zip_error_file (mem : STM) : ℤ × STM := (mem.nerr, { mem with nerr := 0 })

/-- A call of one of the functions on an open `STM`. -/
inductive FileCall where
  | read (len : uLong)
  | seek (pos32 : uLong) (origin : ℤ)
  | tell

/-- The answer to a call. An error is what `zip_error_file` says next. -/
def STM.answer (mem : STM) : FileCall → Option (Reply UInt8 × STM)
  | .read len => (zip_read_file mem len).map fun (bytes, mem') => (.items bytes, mem')
  | .seek pos32 origin =>
      let (ret, mem') := zip_seek_file mem pos32 origin
      some (if ret = 0 then .moved else .rejected (zip_error_file mem').1, mem')
  | .tell => some (.position (zip_tell_file mem).1, (zip_tell_file mem).2)

/-- What `SEEK_SET`, `SEEK_CUR` and `SEEK_END` stand for. -/
def originOf (origin : ℤ) : Option Origin :=
  if origin = SEEK_SET then some .start
  else if origin = SEEK_CUR then some .current
  else if origin = SEEK_END then some .last
  else none

def FileCall.meaning : FileCall → Call
  | .read len => .read len.toNat
  | .seek pos32 origin => .seek pos32.toNat (originOf origin)
  | .tell => .tell

/-- The buffer is the content and `cpos` the position. -/
def STM.Stands (mem : STM) (f : File UInt8) : Prop :=
  f.content = mem.data.bytes ∧ mem.cpos.toInt = f.pos

/-- A seek from the position or from the end is by nothing. -/
def FileCall.SeeksByNothing : FileCall → Prop
  | .seek pos32 origin => origin = SEEK_CUR ∨ origin = SEEK_END → pos32 = 0
  | _ => True

namespace STM

variable {mem : STM} {f : File UInt8}

theorem Stands.toNat_cpos (hstands : mem.Stands f) : mem.cpos.toNat = f.pos := by
  have hpos := hstands.2
  rw [BitVec.toInt_eq_toNat_cond] at hpos
  split at hpos <;> omega

theorem toInt_eq_of_toNat_eq {cpos : BitVec 64} {pos : ℕ} (hpos : cpos.toNat = pos)
    (hlt : pos < 2 ^ 63) : cpos.toInt = pos := by
  rw [BitVec.toInt_eq_toNat_cond, if_pos (by omega), hpos]

theorem stands_of_toNat {mem : STM} {f : File UInt8} (hcontent : f.content = mem.data.bytes)
    (hpos : mem.cpos.toNat = f.pos) : mem.Stands f := by
  refine ⟨hcontent, toInt_eq_of_toNat_eq hpos ?_⟩
  have hle := f.pos_le
  rw [hcontent] at hle
  exact lt_of_le_of_lt hle mem.data.length_lt

theorem toNat_left (hstands : mem.Stands f) :
    (mem.data.GetLen - mem.cpos).toNat = f.content.length - f.pos := by
  have hle := f.pos_le
  have hlt := mem.data.length_lt
  have hlen := mem.data.toNat_GetLen
  have hpos := hstands.toNat_cpos
  rw [hstands.1] at hle ⊢
  rw [BitVec.toNat_sub_of_le (by rw [BitVec.le_def]; omega)]
  omega

/-- The number of bytes a read copies. -/
theorem toNat_cbr (hstands : mem.Stands f) (len : uLong) :
    (if len < mem.data.GetLen - mem.cpos then len else mem.data.GetLen - mem.cpos).toNat =
      (f.taken len.toNat).length := by
  have hleft := toNat_left hstands
  rw [File.length_taken]
  split
  next hlt =>
      rw [BitVec.lt_def] at hlt
      omega
  next hge =>
      rw [BitVec.lt_def] at hge
      omega

/-- A read copies the bytes at the position, as many as there are, and moves past them. -/
theorem zip_read_file_eq (hstands : mem.Stands f) (len : uLong) :
    ∃ mem' : STM, zip_read_file mem len = some (f.taken len.toNat, mem') ∧
      mem'.Stands (f.advance len.toNat) := by
  have hcbr := toNat_cbr hstands len
  have hpos := hstands.toNat_cpos
  have hbound := f.pos_add_length_taken_le len.toNat
  set cbr := if len < mem.data.GetLen - mem.cpos then len else mem.data.GetLen - mem.cpos
    with hcbrdef
  refine ⟨{ mem with nerr := 0, cpos := mem.cpos + cbr }, ?_, ?_⟩
  · have htake : f.taken len.toNat = f.upcoming.take cbr.toNat := by
      rw [hcbr, File.taken, List.length_take, ← List.take_eq_take_min]
    simp only [zip_read_file, ← hcbrdef]
    split
    next hpositive =>
        rw [ByteBuffer.copy, if_pos, Option.map_some, htake, hstands.2, Int.toNat_natCast,
          File.upcoming, hstands.1]
        rw [hstands.2, ← hstands.1]
        omega
    next hzero =>
        have hnone : cbr.toNat = 0 := by
          rw [BitVec.lt_def] at hzero
          simpa using hzero
        rw [htake, hnone, List.take_zero]
  · refine stands_of_toNat (f := f.advance len.toNat) hstands.1 ?_
    rw [BitVec.toNat_add, hpos, hcbr]
    apply Nat.mod_eq_of_lt
    have hlt := mem.data.length_lt
    rw [hstands.1] at hbound
    omega

/-- A seek to a place in the buffer. -/
theorem stands_moveTo (hcontent : f.content = mem.data.bytes) {pos : ℕ}
    (hpos : pos ≤ f.content.length) {cpos : BitVec 64} (hcpos : cpos.toNat = pos) :
    ({ mem with cpos := cpos } : STM).Stands (f.moveTo pos hpos) :=
  stands_of_toNat hcontent hcpos

abbrev Answers (f : File UInt8) (mem : STM) (call : FileCall) (f' : File UInt8) (mem' : STM) :
    Prop := SeekableFile.Answers (2 ^ 64) answer FileCall.meaning Stands f mem call f' mem'

theorem answers_read (hstands : mem.Stands f) (len : uLong) :
    ∃ f' mem', Answers f mem (.read len) f' mem' := by
  obtain ⟨mem', hread, hstands'⟩ := zip_read_file_eq hstands len
  refine ⟨_, mem', .items (f.taken len.toNat), ?_, .read f len.toNat, hstands'⟩
  rw [answer, hread, Option.map_some]

theorem answers_tell (hstands : mem.Stands f) : ∃ f' mem', Answers f mem .tell f' mem' := by
  refine ⟨f, (zip_tell_file mem).2, .position f.pos, ?_, .tell f, hstands⟩
  rw [answer, zip_tell_file, hstands.2]

/-- A seek from the start goes where it is told or says that this is outside. -/
theorem answers_set (hstands : mem.Stands f) (pos32 : uLong) :
    ∃ f' mem', Answers f mem (.seek pos32 SEEK_SET) f' mem' := by
  by_cases hlt : mem.data.GetLen < pos32
  · refine ⟨f, { mem with nerr := ERANGE }, .rejected ERANGE, ?_, .rejected f _ _ (by decide),
      hstands⟩
    rw [answer, zip_seek_file, if_pos rfl, if_pos hlt]
    rfl
  · have hmod : (f.base .start + pos32.toNat) % 2 ^ 64 = pos32.toNat := by
      rw [File.base, Nat.zero_add]
      exact Nat.mod_eq_of_lt pos32.isLt
    have hpos : (f.base .start + pos32.toNat) % 2 ^ 64 ≤ f.content.length := by
      rw [BitVec.lt_def, mem.data.toNat_GetLen] at hlt
      rw [hmod, hstands.1]
      omega
    refine ⟨_, { mem with cpos := pos32 }, .moved, ?_, .moved f _ .start hpos,
      stands_moveTo hstands.1 hpos hmod.symm⟩
    rw [answer, zip_seek_file, if_pos rfl, if_neg hlt]
    rfl

/-- A seek from the position or from the end is as allowed only when it is by nothing. -/
theorem answers_ignored_iff (hstands : mem.Stands f) {pos32 : uLong} {origin : ℤ} (place : Origin)
    (horigin : originOf origin = some place) (mem' : STM)
    (hseek : zip_seek_file mem pos32 origin = (0, mem')) (hdata : mem'.data = mem.data)
    (hcpos : mem'.cpos.toNat = f.base place) (hbase : f.base place ≤ f.content.length) :
    (∃ f₁ mem₁, Answers f mem (.seek pos32 origin) f₁ mem₁) ↔ pos32 = 0 := by
  have hanswer : mem.answer (.seek pos32 origin) = some (.moved, mem') := by
    rw [answer, hseek]
    rfl
  have hlt : f.base place < 2 ^ 64 := by
    have hlength := mem.data.length_lt
    rw [← hstands.1] at hlength
    omega
  constructor
  · rintro ⟨f₁, mem₁, reply, hreply, hallows, hstands₁⟩
    rw [hanswer] at hreply
    cases hreply
    rw [FileCall.meaning, horigin] at hallows
    have hmoved := hallows.moved_pos
    have hpos := hstands₁.toNat_cpos
    rw [hcpos, hmoved] at hpos
    have hzero := offset_eq_zero_of_add_mod_eq hlt pos32.isLt hpos.symm
    exact BitVec.eq_of_toNat_eq hzero
  · rintro rfl
    have hmod : (f.base place + (0 : uLong).toNat) % 2 ^ 64 = f.base place := by
      exact Nat.mod_eq_of_lt hlt
    have hpos : (f.base place + (0 : uLong).toNat) % 2 ^ 64 ≤ f.content.length := by
      rw [hmod]
      exact hbase
    refine ⟨f.moveTo _ hpos, mem', .moved, hanswer, ?_, ?_⟩
    · rw [FileCall.meaning, horigin]
      exact .moved f _ place hpos
    · refine stands_of_toNat (f := f.moveTo _ hpos) ?_ (hcpos.trans hmod.symm)
      rw [hdata]
      exact hstands.1

/-- Any other origin is rejected. -/
theorem answers_unknown (hstands : mem.Stands f) (pos32 : uLong) {origin : ℤ}
    (hset : origin ≠ SEEK_SET) (hcur : origin ≠ SEEK_CUR) (hend : origin ≠ SEEK_END) :
    ∃ f' mem', Answers f mem (.seek pos32 origin) f' mem' := by
  refine ⟨f, { mem with nerr := EINVAL }, .rejected EINVAL, ?_, .rejected f _ _ (by decide),
    hstands⟩
  rw [answer, zip_seek_file, if_neg hset, if_neg hcur, if_neg hend]
  rfl

theorem answers_seek_iff (hstands : mem.Stands f) (pos32 : uLong) (origin : ℤ) :
    (∃ f' mem', Answers f mem (.seek pos32 origin) f' mem') ↔
      (origin = SEEK_CUR ∨ origin = SEEK_END → pos32 = 0) := by
  by_cases hcur : origin = SEEK_CUR
  · subst hcur
    have hposition : mem.cpos.toNat = f.base .current := hstands.toNat_cpos
    rw [answers_ignored_iff hstands .current rfl mem rfl rfl hposition f.pos_le]
    exact ⟨fun hzero _ => hzero, fun hzero => hzero (.inl rfl)⟩
  by_cases hend : origin = SEEK_END
  · subst hend
    have hlength : mem.data.GetLen.toNat = f.base .last := by
      rw [mem.data.toNat_GetLen, File.base, hstands.1]
    rw [answers_ignored_iff hstands .last rfl { mem with cpos := mem.data.GetLen } rfl rfl hlength
      le_rfl]
    exact ⟨fun hzero _ => hzero, fun hzero => hzero (.inr rfl)⟩
  · refine iff_of_true ?_ (fun hor => absurd hor (not_or.mpr ⟨hcur, hend⟩))
    by_cases hset : origin = SEEK_SET
    · subst hset
      exact answers_set hstands pos32
    · exact answers_unknown hstands pos32 hset hcur hend

/-- One call is answered as a file answers it exactly when it does not seek from the position or the
end by something. -/
theorem answers_iff (hstands : mem.Stands f) (call : FileCall) :
    (∃ f' mem', Answers f mem call f' mem') ↔ call.SeeksByNothing := by
  cases call with
  | read len => exact iff_of_true (answers_read hstands len) trivial
  | seek pos32 origin => exact answers_seek_iff hstands pos32 origin
  | tell => exact iff_of_true (answers_tell hstands) trivial

theorem stands_zip_open_file (data : ByteBuffer) :
    (zip_open_file data).Stands (File.opened data.bytes) := ⟨rfl, rfl⟩

/-- The calls on an opened buffer are answered as the calls on a file at its start. -/
def BehavesAsFile (data : ByteBuffer) (calls : List FileCall) : Prop :=
  Follows (2 ^ 64) answer FileCall.meaning Stands (.opened data.bytes) (zip_open_file data) calls

end STM

/-- The input behaves as a file over the calls made on it exactly when none of them seeks from the
position or from the end by something. -/
theorem behavesAsFile_iff (data : ByteBuffer) (calls : List FileCall) :
    STM.BehavesAsFile data calls ↔ ∀ call ∈ calls, call.SeeksByNothing := by
  refine follows_iff_forall ?_ (STM.stands_zip_open_file data) calls
  intro f mem call hstands
  exact STM.answers_iff hstands call

/-- `SEEK_CUR` by one, which is accepted and does not move. -/
theorem seek_from_position_ignored :
    ¬ ∀ (data : ByteBuffer) (calls : List FileCall), STM.BehavesAsFile data calls := by
  intro hall
  obtain ⟨f', mem', ⟨reply, hreply, hallows, hstands⟩, -⟩ :=
    hall ⟨[1, 2], by decide⟩ [.seek 1 SEEK_CUR]
  cases hreply
  have hpos := hstands.2
  rw [hallows.moved_pos] at hpos
  exact absurd hpos (by decide)

end Palmira.Minizip
