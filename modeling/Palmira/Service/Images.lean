import Palmira.Foundation.Loop
import Palmira.Http.Deflate
import Palmira.Service.Store

/-!
# Document images

An insertion stores the image of a document for quotations, compressed under "ip"
where that pays and raw under "im" otherwise, with its formats under "ft". A search
reads both back; the image is unpacked into a vector that grows until it is large
enough. Sizes are 64 bits wide in `ZipBuf` and 32 bits wide in the reader.
-/

namespace Palmira.Service

open Http

variable {β T B F C : Type}

/-! ## What an insertion stores -/

namespace Structo

variable (lib : Structo β T B F C)

/-- The quotation image of these formats and this document image. -/
def quoter (formats limage : List Int8) : Zmap :=
  match lib.zipBuf limage with
  | some packed => (Zmap.put [] "ft" (.arrayChar formats)).put "ip" (.arrayChar packed)
  | none => (Zmap.put [] "ft" (.arrayChar formats)).put "im" (.arrayChar limage)

/-- The bundle is the quotation image of what the packers give. -/
theorem pack_eq_quoter (body : B) :
    lib.pack body = do
      let formats ← lib.packFormats body
      let contents ← lib.contents body
      return (lib.serialize (lib.quoter formats (lib.packImage body)), contents) := by
  unfold pack quoter
  cases hzip : lib.zipBuf (lib.packImage body) with
  | some packed => simp only [hzip]
  | none => simp only [hzip]

/-- The form of the image that is stored. -/
def stored (limage : List Int8) : List Int8 := (lib.zipBuf limage).getD limage

variable (formats limage : List Int8)

theorem quoter_ft : (lib.quoter formats limage).get "ft" = some (.arrayChar formats) := by
  unfold quoter
  split
  · rw [Zmap.get_put_of_ne _ _ (by decide), Zmap.get_put_self]
  · rw [Zmap.get_put_of_ne _ _ (by decide), Zmap.get_put_self]

theorem quoter_ip : (lib.quoter formats limage).get "ip" = (lib.zipBuf limage).map .arrayChar := by
  unfold quoter
  split
  next packed hzip => rw [Zmap.get_put_self, hzip, Option.map_some]
  next hzip =>
    rw [Zmap.get_put_of_ne _ _ (by decide), Zmap.get_put_of_ne _ _ (by decide), hzip]
    rfl

theorem quoter_im (hraw : lib.zipBuf limage = none) :
    (lib.quoter formats limage).get "im" = some (.arrayChar limage) := by
  unfold quoter
  rw [hraw, Zmap.get_put_self]

/-! ## Compression that pays -/

/-- The compressed form is stored only if it is 100 bytes shorter, and the stored image is not
longer than the raw one. -/
def Pays : Prop :=
  (∀ packed, (lib.quoter formats limage).get "ip" = some (.arrayChar packed) →
    packed.length + 100 ≤ limage.length) ∧
  (lib.stored limage).length ≤ limage.length

variable {lib limage}

theorem zipBuf_eq_some_iff {packed : List Int8} :
    lib.zipBuf limage = some packed ↔ lib.compress limage = some packed ∧
      packed.length ≤ (limage.length + 2 ^ 64 - 100) % 2 ^ 64 := by
  unfold zipBuf
  cases lib.compress limage with
  | none => exact ⟨nofun, fun h => nomatch h.1⟩
  | some compressed =>
      simp only [Option.ite_none_left_eq_some, Nat.not_lt, Option.some.injEq]
      constructor
      · intro ⟨hfits, hsame⟩
        exact ⟨hsame, hsame ▸ hfits⟩
      · intro ⟨hsame, hfits⟩
        exact ⟨hsame ▸ hfits, hsame⟩

/-- Under 100 bytes the subtraction wraps, and the compressed form passes whatever its length. -/
theorem zipBuf_of_short (hshort : limage.length < 100) {packed : List Int8}
    (hcompress : lib.compress limage = some packed) (hpacked : packed.length ≤ maxSize) :
    lib.zipBuf limage = some packed := by
  unfold maxSize at hpacked
  exact zipBuf_eq_some_iff.mpr ⟨hcompress, by omega⟩

/-- From 100 bytes on the bound of `ZipBuf` is what it is meant to be. -/
theorem zipBuf_pays (hcond : 100 ≤ limage.length ∨ lib.compress limage = none)
    (hsize : limage.length < 2 ^ 64) {packed : List Int8} (hzip : lib.zipBuf limage = some packed) :
    packed.length + 100 ≤ limage.length := by
  obtain ⟨hcompress, hfits⟩ := zipBuf_eq_some_iff.mp hzip
  rcases hcond with hlong | hnone
  · omega
  · rw [hnone] at hcompress
    cases hcompress

theorem pays_iff (formats : List Int8) (hsize : limage.length < 2 ^ 64)
    (hpacked : ∀ packed, lib.compress limage = some packed → packed.length ≤ maxSize) :
    lib.Pays formats limage ↔ 100 ≤ limage.length ∨ lib.compress limage = none := by
  constructor
  · intro ⟨hshorter, _⟩
    by_contra hboth
    rw [not_or, Nat.not_le] at hboth
    obtain ⟨packed, hcompress⟩ := Option.ne_none_iff_exists'.mp hboth.2
    have hzip := zipBuf_of_short hboth.1 hcompress (hpacked packed hcompress)
    have hbound := hshorter packed (by rw [quoter_ip, hzip, Option.map_some])
    omega
  · intro hcond
    constructor
    · intro packed hget
      rw [quoter_ip, Option.map_eq_some_iff] at hget
      obtain ⟨stored, hzip, heq⟩ := hget
      obtain rfl := Zval.arrayChar.inj heq
      exact zipBuf_pays hcond hsize hzip
    · unfold stored
      cases hzip : lib.zipBuf limage with
      | none => exact Nat.le_refl _
      | some packed =>
          have hbound := zipBuf_pays hcond hsize hzip
          change packed.length ≤ limage.length
          omega

end Structo

/-! ## What a search reads -/

/-- The answer of `uncompress` into some room: the whole, or that the room is too small, or another
code. -/
inductive Uncompressed where
  | ok (data : List Int8)
  | bufError
  | failed (code : ℤ)

/-- What the reader uses of `mtc` and zlib: `zmap::serial::find` gives the value under a key. -/
structure Reader (β : Type) where
  find : List β → String → Option Zval
  uncompress : List Int8 → ℕ → Uncompressed

/-- Finding undoes serialization; `uncompress` gives the original, or `Z_BUF_ERROR` when the room is
smaller than that; and deflate packs no more than 2^11 bytes into one. -/
structure Reader.Inverts (r : Reader β) (lib : Structo β T B F C) : Prop where
  find_serialize : ∀ zmap key, r.find (lib.serialize zmap) key = Zmap.get zmap key
  uncompress_compress : ∀ limage packed, lib.compress limage = some packed →
    ∀ room, r.uncompress packed room = if room < limage.length then .bufError else .ok limage
  ratio : ∀ limage packed, lib.compress limage = some packed →
    limage.length ≤ 2 ^ 11 * packed.length

/-- `*data++ != z_array_char`, and `::FetchFrom( data, size )` with `uint32_t size`. -/
def fetchSpan (val : Zval) : Except Exn (List Int8) :=
  match val with
  | .arrayChar xs => .ok (xs.take (xs.length % 2 ^ 32))
  | _ => .error (.runtimeError "invalid object package format")

namespace Reader

variable (r : Reader β)

/-- One round of `Unpack` with a vector of this size, which may grow by half. -/
def unpackRound (src : List Int8) (size : ℕ) : ℕ ⊕ List Int8 :=
  match r.uncompress src size with
  | .bufError => .inl (size * 3 % 2 ^ 64 / 2)
  | .ok data => .inr data
  | .failed _ => .inr []

/-- `Unpack`, with a budget of rounds for its loop. -/
def unpack (fuel : ℕ) (src : List Int8) : Option (Except Exn (List Int8)) :=
  if maxSize < src.length * 2 % 2 ^ 64 then
    some (.error (.lengthError "cannot create std::vector larger than max_size()"))
  else (Loop.run (r.unpackRound src) fuel (src.length * 2 % 2 ^ 64)).map .ok

/-- The markup and the text that `quotate` has for the quotation machine. -/
def quotate (fuel : ℕ) (bundle : List β) : Option (Except Exn (List Int8 × List Int8)) :=
  let mkup := match r.find bundle "ft" with
    | some data => fetchSpan data
    | none => .ok []
  match mkup with
  | .error e => some (.error e)
  | .ok mkup =>
      match r.find bundle "ip" with
      | some data =>
          match fetchSpan data with
          | .error e => some (.error e)
          | .ok src => (r.unpack fuel src).map (Except.map (mkup, ·))
      | none =>
          match r.find bundle "im" with
          | some data => some ((fetchSpan data).map (mkup, ·))
          | none => some (.ok (mkup, []))

/-- A search decodes the bundle of an insertion to its formats and its image. -/
def ReadsBack (lib : Structo β T B F C) (formats limage : List Int8) : Prop :=
  ∃ fuel, r.quotate fuel (lib.serialize (lib.quoter formats limage)) =
    some (.ok (formats, limage))

end Reader

theorem fetchSpan_arrayChar {xs : List Int8} (hshort : xs.length < 2 ^ 32) :
    fetchSpan (.arrayChar xs) = .ok xs := by
  rw [fetchSpan, Nat.mod_eq_of_lt hshort, List.take_length]

section Unpacked

variable {lib : Structo β T B F C} {r : Reader β} {limage packed : List Int8}

theorem unpackRound_of_short (hr : r.Inverts lib) (hcompress : lib.compress limage = some packed)
    {size : ℕ} (hless : size < limage.length) :
    r.unpackRound packed size = .inl (size * 3 % 2 ^ 64 / 2) := by
  rw [Reader.unpackRound, hr.uncompress_compress limage packed hcompress, if_pos hless]

theorem unpackRound_of_fits (hr : r.Inverts lib) (hcompress : lib.compress limage = some packed)
    {size : ℕ} (hfits : ¬ size < limage.length) : r.unpackRound packed size = .inr limage := by
  rw [Reader.unpackRound, hr.uncompress_compress limage packed hcompress, if_neg hfits]

/-- From two on, three halves are more. -/
theorem unpackRound_grows (hr : r.Inverts lib) (hcompress : lib.compress limage = some packed)
    (hshort : packed.length < 2 ^ 32) {size next : ℕ} (hsize : limage = [] ∨ 2 ≤ size)
    (hround : r.unpackRound packed size = .inl next) :
    (limage = [] ∨ 2 ≤ next) ∧ limage.length - next < limage.length - size := by
  have hratio := hr.ratio limage packed hcompress
  by_cases hless : size < limage.length
  · rw [unpackRound_of_short hr hcompress hless] at hround
    have htwo : 2 ≤ size := hsize.resolve_left fun hnil => by
      rw [hnil] at hless
      exact absurd hless (Nat.not_lt_zero _)
    have hwrap : size * 3 % 2 ^ 64 = size * 3 := Nat.mod_eq_of_lt (by omega)
    rw [hwrap] at hround
    obtain rfl := Sum.inl.inj hround
    exact ⟨.inr (by omega), by omega⟩
  · rw [unpackRound_of_fits hr hcompress hless] at hround
    cases hround

theorem unpackRound_last (hr : r.Inverts lib) (hcompress : lib.compress limage = some packed)
    {size : ℕ} {result : List Int8} (hround : r.unpackRound packed size = .inr result) :
    result = limage := by
  by_cases hless : size < limage.length
  · rw [unpackRound_of_short hr hcompress hless] at hround
    cases hround
  · rw [unpackRound_of_fits hr hcompress hless] at hround
    exact (Sum.inr.inj hround).symm

/-- The vector grows until the image fits. -/
theorem unpack_ends (hr : r.Inverts lib) (hcompress : lib.compress limage = some packed)
    (hshort : packed.length < 2 ^ 32) : ∃ fuel, r.unpack fuel packed = some (.ok limage) := by
  have hratio := hr.ratio limage packed hcompress
  have hsize : packed.length * 2 % 2 ^ 64 = packed.length * 2 := Nat.mod_eq_of_lt (by omega)
  have hmax : ¬ maxSize < packed.length * 2 := by
    unfold maxSize
    omega
  have hstart : limage = [] ∨ 2 ≤ packed.length * 2 := by
    by_cases hnil : packed.length = 0
    · rw [hnil, Nat.mul_zero, Nat.le_zero] at hratio
      exact .inl (List.length_eq_zero_iff.mp hratio)
    · omega
  obtain ⟨result, ⟨fuel, hrun⟩, rfl⟩ := Loop.leaves_of_measure
    (fun _ _ => unpackRound_grows hr hcompress hshort)
    (fun _ _ _ => unpackRound_last hr hcompress) hstart
  refine ⟨fuel, ?_⟩
  rw [Reader.unpack, hsize, if_neg hmax, hrun]
  rfl

/-- The formats and the image of a bundle are read back, on either path, when what is stored of
them is shorter than 2^32 bytes. -/
theorem images_read_back (hr : r.Inverts lib) {formats : List Int8}
    (hformats : formats.length < 2 ^ 32) (hstored : (lib.stored limage).length < 2 ^ 32) :
    r.ReadsBack lib formats limage := by
  simp only [Reader.ReadsBack, Reader.quotate, hr.find_serialize, lib.quoter_ft, lib.quoter_ip,
    fetchSpan_arrayChar hformats]
  unfold Structo.stored at hstored
  cases hzip : lib.zipBuf limage with
  | some packed =>
      rw [hzip, Option.getD_some] at hstored
      obtain ⟨fuel, hunpack⟩ := unpack_ends hr (Structo.zipBuf_eq_some_iff.mp hzip).1 hstored
      refine ⟨fuel, ?_⟩
      simp only [Option.map_some, fetchSpan_arrayChar hstored, hunpack]
      rfl
  | none =>
      rw [hzip, Option.getD_none] at hstored
      refine ⟨0, ?_⟩
      simp only [Option.map_none, lib.quoter_im formats limage hzip, fetchSpan_arrayChar hstored]
      rfl

/-- A raw image of 2^32 bytes or more never comes back: the span has the low bits of its length. -/
theorem not_readsBack_of_long (hr : r.Inverts lib) (formats : List Int8)
    (hraw : lib.zipBuf limage = none) (hlong : 2 ^ 32 ≤ limage.length) :
    ¬ r.ReadsBack lib formats limage := by
  intro ⟨fuel, hread⟩
  simp only [Reader.quotate, hr.find_serialize, lib.quoter_ft, lib.quoter_ip, hraw,
    Option.map_none, lib.quoter_im formats limage hraw] at hread
  have htext : limage.take (limage.length % 2 ^ 32) = limage :=
    (Prod.mk.inj (Except.ok.inj (Option.some.inj hread))).2
  have hlength := congrArg List.length htext
  rw [List.length_take] at hlength
  omega

end Unpacked

/-! ## A compressor of one image -/

/-- zlib on one image, under a service that packs everything into one map. -/
def knownStructo (limage packed : List Int8) :
    Structo (List Zmap) Unit Unit (List ℕ) (List ℕ) :=
  { plainStructo with compress := fun given => if given = limage then some packed else none }

def knownReader (limage packed : List Int8) : Reader (List Zmap) where
  find
    | [[zmap]], key => Zmap.get zmap key
    | _, _ => none
  uncompress src room :=
    if src = packed then if room < limage.length then .bufError else .ok limage
    else .failed (-3)

theorem compress_self (limage packed : List Int8) :
    (knownStructo limage packed).compress limage = some packed := if_pos rfl

theorem compress_known {limage packed : List Int8} {given result : List Int8}
    (hcompress : (knownStructo limage packed).compress given = some result) :
    given = limage ∧ result = packed := by
  have hif : (if given = limage then some packed else none) = some result := hcompress
  split at hif
  next heq => exact ⟨heq, (Option.some.inj hif).symm⟩
  next => cases hif

theorem knownReader_inverts {limage packed : List Int8}
    (hratio : limage.length ≤ 2 ^ 11 * packed.length) :
    (knownReader limage packed).Inverts (knownStructo limage packed) where
  find_serialize _ _ := rfl
  uncompress_compress given result hcompress room := by
    obtain ⟨rfl, rfl⟩ := compress_known hcompress
    exact if_pos rfl
  ratio given result hcompress := by
    obtain ⟨rfl, rfl⟩ := compress_known hcompress
    exact hratio

/-- A thousand zeros and what zlib makes of them. -/
def zeroImage : List Int8 := List.replicate 1000 0

def packedZeros : List Int8 :=
  [0x78, -0x64, 0x63, 0x60, 0x18, 0x05, -0x5D, 0x60, 0x14, 0x0C, 0x77, 0x00, 0x00, 0x03, -0x18,
    0x00, 0x01]

theorem zipBuf_zeroImage :
    (knownStructo zeroImage packedZeros).zipBuf zeroImage = some packedZeros := by
  have hlength : zeroImage.length = 1000 := List.length_replicate
  rw [Structo.zipBuf, compress_self, hlength]
  rfl

theorem images_read_back_zeros :
    (knownReader zeroImage packedZeros).ReadsBack (knownStructo zeroImage packedZeros) [1, 2]
      zeroImage := by
  have hratio : zeroImage.length ≤ 2 ^ 11 * packedZeros.length := by
    rw [zeroImage, List.length_replicate]
    decide
  apply images_read_back (knownReader_inverts hratio) (by decide)
  rw [Structo.stored, zipBuf_zeroImage]
  decide

theorem pays_iff_zeros : (knownStructo zeroImage packedZeros).Pays [] zeroImage := by
  have hlength : zeroImage.length = 1000 := List.length_replicate
  apply (Structo.pays_iff [] (by rw [hlength]; decide) ?_).mpr (.inl (by rw [hlength]; decide))
  intro packed hcompress
  obtain ⟨-, rfl⟩ := compress_known hcompress
  decide

/-- The single byte 'a': its deflated form of nine bytes is stored. -/
theorem one_byte_does_not_pay :
    ¬ (knownStructo [0x61] [0x78, -0x64, 0x4B, 0x04, 0x00, 0x00, 0x62, 0x00, 0x62]).Pays []
      [0x61] := by
  intro ⟨_, hlength⟩
  exact absurd hlength (by decide)

/-- Noise and what zlib makes of it. -/
def noiseImage (count : ℕ) : List Int8 := (noise count).map UInt8.toInt8

def noiseForm (count : ℕ) : List Int8 := (storedForm (noise count)).map UInt8.toInt8

/-- 2^32 bytes of noise stay raw. -/
theorem long_image_not_read_back :
    ¬ (knownReader (noiseImage (2 ^ 32)) (noiseForm (2 ^ 32))).ReadsBack
      (knownStructo (noiseImage (2 ^ 32)) (noiseForm (2 ^ 32))) [] (noiseImage (2 ^ 32)) := by
  have hlength : (noiseImage (2 ^ 32)).length = 2 ^ 32 := by
    rw [noiseImage, List.length_map, noise_length]
  have hform : (noiseForm (2 ^ 32)).length = 2 ^ 32 + 5 * ((2 ^ 32 + 16382) / 16383) + 6 := by
    rw [noiseForm, List.length_map, storedForm_length, noise_length]
    exact List.ne_nil_of_mem (mem_noise (i := 0) (by omega))
  apply not_readsBack_of_long (knownReader_inverts (by omega))
  · rw [Structo.zipBuf, compress_self]
    exact if_pos (by omega)
  · omega

end Palmira.Service
