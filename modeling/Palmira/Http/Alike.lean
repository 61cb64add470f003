import Palmira.Http.Client

/-!
# Compressed and plain reports

A report comes as JSON or as a serialized map, plain or deflated. The two parsers
of `LoadReport` stand in one function and read two streams: JSON what `Inflate`
returned, a serialized map what is left of the stream it read.
-/

namespace Palmira.Http

variable {env : ClientEnv}

/-- Loading the body of a respond ends this way. -/
def Loads (env : ClientEnv) (res : Message) (body : Bytes) (result : Except Exn Zmap) : Prop :=
  ∃ fuel, loadReport env fuel res (some body) = some result

/-- Two responds with their bodies load alike. -/
def LoadsAlike (env : ClientEnv) (left : Message) (leftBody : Bytes) (right : Message)
    (rightBody : Bytes) : Prop :=
  ∀ result, Loads env left leftBody result ↔ Loads env right rightBody result

def IsJson (res : Message) : Prop :=
  startsWith (res.get "Content-Type") 16 "application/json" = true

def IsDump (res : Message) : Prop :=
  startsWith (res.get "Content-Type") 24 "application/octet-stream" = true

instance (res : Message) : Decidable (IsJson res) := inferInstanceAs (Decidable (_ = _))

/-- How reports are written: printed as JSON or serialized. -/
structure ReportFormats where
  print : Zmap → Bytes
  serialize : Zmap → Bytes

/-- The plain body of a report under the content type of a respond. -/
def ReportFormats.body (formats : ReportFormats) (res : Message) (report : Zmap) : Bytes :=
  if IsJson res then formats.print report else formats.serialize report

theorem loads_plain_iff {res : Message} (hplain : res.get "Content-Encoding" = "") (body : Bytes)
    (result : Except Exn Zmap) :
    Loads env res body result ↔ parseReport env res body body = result := by
  have hload : ∀ fuel, loadReport env fuel res (some body) =
      some (parseReport env res body body) := by
    intro fuel
    simp only [loadReport, inflateMessage, if_pos hplain]
    rfl
  constructor
  · rintro ⟨fuel, hrun⟩
    exact Option.some.inj ((hload fuel).symm.trans hrun)
  · intro hresult
    exact ⟨0, (hload 0).trans (congrArg some hresult)⟩

/-- Behind `Inflate` there is nothing left of the deflated body. -/
theorem loads_deflated_iff {res : Message} (hdeflated : res.get "Content-Encoding" = "deflate")
    {packed body : Bytes}
    (hinflate : ∃ fuel, inflate env.zlib env.avail₀ fuel (some packed) = some (.ok body))
    (result : Except Exn Zmap) :
    Loads env res packed result ↔ parseReport env res body [] = result := by
  have hencoded : ¬ res.get "Content-Encoding" = "" := by
    rw [hdeflated]
    decide
  have hload : ∀ fuel, loadReport env fuel res (some packed) =
      (inflate env.zlib env.avail₀ fuel (some packed)).map
        fun unpacked => unpacked.bind fun src => parseReport env res src [] := by
    intro fuel
    simp only [loadReport, inflateMessage, if_neg hencoded, if_pos hdeflated, Option.map_map]
    congr 1
    funext unpacked
    cases unpacked with
    | error e => rfl
    | ok src => rfl
  obtain ⟨enough, hinflate⟩ := hinflate
  constructor
  · rintro ⟨fuel, hrun⟩
    rw [hload, Option.map_eq_some_iff] at hrun
    obtain ⟨unpacked, hunpacked, hresult⟩ := hrun
    rw [inflate_unique hunpacked hinflate] at hresult
    exact hresult
  · intro hresult
    refine ⟨enough, ?_⟩
    rw [hload, hinflate]
    exact congrArg some hresult

/-- A deflated report loads as the plain one exactly if it is JSON, or is the empty map. -/
theorem loads_alike_iff (formats : ReportFormats) {plain deflated : Message} {report : Zmap}
    {packed : Bytes} (htype : deflated.get "Content-Type" = plain.get "Content-Type")
    (haccepted : IsJson plain ∨ IsDump plain) (hplain : plain.get "Content-Encoding" = "")
    (hdeflated : deflated.get "Content-Encoding" = "deflate")
    (hinflate : ∃ fuel, inflate env.zlib env.avail₀ fuel (some packed) =
      some (.ok (formats.body plain report)))
    (hfetch : env.fetchFrom (formats.serialize report) = .ok report)
    (hend : env.fetchFrom [] = .ok []) :
    LoadsAlike env deflated packed plain (formats.body plain report) ↔
      IsJson plain ∨ report = [] := by
  simp only [LoadsAlike, loads_deflated_iff hdeflated hinflate, loads_plain_iff hplain]
  by_cases hjson : IsJson plain
  · -- both parsers read what `Inflate` returned
    have hsame : ∀ body rest rest', parseReport env deflated body rest =
        parseReport env plain body rest' := by
      intro body rest rest'
      have hjson' : startsWith (plain.get "Content-Type") 16 "application/json" = true := hjson
      simp only [parseReport, htype, if_pos hjson']
    refine iff_of_true (fun result => ?_) (.inl hjson)
    rw [hsame]
  · have hdump := haccepted.resolve_left hjson
    have hfetched : ∀ res body rest, res.get "Content-Type" = plain.get "Content-Type" →
        parseReport env res body rest = env.fetchFrom rest := by
      intro res body rest hres
      have hjson' : ¬ startsWith (plain.get "Content-Type") 16 "application/json" = true := hjson
      have hdump' : startsWith (plain.get "Content-Type") 24 "application/octet-stream" = true :=
        hdump
      rw [parseReport, hres, if_neg hjson', if_pos hdump']
    have hbody : formats.body plain report = formats.serialize report := if_neg hjson
    rw [hfetched deflated _ _ htype, hfetched plain _ _ rfl, hbody, hfetch, hend]
    constructor
    · intro halike
      exact .inr (Except.ok.inj ((halike (.ok [])).mp rfl))
    · rintro (habsurd | rfl)
      · exact absurd habsurd hjson
      · exact fun _ => Iff.rfl

/-! ## A client and two responds -/

def oneField : Zmap := [(.charstr "first", .int32 1)]

/-- A client for which any body that is not empty is one report. -/
def oneReportClient : ClientEnv where
  zlib := deflatedA
  avail₀ := 0
  parse := fun _ => .value oneField
  fetchFrom := fun body => .ok (if body.isEmpty then [] else oneField)
  notify := fun _ => none

def typed (contentType : String) : Message := ⟨[("Content-Type", contentType)]⟩

def typedDeflated (contentType : String) : Message :=
  ⟨[("Content-Type", contentType), ("Content-Encoding", "deflate")]⟩

/-- The deflated form of the single byte 'a'. -/
def deflatedBody : Bytes := [0x78, 0x9C, 0x4B, 0x04, 0x00, 0x00, 0x62, 0x00, 0x62]

def oneByteFormats : ReportFormats where
  print := fun _ => [0x61]
  serialize := fun _ => [0x61]

theorem inflate_deflatedBody : inflate deflatedA 0 9 (some deflatedBody) = some (.ok [0x61]) := by
  simp only [inflate, readSource_eq]
  rfl

theorem loads_alike_iff_json :
    LoadsAlike oneReportClient (typedDeflated "application/json; charset=utf-8") deflatedBody
      (typed "application/json; charset=utf-8") [0x61] := by
  have hjson : IsJson (typed "application/json; charset=utf-8") := by decide
  have hfetch : oneReportClient.fetchFrom (oneByteFormats.serialize oneField) = .ok oneField := rfl
  have htype : (typedDeflated "application/json; charset=utf-8").get "Content-Type" =
      (typed "application/json; charset=utf-8").get "Content-Type" := rfl
  have halike := loads_alike_iff oneByteFormats htype (.inl hjson) rfl rfl
    ⟨9, inflate_deflatedBody⟩ hfetch rfl
  exact halike.mpr (.inl hjson)

/-- The serialized report is read from the stream `Inflate` has emptied. -/
theorem deflated_dump_lost :
    Loads oneReportClient (typed "application/octet-stream") [0x61] (.ok oneField) ∧
    Loads oneReportClient (typedDeflated "application/octet-stream") deflatedBody (.ok []) ∧
    ¬ LoadsAlike oneReportClient (typedDeflated "application/octet-stream") deflatedBody
      (typed "application/octet-stream") [0x61] := by
  have hdeflated : ∀ result, Loads oneReportClient (typedDeflated "application/octet-stream")
      deflatedBody result ↔ .ok [] = result := loads_deflated_iff rfl ⟨9, inflate_deflatedBody⟩
  have hplain : Loads oneReportClient (typed "application/octet-stream") [0x61] (.ok oneField) :=
    (loads_plain_iff rfl _ _).mpr rfl
  refine ⟨hplain, (hdeflated _).mpr rfl, ?_⟩
  intro halike
  cases (hdeflated _).mp ((halike (.ok oneField)).mpr hplain)

end Palmira.Http
