import Toolpath.Proofs.Json.RoundTrip
import Toolpath.Proofs.Settings.Partial
import Toolpath.Proofs.Toml.RoundTrip

/-! # Settings that are saved and loaded

Settings that have been saved are loaded again as they were. Names, truth
values, counts and the delimiter come back from a document in either format, a
missing limit as null or as a key that is left out. Doubles come back from TOML
whatever they are, and from JSON if reading gives them back.
-/

namespace Toolpath

open Number

namespace SettingsFormat

/-- The tree of a document in the format. -/
def read? : SettingsFormat → List Char → Option Data
  | json => Json.read?
  | toml => Toml.read?

/-- What the format says where formats disagree. -/
def dialect : SettingsFormat → Dialect
  | json => Json.dialect
  | toml => Toml.dialect

/-- What a double is read as when it has been written. -/
def reading : SettingsFormat → Float → Data
  | json => Json.reading
  | toml => .float

/-- What is read for a limit that has been written: in TOML nothing where there is none. -/
def limit (format : SettingsFormat) (limit : Option Nat) : List (String × Data) :=
  match format with
  | json => [("max_points", Data.ofOption .ofNat limit)]
  | toml => Toml.written [("max_points", Data.ofOption .ofNat limit)]

variable {format : SettingsFormat} {limit : Option Nat}

theorem float?_reading_iff {x : Float} :
    (format.reading x).float? = some x ↔ (format = .json → Json.ReadsBack x) := by
  cases format with
  | json => exact ⟨fun h _ => h, fun h => h rfl⟩
  | toml => exact iff_of_true rfl nofun

theorem float?_reading_default : ∀ x ∈ Config.doubles {}, (format.reading x).float? = some x := by
  cases format <;> decide +kernel

theorem keys_limit : ((format.limit limit).map Prod.fst).Sublist ["max_points"] := by
  cases format with
  | json => exact .refl _
  | toml => exact List.filter_sublist.map Prod.fst

theorem withDefault_limit (h : ∀ n ∈ limit, fits64 n = true) :
    Fields.withDefault ⟨false, format.limit limit⟩ "max_points" none (Data.nullable? Data.count?) =
      some limit := by
  cases limit with
  | none => cases format <;> rfl
  | some n =>
      have hcount : (Data.count? (.ofNat n)).map some = some (some n) := by
        rw [Data.count?, Data.natural?_ofNat (h n rfl)]
        rfl
      cases format <;> exact hcount

end SettingsFormat

namespace Config

variable {config : Config} {format : SettingsFormat}

/-! ## Documents -/

/-- What the document of the settings is read as. -/
def saved (config : Config) (format : SettingsFormat) : Data :=
  config.document format.reading (format.limit config.decode.maxPoints)

/-- A count that fits is read from JSON as itself. -/
theorem reread_ofNat {n : Nat} (h : fits64 n = true) : Json.reread (.ofNat n) = .ofNat n := by
  have hread := Json.number?_integerText (n := n) (.inl ⟨Int.natCast_nonneg n, h⟩)
  rw [Data.ofNat, Json.reread, hread]
  rfl

theorem fits64_of_fits32 {n : Nat} (h : fits32 n = true) : fits64 n = true :=
  decide_eq_true ((of_decide_eq_true h).trans (by decide))

theorem reread_toData (hvalid : config.validate = .ok ()) (hfits : config.Fits) :
    Json.reread config.toData = config.saved .json := by
  obtain ⟨-, hplaces, hdepth⟩ := of_validate_eq_ok hvalid
  have hlimit : Json.reread (Data.ofOption .ofNat config.decode.maxPoints) =
      Data.ofOption .ofNat config.decode.maxPoints := by
    cases hmax : config.decode.maxPoints with
    | none => rfl
    | some n => exact reread_ofNat (hfits.maxPoints n hmax)
  rw [saved, document, SettingsFormat.limit, DecodeSettings.given, ReconstructionParams.given,
    ← hlimit, ← reread_ofNat (fits64_of_fits32 hplaces), ← reread_ofNat (fits64_of_fits32 hdepth),
    ← reread_ofNat hfits.numSamples, ← reread_ofNat hfits.maxNeighbours,
    ← reread_ofNat hfits.minPoints]
  rfl

/-- The sections with their members. -/
def tables (config : Config) : List (String × List (String × Data)) :=
  [("decode", config.decode.given .float
      [("max_points", Data.ofOption .ofNat config.decode.maxPoints)]),
    ("reconstruction", config.reconstruction.given .float),
    ("export", [("format", config.exporting.format.toData),
      ("delimiter", .text config.exporting.delimiter)])]

theorem nodup_tables (config : Config) : (config.tables.map Prod.fst).Nodup := by
  change names.Nodup
  decide

theorem writable_decode {settings : DecodeSettings} (h : settings.step.isFinite = true) :
    Toml.Writable (settings.given .float
      [("max_points", Data.ofOption .ofNat settings.maxPoints)]) where
  keys := by
    change ∀ key ∈ ["mode", "resolution_step", "round", "round_decimals", "max_points"],
      Toml.IsBareKey key
    decide
  distinct := by
    change ["mode", "resolution_step", "round", "round_decimals", "max_points"].Nodup
    decide
  finite := by
    intro x hx
    have hlimit : Data.float x ≠ Data.ofOption .ofNat settings.maxPoints := by
      cases settings.maxPoints with
      | none => exact nofun
      | some n => exact nofun
    simp only [DecodeSettings.given, Data.ofNat, List.map_cons, List.map_nil, List.mem_cons,
      List.not_mem_nil, reduceCtorEq, Data.float.injEq, or_false, false_or] at hx
    rcases hx with rfl | hx
    · exact h
    · exact absurd hx hlimit

theorem writable_reconstruction {params : ReconstructionParams}
    (hscale : params.scale.isFinite = true) (hradius : params.normalRadius.isFinite = true) :
    Toml.Writable (params.given .float) where
  keys := by
    change ∀ key ∈ ["depth", "scale", "linear_fit", "num_samples", "normal_radius",
      "max_neighbours", "min_points"], Toml.IsBareKey key
    decide
  distinct := by
    change ["depth", "scale", "linear_fit", "num_samples", "normal_radius", "max_neighbours",
      "min_points"].Nodup
    decide
  finite := by
    intro x hx
    simp only [ReconstructionParams.given, Data.ofNat, List.map_cons, List.map_nil, List.mem_cons,
      List.not_mem_nil, reduceCtorEq, Data.float.injEq, or_false, false_or] at hx
    rcases hx with rfl | rfl
    · exact hscale
    · exact hradius

theorem writable_exporting (format : PointFormat) (delimiter : String) :
    Toml.Writable [("format", format.toData), ("delimiter", .text delimiter)] where
  keys := by
    change ∀ key ∈ ["format", "delimiter"], Toml.IsBareKey key
    decide
  distinct := by
    change ["format", "delimiter"].Nodup
    decide
  finite := by
    intro x hx
    simp [PointFormat.toData] at hx

theorem writable_tables (h : ∀ x ∈ config.doubles, x.isFinite = true) :
    ∀ table ∈ config.tables, Toml.IsBareKey table.1 ∧ Toml.Writable table.2 := by
  simp only [doubles, List.forall_mem_cons] at h
  obtain ⟨hstep, hscale, hradius, -⟩ := h
  simp only [tables, List.forall_mem_cons]
  exact ⟨⟨by decide, writable_decode hstep⟩, ⟨by decide, writable_reconstruction hscale hradius⟩,
    ⟨by decide, writable_exporting _ _⟩, List.forall_mem_nil _⟩

theorem print?_of_render {content : String} (h : config.render .toml = .ok content) :
    Toml.print? config.toData = some content := by
  rw [render] at h
  cases hprint : Toml.print? config.toData with
  | none =>
      rw [hprint] at h
      cases h
  | some text =>
      rw [hprint] at h
      exact congrArg some (Except.ok.inj h)

/-- The document of valid settings is read. -/
theorem read?_of_render (hvalid : config.validate = .ok ()) (hfits : config.Fits) {content : String}
    (h : config.render format = .ok content) :
    format.read? content.toList = some (config.saved format) := by
  cases format with
  | json =>
      obtain rfl := Except.ok.inj h
      rw [SettingsFormat.read?, Json.read?_pretty, reread_toData hvalid hfits]
  | toml =>
      exact Toml.read?_print? (writable_tables (of_validate_eq_ok hvalid).1) config.nodup_tables
        (print?_of_render h)

theorem parse_eq_ok_iff {text : List Char} :
    parse format text = .ok config ↔
      (format.read? text).bind (ofData? format.dialect) = some config := by
  have hok {failure : SettingsError} {read : Option Config} :
      read.elim (.error failure) .ok = Except.ok config ↔ read = some config := by
    cases read with
    | none => exact ⟨nofun, nofun⟩
    | some other => exact ⟨fun h => congrArg some (Except.ok.inj h), fun h => by rw [h]; rfl⟩
  cases format <;> exact hok

/-- What was the document of valid settings before it was edited is read as the settings that it
still gives, from JSON if their doubles are. -/
theorem parse_edited_eq_ok_iff (hvalid : config.validate = .ok ()) (hfits : config.Fits)
    {edited : Data} (hedited : Config.Edited (config.saved format) edited) {text : List Char}
    (hread : format.read? text = some edited) :
    parse format text = .ok (config.keeping edited.gives) ↔
      (format = .json → ∀ x ∈ (config.keeping edited.gives).doubles, Json.ReadsBack x) := by
  rw [parse_eq_ok_iff, hread, Option.bind_some, ofData?_edited_eq_some_iff format.dialect hvalid
    hfits (SettingsFormat.withDefault_limit hfits.maxPoints) SettingsFormat.float?_reading_default
    hedited]
  simp only [SettingsFormat.float?_reading_iff]
  exact ⟨fun h hjson x hx => h x hx hjson, fun h x hx hjson => h hjson x hx⟩

/-- The document that holds valid settings is read as them, from JSON if their doubles are. -/
theorem parse_of_render (hvalid : config.validate = .ok ()) (hfits : config.Fits)
    {content : String} (h : config.render format = .ok content) :
    parse format content.toList = .ok config ↔
      (format = .json → ∀ x ∈ config.doubles, Json.ReadsBack x) := by
  have hsame : Config.Edited (config.saved format) (config.saved format) :=
    edited_document SettingsFormat.keys_limit
  have hall : config.keeping (config.saved format).gives = config :=
    keeping_document (SettingsFormat.withDefault_limit hfits.maxPoints)
  have hparse := parse_edited_eq_ok_iff hvalid hfits hsame (read?_of_render hvalid hfits h)
  rw [hall] at hparse
  exact hparse

/-! ## Files -/

theorem exists_of_save_eq_ok {fs after : FileSystem} {path : String}
    (h : config.save fs path = (.ok (), after)) :
    ∃ format content before, SettingsFormat.ofPath path = .ok format ∧
      config.validate = .ok () ∧ config.render format = .ok content ∧
      FileSystem.write before path (Utf8.encode content.toList) = .ok after := by
  unfold save at h
  dsimp only at h
  split at h
  next => cases h
  next content hprepared =>
    obtain ⟨_, hvalid, hprepared⟩ := exists_of_bind_eq_ok hprepared
    obtain ⟨format, hformat, hrender⟩ := exists_of_bind_eq_ok hprepared
    split at h
    next => cases h
    next =>
      split at h
      next hwrite =>
        obtain rfl := (Prod.ext_iff.mp h).2
        exact ⟨format, content, _, mapError_eq_ok hformat, mapError_eq_ok hvalid, hrender, hwrite⟩
      next => cases h

/-- What is loaded is what the text of the file is read as, if that is valid. -/
theorem load_eq_ok_iff {fs : FileSystem} {path : String} {text : List Char}
    (hformat : SettingsFormat.ofPath path = .ok format) (htext : fs.readText path = .ok text) :
    load fs path = .ok config ↔ parse format text = .ok config ∧ config.validate = .ok () := by
  have hload : load fs path = (do
      let read ← parse format text
      read.validate.mapError .config
      return read) := by
    rw [load, hformat, Faults.readText_default, htext]
    rfl
  rw [hload]
  constructor
  · intro h
    obtain ⟨read, hparse, h⟩ := exists_of_bind_eq_ok h
    obtain ⟨_, hvalid, h⟩ := exists_of_bind_eq_ok h
    obtain rfl := Except.ok.inj h
    exact ⟨hparse, mapError_eq_ok hvalid⟩
  · rintro ⟨hparse, hvalid⟩
    rw [hparse]
    change (config.validate.mapError _ >>= _) = _
    rw [hvalid]
    rfl

/-- What is loaded from the file of saved settings is what their document is read as. -/
theorem load_of_save {fs after : FileSystem} {path : String}
    (h : config.save fs path = (.ok (), after)) :
    ∃ format content, SettingsFormat.ofPath path = .ok format ∧ config.validate = .ok () ∧
      config.render format = .ok content ∧
      (load after path = .ok config ↔ parse format content.toList = .ok config) := by
  obtain ⟨format, content, before, hformat, hvalid, hrender, hwrite⟩ := exists_of_save_eq_ok h
  have hload : load after path = .ok config ↔ _ :=
    load_eq_ok_iff hformat (FileSystem.readText_of_write hwrite)
  exact ⟨format, content, hformat, hvalid, hrender, hload.trans (and_iff_left hvalid)⟩

/-- Settings that have been saved are loaded again as they were: from TOML always, and from JSON
exactly if reading gives each of their doubles back. -/
theorem load_save_eq_ok_iff (hfits : config.Fits) {fs after : FileSystem} {path : String}
    (hsave : config.save fs path = (.ok (), after)) :
    ∃ format, SettingsFormat.ofPath path = .ok format ∧
      (load after path = .ok config ↔
        (format = .json → ∀ x ∈ config.doubles, Json.ReadsBack x)) := by
  obtain ⟨format, content, hformat, hvalid, hrender, hload⟩ := load_of_save hsave
  exact ⟨format, hformat, hload.trans (parse_of_render hvalid hfits hrender)⟩

/-- A delimiter that needs escapes and a missing limit come back, from a directory made for them. -/
theorem load_save_of_delimiter :
    let config : Config := {
      decode := { step := 0.3, round := false }
      exporting := { format := .xyz, delimiter := "\t\"é\\\x01" } }
    let after := (config.save {} "out/settings.Toml").2
    (config.save {} "out/settings.Toml").1 = .ok () ∧
      load after "out/settings.Toml" = .ok config := by
  intro config after
  have hsaved : (config.save {} "out/settings.Toml").1 = .ok () := by decide +kernel
  have hfits : config.Fits := ⟨nofun, by decide, by decide, by decide⟩
  obtain ⟨format, hformat, hload⟩ := load_save_eq_ok_iff hfits (Prod.ext hsaved rfl)
  refine ⟨hsaved, hload.mpr ?_⟩
  have htoml : SettingsFormat.ofPath "out/settings.Toml" = .ok .toml := by decide
  obtain rfl := Except.ok.inj (htoml.symm.trans hformat)
  exact nofun

/-- A step of seventeen digits is read from JSON as its neighbour. -/
theorem load_save_loses_double :
    let config : Config := { decode := { step := 414.90671162274515 } }
    let after := (config.save {} "c.json").2
    (config.save {} "c.json").1 = .ok () ∧ load after "c.json" ≠ .ok config := by
  intro config after
  have hsaved : (config.save {} "c.json").1 = .ok () := by decide +kernel
  have hfits : config.Fits := ⟨nofun, by decide, by decide, by decide⟩
  obtain ⟨format, content, hformat, hvalid, hrender, hload⟩ := load_of_save (Prod.ext hsaved rfl)
  have hjson : SettingsFormat.ofPath "c.json" = .ok .json := by decide
  obtain rfl := Except.ok.inj (hjson.symm.trans hformat)
  refine ⟨hsaved, fun hloaded => ?_⟩
  have hback := (parse_of_render hvalid hfits hrender).mp (hload.mp hloaded) rfl
  have hstep : Json.ReadsBack 414.90671162274515 := hback _ (List.mem_cons_self ..)
  exact absurd hstep (by decide +kernel)

end Config

end Toolpath
