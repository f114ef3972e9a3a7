import Toolpath.Proofs.Document.Edits
import Toolpath.Proofs.Settings.Validity

/-! # Settings that a document gives in part

A document need not give every setting. From a document that gives all of them
whole sections and single fields may be left out, and whatever is not a setting
may be put in. What is read then are the settings that are still given, with the
defaults for all others. If they were valid they still are, since no range
depends on more than one setting.
-/

namespace Toolpath

open Number

namespace Data

theorem natural?_ofNat {fits : Nat → Bool} {n : Nat} (h : fits n = true) :
    natural? fits (ofNat n) = some n :=
  if_pos ⟨Int.natCast_nonneg n, h⟩

end Data

theorem DecodeMode.ofName?_name (mode : DecodeMode) : ofName? mode.name = some mode := by
  cases mode <;> rfl

theorem PointFormat.ofName?_extension (format : PointFormat) :
    ofName? format.extension = some format := by
  cases format <;> rfl

/-! ## Sections -/

namespace DecodeSettings

/-- The names of the fields. -/
def names : List String := ["mode", "resolution_step", "round", "round_decimals", "max_points"]

/-- The members that a document gives for the section: its own but for the data of its double, and
the limit as null, as a count, or not at all. -/
def given (settings : DecodeSettings) (write : Float → Data) (limit : List (String × Data)) :
    List (String × Data) :=
  ("mode", .text settings.mode.name) :: ("resolution_step", write settings.step) ::
    ("round", .bool settings.round) :: ("round_decimals", .ofNat settings.roundPlaces) :: limit

/-- The settings that are kept, with the defaults for the others. -/
def keeping (settings : DecodeSettings) (kept : String → Bool) : DecodeSettings :=
  let default : DecodeSettings := {}
  { mode := if kept "mode" then settings.mode else default.mode
    step := if kept "resolution_step" then settings.step else default.step
    round := if kept "round" then settings.round else default.round
    roundPlaces := if kept "round_decimals" then settings.roundPlaces else default.roundPlaces
    maxPoints := if kept "max_points" then settings.maxPoints else default.maxPoints }

/-- The step is read back from the data that is written for it. -/
def ReadsBack (write : Float → Data) (settings : DecodeSettings) : Prop :=
  (write settings.step).float? = some settings.step

variable {settings : DecodeSettings}

/-- An edited section is read as the settings that it still gives exactly if the step is. -/
theorem ofData?_edited_eq_some_iff (dialect : Dialect)
    (hplaces : fits32 settings.roundPlaces = true) {limit : List (String × Data)}
    (hlimit : Fields.withDefault ⟨false, limit⟩ "max_points" none (Data.nullable? Data.count?) =
      some settings.maxPoints) {write : Float → Data} (hdefault : ReadsBack write {})
    {edited : Data} (h : Data.Edited names (fun _ => Eq) (.record (settings.given write limit))
      edited) :
    ofData? dialect edited = some (settings.keeping edited.has) ↔
      (settings.keeping edited.has).ReadsBack write := by
  cases h with
  | @record _ after hmembers =>
      have hmode : (Fields.among names after).withDefault "mode" .interpolated
          (fun d => (d.choice? dialect).bind DecodeMode.ofName?) =
            some (if (Data.record after).has "mode" then settings.mode else .interpolated) :=
        hmembers.withDefault_of_eq_some (by decide) settings.mode.ofName?_name
      have hstep : (Fields.among names after).withDefault "resolution_step" 0.1 Data.float? =
          (write (settings.keeping (Data.record after).has).step).float? :=
        hmembers.withDefault_eq_item (by decide) hdefault rfl
      have hround : (Fields.among names after).withDefault "round" true Data.bool? =
          some (if (Data.record after).has "round" then settings.round else true) :=
        hmembers.withDefault_of_eq_some (by decide) rfl
      have hplaces : (Fields.among names after).withDefault "round_decimals" 5 Data.smallCount? =
          some (if (Data.record after).has "round_decimals" then settings.roundPlaces else 5) :=
        hmembers.withDefault_of_eq_some (by decide) (Data.natural?_ofNat hplaces)
      have hmax : (Fields.among names after).withDefault "max_points" none
          (Data.nullable? Data.count?) =
            some (if (Data.record after).has "max_points" then settings.maxPoints else none) :=
        hmembers.withDefault_of_eq_some (by decide) hlimit
      have hfields : Fields.read? dialect ["mode", "resolution_step", "round", "round_decimals",
          "max_points"] (.record after) = some (.among names after) :=
        hmembers.read?_record dialect
      rw [ofData?, hfields]
      simp only [Option.bind_eq_bind, Option.bind_some, hmode, hstep, hround, hplaces, hmax]
      constructor
      · intro h
        obtain ⟨step, hstep, h⟩ := Option.bind_eq_some_iff.mp h
        rw [ReadsBack, hstep, ← Option.some.inj h]
      · intro h
        rw [h]
        rfl

end DecodeSettings

namespace ReconstructionParams

/-- The names of the fields. -/
def names : List String :=
  ["depth", "scale", "linear_fit", "num_samples", "normal_radius", "max_neighbours", "min_points"]

/-- The members that a document gives for the section: its own but for the data of its doubles. -/
def given (params : ReconstructionParams) (write : Float → Data) : List (String × Data) :=
  [("depth", .ofNat params.depth), ("scale", write params.scale),
    ("linear_fit", .bool params.linearFit), ("num_samples", .ofNat params.numSamples),
    ("normal_radius", write params.normalRadius),
    ("max_neighbours", .ofNat params.maxNeighbours), ("min_points", .ofNat params.minPoints)]

/-- The parameters that are kept, with the defaults for the others. -/
def keeping (params : ReconstructionParams) (kept : String → Bool) : ReconstructionParams :=
  let default : ReconstructionParams := {}
  { depth := if kept "depth" then params.depth else default.depth
    scale := if kept "scale" then params.scale else default.scale
    linearFit := if kept "linear_fit" then params.linearFit else default.linearFit
    numSamples := if kept "num_samples" then params.numSamples else default.numSamples
    normalRadius := if kept "normal_radius" then params.normalRadius else default.normalRadius
    maxNeighbours := if kept "max_neighbours" then params.maxNeighbours else default.maxNeighbours
    minPoints := if kept "min_points" then params.minPoints else default.minPoints }

/-- The doubles are read back from the data that is written for them. -/
def ReadsBack (write : Float → Data) (params : ReconstructionParams) : Prop :=
  (write params.scale).float? = some params.scale ∧
    (write params.normalRadius).float? = some params.normalRadius

variable {params : ReconstructionParams}

/-- An edited section is read as the parameters that it still gives exactly if its doubles are. -/
theorem ofData?_edited_eq_some_iff (dialect : Dialect) (hdepth : fits32 params.depth = true)
    (hsamples : fits64 params.numSamples = true) (hneighbours : fits64 params.maxNeighbours = true)
    (hpoints : fits64 params.minPoints = true) {write : Float → Data}
    (hdefault : ReadsBack write {}) {edited : Data}
    (h : Data.Edited names (fun _ => Eq) (.record (params.given write)) edited) :
    ofData? dialect edited = some (params.keeping edited.has) ↔
      (params.keeping edited.has).ReadsBack write := by
  cases h with
  | @record _ after hmembers =>
      have hdepth : (Fields.among names after).withDefault "depth" 8 Data.smallCount? =
          some (if (Data.record after).has "depth" then params.depth else 8) :=
        hmembers.withDefault_of_eq_some (by decide) (Data.natural?_ofNat hdepth)
      have hscale : (Fields.among names after).withDefault "scale" 1.1 Data.float? =
          (write (params.keeping (Data.record after).has).scale).float? :=
        hmembers.withDefault_eq_item (by decide) hdefault.1 rfl
      have hlinear : (Fields.among names after).withDefault "linear_fit" false Data.bool? =
          some (if (Data.record after).has "linear_fit" then params.linearFit else false) :=
        hmembers.withDefault_of_eq_some (by decide) rfl
      have hsamples : (Fields.among names after).withDefault "num_samples" 10000 Data.count? =
          some (if (Data.record after).has "num_samples" then params.numSamples else 10000) :=
        hmembers.withDefault_of_eq_some (by decide) (Data.natural?_ofNat hsamples)
      have hradius : (Fields.among names after).withDefault "normal_radius" 0.1 Data.float? =
          (write (params.keeping (Data.record after).has).normalRadius).float? :=
        hmembers.withDefault_eq_item (by decide) hdefault.2 rfl
      have hneighbours : (Fields.among names after).withDefault "max_neighbours" 30 Data.count? =
          some (if (Data.record after).has "max_neighbours" then params.maxNeighbours else 30) :=
        hmembers.withDefault_of_eq_some (by decide) (Data.natural?_ofNat hneighbours)
      have hpoints : (Fields.among names after).withDefault "min_points" 32 Data.count? =
          some (if (Data.record after).has "min_points" then params.minPoints else 32) :=
        hmembers.withDefault_of_eq_some (by decide) (Data.natural?_ofNat hpoints)
      have hfields : Fields.read? dialect ["depth", "scale", "linear_fit", "num_samples",
          "normal_radius", "max_neighbours", "min_points"] (.record after) =
            some (.among names after) :=
        hmembers.read?_record dialect
      rw [ofData?, hfields]
      simp only [Option.bind_eq_bind, Option.bind_some, hdepth, hscale, hlinear, hsamples, hradius,
        hneighbours, hpoints]
      constructor
      · intro h
        obtain ⟨scale, hscale, h⟩ := Option.bind_eq_some_iff.mp h
        obtain ⟨radius, hradius, h⟩ := Option.bind_eq_some_iff.mp h
        rw [ReadsBack, hscale, hradius, ← Option.some.inj h]
        exact ⟨rfl, rfl⟩
      · rintro ⟨hscale, hradius⟩
        rw [hscale, hradius]
        rfl

end ReconstructionParams

namespace ExportSettings

/-- The names of the fields. -/
def names : List String := ["format", "delimiter"]

/-- The settings that are kept, with the defaults for the others. -/
def keeping (settings : ExportSettings) (kept : String → Bool) : ExportSettings :=
  let default : ExportSettings := {}
  { format := if kept "format" then settings.format else default.format
    delimiter := if kept "delimiter" then settings.delimiter else default.delimiter }

/-- An edited section is read as the settings that it still gives. -/
theorem ofData?_edited (dialect : Dialect) (settings : ExportSettings) {edited : Data}
    (h : Data.Edited names (fun _ => Eq) settings.toData edited) :
    ofData? dialect edited = some (settings.keeping edited.has) := by
  cases h with
  | @record _ after hmembers =>
      have hformat : (Fields.among names after).withDefault "format" .csv
          (PointFormat.ofData? dialect) =
            some (if (Data.record after).has "format" then settings.format else .csv) :=
        hmembers.withDefault_of_eq_some (by decide) settings.format.ofName?_extension
      have hdelimiter : (Fields.among names after).withDefault "delimiter" "," Data.text? =
          some (if (Data.record after).has "delimiter" then settings.delimiter else ",") :=
        hmembers.withDefault_of_eq_some (by decide) rfl
      have hfields : Fields.read? dialect ["format", "delimiter"] (.record after) =
          some (.among names after) :=
        hmembers.read?_record dialect
      rw [ofData?, hfields]
      simp only [Option.bind_eq_bind, Option.bind_some, hformat, hdelimiter]
      rfl

end ExportSettings

/-! ## All settings -/

namespace Config

/-- The names of the sections. -/
def names : List String := ["decode", "reconstruction", "export"]

/-- The names of the fields of a section. -/
def fieldNames : String → List String
  | "decode" => DecodeSettings.names
  | "reconstruction" => ReconstructionParams.names
  | "export" => ExportSettings.names
  | _ => []

/-- A document is edited: sections and fields are left out, and members are added that are neither,
in the document as in its sections. -/
def Edited : Data → Data → Prop :=
  Data.Edited names fun group => Data.Edited (fieldNames group) fun _ => Eq

/-- A document that gives all settings: their own data but for that of the doubles and of the
limit. -/
def document (config : Config) (write : Float → Data) (limit : List (String × Data)) : Data :=
  .record [("decode", .record (config.decode.given write limit)),
    ("reconstruction", .record (config.reconstruction.given write)),
    ("export", config.exporting.toData)]

/-- The settings that are kept, by their sections and names, with the defaults for the others. -/
def keeping (config : Config) (kept : String → String → Bool) : Config where
  decode := config.decode.keeping (kept "decode")
  reconstruction := config.reconstruction.keeping (kept "reconstruction")
  exporting := config.exporting.keeping (kept "export")

/-- The doubles among the settings. -/
def doubles (config : Config) : List Float :=
  [config.decode.step, config.reconstruction.scale, config.reconstruction.normalRadius]

/-- Whether the counts are ones that the settings have room for. -/
structure Fits (config : Config) : Prop where
  maxPoints : ∀ n ∈ config.decode.maxPoints, fits64 n = true
  numSamples : fits64 config.reconstruction.numSamples = true
  maxNeighbours : fits64 config.reconstruction.maxNeighbours = true
  minPoints : fits64 config.reconstruction.minPoints = true

variable {config : Config}

/-- Valid settings have finite doubles, and their places and their depth are small. -/
theorem of_validate_eq_ok (h : config.validate = .ok ()) :
    (∀ x ∈ config.doubles, x.isFinite = true) ∧ fits32 config.decode.roundPlaces = true ∧
      fits32 config.reconstruction.depth = true := by
  have hvalid := validate_eq_ok_iff.mp h
  have hparams := hvalid.reconstruction
  refine ⟨?_, ?_, ?_⟩
  · simp only [doubles, List.forall_mem_cons]
    exact ⟨hvalid.step_finite, hparams.scale_finite, hparams.normalRadius_finite,
      List.forall_mem_nil _⟩
  · exact decide_eq_true (Nat.lt_of_le_of_lt hvalid.roundPlaces (by decide))
  · exact decide_eq_true (Nat.lt_of_le_of_lt hparams.depth_le (by decide))

/-- Every range is one of a single setting, so valid settings mix with the defaults. -/
theorem IsValid.keeping (h : config.IsValid) (kept : String → String → Bool) :
    (config.keeping kept).IsValid := by
  have hmix {α : Type} (p : α → Prop) {own default : α} (b : Bool) (hown : p own)
      (hdefault : p default) : p (if b then own else default) := by
    cases b with
    | false => exact hdefault
    | true => exact hown
  have hdefault := isValid_default
  have hparams := h.reconstruction
  have hdefaultParams := isValid_default.reconstruction
  exact {
    step_finite := hmix (fun x : Float => x.isFinite = true) _ h.step_finite hdefault.step_finite
    step_pos := hmix (fun x : Float => 0.0 < x) _ h.step_pos hdefault.step_pos
    roundPlaces := hmix (· ≤ 15) _ h.roundPlaces hdefault.roundPlaces
    maxPoints := hmix (· ≠ some 0) _ h.maxPoints hdefault.maxPoints
    reconstruction := {
      depth_pos := hmix (1 ≤ ·) _ hparams.depth_pos hdefaultParams.depth_pos
      depth_le := hmix (· ≤ 16) _ hparams.depth_le hdefaultParams.depth_le
      scale_finite := hmix (fun x : Float => x.isFinite = true) _ hparams.scale_finite
        hdefaultParams.scale_finite
      scale_pos := hmix (fun x : Float => 0.0 < x) _ hparams.scale_pos hdefaultParams.scale_pos
      numSamples := hmix (· ≠ 0) _ hparams.numSamples hdefaultParams.numSamples
      normalRadius_finite := hmix (fun x : Float => x.isFinite = true) _ hparams.normalRadius_finite
        hdefaultParams.normalRadius_finite
      normalRadius_pos := hmix (fun x : Float => 0.0 < x) _ hparams.normalRadius_pos
        hdefaultParams.normalRadius_pos
      maxNeighbours := hmix (· ≠ 0) _ hparams.maxNeighbours hdefaultParams.maxNeighbours }
    delimiter := hmix (· ≠ "") _ h.delimiter hdefault.delimiter }

theorem forall_mem_doubles_iff {write : Float → Data} :
    (∀ x ∈ config.doubles, (write x).float? = some x) ↔
      config.decode.ReadsBack write ∧ config.reconstruction.ReadsBack write := by
  simp only [doubles, List.forall_mem_cons, List.not_mem_nil, false_implies, implies_true, and_true]
  rfl

/-- An edited document is read as the settings that it still gives exactly if their doubles are. -/
theorem ofData?_edited_eq_some_iff (dialect : Dialect) (hvalid : config.validate = .ok ())
    (hfits : config.Fits) {limit : List (String × Data)}
    (hlimit : Fields.withDefault ⟨false, limit⟩ "max_points" none (Data.nullable? Data.count?) =
      some config.decode.maxPoints)
    {write : Float → Data} (hwrite : ∀ x ∈ doubles {}, (write x).float? = some x) {edited : Data}
    (h : Config.Edited (config.document write limit) edited) :
    ofData? dialect edited = some (config.keeping edited.gives) ↔
      ∀ x ∈ (config.keeping edited.gives).doubles, (write x).float? = some x := by
  obtain ⟨-, hplaces, hdepth⟩ := of_validate_eq_ok hvalid
  rw [forall_mem_doubles_iff] at hwrite ⊢
  cases h with
  | @record _ after hmembers =>
      have hdecode : (Fields.among names after).withDefault "decode" {}
            (DecodeSettings.ofData? dialect) =
          some (config.keeping (Data.record after).gives).decode ↔ _ :=
        hmembers.withDefault_eq_some_iff (by decide) rfl config.decode.keeping
          (fun kept => (config.decode.keeping kept).ReadsBack write) hwrite.1 rfl fun _ hedited =>
            DecodeSettings.ofData?_edited_eq_some_iff dialect hplaces hlimit hwrite.1 hedited
      have hreconstruction : (Fields.among names after).withDefault "reconstruction" {}
            (ReconstructionParams.ofData? dialect) =
          some (config.keeping (Data.record after).gives).reconstruction ↔ _ :=
        hmembers.withDefault_eq_some_iff (by decide) rfl config.reconstruction.keeping
          (fun kept => (config.reconstruction.keeping kept).ReadsBack write) hwrite.2 rfl
          fun _ hedited =>
            ReconstructionParams.ofData?_edited_eq_some_iff dialect hdepth hfits.numSamples
              hfits.maxNeighbours hfits.minPoints hwrite.2 hedited
      have hexporting : (Fields.among names after).withDefault "export" {}
            (ExportSettings.ofData? dialect) =
          some (config.keeping (Data.record after).gives).exporting ↔ True :=
        hmembers.withDefault_eq_some_iff (by decide) rfl config.exporting.keeping
          (fun _ => True) trivial rfl fun _ hedited =>
            iff_of_true (config.exporting.ofData?_edited dialect hedited) trivial
      have hfields : Fields.read? dialect ["decode", "reconstruction", "export"] (.record after) =
          some (.among names after) :=
        hmembers.read?_record dialect
      rw [ofData?, hfields]
      simp only [Option.bind_eq_bind, Option.bind_some]
      refine Iff.trans ?_ (and_congr hdecode hreconstruction)
      constructor
      · intro h
        obtain ⟨_, hdecode, h⟩ := Option.bind_eq_some_iff.mp h
        obtain ⟨_, hreconstruction, h⟩ := Option.bind_eq_some_iff.mp h
        obtain ⟨_, -, h⟩ := Option.bind_eq_some_iff.mp h
        obtain ⟨rfl, rfl, -⟩ := Config.mk.inj (Option.some.inj h)
        exact ⟨hdecode, hreconstruction⟩
      · rintro ⟨hdecode, hreconstruction⟩
        rw [hdecode, hreconstruction, Option.bind_some, Option.bind_some,
          hexporting.mpr trivial]
        rfl

/-! ## Documents that were not edited -/

theorem edited_document {write : Float → Data} {limit : List (String × Data)}
    (hkeys : (limit.map Prod.fst).Sublist ["max_points"]) :
    Config.Edited (config.document write limit) (config.document write limit) := by
  have hgiven : ((config.decode.given write limit).map Prod.fst).Sublist DecodeSettings.names :=
    hkeys.cons_cons _ |>.cons_cons _ |>.cons_cons _ |>.cons_cons _
  have hparams : ReconstructionParams.names.Nodup := by decide
  have hexporting : ExportSettings.names.Nodup := by decide
  refine Data.edited_refl (List.Sublist.nodup (.refl names) (by decide)) ?_
  simp only [names, List.forall_mem_cons]
  refine ⟨?_, ?_, ?_, List.forall_mem_nil _⟩
  all_goals
    intro old hold
    cases hold
  · exact Data.edited_refl (hgiven.nodup (by decide)) fun _ _ _ _ => rfl
  · exact Data.edited_refl hparams fun _ _ _ _ => rfl
  · exact Data.edited_refl hexporting fun _ _ _ _ => rfl

/-- The settings that a document gives in full are all kept. -/
theorem keeping_document {write : Float → Data} {limit : List (String × Data)}
    (hlimit : Fields.withDefault ⟨false, limit⟩ "max_points" none (Data.nullable? Data.count?) =
      some config.decode.maxPoints) :
    config.keeping (config.document write limit).gives = config := by
  have hmax : (if (limit.lookup "max_points").isSome then config.decode.maxPoints else none) =
      config.decode.maxPoints := by
    rw [Fields.withDefault, Fields.get?] at hlimit
    cases hlookup : limit.lookup "max_points" with
    | some d => rfl
    | none =>
        rw [hlookup] at hlimit
        exact Option.some.inj hlimit
  have hdecode : config.decode.keeping ((config.document write limit).gives "decode") =
      { config.decode with
        maxPoints :=
          if (limit.lookup "max_points").isSome then config.decode.maxPoints else none } := rfl
  rw [keeping, hdecode, hmax]
  rfl

end Config

end Toolpath
