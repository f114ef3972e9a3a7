import Toolpath.Proofs.Settings.RoundTrip

/-! # Settings files that are filled up with defaults

From a file of saved settings any sections and settings may be left out, and
whatever is not a setting may be put in, at any depth. What is loaded then has
the settings that are left and the defaults for all others. Only a double that
JSON does not give back is not loaded as it was.
-/

namespace Toolpath

open Number

variable {config : Config} {format : SettingsFormat} {keptGroup : String → Bool}
  {kept : String → String → Bool}

/-! ## Documents with parts left out -/

/-- Tables without those that are not kept, and without their members that are not. -/
def leavingTables (keptGroup : String → Bool) (kept : String → String → Bool)
    (tables : List (String × List (String × Data))) : List (String × List (String × Data)) :=
  (tables.filter fun table => keptGroup table.1).map fun table =>
    (table.1, table.2.filter fun member => kept table.1 member.1)

theorem leaving_tables {f : List (String × Data) → List (String × Data)}
    (hf : ∀ (p : String → Bool) (members : List (String × Data)),
      f (members.filter fun member => p member.1) = (f members).filter fun member => p member.1)
    (tables : List (String × List (String × Data))) :
    Data.record ((leavingTables keptGroup kept tables).map fun table =>
        (table.1, .record (f table.2))) =
      (Data.record (tables.map fun table => (table.1, .record (f table.2)))).leaving
        keptGroup kept := by
  rw [Data.leaving, leavingTables, List.map_map, List.filter_map, List.map_map]
  congr 1
  refine List.map_congr_left fun table _ => ?_
  simp only [Function.comp_apply, Data.only, hf]

theorem exists_of_mem_leavingTables {tables : List (String × List (String × Data))}
    {table : String × List (String × Data)} (h : table ∈ leavingTables keptGroup kept tables) :
    ∃ whole ∈ tables, table.1 = whole.1 ∧ table.2.Sublist whole.2 := by
  obtain ⟨whole, hwhole, rfl⟩ := List.mem_map.mp h
  exact ⟨whole, (List.mem_filter.mp hwhole).1, rfl, List.filter_sublist⟩

theorem keys_leavingTables (tables : List (String × List (String × Data))) :
    ((leavingTables keptGroup kept tables).map Prod.fst).Sublist (tables.map Prod.fst) := by
  rw [leavingTables, List.map_map]
  exact List.filter_sublist.map Prod.fst

theorem Json.rereadMembers_eq_map (members : List (String × Data)) :
    rereadMembers members = members.map fun member => (member.1, reread member.2) := by
  induction members with
  | nil => rfl
  | cons member members ih =>
      rw [List.map_cons, ← ih]
      rfl

namespace SettingsFormat

/-- What the members of a section are read as when they have been written. -/
def rereadMembers : SettingsFormat → List (String × Data) → List (String × Data)
  | json => Json.rereadMembers
  | toml => Toml.written

theorem rereadMembers_filter (p : String → Bool) (members : List (String × Data)) :
    format.rereadMembers (members.filter fun member => p member.1) =
      (format.rereadMembers members).filter fun member => p member.1 := by
  cases format with
  | json =>
      rw [rereadMembers, Json.rereadMembers_eq_map, Json.rereadMembers_eq_map, List.filter_map]
      rfl
  | toml =>
      rw [rereadMembers, Toml.written, Toml.written, List.filter_filter, List.filter_filter]
      simp only [Bool.and_comm]

end SettingsFormat

namespace Config

/-- Whether the counts are ones that TOML has integers for. -/
structure FitsSigned (config : Config) : Prop where
  maxPoints : ∀ n ∈ config.decode.maxPoints, fitsSigned64 n = true
  numSamples : fitsSigned64 config.reconstruction.numSamples = true
  maxNeighbours : fitsSigned64 config.reconstruction.maxNeighbours = true
  minPoints : fitsSigned64 config.reconstruction.minPoints = true

theorem fitsSigned64_of_fits32 {n : Nat} (h : fits32 n = true) : fitsSigned64 n = true := by
  have hlt : n < 0x100000000 := of_decide_eq_true h
  rw [fitsSigned64, Bool.and_eq_true, decide_eq_true_eq, decide_eq_true_eq]
  omega

theorem exists_line?_ofNat {n : Nat} (h : fitsSigned64 n = true) (name : String) :
    ∃ line, Toml.line? name (.ofNat n) = some line :=
  ⟨_, congrArg (Option.map _) (if_pos h)⟩

theorem exists_line?_limit {limit : Option Nat} (h : ∀ n ∈ limit, fitsSigned64 n = true)
    (name : String) : ∃ line, Toml.line? name (Data.ofOption .ofNat limit) = some line := by
  cases limit with
  | none => exact ⟨_, rfl⟩
  | some n => exact exists_line?_ofNat (h n rfl) name

theorem exists_line?_bool (b : Bool) (name : String) :
    ∃ line, Toml.line? name (.bool b) = some line := by
  cases b <;> exact ⟨_, rfl⟩

theorem exists_line?_tables (hvalid : config.validate = .ok ()) (hsigned : config.FitsSigned) :
    ∀ table ∈ config.tables, ∀ member ∈ table.2,
      ∃ line, Toml.line? member.1 member.2 = some line := by
  obtain ⟨-, hplaces, hdepth⟩ := of_validate_eq_ok hvalid
  simp only [tables, DecodeSettings.given, ReconstructionParams.given, List.forall_mem_cons]
  exact ⟨⟨⟨_, rfl⟩, ⟨_, rfl⟩, exists_line?_bool _ _,
      exists_line?_ofNat (fitsSigned64_of_fits32 hplaces) _,
      exists_line?_limit hsigned.maxPoints _, List.forall_mem_nil _⟩,
    ⟨exists_line?_ofNat (fitsSigned64_of_fits32 hdepth) _, ⟨_, rfl⟩, exists_line?_bool _ _,
      exists_line?_ofNat hsigned.numSamples _, ⟨_, rfl⟩,
      exists_line?_ofNat hsigned.maxNeighbours _, exists_line?_ofNat hsigned.minPoints _,
      List.forall_mem_nil _⟩,
    ⟨⟨_, rfl⟩, ⟨_, rfl⟩, List.forall_mem_nil _⟩, List.forall_mem_nil _⟩

/-- Settings are written, in TOML if it has integers for their counts. -/
theorem exists_render (hvalid : config.validate = .ok ())
    (hsigned : format = .toml → config.FitsSigned) :
    ∃ content, config.render format = .ok content := by
  cases format with
  | json => exact ⟨_, rfl⟩
  | toml =>
      obtain ⟨content, hprint⟩ :=
        Toml.exists_print?_eq_some (exists_line?_tables hvalid (hsigned rfl))
      have hprint : Toml.print? config.toData = some content := hprint
      refine ⟨content, ?_⟩
      rw [render, hprint]
      rfl

theorem saved_eq_tables (hvalid : config.validate = .ok ()) (hfits : config.Fits) :
    config.saved format =
      .record (config.tables.map fun table =>
        (table.1, .record (format.rereadMembers table.2))) := by
  cases format with
  | json => exact (reread_toData hvalid hfits).symm
  | toml => rfl

/-- Whatever part of the settings is left out, there is a document with the rest. -/
theorem exists_text_leaving (hvalid : config.validate = .ok ()) (hfits : config.Fits)
    (hsigned : format = .toml → config.FitsSigned) (keptGroup : String → Bool)
    (kept : String → String → Bool) :
    ∃ text, format.read? text = some ((config.saved format).leaving keptGroup kept) := by
  rw [saved_eq_tables hvalid hfits, ← leaving_tables format.rereadMembers_filter]
  cases format with
  | json =>
      refine ⟨_, (Json.read?_pretty (.record ((leavingTables keptGroup kept config.tables).map
        fun table => (table.1, .record table.2)))).trans ?_⟩
      rw [Json.reread, Json.rereadMembers_eq_map, List.map_map]
      rfl
  | toml =>
      have hwritable : ∀ table ∈ leavingTables keptGroup kept config.tables,
          Toml.IsBareKey table.1 ∧ Toml.Writable table.2 := by
        intro table htable
        obtain ⟨whole, hwhole, hname, hsublist⟩ := exists_of_mem_leavingTables htable
        obtain ⟨hbare, hmembers⟩ := writable_tables (of_validate_eq_ok hvalid).1 whole hwhole
        exact ⟨hname ▸ hbare, hmembers.sublist hsublist⟩
      have hlines : ∀ table ∈ leavingTables keptGroup kept config.tables, ∀ member ∈ table.2,
          ∃ line, Toml.line? member.1 member.2 = some line := by
        intro table htable member hmember
        obtain ⟨whole, hwhole, -, hsublist⟩ := exists_of_mem_leavingTables htable
        exact exists_line?_tables hvalid (hsigned rfl) whole hwhole member
          (hsublist.subset hmember)
      obtain ⟨content, hprint⟩ := Toml.exists_print?_eq_some hlines
      exact ⟨content.toList, Toml.read?_print? hwritable
        ((keys_leavingTables config.tables).nodup config.nodup_tables) hprint⟩

/-! ## Files -/

/-- Valid settings are written, and what is written is read as a document that gives them. Any of
its sections and fields may be left out of it, and there is a text for what remains. Whatever else
is put in, a file with such a document is loaded as the settings that it still gives, with the
defaults for the others, from JSON exactly if reading gives each of their doubles back. -/
theorem load_edited_eq_ok_iff (hvalid : config.validate = .ok ()) (hfits : config.Fits)
    (hsigned : format = .toml → config.FitsSigned) :
    (∃ content, config.render format = .ok content ∧
      format.read? content.toList = some (config.saved format)) ∧
    (∀ (keptGroup : String → Bool) (kept : String → String → Bool), ∃ text edited,
      format.read? text = some edited ∧ Config.Edited (config.saved format) edited ∧
      ∀ group field, edited.gives group field =
        (keptGroup group && kept group field && (config.saved format).gives group field)) ∧
    ∀ edited, Config.Edited (config.saved format) edited →
      ∀ (fs : FileSystem) (path : String) (text : List Char),
        SettingsFormat.ofPath path = .ok format → fs.readText path = .ok text →
        format.read? text = some edited →
        (load fs path = .ok (config.keeping edited.gives) ↔
          (format = .json → ∀ x ∈ (config.keeping edited.gives).doubles, Json.ReadsBack x)) := by
  refine ⟨?_, fun keptGroup kept => ?_, ?_⟩
  · obtain ⟨content, hrender⟩ := exists_render hvalid hsigned
    exact ⟨content, hrender, read?_of_render hvalid hfits hrender⟩
  · obtain ⟨text, hread⟩ := exists_text_leaving hvalid hfits hsigned keptGroup kept
    have hsame : Config.Edited (config.saved format) (config.saved format) :=
      edited_document SettingsFormat.keys_limit
    exact ⟨text, _, hread, hsame.leaving keptGroup kept, Data.gives_leaving keptGroup kept _⟩
  · intro edited hedited fs path text hformat htext hread
    have hmixed : (config.keeping edited.gives).validate = .ok () :=
      validate_eq_ok_iff.mpr ((validate_eq_ok_iff.mp hvalid).keeping edited.gives)
    rw [load_eq_ok_iff hformat htext, and_iff_left hmixed]
    exact parse_edited_eq_ok_iff hvalid hfits hedited hread

/-- A document with the step and the delimiter of the settings and with nothing else of them. There
are a note in it and a colour. -/
def annotated (config : Config) : Data :=
  .record [("note", .list [.record [("decode", .null)]]),
    ("export", .record [("colour", .text "red"), ("delimiter", .text config.exporting.delimiter)]),
    ("decode", .record [("resolution_step", .float config.decode.step)])]

theorem edited_annotated (config : Config) :
    Config.Edited (config.saved .json) (Json.reread config.annotated) := by
  have hgroups : ["export", "decode"].Nodup := by decide
  refine .record (Data.editedMembers_of_mem hgroups ?_)
  simp only [Json.rereadMembers, List.forall_mem_cons]
  refine ⟨fun h => absurd h (by decide), fun _ => ⟨_, rfl, ?_⟩, fun _ => ⟨_, rfl, ?_⟩,
    List.forall_mem_nil _⟩
  · have hfields : ["delimiter"].Nodup := by decide
    refine .record (Data.editedMembers_of_mem hfields ?_)
    simp only [Json.rereadMembers, List.forall_mem_cons]
    exact ⟨fun h => absurd h (by decide), fun _ => ⟨_, rfl, rfl⟩, List.forall_mem_nil _⟩
  · have hfields : ["resolution_step"].Nodup := by decide
    refine .record (Data.editedMembers_of_mem hfields ?_)
    simp only [Json.rereadMembers, List.forall_mem_cons]
    exact ⟨fun _ => ⟨_, rfl, rfl⟩, List.forall_mem_nil _⟩

theorem read?_annotated (config : Config) :
    SettingsFormat.json.read? (Json.pretty config.annotated).toList =
      some (Json.reread config.annotated) :=
  Json.read?_pretty config.annotated

/-- The file system with nothing but a file. -/
def holding (name : String) (text : List Char) : FileSystem :=
  ⟨[([name], .file (Utf8.encode text))], []⟩

theorem readText_holding (text : List Char) :
    (holding "c.json" text).readText "c.json" = .ok text := by
  have hwrite : FileSystem.write {} "c.json" (Utf8.encode text) = .ok (holding "c.json" text) := rfl
  exact FileSystem.readText_of_write hwrite

/-- The step and the delimiter are as they were, and all else has its default. -/
theorem load_edited_of_annotated :
    let config : Config := {
      decode := { step := 0.3, maxPoints := some 7 }
      exporting := { format := .ply, delimiter := "\t" } }
    let fs := holding "c.json" (Json.pretty config.annotated).toList
    load fs "c.json" = .ok { decode := { step := 0.3 }, exporting := { delimiter := "\t" } } := by
  intro config fs
  have hvalid : config.validate = .ok () := by decide +kernel
  have hfits : config.Fits :=
    ⟨fun n hn => by cases hn; decide, by decide, by decide, by decide⟩
  have hsigned : SettingsFormat.json = .toml → config.FitsSigned := nofun
  obtain ⟨-, -, hload⟩ := load_edited_eq_ok_iff hvalid hfits hsigned
  have hjson : SettingsFormat.ofPath "c.json" = .ok .json := by decide
  have hdoubles : ∀ x ∈ (config.keeping (Json.reread config.annotated).gives).doubles,
      Json.ReadsBack x := by
    decide +kernel
  exact (hload _ config.edited_annotated fs "c.json" _ hjson (readText_holding _)
    config.read?_annotated).mpr fun _ => hdoubles

/-- A step of seventeen digits is read from JSON as its neighbour, whatever else is left out. -/
theorem load_edited_loses_double :
    let config : Config := { decode := { step := 414.90671162274515 } }
    let fs := holding "c.json" (Json.pretty config.annotated).toList
    config.validate = .ok () ∧ Config.Edited (config.saved .json) (Json.reread config.annotated) ∧
      SettingsFormat.json.read? (Json.pretty config.annotated).toList =
        some (Json.reread config.annotated) ∧
      load fs "c.json" ≠ .ok (config.keeping (Json.reread config.annotated).gives) := by
  intro config fs
  have hvalid : config.validate = .ok () := by decide +kernel
  have hfits : config.Fits := ⟨nofun, by decide, by decide, by decide⟩
  have hjson : SettingsFormat.ofPath "c.json" = .ok .json := by decide
  have hdoubles : ¬∀ x ∈ (config.keeping (Json.reread config.annotated).gives).doubles,
      Json.ReadsBack x := by
    decide +kernel
  have hparse := parse_edited_eq_ok_iff hvalid hfits config.edited_annotated config.read?_annotated
  refine ⟨hvalid, config.edited_annotated, config.read?_annotated, fun hloaded => hdoubles ?_⟩
  exact hparse.mp ((load_eq_ok_iff hjson (readText_holding _)).mp hloaded).1 rfl

end Config

end Toolpath
