import Toolpath.CommandLine.Run
import Toolpath.Proofs.Cloud.Writing
import Toolpath.Proofs.CommandLine.Spelling
import Toolpath.Proofs.Files.Names

/-! # What a run leaves of its input

A run that decodes changes the file system only if all goes well until it opens
its output. The output is empty then, and holds what has been written of the
points by the end. Without a place for the output, the points are written under
the path of the input with the extension of their format. This leaves the input
as it is unless the input has that very extension; then the points take its
place, or as many of them as could be written.
-/

namespace Toolpath

theorem PointFormat.slash_not_mem_extension (format : PointFormat) :
    '/' ∉ format.extension.toList := by
  cases format <;> decide

theorem exists_stat_of_convertFile {fs : FileSystem} {path : String} {options : AssemblyOptions}
    {faults : Faults} {conversion : Conversion}
    (h : convertFile fs path options faults = .ok conversion) :
    ∃ content, fs.stat path = .ok (.file content) := by
  rw [convertFile, Conversion.run, ProgramFile.find] at h
  split at h
  next => cases h
  next => cases h
  next content hstat => exact ⟨content, hstat⟩

theorem Faults.place_of_create {faults : Faults} {fs : FileSystem} {path : String}
    {location : Location} (h : faults.create fs path = .ok location) :
    fs.place path = .ok location := by
  unfold create at h
  split at h
  next => exact h
  next => cases h

namespace CommandLine

/-- Where a run that decodes writes its points. -/
def Invocation.output (invocation : Invocation) (loaded : Config) : String :=
  outputPath invocation.given invocation.input (invocation.settings loaded).exporting.format

/-- The bytes of the point file that a run makes of a conversion. -/
def Invocation.pointFile (invocation : Invocation) (loaded : Config) (conversion : Conversion) :
    List UInt8 :=
  let exporting := (invocation.settings loaded).exporting
  Utf8.encode (conversion.cloud.render exporting.format exporting.delimiter)

/-- As many of these bytes as can be written. -/
def Invocation.written (invocation : Invocation) (loaded : Config) (conversion : Conversion)
    (faults : Faults) : List UInt8 :=
  Sink.reached (faults.writing (invocation.output loaded)) (invocation.pointFile loaded conversion)

/-- A run that decodes gets as far as opening its output. -/
structure Opens (platform : Option String) (invocation : Invocation) (fs : FileSystem)
    (faults : Faults) (loaded : Config) (conversion : Conversion) (location : Location) :
    Prop where
  loads : Config.loadOrDefault fs platform invocation.config faults = .ok loaded
  validates : (invocation.settings loaded).validate = .ok ()
  converts : convertFile fs invocation.input (invocation.settings loaded).assemblyOptions faults =
    .ok conversion
  creates : faults.create fs (invocation.output loaded) = .ok location

variable {platform : Option String} {invocation : Invocation} {fs : FileSystem} {faults : Faults}
  {loaded : Config} {conversion : Conversion} {location : Location}

/-- What becomes of the output decides how a run that has a conversion ends. -/
theorem decode_of_convertFile {config : Config} {input : String} (json : Bool) (output : String)
    (h : convertFile fs input config.assemblyOptions faults = .ok conversion) :
    let stored := conversion.cloud.store config.exporting.format config.exporting.delimiter fs
      output faults
    (decode fs config json input output faults).2 = stored.2 ∧
      ((decode fs config json input output faults).1.exitCode = 0 → stored.1 = .ok ()) := by
  rw [decode, h]
  dsimp only
  split
  next hstored => exact ⟨by rw [hstored], nofun⟩
  next hstored => exact ⟨by rw [hstored], fun _ => by rw [hstored]⟩

theorem execute_eq_decode (hload : Config.loadOrDefault fs platform invocation.config faults =
      .ok loaded) (hvalidate : (invocation.settings loaded).validate = .ok ())
    (hcommand : invocation.command = .decode) :
    execute platform invocation fs faults =
      decode fs (invocation.settings loaded) invocation.json invocation.input
        (invocation.output loaded) faults := by
  rw [execute, hload]
  simp only [hvalidate, hcommand]
  rfl

/-- A run that opens its output leaves there what could be written, which is all if the run
succeeds. -/
theorem execute_of_opens (hcommand : invocation.command = .decode)
    (h : Opens platform invocation fs faults loaded conversion location) :
    let result := execute platform invocation fs faults
    let written := invocation.written loaded conversion faults
    result.2 = fs.put location (.file written) ∧
      (result.1.exitCode = 0 → written = invocation.pointFile loaded conversion) := by
  obtain ⟨hafter, hok⟩ := decode_of_convertFile invocation.json (invocation.output loaded)
    h.converts
  rw [execute_eq_decode h.loads h.validates hcommand]
  refine ⟨?_, fun hexit => ?_⟩
  · rw [hafter, PointCloud.store_snd_of_create _ _ _ h.creates]
    rfl
  · exact (PointCloud.store_eq_ok_iff_of_create _ _ _ h.creates).mp (hok hexit)

theorem write_of_opens (hcommand : invocation.command = .decode)
    (h : Opens platform invocation fs faults loaded conversion location) :
    fs.write (invocation.output loaded) (invocation.written loaded conversion faults) =
      .ok (execute platform invocation fs faults).2 := by
  rw [(execute_of_opens hcommand h).1]
  exact FileSystem.write_of_place (Faults.place_of_create h.creates) _

/-- A run that does not get as far as opening its output fails and changes nothing. -/
theorem execute_of_not_opens (hcommand : invocation.command = .decode)
    (h : ∀ loaded conversion location,
      ¬Opens platform invocation fs faults loaded conversion location) :
    (execute platform invocation fs faults).1.exitCode ≠ 0 ∧
      (execute platform invocation fs faults).2 = fs := by
  cases hload : Config.loadOrDefault fs platform invocation.config faults with
  | error => simp [execute, hload, Outcome.failed]
  | ok loaded =>
      cases hvalidate : (invocation.settings loaded).validate with
      | error => simp [execute, hload, hvalidate, Outcome.failed]
      | ok =>
          rw [execute_eq_decode hload hvalidate hcommand, decode]
          cases hconvert : convertFile fs invocation.input
              (invocation.settings loaded).assemblyOptions faults with
          | error => exact ⟨Nat.one_ne_zero, rfl⟩
          | ok conversion =>
              cases hcreate : faults.create fs (invocation.output loaded) with
              | error cause =>
                  simp [PointCloud.store_of_create_eq_error _ _ _ hcreate, Outcome.failed]
              | ok location => exact absurd ⟨hload, hvalidate, hconvert, hcreate⟩ (h _ _ _)

/-- Whatever goes wrong, a run that decodes without a place for its output leaves the input as it
is if it does not get as far as opening its output, or if the input does not have the extension of
the format. Otherwise what could be written of the points takes the place of the input, and all of
them if the run succeeds. -/
theorem run_decode_stat_input {arguments : List String} (htree : fs.IsTree)
    (hasks : Asks arguments invocation) (hcommand : invocation.command = .decode)
    (houtput : invocation.given.output = none) (platform : Option String) (faults : Faults) :
    let result := run platform arguments fs faults
    ((∀ loaded conversion location,
        ¬Opens platform invocation fs faults loaded conversion location) →
      result.1.exitCode ≠ 0 ∧ result.2 = fs) ∧
    ∀ loaded conversion location, Opens platform invocation fs faults loaded conversion location →
      let extension := (invocation.settings loaded).exporting.format.extension
      let written := invocation.written loaded conversion faults
      (Path.extension? invocation.input ≠ some extension →
        result.2.stat invocation.input = fs.stat invocation.input) ∧
      (Path.extension? invocation.input = some extension →
        result.2.stat invocation.input = .ok (.file written)) ∧
      (result.1.exitCode = 0 → written = invocation.pointFile loaded conversion) := by
  intro result
  have hrun : result = execute platform invocation fs faults := by
    dsimp only [result]
    rw [run, parse_eq_run_iff.mpr hasks]
  rw [hrun]
  refine ⟨execute_of_not_opens hcommand, fun loaded conversion location hopens => ?_⟩
  obtain ⟨content, hfile⟩ := exists_stat_of_convertFile hopens.converts
  have hslash := (invocation.settings loaded).exporting.format.slash_not_mem_extension
  have hpath : invocation.output loaded = Path.withExtension invocation.input
      (invocation.settings loaded).exporting.format.extension := by
    rw [Invocation.output, outputPath, houtput, Option.getD_none]
  have hwrite := write_of_opens hcommand hopens
  rw [hpath] at hwrite
  exact ⟨FileSystem.stat_of_write_withExtension htree hslash hfile hwrite,
    FileSystem.stat_of_write_withExtension_self htree hslash hfile hwrite,
    (execute_of_opens hcommand hopens).2⟩

/-- A program with another extension is still there after its points have been written, and also
after writing them has been broken off. -/
theorem run_decode_keeps_program :
    let fs : FileSystem :=
      { nodes := [(["part.gcode"], .file (Utf8.encode "G1 X1 E1\n".toList))] }
    let full : Faults :=
      { writing := fun _ => some ⟨4, .other "No space left on device (os error 28)"⟩ }
    let arguments := ["decode", "part.gcode", "--mode", "vertex"]
    let complete := run none arguments fs
    let broken := run none arguments fs full
    complete.2.readText "part.csv" = .ok "1,0,0\n".toList ∧
      complete.2.stat "part.gcode" = fs.stat "part.gcode" ∧
      broken.1.exitCode = 1 ∧ broken.2.readText "part.csv" = .ok "1,0,".toList ∧
      broken.2.stat "part.gcode" = fs.stat "part.gcode" := by
  intro fs full arguments complete broken
  have htree : fs.IsTree := FileSystem.isTree_of_file _ _
  have hasks : Asks arguments
      ⟨false, none, .decode, { mode := some .vertex, input := some "part.gcode" },
        "part.gcode"⟩ := parse_eq_run_iff.mp rfl
  have hkept (faults : Faults) :
      (run none arguments fs faults).2.stat "part.gcode" = fs.stat "part.gcode" := by
    obtain ⟨hunopened, hopened⟩ := run_decode_stat_input htree hasks rfl rfl none faults
    by_cases h : ∃ loaded conversion location,
        Opens none ⟨false, none, .decode, { mode := some .vertex, input := some "part.gcode" },
          "part.gcode"⟩ fs faults loaded conversion location
    · obtain ⟨loaded, conversion, location, hopens⟩ := h
      refine (hopened _ _ _ hopens).1 ?_
      cases hopens.loads
      decide
    · push Not at h
      rw [(hunopened h).2]
  exact ⟨by decide +kernel, hkept {}, by decide +kernel, by decide +kernel, hkept full⟩

/-- A program whose name looks like that of a point file is lost, and more so if writing its points
is broken off. -/
theorem run_decode_replaces_program :
    let fs : FileSystem :=
      { nodes := [(["part.csv"], .file (Utf8.encode "G1 X1 E1\n".toList))] }
    let full : Faults :=
      { writing := fun _ => some ⟨4, .other "No space left on device (os error 28)"⟩ }
    let arguments := ["decode", "part.csv", "--mode", "vertex"]
    let complete := run none arguments fs
    let broken := run none arguments fs full
    fs.IsTree ∧ fs.readText "part.csv" = .ok "G1 X1 E1\n".toList ∧
      complete.2.readText "part.csv" = .ok "1,0,0\n".toList ∧
      broken.1.exitCode = 1 ∧ broken.2.readText "part.csv" = .ok "1,0,".toList := by
  intro fs full arguments complete broken
  exact ⟨FileSystem.isTree_of_file _ _, by decide +kernel, by decide +kernel, by decide +kernel,
    by decide +kernel⟩

end CommandLine

end Toolpath
