import Toolpath.Proofs.Cloud.Layers
import Toolpath.Proofs.Cloud.Limit
import Toolpath.Proofs.Cloud.Validity
import Toolpath.Proofs.Conversion
import Toolpath.Proofs.Files.Readers
import Toolpath.Proofs.Motion.Counters

/-! # Inspecting a program file

An inspection is a conversion with an observer that keeps the deposits for the
layers. The observer has no say in the pass, and it sees the segments that are
taken into the cloud and no others, so that the layers, the counters of the
decoder and those of the reader all speak of the same lines.
-/

namespace Toolpath

/-- The counters of a fresh decoder are balanced behind every program. -/
theorem MotionDecoder.balanced_decodeAll (lines : List String) :
    Balanced (({} : MotionDecoder).decodeAll lines) (({} : MotionDecoder).segments lines) := by
  have hfresh : Balanced {} [] := ⟨rfl, rfl, rfl, rfl, Nat.le_refl _⟩
  exact hfresh.decodeAll lines

namespace Assembler

/-- A fresh assembler has room for a point, unless there is to be none. -/
theorem isFull_start {options : AssemblyOptions} (hlimit : options.maxPoints ≠ some 0) :
    Assembler.isFull { options } = false := by
  rw [← Bool.not_eq_true, isFull_iff]
  change ¬options.maxPoints.map (· - 0) = some 0
  simpa using hlimit

end Assembler

namespace Pass

variable {σ τ : Type} (keep : σ → MotionSegment → σ)

/-- The pass goes as it does whatever is kept of the segments. -/
theorem feed_line_of_keep (keep' : τ → MotionSegment → τ) (decoder : MotionDecoder)
    (assembler : Assembler) (kept : σ) (kept' : τ) (lines : List String) :
    let fed := ProgramFile.feed (line keep) ⟨decoder, assembler, kept⟩ lines
    let fed' := ProgramFile.feed (line keep') ⟨decoder, assembler, kept'⟩ lines
    fed.1 = fed'.1 ∧ fed.2.1 = fed'.2.1 ∧ fed.2.2.decoder = fed'.2.2.decoder ∧
      fed.2.2.assembler = fed'.2.2.assembler := by
  refine ProgramFile.feed_of_related
    (fun (pass : Pass σ) (pass' : Pass τ) =>
      pass.decoder = pass'.decoder ∧ pass.assembler = pass'.assembler)
    Eq ?_ (List.forall₂_refl lines) ⟨rfl, rfl⟩
  rintro ⟨decoder, assembler, kept⟩ ⟨_, _, kept'⟩ line _ ⟨rfl, rfl⟩ rfl
  simp only [Pass.line]
  rcases decoder.decode line with ⟨_ | segment, after⟩
  · exact ⟨rfl, rfl, rfl⟩
  · exact ⟨rfl, rfl, rfl⟩

/-- A pass that starts with room left has made of the lines it was told what they say, with every
segment taken in and kept, and it has stopped if that used up the room. -/
theorem feed_line (decoder : MotionDecoder) (assembler : Assembler) (kept : σ)
    (hroom : assembler.isFull = false) (lines : List String) :
    let fed := ProgramFile.feed (line keep) ⟨decoder, assembler, kept⟩ lines
    let segments := decoder.segments (lines.take fed.2.1)
    fed.2.2 = ⟨decoder.decodeAll (lines.take fed.2.1), segments.foldl Assembler.insert assembler,
        segments.foldl keep kept⟩ ∧
      fed.2.2.assembler.segments = assembler.segments + segments.length ∧
      (fed.1 = .stop ↔ fed.2.2.assembler.isFull = true) := by
  induction lines generalizing decoder assembler kept with
  | nil => simp [ProgramFile.feed, hroom]
  | cons first lines ih =>
      rcases hdecode : decoder.decode first with ⟨_ | segment, after⟩
      · have hline := line_of_decode_none keep hdecode assembler kept
        obtain ⟨hfinal, hcount, hstop⟩ := ih after assembler kept hroom
        simp only [ProgramFile.feed_cons_goOn _ hline, List.take_succ_cons,
          MotionDecoder.segments_cons, MotionDecoder.decodeAll_cons, hdecode, Option.toList_none,
          List.nil_append]
        exact ⟨hfinal, hcount, hstop⟩
      · have hline := line_of_decode_some keep hdecode assembler kept
        rw [Assembler.push] at hline
        have hcounted := assembler.segments_insert
          (mt assembler.isFull_iff.mpr (Bool.not_eq_true _ ▸ hroom)) segment
        by_cases hfull : (assembler.insert segment).isFull = true
        · rw [Assembler.flow, if_pos hfull] at hline
          simp [ProgramFile.feed_cons_stop _ hline, MotionDecoder.segments_cons, hdecode, hcounted,
            hfull]
        · rw [Assembler.flow, if_neg hfull] at hline
          obtain ⟨hfinal, hcount, hstop⟩ := ih after (assembler.insert segment)
            (keep kept segment) (Bool.not_eq_true _ ▸ hfull)
          simp only [ProgramFile.feed_cons_goOn _ hline, List.take_succ_cons,
            MotionDecoder.segments_cons, MotionDecoder.decodeAll_cons, hdecode,
            Option.toList_some, List.cons_append, List.nil_append, List.foldl_cons,
            List.length_cons]
          refine ⟨hfinal, ?_, hstop⟩
          rw [hcount, hcounted]
          omega

section FromTheStart

variable (options : AssemblyOptions) (hlimit : options.maxPoints ≠ some 0) (kept : σ)
  (lines : List String)

include hlimit

/-- The lines that a pass is told are those whose segments are taken into the cloud. -/
theorem segments_take_eq_consumed :
    ({} : MotionDecoder).segments
        (lines.take (ProgramFile.feed (line keep) ⟨{}, { options }, kept⟩ lines).2.1) =
      (options.consumed (({} : MotionDecoder).segments lines)).map Prod.fst := by
  obtain ⟨-, hcount, -⟩ := feed_line keep {} { options } kept (Assembler.isFull_start hlimit) lines
  have hassembled := (feed_eq_pushLines keep {} { options } kept lines).2.2
  have htaken := (PointCloud.consumed_eq_take options (({} : MotionDecoder).segments lines)).1
  rw [hassembled, Assembler.fst_pushLines, Nat.zero_add] at hcount
  rw [htaken, hcount]
  -- The segments of the lines told are the front of all segments.
  generalize (ProgramFile.feed (line keep) ⟨{}, { options }, kept⟩ lines).2.1 = used
  have hsplit := MotionDecoder.segments_append {} (lines.take used) (lines.drop used)
  rw [List.take_append_drop] at hsplit
  rw [hsplit, List.take_left]

/-- A pass stops exactly if the cloud has as many points as the limit admits. -/
theorem feed_line_eq_stop_iff :
    let fed := ProgramFile.feed (line keep) ⟨{}, { options }, kept⟩ lines
    fed.1 = .stop ↔
      ∃ limit, options.maxPoints = some limit ∧ fed.2.2.assembler.cloud.size = limit := by
  intro fed
  obtain ⟨-, -, hstop⟩ :=
    feed_line keep {} { options } kept (Assembler.isFull_start hlimit) lines
  have hassembled := (feed_eq_pushLines keep {} { options } kept lines).2.2
  rw [Assembler.fst_pushLines] at hassembled
  rw [hstop, hassembled]
  generalize hsegments : ({} : MotionDecoder).segments lines = segments
  have hwithin := Assembler.withinLimit_pushAll options segments
  rw [Assembler.isFull, Assembler.options_pushAll]
  cases hlimit : options.maxPoints with
  | none => simp
  | some limit =>
      have hle := hwithin.size limit hlimit
      simp only [decide_eq_true_iff, Option.some.injEq, exists_eq_left']
      omega

end FromTheStart

end Pass

namespace Conversion

/-- What an inspection keeps of the segments. -/
def keepDeposit (deposits : Array MotionSegment) (segment : MotionSegment) :
    Array MotionSegment :=
  if segment.isDeposit then deposits.push segment else deposits

theorem toList_foldl_keepDeposit (deposits : Array MotionSegment) (segments : List MotionSegment) :
    (segments.foldl keepDeposit deposits).toList =
      deposits.toList ++ segments.filter (·.isDeposit) := by
  induction segments generalizing deposits with
  | nil => simp
  | cons segment segments ih =>
      rw [List.foldl_cons, ih, keepDeposit]
      by_cases h : segment.isDeposit = true <;> simp [h]

variable {fs : FileSystem} {path : String} {file : ProgramFile}

/-- The conversion of a file that is there, told by what its lines feed the pass. -/
theorem run_eq {σ : Type} (hfind : ProgramFile.find fs path = .ok file)
    (options : AssemblyOptions) (keep : σ → MotionSegment → σ) (kept : σ) :
    run fs path options keep kept =
      let (read, pass) := file.readLines (Pass.line keep) { assembler := { options }, kept }
      .ok (⟨path, pass.assembler.cloud, pass.decoder.stats, read⟩, pass.kept) := by
  rw [run, hfind]
  rfl

end Conversion

theorem inspectFile_eq_map (fs : FileSystem) (path : String) (options : AssemblyOptions) :
    inspectFile fs path options =
      (Conversion.run fs path options Conversion.keepDeposit #[]).map fun (conversion, deposits) =>
        (conversion, Layer.ofSegments deposits.toList) := by
  unfold inspectFile
  cases h : Conversion.run fs path options Conversion.keepDeposit #[] <;>
    unfold Conversion.keepDeposit at h <;> simp only [h] <;> rfl

/-- An inspection converts the file as a conversion does, or fails as it does. -/
theorem map_fst_inspectFile (fs : FileSystem) (path : String) (options : AssemblyOptions) :
    (inspectFile fs path options).map Prod.fst = convertFile fs path options := by
  rw [inspectFile_eq_map, convertFile]
  cases hfind : ProgramFile.find fs path with
  | error failure =>
      rw [Conversion.run, Conversion.run, hfind]
      rfl
  | ok file =>
      rw [Conversion.run_eq hfind, Conversion.run_eq hfind, ProgramFile.readLines_eq,
        ProgramFile.readLines_eq]
      obtain ⟨hflow, hused, hdecoder, hassembler⟩ := Pass.feed_line_of_keep Conversion.keepDeposit
        (fun (_ : Unit) _ => ()) {} { options } #[] () (ProgramFile.textLines file.text)
      simp only [Except.map, hflow, hused, hdecoder, hassembler]

/-- An inspection gives the same conversion as without layers. Its layers are those of the deposits
among the segments taken into the cloud, one segment for each deposit counted; the decoder has seen
as many lines as the reader has read; and the reading stops early exactly if the cloud comes to have
as many points as the limit admits. -/
theorem inspectFile_eq_convertFile (fs : FileSystem) (path : String) (options : AssemblyOptions) :
    (inspectFile fs path options).map Prod.fst = convertFile fs path options ∧
    (options.maxPoints ≠ some 0 → ∀ file, ProgramFile.find fs path = .ok file →
      ∃ conversion layers, inspectFile fs path options = .ok (conversion, layers) ∧
        let segments := (SegmentStream.rest { lines := file.lines.1 }).1
        let taken := (options.consumed segments).map Prod.fst
        layers = Layer.ofSegments (taken.filter (·.isDeposit)) ∧
        (layers.map (·.segments.length)).sum = conversion.stats.depositMoves ∧
        conversion.stats.lines = conversion.read.lines ∧
        (conversion.read.stoppedEarly = true ↔
          ∃ limit, options.maxPoints = some limit ∧ conversion.cloud.size = limit)) := by
  refine ⟨map_fst_inspectFile fs path options, fun hlimit file hfind => ?_⟩
  have hlines : file.lines.1 = ProgramFile.textLines file.text := by rw [ProgramFile.lines_eq]
  rw [inspectFile_eq_map, Conversion.run_eq hfind, ProgramFile.readLines_eq]
  refine ⟨_, _, rfl, ?_⟩
  rw [hlines, SegmentStream.rest_eq]
  generalize ProgramFile.textLines file.text = lines
  have hfed := Pass.feed_line Conversion.keepDeposit {} { options } #[]
    (Assembler.isFull_start hlimit) lines
  have htaken := Pass.segments_take_eq_consumed Conversion.keepDeposit options hlimit #[] lines
  have hstop := Pass.feed_line_eq_stop_iff Conversion.keepDeposit options hlimit #[] lines
  have hused := ProgramFile.feed_le (Pass.line Conversion.keepDeposit)
    ⟨{}, { options }, #[]⟩ lines
  generalize ProgramFile.feed (Pass.line Conversion.keepDeposit) ⟨{}, { options }, #[]⟩ lines =
    fed at hfed htaken hstop hused
  have hdecoder := congrArg Pass.decoder hfed.1
  have hkept := congrArg (Array.toList ∘ Pass.kept) hfed.1
  simp only [Function.comp_apply, Conversion.toList_foldl_keepDeposit, List.nil_append] at hkept
  have hbalanced := MotionDecoder.balanced_decodeAll (lines.take fed.2.1)
  dsimp only
  rw [hkept, hdecoder, Layer.ofSegments_filter]
  refine ⟨?_, ?_, ?_, ?_⟩
  · rw [← htaken, Layer.ofSegments_filter]
  · rw [Layer.sum_length_segments_ofSegments]
    exact hbalanced.deposits.symm
  · change (({} : MotionDecoder).decodeAll (lines.take fed.2.1)).lines = fed.2.1
    rw [MotionDecoder.lines_decodeAll, List.length_take, Nat.min_eq_left hused]
    exact Nat.zero_add _
  · rw [decide_eq_true_iff]
    exact hstop

/-- A limit that the last line reaches counts as well, and its deposit, cut short, has a place in a
layer. -/
theorem inspectFile_of_last_line :
    let content := Utf8.encode "G1 X1 E1\nG1 X2 E2".toList
    let fs : FileSystem := { nodes := [(["part.gcode"], .file content)] }
    let options : AssemblyOptions := { decode := { step := 0.25 }, maxPoints := some 5 }
    ∃ conversion layers, inspectFile fs "part.gcode" options = .ok (conversion, layers) ∧
      conversion.read.stoppedEarly = true ∧ (layers.map (·.segments.length)).sum = 2 := by
  intro content fs options
  obtain ⟨conversion, layers, hinspect, -, hsum, -, hstop⟩ :=
    (inspectFile_eq_convertFile fs "part.gcode" options).2 (by decide) ⟨"part.gcode", content⟩ rfl
  have hcounts : (inspectFile fs "part.gcode" options).map
      (fun (conversion, _) => (conversion.cloud.size, conversion.stats.depositMoves)) =
        .ok (5, 2) := by
    decide +kernel
  rw [hinspect] at hcounts
  obtain ⟨hsize, hdeposits⟩ := Prod.mk.inj (Except.ok.inj hcounts)
  exact ⟨conversion, layers, hinspect, hstop.mpr ⟨5, rfl, hsize⟩, hsum.trans hdeposits⟩

end Toolpath
