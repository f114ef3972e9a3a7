import Toolpath.Conversion
import Toolpath.Proofs.Files.Lines
import Toolpath.Proofs.Motion.Grammar

/-! # Two ways to convert a program

A program file is converted in one pass over its bytes. The same comes of its
whole text, cut into lines and assembled as a stream. The two ways do not cut
the same lines, but those that differ do so by a carriage return at their end,
and that says nothing.
-/

namespace Toolpath

open Text

namespace Line

variable {c : Char}

/-- The region behind a character. -/
def Region.behind : Region → Char → Region
  | .code, c => if c = ';' then .remark else if c = '(' then .aside else .code
  | .remark, c => if c = '\n' then .code else .remark
  | .aside, c => if c = ')' then .code else .aside

/-- Comments are stripped character by character. -/
theorem stripFrom_cons (region : Region) (cs : List Char) :
    stripFrom region (c :: cs) = stripFrom region [c] ++ stripFrom (region.behind c) cs := by
  cases region <;> simp only [stripFrom, Region.behind] <;> repeat' split
  all_goals simp

/-- What stands behind some characters is stripped in the region that they lead to. -/
theorem stripFrom_append (region : Region) (cs rest : List Char) :
    stripFrom region (cs ++ rest) =
      stripFrom region cs ++ stripFrom (cs.foldl Region.behind region) rest := by
  induction cs generalizing region with
  | nil => simp [stripFrom]
  | cons c cs ih =>
      rw [List.cons_append, stripFrom_cons, ih, stripFrom_cons region cs, List.append_assoc,
        List.foldl_cons]

/-- A blank behind a text starts no word and belongs to none. -/
theorem words_append_blank (hc : isBlank c = true) (halpha : c.isAlpha = false)
    (cs : List Char) : words (cs ++ [c]) = words cs := by
  have hsuffix : ¬isSuffix c = true := by simp [isSuffix, hc]
  induction cs with
  | nil => simp [words, halpha]
  | cons first cs ih =>
      have hsame : (cs ++ [c]).takeWhile isSuffix = cs.takeWhile isSuffix := by
        rw [List.takeWhile_append, List.takeWhile_cons_of_neg hsuffix, List.append_nil]
        split
        · next hall => exact ((List.takeWhile_prefix _).eq_of_length hall).symm
        · rfl
      rw [List.cons_append, words, words, ih, hsame]

/-- A carriage return at the end of a line says nothing. -/
theorem read_dropFinal (cs : List Char) : read (dropFinal '\r' cs) = read cs := by
  unfold dropFinal
  split
  · next hlast =>
    obtain ⟨front, rfl⟩ := List.getLast?_eq_some_iff.mp hlast
    have hwords := words_append_blank (c := '\r') (by decide) (by decide)
      (stripComments front)
    rw [List.dropLast_concat, read, read, stripComments, stripComments, stripFrom_append]
    -- In a comment it is dropped, outside of one it is a blank at the end.
    cases front.foldl Region.behind .code with
    | code => exact congrArg readWords hwords.symm
    | remark => rw [stripFrom, if_neg (by decide), stripFrom, List.append_nil]
    | aside => rw [stripFrom, if_neg (by decide), stripFrom, List.append_nil]
  · rfl

/-- However the last line of a text is cut, the lines say the same. -/
theorem map_read_textLines (cs : List Char) :
    (ProgramFile.textLines cs).map (fun line => read line.toList) =
      ((Text.lines cs).map String.ofList).map fun line => read line.toList := by
  obtain ⟨front, last, hpieces⟩ := List.eq_nil_or_concat _ |>.resolve_left
    (List.splitOn_ne_nil '\n' cs)
  rw [ProgramFile.textLines, Text.lines, hpieces]
  have hlast? : (front.concat last).getLast? = some last := by simp
  by_cases hlast : last = []
  · simp [dropFinal, hlast, Function.comp_def]
  · rw [dropFinal, hlast?, if_neg (by simpa using hlast)]
    simp [hlast, read_dropFinal, Function.comp_def]

/-- Only a line that nothing ends keeps its carriage return, and only as a line of a text. -/
example : ProgramFile.textLines "G1\r\nX2\r".toList = ["G1", "X2"] ∧
    (Text.lines "G1\r\nX2\r".toList).map String.ofList = ["G1", "X2\r"] := by
  decide

end Line

namespace Assembler

/-- Lines that say the same are assembled to the same, and as many are used. -/
theorem pushLines_congr (assembler : Assembler) (decoder : MotionDecoder)
    {first second : List String}
    (h : first.map (fun line => Line.read line.toList) =
      second.map fun line => Line.read line.toList) :
    (assembler.pushLines decoder first).1 = (assembler.pushLines decoder second).1 ∧
      (assembler.pushLines decoder first).2.decoder =
        (assembler.pushLines decoder second).2.decoder ∧
      (assembler.pushLines decoder first).2.lines.length =
        (assembler.pushLines decoder second).2.lines.length := by
  induction first generalizing assembler decoder second with
  | nil =>
      rw [List.map_nil, eq_comm, List.map_eq_nil_iff] at h
      rw [h]
      exact ⟨rfl, rfl, rfl⟩
  | cons line lines ih =>
      cases second with
      | nil => exact absurd h (by simp)
      | cons other others =>
          obtain ⟨hline, hlines⟩ := List.cons_eq_cons.mp h
          have hlength := congrArg List.length hlines
          rw [List.length_map, List.length_map] at hlength
          have hdecode : decoder.decode other = decoder.decode line :=
            congrArg decoder.accept hline.symm
          simp only [pushLines, hdecode]
          rcases decoder.decode line with ⟨_ | segment, after⟩
          · exact ih assembler after hlines
          · rcases hpush : assembler.push segment with ⟨_ | _, pushed⟩
            · simp only [hpush]
              exact ih pushed after hlines
            · simp only [hpush, true_and]
              exact hlength

end Assembler

namespace Pass

variable {σ : Type} (keep : σ → MotionSegment → σ)

theorem line_of_decode_none {decoder after : MotionDecoder} {text : String}
    (hdecode : decoder.decode text = (none, after)) (assembler : Assembler) (kept : σ) :
    line keep ⟨decoder, assembler, kept⟩ text = (.goOn, ⟨after, assembler, kept⟩) := by
  rw [line, hdecode]

theorem line_of_decode_some {decoder after : MotionDecoder} {text : String}
    {segment : MotionSegment} (hdecode : decoder.decode text = (some segment, after))
    (assembler : Assembler) (kept : σ) :
    line keep ⟨decoder, assembler, kept⟩ text =
      ((assembler.push segment).1,
        ⟨after, (assembler.push segment).2, keep kept segment⟩) := by
  simp only [line, hdecode]

/-- A pass over lines is what becomes of them as a stream. -/
theorem feed_eq_pushLines (decoder : MotionDecoder) (assembler : Assembler) (kept : σ)
    (lines : List String) :
    let fed := ProgramFile.feed (line keep) ⟨decoder, assembler, kept⟩ lines
    let streamed := assembler.pushLines decoder lines
    fed.2.1 + streamed.2.lines.length = lines.length ∧
      fed.2.2.decoder = streamed.2.decoder ∧ fed.2.2.assembler = streamed.1 := by
  induction lines generalizing decoder assembler kept with
  | nil => exact ⟨rfl, rfl, rfl⟩
  | cons first lines ih =>
      rcases hdecode : decoder.decode first with ⟨_ | segment, after⟩
      · have hline := line_of_decode_none keep hdecode assembler kept
        obtain ⟨hused, hrest⟩ := ih after assembler kept
        simp only [ProgramFile.feed_cons_goOn _ hline, Assembler.pushLines, hdecode]
        exact ⟨by rw [List.length_cons]; omega, hrest⟩
      · have hline := line_of_decode_some keep hdecode assembler kept
        rcases hpush : assembler.push segment with ⟨flow, pushed⟩
        rw [hpush] at hline
        cases flow with
        | goOn =>
            obtain ⟨hused, hrest⟩ := ih after pushed (keep kept segment)
            simp only [ProgramFile.feed_cons_goOn _ hline, Assembler.pushLines, hdecode, hpush]
            exact ⟨by rw [List.length_cons]; omega, hrest⟩
        | stop =>
            simp only [ProgramFile.feed_cons_stop _ hline, Assembler.pushLines, hdecode, hpush]
            exact ⟨Nat.add_comm .., trivial, trivial⟩

end Pass

/-- Reading a program file line by line gives the same as a stream of the lines of its text. -/
theorem Pass.readLines_eq_ofStream {σ : Type} (keep : σ → MotionSegment → σ) (kept : σ)
    (file : ProgramFile) (options : AssemblyOptions) :
    let (read, pass) := file.readLines (line keep) { assembler := { options }, kept }
    let lines := (Text.lines file.text).map String.ofList
    let (cloud, rest) := PointCloud.ofStream options { lines }
    (pass.assembler.cloud, pass.decoder, read.lines) =
      (cloud, rest.decoder, lines.length - rest.lines.length) := by
  have hsame := Line.map_read_textLines file.text
  have hlength := congrArg List.length hsame
  rw [List.length_map, List.length_map] at hlength
  obtain ⟨hassembler, hdecoder, hrest⟩ := Assembler.pushLines_congr { options } {} hsame
  obtain ⟨hused, hpassed, hassembled⟩ :=
    feed_eq_pushLines keep {} { options } kept (ProgramFile.textLines file.text)
  obtain ⟨read, hread, hlines⟩ := ProgramFile.readLines_eq_feed file (line keep)
    { assembler := { options }, kept }
  have hcount : read.lines = ((Text.lines file.text).map String.ofList).length -
      (Assembler.pushLines { options } {}
        ((Text.lines file.text).map String.ofList)).2.lines.length := by
    rw [hlines, ← hrest, ← hlength]
    omega
  rw [hread]
  simp only [PointCloud.ofStream, hassembled, hassembler, hpassed, hdecoder, hcount]

/-- Converting a file in one pass over its bytes gives the cloud and the counters of the stream of
its text's lines, and as many lines are used. -/
theorem convertFile_eq_ofStream (fs : FileSystem) (path : String) (options : AssemblyOptions) :
    (convertFile fs path options).map
        (fun conversion => (conversion.cloud, conversion.stats, conversion.read.lines)) =
      (ProgramFile.find fs path).map fun file =>
        let lines := (Text.lines file.text).map String.ofList
        let (cloud, rest) := PointCloud.ofStream options { lines }
        (cloud, rest.decoder.stats, lines.length - rest.lines.length) := by
  unfold convertFile Conversion.run
  cases hfind : ProgramFile.find fs path with
  | error e => rfl
  | ok file =>
      have hpass := Pass.readLines_eq_ofStream (fun (_ : Unit) _ => ()) () file options
      obtain ⟨hcloud, hdecoder, hread⟩ := by simpa only [Prod.mk.injEq] using hpass
      refine congrArg Except.ok (Prod.ext hcloud (Prod.ext ?_ hread))
      exact congrArg MotionDecoder.stats hdecoder

end Toolpath
