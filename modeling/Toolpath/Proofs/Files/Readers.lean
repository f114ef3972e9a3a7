import Mathlib.Data.List.Forall2
import Toolpath.Proofs.Files.Lines

/-! # What a reader is told

All that can be said of the reading of a file is a matter of the lines the
reader is told: where it stops, and what is counted up to there. Two readers
that answer alike, line by line, are told as many lines.
-/

namespace Toolpath.ProgramFile

section Related

variable {σ τ : Type} {reader : σ → String → Flow × σ} {reader' : τ → String → Flow × τ}
  (Related : σ → τ → Prop) (Alike : String → String → Prop)

/-- Readers that answer alike in related states stay in related states, and stop at the same
line if they stop. -/
theorem feed_of_related
    (step : ∀ state state' line line', Related state state' → Alike line line' →
      (reader state line).1 = (reader' state' line').1 ∧
        Related (reader state line).2 (reader' state' line').2)
    {lines lines' : List String} (hlines : List.Forall₂ Alike lines lines')
    {state : σ} {state' : τ} (hstate : Related state state') :
    (feed reader state lines).1 = (feed reader' state' lines').1 ∧
      (feed reader state lines).2.1 = (feed reader' state' lines').2.1 ∧
      Related (feed reader state lines).2.2 (feed reader' state' lines').2.2 := by
  induction hlines generalizing state state' with
  | nil => exact ⟨rfl, rfl, hstate⟩
  | @cons line line' lines lines' hline _ ih =>
      obtain ⟨hflow, hnext⟩ := step state state' line line' hstate hline
      rcases hr : reader state line with ⟨flow, next⟩
      rcases hr' : reader' state' line' with ⟨flow', next'⟩
      rw [hr, hr'] at hflow hnext
      obtain rfl : flow = flow' := hflow
      cases flow with
      | goOn =>
          obtain ⟨hend, hused, hfinal⟩ := ih hnext
          rw [feed_cons_goOn reader hr, feed_cons_goOn reader' hr']
          exact ⟨hend, congrArg (· + 1) hused, hfinal⟩
      | stop =>
          rw [feed_cons_stop reader hr, feed_cons_stop reader' hr']
          exact ⟨rfl, rfl, hnext⟩

end Related

/-- Reading a file, told by what its lines feed the reader. -/
theorem readLines_eq {σ : Type} (file : ProgramFile) (reader : σ → String → Flow × σ) (state : σ) :
    file.readLines reader state =
      let fed := feed reader state (textLines file.text)
      ({ bytes := ((rawLines file.content).take fed.2.1).flatten.length
         lines := fed.2.1
         lossyLines := ((bodies file.content).take fed.2.1).countP (¬Utf8.Encodes ·)
         size := file.size
         stoppedEarly := fed.1 = .stop }, fed.2.2) := by
  have hle := feed_le reader state (textLines file.text)
  rw [text, length_textLines] at hle
  rw [readLines, scan_eq_feed, map_lineText_rawLines, ← text]
  dsimp only
  rw [← text] at hle
  generalize feed reader state (textLines file.text) = fed at hle
  have hlength : ((rawLines file.content).take fed.2.1).length = fed.2.1 := by
    rw [List.length_take]
    exact Nat.min_eq_left hle
  rw [counted, foldl_count, hlength, List.map_take, map_lineBody_rawLines]
  by_cases hstop : fed.1 = .stop <;> simp [hstop]

end Toolpath.ProgramFile
