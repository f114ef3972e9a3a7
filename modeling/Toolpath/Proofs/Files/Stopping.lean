import Toolpath.Proofs.Files.Lines

/-! # Reading that stops early

No line is empty, so bytes of a file are left unread just when lines are. A
reader can only leave lines by stopping, and then the reading is marked as
stopped. The mark says no more than that: a reader with a limit stops at the
last line it wants, also if it is the last line of the file.
-/

namespace Toolpath.ProgramFile

theorem ne_nil_of_mem_rawLines {bytes line : List UInt8} (h : line ∈ rawLines bytes) :
    line ≠ [] := by
  induction bytes using lines_induction with
  | nil => simp [rawLines_nil] at h
  | line bytes hbytes ih =>
      rw [(rawLines_and_pieces_eq_cons hbytes).1, List.mem_cons] at h
      rcases h with rfl | h
      · obtain ⟨b, bytes, rfl⟩ := List.exists_cons_of_ne_nil hbytes
        exact firstLine_ne_nil b bytes
      · exact ih h

/-- Of lines that are not empty, the first ones have fewer bytes than all just when they are
fewer. -/
theorem length_flatten_take_lt_iff {lines : List (List UInt8)} (h : ∀ line ∈ lines, line ≠ [])
    (n : Nat) : (lines.take n).flatten.length < lines.flatten.length ↔ n < lines.length := by
  induction lines generalizing n with
  | nil => simp
  | cons line lines ih =>
      rw [List.forall_mem_cons] at h
      have hline : 0 < line.length := List.length_pos_iff.mpr h.1
      cases n with
      | zero =>
          rw [List.take_zero, List.flatten_nil, List.flatten_cons, List.length_append,
            List.length_nil, List.length_cons]
          omega
      | succ n => simpa using ih h.2 n

section Feeding

variable {σ : Type} (reader : σ → String → Flow × σ)

/-- A reader that still wants some lines stops if there are that many. -/
theorem feed_collect_eq_stop_iff {limit : Nat} {collected : Array String}
    (h : collected.size < limit) (lines : List String) :
    (feed (collect limit) collected lines).1 = .stop ↔
      limit ≤ collected.size + lines.length := by
  induction lines generalizing collected with
  | nil => simp [feed, h]
  | cons line lines ih =>
      have hsize : (collected.push line).size = collected.size + 1 := Array.size_push line
      rw [List.length_cons]
      rcases Nat.lt_or_ge (collected.size + 1) limit with hlimit | hlimit
      · rw [feed_cons_goOn _ (collect_of_lt hlimit line), ih (by omega), hsize, Nat.add_assoc,
          Nat.add_comm 1]
      · rw [feed_cons_stop _ (collect_of_le hlimit line), eq_self, true_iff]
        omega

variable (file : ProgramFile) (state : σ)

/-- What is told of a reading beside the lines: the bytes of those passed on, and whether the
reader stopped. -/
theorem fst_readLines :
    let fed := feed reader state (textLines file.text)
    let stats := (file.readLines reader state).1
    stats.bytes = ((rawLines file.content).take fed.2.1).flatten.length ∧
      stats.size = (rawLines file.content).flatten.length ∧
      (stats.stoppedEarly = true ↔ fed.1 = .stop) := by
  intro fed stats
  have hstats : stats = counted { size := file.size } (rawLines file.content) fed := by
    simp only [stats, fed, readLines, scan_eq_feed, map_lineText_rawLines, text]
  rw [hstats, counted, foldl_count, flatten_rawLines]
  split <;> simp [*, size]

/-- Bytes are left unread just when lines are. -/
theorem bytes_lt_size_iff :
    (file.readLines reader state).1.bytes < (file.readLines reader state).1.size ↔
      (feed reader state (textLines file.text)).2.1 < (textLines file.text).length := by
  obtain ⟨hbytes, hsize, -⟩ := fst_readLines reader file state
  rw [hbytes, hsize, length_flatten_take_lt_iff fun _ => ne_nil_of_mem_rawLines, text,
    length_textLines]

end Feeding

theorem linesUpTo_zero (file : ProgramFile) :
    file.linesUpTo 0 = ([], { size := file.size, stoppedEarly := 0 < file.size }) := rfl

theorem snd_linesUpTo (file : ProgramFile) {limit : Nat} (h : limit ≠ 0) :
    (file.linesUpTo limit).2 = (file.readLines (collect limit) #[]).1 := by
  rw [linesUpTo, if_neg h]
  rfl

/-- A file has bytes just when it has lines. -/
theorem size_pos_iff (file : ProgramFile) : 0 < file.size ↔ 0 < (textLines file.text).length := by
  have hlines : ∀ line ∈ rawLines file.content, line ≠ [] := fun _ => ne_nil_of_mem_rawLines
  have h := length_flatten_take_lt_iff hlines 0
  rw [flatten_rawLines, ← length_textLines] at h
  simpa [size, text] using h

/-- Bytes are left behind a limit just when there are more lines than that. A reading that leaves
bytes is marked as stopped early, and so is one that ends with the last line because this is also
the last one wanted. The mark is right except for a limit, not zero, that is the number of
lines. -/
theorem stoppedEarly_linesUpTo (file : ProgramFile) (limit : Nat) :
    let stats := (file.linesUpTo limit).2
    let count := (textLines file.text).length
    (stats.bytes < stats.size ↔ limit < count) ∧
      (stats.stoppedEarly = true ↔ stats.bytes < stats.size ∨ limit ≠ 0 ∧ limit = count) ∧
      ((stats.stoppedEarly = true ↔ stats.bytes < stats.size) ↔ ¬(limit ≠ 0 ∧ limit = count)) := by
  intro stats count
  have hparts : (stats.bytes < stats.size ↔ limit < count) ∧
      (stats.stoppedEarly = true ↔ limit < count ∨ limit ≠ 0 ∧ limit = count) := by
    by_cases hzero : limit = 0
    · subst hzero
      simp only [stats, linesUpTo_zero, count, decide_eq_true_eq, size_pos_iff, ne_eq,
        not_true_eq_false, false_and, or_false, and_self]
    · have hpos : (#[] : Array String).size < limit := Nat.pos_of_ne_zero hzero
      obtain ⟨-, -, hstopped⟩ := fst_readLines (collect limit) file #[]
      simp only [stats, snd_linesUpTo file hzero, hstopped, bytes_lt_size_iff,
        feed_collect_eq_stop_iff hpos, feed_collect limit #[] hpos, Array.size_empty,
        List.length_take, count]
      omega
  obtain ⟨hbytes, hstopped⟩ := hparts
  refine ⟨hbytes, by rw [hstopped, hbytes], ?_⟩
  rw [hstopped, hbytes]
  omega

/-- The only line of a file is all of it, but with a limit of one line the reading counts as
stopped early. -/
theorem stoppedEarly_linesUpTo_last :
    let stats := (linesUpTo ⟨"part.gcode", [71, 49, 32, 88, 49, 10]⟩ 1).2
    ¬(stats.stoppedEarly = true ↔ stats.bytes < stats.size) := by
  decide +kernel

end Toolpath.ProgramFile
