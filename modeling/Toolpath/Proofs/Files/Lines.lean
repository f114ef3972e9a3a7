import Mathlib.Data.List.TakeWhile
import Toolpath.Files.Program
import Toolpath.Proofs.Text.Pieces
import Toolpath.Proofs.Text.Utf8

/-! # The lines of a program file

Reading a file line by line and reading it as a whole give the same text: the
lines passed on are the pieces of the whole text between line feeds, although
each is decoded on its own. A reader is told about all lines or, if it has had
enough, about the first ones.
-/

namespace Toolpath

namespace Utf8

/-- Whether some text has these bytes. -/
def Encodes (bs : List UInt8) : Prop := ∃ cs, encode cs = bs

instance : DecidablePred Encodes :=
  fun bs => decidable_of_iff (isValid bs = true) isValid_iff

end Utf8

namespace ProgramFile

open Text

/-! ## Lines of bytes -/

/-- The pieces of some bytes between line feeds. An empty last piece does not count. -/
def pieces (bytes : List UInt8) : List (List UInt8) :=
  dropFinal [] (bytes.splitOn lineFeed)

/-- Pieces as lines: each but the last gets back the line feed that ended it, and an empty last
piece is no line. -/
def terminated : List (List UInt8) → List (List UInt8)
  | [] => []
  | [last] => if last = [] then [] else [last]
  | piece :: pieces => (piece ++ [lineFeed]) :: terminated pieces

/-- The lines of some bytes with what ends them. -/
def rawLines (bytes : List UInt8) : List (List UInt8) :=
  terminated (bytes.splitOn lineFeed)

section FirstLine

variable {front bytes : List UInt8}

/-- Bytes are a single piece, or begin with one that a line feed ends. -/
theorem eq_or_exists_lineFeed (bytes : List UInt8) :
    lineFeed ∉ bytes ∨ ∃ front rest, bytes = front ++ lineFeed :: rest ∧ lineFeed ∉ front := by
  by_cases h : lineFeed ∈ bytes
  · exact .inr (List.eq_append_cons_of_mem h)
  · exact .inl h

theorem ne_lineFeed_of_mem (h : lineFeed ∉ bytes) :
    ∀ b ∈ bytes, decide (b ≠ lineFeed) = true :=
  fun _ hb => decide_eq_true fun heq => h (heq ▸ hb)

theorem firstLine_of_not_mem (h : lineFeed ∉ bytes) :
    firstLine bytes = bytes ∧ afterLine bytes = [] := by
  have hne := ne_lineFeed_of_mem h
  rw [firstLine, afterLine, List.takeWhile_eq_self_iff.mpr hne,
    List.dropWhile_eq_nil_iff.mpr hne]
  simp

theorem firstLine_append (h : lineFeed ∉ front) (rest : List UInt8) :
    firstLine (front ++ lineFeed :: rest) = front ++ [lineFeed] ∧
      afterLine (front ++ lineFeed :: rest) = rest := by
  have hne := ne_lineFeed_of_mem h
  rw [firstLine, afterLine, List.takeWhile_append_of_pos hne, List.dropWhile_append_of_pos hne]
  simp

theorem dropFinal_append_self (a : UInt8) (front : List UInt8) :
    dropFinal a (front ++ [a]) = front := by
  simp [dropFinal]

theorem dropFinal_of_not_mem {a : UInt8} (h : a ∉ bytes) : dropFinal a bytes = bytes :=
  if_neg fun hlast => h (List.mem_of_getLast? hlast)

theorem pieces_nil : pieces [] = [] := by
  rw [pieces, List.splitOn_nil]
  rfl

theorem rawLines_nil : rawLines [] = [] := by
  rw [rawLines, List.splitOn_nil]
  rfl

theorem terminated_cons {piece : List UInt8} {behind : List (List UInt8)} (h : behind ≠ []) :
    terminated (piece :: behind) = (piece ++ [lineFeed]) :: terminated behind := by
  cases behind with
  | nil => exact absurd rfl h
  | cons next behind => rfl

/-- The first line is the first of the lines, and without its line feed the first of the pieces. -/
theorem rawLines_and_pieces_eq_cons (h : bytes ≠ []) :
    rawLines bytes = firstLine bytes :: rawLines (afterLine bytes) ∧
      pieces bytes = dropFinal lineFeed (firstLine bytes) :: pieces (afterLine bytes) := by
  rcases eq_or_exists_lineFeed bytes with hsingle | ⟨front, rest, rfl, hfront⟩
  · obtain ⟨hfirst, hafter⟩ := firstLine_of_not_mem hsingle
    rw [hfirst, hafter, rawLines_nil, pieces_nil, rawLines, pieces,
      List.splitOn_eq_singleton hsingle, dropFinal_of_not_mem hsingle]
    constructor
    · simp [terminated, h]
    · simp [dropFinal, h]
  · obtain ⟨hfirst, hafter⟩ := firstLine_append hfront rest
    have hne := List.splitOn_ne_nil lineFeed rest
    rw [hfirst, hafter, dropFinal_append_self, rawLines, pieces,
      List.splitOn_append_cons_self_of_not_mem hfront]
    refine ⟨terminated_cons hne, ?_⟩
    unfold pieces dropFinal
    rw [List.getLast?_cons_of_ne_nil hne]
    split
    · exact List.dropLast_cons_of_ne_nil hne
    · rfl

/-- Every lemma about the lines of some bytes follows the reading of them: one line at a time. -/
theorem lines_induction {motive : List UInt8 → Prop} (nil : motive [])
    (line : ∀ bytes, bytes ≠ [] → motive (afterLine bytes) → motive bytes) (bytes : List UInt8) :
    motive bytes := by
  induction hn : bytes.length using Nat.strongRecOn generalizing bytes with
  | ind n ih =>
      subst hn
      cases bytes with
      | nil => exact nil
      | cons b bytes =>
          exact line _ (List.cons_ne_nil b bytes) (ih _ (afterLine_length_lt b bytes) _ rfl)

/-- The lines are the bytes, cut up. -/
theorem flatten_rawLines (bytes : List UInt8) : (rawLines bytes).flatten = bytes := by
  induction bytes using lines_induction with
  | nil => rw [rawLines_nil, List.flatten_nil]
  | line bytes h ih =>
      rw [(rawLines_and_pieces_eq_cons h).1, List.flatten_cons, ih, firstLine_append_afterLine]

/-- The lines without what ends them. -/
def bodies (bytes : List UInt8) : List (List UInt8) :=
  (pieces bytes).map (dropFinal carriageReturn)

theorem map_lineBody_rawLines (bytes : List UInt8) :
    (rawLines bytes).map lineBody = bodies bytes := by
  induction bytes using lines_induction with
  | nil => rw [rawLines_nil, bodies, pieces_nil, List.map_nil, List.map_nil]
  | line bytes h ih =>
      obtain ⟨hraw, hpieces⟩ := rawLines_and_pieces_eq_cons h
      rw [bodies, hraw, hpieces, List.map_cons, List.map_cons, ih]
      rfl

end FirstLine

/-! ## Readers -/

section Readers

variable {σ : Type} (reader : σ → String → Flow × σ)

/-- The text of a line. -/
def lineText (line : List UInt8) : String :=
  String.ofList (Utf8.decodeLossy (lineBody line))

/-- Pass lines on to a reader until it has enough or there are no more. The number of lines
passed on is told, and whether the reader stopped at the last of them. -/
def feed (state : σ) : List String → Flow × Nat × σ
  | [] => (.goOn, 0, state)
  | line :: lines =>
      match reader state line with
      | (.stop, state) => (.stop, 1, state)
      | (.goOn, state) =>
          let (flow, used, final) := feed state lines
          (flow, used + 1, final)

theorem feed_cons_stop {state state' : σ} {line : String}
    (h : reader state line = (.stop, state')) (lines : List String) :
    feed reader state (line :: lines) = (.stop, 1, state') := by
  rw [feed, h]

theorem feed_cons_goOn {state state' : σ} {line : String}
    (h : reader state line = (.goOn, state')) (lines : List String) :
    feed reader state (line :: lines) =
      ((feed reader state' lines).1, (feed reader state' lines).2.1 + 1,
        (feed reader state' lines).2.2) := by
  rw [feed, h]

/-- No more lines are passed on than there are. -/
theorem feed_le (state : σ) (lines : List String) :
    (feed reader state lines).2.1 ≤ lines.length := by
  induction lines generalizing state with
  | nil => exact Nat.le_refl 0
  | cons line lines ih =>
      rcases h : reader state line with ⟨_ | _, next⟩
      · rw [feed_cons_goOn reader h]
        exact Nat.succ_le_succ (ih next)
      · rw [feed_cons_stop reader h]
        exact Nat.succ_pos lines.length

/-- What is counted of lines that a reader was fed with. -/
def counted (stats : ReadStats) (lines : List (List UInt8)) (fed : Flow × Nat × σ) :
    ReadStats :=
  let stats := (lines.take fed.2.1).foldl count stats
  if fed.1 = .stop then { stats with stoppedEarly := true } else stats

/-- Reading takes one line at a time. -/
theorem scan_of_ne_nil {bytes : List UInt8} (h : bytes ≠ []) (stats : ReadStats) (state : σ) :
    scan reader stats state bytes =
      let stats := count stats (firstLine bytes)
      match reader state (lineText (firstLine bytes)) with
      | (.goOn, state) => scan reader stats state (afterLine bytes)
      | (.stop, state) => ({ stats with stoppedEarly := true }, state) := by
  obtain ⟨b, bytes, rfl⟩ := List.exists_cons_of_ne_nil h
  rw [scan]
  rfl

/-- Reading a file passes its lines on to the reader and counts those passed on. -/
theorem scan_eq_feed (stats : ReadStats) (state : σ) (bytes : List UInt8) :
    scan reader stats state bytes =
      let fed := feed reader state ((rawLines bytes).map lineText)
      (counted stats (rawLines bytes) fed, fed.2.2) := by
  induction bytes using lines_induction generalizing stats state with
  | nil =>
      rw [scan, rawLines_nil]
      rfl
  | line bytes h ih =>
      rw [(rawLines_and_pieces_eq_cons h).1, List.map_cons, scan_of_ne_nil reader h]
      cases hr : reader state (lineText (firstLine bytes)) with
      | mk flow next =>
          cases flow with
          | goOn =>
              rw [feed_cons_goOn reader hr]
              exact ih _ next
          | stop =>
              rw [feed_cons_stop reader hr]
              rfl

/-- A line counts as lossy just when its bytes are no text. -/
theorem count_eq (stats : ReadStats) (line : List UInt8) :
    count stats line =
      { stats with
        bytes := stats.bytes + line.length
        lines := stats.lines + 1
        lossyLines := stats.lossyLines + [lineBody line].countP (¬Utf8.Encodes ·) } := by
  have hvalid : Utf8.isValid (lineBody line) = true ↔ Utf8.Encodes (lineBody line) :=
    Utf8.isValid_iff
  simp only [count, hvalid, List.countP_singleton, decide_not, Bool.not_eq_true',
    decide_eq_false_iff_not, ite_not]

/-- Counting lines adds up their bytes, their number, and the number of those that are no text. -/
theorem foldl_count (stats : ReadStats) (lines : List (List UInt8)) :
    lines.foldl count stats =
      { stats with
        bytes := stats.bytes + lines.flatten.length
        lines := stats.lines + lines.length
        lossyLines := stats.lossyLines + (lines.map lineBody).countP (¬Utf8.Encodes ·) } := by
  induction lines generalizing stats with
  | nil => rfl
  | cons line lines ih =>
      have hlossy : ((line :: lines).map lineBody).countP (¬Utf8.Encodes ·) =
          [lineBody line].countP (¬Utf8.Encodes ·) +
            (lines.map lineBody).countP (¬Utf8.Encodes ·) := by
        rw [← List.countP_append]
        rfl
      rw [List.foldl_cons, ih, count_eq, hlossy, List.flatten_cons, List.length_append,
        List.length_cons]
      simp only [Nat.add_assoc, Nat.add_comm 1]

/-- Counting lines fills in all but whether the reader stopped. -/
theorem counted_eq (stats : ReadStats) (lines : List (List UInt8))
    (fed : Flow × Nat × σ) :
    ∃ early, counted stats lines fed =
      { (lines.take fed.2.1).foldl count stats with stoppedEarly := early } := by
  unfold counted
  split
  · exact ⟨true, rfl⟩
  · exact ⟨_, rfl⟩

end Readers

section NeverStops

variable {σ : Type} (reader : σ → String → Flow × σ)

/-- The state that lines leave a reader in which is passed all of them. -/
def stateBehind (state : σ) (lines : List String) : σ :=
  lines.foldl (fun state line => (reader state line).2) state

/-- Whether a reader goes on at each of the lines, in the state that those before leave it in. -/
def GoesOn (state : σ) (lines : List String) : Prop :=
  ∀ before line, before ++ [line] <+: lines →
    (reader (stateBehind reader state before) line).1 = .goOn

variable {reader} {state : σ}

theorem GoesOn.head {line : String} {lines : List String}
    (h : GoesOn reader state (line :: lines)) : (reader state line).1 = .goOn :=
  h [] line (List.prefix_append [line] lines)

theorem GoesOn.tail {line : String} {lines : List String}
    (h : GoesOn reader state (line :: lines)) : GoesOn reader (reader state line).2 lines :=
  fun before next hprefix => h (line :: before) next (List.prefix_cons_inj line |>.mpr hprefix)

/-- A reader that always goes on is passed all lines. -/
theorem feed_of_goesOn {lines : List String} (h : GoesOn reader state lines) :
    feed reader state lines =
      (.goOn, lines.length, stateBehind reader state lines) := by
  induction lines generalizing state with
  | nil => rfl
  | cons line lines ih =>
      have hstep : reader state line = (.goOn, (reader state line).2) := Prod.ext h.head rfl
      rw [feed_cons_goOn reader hstep, ih h.tail]
      rfl

end NeverStops

/-- The reader that collects lines until it has `limit` of them. -/
def collect (limit : Nat) (collected : Array String) (line : String) : Flow × Array String :=
  let collected := collected.push line
  (if limit ≤ collected.size then .stop else .goOn, collected)

theorem collect_of_le {limit : Nat} {collected : Array String} (h : limit ≤ collected.size + 1)
    (line : String) : collect limit collected line = (.stop, collected.push line) := by
  rw [collect, if_pos (by rwa [Array.size_push])]

theorem collect_of_lt {limit : Nat} {collected : Array String} (h : collected.size + 1 < limit)
    (line : String) : collect limit collected line = (.goOn, collected.push line) := by
  rw [collect, if_neg (by rwa [Array.size_push, Nat.not_le])]

/-- A reader that still wants some lines takes as many as there are. -/
theorem feed_collect (limit : Nat) (collected : Array String) (h : collected.size < limit)
    (lines : List String) :
    (feed (collect limit) collected lines).2 =
      ((lines.take (limit - collected.size)).length,
        collected ++ lines.take (limit - collected.size)) := by
  induction lines generalizing collected with
  | nil => simp [feed]
  | cons line lines ih =>
      have hsize : (collected.push line).size = collected.size + 1 := Array.size_push line
      rcases Nat.lt_or_ge (collected.size + 1) limit with hlimit | hlimit
      · have hmore : limit - collected.size = limit - (collected.push line).size + 1 := by omega
        rw [feed_cons_goOn _ (collect_of_lt hlimit line), ih _ (by omega), hmore,
          List.take_succ_cons]
        simp
      · have hone : limit - collected.size = 1 := by omega
        rw [feed_cons_stop _ (collect_of_le hlimit line), hone]
        simp

/-! ## Lines of text -/

/-- The lines of a text: its pieces between line feeds, without an empty last one, and each
without a carriage return at its end. -/
def textLines (cs : List Char) : List String :=
  (dropFinal [] (cs.splitOn '\n')).map fun piece => String.ofList (dropFinal '\r' piece)

theorem decodeLossy_eq_nil_iff {bs : List UInt8} : Utf8.decodeLossy bs = [] ↔ bs = [] := by
  cases bs with
  | nil => simp [Utf8.decodeLossy, Utf8.decode]
  | cons b bs => simp [Utf8.decodeLossy, Utf8.decode_cons]

/-- Decoding line by line gives the lines of the whole text. -/
theorem map_lineText_rawLines (bytes : List UInt8) :
    (rawLines bytes).map lineText = textLines (Utf8.decodeLossy bytes) := by
  have hbody (piece : List UInt8) : dropFinal '\r' (Utf8.decodeLossy piece) =
      Utf8.decodeLossy (dropFinal carriageReturn piece) :=
    Utf8.dropFinal_decodeLossy (by decide) piece
  calc (rawLines bytes).map lineText
    _ = (bodies bytes).map fun body => String.ofList (Utf8.decodeLossy body) := by
        rw [← map_lineBody_rawLines, List.map_map]
        rfl
    _ = ((pieces bytes).map Utf8.decodeLossy).map
          fun piece => String.ofList (dropFinal '\r' piece) := by
        simp only [bodies, List.map_map, Function.comp_def, hbody]
    _ = textLines (Utf8.decodeLossy bytes) := by
        rw [textLines, Utf8.splitOn_decodeLossy (by decide),
          dropFinal_nil_map (fun _ => decodeLossy_eq_nil_iff)]
        rfl

/-! ## Reading a file -/

variable (file : ProgramFile)

theorem length_textLines (bytes : List UInt8) :
    (textLines (Utf8.decodeLossy bytes)).length = (rawLines bytes).length := by
  rw [← map_lineText_rawLines, List.length_map]

/-- Reading a file passes on the lines of its text, and counts those passed on. -/
theorem readLines_eq_feed {σ : Type} (reader : σ → String → Flow × σ) (state : σ) :
    ∃ read, file.readLines reader state =
        (read, (feed reader state (textLines file.text)).2.2) ∧
      read.lines = (feed reader state (textLines file.text)).2.1 := by
  have hle := feed_le reader state (textLines file.text)
  rw [text, length_textLines] at hle
  obtain ⟨early, hcounted⟩ := counted_eq { size := file.size } (rawLines file.content)
    (feed reader state (textLines file.text))
  refine ⟨counted { size := file.size } (rawLines file.content)
    (feed reader state (textLines file.text)), ?_, ?_⟩
  · rw [readLines, scan_eq_feed, map_lineText_rawLines, ← text]
  · rw [hcounted, foldl_count]
    simp only [Nat.zero_add, List.length_take]
    exact Nat.min_eq_left hle

/-- A reader that never stops is passed the lines of the whole text, and all of them count. -/
theorem readLines_of_goesOn {σ : Type} {reader : σ → String → Flow × σ} {state : σ}
    (h : GoesOn reader state (textLines file.text)) :
    file.readLines reader state =
      ({ bytes := file.content.length
         lines := (textLines file.text).length
         lossyLines := (bodies file.content).countP (¬Utf8.Encodes ·)
         size := file.size },
        stateBehind reader state (textLines file.text)) := by
  rw [readLines, scan_eq_feed, map_lineText_rawLines, ← text, feed_of_goesOn h]
  have hall : (rawLines file.content).take (textLines file.text).length =
      rawLines file.content := by
    rw [text, length_textLines, List.take_length]
  simp only [counted, hall, foldl_count, flatten_rawLines, map_lineBody_rawLines, Nat.zero_add,
    reduceCtorEq, if_false]
  rw [text, length_textLines]

/-- The lines of a file are those of its text. -/
theorem lines_eq :
    file.lines = (textLines file.text,
      { bytes := file.content.length
        lines := (textLines file.text).length
        lossyLines := (bodies file.content).countP (¬Utf8.Encodes ·)
        size := file.size }) := by
  have hpush : (textLines file.text).foldl (fun acc line => acc.push line) #[] =
      (textLines file.text).toArray := by simp
  rw [lines, readLines_of_goesOn file fun _ _ _ => rfl, stateBehind, hpush]

/-- Reading up to a limit gives the first lines of the whole text, and they are what counts. -/
theorem linesUpTo_eq (limit : Nat) :
    (file.linesUpTo limit).1 = (textLines file.text).take limit ∧
      ∃ early, (file.linesUpTo limit).2 =
        { bytes := ((rawLines file.content).take limit).flatten.length
          lines := ((textLines file.text).take limit).length
          lossyLines := ((bodies file.content).take limit).countP (¬Utf8.Encodes ·)
          size := file.size
          stoppedEarly := early } := by
  by_cases hzero : limit = 0
  · subst hzero
    exact ⟨rfl, _, rfl⟩
  · have hread : file.readLines (collect limit) #[] = scan (collect limit) { size := file.size } #[]
        file.content := rfl
    rw [scan_eq_feed, map_lineText_rawLines, ← text] at hread
    have hfed := feed_collect limit #[] (Nat.pos_of_ne_zero hzero)
      (textLines file.text)
    obtain ⟨early, hcounted⟩ := counted_eq { size := file.size } (rawLines file.content)
      (feed (collect limit) #[] (textLines file.text))
    have hfirst : (rawLines file.content).take ((textLines file.text).take limit).length =
        (rawLines file.content).take limit := by
      rw [List.length_take, text, length_textLines, List.take_eq_take_iff]
      omega
    have hlength : ((rawLines file.content).take limit).length =
        ((textLines file.text).take limit).length := by
      rw [List.length_take, List.length_take, text, length_textLines]
    have hlimit : file.linesUpTo limit =
        ((file.readLines (collect limit) #[]).2.toList,
          (file.readLines (collect limit) #[]).1) := by
      rw [linesUpTo, if_neg hzero]
      rfl
    rw [hlimit, hread]
    refine ⟨?_, early, ?_⟩
    · simp [hfed]
    · simp only [hcounted, hfed, Array.size_empty, Nat.sub_zero, hfirst, foldl_count, hlength,
        List.map_take, map_lineBody_rawLines, Nat.zero_add]

/-- Reading a file line by line agrees with reading it as a whole. The lines are the bytes cut
behind each line feed. Their texts, each decoded on its own, are the lines of the whole text. A
reader that never stops is told all of them, and with a limit they are the first ones; what is
counted is counted over just these lines. -/
theorem readLines_and_linesUpTo (file : ProgramFile) :
    (rawLines file.content).flatten = file.content ∧
    (rawLines file.content).map lineBody = bodies file.content ∧
    (rawLines file.content).map lineText = textLines file.text ∧
    (∀ {σ : Type} (reader : σ → String → Flow × σ) (state : σ),
      GoesOn reader state (textLines file.text) →
        file.readLines reader state =
          ({ bytes := file.content.length
             lines := (textLines file.text).length
             lossyLines := (bodies file.content).countP (¬Utf8.Encodes ·)
             size := file.size },
            stateBehind reader state (textLines file.text))) ∧
    ∀ limit,
      (file.linesUpTo limit).1 = (textLines file.text).take limit ∧
      (file.linesUpTo limit).2.bytes = ((rawLines file.content).take limit).flatten.length ∧
      (file.linesUpTo limit).2.lines = ((textLines file.text).take limit).length ∧
      (file.linesUpTo limit).2.lossyLines =
        ((bodies file.content).take limit).countP (¬Utf8.Encodes ·) := by
  refine ⟨flatten_rawLines _, map_lineBody_rawLines _, map_lineText_rawLines _,
    fun _ _ h => readLines_of_goesOn file h, fun limit => ?_⟩
  obtain ⟨hlines, early, hstats⟩ := linesUpTo_eq file limit
  rw [hstats]
  exact ⟨hlines, rfl, rfl, rfl⟩

/-- A carriage return at the end of a file belongs to no line, even behind a character that the
end of the file cuts short. -/
theorem readLines_cut_short :
    let file : ProgramFile := ⟨"part.gcode", [71, 49, 13, 10, 88, 255, 10, 10, 0xE2, 0x82, 13]⟩
    let reader (passed : List String) (line : String) : Flow × List String :=
      (.goOn, passed ++ [line])
    file.readLines reader [] =
      ({ bytes := 11, lines := 4, lossyLines := 2, size := 11 },
        ["G1", "X\uFFFD", "", "\uFFFD"]) :=
  ((readLines_and_linesUpTo _).2.2.2.1 _ [] fun _ _ _ => rfl).trans (by decide +kernel)

end ProgramFile

end Toolpath
