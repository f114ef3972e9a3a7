import Toolpath.Proofs.Motion.Pulls

/-! # Counters of a run

A decoder counts lines in one place and what its reader made of them in another.
The two agree in every state that a decoder can come to, however it was driven:
line by line, or through a stream that was dropped before its end. What a line
adds to the counters can be told from the line, except that it takes the state
of the tool to tell deposits from travel.
-/

namespace Toolpath

namespace MotionDecoder

/-! ## Driving a decoder -/

/-- A way to make a decoder read some lines. -/
inductive Use where
  /-- Decode one line. -/
  | line (line : String)
  /-- Take some segments of a program. -/
  | segments (lines : List String) (count : Nat)
  /-- Pull points of a program, as many at a time as the sizes say. -/
  | points (lines : List String) (options : DecodeOptions) (sizes : List Nat)

/-- The segments that a decoder returns in a use, and the decoder behind it. A stream of points
keeps its segments to itself; they are those of the lines that it has read. -/
def use (decoder : MotionDecoder) : Use → List MotionSegment × MotionDecoder
  | .line line => ((decoder.decode line).1.toList, (decoder.decode line).2)
  | .segments lines count =>
      let (segments, after) := SegmentStream.take count ⟨lines, decoder⟩
      (segments, after.decoder)
  | .points lines options sizes =>
      let after := (PointStream.pulls sizes ⟨⟨lines, decoder⟩, options, .empty⟩).2
      let used := lines.length - after.segments.lines.length
      (decoder.segments (lines.take used), after.decoder)

/-- The segments that a decoder returns in several uses, and the decoder behind them. -/
def session (decoder : MotionDecoder) : List Use → List MotionSegment × MotionDecoder
  | [] => ([], decoder)
  | use :: uses =>
      let (segments, after) := decoder.use use
      let (more, final) := session after uses
      (segments ++ more, final)

variable (decoder : MotionDecoder)

theorem decodeAll_append (front behind : List String) :
    decoder.decodeAll (front ++ behind) = (decoder.decodeAll front).decodeAll behind := by
  unfold decodeAll
  exact List.foldl_append

theorem segments_append (front behind : List String) :
    decoder.segments (front ++ behind) =
      decoder.segments front ++ (decoder.decodeAll front).segments behind := by
  induction front generalizing decoder with
  | nil => rfl
  | cons line front ih =>
      rw [List.cons_append, segments_cons, segments_cons, decodeAll_cons, ih, List.append_assoc]

/-- Taking segments of a program reads lines from its front. -/
theorem exists_take_segments (count : Nat) (lines : List String) :
    ∃ read, SegmentStream.take count ⟨lines, decoder⟩ =
      (decoder.segments (lines.take read),
        ⟨lines.drop read, decoder.decodeAll (lines.take read)⟩) := by
  induction lines generalizing decoder count with
  | nil => cases count <;> exact ⟨0, rfl⟩
  | cons line lines ih =>
      cases count with
      | zero => exact ⟨0, rfl⟩
      | succ count =>
          rcases hline : decoder.decode line with ⟨segment, after⟩
          cases segment with
          | none =>
              obtain ⟨read, hread⟩ := ih after (count + 1)
              have hskip : SegmentStream.take (count + 1) ⟨line :: lines, decoder⟩ =
                  SegmentStream.take (count + 1) ⟨lines, after⟩ := by
                simp only [SegmentStream.take, SegmentStream.next, SegmentStream.nextFrom, hline]
              refine ⟨read + 1, ?_⟩
              rw [hskip, hread, List.take_succ_cons, List.drop_succ_cons, segments_cons,
                decodeAll_cons, hline]
              rfl
          | some segment =>
              obtain ⟨read, hread⟩ := ih after count
              refine ⟨read + 1, ?_⟩
              rw [List.take_succ_cons, List.drop_succ_cons, segments_cons, decodeAll_cons, hline]
              simp only [SegmentStream.take, SegmentStream.next, SegmentStream.nextFrom, hline,
                hread]
              rfl

/-- Pulling points of a program reads lines from its front. -/
theorem exists_pulls_points (lines : List String) (options : DecodeOptions) (sizes : List Nat) :
    ∃ read ≤ lines.length,
      (PointStream.pulls sizes ⟨⟨lines, decoder⟩, options, .empty⟩).2.segments =
        ⟨lines.drop read, decoder.decodeAll (lines.take read)⟩ := by
  rw [(PointStream.pulls_eq_take sizes _).2, PointStream.segments_take]
  split
  · exact ⟨0, Nat.zero_le _, rfl⟩
  · next hmore =>
    generalize decoder.linesRead options lines _ = read
    refine ⟨min read lines.length, Nat.min_le_right _ _, ?_⟩
    simp only [SegmentStream.mk.injEq]
    rcases Nat.le_total read lines.length with hle | hle
    · rw [Nat.min_eq_left hle]
      exact ⟨rfl, rfl⟩
    · rw [Nat.min_eq_right hle, List.drop_of_length_le hle, List.take_of_length_le hle,
        List.drop_length, List.take_length]
      exact ⟨rfl, rfl⟩

/-- Whatever the use, what happens is that some lines are decoded. -/
theorem exists_use (use : Use) :
    ∃ lines, decoder.use use = (decoder.segments lines, decoder.decodeAll lines) := by
  cases use with
  | line line =>
      refine ⟨[line], ?_⟩
      rw [segments_cons, segments_nil, List.append_nil]
      rfl
  | segments lines count =>
      obtain ⟨read, hread⟩ := decoder.exists_take_segments count lines
      refine ⟨lines.take read, ?_⟩
      simp only [MotionDecoder.use, hread]
  | points lines options sizes =>
      obtain ⟨read, hle, hread⟩ := decoder.exists_pulls_points lines options sizes
      have hused : lines.length - (lines.drop read).length = read := by
        rw [List.length_drop]
        omega
      refine ⟨lines.take read, ?_⟩
      simp only [MotionDecoder.use, PointStream.decoder, hread, hused]

theorem exists_session (uses : List Use) :
    ∃ lines, decoder.session uses = (decoder.segments lines, decoder.decodeAll lines) := by
  induction uses generalizing decoder with
  | nil => exact ⟨[], rfl⟩
  | cons use uses ih =>
      obtain ⟨front, hfront⟩ := decoder.exists_use use
      obtain ⟨behind, hbehind⟩ := ih (decoder.decodeAll front)
      refine ⟨front ++ behind, ?_⟩
      simp only [session, hfront, hbehind, segments_append, decodeAll_append]

/-! ## Counting -/

/-- The counters of a decoder that has returned some segments agree with each other and with the
segments: every line is a motion line or was passed over, and only linear moves are deposits. -/
structure Balanced (decoder : MotionDecoder) (segments : List MotionSegment) : Prop where
  lines : decoder.stats.lines =
    decoder.stats.rapidMoves + decoder.stats.linearMoves + decoder.stats.ignoredLines
  returned : segments.length = decoder.stats.rapidMoves + decoder.stats.linearMoves
  motion : decoder.counts.motion = decoder.stats.rapidMoves + decoder.stats.linearMoves
  deposits : decoder.stats.depositMoves = segments.countP (·.isDeposit)
  depositsLinear : decoder.stats.depositMoves ≤ decoder.stats.linearMoves

/-- A move that deposits material is a linear one. -/
theorem kind_of_isDeposit {state : ToolState} {command : MotionCommand}
    (h : (state.apply command).2.isDeposit = true) : command.kind = .linear :=
  eq_of_beq (Bool.and_eq_true_iff.mp h).1

/-- One more line keeps the counters balanced. -/
theorem Balanced.decode {decoder : MotionDecoder} {segments : List MotionSegment}
    (h : Balanced decoder segments) (line : String) :
    Balanced (decoder.decode line).2 (segments ++ (decoder.decode line).1.toList) := by
  obtain ⟨hlines, hreturned, hmotion, hdeposits, hlinear⟩ := h
  simp only [stats] at hlines hreturned hmotion hdeposits hlinear
  unfold MotionDecoder.decode accept
  cases Line.read line.toList with
  | other =>
      simp only [Option.toList_none, List.append_nil]
      refine ⟨?_, hreturned, hmotion, hdeposits, hlinear⟩
      change decoder.lines + 1 =
        decoder.rapidMoves + decoder.linearMoves + (decoder.counts.ignored + 1)
      omega
  | motion command malformed =>
      have hkind := @kind_of_isDeposit decoder.state command
      -- Exactly one of the counters of the two kinds goes up.
      have hone : (if command.kind = .rapid then 1 else 0) +
          (if command.kind = .linear then 1 else 0) = 1 := by
        cases command.kind <;> rfl
      refine ⟨?_, ?_, ?_, ?_, ?_⟩ <;>
        simp only [stats, Line.Counts.add, Option.toList_some, List.length_append,
          List.length_singleton, List.countP_append, List.countP_singleton]
      · omega
      · omega
      · omega
      · omega
      · split
        next hdeposit => rw [if_pos (hkind hdeposit)]; omega
        next => omega

theorem Balanced.decodeAll {decoder : MotionDecoder} {segments : List MotionSegment}
    (h : Balanced decoder segments) (lines : List String) :
    Balanced (decoder.decodeAll lines) (segments ++ decoder.segments lines) := by
  induction lines generalizing decoder segments with
  | nil => rwa [segments_nil, List.append_nil]
  | cons line lines ih =>
      rw [decodeAll_cons, segments_cons, ← List.append_assoc]
      exact ih (h.decode line)

/-- Whether a line adds to the counters of a decoder what it adds to those of a fresh one. Only
whether it is a deposit is left to the state of the tool. -/
def CountsAsFresh (decoder : MotionDecoder) (line : String) : Prop :=
  let fresh := (({} : MotionDecoder).decode line).2
  let isDeposit := (decoder.decode line).1.any (·.isDeposit)
  (decoder.decode line).2.stats =
      { lines := decoder.stats.lines + fresh.stats.lines
        rapidMoves := decoder.stats.rapidMoves + fresh.stats.rapidMoves
        linearMoves := decoder.stats.linearMoves + fresh.stats.linearMoves
        depositMoves := decoder.stats.depositMoves + if isDeposit then 1 else 0
        ignoredLines := decoder.stats.ignoredLines + fresh.stats.ignoredLines
        malformedWords := decoder.stats.malformedWords + fresh.stats.malformedWords } ∧
    (decoder.decode line).2.counts.motion = decoder.counts.motion + fresh.counts.motion

theorem countsAsFresh (line : String) : decoder.CountsAsFresh line := by
  unfold CountsAsFresh decode accept
  cases Line.read line.toList with
  | motion command malformed => simp [stats, Line.Counts.add]
  | other => simp [stats, Line.Counts.add]

/-- However a fresh decoder is driven, its counters are balanced with the segments it has returned,
no move is both travel and a deposit, and what the next line adds to them depends on that line
alone, apart from the deposits. -/
theorem balanced_session (uses : List Use) :
    let segments := (({} : MotionDecoder).session uses).1
    let decoder := (({} : MotionDecoder).session uses).2
    Balanced decoder segments ∧
      decoder.stats.depositMoves + decoder.stats.travelMoves = decoder.stats.motionCommands ∧
      decoder.stats.travelMoves = segments.countP (!·.isDeposit) ∧
      ∀ line, decoder.CountsAsFresh line := by
  intro segments decoder
  obtain ⟨lines, hlines⟩ := exists_session {} uses
  have hfresh : Balanced {} [] := ⟨rfl, rfl, rfl, rfl, Nat.le_refl _⟩
  have hbalanced : Balanced decoder segments := by
    have hsegments : segments = ({} : MotionDecoder).segments lines := congrArg Prod.fst hlines
    have hdecoder : decoder = ({} : MotionDecoder).decodeAll lines := congrArg Prod.snd hlines
    rw [hsegments, hdecoder]
    exact hfresh.decodeAll lines
  have hreturned := hbalanced.returned
  have hdeposits := hbalanced.deposits
  have hlinear := hbalanced.depositsLinear
  have hsplit : segments.length =
      segments.countP (·.isDeposit) + segments.countP (!·.isDeposit) := by
    simpa using List.length_eq_countP_add_countP (l := segments) fun segment => segment.isDeposit
  refine ⟨hbalanced, ?_, ?_, decoder.countsAsFresh⟩ <;>
    simp only [DecodeStats.travelMoves, DecodeStats.motionCommands] <;> omega

end MotionDecoder

end Toolpath
