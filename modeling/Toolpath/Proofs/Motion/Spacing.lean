import Toolpath.Proofs.Motion.Grammar

/-! # Ways to write a line

The same words can be written in many ways. Their letters may be small or
capital, between them there may be nothing, any blanks, and comments in
parentheses that hold whatever they like, and behind the last word a remark may
follow. None of this says anything: each way to write the words is read as the
words.
-/

namespace Toolpath.Line

open Text

/-- Whether a text may stand between words: blanks and closed comments in parentheses. -/
inductive IsGap : List Char → Prop
  | nil : IsGap []
  | blank {c gap} : isBlank c = true → IsGap gap → IsGap (c :: gap)
  | aside {body gap} : ')' ∉ body → IsGap gap → IsGap ('(' :: (body ++ [')']) ++ gap)

/-- Whether a text may end a line: nothing, or a remark. -/
inductive IsEnding : List Char → Prop
  | nil : IsEnding []
  | remark {body} : '\n' ∉ body → IsEnding (';' :: body)

/-- Whether a word can be written: a letter, and behind it neither letters nor blanks, nor anything
that starts a comment. -/
structure Word.IsPlain (word : Word) : Prop where
  letter : word.letter.isUpper = true
  suffix : ∀ c ∈ word.suffix, isSuffix c = true ∧ c ≠ ';' ∧ c ≠ '('

instance (word : Word) : Decidable word.IsPlain :=
  have hsuffix : (word.suffix.all fun c => isSuffix c = true ∧ c ≠ ';' ∧ c ≠ '(') = true ↔
      ∀ c ∈ word.suffix, isSuffix c = true ∧ c ≠ ';' ∧ c ≠ '(' :=
    List.all_eq_true.trans
      ⟨fun h c hc => of_decide_eq_true (h c hc), fun h c hc => decide_eq_true (h c hc)⟩
  decidable_of_iff (word.letter.isUpper = true ∧ _)
    ⟨fun h => ⟨h.1, hsuffix.mp h.2⟩, fun h => ⟨h.letter, hsuffix.mpr h.suffix⟩⟩

/-- Whether a text is a way to write words: each behind a gap and with its letter in either case,
with another gap and an ending behind the last one. -/
inductive Renders : List Word → List Char → Prop
  | nil {gap ending} : IsGap gap → IsEnding ending → Renders [] (gap ++ ending)
  | cons {gap c word ws text} : IsGap gap → c.isAlpha = true → c.toUpper = word.letter →
      Renders ws text → Renders (word :: ws) (gap ++ c :: (word.suffix ++ text))

/-- Words in capitals, with single spaces between them. -/
def tidy (ws : List Word) : List Char :=
  [' '].intercalate (ws.map fun word => word.letter :: word.suffix)

/-! ## Gaps -/

theorem isAlpha_of_isBlank {c : Char} (h : isBlank c = true) : c.isAlpha = false := by
  refine Bool.eq_false_iff.mpr fun halpha => ?_
  simp only [isBlank, Bool.or_eq_true, Bool.and_eq_true, decide_eq_true_eq, beq_iff_eq] at h
  rcases Bool.or_eq_true_iff.mp halpha with hupper | hlower
  · have hlow : 65 ≤ c.toNat := UInt32.le_iff_toNat_le.mp (of_decide_eq_true hupper).1
    have hhigh : c.toNat ≤ 90 := UInt32.le_iff_toNat_le.mp (of_decide_eq_true hupper).2
    omega
  · have hlower := Bool.and_eq_true_iff.mp hlower
    have hlow : 97 ≤ c.toNat := UInt32.le_iff_toNat_le.mp (of_decide_eq_true hlower.1)
    have hhigh : c.toNat ≤ 122 := UInt32.le_iff_toNat_le.mp (of_decide_eq_true hlower.2)
    omega

/-- Nothing that starts no comment is stripped. -/
theorem stripComments_append_of_plain {cs : List Char} (h : ∀ c ∈ cs, c ≠ ';' ∧ c ≠ '(')
    (rest : List Char) : stripComments (cs ++ rest) = cs ++ stripComments rest := by
  induction cs with
  | nil => rfl
  | cons c cs ih =>
      obtain ⟨⟨hremark, haside⟩, hcs⟩ := List.forall_mem_cons.mp h
      rw [List.cons_append, stripComments, stripFrom, if_neg hremark, if_neg haside]
      exact congrArg _ (ih hcs)

/-- Of a gap only blanks are left. -/
theorem exists_blanks_of_isGap {gap : List Char} (h : IsGap gap) :
    ∃ blanks, (∀ c ∈ blanks, isBlank c = true) ∧
      ∀ rest, stripComments (gap ++ rest) = blanks ++ stripComments rest := by
  induction h with
  | nil => exact ⟨[], nofun, fun _ => rfl⟩
  | @blank c gap hc _ ih =>
      obtain ⟨blanks, hblanks, hstrip⟩ := ih
      have hplain : ∀ d ∈ [c], d ≠ ';' ∧ d ≠ '(' := by
        intro d hd
        rw [List.mem_singleton.mp hd]
        constructor <;> rintro rfl <;> cases hc
      refine ⟨c :: blanks, List.forall_mem_cons.mpr ⟨hc, hblanks⟩, fun rest => ?_⟩
      have hfirst := stripComments_append_of_plain hplain (gap ++ rest)
      rw [hstrip] at hfirst
      exact hfirst
  | aside hbody _ ih =>
      obtain ⟨blanks, hblanks, hstrip⟩ := ih
      refine ⟨' ' :: blanks, List.forall_mem_cons.mpr ⟨rfl, hblanks⟩, fun rest => ?_⟩
      rw [List.append_assoc, stripComments_comment (.aside hbody), hstrip]
      rfl

/-- Of an ending only blanks are left. -/
theorem isBlank_of_isEnding {ending : List Char} (h : IsEnding ending) :
    ∀ c ∈ stripComments ending, isBlank c = true := by
  cases h with
  | nil => exact nofun
  | remark hbody =>
      rw [← List.append_nil (';' :: _), stripComments_comment (.remark hbody (stops_nil _))]
      intro c hc
      rw [List.mem_singleton.mp hc]
      rfl

/-- Blanks in front of a code are no words and belong to none. -/
theorem words_append_of_blanks {blanks : List Char} (h : ∀ c ∈ blanks, isBlank c = true)
    (rest : List Char) : words (blanks ++ rest) = words rest := by
  induction blanks with
  | nil => rfl
  | cons c cs ih =>
      obtain ⟨hc, hcs⟩ := List.forall_mem_cons.mp h
      rw [List.cons_append, words, if_neg (by simp [isAlpha_of_isBlank hc]), ih hcs]

theorem stops_append_of_blanks {blanks rest : List Char} (h : ∀ c ∈ blanks, isBlank c = true)
    (hrest : Stops isSuffix rest) : Stops isSuffix (blanks ++ rest) := by
  cases blanks with
  | nil => exact hrest
  | cons c cs =>
      intro d hd
      obtain rfl := Option.some.inj hd
      simp [isSuffix, h c List.mem_cons_self]

/-! ## Renderings -/

variable {ws : List Word} {text : List Char}

/-- The words of a rendering are found in it, and the word in front of it ends there. -/
theorem words_of_renders (hplain : ∀ word ∈ ws, word.IsPlain) (h : Renders ws text) :
    words (stripComments text) = ws ∧ Stops isSuffix (stripComments text) := by
  induction h with
  | nil hgap hending =>
      obtain ⟨blanks, hblanks, hstrip⟩ := exists_blanks_of_isGap hgap
      have hending := isBlank_of_isEnding hending
      rw [hstrip, words_append_of_blanks hblanks]
      constructor
      · have hnone := words_append_of_blanks hending []
        rwa [List.append_nil] at hnone
      · have hstops := stops_append_of_blanks hending (stops_nil _)
        rw [List.append_nil] at hstops
        exact stops_append_of_blanks hblanks hstops
  | @cons gap c word ws text hgap hc hletter _ ih =>
      obtain ⟨hword, hplain⟩ := List.forall_mem_cons.mp hplain
      obtain ⟨hwords, hstops⟩ := ih hplain
      obtain ⟨blanks, hblanks, hstrip⟩ := exists_blanks_of_isGap hgap
      have hcode : stripComments (c :: (word.suffix ++ text)) =
          c :: (word.suffix ++ stripComments text) := by
        have hfree : ∀ d ∈ c :: word.suffix, d ≠ ';' ∧ d ≠ '(' := by
          refine List.forall_mem_cons.mpr ⟨?_, fun d hd => (hword.suffix d hd).2⟩
          constructor <;> rintro rfl <;> cases hc
        exact stripComments_append_of_plain hfree text
      rw [hstrip, hcode, words_append_of_blanks hblanks,
        words_word hc (fun d hd => (hword.suffix d hd).1) hstops, hwords, hletter]
      refine ⟨rfl, stops_append_of_blanks hblanks fun d hd => ?_⟩
      obtain rfl := Option.some.inj hd
      simp [isSuffix, hc]

theorem read_of_renders (hplain : ∀ word ∈ ws, word.IsPlain) (h : Renders ws text) :
    read text = readWords ws := by
  rw [read, (words_of_renders hplain h).1]

/-- A space in front of a rendering makes another one. -/
theorem Renders.space (h : Renders ws text) : Renders ws (' ' :: text) := by
  cases h with
  | nil hgap hending => exact .nil (.blank rfl hgap) hending
  | cons hgap hc hletter hrest => exact .cons (.blank rfl hgap) hc hletter hrest

theorem Word.IsPlain.toUpper_letter {word : Word} (h : word.IsPlain) :
    word.letter.isAlpha = true ∧ word.letter.toUpper = word.letter := by
  refine ⟨Bool.or_eq_true_iff.mpr (.inl h.letter), dif_neg ?_⟩
  have hhigh : word.letter.val.toNat ≤ 90 :=
    UInt32.le_iff_toNat_le.mp (of_decide_eq_true h.letter).2
  rintro ⟨hlow, -⟩
  have hlow : 97 ≤ word.letter.val.toNat := UInt32.le_iff_toNat_le.mp hlow
  omega

theorem renders_tidy (hplain : ∀ word ∈ ws, word.IsPlain) : Renders ws (tidy ws) := by
  induction ws with
  | nil => exact .nil .nil .nil
  | cons word ws ih =>
      obtain ⟨hword, hplain⟩ := List.forall_mem_cons.mp hplain
      obtain ⟨halpha, hupper⟩ := hword.toUpper_letter
      cases ws with
      | nil =>
          have hlast : tidy [word] = [] ++ word.letter :: (word.suffix ++ ([] ++ [])) := by
            simp [tidy]
          rw [hlast]
          exact .cons .nil halpha hupper (.nil .nil .nil)
      | cons next ws =>
          have hfirst : tidy (word :: next :: ws) =
              [] ++ word.letter :: (word.suffix ++ ' ' :: tidy (next :: ws)) := by
            simp [tidy, List.intercalate_cons_cons]
          rw [hfirst]
          exact .cons .nil halpha hupper (ih hplain).space

/-- However words are written, the line is read as the words: the command is the one that the tidy
line gives, or there is none, and the counters go on by as much. -/
theorem command?_of_renders (hplain : ∀ word ∈ ws, word.IsPlain) (h : Renders ws text) :
    read text = readWords ws ∧ command? text = command? (tidy ws) ∧
      ∀ counts : Counts, counts.add (read text) = counts.add (read (tidy ws)) := by
  have htext := read_of_renders hplain h
  have htidy := read_of_renders hplain (renders_tidy hplain)
  refine ⟨htext, ?_, fun counts => by rw [htext, htidy]⟩
  rw [command?, command?, htext, htidy]

/-- Small letters, fused words, and comments that look like code say nothing. -/
theorem command?_of_renders_untidy :
    let ws : List Word := [⟨'G', ['1']⟩, ⟨'X', "-1.5".toList⟩, ⟨'Y', "2)".toList⟩]
    tidy ws = "G1 X-1.5 Y2)".toList ∧
      command? "(a;G0)g1x-1.5\t(X9(b) Y2);z(".toList = command? (tidy ws) ∧
      read "(a;G0)g1x-1.5\t(X9(b) Y2);z(".toList =
        .motion ⟨.linear, { x := some (Float.ofBits 0xBFF8000000000000) }⟩ 1 := by
  intro ws
  have hplain : ∀ word ∈ ws, word.IsPlain := by decide
  have hfirst : IsGap "(a;G0)".toList := @IsGap.aside "a;G0".toList [] (by decide) .nil
  have hlast : IsGap "\t(X9(b) ".toList :=
    .blank rfl (@IsGap.aside "X9(b".toList " ".toList (by decide) (.blank rfl .nil))
  have htext : Renders ws "(a;G0)g1x-1.5\t(X9(b) Y2);z(".toList :=
    .cons hfirst rfl rfl (.cons .nil rfl rfl (.cons hlast rfl rfl
      (.nil .nil (.remark (by decide)))))
  obtain ⟨hread, hcommand, -⟩ := command?_of_renders hplain htext
  refine ⟨by decide, hcommand, ?_⟩
  rw [hread]
  decide +kernel

end Toolpath.Line
