import Toolpath.Proofs.Text.Hexadecimal
import Toolpath.Proofs.Text.Runs
import Toolpath.Toml.Printer

/-! # TOML strings

A string may be written in four forms, and in each of them it is read back as it
was. Between double quotes this rests on the escapes; in a string of several
lines it also rests on how many quotes are let stand in a row, since three of
them end it.
-/

namespace Toolpath.Toml

open Text

/-- What is read from a string that goes on behind one of its characters. -/
def follow (c : Char) (tail : Option (List Char × List Char)) : Option (List Char × List Char) :=
  tail.bind fun (cs, rest) => some (c :: cs, rest)

/-! ## Escapes -/

/-- What stands for a character that is not a double quote: an escape, or the character itself. -/
inductive Stands (multiline : Bool) (c : Char) : List Char → Prop
  | letter {letter} : escaped? letter = some c → Stands multiline c ['\\', letter]
  | unit : c.toNat < 0x80 → Stands multiline c ('\\' :: 'u' :: hexFour true c.toNat)
  | plain : c ≠ '\\' → isPlain c = true ∨ (multiline = true ∧ c = '\n') → Stands multiline c [c]

theorem stands_escape (form : StringForm) (c : Char) :
    Stands form.multiline c (form.escape c) := by
  unfold StringForm.escape
  iterate 2
    split
    · subst_vars
      exact .letter rfl
  split
  · subst_vars
    split
    next hmultiline => exact .plain (by decide) (.inr ⟨hmultiline, rfl⟩)
    next => exact .letter rfl
  iterate 3
    split
    · subst_vars
      exact .letter rfl
  split
  next hcontrol => exact .unit (by omega)
  next hslash hcontrol =>
    refine .plain hslash (.inl ?_)
    simp only [isPlain, Bool.or_eq_true, Bool.and_eq_true, decide_eq_true_eq]
    omega

theorem scalar?_toNat (c : Char) : scalar? c.toNat = some c := by
  have hchar : Char.ofNatAux c.toNat c.valid = c := Char.ext (UInt32.toNat_inj.mp rfl)
  exact (dif_pos c.valid).trans (congrArg some hchar)

/-- What a reader of strings has to do for the escapes to be undone. -/
structure Unescapes (read : List Char → Option (List Char × List Char)) (multiline : Bool) :
    Prop where
  letter : ∀ {letter c} rest, escaped? letter = some c →
    read ('\\' :: letter :: rest) = follow c (read rest)
  unit : ∀ {a b c d code} rest, hexRun? [a, b, c, d] = some code →
    read ('\\' :: 'u' :: a :: b :: c :: d :: rest) =
      (scalar? code).bind fun char => follow char (read rest)
  plain : ∀ {c} rest, c ≠ '"' → c ≠ '\\' → isPlain c = true ∨ (multiline = true ∧ c = '\n') →
    read (c :: rest) = follow c (read rest)

theorem Unescapes.stands {multiline : Bool} {read : List Char → Option (List Char × List Char)}
    (h : Unescapes read multiline) {c : Char} (hc : c ≠ '"') {text : List Char}
    (htext : Stands multiline c text) (rest : List Char) :
    read (text ++ rest) = follow c (read rest) := by
  cases htext with
  | letter hletter => exact h.letter rest hletter
  | unit hlow =>
      have hcode := hexRun?_hexFour true (show c.toNat < 0x10000 by omega)
      have hread := h.unit rest hcode
      rwa [scalar?_toNat] at hread
  | plain hslash hplain => exact h.plain rest hc hslash hplain

/-! ## Strings on one line -/

theorem unescapes_basicString : Unescapes basicString false where
  letter := by
    intro letter c rest hletter
    rw [basicString, hletter]
    · rfl
    · rintro _ _ _ _ _ rfl
      cases hletter
    · rintro _ _ _ _ _ _ _ _ _ rfl
      cases hletter
  unit := by
    intro a b c d code rest hcode
    rw [basicString, hcode, Option.bind_some]
    cases scalar? code with
    | none => rfl
    | some char => rfl
  plain := by
    intro c rest hquote hslash hplain
    have hplain : isPlain c = true := hplain.resolve_right nofun
    rw [basicString, if_pos hplain]
    · rfl
    · exact hquote
    · rintro _ _ _ _ _ rfl
      exact absurd rfl hslash
    · rintro _ _ _ _ _ _ _ _ _ rfl
      exact absurd rfl hslash
    · rintro _ _ rfl
      exact absurd rfl hslash

/-- On one line every quote is escaped, and so the first quote that is not ends the string. -/
theorem basicString_escapeAll {form : StringForm} (hform : form.multiline = false) (current : Nat)
    (cs rest : List Char) :
    basicString (form.escapeAll current cs ++ '"' :: rest) = some (cs, rest) := by
  have hroom : form.room = 0 := by
    rw [StringForm.room, hform]
    rfl
  induction cs generalizing current with
  | nil => rfl
  | cons c cs ih =>
      rw [StringForm.escapeAll, hroom]
      split
      next hc =>
        have hstands := stands_escape form c
        rw [hform] at hstands
        rw [List.append_assoc, unescapes_basicString.stands hc hstands, ih]
        rfl
      next hquote =>
        obtain rfl : c = '"' := not_not.mp hquote
        rw [if_neg (Nat.not_lt_zero _), List.cons_append, List.cons_append,
          unescapes_basicString.letter _ rfl, ih]
        rfl

/-! ## Strings of several lines -/

/-- The first character of what stands for a character. -/
theorem Stands.exists_cons {multiline : Bool} {c : Char} {text : List Char}
    (h : Stands multiline c text) :
    ∃ first tail, text = first :: tail ∧
      (first = '\\' ∨ first = c ∧ (isPlain c = true ∨ (multiline = true ∧ c = '\n'))) := by
  cases h with
  | letter _ => exact ⟨_, _, rfl, .inl rfl⟩
  | unit _ => exact ⟨_, _, rfl, .inl rfl⟩
  | plain _ hplain => exact ⟨_, _, rfl, .inr ⟨rfl, hplain⟩⟩

/-- Whether what is written of a string has at most so many quotes in front, and whether they are
all of the string unless something else stands behind them. -/
def RunsOut (mark : Char) (room : Nat) (body cs : List Char) : Prop :=
  ∃ r ≤ room, (cs = List.replicate r mark ∧ body = List.replicate r mark) ∨
    ∃ c tail, c ≠ mark ∧ body = List.replicate r mark ++ c :: tail

section Closing

variable {mark : Char} {room : Nat} {body cs rest : List Char}

theorem runsOut_cons {c : Char} (hc : c ≠ mark) : RunsOut mark room (c :: body) cs :=
  ⟨0, Nat.zero_le _, .inr ⟨c, body, hc, rfl⟩⟩

theorem RunsOut.cons_mark (h : RunsOut mark room body cs) :
    RunsOut mark (room + 1) (mark :: body) (mark :: cs) := by
  obtain ⟨r, hr, ⟨rfl, rfl⟩ | ⟨c, tail, hc, rfl⟩⟩ := h
  · exact ⟨r + 1, Nat.succ_le_succ hr, .inl ⟨rfl, rfl⟩⟩
  · exact ⟨r + 1, Nat.succ_le_succ hr, .inr ⟨c, tail, hc, rfl⟩⟩

theorem closing?_replicate (n : Nat) (hrest : Stops (· = mark) rest) :
    closing? mark (List.replicate n mark ++ rest) =
      if 3 ≤ n ∧ n ≤ 5 then some (List.replicate (n - 3) mark, rest) else none := by
  have hrun : ∀ c ∈ List.replicate n mark, decide (c = mark) = true := by
    intro c hc
    exact decide_eq_true (List.eq_of_mem_replicate hc)
  have hdrop : (List.replicate n mark ++ rest).drop n = rest :=
    List.drop_left' List.length_replicate
  rw [closing?]
  simp only [takeWhile_append_of_stops hrun hrest, List.length_replicate, hdrop]

/-- A quote inside a string of several lines is told from the quotes that end it. -/
theorem closing_step (h : RunsOut mark 1 body cs) (hrest : Stops (· = mark) rest)
    {next : Option (List Char × List Char)} (hnext : next = some (cs, rest)) :
    (match closing? mark (mark :: (body ++ mark :: mark :: mark :: rest)) with
    | some done => some done
    | none =>
        if (body ++ mark :: mark :: mark :: rest).take 2 = [mark, mark] then none
        else follow mark next) = some (mark :: cs, rest) := by
  obtain ⟨r, hr, ⟨rfl, rfl⟩ | ⟨c, tail, hc, rfl⟩⟩ := h
  -- Nothing but quotes is left: four or five stand in a row, and the last three end the string.
  · have htext : mark :: (List.replicate r mark ++ mark :: mark :: mark :: rest) =
        List.replicate (r + 4) mark ++ rest := by
      rw [show mark :: mark :: mark :: rest = List.replicate 3 mark ++ rest from rfl,
        ← List.append_assoc, List.replicate_append_replicate, ← List.cons_append,
        ← List.replicate_succ]
    rw [htext, closing?_replicate (r + 4) hrest, if_pos (by omega)]
    rfl
  -- Something else stands behind one or two quotes, too few to end it.
  · have hstops : Stops (· = mark) (c :: (tail ++ mark :: mark :: mark :: rest)) := by
      intro d hd
      obtain rfl := Option.some.inj hd
      exact decide_eq_false hc
    have hclosing := closing?_replicate (r + 1) hstops
    rw [if_neg (by omega), List.replicate_succ, List.cons_append] at hclosing
    rw [List.append_assoc, List.cons_append, hclosing, hnext]
    have htake : (List.replicate r mark ++ c :: (tail ++ mark :: mark :: mark :: rest)).take 2 ≠
        [mark, mark] := by
      intro htake
      obtain rfl | rfl : r = 0 ∨ r = 1 := by omega
      · exact hc (List.cons.inj htake).1
      · exact hc (List.cons.inj (List.cons.inj htake).2).1
    exact if_neg htake

end Closing

theorem unescapes_basicText : Unescapes (basicText false) true where
  letter := by
    intro letter c rest hletter
    have hends : endsLine (letter :: rest) = false := by
      revert hletter
      unfold escaped?
      split
      all_goals
        intro hletter
        first | rfl | cases hletter
    rw [basicText]
    · simp [hletter, hends]
      rfl
    · rintro _ _ _ _ _ - heq
      cases heq
      cases hletter
    · rintro _ _ _ _ _ _ _ _ _ - heq
      cases heq
      cases hletter
  unit := by
    intro a b c d code rest hcode
    rw [basicText.eq_def]
    simp only [hcode, Option.bind_some]
    cases scalar? code with
    | none => rfl
    | some char => rfl
  plain := by
    intro c rest hquote hslash hplain
    have hreturn : c ≠ '\r' := by
      rintro rfl
      rcases hplain with hplain | hplain
      · exact absurd hplain (by decide)
      · exact absurd hplain.2 (by decide)
    have hadmitted : (isPlain c || decide (c = '\n')) = true := by
      rw [Bool.or_eq_true, decide_eq_true_eq]
      exact hplain.imp_right And.right
    rw [basicText.eq_def]
    split
    next heq => cases heq
    next heq => exact absurd (List.cons.inj heq).1 hslash
    next heq => exact absurd (List.cons.inj heq).1 hslash
    next heq =>
      cases heq
      simp only [Bool.and_false, Bool.false_eq_true, if_false, if_neg hreturn, if_neg hquote,
        if_neg hslash, hadmitted, if_true]
      rfl

theorem basicText_quote (rest : List Char) :
    basicText false ('"' :: rest) =
      match closing? '"' ('"' :: rest) with
      | some done => some done
      | none => if rest.take 2 = ['"', '"'] then none else follow '"' (basicText false rest) := by
  rw [basicText.eq_def]
  rfl

theorem literalText_quote (rest : List Char) :
    literalText ('\'' :: rest) =
      match closing? '\'' ('\'' :: rest) with
      | some done => some done
      | none => if rest.take 2 = ['\'', '\''] then none else follow '\'' (literalText rest) := by
  rw [literalText]
  rfl

/-- Of the quotes in a row no more are let stand than there is room for. -/
theorem runsOut_escapeAll {form : StringForm} {current : Nat} (h : current ≤ form.room)
    (cs : List Char) : RunsOut '"' (form.room - current) (form.escapeAll current cs) cs := by
  induction cs generalizing current with
  | nil => exact ⟨0, Nat.zero_le _, .inl ⟨rfl, rfl⟩⟩
  | cons c cs ih =>
      rw [StringForm.escapeAll]
      split
      next hc =>
        obtain ⟨first, tail, htext, hfirst⟩ := (stands_escape form c).exists_cons
        rw [htext]
        refine runsOut_cons ?_
        rcases hfirst with rfl | ⟨rfl, -⟩
        · decide
        · exact hc
      next hquote =>
        obtain rfl : c = '"' := not_not.mp hquote
        split
        next hroom =>
          have hleft : form.room - (current + 1) + 1 = form.room - current := by omega
          exact hleft ▸ (ih hroom).cons_mark
        next => exact runsOut_cons (by decide)

theorem basicText_escapeAll {form : StringForm} (hform : form.multiline = true) {current : Nat}
    (h : current ≤ 2) (cs : List Char) {rest : List Char} (hrest : Stops (· = '"') rest) :
    basicText false (form.escapeAll current cs ++ '"' :: '"' :: '"' :: rest) =
      some (cs, rest) := by
  have hroom : form.room = 2 := by
    rw [StringForm.room, hform]
    rfl
  induction cs generalizing current with
  | nil =>
      have hclosing := closing?_replicate 3 hrest
      change basicText false ('"' :: '"' :: '"' :: rest) = _
      change closing? '"' ('"' :: '"' :: '"' :: rest) = _ at hclosing
      rw [basicText_quote, hclosing]
      rfl
  | cons c cs ih =>
      rw [StringForm.escapeAll, hroom]
      split
      next hc =>
        have hstands := stands_escape form c
        rw [hform] at hstands
        rw [List.append_assoc, unescapes_basicText.stands hc hstands, ih (Nat.zero_le _)]
        rfl
      next hquote =>
        obtain rfl : c = '"' := not_not.mp hquote
        split
        -- There is room for the quote, and what is written behind it runs out of quotes in time.
        next hlt =>
          have hfront := runsOut_escapeAll (hroom ▸ hlt : current + 1 ≤ form.room) cs
          obtain ⟨r, hr, hfront⟩ := hfront
          rw [List.cons_append, basicText_quote]
          exact closing_step ⟨r, by omega, hfront⟩ hrest (ih hlt)
        next =>
          rw [List.cons_append, List.cons_append, unescapes_basicText.letter _ rfl,
            ih (Nat.zero_le _)]
          rfl

theorem le_longestRun (mark : Char) (current : Nat) (cs : List Char) :
    current ≤ StringForm.longestRun mark current cs := by
  induction cs generalizing current with
  | nil => exact Nat.le_refl _
  | cons c cs ih =>
      rw [StringForm.longestRun]
      split
      · exact (Nat.le_succ _).trans (ih _)
      · exact Nat.le_max_left ..

theorem runsOut_of_longestRun {mark : Char} {room current : Nat} {cs : List Char}
    (h : StringForm.longestRun mark current cs ≤ room) : RunsOut mark (room - current) cs cs := by
  induction cs generalizing current with
  | nil => exact ⟨0, Nat.zero_le _, .inl ⟨rfl, rfl⟩⟩
  | cons c cs ih =>
      rw [StringForm.longestRun] at h
      split at h
      next hmark =>
        subst hmark
        have hlt : current < room := (le_longestRun ..).trans h
        have hleft : room - (current + 1) + 1 = room - current := by omega
        exact hleft ▸ (ih h).cons_mark
      next hother => exact runsOut_cons hother

theorem literalString_append {cs : List Char}
    (hrun : StringForm.longestRun '\'' 0 cs ≤ 0) (hplain : ∀ c ∈ cs, isPlain c = true)
    (rest : List Char) : literalString (cs ++ '\'' :: rest) = some (cs, rest) := by
  induction cs with
  | nil => rfl
  | cons c cs ih =>
      obtain ⟨hc, hmore⟩ := List.forall_mem_cons.mp hplain
      rw [StringForm.longestRun] at hrun
      split at hrun
      next => exact absurd ((le_longestRun ..).trans hrun) (by decide)
      next hother =>
        rw [List.cons_append, literalString, if_neg hother, if_pos hc,
          ih ((Nat.le_max_right ..).trans hrun) hmore]
        rfl

theorem literalText_append {cs : List Char} {current : Nat}
    (hrun : StringForm.longestRun '\'' current cs ≤ 2)
    (hplain : ∀ c ∈ cs, isPlain c = true ∨ c = '\n') {rest : List Char}
    (hrest : Stops (· = '\'') rest) :
    literalText (cs ++ '\'' :: '\'' :: '\'' :: rest) = some (cs, rest) := by
  induction cs generalizing current with
  | nil =>
      have hclosing := closing?_replicate 3 hrest
      change literalText ('\'' :: '\'' :: '\'' :: rest) = _
      change closing? '\'' ('\'' :: '\'' :: '\'' :: rest) = _ at hclosing
      rw [literalText_quote, hclosing]
      rfl
  | cons c cs ih =>
      obtain ⟨hc, hmore⟩ := List.forall_mem_cons.mp hplain
      rw [StringForm.longestRun] at hrun
      rw [List.cons_append]
      split at hrun
      next hmark =>
        subst hmark
        have hlt := (le_longestRun ..).trans hrun
        rw [literalText_quote]
        obtain ⟨r, hr, hfront⟩ := runsOut_of_longestRun hrun
        exact closing_step ⟨r, by omega, hfront⟩ hrest (ih hrun hmore)
      next hother =>
        have hreturn : c ≠ '\r' := by
          rintro rfl
          exact absurd hc (by decide)
        have hadmitted : (isPlain c || decide (c = '\n')) = true := by
          rwa [Bool.or_eq_true, decide_eq_true_eq]
        rw [literalText, if_neg hreturn, if_neg hother, hadmitted, if_pos rfl,
          ih ((Nat.le_max_right ..).trans hrun) hmore]
        rfl

/-! ## Forms -/

/-- Whether a text starts with neither of the quotes. -/
def Quoteless (rest : List Char) : Prop :=
  Stops (· = '"') rest ∧ Stops (· = '\'') rest

/-- Whether a text starts with a character that is no part of a line break. -/
def Lineless (cs : List Char) : Prop :=
  Stops (fun c => c = '\n' || c = '\r') cs

theorem lineless_cons {c : Char} (h : isPlain c = true) (cs : List Char) : Lineless (c :: cs) := by
  intro d hd
  obtain rfl := Option.some.inj hd
  by_contra hline
  simp only [Bool.not_eq_false, Bool.or_eq_true, decide_eq_true_eq] at hline
  rcases hline with rfl | rfl <;> exact absurd h (by decide)

theorem dropNewline_of_lineless {cs : List Char} (h : Lineless cs) : dropNewline cs = cs := by
  have hnone : afterNewline? cs = none := by
    unfold afterNewline?
    split
    · exact absurd (h _ rfl) (by decide)
    · exact absurd (h _ rfl) (by decide)
    · rfl
  rw [dropNewline, hnone]
  rfl

/-- The line feed behind the opening quotes is the one that does not count. -/
theorem dropNewline_opening {cs body : List Char} (h : cs.contains '\n' = false → Lineless body) :
    dropNewline ((if true && cs.contains '\n' then ['\n'] else []) ++ body) = body := by
  cases hline : cs.contains '\n' with
  | true => rfl
  | false => exact dropNewline_of_lineless (h hline)

theorem lineless_escapeAll (form : StringForm) {cs : List Char} (h : cs.contains '\n' = false)
    (rest : List Char) : Lineless (form.escapeAll 0 cs ++ '"' :: rest) := by
  cases cs with
  | nil => exact lineless_cons rfl rest
  | cons c cs =>
      rw [StringForm.escapeAll]
      split
      next hc =>
        obtain ⟨first, tail, htext, hfirst⟩ := (stands_escape form c).exists_cons
        rw [htext]
        apply lineless_cons
        rcases hfirst with rfl | ⟨rfl, hplain | ⟨-, rfl⟩⟩
        · rfl
        · exact hplain
        · exact absurd h (by simp)
      next hquote =>
        obtain rfl : c = '"' := not_not.mp hquote
        split <;> exact lineless_cons rfl _

theorem lineless_append {cs : List Char} (hplain : ∀ c ∈ cs, isPlain c = true ∨ c = '\n')
    (h : cs.contains '\n' = false) (rest : List Char) : Lineless (cs ++ '\'' :: rest) := by
  cases cs with
  | nil => exact lineless_cons rfl rest
  | cons c cs =>
      apply lineless_cons
      refine (hplain c (List.mem_cons_self ..)).resolve_right ?_
      rintro rfl
      exact absurd h (by simp)

/-- One quote in front is not taken for one of three. -/
theorem ne_cons_cons {mark : Char} {body cs rest : List Char} (h : RunsOut mark 0 body cs)
    (hrest : Stops (· = mark) rest) (tail : List Char) :
    body ++ mark :: rest ≠ mark :: mark :: tail := by
  obtain ⟨r, hr, h⟩ := h
  obtain rfl := Nat.le_zero.mp hr
  intro heq
  rcases h with ⟨-, rfl⟩ | ⟨c, body, hc, rfl⟩
  · obtain rfl := (List.cons.inj heq).2
    exact absurd (hrest mark rfl) (by simp)
  · exact hc (List.cons.inj heq).1

section Render

variable {form : StringForm} {cs rest : List Char}

theorem string?_render_escapes (hform : form.escapes = true) (cs : List Char)
    (hrest : Stops (· = '"') rest) : string? (form.render cs ++ rest) = some (cs, rest) := by
  obtain ⟨escapes, multiline⟩ := form
  obtain rfl : escapes = true := hform
  cases multiline with
  | false =>
      have htext : StringForm.render ⟨true, false⟩ cs ++ rest =
          '"' :: (StringForm.escapeAll ⟨true, false⟩ 0 cs ++ '"' :: rest) := by
        simp [StringForm.render, StringForm.delimiter, StringForm.mark]
      have hfront := runsOut_escapeAll (Nat.zero_le (StringForm.room ⟨true, false⟩)) cs
      rw [htext, string?]
      · exact basicString_escapeAll rfl 0 cs rest
      · exact fun tail heq => ne_cons_cons hfront hrest tail heq
  | true =>
      have htext : StringForm.render ⟨true, true⟩ cs ++ rest = '"' :: '"' :: '"' ::
          ((if true && cs.contains '\n' then ['\n'] else []) ++
            (StringForm.escapeAll ⟨true, true⟩ 0 cs ++ '"' :: '"' :: '"' :: rest)) := by
        simp [StringForm.render, StringForm.delimiter, StringForm.mark, List.replicate]
      rw [htext, string?, dropNewline_opening fun h => lineless_escapeAll _ h _]
      exact basicText_escapeAll rfl (Nat.zero_le 2) cs hrest

theorem string?_render_literal (hform : form.escapes = false) (h : form.admits cs = true)
    (hrest : Stops (· = '\'') rest) : string? (form.render cs ++ rest) = some (cs, rest) := by
  obtain ⟨escapes, multiline⟩ := form
  obtain rfl : escapes = false := hform
  simp only [StringForm.admits, Bool.and_eq_true, List.all_eq_true, decide_eq_true_eq,
    Bool.or_eq_true] at h
  obtain ⟨⟨hplain, -⟩, hrun⟩ := h
  cases multiline with
  | false =>
      have htext : StringForm.render ⟨false, false⟩ cs ++ rest = '\'' :: (cs ++ '\'' :: rest) := by
        simp [StringForm.render, StringForm.delimiter, StringForm.mark]
      rw [htext, string?]
      · apply literalString_append hrun
        intro c hc
        exact (hplain c hc).resolve_right nofun
      · exact fun tail heq => ne_cons_cons (runsOut_of_longestRun hrun) hrest tail heq
  | true =>
      have hplain : ∀ c ∈ cs, isPlain c = true ∨ c = '\n' :=
        fun c hc => (hplain c hc).imp_right And.right
      have htext : StringForm.render ⟨false, true⟩ cs ++ rest = '\'' :: '\'' :: '\'' ::
          ((if true && cs.contains '\n' then ['\n'] else []) ++
            (cs ++ '\'' :: '\'' :: '\'' :: rest)) := by
        simp [StringForm.render, StringForm.delimiter, StringForm.mark, List.replicate]
      rw [htext, string?, dropNewline_opening fun h => lineless_append hplain h _]
      exact literalText_append hrun hplain hrest

end Render

/-- A string is read back from what is written for it, up to a text without quotes in front. -/
theorem string?_quote (s : String) {rest : List Char} (hrest : Quoteless rest) :
    string? (quote s ++ rest) = some (s.toList, rest) := by
  rw [quote, StringForm.choose]
  cases hform : StringForm.all.find? (·.admits s.toList) with
  | none => exact string?_render_escapes rfl _ hrest.1
  | some form =>
      have hadmits : form.admits s.toList = true := by simpa using List.find?_some hform
      rw [Option.getD_some]
      cases hescapes : form.escapes with
      | true => exact string?_render_escapes hescapes _ hrest.1
      | false => exact string?_render_literal hescapes hadmits hrest.2

end Toolpath.Toml
