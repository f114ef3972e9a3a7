import Toolpath.Proofs.Number.Layout
import Toolpath.Toml.Printer

/-! # TOML words

An integer that fits, a truth value and a finite double are written as words,
and each word is read as what it was written for.
-/

namespace Toolpath.Toml

open Text Number

/-! ## Digits -/

theorem joinedDigits?_of_isDigits {ds : List Char} (h : IsDigits ds) :
    joinedDigits? Char.isDigit ds = some ds := by
  have hline : '_' ∉ ds := fun hmem => absurd (h.2 '_' hmem) (by decide)
  have hall : ds.all Char.isDigit = true := List.all_eq_true.mpr h.2
  rw [joinedDigits?, List.splitOn_eq_singleton hline]
  simp [h.1, hall]

theorem wholeDigits?_of_isWhole {ds : List Char} (h : IsWhole ds) : wholeDigits? ds = some ds := by
  rw [wholeDigits?, joinedDigits?_of_isDigits h.1]
  exact if_neg h.2

/-- Digits with a point among them are no whole part. -/
theorem wholeDigits?_point {ds fs : List Char} (h : IsDigits ds)
    (hfs : ∀ c ∈ fs, c.isDigit = true) : wholeDigits? (ds ++ '.' :: fs) = none := by
  have hline : '_' ∉ ds ++ '.' :: fs := by
    intro hmem
    rcases List.mem_append.mp hmem with hmem | hmem
    · exact absurd (h.2 '_' hmem) (by decide)
    · rcases List.mem_cons.mp hmem with hpoint | hmem
      · exact absurd hpoint (by decide)
      · exact absurd (hfs '_' hmem) (by decide)
  have hjoined : joinedDigits? Char.isDigit (ds ++ '.' :: fs) = none := by
    rw [joinedDigits?, List.splitOn_eq_singleton hline]
    simp
  rw [wholeDigits?, hjoined]
  rfl

/-! ## Words without letters -/

/-- The part of a number behind its sign: digits, with a point among them or without. -/
def IsBody (body : List Char) : Prop :=
  (∀ c ∈ body, c.isDigit = true ∨ c = '.') ∧ ∃ c cs, body = c :: cs ∧ c.isDigit = true

theorem isBody_digits {ds : List Char} (h : IsDigits ds) : IsBody ds := by
  refine ⟨fun c hc => .inl (h.2 c hc), ?_⟩
  cases ds with
  | nil => exact absurd rfl h.1
  | cons c cs => exact ⟨c, cs, rfl, h.2 c (List.mem_cons_self ..)⟩

theorem isBody_point {ds fs : List Char} (h : IsDigits ds) (hfs : ∀ c ∈ fs, c.isDigit = true) :
    IsBody (ds ++ '.' :: fs) := by
  obtain ⟨hdigits, c, cs, rfl, hc⟩ := isBody_digits h
  refine ⟨fun d hd => ?_, c, _, rfl, hc⟩
  rcases List.mem_append.mp hd with hd | hd
  · exact hdigits d hd
  · exact (List.mem_cons.mp hd).symm.imp_left (hfs d)

section Body

variable {body : List Char} (negative : Bool)

theorem IsBody.mem (h : IsBody body) {c : Char} (hc : c ∈ signText negative ++ body) :
    c.isDigit = true ∨ c = '.' ∨ c = '-' := by
  rcases List.mem_append.mp hc with hc | hc
  · cases negative with
    | true => exact .inr (.inr (List.mem_singleton.mp hc))
    | false => cases hc
  · exact (h.1 c hc).imp_right .inl

theorem IsBody.ne_of_isAlpha (h : IsBody body) {c d : Char} (hd : d.isAlpha = true)
    (hc : c ∈ signText negative ++ body) : c ≠ d := by
  rintro rfl
  rcases h.mem negative hc with hdigit | rfl | rfl
  · rw [isAlpha_of_isDigit hdigit] at hd
    cases hd
  all_goals cases hd

theorem IsBody.takeSign (h : IsBody body) :
    Decimal.takeSign (signText negative ++ body) = (negative, body) := by
  obtain ⟨-, c, cs, rfl, hc⟩ := h
  cases negative with
  | true => rfl
  | false =>
      change Decimal.takeSign (c :: cs) = _
      unfold Decimal.takeSign
      split
      next heq =>
        cases heq
        exact absurd hc (by decide)
      next heq =>
        cases heq
        exact absurd hc (by decide)
      next => rfl

theorem isDate_eq_false {cs : List Char} (h : '-' ∉ cs.tail) : isDate cs = false := by
  cases cs with
  | nil => rfl
  | cons c cs =>
      by_cases hc : c = '-'
      · subst hc
        have hsplit : ('-' :: cs).splitOn '-' = [[], cs] := by
          have hrest : cs.splitOn '-' = [cs] := List.splitOn_eq_singleton h
          rw [← hrest]
          exact List.splitOn_append_cons_self_of_not_mem List.not_mem_nil cs
        rw [isDate, hsplit]
      · have hsplit : (c :: cs).splitOn '-' = [c :: cs] := by
          apply List.splitOn_eq_singleton
          intro hmem
          rcases List.mem_cons.mp hmem with heq | hmem
          · exact hc heq.symm
          · exact h hmem
        rw [isDate, hsplit]

theorem isTime_eq_false {cs : List Char} (h : ':' ∉ cs) : isTime cs = false := by
  rw [isTime, List.splitOn_eq_singleton h]

/-- A number is no date: a date has two dashes, and a time has two colons. -/
theorem IsBody.isDateTime (h : IsBody body) : isDateTime (signText negative ++ body) = false := by
  have hcolon : ':' ∉ signText negative ++ body := by
    intro hmem
    rcases h.mem negative hmem with hdigit | hpoint | hdash
    · exact absurd hdigit (by decide)
    · exact absurd hpoint (by decide)
    · exact absurd hdash (by decide)
  have hbody : '-' ∉ body := by
    intro hmem
    rcases h.1 '-' hmem with hdigit | hpoint
    · exact absurd hdigit (by decide)
    · exact absurd hpoint (by decide)
  have hdash : '-' ∉ (signText negative ++ body).tail := by
    cases negative with
    | true => exact hbody
    | false => exact fun hmem => hbody (List.mem_of_mem_tail hmem)
  have hfront : '-' ∉ ((signText negative ++ body).take 10).tail := by
    rw [← List.drop_one, List.drop_take, List.drop_one]
    exact fun hmem => hdash (List.mem_of_mem_take hmem)
  rw [Toml.isDateTime, isDate_eq_false hdash, isTime_eq_false hcolon, isDate_eq_false hfront]
  rfl

theorem IsBody.word? (h : IsBody body) :
    Toml.word? (signText negative ++ body) =
      (integer? (signText negative ++ body)).or (float? (signText negative ++ body)) := by
  have htrue : signText negative ++ body ≠ "true".toList := fun heq =>
    h.ne_of_isAlpha negative (c := 't') rfl (heq ▸ List.mem_cons_self ..) rfl
  have hfalse : signText negative ++ body ≠ "false".toList := fun heq =>
    h.ne_of_isAlpha negative (c := 'f') rfl (heq ▸ List.mem_cons_self ..) rfl
  rw [Toml.word?, if_neg htrue, if_neg hfalse, h.isDateTime negative]
  rfl

theorem IsBody.integer? (h : IsBody body) :
    Toml.integer? (signText negative ++ body) =
      (wholeDigits? body).bind fun ds =>
        boundedInteger? (if negative then -(digitsValue ds : Int) else digitsValue ds) := by
  have hsecond {c : Char} {rest : List Char} (hc : c.isAlpha = true)
      (heq : signText negative ++ body = '0' :: c :: rest) : False := by
    refine h.ne_of_isAlpha negative (c := c) hc ?_ rfl
    rw [heq]
    exact List.mem_cons_of_mem _ (List.mem_cons_self ..)
  unfold Toml.integer?
  split
  next heq => exact (hsecond rfl heq).elim
  next heq => exact (hsecond rfl heq).elim
  next heq => exact (hsecond rfl heq).elim
  next =>
    rw [h.takeSign negative]
    rfl

theorem IsBody.float? (h : IsBody body) :
    Toml.float? (signText negative ++ body) = finiteFloat? (signText negative ++ body) := by
  have hname {c : Char} {cs : List Char} (hc : c.isAlpha = true) : body ≠ c :: cs := by
    intro heq
    refine h.ne_of_isAlpha negative (c := c) hc ?_ rfl
    rw [heq]
    exact List.mem_append_right _ (List.mem_cons_self ..)
  have hinf : body ≠ "inf".toList := hname (c := 'i') rfl
  have hnan : body ≠ "nan".toList := hname (c := 'n') rfl
  rw [Toml.float?, h.takeSign negative]
  dsimp only
  rw [if_neg hinf, if_neg hnan]

end Body

/-! ## Scalars -/

/-- An integer that fits is read back as itself. -/
theorem word?_integer {n : Int} (h : fitsSigned64 n = true) :
    word? (signText (n < 0) ++ digits n.natAbs) = some (.integer n) := by
  have hbody := isBody_digits (isDigits_digits n.natAbs)
  have hback : (if decide (n < 0) = true then -(n.natAbs : Int) else n.natAbs) = n := by
    split
    next hneg =>
      have := of_decide_eq_true hneg
      omega
    next hneg =>
      have := of_decide_eq_false (Bool.eq_false_iff.mpr hneg)
      omega
  rw [hbody.word?, hbody.integer?, wholeDigits?_of_isWhole (isWhole_digits n.natAbs),
    Option.bind_some, digitsValue_digits, hback, boundedInteger?, if_pos h]
  rfl

theorem finiteFloat?_point (negative : Bool) {whole fraction : List Char} (hwhole : IsWhole whole)
    (hfraction : IsDigits fraction)
    (h : (Decimal.ofDigits negative whole fraction 0).magnitude < Binary64.infinity) :
    finiteFloat? (signText negative ++ (whole ++ '.' :: fraction)) =
      some (.float (Decimal.ofDigits negative whole fraction 0).toFloat) := by
  have hbody := isBody_point hwhole.1 hfraction.2
  have hletter : ∀ c ∈ whole ++ '.' :: fraction,
      (!(decide (c = 'e') || decide (c = 'E'))) = true := by
    intro c hc
    have hlower : c ≠ 'e' := hbody.ne_of_isAlpha false rfl hc
    have hupper : c ≠ 'E' := hbody.ne_of_isAlpha false rfl hc
    simp [hlower, hupper]
  have hmantissa := List.takeWhile_eq_self_iff.mpr hletter
  have hexponent := List.dropWhile_eq_nil_iff.mpr hletter
  have hmark : (whole ++ '.' :: fraction).any
      (fun c => (decide (c = 'e') || decide (c = 'E')) || decide (c = '.')) = true :=
    List.any_eq_true.mpr ⟨'.', List.mem_append_right _ (List.mem_cons_self ..), rfl⟩
  have hdigits : ∀ c ∈ whole, decide (c ≠ '.') = true := by
    intro c hc
    refine decide_eq_true ?_
    rintro rfl
    exact absurd (hwhole.1.2 '.' hc) (by decide)
  have hstops : Stops (fun c => decide (c ≠ '.')) ('.' :: fraction) := by
    intro c hc
    obtain rfl := Option.some.inj hc
    rfl
  have hsmall : (!negative && decide (Binary64.infinity ≤
      (Decimal.ofDigits negative whole fraction 0).magnitude)) = false := by
    rw [decide_eq_false (Nat.not_le.mpr h), Bool.and_false]
  rw [finiteFloat?, hbody.takeSign negative]
  simp only [hmantissa, hexponent, hmark, takeWhile_append_of_stops hdigits hstops,
    dropWhile_append_of_stops hdigits hstops, wholeDigits?_of_isWhole hwhole,
    joinedDigits?_of_isDigits hfraction, Option.bind_eq_bind, Option.bind_some, hsmall,
    Bool.not_true, Bool.false_eq_true, if_false]

/-- A finite double is read back as itself. -/
theorem word?_float {x : Float} (hx : x.isFinite = true) :
    word? (floatText x) = some (.float x) := by
  have hstyle : ∀ e, toml.positional e = true := fun _ => rfl
  obtain ⟨whole, fraction, hwhole, hfraction, htext, hlt, hback⟩ :=
    exists_finiteText hstyle rfl hx
  have hbody := isBody_point hwhole.1 hfraction.2
  rw [floatText, if_pos hx, htext, hbody.word?, hbody.integer?,
    wholeDigits?_point hwhole.1 hfraction.2, hbody.float?,
    finiteFloat?_point _ hwhole hfraction hlt, hback]
  rfl

end Toolpath.Toml
