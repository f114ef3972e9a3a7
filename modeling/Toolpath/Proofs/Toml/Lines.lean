import Toolpath.Proofs.Toml.Strings
import Toolpath.Proofs.Toml.Words
import Toolpath.Toml.Reader

/-! # Written TOML lines

The header of a table and a key with a scalar are written on a line each, and
the reader of statements takes each line as the one statement that it is, with
whatever text behind it.
-/

namespace Toolpath.Toml

open Text Number

/-! ## Values -/

/-- Whether a text at the end of a line is read as data, whatever follows. -/
def IsScalar (text : List Char) (d : Data) : Prop :=
  ∀ count depth rest,
    value count depth (skipBlanks (text ++ '\n' :: rest)) = some (d, '\n' :: rest)

theorem value_eq_scalar {c : Char} (hbracket : c ≠ '[') (hbrace : c ≠ '{') (count depth : Nat)
    (cs : List Char) : value count depth (c :: cs) = value.scalar (c :: cs) := by
  cases depth with
  | zero => rfl
  | succ depth =>
      rw [value]
      · exact fun rest heq => hbracket (List.cons.inj heq).1
      · exact fun rest heq => hbrace (List.cons.inj heq).1

theorem skipBlanks_cons {c : Char} (h : isBlank c = false) (cs : List Char) :
    skipBlanks (c :: cs) = c :: cs :=
  List.dropWhile_cons_of_neg (by simp [h])

theorem exists_quote_cons (s : String) :
    ∃ mark cs, (mark = '"' ∨ mark = '\'') ∧ quote s = mark :: cs := by
  rw [quote]
  generalize StringForm.choose s.toList = form
  obtain ⟨escapes, multiline⟩ := form
  cases escapes <;> cases multiline
  · exact ⟨_, _, .inr rfl, rfl⟩
  · exact ⟨_, _, .inr rfl, rfl⟩
  · exact ⟨_, _, .inl rfl, rfl⟩
  · exact ⟨_, _, .inl rfl, rfl⟩

theorem isScalar_quote (s : String) : IsScalar (quote s) (.text s) := by
  intro count depth rest
  have hquoteless : Quoteless ('\n' :: rest) := by
    constructor <;> intro c hc <;> cases hc <;> rfl
  have hread := string?_quote s hquoteless
  obtain ⟨mark, cs, hmark, htext⟩ := exists_quote_cons s
  rw [htext, List.cons_append] at hread
  have hscalar : value.scalar (mark :: (cs ++ '\n' :: rest)) = some (.text s, '\n' :: rest) := by
    unfold value.scalar
    rcases hmark with rfl | rfl
    · simp only [hread, Option.map_some, String.ofList_toList]
    · simp only [hread, Option.map_some, String.ofList_toList]
  rw [htext, List.cons_append]
  rcases hmark with rfl | rfl
  · rw [skipBlanks_cons rfl, value_eq_scalar (by decide) (by decide), hscalar]
  · rw [skipBlanks_cons rfl, value_eq_scalar (by decide) (by decide), hscalar]

theorem isScalar_word {word : List Char} {d : Data} (hchars : ∀ c ∈ word, isWordChar c = true)
    (hne : word ≠ []) (hword : word? word = some d) : IsScalar word d := by
  intro count depth rest
  have hstops : Stops isWordChar ('\n' :: rest) := by
    intro c hc
    cases hc
    rfl
  have hspan : spanWord (word ++ '\n' :: rest) = (word, '\n' :: rest) := by
    rw [spanWord]
    simp only [takeWhile_append_of_stops hchars hstops, dropWhile_append_of_stops hchars hstops]
    rfl
  cases word with
  | nil => exact absurd rfl hne
  | cons c cs =>
      have hc := hchars c (List.mem_cons_self ..)
      have hother {d : Char} (hd : isWordChar d = false) : c ≠ d := by
        rintro rfl
        rw [hd] at hc
        cases hc
      have hblank : isBlank c = false := by
        rw [isBlank, decide_eq_false (hother (d := ' ') rfl),
          decide_eq_false (hother (d := '\t') rfl)]
        rfl
      rw [List.cons_append, skipBlanks_cons hblank, value_eq_scalar (hother rfl) (hother rfl)]
      rw [List.cons_append] at hspan
      unfold value.scalar
      split
      next heq => exact absurd (List.cons.inj heq).1 (hother rfl)
      next heq => exact absurd (List.cons.inj heq).1 (hother rfl)
      next =>
        simp only [hspan, hword, Option.map_some]

theorem isWordChar_of_isBody {body : List Char} (negative : Bool) (h : IsBody body) :
    ∀ c ∈ signText negative ++ body, isWordChar c = true := by
  intro c hc
  rcases h.mem negative hc with hdigit | rfl | rfl
  · simp [isWordChar, Char.isAlphanum, hdigit]
  · rfl
  · rfl

theorem isScalar_bool (b : Bool) :
    IsScalar (if b then "true".toList else "false".toList) (.bool b) := by
  cases b with
  | true =>
      have hchars : ∀ c ∈ "true".toList, isWordChar c = true := List.all_eq_true.mp rfl
      exact isScalar_word hchars (by decide) rfl
  | false =>
      have hchars : ∀ c ∈ "false".toList, isWordChar c = true := List.all_eq_true.mp rfl
      exact isScalar_word hchars (by decide) rfl

theorem isScalar_integer {n : Int} (h : fitsSigned64 n = true) :
    IsScalar (signText (n < 0) ++ digits n.natAbs) (.integer n) := by
  have hdigits := isDigits_digits n.natAbs
  refine isScalar_word (isWordChar_of_isBody _ (isBody_digits hdigits)) ?_ (word?_integer h)
  exact fun hnil => hdigits.1 (List.append_eq_nil_iff.mp hnil).2

theorem isScalar_float {x : Float} (hx : x.isFinite = true) :
    IsScalar (floatText x) (.float x) := by
  have hstyle : ∀ e, toml.positional e = true := fun _ => rfl
  obtain ⟨whole, fraction, hwhole, hfraction, htext, -⟩ := exists_finiteText hstyle rfl hx
  have hword := word?_float hx
  rw [floatText, if_pos hx, htext] at hword ⊢
  refine isScalar_word (isWordChar_of_isBody _ (isBody_point hwhole.1 hfraction.2)) ?_ hword
  exact fun hnil => hwhole.1.1 (List.append_eq_nil_iff.mp (List.append_eq_nil_iff.mp hnil).2).1

/-- What is written for a scalar is read as it. -/
theorem isScalar_of_scalarText? {d : Data} (hfinite : ∀ x, d = .float x → x.isFinite = true)
    {text : List Char} (h : scalarText? d = some text) : IsScalar text d := by
  cases d with
  | bool b =>
      have hbool := isScalar_bool b
      cases b <;> cases h <;> exact hbool
  | integer n =>
      rw [scalarText?] at h
      split at h
      next hfits =>
        obtain rfl := Option.some.inj h
        have htext : signText (n < 0) = if n < 0 then ['-'] else [] := by simp [signText]
        exact htext ▸ isScalar_integer hfits
      next => cases h
  | float x =>
      obtain rfl := Option.some.inj h
      exact isScalar_float (hfinite x rfl)
  | text s =>
      obtain rfl := Option.some.inj h
      exact isScalar_quote s
  | null => cases h
  | void => cases h
  | list items => cases h
  | record members => cases h

/-! ## Keys -/

/-- Whether a key can stand without quotes. -/
def IsBareKey (name : String) : Prop :=
  name.toList ≠ [] ∧ name.toList.all isKeyChar = true

instance : DecidablePred IsBareKey :=
  fun name => inferInstanceAs (Decidable (name.toList ≠ [] ∧ name.toList.all isKeyChar = true))

theorem IsBareKey.exists_cons {name : String} (h : IsBareKey name) :
    ∃ c cs, name.toList = c :: cs ∧ isKeyChar c = true := by
  obtain ⟨hne, hall⟩ := h
  have hchars := List.all_eq_true.mp hall
  cases hname : name.toList with
  | nil => exact absurd hname hne
  | cons c cs => exact ⟨c, cs, rfl, hchars c (hname ▸ List.mem_cons_self ..)⟩

theorem ne_of_isKeyChar {c d : Char} (hc : isKeyChar c = true) (hd : isKeyChar d = false) :
    c ≠ d := by
  rintro rfl
  rw [hd] at hc
  cases hc

theorem isBlank_of_isKeyChar {c : Char} (hc : isKeyChar c = true) : isBlank c = false := by
  rw [isBlank, decide_eq_false (ne_of_isKeyChar (d := ' ') hc rfl),
    decide_eq_false (ne_of_isKeyChar (d := '\t') hc rfl)]
  rfl

theorem simpleKey?_bare {name : String} (h : IsBareKey name) {rest : List Char}
    (hrest : Stops isKeyChar rest) : simpleKey? (name.toList ++ rest) = some (name, rest) := by
  have hchars := List.all_eq_true.mp h.2
  have htake := takeWhile_append_of_stops hchars hrest
  have hdrop := dropWhile_append_of_stops hchars hrest
  obtain ⟨c, cs, hname, hc⟩ := h.exists_cons
  rw [hname, List.cons_append] at htake hdrop ⊢
  unfold simpleKey?
  split
  next heq => exact absurd (List.cons.inj heq).1 (ne_of_isKeyChar hc rfl)
  next heq => exact absurd (List.cons.inj heq).1 (ne_of_isKeyChar hc rfl)
  next =>
    rw [htake, hdrop, ← hname]
    simp only [if_neg h.1, String.ofList_toList]

/-- A bare key that no point follows is read as the last part of an empty path. -/
theorem key?_bare {name : String} (h : IsBareKey name) {rest : List Char}
    (hrest : Stops isKeyChar rest) (hpoint : (skipBlanks rest).head? ≠ some '.') :
    key? (name.toList ++ rest) = some (([], name), skipBlanks rest) := by
  have hskip : skipBlanks (name.toList ++ rest) = name.toList ++ rest := by
    obtain ⟨c, cs, hname, hc⟩ := h.exists_cons
    rw [hname, List.cons_append, skipBlanks_cons (isBlank_of_isKeyChar hc)]
  have hparts : keyParts? (depthLimit - 1) (name.toList ++ rest) =
      some ([name], skipBlanks rest) := by
    obtain ⟨depth, hdepth⟩ : ∃ depth, depthLimit - 1 = depth + 1 := ⟨_, rfl⟩
    rw [hdepth, keyParts?, hskip, simpleKey?_bare h hrest, Option.bind_eq_bind, Option.bind_some]
    dsimp only
    split
    next heq =>
      rw [heq] at hpoint
      exact absurd rfl hpoint
    next => rfl
  rw [key?, hparts]
  rfl

theorem assignment?_bare {name : String} (h : IsBareKey name) {text : List Char} {d : Data}
    (hscalar : IsScalar text d) (count depth : Nat) (rest : List Char) :
    assignment? (value count depth) (name.toList ++ (" = ".toList ++ (text ++ '\n' :: rest))) =
      some (([], name, d), '\n' :: rest) := by
  have hstops : Stops isKeyChar (" = ".toList ++ (text ++ '\n' :: rest)) := by
    intro c hc
    cases hc
    rfl
  have hskip : skipBlanks (" = ".toList ++ (text ++ '\n' :: rest)) =
      '=' :: ' ' :: (text ++ '\n' :: rest) := rfl
  have hvalue : skipBlanks (' ' :: (text ++ '\n' :: rest)) = skipBlanks (text ++ '\n' :: rest) :=
    rfl
  have hpoint : (skipBlanks (" = ".toList ++ (text ++ '\n' :: rest))).head? ≠ some '.' := by
    rw [hskip]
    exact fun heq => absurd (Option.some.inj heq) (by decide)
  have hkey := key?_bare h hstops hpoint
  rw [assignment?, hkey, hskip, Option.bind_eq_bind, Option.bind_some]
  simp only [hvalue, hscalar count depth rest, Option.bind_eq_bind, Option.bind_some]

theorem lineEnd?_newline (rest : List Char) : lineEnd? ('\n' :: rest) = some rest := by
  rfl

/-! ## Statements -/

theorem statement?_header {name : String} (h : IsBareKey name) {progress after : Progress}
    (hopen : progress.openTable? [] name = some after) (count : Nat) (rest : List Char) :
    statement? count progress ('[' :: (name.toList ++ ']' :: '\n' :: rest)) =
      some (after, rest) := by
  have hstops : Stops isKeyChar (']' :: '\n' :: rest) := by
    intro c hc
    cases hc
    rfl
  have hskip : skipBlanks (']' :: '\n' :: rest) = ']' :: '\n' :: rest := rfl
  have hpoint : (skipBlanks (']' :: '\n' :: rest)).head? ≠ some '.' := by
    rw [hskip]
    exact fun heq => absurd (Option.some.inj heq) (by decide)
  have hkey := key?_bare h hstops hpoint
  rw [hskip] at hkey
  unfold statement?
  split
  next heq =>
    obtain ⟨c, cs, hname, hc⟩ := h.exists_cons
    rw [hname] at heq
    exact absurd (List.cons.inj (List.cons.inj heq).2).1 (ne_of_isKeyChar hc rfl)
  next heq =>
    cases heq
    simp only [hkey, hopen, lineEnd?_newline, Option.bind_eq_bind, Option.bind_some]
  next hother => exact absurd rfl (hother _)

theorem statement?_line {name : String} (h : IsBareKey name) {text : List Char} {d : Data}
    (hscalar : IsScalar text d) {progress after : Progress}
    (hassign : progress.assign? [] name d = some after) (count : Nat) (rest : List Char) :
    statement? count progress (name.toList ++ (" = ".toList ++ (text ++ '\n' :: rest))) =
      some (after, rest) := by
  have hassignment := assignment?_bare h hscalar count (depthLimit - 1) rest
  obtain ⟨c, cs, hname, hc⟩ := h.exists_cons
  have hbracket : c ≠ '[' := ne_of_isKeyChar hc rfl
  rw [hname, List.cons_append] at hassignment ⊢
  unfold statement?
  split
  next heq => exact absurd (List.cons.inj heq).1 hbracket
  next heq => exact absurd (List.cons.inj heq).1 hbracket
  next =>
    simp only [hassignment, hassign, lineEnd?_newline, Option.bind_eq_bind, Option.bind_some]

/-- Whether a text takes the reader of statements from one progress to another, in at most as many
statements as it has characters. -/
def Takes (text : List Char) (before after : Progress) : Prop :=
  ∃ k ≤ text.length, ∀ count left rest,
    statements count (left + k) before (text ++ rest) = statements count left after rest

theorem takes_nil (progress : Progress) : Takes [] progress progress :=
  ⟨0, Nat.le_refl _, fun _ _ _ => rfl⟩

theorem Takes.append {first second : List Char} {before between after : Progress}
    (hfirst : Takes first before between) (hsecond : Takes second between after) :
    Takes (first ++ second) before after := by
  obtain ⟨k, hk, hfirst⟩ := hfirst
  obtain ⟨l, hl, hsecond⟩ := hsecond
  refine ⟨l + k, ?_, fun count left rest => ?_⟩
  · rw [List.length_append]
    omega
  · rw [List.append_assoc, ← Nat.add_assoc, hfirst, hsecond]

/-- One statement is taken at a time. -/
theorem takes_statement {text : List Char} {before after : Progress} (hne : text ≠ [])
    (hstatement : ∀ count rest, ∃ c cs, skipSpace false (text ++ rest) = some (c :: cs) ∧
      statement? count before (c :: cs) = some (after, rest)) : Takes text before after := by
  refine ⟨1, List.length_pos_iff.mpr hne, fun count left rest => ?_⟩
  obtain ⟨c, cs, hskip, hread⟩ := hstatement count rest
  rw [statements, hskip, Option.bind_eq_bind, Option.bind_some]
  dsimp only
  rw [hread]
  rfl

theorem skipSpace_cons {c : Char} (hline : c ≠ '\n') (hreturn : c ≠ '\r')
    (hblank : isBlank c = false) (hcomment : c ≠ '#') (cs : List Char) :
    skipSpace false (c :: cs) = some (c :: cs) := by
  rw [skipSpace, if_neg hline, decide_eq_false hreturn, hblank]
  simp [hcomment]

theorem takes_header {front : List Char} (hfront : front = [] ∨ front = ['\n']) {name : String}
    (h : IsBareKey name) {progress after : Progress}
    (hopen : progress.openTable? [] name = some after) :
    Takes (front ++ '[' :: name.toList ++ [']', '\n']) progress after := by
  refine takes_statement (by simp) fun count rest => ?_
  refine ⟨'[', name.toList ++ ']' :: '\n' :: rest, ?_, statement?_header h hopen count rest⟩
  have hskip : skipSpace false ('[' :: (name.toList ++ ']' :: '\n' :: rest)) = some _ :=
    skipSpace_cons (by decide) (by decide) rfl (by decide) _
  rw [← hskip]
  rcases hfront with rfl | rfl
  · simp
  · simp [skipSpace]

theorem takes_line {name : String} (h : IsBareKey name) {text : List Char} {d : Data}
    (hscalar : IsScalar text d) {progress after : Progress}
    (hassign : progress.assign? [] name d = some after) :
    Takes (name.toList ++ " = ".toList ++ text ++ ['\n']) progress after := by
  refine takes_statement (by simp) fun count rest => ?_
  have hread := statement?_line h hscalar hassign count rest
  obtain ⟨c, cs, hname, hc⟩ := h.exists_cons
  rw [hname, List.cons_append] at hread
  refine ⟨c, _, ?_, hread⟩
  rw [← skipSpace_cons (ne_of_isKeyChar hc rfl) (ne_of_isKeyChar hc rfl) (isBlank_of_isKeyChar hc)
    (ne_of_isKeyChar hc rfl), hname]
  simp

end Toolpath.Toml
