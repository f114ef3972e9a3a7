import Toolpath.Proofs.Motion.Words
import Toolpath.Proofs.Number.Numeral

/-! # The grammar of program lines

What a line says is a matter of three relations: between the line and its code,
where every comment is read as one space, between the code and its words, and
between the words and the command they give. Every line has exactly one code,
every code exactly one list of words, and every list of words exactly one
meaning, and these are the ones that the reader of lines finds.
-/

namespace Toolpath.Line

open Text

/-! ## Comments -/

/-- Whether a text is the comment that a line starts with when so much of the line follows. -/
inductive Comment : List Char → List Char → Prop
  | remark {body rest} : '\n' ∉ body → Stops (· ≠ '\n') rest → Comment (';' :: body) rest
  | aside {body rest} : ')' ∉ body → Comment ('(' :: (body ++ [')'])) rest
  | unclosed {body} : ')' ∉ body → Comment ('(' :: body) []

/-- The code of a line, in which each comment from left to right is one space. -/
inductive Strips : List Char → List Char → Prop
  | nil : Strips [] []
  | plain {c cs code} : c ≠ ';' → c ≠ '(' → Strips cs code → Strips (c :: cs) (c :: code)
  | comment {text rest code} : Comment text rest → Strips rest code →
      Strips (text ++ rest) (' ' :: code)

/-- A region in which every character but its last one is dropped. -/
theorem stripFrom_dropped_append {region : Region} {last : Char}
    (hdrop : ∀ c cs, c ≠ last → stripFrom region (c :: cs) = stripFrom region cs)
    {body : List Char} (hbody : last ∉ body) (rest : List Char) :
    stripFrom region (body ++ rest) = stripFrom region rest := by
  induction body with
  | nil => rfl
  | cons c cs ih =>
      obtain ⟨hc, hcs⟩ := not_or.mp (mt List.mem_cons.mpr hbody)
      rw [List.cons_append, hdrop c _ (Ne.symm hc)]
      exact ih hcs

theorem stripFrom_remark_append {body : List Char} (hbody : '\n' ∉ body) (rest : List Char) :
    stripFrom .remark (body ++ rest) = stripFrom .remark rest := by
  refine stripFrom_dropped_append (fun c cs hc => ?_) hbody rest
  rw [stripFrom, if_neg hc]

theorem stripFrom_aside_append {body : List Char} (hbody : ')' ∉ body) (rest : List Char) :
    stripFrom .aside (body ++ rest) = stripFrom .aside rest := by
  refine stripFrom_dropped_append (fun c cs hc => ?_) hbody rest
  rw [stripFrom, if_neg hc]

theorem stripComments_comment {text rest : List Char} (h : Comment text rest) :
    stripComments (text ++ rest) = ' ' :: stripComments rest := by
  cases h with
  | remark hbody hrest =>
      rename_i body
      change ' ' :: stripFrom .remark (body ++ rest) = _
      rw [stripFrom_remark_append hbody]
      cases rest with
      | nil => rfl
      | cons c cs =>
          have hc : c = '\n' := by simpa using hrest c rfl
          subst hc
          rfl
  | aside hbody =>
      rename_i body
      change ' ' :: stripFrom .aside (body ++ [')'] ++ rest) = _
      rw [List.append_assoc, stripFrom_aside_append hbody]
      rfl
  | unclosed hbody =>
      rename_i body
      change ' ' :: stripFrom .aside (body ++ []) = _
      rw [stripFrom_aside_append hbody]
      rfl

/-- A line that starts a comment has one to its end or to the end of the comment. -/
theorem exists_comment {c : Char} (hc : c = ';' ∨ c = '(') (cs : List Char) :
    ∃ text rest, c :: cs = text ++ rest ∧ rest.length ≤ cs.length ∧ Comment text rest := by
  rcases hc with rfl | rfl
  · have hsplit := List.takeWhile_append_dropWhile (p := (· ≠ '\n')) (l := cs)
    refine ⟨';' :: cs.takeWhile (· ≠ '\n'), cs.dropWhile (· ≠ '\n'), ?_, ?_, ?_⟩
    · rw [List.cons_append, hsplit]
    · exact (List.dropWhile_sublist _).length_le
    · refine .remark ?_ (stops_dropWhile _ cs)
      intro hmem
      simpa using List.mem_takeWhile_imp hmem
  · have hsplit := List.takeWhile_append_dropWhile (p := (· ≠ ')')) (l := cs)
    have hbody : ')' ∉ cs.takeWhile (· ≠ ')') := by
      intro hmem
      simpa using List.mem_takeWhile_imp hmem
    have hlength := (List.dropWhile_sublist (· ≠ ')') (l := cs)).length_le
    have hstops := stops_dropWhile (· ≠ ')') cs
    generalize cs.takeWhile (· ≠ ')') = body at hsplit hbody
    cases hrest : cs.dropWhile (· ≠ ')') with
    | nil =>
        rw [hrest, List.append_nil] at hsplit
        subst hsplit
        exact ⟨'(' :: body, [], (List.append_nil _).symm, Nat.zero_le _, .unclosed hbody⟩
    | cons close rest =>
        rw [hrest] at hsplit hlength hstops
        have hclose : close = ')' := by simpa using hstops close rfl
        subst hclose hsplit
        refine ⟨'(' :: (body ++ [')']), rest, ?_, Nat.le_of_succ_le hlength, .aside hbody⟩
        simp

theorem strips_stripComments (cs : List Char) : Strips cs (stripComments cs) := by
  -- A comment takes many characters at once, hence the induction on the length.
  induction hn : cs.length using Nat.strongRecOn generalizing cs with
  | ind n ih =>
      subst hn
      cases cs with
      | nil => exact .nil
      | cons c cs =>
          by_cases hc : c = ';' ∨ c = '('
          · obtain ⟨text, rest, hsplit, hlength, hcomment⟩ := exists_comment hc cs
            rw [hsplit, stripComments_comment hcomment]
            exact .comment hcomment (ih _ (Nat.lt_succ_of_le hlength) rest rfl)
          · obtain ⟨hremark, haside⟩ := not_or.mp hc
            have hcode : stripComments (c :: cs) = c :: stripComments cs := by
              rw [stripComments, stripFrom, if_neg hremark, if_neg haside]
              rfl
            rw [hcode]
            exact .plain hremark haside (ih _ (Nat.lt_succ_self _) cs rfl)

/-- Every line has one code, the one that the reader finds. -/
theorem strips_iff {cs code : List Char} : Strips cs code ↔ stripComments cs = code := by
  constructor
  · intro h
    induction h with
    | nil => rfl
    | plain hremark haside _ ih =>
        rw [stripComments, stripFrom, if_neg hremark, if_neg haside]
        exact congrArg _ ih
    | comment hcomment _ ih => rw [stripComments_comment hcomment, ih]
  · rintro rfl
    exact strips_stripComments cs

example : stripComments "G1 (a;b) X2;c".toList = "G1   X2 ".toList := by decide

/-! ## Words -/

/-- The words of a code: every letter starts one, which goes on as long as there are neither
letters nor blanks. -/
inductive Splits : List Char → List Word → Prop
  | nil : Splits [] []
  | skip {c cs ws} : c.isAlpha = false → Splits cs ws → Splits (c :: cs) ws
  | word {c suffix rest ws} : c.isAlpha = true → (∀ s ∈ suffix, isSuffix s = true) →
      Stops isSuffix rest → Splits rest ws →
      Splits (c :: (suffix ++ rest)) (⟨c.toUpper, suffix⟩ :: ws)

theorem isAlpha_of_isSuffix {c : Char} (h : isSuffix c = true) : c.isAlpha = false := by
  simp only [isSuffix, Bool.and_eq_true, Bool.not_eq_true'] at h
  exact h.1

/-- No word starts inside a suffix. -/
theorem words_append {suffix : List Char} (hsuffix : ∀ c ∈ suffix, isSuffix c = true)
    (rest : List Char) : words (suffix ++ rest) = words rest := by
  induction suffix with
  | nil => rfl
  | cons c cs ih =>
      obtain ⟨hc, hcs⟩ := List.forall_mem_cons.mp hsuffix
      rw [List.cons_append, words, if_neg (by simp [isAlpha_of_isSuffix hc])]
      exact ih hcs

theorem words_word {c : Char} {suffix rest : List Char} (hc : c.isAlpha = true)
    (hsuffix : ∀ s ∈ suffix, isSuffix s = true) (hrest : Stops isSuffix rest) :
    words (c :: (suffix ++ rest)) = ⟨c.toUpper, suffix⟩ :: words rest := by
  rw [words, if_pos hc, takeWhile_append_of_stops hsuffix hrest, words_append hsuffix]

theorem splits_words (cs : List Char) : Splits cs (words cs) := by
  induction hn : cs.length using Nat.strongRecOn generalizing cs with
  | ind n ih =>
      subst hn
      cases cs with
      | nil => exact .nil
      | cons c cs =>
          cases hc : c.isAlpha with
          | false =>
              rw [words, if_neg (by simp [hc])]
              exact .skip hc (ih _ (Nat.lt_succ_self _) cs rfl)
          | true =>
              have hsuffix : ∀ s ∈ cs.takeWhile isSuffix, isSuffix s = true :=
                fun s hs => List.mem_takeWhile_imp hs
              have hlength := (List.dropWhile_sublist isSuffix (l := cs)).length_le
              have hrest := ih _ (Nat.lt_succ_of_le hlength) _ rfl
              have hword := Splits.word hc hsuffix (stops_dropWhile _ cs) hrest
              -- The word found is the first one of the text put together again.
              rw [← words_word hc hsuffix (stops_dropWhile _ cs),
                List.takeWhile_append_dropWhile] at hword
              exact hword

/-- Every code has one list of words, the one that the reader finds. -/
theorem splits_iff {code : List Char} {ws : List Word} : Splits code ws ↔ words code = ws := by
  constructor
  · intro h
    induction h with
    | nil => rfl
    | skip hc _ ih => rw [words, if_neg (by simp [hc]), ih]
    | word hc hsuffix hrest _ ih => rw [words_word hc hsuffix hrest, ih]
  · rintro rfl
    exact splits_words code

example : words "G1X1e5".toList = [⟨'G', ['1']⟩, ⟨'X', ['1']⟩, ⟨'E', ['5']⟩] := by decide

/-- What stands behind the letter of a word is a suffix. -/
theorem isSuffix_of_mem_words {code : List Char} {word : Word} (h : word ∈ words code) :
    ∀ c ∈ word.suffix, isSuffix c = true := by
  have hsplits := splits_words code
  generalize words code = ws at h hsplits
  induction hsplits with
  | nil => cases h
  | skip _ _ ih => exact ih h
  | word _ hsuffix _ _ ih =>
      rcases List.mem_cons.mp h with rfl | hrest
      · exact hsuffix
      · exact ih hrest

/-! ## Commands -/

/-- The motion codes. -/
inductive Codes : Word → MotionKind → Prop
  | rapid : Codes ⟨'G', ['0']⟩ .rapid
  | rapidPadded : Codes ⟨'G', ['0', '0']⟩ .rapid
  | linear : Codes ⟨'G', ['1']⟩ .linear
  | linearPadded : Codes ⟨'G', ['0', '1']⟩ .linear

/-- Whether a word carries a finite number. -/
def Carries (word : Word) (x : Float) : Prop :=
  (∃ d, Numeral word.suffix d ∧ d.toFloat = x) ∧ x.isFinite = true

/-- The value that words give for an axis: the one of the last word that has the letter of the axis
and carries a finite number. -/
def LastValue (axis : Axis) (ws : List Word) : Option Float → Prop
  | none => ∀ word ∈ ws, word.letter = axis.letter → ∀ x, ¬Carries word x
  | some x => ∃ front word back, ws = front ++ word :: back ∧ word.letter = axis.letter ∧
      Carries word x ∧ ∀ later ∈ back, later.letter = axis.letter → ∀ y, ¬Carries later y

open Classical in
/-- How many words have the letter of an axis but carry no finite number. -/
noncomputable def miswritten (ws : List Word) : Nat :=
  ws.countP fun word => (∃ axis : Axis, word.letter = axis.letter) ∧ ∀ x, ¬Carries word x

/-- What the words of a line mean, and the counters behind the line. -/
inductive Means (counts : Counts) : List Word → Option MotionCommand → Counts → Prop
  | motion {first rest kind words} : Codes first kind →
      (∀ axis, LastValue axis rest (words.get? axis)) →
      Means counts (first :: rest) (some ⟨kind, words⟩)
        { counts with
          motion := counts.motion + 1
          malformed := counts.malformed + miswritten rest }
  | other {ws} : (∀ first ∈ ws.head?, ∀ kind, ¬Codes first kind) →
      Means counts ws none { counts with ignored := counts.ignored + 1 }

theorem Word.motion?_eq_some_iff {word : Word} {kind : MotionKind} :
    word.motion? = some kind ↔ Codes word kind := by
  constructor
  · intro h
    obtain ⟨letter, suffix⟩ := word
    simp only [motion?] at h
    split at h
    · cases h
    next hletter =>
      obtain rfl := of_not_not hletter
      split at h
      next hrapid =>
        obtain rfl := Option.some.inj h
        rcases hrapid with rfl | rfl
        · exact .rapid
        · exact .rapidPadded
      next =>
        split at h
        next hlinear =>
          obtain rfl := Option.some.inj h
          rcases hlinear with rfl | rfl
          · exact .linear
          · exact .linearPadded
        next => cases h
  · rintro ⟨⟩ <;> rfl

theorem Word.axis?_eq_some_iff {word : Word} {axis : Axis} :
    word.axis? = some axis ↔ word.letter = axis.letter := by
  constructor
  · intro h
    unfold axis? Axis.ofLetter? at h
    split at h <;> cases h <;> assumption
  · intro h
    rw [axis?, h, Axis.ofLetter?_letter]

variable {word : Word} {ws : List Word} {axis : Axis}

theorem Word.value?_eq_some_iff (hword : ∀ c ∈ word.suffix, isSuffix c = true) {x : Float} :
    word.value? = some x ↔ Carries word x := by
  have hletterless : ∀ c ∈ word.suffix, c.isAlpha = false :=
    fun c hc => isAlpha_of_isSuffix (hword c hc)
  rw [value?, Option.filter_eq_some_iff, Number.read?_eq_some_iff hletterless]
  rfl

theorem Word.value?_eq_none_iff (hword : ∀ c ∈ word.suffix, isSuffix c = true) :
    word.value? = none ↔ ∀ x, ¬Carries word x := by
  simp only [← Word.value?_eq_some_iff hword]
  exact Option.eq_none_iff_forall_ne_some

theorem Word.valueFor_eq_some_iff (hword : ∀ c ∈ word.suffix, isSuffix c = true) {x : Float} :
    word.valueFor axis = some x ↔ word.letter = axis.letter ∧ Carries word x := by
  rw [valueFor, ← axis?_eq_some_iff, ← value?_eq_some_iff hword]
  split <;> simp [*]

theorem Word.valueFor_eq_none_iff (hword : ∀ c ∈ word.suffix, isSuffix c = true) :
    word.valueFor axis = none ↔ (word.letter = axis.letter → ∀ x, ¬Carries word x) := by
  rw [valueFor, ← axis?_eq_some_iff, ← value?_eq_none_iff hword]
  split <;> simp [*]

/-- A word is malformed if it has the letter of an axis and carries no finite number. -/
theorem Word.isMalformed_iff (hword : ∀ c ∈ word.suffix, isSuffix c = true) :
    word.isMalformed = true ↔
      (∃ axis : Axis, word.letter = axis.letter) ∧ ∀ x, ¬Carries word x := by
  rw [isMalformed, Bool.and_eq_true, Option.isSome_iff_exists, Option.isNone_iff_eq_none,
    value?_eq_none_iff hword]
  simp only [axis?_eq_some_iff]

section Suffixes

variable (hws : ∀ word ∈ ws, ∀ c ∈ word.suffix, isSuffix c = true)

include hws

/-- The last value recorded for an axis is the one that the words give. -/
theorem lastValue_iff {value : Option Float} :
    LastValue axis ws value ↔ (ws.filterMap (Word.valueFor axis)).getLast? = value := by
  -- The last value is the first one from behind.
  rw [List.getLast?_filterMap]
  cases value with
  | none =>
      rw [List.findSome?_eq_none_iff]
      simp only [List.mem_reverse]
      refine forall₂_congr fun word hword => ?_
      rw [Word.valueFor_eq_none_iff (hws word hword)]
  | some x =>
      rw [List.findSome?_eq_some_iff]
      constructor
      · rintro ⟨front, word, back, rfl, hletter, hcarries, hback⟩
        refine ⟨back.reverse, word, front.reverse, by simp, ?_, ?_⟩
        · exact (Word.valueFor_eq_some_iff (hws word (by simp))).mpr ⟨hletter, hcarries⟩
        · intro later hlater
          rw [List.mem_reverse] at hlater
          exact (Word.valueFor_eq_none_iff (hws later (by simp [hlater]))).mpr (hback later hlater)
      · rintro ⟨back, word, front, hsplit, hvalue, hback⟩
        have hsplit : ws = front.reverse ++ word :: back.reverse := by
          rw [← ws.reverse_reverse, hsplit]
          simp
        subst hsplit
        obtain ⟨hletter, hcarries⟩ := (Word.valueFor_eq_some_iff (hws word (by simp))).mp hvalue
        refine ⟨front.reverse, word, back.reverse, rfl, hletter, hcarries, ?_⟩
        intro later hlater
        have hlater := List.mem_reverse.mp hlater
        have hnone := hback later hlater
        exact (Word.valueFor_eq_none_iff (hws later (by simp [hlater]))).mp hnone

theorem countP_isMalformed : ws.countP Word.isMalformed = miswritten ws := by
  classical
  refine List.countP_congr fun word hword => ?_
  rw [Word.isMalformed_iff (hws word hword)]
  exact decide_eq_true_iff.symm

end Suffixes

theorem ext_get? {first second : AxisWords} (h : ∀ axis, first.get? axis = second.get? axis) :
    first = second := by
  obtain ⟨x, y, z, e, f⟩ := first
  obtain ⟨x', y', z', e', f'⟩ := second
  obtain rfl : x = x' := h .x
  obtain rfl : y = y' := h .y
  obtain rfl : z = z' := h .z
  obtain rfl : e = e' := h .e
  obtain rfl : f = f' := h .f
  rfl

/-- Words mean what the reader takes them to mean. -/
theorem means_iff (hws : ∀ word ∈ ws, ∀ c ∈ word.suffix, isSuffix c = true) {counts after : Counts}
    {result : Option MotionCommand} :
    Means counts ws result after ↔
      (match readWords ws with
        | .motion command _ => some command
        | .other => none) = result ∧ counts.add (readWords ws) = after := by
  constructor
  · rintro (⟨hcode, hvalues⟩ | hother)
    · rename_i first rest kind words
      have hrest : ∀ word ∈ rest, ∀ c ∈ word.suffix, isSuffix c = true :=
        fun word hword => hws word (List.mem_cons_of_mem _ hword)
      have hrecorded : rest.foldl Word.record {} = words := by
        refine ext_get? fun axis => ?_
        rw [get?_foldl_record_empty]
        exact (lastValue_iff hrest).mp (hvalues axis)
      simp only [readWords, Word.motion?_eq_some_iff.mpr hcode, hrecorded,
        countP_isMalformed hrest, Counts.add, and_self]
    · cases ws with
      | nil => exact ⟨rfl, rfl⟩
      | cons first rest =>
          have hnone : first.motion? = none := by
            rw [Option.eq_none_iff_forall_ne_some]
            intro kind hkind
            exact hother first rfl kind (Word.motion?_eq_some_iff.mp hkind)
          simp only [readWords, hnone, Counts.add, and_self]
  · rintro ⟨rfl, rfl⟩
    cases ws with
    | nil => exact .other (by simp)
    | cons first rest =>
        have hrest : ∀ word ∈ rest, ∀ c ∈ word.suffix, isSuffix c = true :=
          fun word hword => hws word (List.mem_cons_of_mem _ hword)
        cases hkind : first.motion? with
        | none =>
            simp only [readWords, hkind]
            refine .other fun word hword kind hcode => ?_
            obtain rfl := Option.some.inj hword
            rw [Word.motion?_eq_some_iff.mpr hcode] at hkind
            cases hkind
        | some kind =>
            simp only [readWords, hkind, Counts.add, countP_isMalformed hrest]
            refine .motion (Word.motion?_eq_some_iff.mp hkind) fun axis => ?_
            rw [lastValue_iff hrest, get?_foldl_record_empty]

/-- The reader of lines accepts the grammar and nothing else: it has a result for a line and leaves
counters behind it exactly if these are what the words of the code of the line mean. -/
theorem read_iff_means (counts after : Counts) (cs : List Char) (result : Option MotionCommand) :
    (command? cs = result ∧ counts.add (read cs) = after) ↔
      ∃ code ws, Strips cs code ∧ Splits code ws ∧ Means counts ws result after := by
  have hsuffixes : ∀ word ∈ words (stripComments cs), ∀ c ∈ word.suffix, isSuffix c = true :=
    fun _ hword => isSuffix_of_mem_words hword
  constructor
  · intro h
    exact ⟨_, _, strips_iff.mpr rfl, splits_iff.mpr rfl, (means_iff hsuffixes).mpr h⟩
  · rintro ⟨code, ws, hstrips, hsplits, hmeans⟩
    obtain rfl := strips_iff.mp hstrips
    obtain rfl := splits_iff.mp hsplits
    exact (means_iff hsuffixes).mp hmeans

end Toolpath.Line
