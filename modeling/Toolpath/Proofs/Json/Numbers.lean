import Mathlib.Data.List.Basic
import Toolpath.Json.Printer
import Toolpath.Json.Reader
import Toolpath.Proofs.Number.Layout

/-! # JSON numbers

What is written for an integer or for a finite double is a number, and the only
thing that is left open is which double the number is read as.
-/

namespace Toolpath.Json

open Text Number

/-- The number with a whole part and something behind it. -/
def numberFrom (negative : Bool) (whole : List Char) : List Char → Option Data
  | [] => some (wholeNumber negative whole)
  | '.' :: r =>
      let fraction := r.takeWhile Char.isDigit
      if fraction = [] then none
      else (Decimal.exponent? (r.dropWhile Char.isDigit)).map fun e =>
        floatData (scaled negative whole fraction e)
  | r => (Decimal.exponent? r).map fun e => floatData (scaled negative whole [] e)

theorem number?_signed (negative : Bool) {body : List Char}
    (h : negative = false → body.head? ≠ some '-') :
    number? (signText negative ++ body) =
      let whole := body.takeWhile Char.isDigit
      if whole = [] ∨ (1 < whole.length ∧ whole.head? = some '0') then none
      else numberFrom negative whole (body.dropWhile Char.isDigit) := by
  cases negative with
  | true => rfl
  | false =>
      cases body with
      | nil => rfl
      | cons first cs =>
          have hfirst : first ≠ '-' := fun heq => h rfl (congrArg some heq)
          change number? (first :: cs) = _
          unfold number?
          split
          next heq =>
            split at heq
            next hcons => exact absurd (List.cons.inj hcons).1 hfirst
            next =>
              cases heq
              rfl

variable {whole fraction : List Char}

/-- A number is told by what stands behind its whole part. -/
theorem number?_eq (negative : Bool) (hwhole : IsWhole whole) {tail : List Char}
    (htail : Stops Char.isDigit tail) :
    number? (signText negative ++ (whole ++ tail)) = numberFrom negative whole tail := by
  obtain ⟨hdigits, hlead⟩ := hwhole
  have hsign : (whole ++ tail).head? ≠ some '-' := by
    intro hhead
    cases whole with
    | nil => exact hdigits.1 rfl
    | cons first ds =>
        obtain rfl := Option.some.inj hhead
        exact absurd (hdigits.2 '-' (List.mem_cons_self ..)) (by decide)
  have hopen : ¬(whole = [] ∨ (1 < whole.length ∧ whole.head? = some '0')) := by
    rintro (hnil | hzero)
    · exact hdigits.1 hnil
    · exact hlead hzero
  rw [number?_signed negative fun _ => hsign]
  simp only [takeWhile_append_of_stops hdigits.2 htail, dropWhile_append_of_stops hdigits.2 htail,
    if_neg hopen]

theorem number?_pointed (negative : Bool) (hwhole : IsWhole whole) (hfraction : IsDigits fraction)
    {tail : List Char} (htail : Stops Char.isDigit tail) {e : Int}
    (he : Decimal.exponent? tail = some e) :
    number? (signText negative ++ (whole ++ '.' :: (fraction ++ tail))) =
      some (floatData (scaled negative whole fraction e)) := by
  rw [number?_eq negative hwhole (stops_isDigit_point _), numberFrom]
  simp only [takeWhile_append_of_stops hfraction.2 htail,
    dropWhile_append_of_stops hfraction.2 htail, if_neg hfraction.1, he, Option.map_some]

theorem number?_scientific (negative : Bool) (hwhole : IsWhole whole) {cs : List Char} {e : Int}
    (he : Decimal.exponent? ('e' :: cs) = some e) :
    number? (signText negative ++ (whole ++ 'e' :: cs)) =
      some (floatData (scaled negative whole [] e)) := by
  rw [number?_eq negative hwhole, numberFrom, he, Option.map_some]
  · simp
  · rintro r heq
    cases heq
  · intro c hc
    cases hc
    rfl

/-! ## The characters of a number -/

theorem isNumeric_of_isDigit {c : Char} (h : c.isDigit = true) : isNumeric c = true := by
  simp [isNumeric, h]

theorem isNumeric_of_integer? {cs : List Char} {n : Int} (h : Decimal.integer? cs = some n) :
    ∀ c ∈ cs, isNumeric c = true := by
  have hsplit : ∀ c ∈ cs, c ∈ (Decimal.takeSign cs).2 ∨ c = '-' ∨ c = '+' := by
    intro c hc
    unfold Decimal.takeSign
    split
    · exact (List.mem_cons.mp hc).symm.imp_right .inl
    · exact (List.mem_cons.mp hc).symm.imp_right .inr
    · exact .inl hc
  unfold Decimal.integer? at h
  dsimp only at h
  split at h
  next => cases h
  next hdigits =>
    rw [not_or, Bool.not_eq_true', Bool.not_eq_false, List.all_eq_true] at hdigits
    intro c hc
    rcases hsplit c hc with hc | rfl | rfl
    · exact isNumeric_of_isDigit (hdigits.2 c hc)
    · rfl
    · rfl

theorem isNumeric_of_exponent? {cs : List Char} {n : Int} (h : Decimal.exponent? cs = some n) :
    ∀ c ∈ cs, isNumeric c = true := by
  intro c hc
  cases cs with
  | nil => cases hc
  | cons first cs =>
      rw [Decimal.exponent?] at h
      split at h
      next hletter =>
        rcases List.mem_cons.mp hc with rfl | hc
        · rcases hletter with rfl | rfl <;> rfl
        · exact isNumeric_of_integer? h c hc
      next => cases h

/-- Digits in front of numeric characters are numeric. -/
theorem isNumeric_of_dropWhile {cs : List Char}
    (h : ∀ c ∈ cs.dropWhile Char.isDigit, isNumeric c = true) : ∀ c ∈ cs, isNumeric c = true := by
  intro c hc
  rw [← List.takeWhile_append_dropWhile (p := Char.isDigit) (l := cs)] at hc
  rcases List.mem_append.mp hc with hc | hc
  · exact isNumeric_of_isDigit (List.mem_takeWhile_imp hc)
  · exact h c hc

theorem isNumeric_of_numberFrom {negative : Bool} {whole tail : List Char} {d : Data}
    (h : numberFrom negative whole tail = some d) : ∀ c ∈ tail, isNumeric c = true := by
  unfold numberFrom at h
  split at h
  next =>
    intro c hc
    cases hc
  next =>
    dsimp only at h
    split at h
    next => cases h
    next =>
      obtain ⟨e, he, -⟩ := Option.map_eq_some_iff.mp h
      intro c hc
      rcases List.mem_cons.mp hc with rfl | hc
      · rfl
      · exact isNumeric_of_dropWhile (isNumeric_of_exponent? he) c hc
  next =>
    obtain ⟨e, he, -⟩ := Option.map_eq_some_iff.mp h
    exact isNumeric_of_exponent? he

/-- A number has no characters but those that a number may have. -/
theorem isNumeric_of_number? {cs : List Char} {d : Data} (h : number? cs = some d) :
    ∀ c ∈ cs, isNumeric c = true := by
  obtain ⟨negative, body, rfl, hsign⟩ : ∃ negative body,
      cs = signText negative ++ body ∧ (negative = false → body.head? ≠ some '-') := by
    by_cases hsign : cs.head? = some '-'
    · exact ⟨true, cs.tail, (List.cons_head?_tail hsign).symm, nofun⟩
    · exact ⟨false, cs, rfl, fun _ => hsign⟩
  rw [number?_signed negative hsign] at h
  dsimp only at h
  split at h
  next => cases h
  next =>
    intro c hc
    rcases List.mem_append.mp hc with hc | hc
    · cases negative with
      | true =>
          obtain rfl := List.mem_singleton.mp hc
          rfl
      | false => cases hc
    · exact isNumeric_of_dropWhile (isNumeric_of_numberFrom h) c hc

/-! ## Written integers -/

theorem number?_digits (negative : Bool) (n : Nat) :
    number? (signText negative ++ digits n) = some (wholeNumber negative (digits n)) := by
  have hread := number?_eq negative (isWhole_digits n) (stops_nil _)
  rwa [List.append_nil] at hread

/-- An integer that fits is read back as itself. -/
theorem number?_integerText {n : Int} (h : (0 ≤ n ∧ fits64 n.toNat) ∨ (n < 0 ∧ fitsSigned64 n)) :
    number? (integerText n) = some (.integer n) := by
  rcases h with ⟨hn, hfits⟩ | ⟨hn, hfits⟩
  · obtain ⟨k, rfl⟩ := Int.eq_ofNat_of_zero_le hn
    have hread := number?_digits false k
    rw [Int.toNat_natCast] at hfits
    rw [integerText, if_neg (by omega), Int.natAbs_natCast]
    rw [wholeNumber, digitsValue_digits] at hread
    simpa [signText, hfits] using hread
  · have hread := number?_digits true n.natAbs
    have habs : -(n.natAbs : Int) = n := by omega
    have hpos : 0 < n.natAbs := by omega
    rw [integerText, if_pos hn]
    rw [wholeNumber, digitsValue_digits, habs] at hread
    simpa [signText, hfits, hpos] using hread

/-! ## Written doubles -/

theorem exponent?_signed (negative : Bool) (n : Nat) :
    Decimal.exponent? ('e' :: (if negative then '-' else '+') :: digits n) =
      some (if negative then -(n : Int) else n) := by
  have hdigits := isDigits_digits n
  have hall : (digits n).all Char.isDigit = true := List.all_eq_true.mpr hdigits.2
  cases negative <;>
    simp [Decimal.exponent?, Decimal.integer?, Decimal.takeSign, hdigits.1, hall,
      digitsValue_digits]

/-- An exponent stands behind a point that follows the first digit, or behind a single digit. -/
theorem number?_layScientific (negative : Bool) (coefficient : Nat) (leading : Int) :
    ∃ first more, digits coefficient = first :: more ∧
      number? (signText negative ++ layScientific (digits coefficient) leading) =
        some (floatData (scaled negative [first] more leading)) := by
  have hdigits := isDigits_digits coefficient
  have hexponent := exponent?_signed (decide (leading < 0)) leading.natAbs
  have hleading : (if decide (leading < 0) = true then -(leading.natAbs : Int)
      else leading.natAbs) = leading := by
    split
    next hneg =>
      have := of_decide_eq_true hneg
      omega
    next hpos =>
      have := of_decide_eq_false (Bool.eq_false_iff.mpr hpos)
      omega
  rw [hleading] at hexponent
  simp only [decide_eq_true_eq] at hexponent
  have hstops : Stops Char.isDigit
      ('e' :: (if leading < 0 then '-' else '+') :: digits leading.natAbs) := by
    intro c hc
    cases hc
    rfl
  unfold layScientific
  cases hds : digits coefficient with
  | nil => exact absurd hds hdigits.1
  | cons first more =>
      rw [hds] at hdigits
      have hfirst := isWhole_singleton (hdigits.2 first (List.mem_cons_self ..))
      refine ⟨first, more, rfl, ?_⟩
      cases more with
      | nil => exact number?_scientific negative hfirst hexponent
      | cons second more =>
          have hmore : IsDigits (second :: more) :=
            ⟨List.cons_ne_nil _ _, fun c hc => hdigits.2 c (List.mem_cons_of_mem _ hc)⟩
          exact number?_pointed negative hfirst hmore hstops hexponent

theorem number?_layOut (negative : Bool) {d : Decimal}
    (h : d.coefficient ≠ 0 ∨ d.exponent = 0) :
    ∃ read, number? (signText negative ++ layOut json d) = some (floatData read) := by
  unfold layOut
  dsimp only
  split
  · obtain ⟨whole, fraction, hwhole, hfraction, htext⟩ := exists_layPositional h
    have hread := number?_pointed negative hwhole hfraction (stops_nil _) rfl
    rw [List.append_nil, ← htext] at hread
    exact ⟨_, hread⟩
  · obtain ⟨_, _, -, hread⟩ := number?_layScientific negative d.coefficient _
    exact ⟨_, hread⟩

/-- What is written for a finite double is a number. -/
theorem number?_finiteText {x : Float} (hx : x.isFinite = true) :
    ∃ d, number? (finiteText json x) = some (floatData d) := by
  have hlt := Binary64.magnitude_lt_infinity hx
  change ∃ d, number? (signText (Binary64.isNegative x) ++ layMagnitude json _) = _
  unfold layMagnitude
  split
  next hzero => exact number?_layOut _ (.inr rfl)
  next hsome =>
    refine number?_layOut _ (.inl fun hzero => ?_)
    have hback := Shortest.magnitude_ofMagnitude json.upward hlt
    rw [Decimal.magnitude, if_pos hzero] at hback
    exact hsome hback.symm

/-- What a double is read as when its text is read. -/
def reading (x : Float) : Data :=
  (number? (floatText x)).getD .null

/-- Whether reading the text of a double gives the double back. -/
def ReadsBack (x : Float) : Prop :=
  (reading x).float? = some x

instance : DecidablePred ReadsBack :=
  fun x => inferInstanceAs (Decidable ((reading x).float? = some x))

end Toolpath.Json
