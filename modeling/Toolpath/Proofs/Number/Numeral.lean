import Toolpath.Number.Decimal
import Toolpath.Proofs.Text.Runs

/-! # Numerals

The numbers that can stand behind a letter, where there are no letters and so
neither exponents nor names of numbers: a sign or none, and digits with at most
one point before, among or behind them.
-/

namespace Toolpath

open Text

/-- A run of at least one digit. -/
def IsDigits (ds : List Char) : Prop :=
  ds ≠ [] ∧ ∀ c ∈ ds, c.isDigit = true

/-- The decimal that digits with at most one point write when a sign is given to it. -/
inductive Unsigned (negative : Bool) : List Char → Decimal → Prop
  | whole {ds} : IsDigits ds → Unsigned negative ds ⟨negative, digitsValue ds, 0⟩
  | pointed {ds fs} : IsDigits ds → (∀ c ∈ fs, c.isDigit = true) →
      Unsigned negative (ds ++ '.' :: fs) ⟨negative, digitsValue (ds ++ fs), -fs.length⟩
  | fraction {fs} : IsDigits fs →
      Unsigned negative ('.' :: fs) ⟨negative, digitsValue fs, -fs.length⟩

/-- The decimal that a text writes. -/
inductive Numeral : List Char → Decimal → Prop
  | plain {cs d} : Unsigned false cs d → Numeral cs d
  | plus {cs d} : Unsigned false cs d → Numeral ('+' :: cs) d
  | minus {cs d} : Unsigned true cs d → Numeral ('-' :: cs) d

section Unsigned

variable {negative : Bool} {cs : List Char} {d : Decimal}

theorem stops_isDigit_point (fs : List Char) : Stops Char.isDigit ('.' :: fs) := by
  intro c hc
  obtain rfl := Option.some.inj hc
  rfl

theorem stops_nil (p : Char → Bool) : Stops p [] := by
  intro c hc
  cases hc

theorem Unsigned.unsigned? (h : Unsigned negative cs d) :
    Decimal.unsigned? negative cs = some d := by
  cases h with
  | whole hds =>
      have htake := takeWhile_append_of_stops hds.2 (stops_nil _)
      have hdrop := dropWhile_append_of_stops hds.2 (stops_nil _)
      rw [List.append_nil] at htake hdrop
      simp [Decimal.unsigned?, htake, hdrop, hds.1, Decimal.exponent?, Decimal.ofDigits]
  | pointed hds hfs =>
      rename_i ds fs
      have htake := takeWhile_append_of_stops hds.2 (stops_isDigit_point fs)
      have hdrop := dropWhile_append_of_stops hds.2 (stops_isDigit_point fs)
      have htake' := takeWhile_append_of_stops hfs (stops_nil _)
      have hdrop' := dropWhile_append_of_stops hfs (stops_nil _)
      rw [List.append_nil] at htake' hdrop'
      simp [Decimal.unsigned?, htake, hdrop, htake', hdrop', hds.1, Decimal.exponent?,
        Decimal.ofDigits]
  | fraction hfs =>
      rename_i fs
      have htake := (stops_isDigit_point fs).takeWhile_eq_nil
      have hdrop := (stops_isDigit_point fs).dropWhile_eq_self
      have htake' := takeWhile_append_of_stops hfs.2 (stops_nil _)
      have hdrop' := dropWhile_append_of_stops hfs.2 (stops_nil _)
      rw [List.append_nil] at htake' hdrop'
      simp [Decimal.unsigned?, htake, hdrop, htake', hdrop', hfs.1, Decimal.exponent?,
        Decimal.ofDigits]

/-- Where there are no letters there is no exponent. -/
theorem exponent?_of_letterless (hcs : ∀ c ∈ cs, c.isAlpha = false) {k : Int}
    (h : Decimal.exponent? cs = some k) : cs = [] ∧ k = 0 := by
  cases cs with
  | nil => exact ⟨rfl, (Option.some.inj h).symm⟩
  | cons c cs =>
      have hc := hcs c (List.mem_cons_self ..)
      have hne : ¬(c = 'e' ∨ c = 'E') := by
        rintro (rfl | rfl) <;> exact absurd hc (by decide)
      rw [Decimal.exponent?, if_neg hne] at h
      cases h

theorem unsigned_of_unsigned? (hcs : ∀ c ∈ cs, c.isAlpha = false)
    (h : Decimal.unsigned? negative cs = some d) : Unsigned negative cs d := by
  have hsplit : cs.takeWhile Char.isDigit ++ cs.dropWhile Char.isDigit = cs :=
    List.takeWhile_append_dropWhile
  have hwhole : ∀ c ∈ cs.takeWhile Char.isDigit, c.isDigit = true :=
    fun c hc => List.mem_takeWhile_imp hc
  have hrest : ∀ c ∈ cs.dropWhile Char.isDigit, c.isAlpha = false :=
    fun c hc => hcs c (List.dropWhile_subset _ hc)
  simp only [Decimal.unsigned?] at h
  -- The digits in front end either at a point or at the end of the text.
  generalize cs.takeWhile Char.isDigit = whole at h hsplit hwhole
  split at h
  next fs hpoint =>
    rw [hpoint] at hsplit hrest
    have hdropped : ∀ c ∈ fs.dropWhile Char.isDigit, c.isAlpha = false :=
      fun c hc => hrest c (List.mem_cons_of_mem _ (List.dropWhile_subset _ hc))
    split at h
    · cases h
    next hsome =>
      obtain ⟨k, hk, rfl⟩ := Option.map_eq_some_iff.mp h
      obtain ⟨hnil, rfl⟩ := exponent?_of_letterless hdropped hk
      have hfs : fs.takeWhile Char.isDigit = fs :=
        List.takeWhile_eq_self_iff.mpr (List.dropWhile_eq_nil_iff.mp hnil)
      have hdigits := List.takeWhile_eq_self_iff.mp hfs
      rw [hfs] at hsome ⊢
      subst hsplit
      by_cases hempty : whole = []
      · subst hempty
        have hne : fs ≠ [] := fun hfs => hsome ⟨rfl, hfs⟩
        have hread : Unsigned negative ('.' :: fs) _ := .fraction ⟨hne, hdigits⟩
        simpa [Decimal.ofDigits] using hread
      · have hread : Unsigned negative (whole ++ '.' :: fs) _ := .pointed ⟨hempty, hwhole⟩ hdigits
        simpa [Decimal.ofDigits] using hread
  next hpoint =>
    split at h
    · cases h
    next hsome =>
      obtain ⟨k, hk, rfl⟩ := Option.map_eq_some_iff.mp h
      obtain ⟨hnil, rfl⟩ := exponent?_of_letterless hrest hk
      rw [hnil, List.append_nil] at hsplit
      subst hsplit
      have hne : whole ≠ [] := fun hwhole => hsome ⟨hwhole, rfl⟩
      have hread : Unsigned negative whole _ := .whole ⟨hne, hwhole⟩
      simpa [Decimal.ofDigits] using hread

/-- Without letters, the texts that are read as numbers without a sign are those that write one. -/
theorem unsigned?_eq_some_iff (hcs : ∀ c ∈ cs, c.isAlpha = false) :
    Decimal.unsigned? negative cs = some d ↔ Unsigned negative cs d :=
  ⟨unsigned_of_unsigned? hcs, Unsigned.unsigned?⟩

/-- What stands behind the sign of a number does not start with another one. -/
theorem Unsigned.takeSign (h : Unsigned negative cs d) : Decimal.takeSign cs = (false, cs) := by
  have hhead : ∀ c ∈ cs.head?, c ≠ '-' ∧ c ≠ '+' := by
    intro c hc
    have hchar : c.isDigit = true ∨ c = '.' := by
      cases h with
      | whole hds => exact .inl (hds.2 c (List.mem_of_mem_head? hc))
      | pointed hds hfs =>
          rename_i ds fs
          cases ds with
          | nil => exact absurd rfl hds.1
          | cons first ds =>
              obtain rfl := Option.some.inj hc
              exact .inl (hds.2 first (List.mem_cons_self ..))
      | fraction hfs => exact .inr (Option.some.inj hc).symm
    constructor <;> rintro rfl <;> revert hchar <;> decide
  unfold Decimal.takeSign
  split
  · exact absurd rfl (hhead '-' rfl).1
  · exact absurd rfl (hhead '+' rfl).2
  · rfl

end Unsigned

/-- A text without letters is in lower case. -/
theorem lower_of_letterless {cs : List Char} (hcs : ∀ c ∈ cs, c.isAlpha = false) :
    lower cs = cs := by
  have hchar : ∀ c ∈ cs, c.toLower = c := by
    intro c hc
    have halpha : (c.isUpper || c.isLower) = false := hcs c hc
    refine dif_neg fun hcapital => ?_
    have hupper : c.isUpper = true := decide_eq_true hcapital
    rw [hupper] at halpha
    cases halpha
  unfold lower
  rw [List.map_congr_left hchar, List.map_id']

/-- What a sign stands in front of. -/
theorem mem_of_mem_takeSign {c : Char} {cs : List Char} (h : c ∈ (Decimal.takeSign cs).2) :
    c ∈ cs := by
  unfold Decimal.takeSign at h
  split at h
  · exact List.mem_cons_of_mem _ h
  · exact List.mem_cons_of_mem _ h
  · exact h

/-- A numeral is what stands behind its sign. -/
theorem numeral_iff {cs : List Char} {d : Decimal} :
    Numeral cs d ↔ Unsigned (Decimal.takeSign cs).1 (Decimal.takeSign cs).2 d := by
  constructor
  · intro h
    cases h with
    | plain h =>
        rw [h.takeSign]
        exact h
    | plus h => exact h
    | minus h => exact h
  · unfold Decimal.takeSign
    split
    · exact .minus
    · exact .plus
    · exact .plain

/-- Without letters, the texts that are read as numbers are the numerals. -/
theorem Number.read?_eq_some_iff {cs : List Char} {x : Float} (hcs : ∀ c ∈ cs, c.isAlpha = false) :
    read? cs = some x ↔ ∃ d, Numeral cs d ∧ d.toFloat = x := by
  have hbody : ∀ c ∈ (Decimal.takeSign cs).2, c.isAlpha = false :=
    fun c hc => hcs c (mem_of_mem_takeSign hc)
  have hname (first : Char) (name : List Char) (hfirst : first.isAlpha = true) :
      String.ofList (lower (Decimal.takeSign cs).2) ≠ String.ofList (first :: name) := by
    intro hname
    rw [lower_of_letterless hbody, String.ofList_inj] at hname
    have := hbody first (hname ▸ List.mem_cons_self ..)
    rw [hfirst] at this
    cases this
  -- The names of numbers are made of letters, so that only the last branch is left.
  simp only [read?, numeral_iff]
  rw [if_neg, if_neg, Option.map_eq_some_iff]
  · simp only [unsigned?_eq_some_iff hbody]
  · exact hname 'n' ['a', 'n'] rfl
  · rintro (hinf | hinfinity)
    · exact hname 'i' ['n', 'f'] rfl hinf
    · exact hname 'i' ['n', 'f', 'i', 'n', 'i', 't', 'y'] rfl hinfinity

end Toolpath
