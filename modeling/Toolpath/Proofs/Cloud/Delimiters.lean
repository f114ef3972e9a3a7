import Mathlib.Data.List.Infix
import Toolpath.Proofs.Cloud.PointTable
import Toolpath.Proofs.Number.Layout
import Toolpath.Proofs.Settings.Validity

/-! # Delimiters that tell points apart

Any text can stand between the numbers of a table. It ends a number for sure if
it has something that cannot begin within a number, a character that is neither
a digit nor a point, or two points together; then no two tables have the same
text. A delimiter of digits and points may be taken for a part of a number.
-/

namespace Toolpath

open Text

/-! ## What stands in a number behind its first character -/

namespace Number

/-- Digits and points, with a digit behind each point. -/
def IsInner (cs : List Char) : Prop :=
  (∀ c ∈ cs, c.isDigit = true ∨ c = '.') ∧
    ∀ front behind, cs = front ++ '.' :: behind → ∃ c ∈ behind.head?, c.isDigit = true

theorem IsInner.suffix {cs tail : List Char} (h : IsInner cs) (htail : tail <:+ cs) :
    IsInner tail := by
  obtain ⟨front, rfl⟩ := htail
  refine ⟨fun c hc => h.1 c (List.mem_append_right front hc), fun before behind heq => ?_⟩
  exact h.2 (front ++ before) behind (by rw [heq, List.append_assoc])

theorem isInner_of_isDigits {ds : List Char} (h : IsDigits ds) : IsInner ds := by
  refine ⟨fun c hc => .inl (h.2 c hc), fun front behind heq => ?_⟩
  exact absurd (h.2 '.' (heq ▸ List.mem_append_right front List.mem_cons_self)) (by decide)

theorem isInner_pointed {whole fraction : List Char} (hwhole : IsDigits whole)
    (hfraction : IsDigits fraction) : IsInner (whole ++ '.' :: fraction) := by
  have hnone {ds : List Char} (hds : IsDigits ds) : '.' ∉ ds :=
    fun hmem => absurd (hds.2 '.' hmem) (by decide)
  refine ⟨fun c hc => ?_, fun front behind heq => ?_⟩
  · rcases List.mem_append.mp hc with hc | hc
    · exact .inl (hwhole.2 c hc)
    · exact (List.mem_cons.mp hc).symm.imp_left (hfraction.2 c)
  · -- There is only one point.
    obtain ⟨-, -, rfl⟩ := (List.append_cons_inj_of_notMem (hnone hwhole) (hnone hfraction)).mp heq
    obtain ⟨c, cs, rfl⟩ := List.exists_cons_of_ne_nil hfraction.1
    exact ⟨c, rfl, hfraction.2 c List.mem_cons_self⟩

variable {x : Float}

/-- The text of a finite double is a sign or none and digits, with a point among them or none. -/
theorem exists_text_eq (hx : x.isFinite = true) :
    ∃ body, text x = signText (Binary64.isNegative x) ++ body ∧ body ≠ [] ∧ IsInner body := by
  have hplain : ∀ e, plain.positional e = true := fun _ => rfl
  obtain ⟨coefficient, exponent, htext, -⟩ :=
    layMagnitude_eq hplain (Binary64.magnitude_lt_infinity hx)
  rw [text_of_isFinite hx, finiteText, htext]
  refine ⟨_, rfl, ?_⟩
  rcases Int.lt_or_le exponent 0 with hneg | hpos
  · obtain ⟨places, hplaces⟩ := Int.eq_ofNat_of_zero_le (a := -exponent) (by omega)
    obtain rfl : exponent = -places := by omega
    obtain ⟨whole, fraction, hwhole, hfraction, hlay⟩ :=
      exists_layPositional_fraction plain.point coefficient (show 0 < places by omega)
    rw [hlay]
    exact ⟨List.append_ne_nil_of_right_ne_nil _ (List.cons_ne_nil _ _),
      isInner_pointed hwhole.1 hfraction⟩
  · have hdigits := (isDigits_digits coefficient).append_zeros exponent.toNat
    have hlay : layPositional plain.point (digits coefficient) exponent =
        digits coefficient ++ List.replicate exponent.toNat '0' := by
      rw [layPositional, if_pos hpos]
      exact List.append_nil _
    rw [hlay]
    exact ⟨hdigits.1, isInner_of_isDigits hdigits⟩

theorem text_ne_nil (hx : x.isFinite = true) : text x ≠ [] := by
  obtain ⟨body, htext, hbody, -⟩ := exists_text_eq hx
  rw [htext]
  exact List.append_ne_nil_of_right_ne_nil _ hbody

theorem isInner_behind (hx : x.isFinite = true) {front behind : List Char}
    (h : text x = front ++ behind) (hfront : front ≠ []) : IsInner behind := by
  obtain ⟨body, htext, -, hbody⟩ := exists_text_eq hx
  have hsign : (signText (Binary64.isNegative x)).length ≤ front.length := by
    have hpos : 0 < front.length := List.length_pos_iff.mpr hfront
    unfold signText
    split
    next => exact hpos
    next => exact Nat.zero_le _
  have hlength := congrArg List.length (htext.symm.trans h)
  rw [List.length_append, List.length_append] at hlength
  have hbehind : behind <:+ text x := ⟨front, h.symm⟩
  have hwhole : body <:+ text x := ⟨_, htext.symm⟩
  exact hbody.suffix (List.suffix_of_suffix_length_le hbehind hwhole (by omega))

end Number

/-! ## Marks -/

/-- What cannot begin in a number behind its first character. -/
def IsMark (mark : List Char) : Prop :=
  (∃ c, mark = [c] ∧ c.isDigit = false ∧ c ≠ '.') ∨ mark = ['.', '.']

/-- Whether a delimiter has a character that is neither a digit nor a point, or two points
together. -/
def StandsOut (delimiter : List Char) : Prop :=
  (∃ c ∈ delimiter, c.isDigit = false ∧ c ≠ '.') ∨ ['.', '.'] <:+: delimiter

variable {mark delimiter rest rest' : List Char}

theorem StandsOut.exists_mark (h : StandsOut delimiter) :
    ∃ mark, IsMark mark ∧ mark <:+: delimiter := by
  rcases h with ⟨c, hc, hmark⟩ | h
  · exact ⟨[c], .inl ⟨c, rfl, hmark⟩, (List.singleton_infix_iff c delimiter).mpr hc⟩
  · exact ⟨_, .inr rfl, h⟩

theorem IsMark.not_prefix {tail : List Char} (hmark : IsMark mark) (htail : Number.IsInner tail)
    (hne : tail ≠ []) (rest : List Char) : ¬mark <+: tail ++ rest := by
  obtain ⟨first, tail, rfl⟩ := List.exists_cons_of_ne_nil hne
  intro hprefix
  rcases hmark with ⟨c, rfl, hdigit, hpoint⟩ | rfl
  · obtain rfl : c = first := (List.cons_prefix_cons.mp hprefix).1
    rcases htail.1 c List.mem_cons_self with h | h
    · rw [h] at hdigit
      cases hdigit
    · exact hpoint h
  · obtain ⟨rfl, hsecond⟩ := List.cons_prefix_cons.mp hprefix
    obtain ⟨c, hc, hdigit⟩ := htail.2 [] tail rfl
    obtain ⟨more, rfl⟩ := List.head?_eq_some_iff.mp hc
    obtain rfl : '.' = c := (List.cons_prefix_cons.mp hsecond).1
    cases hdigit

/-- A delimiter cannot begin later if it has a mark that does not begin in what is skipped. The
mark would begin earlier in the delimiter, too, and then earlier still. -/
theorem append_ne_of_mark {skipped : List Char} (hmark : mark <:+: delimiter)
    (hskipped : skipped ≠ [])
    (hnone : ∀ tail, tail <:+ skipped → tail ≠ [] → ∀ rest, ¬mark <+: tail ++ rest) :
    delimiter ++ rest ≠ skipped ++ (delimiter ++ rest') := by
  intro heq
  obtain ⟨front, behind, hdelimiter⟩ := hmark
  induction hn : front.length using Nat.strongRecOn generalizing front behind with
  | ind n ih =>
      have hwhole : front ++ (mark ++ (behind ++ rest)) = skipped ++ (delimiter ++ rest') := by
        rw [← heq, ← hdelimiter]
        simp only [List.append_assoc]
      have hearlier {early : List Char} (hfront : front = skipped ++ early)
          (hearly : delimiter ++ rest' = early ++ (mark ++ (behind ++ rest))) : False := by
        have hlength : front.length = skipped.length + early.length := by
          rw [hfront, List.length_append]
        have hpos : 0 < skipped.length := List.length_pos_iff.mpr hskipped
        have hprefix : early ++ mark <+: delimiter := by
          have hboth : early ++ mark <+: delimiter ++ rest' :=
            ⟨behind ++ rest, by rw [hearly, List.append_assoc]⟩
          refine List.prefix_of_prefix_length_le hboth (List.prefix_append _ _) ?_
          have hsize := congrArg List.length hdelimiter
          simp only [List.length_append] at hsize ⊢
          omega
        obtain ⟨more, hmore⟩ := hprefix
        exact ih early.length (by omega) early more hmore rfl
      rcases List.append_eq_append_iff.mp hwhole with ⟨tail, hskip, htail⟩ | ⟨early, hfront, hearly⟩
      · by_cases hnil : tail = []
        · subst hnil
          rw [List.append_nil] at hskip
          have hfront : front = skipped ++ [] := hskip.symm.trans (List.append_nil _).symm
          exact hearlier hfront htail.symm
        · refine hnone tail (hskip ▸ List.suffix_append front tail) hnil (delimiter ++ rest') ?_
          exact htail ▸ List.prefix_append mark _
      · exact hearlier hfront hearly

/-- A delimiter that stands out ends a number, whatever stands behind. -/
theorem StandsOut.ends_number (h : StandsOut delimiter) {x y : Float} (hx : x.isFinite = true)
    (hy : y.isFinite = true)
    (heq : Number.text x ++ (delimiter ++ rest) = Number.text y ++ (delimiter ++ rest')) :
    x = y ∧ rest = rest' := by
  obtain ⟨mark, hmark, hinfix⟩ := h.exists_mark
  have hnone {z : Float} (hz : z.isFinite = true) {front skipped rest rest' : List Char}
      (hfront : front ≠ []) (htext : Number.text z = front ++ skipped)
      (hrest : delimiter ++ rest = skipped ++ (delimiter ++ rest')) : skipped = [] := by
    have hinner := Number.isInner_behind hz htext hfront
    by_contra hskipped
    exact append_ne_of_mark hinfix hskipped
      (fun tail htail hne => hmark.not_prefix (hinner.suffix htail) hne) hrest
  have htext : Number.text x = Number.text y := by
    rcases List.append_eq_append_iff.mp heq with ⟨skipped, htext, hrest⟩ | ⟨skipped, htext, hrest⟩
    · rw [htext, hnone hy (Number.text_ne_nil hx) htext hrest, List.append_nil]
    · rw [htext, hnone hx (Number.text_ne_nil hy) htext hrest, List.append_nil]
  refine ⟨Option.some.inj ?_, ?_⟩
  · rw [← Number.read?_text hx, ← Number.read?_text hy, htext]
  · rw [htext] at heq
    exact List.append_cancel_left (List.append_cancel_left heq)

theorem standsOut_lineFeed : StandsOut ['\n'] :=
  .inl ⟨'\n', List.mem_singleton_self _, rfl, by decide⟩

/-! ## Tables -/

theorem Point.line_append (delimiter : List Char) (p : Point) (rest : List Char) :
    p.line delimiter ++ rest = Number.text p.x ++ (delimiter ++ (Number.text p.y ++
      (delimiter ++ (Number.text p.z ++ (['\n'] ++ rest))))) := by
  simp [line, toList, List.intercalate_cons_cons]

/-- A line tells its point and where it ends. -/
theorem StandsOut.line_append_inj (h : StandsOut delimiter) {p q : Point}
    (hp : p.isFinite = true) (hq : q.isFinite = true)
    (heq : p.line delimiter ++ rest = q.line delimiter ++ rest') : p = q ∧ rest = rest' := by
  obtain ⟨hpx, hpy, hpz⟩ := Point.isFinite_iff.mp hp
  obtain ⟨hqx, hqy, hqz⟩ := Point.isFinite_iff.mp hq
  rw [Point.line_append, Point.line_append] at heq
  obtain ⟨hx, hbehindX⟩ := h.ends_number hpx hqx heq
  obtain ⟨hy, hbehindY⟩ := h.ends_number hpy hqy hbehindX
  obtain ⟨hz, hrest⟩ := standsOut_lineFeed.ends_number hpz hqz hbehindY
  refine ⟨?_, hrest⟩
  cases p
  cases q
  congr

/-- A line feed ends a line unless the delimiter has one. -/
theorem Point.line_append_inj (hfree : '\n' ∉ delimiter) {p q : Point} (hp : p.isFinite = true)
    (hq : q.isFinite = true) (heq : p.line delimiter ++ rest = q.line delimiter ++ rest') :
    p.line delimiter = q.line delimiter ∧ rest = rest' := by
  have hrow (r : Point) : r.line delimiter = r.row delimiter ++ ['\n'] := rfl
  rw [hrow, hrow, List.append_assoc, List.append_assoc] at heq
  have hpieces := congrArg (List.splitOn '\n') heq
  rw [List.singleton_append, List.singleton_append,
    List.splitOn_append_cons_self_of_not_mem (newline_not_mem_row hfree hp),
    List.splitOn_append_cons_self_of_not_mem (newline_not_mem_row hfree hq)] at hpieces
  obtain ⟨hsame, -⟩ := List.cons.inj hpieces
  rw [hsame] at heq
  exact ⟨by rw [hrow, hrow, hsame], List.append_cancel_left (List.append_cancel_left heq)⟩

/-- Tables are told apart if lines are, with whatever stands behind them. -/
theorem eq_of_flatten_lines
    (hline : ∀ {p q : Point} {rest rest' : List Char}, p.isFinite = true → q.isFinite = true →
      p.line delimiter ++ rest = q.line delimiter ++ rest' → p = q ∧ rest = rest')
    {points points' : List Point} (hfinite : ∀ p ∈ points, p.isFinite = true)
    (hfinite' : ∀ p ∈ points', p.isFinite = true)
    (heq : (points.map (Point.line delimiter)).flatten =
      (points'.map (Point.line delimiter)).flatten) : points = points' := by
  have hne (p : Point) : Point.line delimiter p ≠ [] :=
    List.append_ne_nil_of_right_ne_nil _ (List.cons_ne_nil _ _)
  induction points generalizing points' with
  | nil =>
      cases points' with
      | nil => rfl
      | cons q points' => exact absurd (List.append_eq_nil_iff.mp heq.symm).1 (hne q)
  | cons p points ih =>
      cases points' with
      | nil => exact absurd (List.append_eq_nil_iff.mp heq).1 (hne p)
      | cons q points' =>
          obtain ⟨hp, hpoints⟩ := List.forall_mem_cons.mp hfinite
          obtain ⟨hq, hpoints'⟩ := List.forall_mem_cons.mp hfinite'
          obtain ⟨hfirst, hrest⟩ := hline hp hq heq
          rw [hfirst, ih hpoints hpoints' hrest]

namespace PointCloud

/-- Whether no two tables with a delimiter have the same text, as far as points are finite. -/
def TellsPointsApart (delimiter : String) : Prop :=
  ∀ cloud cloud' : PointCloud, (∀ p ∈ cloud.points.toList, p.isFinite = true) →
    (∀ p ∈ cloud'.points.toList, p.isFinite = true) →
      cloud.render .csv delimiter = cloud'.render .csv delimiter → cloud.points = cloud'.points

theorem tellsPointsApart_of_standsOut {delimiter : String} (h : StandsOut delimiter.toList) :
    TellsPointsApart delimiter :=
  fun _ _ hfinite hfinite' heq =>
    Array.toList_inj.mp (eq_of_flatten_lines h.line_append_inj hfinite hfinite' heq)

/-- Tables are told apart just when single points are. -/
theorem tellsPointsApart_iff {delimiter : String} :
    TellsPointsApart delimiter ↔ ∀ p q : Point, p.isFinite = true → q.isFinite = true →
      p.line delimiter.toList = q.line delimiter.toList → p = q := by
  constructor
  · intro h p q hp hq heq
    have hpoints := h (.ofPoints [p]) (.ofPoints [q]) (List.forall_mem_singleton.mpr hp)
      (List.forall_mem_singleton.mpr hq) (congrArg (· ++ []) heq)
    exact (List.cons.inj (Array.mk.inj hpoints)).1
  · intro h
    by_cases hout : StandsOut delimiter.toList
    · exact tellsPointsApart_of_standsOut hout
    · -- There is no line feed among digits and points.
      have hfree : '\n' ∉ delimiter.toList :=
        fun hmem => hout (.inl ⟨'\n', hmem, rfl, by decide⟩)
      intro cloud cloud' hfinite hfinite' heq
      refine Array.toList_inj.mp (eq_of_flatten_lines ?_ hfinite hfinite' heq)
      intro p q rest rest' hp hq hlines
      exact (Point.line_append_inj hfree hp hq hlines).imp_left (h p q hp hq)

/-- A delimiter that stands between two equal numbers in a number can be taken for a part of it. -/
theorem not_tellsPointsApart {delimiter : String} {part whole : Float}
    (hpart : part.isFinite = true) (hwhole : whole.isFinite = true)
    (h : Number.text whole = Number.text part ++ (delimiter.toList ++ Number.text part)) :
    ¬TellsPointsApart delimiter := by
  intro hapart
  have hfront : Point.isFinite ⟨whole, part, part⟩ = true :=
    Point.isFinite_iff.mpr ⟨hwhole, hpart, hpart⟩
  have hbehind : Point.isFinite ⟨part, whole, part⟩ = true :=
    Point.isFinite_iff.mpr ⟨hpart, hwhole, hpart⟩
  have hline : Point.line delimiter.toList ⟨whole, part, part⟩ ++ [] =
      Point.line delimiter.toList ⟨part, whole, part⟩ ++ [] := by
    simp only [Point.line_append, h, List.append_assoc]
  have hpoint := tellsPointsApart_iff.mp hapart _ _ hfront hbehind (List.append_cancel_right hline)
  have hsame : whole = part := congrArg Point.x hpoint
  have hlength := congrArg List.length (hsame ▸ h)
  have hpos : 0 < (Number.text part).length := List.length_pos_iff.mpr (Number.text_ne_nil hpart)
  simp only [List.length_append] at hlength
  omega

/-- What does not stand out and has one character at most stands between two fives in a number. -/
theorem exists_text_between_fives {separator : List Char} (hlength : separator.length ≤ 1)
    (h : ¬StandsOut separator) :
    ∃ x : Float, x.isFinite = true ∧ Number.text x = ['5'] ++ (separator ++ ['5']) := by
  have hdigits : ∀ d < 10, (Float.ofNat (505 + 10 * d)).isFinite = true ∧
      Number.text (Float.ofNat (505 + 10 * d)) = ['5', Char.ofNat (48 + d), '5'] := by
    decide +kernel
  match separator, hlength with
  | [], _ => exact ⟨55, by decide +kernel⟩
  | [c], _ =>
      by_cases hpoint : c = '.'
      · subst hpoint
        exact ⟨5.5, by decide +kernel⟩
      · have hdigit : c.isDigit = true := by
          by_contra hother
          exact h (.inl ⟨c, List.mem_singleton_self c, Bool.eq_false_iff.mpr hother, hpoint⟩)
        obtain ⟨hlow, hhigh⟩ : 48 ≤ c.toNat ∧ c.toNat ≤ 57 := Char.isDigit_iff_toNat.mp hdigit
        have hfive := hdigits (c.toNat - 48) (by omega)
        rw [Nat.add_sub_cancel' hlow, Char.ofNat_toNat] at hfive
        exact ⟨_, hfive⟩

/-- A single character tells points apart only if it stands out. -/
theorem standsOut_of_tellsPointsApart {delimiter : String} (hlength : delimiter.length ≤ 1)
    (hapart : TellsPointsApart delimiter) : StandsOut delimiter.toList := by
  by_contra h
  obtain ⟨whole, hwhole, htext⟩ := exists_text_between_fives hlength h
  have hfive : (5 : Float).isFinite = true ∧ Number.text 5 = ['5'] := by decide +kernel
  refine not_tellsPointsApart hfive.1 hwhole ?_ hapart
  rw [htext, hfive.2]

theorem not_standsOut_singleton {c : Char} (h : c.isDigit = true ∨ c = '.') : ¬StandsOut [c] := by
  rintro (⟨d, hd, hdigit, hpoint⟩ | hpoints)
  · obtain rfl := List.mem_singleton.mp hd
    rcases h with h | h
    · rw [h] at hdigit
      cases hdigit
    · exact hpoint h
  · exact absurd hpoints.length_le (by simp)

/-- With the delimiter of some settings no two tables of finite points have the same text if it
stands out, that is if it has a character that is neither a digit nor a point, or two points
together. Of the delimiters with at most one character no others tell points apart: each digit, and
the point, is accepted as a delimiter but does not. Whatever the delimiter, tables are told apart if
single points are. -/
theorem tellsPointsApart_delimiter (config : Config) :
    let delimiter := config.exporting.delimiter
    (StandsOut delimiter.toList → TellsPointsApart delimiter) ∧
      (delimiter.length ≤ 1 → (TellsPointsApart delimiter ↔ StandsOut delimiter.toList)) ∧
      (∀ c : Char, c.isDigit = true ∨ c = '.' →
        (config.validate = .ok () →
          { config with
            exporting := { config.exporting with delimiter := .singleton c } }.validate = .ok ()) ∧
        ¬TellsPointsApart (.singleton c)) ∧
      (TellsPointsApart delimiter ↔ ∀ p q : Point, p.isFinite = true → q.isFinite = true →
        p.line delimiter.toList = q.line delimiter.toList → p = q) := by
  intro delimiter
  refine ⟨tellsPointsApart_of_standsOut, fun hlength =>
    ⟨standsOut_of_tellsPointsApart hlength, tellsPointsApart_of_standsOut⟩, fun c hc => ⟨?_, ?_⟩,
    tellsPointsApart_iff⟩
  · intro hvalid
    have hvalid := Config.validate_eq_ok_iff.mp hvalid
    have hne : String.singleton c ≠ "" := by simp
    exact Config.validate_eq_ok_iff.mpr { hvalid with delimiter := hne }
  · intro hapart
    refine not_standsOut_singleton hc ?_
    simpa using standsOut_of_tellsPointsApart (by simp) hapart

/-- A minus sign is enough, although numbers have one. -/
theorem tellsPointsApart_delimiter_of_sign :
    let config : Config := { exporting := { delimiter := "0-" } }
    config.validate = .ok () ∧ StandsOut config.exporting.delimiter.toList ∧
      TellsPointsApart config.exporting.delimiter := by
  intro config
  have hout : StandsOut config.exporting.delimiter.toList :=
    .inl ⟨'-', by decide +kernel, rfl, by decide⟩
  exact ⟨by decide +kernel, hout, (tellsPointsApart_delimiter config).1 hout⟩

/-- A point is accepted as a delimiter, but it may belong to a number. -/
theorem tellsPointsApart_delimiter_fails :
    let config : Config := { exporting := { delimiter := "." } }
    let first : PointCloud := .ofPoints [⟨1.5, 2, 3⟩]
    let second : PointCloud := .ofPoints [⟨1, 5.2, 3⟩]
    config.validate = .ok () ∧ (∀ p ∈ first.points.toList, p.isFinite = true) ∧
      (∀ p ∈ second.points.toList, p.isFinite = true) ∧
      first.render .csv config.exporting.delimiter = "1.5.2.3\n".toList ∧
      second.render .csv config.exporting.delimiter = "1.5.2.3\n".toList ∧
      first.points ≠ second.points := by
  decide +kernel

end PointCloud

end Toolpath
