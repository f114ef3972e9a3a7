import Mathlib.Data.List.Forall2
import Toolpath.Proofs.Json.Numbers
import Toolpath.Proofs.Json.Strings

/-! # Written JSON is read back

Reading what was written gives the data back, whatever the layout, except for
what the reader makes of doubles. Fuel for the reader is there in plenty: the
length of a text bounds its depth and the number of its items.
-/

namespace Toolpath.Json

open Text Number

mutual

/-- What data is read as when it has been written. -/
def reread : Data → Data
  | .null => .null
  | .bool b => .bool b
  | .integer n => (number? (integerText n)).getD .null
  | .float x => reading x
  | .text s => .text s
  | .void => .null
  | .list items => .list (rereadItems items)
  | .record members => .record (rereadMembers members)

/-- What the items of a list are read as. -/
def rereadItems : List Data → List Data
  | [] => []
  | d :: ds => reread d :: rereadItems ds

/-- What the members of a record are read as. -/
def rereadMembers : List (String × Data) → List (String × Data)
  | [] => []
  | (key, d) :: ms => (key, reread d) :: rereadMembers ms

end

theorem rereadItems_eq_map (ds : List Data) : rereadItems ds = ds.map reread := by
  induction ds with
  | nil => rfl
  | cons d ds ih => rw [rereadItems, ih, List.map_cons]

/-! ## Blanks and ends -/

/-- Whether a text has only blanks. -/
def AllBlank (cs : List Char) : Prop := ∀ c ∈ cs, isBlank c = true

/-- Whether a layout puts nothing but blanks between the tokens. -/
structure Layout.IsBlank (layout : Layout) : Prop where
  newline : ∀ level, AllBlank (layout.newline level)
  afterColon : AllBlank layout.afterColon

/-- Whether a value may end in front of a text: neither a number nor a name goes on there. -/
def Ends (rest : List Char) : Prop :=
  Stops isNumeric rest ∧ Stops Char.isAlpha rest

theorem isBlank_prettyLayout : prettyLayout.IsBlank := by
  constructor
  · intro level c hc
    rcases List.mem_cons.mp hc with rfl | hc
    · rfl
    · rw [List.eq_of_mem_replicate hc]
      rfl
  · intro c hc
    obtain rfl := List.mem_singleton.mp hc
    rfl

theorem skipBlanks_append {blanks : List Char} (h : AllBlank blanks) (cs : List Char) :
    skipBlanks (blanks ++ cs) = skipBlanks cs :=
  List.dropWhile_append_of_pos h

theorem skipBlanks_cons {c : Char} (h : isBlank c = false) (cs : List Char) :
    skipBlanks (c :: cs) = c :: cs :=
  List.dropWhile_cons_of_neg (by simp [h])

theorem ends_cons {c : Char} (h : isNumeric c = false ∧ c.isAlpha = false) (cs : List Char) :
    Ends (c :: cs) := by
  constructor <;> intro d hd <;> cases hd
  · exact h.1
  · exact h.2

theorem ends_of_isBlank {b : Char} (h : isBlank b = true) (cs : List Char) : Ends (b :: cs) := by
  apply ends_cons
  simp only [isBlank, Bool.or_eq_true, decide_eq_true_eq] at h
  rcases h with ((rfl | rfl) | rfl) | rfl <;> decide

/-- Blanks, or a character that closes, end a value. -/
theorem ends_append_cons {blanks : List Char} (h : AllBlank blanks) {c : Char}
    (hc : isNumeric c = false ∧ c.isAlpha = false) (cs : List Char) : Ends (blanks ++ c :: cs) := by
  cases blanks with
  | nil => exact ends_cons hc cs
  | cons b bs => exact ends_of_isBlank (h b (List.mem_cons_self ..)) _

/-! ## Lists of items -/

section Items

variable {α : Type} {item : List Char → Option (α × List Char)}

/-- Whether a text, behind any blanks, is read as one item and nothing more. -/
def Reads (item : List Char → Option (α × List Char)) (text : List Char) (a : α) : Prop :=
  ∀ blanks rest, AllBlank blanks → Ends rest → item (blanks ++ (text ++ rest)) = some (a, rest)

/-- Items with commas between them are read up to the closing character. -/
theorem itemsFrom_intercalate {close : Char} (hclose : close = ']' ∨ close = '}')
    {newline final : List Char} (hnewline : AllBlank newline) (hfinal : AllBlank final)
    {texts : List (List Char)} {as : List α} (h : List.Forall₂ (Reads item) texts as)
    (hne : texts ≠ []) {count : Nat} (hcount : texts.length ≤ count) (rest : List Char) :
    itemsFrom item close count
        (newline ++ ((',' :: newline).intercalate texts ++ (final ++ close :: rest))) =
      some (as, rest) := by
  have hends : isNumeric close = false ∧ close.isAlpha = false := by
    rcases hclose with rfl | rfl <;> decide
  have hblank : isBlank close = false := by
    rcases hclose with rfl | rfl <;> decide
  have hcomma : close ≠ ',' := by
    rcases hclose with rfl | rfl <;> decide
  induction h generalizing count with
  | nil => exact absurd rfl hne
  | cons hfirst hmore ih =>
      rename_i text a texts as
      obtain ⟨count, rfl⟩ := Nat.exists_eq_succ_of_ne_zero (Nat.ne_zero_of_lt hcount)
      -- The closing character stands behind the last item, a comma behind every other one.
      cases hmore with
      | nil =>
          have hread := hfirst newline (final ++ close :: rest) hnewline
            (ends_append_cons hfinal hends rest)
          rw [List.intercalate_singleton, itemsFrom, hread]
          simp only [Option.bind_eq_bind, Option.bind_some, skipBlanks_append hfinal,
            skipBlanks_cons hblank, if_neg hcomma, if_true]
      | cons hsecond hmore =>
          rename_i second b texts as
          have hnext := ih (List.cons_ne_nil _ _) (Nat.le_of_succ_le_succ hcount)
          have hread := hfirst newline
            (',' :: (newline ++ ((',' :: newline).intercalate (second :: texts) ++
              (final ++ close :: rest)))) hnewline (ends_cons (by decide) _)
          have htext : newline ++ ((',' :: newline).intercalate (text :: second :: texts) ++
              (final ++ close :: rest)) =
                newline ++ (text ++ ',' :: (newline ++
                  ((',' :: newline).intercalate (second :: texts) ++
                    (final ++ close :: rest)))) := by
            simp [List.intercalate_cons_cons]
          have hcomma' : isBlank ',' = false := rfl
          rw [htext, itemsFrom, hread]
          simp only [Option.bind_eq_bind, Option.bind_some, skipBlanks_cons hcomma', if_true,
            hnext]

/-- Whether a text can be that of an item: it starts with neither a blank nor the closing
character. -/
def StartsItem (close : Char) (text : List Char) : Prop :=
  ∃ c cs, text = c :: cs ∧ isBlank c = false ∧ c ≠ close

theorem exists_intercalate_cons (separator : List Char) (c : Char) (cs : List Char)
    (texts : List (List Char)) :
    ∃ tail, separator.intercalate ((c :: cs) :: texts) = c :: tail := by
  cases texts with
  | nil => exact ⟨cs, List.intercalate_singleton⟩
  | cons second texts => exact ⟨_, List.intercalate_cons_cons⟩

/-- Items between brackets are read, behind the opening one, up to the closing one. -/
theorem items_bracket {layout : Layout} (hlayout : layout.IsBlank) (level : Nat)
    {opening close : Char} (hclose : close = ']' ∨ close = '}') {texts : List (List Char)}
    {as : List α} (h : List.Forall₂ (Reads item) texts as)
    (hhead : ∀ text ∈ texts, StartsItem close text) {count : Nat}
    (hcount : texts.length ≤ count) (rest : List Char) :
    ∃ tail, bracket layout level opening close texts ++ rest = opening :: tail ∧
      items item close count tail = some (as, rest) := by
  have hblank : isBlank close = false := by
    rcases hclose with rfl | rfl <;> decide
  unfold bracket
  split
  next hnil =>
    subst hnil
    cases h
    refine ⟨close :: rest, rfl, ?_⟩
    rw [items, skipBlanks_cons hblank]
    simp only [if_true]
  next hne =>
    have hread := itemsFrom_intercalate hclose (hlayout.newline (level + 1))
      (hlayout.newline level) h hne hcount rest
    refine ⟨_, by simp only [List.cons_append, List.append_assoc, List.nil_append]; rfl, ?_⟩
    cases texts with
    | nil => exact absurd rfl hne
    | cons text texts =>
        obtain ⟨c, cs, rfl, hc, hother⟩ := hhead text (List.mem_cons_self ..)
        obtain ⟨tail, htail⟩ :=
          exists_intercalate_cons (',' :: layout.newline (level + 1)) c cs texts
        rw [items, skipBlanks_append (hlayout.newline (level + 1)), htail, List.cons_append,
          skipBlanks_cons hc]
        simp only [if_neg hother]
        rw [← List.cons_append, ← htail]
        exact hread

theorem length_mem_intercalate (separator : List Char) {texts : List (List Char)} :
    ∀ text ∈ texts, text.length ≤ (separator.intercalate texts).length := by
  induction texts with
  | nil =>
      intro text htext
      cases htext
  | cons first texts ih =>
      intro text htext
      cases texts with
      | nil =>
          obtain rfl := List.mem_singleton.mp htext
          rw [List.intercalate_singleton]
      | cons second texts =>
          rw [List.intercalate_cons_cons, List.length_append, List.length_append]
          rcases List.mem_cons.mp htext with rfl | htext
          · omega
          · have := ih text htext
            omega

theorem length_le_intercalate (c : Char) (cs : List Char) (texts : List (List Char)) :
    texts.length ≤ ((c :: cs).intercalate texts).length + 1 := by
  induction texts with
  | nil => exact Nat.zero_le _
  | cons first texts ih =>
      cases texts with
      | nil => exact Nat.le_add_left _ _
      | cons second texts =>
          simp only [List.intercalate_cons_cons, List.length_append, List.length_cons] at ih ⊢
          omega

/-- The length of items between brackets bounds that of every item, and their number. -/
theorem length_bracket (layout : Layout) (level : Nat) (opening close : Char)
    (texts : List (List Char)) :
    (∀ text ∈ texts, text.length + 2 ≤ (bracket layout level opening close texts).length) ∧
      texts.length + 1 ≤ (bracket layout level opening close texts).length := by
  unfold bracket
  split
  next hnil =>
    subst hnil
    constructor
    · intro text htext
      cases htext
    · exact Nat.le_succ 1
  next hne =>
    have hcount := length_le_intercalate ',' (layout.newline (level + 1)) texts
    simp only [List.length_append, List.length_cons, List.length_nil]
    constructor
    · intro text htext
      have := length_mem_intercalate (',' :: layout.newline (level + 1)) text htext
      omega
    · omega

end Items

/-! ## Values -/

theorem value_append {blanks : List Char} (h : AllBlank blanks) (n : Nat) (cs : List Char) :
    value (n + 1) (blanks ++ cs) = value (n + 1) cs := by
  rw [value, value, skipBlanks_append h]

/-- A letter, a digit or a sign is no blank, and nothing else starts with it or ends at it. -/
theorem plain_of_isAlpha_or_isNumeric {c : Char} (h : c.isAlpha = true ∨ isNumeric c = true) :
    isBlank c = false ∧ c ≠ ']' ∧ c ≠ '{' ∧ c ≠ '[' ∧ c ≠ '"' := by
  refine ⟨?_, ?_, ?_, ?_, ?_⟩
  · by_contra hblank
    simp only [isBlank, Bool.or_eq_true, decide_eq_true_eq, Bool.not_eq_false] at hblank
    rcases hblank with ((rfl | rfl) | rfl) | rfl <;> revert h <;> decide
  all_goals
    rintro rfl
    revert h
    decide

theorem reads_literal {name : List Char} {d : Data} (halpha : ∀ c ∈ name, c.isAlpha = true)
    (hnumeric : Stops isNumeric name) (hname : literal? name = some d) (n : Nat) :
    Reads (value (n + 1)) name d := by
  intro blanks rest hblanks hrest
  cases name with
  | nil => exact absurd hname (by simp [literal?])
  | cons c cs =>
      obtain ⟨hblank, -, hbrace, hbracket, hquote⟩ :=
        plain_of_isAlpha_or_isNumeric (.inl (halpha c (List.mem_cons_self ..)))
      rw [List.cons_append, value_append hblanks, value, skipBlanks_cons hblank]
      simp only [if_neg hbrace, if_neg hbracket, if_neg hquote, hnumeric c rfl]
      rw [← List.cons_append, takeWhile_append_of_stops halpha hrest.2,
        dropWhile_append_of_stops halpha hrest.2, hname]
      rfl

theorem reads_null (n : Nat) : Reads (value (n + 1)) "null".toList .null :=
  reads_literal (List.all_eq_true.mp rfl) (fun _ hc => by cases hc; rfl) rfl n

theorem reads_bool (b : Bool) (n : Nat) (layout : Layout) (level : Nat) :
    Reads (value (n + 1)) (print layout level (.bool b)) (.bool b) := by
  cases b with
  | true =>
      have halpha : ∀ c ∈ "true".toList, c.isAlpha = true := List.all_eq_true.mp rfl
      exact reads_literal halpha (fun _ hc => by cases hc; rfl) rfl n
  | false =>
      have halpha : ∀ c ∈ "false".toList, c.isAlpha = true := List.all_eq_true.mp rfl
      exact reads_literal halpha (fun _ hc => by cases hc; rfl) rfl n

theorem reads_number {number : List Char} {d : Data} (hnumber : number? number = some d)
    (n : Nat) : Reads (value (n + 1)) number d := by
  intro blanks rest hblanks hrest
  have hall := isNumeric_of_number? hnumber
  cases number with
  | nil => exact absurd hnumber (by simp [number?])
  | cons c cs =>
      have hc := hall c (List.mem_cons_self ..)
      obtain ⟨hblank, -, hbrace, hbracket, hquote⟩ := plain_of_isAlpha_or_isNumeric (.inr hc)
      rw [List.cons_append, value_append hblanks, value, skipBlanks_cons hblank]
      simp only [if_neg hbrace, if_neg hbracket, if_neg hquote, hc, if_true]
      rw [← List.cons_append, takeWhile_append_of_stops hall hrest.1,
        dropWhile_append_of_stops hall hrest.1, hnumber]
      rfl

theorem reads_quote (s : String) (n : Nat) : Reads (value (n + 1)) (quote s) (.text s) := by
  intro blanks rest hblanks _
  have htext : quote s ++ rest = '"' :: (s.toList.flatMap escape ++ '"' :: rest) := by
    simp [quote]
  have hblank : isBlank '"' = false := rfl
  rw [htext, value_append hblanks, value, skipBlanks_cons hblank]
  simp only [if_neg (by decide : '"' ≠ '{'), if_neg (by decide : '"' ≠ '['), if_true,
    stringBody_quoted, Option.map_some, Option.getD_some]

/-- What is written for a double is read as the data that it is read as by itself. -/
theorem reads_floatText (x : Float) (n : Nat) :
    Reads (value (n + 1)) (floatText x) (reading x) := by
  unfold reading
  by_cases hx : x.isFinite = true
  · rw [floatText, if_pos hx]
    obtain ⟨d, hd⟩ := number?_finiteText hx
    rw [hd]
    exact reads_number hd n
  · rw [floatText, if_neg hx]
    exact reads_null n

theorem exists_number?_integerText (k : Int) : ∃ d, number? (integerText k) = some d := by
  unfold integerText
  split
  · exact ⟨_, number?_digits true k.natAbs⟩
  · exact ⟨_, number?_digits false k.natAbs⟩

theorem reads_integerText (k : Int) (n : Nat) :
    Reads (value (n + 1)) (integerText k) ((number? (integerText k)).getD .null) := by
  obtain ⟨d, hd⟩ := exists_number?_integerText k
  rw [hd]
  exact reads_number hd n

/-! ## Lists and records -/

theorem reads_list {layout : Layout} (hlayout : layout.IsBlank) (level : Nat) {n : Nat}
    {texts : List (List Char)} {ds : List Data} (h : List.Forall₂ (Reads (value n)) texts ds)
    (hhead : ∀ text ∈ texts, StartsItem ']' text)
    (hcount : texts.length ≤ n) :
    Reads (value (n + 1)) (bracket layout level '[' ']' texts) (.list ds) := by
  intro blanks rest hblanks _
  obtain ⟨tail, htext, hitems⟩ := items_bracket hlayout level (.inl rfl) h hhead hcount rest
  have hblank : isBlank '[' = false := rfl
  rw [htext, value_append hblanks, value, skipBlanks_cons hblank]
  simp only [if_neg (by decide : '[' ≠ '{'), if_true, hitems, Option.map_some]

theorem reads_member {layout : Layout} (hlayout : layout.IsBlank) {n : Nat} {text : List Char}
    {d : Data} (h : Reads (value n) text d) (key : String) :
    Reads (member (value n)) (quote key ++ ':' :: layout.afterColon ++ text) (some key, d) := by
  intro blanks rest hblanks hrest
  have htext : quote key ++ ':' :: layout.afterColon ++ text ++ rest =
      '"' :: (key.toList.flatMap escape ++
        '"' :: ':' :: (layout.afterColon ++ (text ++ rest))) := by
    simp [quote]
  have hblank : isBlank '"' = false := rfl
  have hcolon : isBlank ':' = false := rfl
  rw [htext, member, skipBlanks_append hblanks, skipBlanks_cons hblank]
  simp only [stringBody_quoted, Option.bind_eq_bind, Option.bind_some, skipBlanks_cons hcolon,
    h _ _ hlayout.afterColon hrest]

/-- The members of a record whose keys can all be read. -/
def keyed (members : List (String × Data)) : List (Option String × Data) :=
  members.map fun (key, d) => (some key, d)

theorem ofMembers_keyed (members : List (String × Data)) :
    ofMembers (keyed members) = .record members := by
  have hall : (keyed members).mapM (fun m => m.1.map fun k => (k, m.2)) = some members := by
    induction members with
    | nil => rfl
    | cons m ms ih =>
        rw [keyed, List.map_cons, List.mapM_cons]
        rw [keyed] at ih
        rw [ih]
        rfl
  rw [ofMembers, hall]

theorem reads_record {layout : Layout} (hlayout : layout.IsBlank) (level : Nat) {n : Nat}
    {texts : List (List Char)} {ms : List (String × Data)}
    (h : List.Forall₂ (Reads (member (value n))) texts (keyed ms))
    (hhead : ∀ text ∈ texts, StartsItem '}' text)
    (hcount : texts.length ≤ n) :
    Reads (value (n + 1)) (bracket layout level '{' '}' texts) (.record ms) := by
  intro blanks rest hblanks _
  obtain ⟨tail, htext, hitems⟩ := items_bracket hlayout level (.inr rfl) h hhead hcount rest
  have hblank : isBlank '{' = false := rfl
  rw [htext, value_append hblanks, value, skipBlanks_cons hblank]
  simp only [if_true, hitems, Option.map_some, ofMembers_keyed]

/-! ## Data -/

theorem exists_bracket_cons (layout : Layout) (level : Nat) (opening close : Char)
    (texts : List (List Char)) :
    ∃ cs, bracket layout level opening close texts = opening :: cs := by
  unfold bracket
  split
  · exact ⟨_, rfl⟩
  · exact ⟨_, rfl⟩

theorem startsItem_number {number : List Char} {d : Data} (h : number? number = some d) :
    StartsItem ']' number := by
  cases number with
  | nil => exact absurd h (by simp [number?])
  | cons c cs =>
      have hc := isNumeric_of_number? h c (List.mem_cons_self ..)
      obtain ⟨hblank, hclose, -⟩ := plain_of_isAlpha_or_isNumeric (.inr hc)
      exact ⟨c, cs, rfl, hblank, hclose⟩

theorem startsItem_print (layout : Layout) (level : Nat) (d : Data) :
    StartsItem ']' (print layout level d) := by
  cases d with
  | null => exact ⟨'n', _, rfl, rfl, by decide⟩
  | bool b =>
      cases b with
      | true => exact ⟨'t', _, rfl, rfl, by decide⟩
      | false => exact ⟨'f', _, rfl, rfl, by decide⟩
  | integer k =>
      obtain ⟨d, hd⟩ := exists_number?_integerText k
      exact startsItem_number hd
  | float x =>
      rw [print, floatText]
      split
      next hx =>
        obtain ⟨d, hd⟩ := number?_finiteText hx
        exact startsItem_number hd
      next => exact ⟨'n', _, rfl, rfl, by decide⟩
  | text s => exact ⟨'"', _, rfl, rfl, by decide⟩
  | void => exact ⟨'n', _, rfl, rfl, by decide⟩
  | list ds =>
      obtain ⟨cs, hcs⟩ :=
        exists_bracket_cons layout level '[' ']' (printItems layout (level + 1) ds)
      exact ⟨'[', cs, hcs, rfl, by decide⟩
  | record ms =>
      obtain ⟨cs, hcs⟩ :=
        exists_bracket_cons layout level '{' '}' (printMembers layout (level + 1) ms)
      exact ⟨'{', cs, hcs, rfl, by decide⟩

theorem startsItem_printItems {layout : Layout} {level : Nat} {ds : List Data} :
    ∀ text ∈ printItems layout level ds, StartsItem ']' text := by
  induction ds with
  | nil =>
      intro text htext
      cases htext
  | cons d ds ih =>
      intro text htext
      rcases List.mem_cons.mp htext with rfl | htext
      · exact startsItem_print layout level d
      · exact ih text htext

theorem startsItem_printMembers {layout : Layout} {level : Nat} {ms : List (String × Data)} :
    ∀ text ∈ printMembers layout level ms, StartsItem '}' text := by
  induction ms with
  | nil =>
      intro text htext
      cases htext
  | cons m ms ih =>
      intro text htext
      rcases List.mem_cons.mp htext with rfl | htext
      · exact ⟨'"', _, rfl, rfl, by decide⟩
      · exact ih text htext

mutual

/-- Data that is written is read again, behind blanks and up to where a value may end. -/
theorem reads_print {layout : Layout} (hlayout : layout.IsBlank) (level : Nat) (d : Data)
    (n : Nat) (h : (print layout level d).length < n) :
    Reads (value n) (print layout level d) (reread d) := by
  obtain ⟨n, rfl⟩ := Nat.exists_eq_succ_of_ne_zero (Nat.ne_zero_of_lt h)
  match d with
  | .null => exact reads_null n
  | .bool b => exact reads_bool b n layout level
  | .integer k => exact reads_integerText k n
  | .float x => exact reads_floatText x n
  | .text s => exact reads_quote s n
  | .void => exact reads_null n
  | .list ds =>
      -- The brackets make the text longer than each of its items, and than their number.
      obtain ⟨hlength, hcount⟩ := length_bracket layout level '[' ']'
        (printItems layout (level + 1) ds)
      have hall := Nat.le_of_lt_succ h
      refine reads_list hlayout level (reads_printItems hlayout (level + 1) ds n ?_)
        startsItem_printItems (Nat.le_of_succ_le (hcount.trans hall))
      intro text htext
      exact Nat.lt_of_succ_lt ((hlength text htext).trans hall)
  | .record ms =>
      obtain ⟨hlength, hcount⟩ := length_bracket layout level '{' '}'
        (printMembers layout (level + 1) ms)
      have hall := Nat.le_of_lt_succ h
      refine reads_record hlayout level (reads_printMembers hlayout (level + 1) ms n ?_)
        startsItem_printMembers (Nat.le_of_succ_le (hcount.trans hall))
      intro text htext
      exact Nat.lt_of_succ_lt ((hlength text htext).trans hall)

theorem reads_printItems {layout : Layout} (hlayout : layout.IsBlank) (level : Nat)
    (ds : List Data) (n : Nat) (h : ∀ text ∈ printItems layout level ds, text.length < n) :
    List.Forall₂ (Reads (value n)) (printItems layout level ds) (rereadItems ds) := by
  match ds with
  | [] => exact .nil
  | d :: ds =>
      refine .cons (reads_print hlayout level d n (h _ (List.mem_cons_self ..))) ?_
      apply reads_printItems hlayout level ds n
      intro text htext
      exact h text (List.mem_cons_of_mem _ htext)

theorem reads_printMembers {layout : Layout} (hlayout : layout.IsBlank) (level : Nat)
    (ms : List (String × Data)) (n : Nat)
    (h : ∀ text ∈ printMembers layout level ms, text.length < n) :
    List.Forall₂ (Reads (member (value n))) (printMembers layout level ms)
      (keyed (rereadMembers ms)) := by
  match ms with
  | [] => exact .nil
  | (key, d) :: ms =>
      refine .cons (reads_member hlayout (reads_print hlayout level d n ?_) key) ?_
      · have hfirst := h _ (List.mem_cons_self ..)
        rw [List.length_append] at hfirst
        exact Nat.lt_of_add_left_lt hfirst
      · apply reads_printMembers hlayout level ms n
        intro text htext
        exact h text (List.mem_cons_of_mem _ htext)

end

/-- A text that is written for data, with blanks behind it, is read as that data with its doubles
as they are read by themselves. -/
theorem read?_print {layout : Layout} (hlayout : layout.IsBlank) (level : Nat) (d : Data)
    {blanks : List Char} (hblanks : AllBlank blanks) :
    read? (print layout level d ++ blanks) = some (reread d) := by
  have hends : Ends blanks := by
    cases blanks with
    | nil => exact ⟨stops_nil _, stops_nil _⟩
    | cons b bs => exact ends_of_isBlank (hblanks b (List.mem_cons_self ..)) bs
  have hread := reads_print hlayout level d ((print layout level d ++ blanks).length + 1)
    (by rw [List.length_append]; omega) [] blanks nofun hends
  rw [List.nil_append] at hread
  have hskip : skipBlanks blanks = [] := List.dropWhile_eq_nil_iff.mpr hblanks
  rw [read?, hread]
  simp only [hskip, if_true]

theorem read?_pretty (d : Data) : read? (pretty d).toList = some (reread d) := by
  have hread := read?_print isBlank_prettyLayout 0 d (List.forall_mem_nil _)
  rw [List.append_nil] at hread
  rw [pretty, String.toList_ofList, hread]

end Toolpath.Json
