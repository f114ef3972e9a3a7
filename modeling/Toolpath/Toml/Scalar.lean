import Toolpath.Document.Data
import Toolpath.Text.Basic

/-! # TOML scalars

Numbers, truth values and dates are recognised as whole words, strings from
their opening quotes on. A date is read as a record with one member, its text;
nothing in the program takes a date, so it matters only that it is a valid one.
-/

namespace Toolpath.Toml

open Text

/-- A space or a tab. -/
def isBlank (c : Char) : Bool :=
  c = ' ' || c = '\t'

/-- The text behind spaces and tabs. -/
def skipBlanks (cs : List Char) : List Char :=
  cs.dropWhile isBlank

/-- A character that may stand in a comment or a string as it is: a tab, or anything that is
not a control character. -/
def isPlain (c : Char) : Bool :=
  c = '\t' || (0x20 ≤ c.toNat && c.toNat ≠ 0x7F)

/-- The text behind a line break, which may have a carriage return before the line feed. -/
def afterNewline? : List Char → Option (List Char)
  | '\n' :: rest => some rest
  | '\r' :: '\n' :: rest => some rest
  | _ => none

/-! ## Numbers -/

/-- The digits of a run in which single underscores may stand between two digits. -/
def joinedDigits? (isDigit : Char → Bool) (cs : List Char) : Option (List Char) :=
  let runs := cs.splitOn '_'
  if runs.all fun run => run ≠ [] && run.all isDigit then some runs.flatten else none

/-- The value of a run of digits in a base, each digit read as a hexadecimal one. -/
def valueIn (base : Nat) (cs : List Char) : Nat :=
  cs.foldl (fun n c => base * n + (hexValue? c).getD 0) 0

/-- An integer, which must fit in 64 bits with a sign. -/
def boundedInteger? (n : Int) : Option Data :=
  if Number.fitsSigned64 n then some (.integer n) else none

/-- The digits of a whole part: an underscore joins digits, and zero leads only itself. -/
def wholeDigits? (cs : List Char) : Option (List Char) := do
  let ds ← joinedDigits? Char.isDigit cs
  if 1 < ds.length ∧ ds.head? = some '0' then none else some ds

/-- An integer in another base than ten, behind its mark. It has no sign. -/
def basedInteger? (base : Nat) (isDigit : Char → Bool) (cs : List Char) : Option Data := do
  let ds ← joinedDigits? isDigit cs
  boundedInteger? (valueIn base ds)

/-- An integer. -/
def integer? (cs : List Char) : Option Data :=
  match cs with
  | '0' :: 'x' :: rest => basedInteger? 16 (fun c => (hexValue? c).isSome) rest
  | '0' :: 'o' :: rest => basedInteger? 8 (fun c => '0' ≤ c && c ≤ '7') rest
  | '0' :: 'b' :: rest => basedInteger? 2 (fun c => c = '0' || c = '1') rest
  | _ => do
      let (negative, body) := Decimal.takeSign cs
      let n : Int := digitsValue (← wholeDigits? body)
      boundedInteger? (if negative then -n else n)

/-- The exponent at the end of a float. -/
def exponent? (cs : List Char) : Option Int := do
  let (negative, body) := Decimal.takeSign cs
  let n : Int := digitsValue (← joinedDigits? Char.isDigit body)
  some (if negative then -n else n)

/-- A float that is a number: a whole part, and a fraction or an exponent or both. One too large
for a double is refused, one too far below zero is read as negative infinity. -/
def finiteFloat? (cs : List Char) : Option Data := do
  let (negative, body) := Decimal.takeSign cs
  let isExponent (c : Char) : Bool := c = 'e' || c = 'E'
  let mantissa := body.takeWhile (!isExponent ·)
  if !body.any fun c => isExponent c || c = '.' then none
  let e ← match body.dropWhile (!isExponent ·) with
    | [] => some 0
    | _ :: rest => exponent? rest
  let whole ← wholeDigits? (mantissa.takeWhile (· ≠ '.'))
  let fraction ← match mantissa.dropWhile (· ≠ '.') with
    | [] => some []
    | _ :: rest => joinedDigits? Char.isDigit rest
  let d := Decimal.ofDigits negative whole fraction e
  if !negative && Binary64.infinity ≤ d.magnitude then none else some (.float d.toFloat)

/-- A float, the names of infinity and of not-a-number included. -/
def float? (cs : List Char) : Option Data :=
  let (negative, body) := Decimal.takeSign cs
  if body = "inf".toList then
    some (.float (Binary64.ofMagnitude negative Binary64.infinity))
  else if body = "nan".toList then some (.float Binary64.notANumber)
  else finiteFloat? cs

/-! ## Dates -/

/-- The value of a run of exactly `count` digits within bounds. -/
def field? (count low high : Nat) (cs : List Char) : Option Nat :=
  if cs.length = count ∧ cs.all Char.isDigit then
    let n := digitsValue cs
    if low ≤ n ∧ n ≤ high then some n else none
  else none

/-- The number of days in a month. -/
def daysIn (year month : Nat) : Nat :=
  if month = 2 then
    if year % 4 = 0 ∧ (year % 100 ≠ 0 ∨ year % 400 = 0) then 29 else 28
  else if month = 4 ∨ month = 6 ∨ month = 9 ∨ month = 11 then 30
  else 31

/-- Whether the characters are a date of the calendar. -/
def isDate (cs : List Char) : Bool :=
  match cs.splitOn '-' with
  | [year, month, day] =>
      match field? 4 0 9999 year, field? 2 1 12 month with
      | some y, some m => (field? 2 1 (daysIn y m) day).isSome
      | _, _ => false
  | _ => false

/-- Whether the characters are a time of day. -/
def isTime (cs : List Char) : Bool :=
  match cs.splitOn ':' with
  | [hour, minute, second] =>
      let whole := second.takeWhile (· ≠ '.')
      let fraction := second.dropWhile (· ≠ '.')
      (field? 2 0 23 hour).isSome && (field? 2 0 59 minute).isSome &&
        (field? 2 0 60 whole).isSome &&
        (fraction = [] || (fraction ≠ ['.'] && fraction.tail.all Char.isDigit))
  | _ => false

/-- Whether the characters are an offset from universal time, with its sign. -/
def isOffset (cs : List Char) : Bool :=
  match cs.splitOn ':' with
  | [hour, minute] => (field? 2 0 23 hour).isSome && (field? 2 0 59 minute).isSome
  | _ => false

/-- Whether the characters are a time of day with or without an offset. -/
def isTimeWithOffset (cs : List Char) : Bool :=
  let isMark (c : Char) : Bool := c = 'Z' || c = 'z' || c = '+' || c = '-'
  let time := cs.takeWhile (!isMark ·)
  isTime time &&
    match cs.dropWhile (!isMark ·) with
    | [] => true
    | mark :: rest => if mark = 'Z' ∨ mark = 'z' then rest = [] else isOffset rest

/-- Whether the characters are a date, a time, or a date and a time. -/
def isDateTime (cs : List Char) : Bool :=
  isDate cs || isTime cs ||
    (isDate (cs.take 10) &&
      match cs.drop 10 with
      | separator :: time =>
          (separator = 'T' || separator = 't' || separator = ' ') && isTimeWithOffset time
      | [] => false)

/-! ## Words -/

/-- Whether a character can be part of a scalar that is not a string. -/
def isWordChar (c : Char) : Bool :=
  c.isAlphanum || c = '+' || c = '-' || c = '_' || c = '.' || c = ':'

/-- The data of a scalar that is not a string. -/
def word? (cs : List Char) : Option Data :=
  if cs = "true".toList then some (.bool true)
  else if cs = "false".toList then some (.bool false)
  else if isDateTime cs then some (.record [("datetime", .text (String.ofList cs))])
  else (integer? cs).or (float? cs)

/-- The longest scalar word at the front of a text. A date takes in a time that follows after
one space. -/
def spanWord (cs : List Char) : List Char × List Char :=
  let word := cs.takeWhile isWordChar
  match cs.dropWhile isWordChar with
  | ' ' :: rest =>
      let time := rest.takeWhile isWordChar
      if isDate word && isTimeWithOffset time then
        (word ++ ' ' :: time, rest.dropWhile isWordChar)
      else (word, ' ' :: rest)
  | rest => (word, rest)

/-! ## Strings -/

/-- The character that an escape letter stands for. -/
def escaped? : Char → Option Char
  | 'b' => some '\x08'
  | 't' => some '\t'
  | 'n' => some '\n'
  | 'f' => some '\x0c'
  | 'r' => some '\r'
  | '"' => some '"'
  | '\\' => some '\\'
  | _ => none

/-- The character with a code point, if it is one. -/
def scalar? (code : Nat) : Option Char :=
  if h : code.isValidChar then some (Char.ofNatAux code h) else none

/-- The rest of a string on one line between double quotes, and the text behind it. -/
def basicString : List Char → Option (List Char × List Char)
  | [] => none
  | '"' :: rest => some ([], rest)
  | '\\' :: 'u' :: a :: b :: c :: d :: rest => do
      let char ← (hexRun? [a, b, c, d]).bind scalar?
      let (cs, rest) ← basicString rest
      some (char :: cs, rest)
  | '\\' :: 'U' :: a :: b :: c :: d :: e :: f :: g :: h :: rest => do
      let char ← (hexRun? [a, b, c, d, e, f, g, h]).bind scalar?
      let (cs, rest) ← basicString rest
      some (char :: cs, rest)
  | '\\' :: letter :: rest => do
      let char ← escaped? letter
      let (cs, rest) ← basicString rest
      some (char :: cs, rest)
  | c :: rest =>
      if isPlain c then do
        let (cs, rest) ← basicString rest
        some (c :: cs, rest)
      else none

/-- The rest of a string on one line between single quotes, and the text behind it. -/
def literalString : List Char → Option (List Char × List Char)
  | [] => none
  | c :: rest =>
      if c = '\'' then some ([], rest)
      else if isPlain c then do
        let (cs, rest) ← literalString rest
        some (c :: cs, rest)
      else none

/-- At the quotes that end a string of several lines: the quotes that still belong to it, at
most two, and the text behind the last three. -/
def closing? (quote : Char) (cs : List Char) : Option (List Char × List Char) :=
  let count := (cs.takeWhile (· = quote)).length
  if 3 ≤ count ∧ count ≤ 5 then some (List.replicate (count - 3) quote, cs.drop count) else none

/-- Whether a line break comes next, possibly after spaces and tabs. -/
def endsLine (cs : List Char) : Bool :=
  (afterNewline? (skipBlanks cs)).isSome

/-- The rest of a string of several lines between double quotes, and the text behind it. After
a backslash at the end of a line, blanks and line breaks are skipped. -/
def basicText : (skipping : Bool) → List Char → Option (List Char × List Char)
  | _, [] => none
  | _, '\\' :: 'u' :: a :: b :: c :: d :: rest => do
      let char ← (hexRun? [a, b, c, d]).bind scalar?
      let (cs, rest) ← basicText false rest
      some (char :: cs, rest)
  | _, '\\' :: 'U' :: a :: b :: c :: d :: e :: f :: g :: h :: rest => do
      let char ← (hexRun? [a, b, c, d, e, f, g, h]).bind scalar?
      let (cs, rest) ← basicText false rest
      some (char :: cs, rest)
  | skipping, c :: rest =>
      if (isBlank c || c = '\n') && skipping then basicText true rest
      else if c = '\r' then
        if rest.head? = some '\n' then basicText skipping rest else none
      else if c = '"' then
        match closing? '"' (c :: rest) with
        | some done => some done
        | none =>
            if rest.take 2 = ['"', '"'] then none
            else do
              let (cs, rest) ← basicText false rest
              some (c :: cs, rest)
      else if c = '\\' then
        if endsLine rest then basicText true rest
        else
          match rest with
          | [] => none
          | letter :: rest => do
              let char ← escaped? letter
              let (cs, rest) ← basicText false rest
              some (char :: cs, rest)
      else if isPlain c || c = '\n' then do
        let (cs, rest) ← basicText false rest
        some (c :: cs, rest)
      else none

/-- The rest of a string of several lines between single quotes, and the text behind it. -/
def literalText : List Char → Option (List Char × List Char)
  | [] => none
  | c :: rest =>
      if c = '\r' then
        if rest.head? = some '\n' then literalText rest else none
      else if c = '\'' then
        match closing? '\'' (c :: rest) with
        | some done => some done
        | none =>
            if rest.take 2 = ['\'', '\''] then none
            else do
              let (cs, rest) ← literalText rest
              some (c :: cs, rest)
      else if isPlain c || c = '\n' then do
        let (cs, rest) ← literalText rest
        some (c :: cs, rest)
      else none

/-- The text without a line break at its very front. -/
def dropNewline (cs : List Char) : List Char :=
  (afterNewline? cs).getD cs

/-- A string of any of the four kinds, and the text behind it. -/
def string? : List Char → Option (List Char × List Char)
  | '"' :: '"' :: '"' :: rest => basicText false (dropNewline rest)
  | '"' :: rest => basicString rest
  | '\'' :: '\'' :: '\'' :: rest => literalText (dropNewline rest)
  | '\'' :: rest => literalString rest
  | _ => none

end Toolpath.Toml
