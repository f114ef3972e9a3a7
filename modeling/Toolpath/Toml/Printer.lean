import Toolpath.Document.Data
import Toolpath.Number.Style
import Toolpath.Text.Basic
import Toolpath.Toml.Scalar

/-! # Writing TOML

A document of tables is written table by table, a key to a line. A string is
written in the first of four forms in which it can stand as it is; where there
is none, it is written between double quotes with escapes.
-/

namespace Toolpath.Toml

open Text

/-! ## Strings -/

/-- How a string is written. With escapes it stands between double quotes, without them between
single ones. On one line there is one quote on either side, else there are three. -/
structure StringForm where
  escapes : Bool
  multiline : Bool
  deriving DecidableEq, Repr

namespace StringForm

/-- The quote that a form is written with. -/
def mark (form : StringForm) : Char :=
  if form.escapes then '"' else '\''

/-- The quotes on either side. -/
def delimiter (form : StringForm) : List Char :=
  List.replicate (if form.multiline then 3 else 1) form.mark

/-- How many of its own quotes a form lets stand in a row inside a string. -/
def room (form : StringForm) : Nat :=
  if form.multiline then 2 else 0

/-- The length of the longest run of a character, `current` of which stand right in front. -/
def longestRun (mark : Char) : (current : Nat) → List Char → Nat
  | current, [] => current
  | current, c :: cs =>
      if c = mark then longestRun mark (current + 1) cs
      else max current (longestRun mark 0 cs)

/-- Whether a string can stand in a form as it is. A tab may still be escaped. -/
def admits (form : StringForm) (cs : List Char) : Bool :=
  cs.all (fun c => isPlain c || (form.multiline && c = '\n')) &&
    !(form.escapes && cs.contains '\\') &&
    longestRun form.mark 0 cs ≤ form.room

/-- The forms in the order in which they are tried. -/
def all : List StringForm :=
  [⟨true, false⟩, ⟨false, false⟩, ⟨true, true⟩, ⟨false, true⟩]

/-- The form that a string is written in. -/
def choose (cs : List Char) : StringForm :=
  (all.find? (·.admits cs)).getD ⟨true, cs.contains '\n'⟩

/-- A character other than a double quote, escaped if it has to be between double quotes. A line
feed has to be only in a string on one line. -/
def escape (form : StringForm) (c : Char) : List Char :=
  if c = '\x08' then ['\\', 'b']
  else if c = '\t' then ['\\', 't']
  else if c = '\n' then if form.multiline then ['\n'] else ['\\', 'n']
  else if c = '\x0c' then ['\\', 'f']
  else if c = '\r' then ['\\', 'r']
  else if c = '\\' then ['\\', '\\']
  else if c.toNat < 0x20 ∨ c.toNat = 0x7F then '\\' :: 'u' :: hexFour true c.toNat
  else [c]

/-- The text of a string between double quotes, `current` of which stand right in front. A quote
for which there is no room in the row is escaped, and the row starts anew behind it. -/
def escapeAll (form : StringForm) : (current : Nat) → List Char → List Char
  | _, [] => []
  | current, c :: cs =>
      if c ≠ '"' then form.escape c ++ form.escapeAll 0 cs
      else if current < form.room then c :: form.escapeAll (current + 1) cs
      else '\\' :: c :: form.escapeAll 0 cs

/-- A string in a form. A line feed behind the opening quotes does not count, and one is put
there before a string that holds line feeds. -/
def render (form : StringForm) (cs : List Char) : List Char :=
  let opening := if form.multiline && cs.contains '\n' then ['\n'] else []
  let body := if form.escapes then form.escapeAll 0 cs else cs
  form.delimiter ++ opening ++ body ++ form.delimiter

end StringForm

/-- A string. -/
def quote (s : String) : List Char :=
  (StringForm.choose s.toList).render s.toList

/-! ## Documents -/

/-- A double. -/
def floatText (x : Float) : List Char :=
  if x.isFinite then Number.finiteText Number.toml x
  else if x.isNaN then "nan".toList
  else if Binary64.isNegative x then "-inf".toList
  else "inf".toList

/-- The text of a scalar. Integers must be in range, and other data is not a scalar. -/
def scalarText? : Data → Option (List Char)
  | .bool true => some "true".toList
  | .bool false => some "false".toList
  | .integer n =>
      if Number.fitsSigned64 n then
        some ((if n < 0 then ['-'] else []) ++ digits n.natAbs)
      else none
  | .float x => some (floatText x)
  | .text s => some (quote s)
  | _ => none

/-- A key with its value on a line. A key whose value is null is left out. -/
def line? (name : String) : Data → Option (List Char)
  | .null => some []
  | d => (scalarText? d).map fun text => name.toList ++ " = ".toList ++ text ++ ['\n']

/-- A table: its header and its keys. -/
def table? (name : String) (members : List (String × Data)) : Option (List Char) := do
  let lines ← members.mapM fun (key, d) => line? key d
  some ('[' :: name.toList ++ [']', '\n'] ++ lines.flatten)

/-- A document whose members are tables, with an empty line between them. -/
def print? : Data → Option String
  | .record tables => do
      let texts ← tables.mapM fun (name, d) =>
        match d with
        | .record members => table? name members
        | _ => none
      some (String.ofList (['\n'].intercalate texts))
  | _ => none

end Toolpath.Toml
