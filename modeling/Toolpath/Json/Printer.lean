import Toolpath.Document.Data
import Toolpath.Number.Style

/-! # Writing JSON

Data is written on one line without blanks, or spread over lines that are
indented by two spaces for each level. Doubles that JSON has no number for are
written as `null`. Only quotes, backslashes and control characters are escaped.
-/

namespace Toolpath.Json

open Text

/-- A character inside a string. -/
def escape (c : Char) : List Char :=
  if c = '"' then ['\\', '"']
  else if c = '\\' then ['\\', '\\']
  else if c = '\x08' then ['\\', 'b']
  else if c = '\x0c' then ['\\', 'f']
  else if c = '\n' then ['\\', 'n']
  else if c = '\r' then ['\\', 'r']
  else if c = '\t' then ['\\', 't']
  else if c.toNat < 0x20 then '\\' :: 'u' :: hexFour false c.toNat
  else [c]

/-- A string with its quotes. -/
def quote (s : String) : List Char :=
  '"' :: s.toList.flatMap escape ++ ['"']

/-- An integer. -/
def integerText (n : Int) : List Char :=
  if n < 0 then '-' :: digits n.natAbs else digits n.natAbs

/-- A double, or `null` if it is not finite. -/
def floatText (x : Float) : List Char :=
  if x.isFinite then Number.finiteText Number.json x else "null".toList

/-- The blanks that a layout puts between the tokens. -/
structure Layout where
  /-- A line break, if there is one, and the indentation of a level. -/
  newline : Nat → List Char
  /-- What stands behind a colon. -/
  afterColon : List Char

/-- Everything on one line. -/
def compactLayout : Layout := ⟨fun _ => [], []⟩

/-- One item or member to a line, two spaces to a level. -/
def prettyLayout : Layout :=
  ⟨fun level => '\n' :: List.replicate (2 * level) ' ', [' ']⟩

/-- Items between brackets, each on a line of its own. Empty brackets stay together. -/
def bracket (layout : Layout) (level : Nat) (opening closing : Char)
    (items : List (List Char)) : List Char :=
  if items = [] then [opening, closing]
  else
    opening :: layout.newline (level + 1) ++
      (',' :: layout.newline (level + 1)).intercalate items ++ layout.newline level ++ [closing]

mutual

/-- The text of data that stands at a level. -/
def print (layout : Layout) (level : Nat) : Data → List Char
  | .null => "null".toList
  | .bool true => "true".toList
  | .bool false => "false".toList
  | .integer n => integerText n
  | .float x => floatText x
  | .text s => quote s
  | .void => "null".toList
  | .list items => bracket layout level '[' ']' (printItems layout (level + 1) items)
  | .record members => bracket layout level '{' '}' (printMembers layout (level + 1) members)

/-- The texts of the items of a list. -/
def printItems (layout : Layout) (level : Nat) : List Data → List (List Char)
  | [] => []
  | d :: ds => print layout level d :: printItems layout level ds

/-- The texts of the members of a record. -/
def printMembers (layout : Layout) (level : Nat) : List (String × Data) → List (List Char)
  | [] => []
  | (key, d) :: ms =>
      (quote key ++ ':' :: layout.afterColon ++ print layout level d) ::
        printMembers layout level ms

end

/-- The data on one line. -/
def compact (d : Data) : String :=
  String.ofList (print compactLayout 0 d)

/-- The data spread over lines. -/
def pretty (d : Data) : String :=
  String.ofList (print prettyLayout 0 d)

end Toolpath.Json
