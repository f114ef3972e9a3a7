import Toolpath.Json.Number

/-! # Reading JSON

A text is JSON if it is one value with nothing but blanks around it. Integers
that fit in 64 bits, with or without a sign, are integers; all other numbers
are doubles. A number beyond the doubles, a string with an unpaired surrogate
and an object with such a key are well formed but cannot be read.
-/

namespace Toolpath.Json

open Text

/-- What JSON says where formats disagree: a list of fields is never too long, and `null` may
stand behind the name of a choice. -/
def dialect : Dialect where
  extraItems := false
  isUnit := fun d => match d with
    | .null => true
    | _ => false

/-- The four blanks of JSON. -/
def isBlank (c : Char) : Bool :=
  c = ' ' || c = '\t' || c = '\n' || c = '\r'

/-- The text behind any blanks. -/
def skipBlanks (cs : List Char) : List Char :=
  cs.dropWhile isBlank

/-- The character that an escape letter stands for. -/
def escaped? : Char → Option Char
  | '"' => some '"'
  | '\\' => some '\\'
  | '/' => some '/'
  | 'b' => some '\x08'
  | 'f' => some '\x0c'
  | 'n' => some '\n'
  | 'r' => some '\r'
  | 't' => some '\t'
  | _ => none

/-- A piece of a string: a character, or half of one that is escaped as two surrogates. -/
inductive Piece where
  | whole (c : Char)
  | half (code : Nat)
  deriving DecidableEq, Repr

/-- The piece with a code unit of sixteen bits. -/
def Piece.ofUnit (code : Nat) : Piece :=
  if 0xD800 ≤ code ∧ code < 0xE000 then .half code else .whole (Char.ofNat code)

/-- The pieces of a string up to its closing quote, and the text behind the quote. -/
def stringPieces : List Char → Option (List Piece × List Char)
  | [] => none
  | '"' :: rest => some ([], rest)
  | '\\' :: 'u' :: a :: b :: c :: d :: rest => do
      let code ← hexRun? [a, b, c, d]
      let (pieces, rest) ← stringPieces rest
      some (.ofUnit code :: pieces, rest)
  | '\\' :: letter :: rest => do
      let c ← escaped? letter
      let (pieces, rest) ← stringPieces rest
      some (.whole c :: pieces, rest)
  | c :: rest =>
      if c.toNat < 0x20 then none
      else do
        let (pieces, rest) ← stringPieces rest
        some (.whole c :: pieces, rest)

/-- The characters of a string, if every half is paired with its other half. -/
def joinPieces : List Piece → Option (List Char)
  | [] => some []
  | .whole c :: pieces => (joinPieces pieces).map (c :: ·)
  | .half high :: .half low :: pieces =>
      if high < 0xDC00 ∧ 0xDC00 ≤ low then
        (joinPieces pieces).map
          (Char.ofNat (0x10000 + (high - 0xD800) * 0x400 + (low - 0xDC00)) :: ·)
      else none
  | .half _ :: _ => none

/-- A string behind its opening quote: its text, if it has one, and what follows it. -/
def stringBody (cs : List Char) : Option (Option String × List Char) :=
  (stringPieces cs).map fun (pieces, rest) => ((joinPieces pieces).map String.ofList, rest)

/-- The literal names. -/
def literal? (cs : List Char) : Option Data :=
  if cs = "null".toList then some .null
  else if cs = "true".toList then some (.bool true)
  else if cs = "false".toList then some (.bool false)
  else none

/-- At least one item, commas between them, up to the closing character. There are at most
`count` of them. -/
def itemsFrom {α : Type} (item : List Char → Option (α × List Char)) (close : Char) :
    (count : Nat) → List Char → Option (List α × List Char)
  | 0, _ => none
  | count + 1, cs => do
      let (a, rest) ← item cs
      match skipBlanks rest with
      | [] => none
      | c :: rest =>
          if c = ',' then do
            let (as, rest) ← itemsFrom item close count rest
            some (a :: as, rest)
          else if c = close then some ([a], rest)
          else none

/-- Any number of items up to the closing character, at most `count`. -/
def items {α : Type} (item : List Char → Option (α × List Char)) (close : Char) (count : Nat)
    (cs : List Char) : Option (List α × List Char) :=
  match skipBlanks cs with
  | [] => none
  | c :: rest => if c = close then some ([], rest) else itemsFrom item close count cs

/-- A key, a colon, and a value. -/
def member (value : List Char → Option (Data × List Char)) (cs : List Char) :
    Option ((Option String × Data) × List Char) :=
  match skipBlanks cs with
  | '"' :: rest => do
      let (key, rest) ← stringBody rest
      match skipBlanks rest with
      | ':' :: rest => do
          let (d, rest) ← value rest
          some ((key, d), rest)
      | _ => none
  | _ => none

/-- The data of an object, which must have keys that can be read. -/
def ofMembers (members : List (Option String × Data)) : Data :=
  match members.mapM fun (key, d) => key.map fun k => (k, d) with
  | some members => .record members
  | none => .void

/-- A value with at most `depth` levels and as many items on each of them as levels are left, and
the text behind it. -/
def value : (depth : Nat) → List Char → Option (Data × List Char)
  | 0, _ => none
  | depth + 1, cs =>
      match skipBlanks cs with
      | [] => none
      | c :: rest =>
          if c = '{' then
            (items (member (value depth)) '}' depth rest).map fun (ms, rest) => (ofMembers ms, rest)
          else if c = '[' then
            (items (value depth) ']' depth rest).map fun (ds, rest) => (.list ds, rest)
          else if c = '"' then
            (stringBody rest).map fun (s, rest) => ((s.map Data.text).getD .void, rest)
          else if isNumeric c then
            (number? ((c :: rest).takeWhile isNumeric)).map fun d =>
              (d, (c :: rest).dropWhile isNumeric)
          else
            (literal? ((c :: rest).takeWhile Char.isAlpha)).map fun d =>
              (d, (c :: rest).dropWhile Char.isAlpha)

/-- The data of a JSON text. Every level and every item takes up a character at least, so the
length of the text bounds both. -/
def read? (cs : List Char) : Option Data :=
  match value (cs.length + 1) cs with
  | some (d, rest) => if skipBlanks rest = [] then some d else none
  | none => none

end Toolpath.Json
