import Toolpath.Toml.Scalar
import Toolpath.Toml.Table

/-! # Reading TOML

A document is a sequence of lines: blank ones, comments, table headers, and keys
with values. Values nest to a limited depth.
-/

namespace Toolpath.Toml

open Text

/-- What TOML says where formats disagree: a list of fields may be longer than the record, and
an empty list or record may stand behind the name of a choice. -/
def dialect : Dialect where
  extraItems := true
  isUnit := fun d => match d with
    | .list [] => true
    | .record [] => true
    | _ => false

/-- How deep values may nest, and how many parts a dotted key may have, plus one. -/
def depthLimit : Nat := 80

/-- The text behind a comment, which ends at the end of its line. -/
def comment? (cs : List Char) : Option (List Char) :=
  let rest := cs.dropWhile isPlain
  if rest = [] ∨ (afterNewline? rest).isSome then some rest else none

/-- The text behind the end of a line, before which blanks and a comment may stand. -/
def lineEnd? (cs : List Char) : Option (List Char) := do
  let rest ← match skipBlanks cs with
    | '#' :: rest => comment? rest
    | rest => some rest
  if rest = [] then some [] else afterNewline? rest

/-- The text behind any blanks, line breaks and comments. A comment ends at the end of its line,
and there must be one. -/
def skipSpace : (inComment : Bool) → List Char → Option (List Char)
  | _, [] => some []
  | inComment, c :: cs =>
      if c = '\n' then skipSpace false cs
      else if c = '\r' && cs.head? = some '\n' then skipSpace inComment cs
      else if inComment then if isPlain c then skipSpace true cs else none
      else if isBlank c then skipSpace false cs
      else if c = '#' then skipSpace true cs
      else some (c :: cs)

/-- Whether a character may stand in a key without quotes. -/
def isKeyChar (c : Char) : Bool :=
  c.isAlphanum || c = '_' || c = '-'

/-- One part of a key, and the text behind it. -/
def simpleKey? (cs : List Char) : Option (String × List Char) :=
  match cs with
  | '"' :: rest => (basicString rest).map fun (s, rest) => (String.ofList s, rest)
  | '\'' :: rest => (literalString rest).map fun (s, rest) => (String.ofList s, rest)
  | _ =>
      let word := cs.takeWhile isKeyChar
      if word = [] then none else some (String.ofList word, cs.dropWhile isKeyChar)

/-- The parts of a key, at most `count`, with blanks around each, and the text behind them. -/
def keyParts? : (count : Nat) → List Char → Option (List String × List Char)
  | 0, _ => none
  | count + 1, cs => do
      let (part, rest) ← simpleKey? (skipBlanks cs)
      match skipBlanks rest with
      | '.' :: rest => do
          let (parts, rest) ← keyParts? count rest
          some (part :: parts, rest)
      | rest => some ([part], rest)

/-- A key as the path to it and its last part, and the text behind it. -/
def key? (cs : List Char) : Option ((List String × String) × List Char) := do
  let (parts, rest) ← keyParts? (depthLimit - 1) cs
  let last ← parts.getLast?
  some ((parts.dropLast, last), rest)

/-- At least one item and the commas between them, up to the closing bracket. A comma may stand
behind the last one. There are at most `count` of them. -/
def arrayItems (item : List Char → Option (Data × List Char)) :
    (count : Nat) → List Char → Option (List Data × List Char)
  | 0, _ => none
  | count + 1, cs => do
      let (d, rest) ← item cs
      match ← skipSpace false rest with
      | ',' :: rest => do
          match ← skipSpace false rest with
          | ']' :: rest => some ([d], rest)
          | rest => do
              let (ds, rest) ← arrayItems item count rest
              some (d :: ds, rest)
      | ']' :: rest => some ([d], rest)
      | _ => none

/-- The items of an array behind its opening bracket, at most `count`, and the text behind it. -/
def array? (item : List Char → Option (Data × List Char)) (count : Nat) (cs : List Char) :
    Option (List Data × List Char) := do
  match ← skipSpace false cs with
  | ']' :: rest => some ([], rest)
  | rest => arrayItems item count rest

/-- A key, an equals sign and a value. -/
def assignment? (value : List Char → Option (Data × List Char)) (cs : List Char) :
    Option ((List String × String × Data) × List Char) := do
  let ((path, name), rest) ← key? cs
  match rest with
  | '=' :: rest => do
      let (d, rest) ← value (skipBlanks rest)
      some ((path, name, d), rest)
  | _ => none

/-- At least one assignment and the commas between them, up to the closing brace, all in one
line. There are at most `count` of them. -/
def inlineMembers (value : List Char → Option (Data × List Char)) :
    (count : Nat) → Members → List Char → Option (Members × List Char)
  | 0, _, _ => none
  | count + 1, members, cs => do
      let ((path, name, d), rest) ← assignment? value cs
      let members ← members.assign? path name d .header
      match skipBlanks rest with
      | ',' :: rest => inlineMembers value count members rest
      | '}' :: rest => some (members, rest)
      | _ => none

/-- The members of a table in braces behind its opening brace, at most `count`, and the text behind
it. -/
def inlineTable? (value : List Char → Option (Data × List Char)) (count : Nat)
    (cs : List Char) : Option (Members × List Char) :=
  match skipBlanks cs with
  | '}' :: rest => some ([], rest)
  | rest => inlineMembers value count [] rest

/-- A value with at most `depth` levels of brackets and `count` items between any two of them, and
the text behind it. -/
def value (count : Nat) : (depth : Nat) → List Char → Option (Data × List Char)
  | 0, cs => scalar cs
  | depth + 1, cs =>
      match cs with
      | '[' :: rest =>
          (array? (value count depth) count rest).map fun (ds, rest) => (.list ds, rest)
      | '{' :: rest =>
          (inlineTable? (value count depth) count rest).map fun (ms, rest) =>
            (.record (Node.memberData ms), rest)
      | cs => scalar cs
where
  /-- A value without brackets. -/
  scalar (cs : List Char) : Option (Data × List Char) :=
    match cs with
    | '"' :: _ | '\'' :: _ =>
        (string? cs).map fun (s, rest) => (.text (String.ofList s), rest)
    | _ =>
        let (word, rest) := spanWord cs
        (word? word).map fun d => (d, rest)

/-- Where the keys of the next lines go, and the tables read so far. -/
structure Progress where
  path : List String := []
  root : Members := []

/-- The progress after the header of a table. -/
def Progress.openTable? (progress : Progress) (path : List String) (name : String) :
    Option Progress := do
  let root ← Members.at? .implied (fun _ => Members.openTable? name) path .header progress.root
  some ⟨path ++ [name], root⟩

/-- The progress after the header of one of several tables. -/
def Progress.openElement? (progress : Progress) (path : List String) (name : String) :
    Option Progress := do
  let root ← Members.at? .implied (fun _ => Members.openElement? name) path .header progress.root
  some ⟨path ++ [name], root⟩

/-- The progress after a key with its value. -/
def Progress.assign? (progress : Progress) (path : List String) (name : String) (data : Data) :
    Option Progress := do
  let root ← Members.at? .implied (Members.assign? path name data) progress.path .header
    progress.root
  some { progress with root }

/-- One statement and the end of its line. No list in it has more than `count` items. -/
def statement? (count : Nat) (progress : Progress) (cs : List Char) :
    Option (Progress × List Char) :=
  match cs with
  | '[' :: '[' :: rest => do
      let ((path, name), rest) ← key? rest
      match rest with
      | ']' :: ']' :: rest => do
          let progress ← progress.openElement? path name
          some (progress, ← lineEnd? rest)
      | _ => none
  | '[' :: rest => do
      let ((path, name), rest) ← key? rest
      match rest with
      | ']' :: rest => do
          let progress ← progress.openTable? path name
          some (progress, ← lineEnd? rest)
      | _ => none
  | _ => do
      let ((path, name, d), rest) ← assignment? (value count (depthLimit - 1)) cs
      let progress ← progress.assign? path name d
      some (progress, ← lineEnd? rest)

/-- All statements to the end of the document, with lines that hold nothing between them. There
are at most `left` statements to come, and no list has more than `count` items. -/
def statements (count : Nat) : (left : Nat) → Progress → List Char → Option Progress
  | 0, progress, cs => if cs = [] then some progress else none
  | left + 1, progress, cs => do
      match ← skipSpace false cs with
      | [] => some progress
      | cs => do
          let (progress, rest) ← statement? count progress cs
          statements count left progress rest

/-- The text without a byte order mark at its front. -/
def dropMark : List Char → List Char
  | '\uFEFF' :: cs => cs
  | cs => cs

/-- The data of a TOML document. Every statement and every item takes up a character at least, so
the length of the document bounds both. -/
def read? (cs : List Char) : Option Data := do
  let cs := dropMark cs
  let progress ← statements cs.length (cs.length + 1) {} cs
  some (.record (Node.memberData progress.root))

end Toolpath.Toml
