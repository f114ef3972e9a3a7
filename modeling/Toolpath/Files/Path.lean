import Toolpath.Text.Basic

/-! # Paths

A path is a text. Slashes separate its parts; empty parts do not count, nor do
single dots except for one at the very front.
-/

namespace Toolpath.Path

open Text

/-- One part of a path. -/
inductive Part where
  | root
  | here
  | parent
  | name (chars : List Char)
  deriving DecidableEq, Repr

/-- The part that a piece between slashes is. Only the first piece of a path may be a dot. -/
def Part.ofPiece? (first : Bool) (piece : List Char) : Option Part :=
  if piece = [] then none
  else if piece = ['.'] then if first then some .here else none
  else if piece = ['.', '.'] then some .parent
  else some (.name piece)

/-- The parts of a path. -/
def parts (path : String) : List Part :=
  let cs := path.toList
  match cs.splitOn '/' with
  | [] => []
  | first :: pieces =>
      let rest := pieces.filterMap (Part.ofPiece? false)
      if cs.head? = some '/' then .root :: rest
      else (Part.ofPiece? true first).toList ++ rest

/-- The last part, if it is a name. -/
def fileName? (path : String) : Option (List Char) :=
  match (parts path).getLast? with
  | some (.name chars) => some chars
  | _ => none

/-- A file name in front of its last dot and behind it. A dot at the very front does not
count. -/
def splitName (name : List Char) : List Char × Option (List Char) :=
  let pieces := name.splitOn '.'
  let stem := ['.'].intercalate pieces.dropLast
  if pieces.length = 1 ∨ stem = [] then (name, none) else (stem, pieces.getLast?)

/-- What stands behind the last dot of the file name. -/
def extension? (path : String) : Option String :=
  ((fileName? path).bind fun name => (splitName name).2).map String.ofList

/-- The text of a part. -/
def Part.text : Part → List Char
  | .root => []
  | .here => ['.']
  | .parent => ['.', '.']
  | .name chars => chars

/-- A path read backwards without what does not count at its end: slashes, and single dots
behind them. -/
def dropEndReversed : List Char → List Char
  | '/' :: cs => dropEndReversed cs
  | '.' :: '/' :: cs => dropEndReversed ('/' :: cs)
  | cs => cs

/-- The text of a path without what does not count at its end. -/
def dropEnd (path : List Char) : List Char :=
  (dropEndReversed path.reverse).reverse

/-- The path with another extension in place of the one it has, if it has one. A path that does
not end in a name stays as it is. A name that is two dots without its extension only loses it:
two dots are the directory above, which takes no extension. -/
def withExtension (path extension : String) : String :=
  match fileName? path with
  | none => path
  | some name =>
      let body := dropEnd path.toList
      let front := body.take (body.length - name.length)
      let (stem, old) := splitName name
      if old.isSome ∧ stem = ['.'] then String.ofList (front ++ ['.', '.'])
      else String.ofList (front ++ stem ++ '.' :: extension.toList)

/-- The path of the directory that the path lies in. It is empty for a lone name, and there is
none for the root and for the empty path. -/
def parent? (path : String) : Option String :=
  match (parts path).getLast? with
  | none | some .root => none
  | some last =>
      let body := dropEnd path.toList
      let front := body.take (body.length - last.text.length)
      let trimmed := dropEnd front
      some (String.ofList (if trimmed = [] ∧ front.head? = some '/' then ['/'] else trimmed))

end Toolpath.Path
