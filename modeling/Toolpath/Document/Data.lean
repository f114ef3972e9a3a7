import Toolpath.Number.Decimal
import Toolpath.Number.Width

/-! # Document data

A document in any of the file formats is read into one kind of tree, and values
of the library are read out of that tree. Two things about a format matter to
the second step and are stated in a dialect.

A record may also be given as a list of its fields in order. Members that are
not fields are passed over, whatever they hold, so that a tree keeps a place
even for data that nothing can be read from.
-/

namespace Toolpath

/-- A document as a tree. -/
inductive Data where
  | null
  | bool (value : Bool)
  | integer (value : Int)
  | float (value : Float)
  | text (value : String)
  /-- Well-formed data that denotes nothing, such as a number that no double comes near. It can
  be passed over but not read. -/
  | void
  | list (items : List Data)
  | record (members : List (String × Data))
  deriving Inhabited

/-- What the file formats disagree about. -/
structure Dialect where
  /-- A list of fields may be longer than the record has fields. -/
  extraItems : Bool
  /-- What may stand behind the name of a choice that is written as a record with one member. -/
  isUnit : Data → Bool

namespace Data

/-- The truth value that stands here. -/
def bool? : Data → Option Bool
  | .bool b => some b
  | _ => none

/-- The natural number that stands here, if it fits. -/
def natural? (fits : Nat → Bool) : Data → Option Nat
  | .integer n => if 0 ≤ n ∧ fits n.toNat then some n.toNat else none
  | _ => none

/-- The count that stands here, which fits in 64 bits. -/
def count? : Data → Option Nat := natural? Number.fits64

/-- The small count that stands here, which fits in 32 bits. -/
def smallCount? : Data → Option Nat := natural? Number.fits32

/-- The double that stands here. An integer stands for the nearest one. -/
def float? : Data → Option Float
  | .float x => some x
  | .integer n => some (Decimal.toFloat ⟨n < 0, n.natAbs, 0⟩)
  | _ => none

/-- The text that stands here. -/
def text? : Data → Option String
  | .text s => some s
  | _ => none

/-- The choice named here, by its bare name or by a record with that one member. -/
def choice? (dialect : Dialect) : Data → Option String
  | .text s => some s
  | .record [(name, value)] => if dialect.isUnit value then some name else none
  | _ => none

/-- The list that stands here, every item being read. -/
def list? {α : Type} (item : Data → Option α) : Data → Option (List α)
  | .list items => items.mapM item
  | _ => none

/-- The value that stands here, `null` being none. -/
def nullable? {α : Type} (item : Data → Option α) : Data → Option (Option α)
  | .null => some none
  | d => (item d).map some

/-- Data for a value that may be missing. -/
def ofOption {α : Type} (item : α → Data) : Option α → Data
  | none => .null
  | some a => item a

/-- A natural number as data. -/
def ofNat (n : Nat) : Data := .integer n

end Data

/-- The fields of a record that a document gives. -/
structure Fields where
  /-- They are given in order and not by name. -/
  positional : Bool
  given : List (String × Data)

namespace Fields

/-- The fields of the record that stands here, among those with the given names. A field may be
given only once. -/
def read? (dialect : Dialect) (names : List String) : Data → Option Fields
  | .record members =>
      let given := members.filter fun member => names.contains member.1
      if (given.map Prod.fst).Nodup then some ⟨false, given⟩ else none
  | .list items =>
      if names.length < items.length && !dialect.extraItems then none
      else some ⟨true, names.zip items⟩
  | _ => none

/-- What is given for a field. -/
def get? (fields : Fields) (name : String) : Option Data :=
  fields.given.lookup name

/-- A field that has to be given. -/
def required {α : Type} (fields : Fields) (name : String) (item : Data → Option α) : Option α :=
  (fields.get? name).bind item

/-- A field that may be null, or left out where fields are given by name. -/
def optional {α : Type} (fields : Fields) (name : String) (item : Data → Option α) :
    Option (Option α) :=
  match fields.get? name with
  | some d => d.nullable? item
  | none => if fields.positional then none else some none

/-- A field that has a value when it is left out. -/
def withDefault {α : Type} (fields : Fields) (name : String) (value : α)
    (item : Data → Option α) : Option α :=
  match fields.get? name with
  | some d => item d
  | none => some value

end Fields

end Toolpath
