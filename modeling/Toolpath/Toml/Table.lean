import Toolpath.Document.Data

/-! # TOML tables

A document fills a tree of tables. A table comes into being by a header of its
own, because a header below it implies it, or through a dotted key, and this
decides what may still be added: a header may open a table once, and only if it
was implied so far; a dotted key may add only to tables that dotted keys have
made, and may pass through those and implied ones.
-/

namespace Toolpath.Toml

/-- What brought a table into being. -/
inductive Origin where
  /-- Its own header. -/
  | header
  /-- The header of a table below it. -/
  | implied
  /-- A dotted key. -/
  | dotted
  deriving DecidableEq, Repr

/-- What a key stands for while the document is read. -/
inductive Node where
  | value (data : Data)
  | table (origin : Origin) (members : List (String × Node))
  /-- Tables under one name, each with a header of its own. -/
  | tables (elements : List (List (String × Node)))
  deriving Inhabited

/-- The members of a table while it is filled. -/
abbrev Members := List (String × Node)

namespace Members

/-- The members with the one of this name replaced. -/
def replace (members : Members) (name : String) (node : Node) : Members :=
  members.map fun member => if member.1 = name then (name, node) else member

/-- The members with one more, whose name must be new. -/
def insertNew? (members : Members) (name : String) (node : Node) : Option Members :=
  if (members.lookup name).isSome then none else some (members ++ [(name, node)])

/-- Change the table that a path leads to. Tables missing on the way come into being with the
given origin; through a list of tables the path goes to the last of them. A path of dotted keys
does not enter a table that has a header. -/
def at? (origin : Origin) (change : Origin → Members → Option Members) :
    List String → Origin → Members → Option Members
  | [], here, members => change here members
  | name :: path, _, members =>
      match members.lookup name with
      | none => do
          let below ← at? origin change path origin []
          some (members ++ [(name, .table origin below)])
      | some (.value _) => none
      | some (.table there below) =>
          if origin = .dotted ∧ there = .header then none
          else do
            let below ← at? origin change path there below
            some (replace members name (.table there below))
      | some (.tables elements) => do
          let last ← elements.getLast?
          let last ← at? origin change path .header last
          some (replace members name (.tables (elements.dropLast ++ [last])))

/-- The members after a header that opens the table `name` in this table. -/
def openTable? (name : String) (members : Members) : Option Members :=
  match members.lookup name with
  | none => some (members ++ [(name, .table .header [])])
  | some (.table .implied below) => some (replace members name (.table .header below))
  | some _ => none

/-- The members after a header that starts one more of the tables `name` in this table. -/
def openElement? (name : String) (members : Members) : Option Members :=
  match members.lookup name with
  | none => some (members ++ [(name, .tables [[]])])
  | some (.tables elements) => some (replace members name (.tables (elements ++ [[]])))
  | some _ => none

/-- The members after a key with its value. The dotted keys in front of the last one lead to a
table that such keys have made. -/
def assign? (path : List String) (name : String) (data : Data) (here : Origin)
    (members : Members) : Option Members :=
  let change (there : Origin) (members : Members) : Option Members :=
    if path ≠ [] ∧ there ≠ .dotted then none else insertNew? members name (.value data)
  at? .dotted change path here members

end Members

mutual

/-- The data that a node stands for once the document is read. -/
def Node.data : Node → Data
  | .value d => d
  | .table _ members => .record (Node.memberData members)
  | .tables elements => .list (Node.elementData elements)

/-- The data of the members of a table. -/
def Node.memberData : List (String × Node) → List (String × Data)
  | [] => []
  | (name, node) :: members => (name, node.data) :: Node.memberData members

/-- The data of tables under one name. -/
def Node.elementData : List (List (String × Node)) → List Data
  | [] => []
  | members :: elements => .record (Node.memberData members) :: Node.elementData elements

end

end Toolpath.Toml
