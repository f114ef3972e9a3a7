import Toolpath.Files.Failure
import Toolpath.Files.Path
import Toolpath.Text.Utf8

/-! # The file system

A file system is a value: files and directories at locations, and the directory
that relative paths start from. Paths are walked part by part, so that a file
in the place of a directory is noticed even if the path leaves it again.
Operations that change something return the system as they leave it, also when
they fail half-way.
-/

namespace Toolpath

/-- Where something is: the names on the way from the root. -/
abbrev Location := List String

/-- What is at a location. -/
inductive FileNode where
  | file (content : List UInt8)
  | directory
  deriving DecidableEq, Repr

/-- Files and directories. -/
structure FileSystem where
  nodes : List (Location × FileNode) := []
  /-- The directory that relative paths start from. -/
  current : Location := []
  deriving DecidableEq

namespace FileSystem

open Text

/-- What is at a location. The root is always a directory. -/
def node? (fs : FileSystem) (location : Location) : Option FileNode :=
  if location = [] then some .directory else fs.nodes.lookup location

/-- The system with something else, or something new, at a location. -/
def put (fs : FileSystem) (location : Location) (node : FileNode) : FileSystem :=
  { fs with nodes := (location, node) :: fs.nodes.filter (·.1 ≠ location) }

theorem lookup_filter_ne (nodes : List (Location × FileNode)) {location other : Location}
    (h : other ≠ location) :
    (nodes.filter (·.1 ≠ location)).lookup other = nodes.lookup other := by
  induction nodes with
  | nil => rfl
  | cons entry nodes ih =>
      obtain ⟨key, node⟩ := entry
      by_cases hk : key = location
      · subst hk
        rw [List.filter_cons_of_neg (by simp), List.lookup_cons, beq_eq_false_iff_ne.mpr h]
        exact ih
      · rw [List.filter_cons_of_pos (by simp [hk]), List.lookup_cons, List.lookup_cons, ih]

/-- What was put at a location is there, and nothing else has changed. -/
theorem node?_put (fs : FileSystem) (node : FileNode) {location : Location} (other : Location)
    (h : location ≠ []) :
    (fs.put location node).node? other =
      if other = location then some node else fs.node? other := by
  by_cases ho : other = location
  · subst ho
    simp [node?, put, h]
  · have different : (other == location) = false := beq_eq_false_iff_ne.mpr ho
    by_cases hr : other = []
    · simp [node?, hr, Ne.symm h]
    · simp only [node?, put, hr, ho, if_false, List.lookup_cons, different]
      exact lookup_filter_ne fs.nodes ho

/-- The location one step further. -/
def step (location : Location) (piece : List Char) : Location :=
  if piece = ['.'] then location
  else if piece = ['.', '.'] then location.dropLast
  else location ++ [String.ofList piece]

/-- Enter a location, which must be a directory. -/
def enter (fs : FileSystem) (location : Location) : Except IoFailure Unit :=
  match fs.node? location with
  | none => .error .noSuchFile
  | some (.file _) => .error .notADirectory
  | some .directory => .ok ()

/-- Walk from a location. Every step must start in a directory; the last one need not lead to
something that exists. -/
def walk (fs : FileSystem) : Location → List (List Char) → Except IoFailure Location
  | location, [] => .ok location
  | location, piece :: pieces => do
      fs.enter location
      if 255 < (Utf8.encode piece).length then .error .nameTooLong
      else fs.walk (step location piece) pieces

/-- Where the walk along a path starts, and its steps. -/
def route (fs : FileSystem) (path : String) : Except IoFailure (Location × List (List Char)) :=
  let cs := path.toList
  if cs = [] then .error .noSuchFile
  else if cs.contains '\x00' then .error .nulInPath
  else if 4095 < (Utf8.encode cs).length then .error .nameTooLong
  else .ok (if cs.head? = some '/' then [] else fs.current, (cs.splitOn '/').filter (· ≠ []))

/-- The location that a path leads to, in a directory that exists. -/
def locate (fs : FileSystem) (path : String) : Except IoFailure Location := do
  let (start, pieces) ← fs.route path
  fs.walk start pieces

/-- Whether a path ends in a slash, and so can only be a directory. -/
def namesDirectory (path : String) : Bool :=
  path.toList.getLast? = some '/'

/-- What a path leads to. -/
def stat (fs : FileSystem) (path : String) : Except IoFailure FileNode := do
  match fs.node? (← fs.locate path) with
  | none => .error .noSuchFile
  | some .directory => .ok .directory
  | some (.file content) =>
      if namesDirectory path then .error .notADirectory else .ok (.file content)

/-- Whether a path leads to anything. -/
def doesExist (fs : FileSystem) (path : String) : Bool :=
  (fs.stat path).isOk

/-- Whether a path leads to a file. -/
def isFile (fs : FileSystem) (path : String) : Bool :=
  match fs.stat path with
  | .ok (.file _) => true
  | _ => false

/-- Whether a path leads to a directory. -/
def isDirectory (fs : FileSystem) (path : String) : Bool :=
  match fs.stat path with
  | .ok .directory => true
  | _ => false

/-- The content of a file. -/
def read (fs : FileSystem) (path : String) : Except IoFailure (List UInt8) := do
  match ← fs.stat path with
  | .file content => .ok content
  | .directory => .error .isADirectory

/-- The content of a file as text, which it must be. -/
def readText (fs : FileSystem) (path : String) : Except IoFailure (List Char) := do
  match Utf8.decode? (← fs.read path) with
  | some cs => .ok cs
  | none => .error .invalidUtf8

/-- Where a file is that is opened for writing, whether it is there or has to be created. A path
that names a directory is refused before its last step is made. -/
def place (fs : FileSystem) (path : String) : Except IoFailure Location := do
  let (start, pieces) ← fs.route path
  if namesDirectory path then
    fs.enter (← fs.walk start pieces.dropLast)
    .error .isADirectory
  else
    let location ← fs.walk start pieces
    if fs.node? location = some .directory then .error .isADirectory
    else .ok location

/-- Write a file, which is created if there is none and loses its old content if there is. -/
def write (fs : FileSystem) (path : String) (content : List UInt8) :
    Except IoFailure FileSystem := do
  let location ← fs.place path
  .ok (fs.put location (.file content))

/-- Create a directory in one that exists. -/
def makeDirectory (fs : FileSystem) (path : String) : Except IoFailure FileSystem := do
  let location ← fs.locate path
  if (fs.node? location).isSome then .error .fileExists
  else .ok (fs.put location .directory)

/-- Create a directory if it is not there, and before it those it lies in, of which there are at
most `count`. The first attempt is made on the whole path. -/
def makeDirectoriesUpTo : (count : Nat) → FileSystem → String → Except IoFailure Unit × FileSystem
  | 0, fs, _ => (.ok (), fs)
  | count + 1, fs, path =>
      let settle (fs : FileSystem) : Except IoFailure Unit × FileSystem :=
        match fs.makeDirectory path with
        | .ok after => (.ok (), after)
        | .error failure => (if fs.isDirectory path then .ok () else .error failure, fs)
      if path = "" then (.ok (), fs)
      else
        match fs.makeDirectory path with
        | .error .noSuchFile =>
            match Path.parent? path with
            | none => (.error (.other "failed to create whole tree"), fs)
            | some parent =>
                match makeDirectoriesUpTo count fs parent with
                | (.error failure, after) => (.error failure, after)
                | (.ok (), after) => settle after
        | _ => settle fs

/-- Create a directory and those it lies in, as far as they are not there. -/
def makeDirectories (fs : FileSystem) (path : String) : Except IoFailure Unit × FileSystem :=
  makeDirectoriesUpTo (path.length + 1) fs path

end FileSystem

end Toolpath
