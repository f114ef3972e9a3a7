import Toolpath.CommandLine.Run

/-! # The program

The files that a run can come upon are read into a file system value; the run
is carried out on that, and what it has written is written back. A file that
cannot be read or written is a fault of the run.
-/

namespace Toolpath.Main

open CommandLine

/-- The paths that a run can come upon. -/
def pathsOf (platform : Option String) (arguments : List String) : List String :=
  match parse arguments with
  | .run invocation =>
      let outputs := [PointFormat.csv, .xyz, .ply, .json].map fun format =>
        outputPath invocation.given invocation.input format
      invocation.input :: invocation.config.toList ++ platform.toList ++ outputs
  | _ => []

/-- The locations on the way to a path, the path itself included. -/
def locationsTo (current : Location) (path : String) : List Location :=
  let cs := path.toList
  let start := if cs.head? = some '/' then [] else current
  let pieces := (cs.splitOn '/').filter (· ≠ [])
  pieces.foldl (fun locations piece =>
    FileSystem.step (locations.headD start) piece :: locations) [start]

/-- The path of a location. -/
def pathOf (location : Location) : String :=
  "/" ++ "/".intercalate location

/-- What is at a location. A file that cannot be read has no content. -/
def nodeAt? (location : Location) : IO (Option FileNode) := do
  let path := (← IO.currentDir) / pathOf location
  if ← path.isDir then return some .directory
  else if ← path.pathExists then
    try
      return some (.file (← IO.FS.readBinFile path).toList)
    catch _ => return some (.file [])
  else return none

/-- The part of the file system that the paths lead through. -/
def snapshot (paths : List String) : IO FileSystem := do
  let here := ((← IO.currentDir).toString.toList.splitOn '/').filter (· ≠ [])
  let current := here.map String.ofList
  let mut fs : FileSystem := { current }
  let parents := (List.range (current.length + 1)).map fun n => current.take n
  for location in parents ++ paths.flatMap (locationsTo current) do
    if let some node ← nodeAt? location then
      fs := fs.put location node
  return fs

/-- The failure that an error is. -/
def failureOf (error : IO.Error) : IoFailure :=
  .other (toString error)

/-- What goes wrong with the files that are read. -/
def faultsOf (paths : List String) : IO Faults := do
  let mut broken : List (String × Break) := []
  for path in paths do
    let file := (← IO.currentDir) / path
    if (← file.pathExists) && !(← file.isDir) then
      try
        discard (IO.FS.readBinFile file)
      catch error =>
        broken := (path, ⟨0, failureOf error⟩) :: broken
  let found := broken
  return { reading := fun path => found.lookup path }

/-- Write what has changed. -/
def writeBack (before after : FileSystem) : IO Unit := do
  for (location, node) in after.nodes do
    if before.node? location ≠ some node then
      if let .file content := node then
        IO.FS.writeBinFile (pathOf location) ⟨content.toArray⟩

/-- The settings file of the platform. -/
def platformPath : IO (Option String) := do
  let name := "/gcodecloud/config.toml"
  match ← IO.getEnv "XDG_CONFIG_HOME" with
  | some directory =>
      if directory.startsWith "/" then return some (directory ++ name)
      else homePath name
  | none => homePath name
where
  /-- A path below the directory for settings in the home directory. -/
  homePath (name : String) : IO (Option String) := do
    return (← IO.getEnv "HOME").map (· ++ "/.config" ++ name)

end Toolpath.Main

open Toolpath in
/-- The program. -/
def main (arguments : List String) : IO UInt32 := do
  let platform ← Main.platformPath
  let paths := Main.pathsOf platform arguments
  let before ← Main.snapshot paths
  let faults ← Main.faultsOf paths
  let (outcome, after) := CommandLine.run platform arguments before faults
  let outcome ←
    try
      Main.writeBack before after
      pure outcome
    catch error =>
      let faults := { faults with creating := fun _ => some (Main.failureOf error) }
      pure (CommandLine.run platform arguments before faults).1
  IO.print outcome.stdout
  IO.eprint outcome.stderr
  return outcome.exitCode.toUInt32
