import Plic.Cli

/-!
# The program

The outer layer: it loads the files that the arguments name, asks the command line what is to be
done, and writes what changed.
-/

namespace Plic

/-- The bytes of a file of the system, if it can be read. -/
def loadFile (path : String) : IO (Option (List UInt8)) := do
  try
    return some (← IO.FS.readBinFile path).toList
  catch _ => return none

/-- Where a path leads on a machine without files. -/
def systemTarget (path : String) : Except SystemError Machine.Target :=
  Machine.Directory.empty.locateFrom .start path

/-- Whether a path can be that of a file, and is not one of the system. -/
def isFilePath (path : String) : Bool :=
  match systemTarget path with
  | .ok (.file _) => true
  | .ok _ => false
  | .error _ => true

def isInputPath (path : String) : Bool :=
  match systemTarget path with
  | .ok (.device .input) => true
  | _ => false

/-- The files among some paths that can be read. -/
def loadAll (paths : List String) : IO Machine.Directory := do
  let mut d := Machine.Directory.empty
  for path in paths do
    if isFilePath path then
      if let some bytes := ← loadFile path then
        d := d.insert path { bytes := bytes, executable := true }
  return d

/-- Whether a file can be created at a path where there is none. -/
def canCreate (path : String) : IO Bool := do
  try
    IO.FS.writeBinFile path .empty
    IO.FS.removeFile path
    return true
  catch _ => return false

/-- The files with an empty one at each of some paths where one can be created. -/
def withNew (d : Machine.Directory) (paths : List String) : IO Machine.Directory := do
  let mut d := d
  for path in paths do
    if isFilePath path && (d.find? path).isNone then
      if ← canCreate path then d := d.insert path { bytes := [] }
  return d

partial def loadInput (stream : IO.FS.Stream) (read : List UInt8) : IO (List UInt8) := do
  let bytes ← stream.read 65536
  if bytes.isEmpty then return read else loadInput stream (read ++ bytes.toList)

/-- The variables of the environment that matter. -/
def loadVariables : IO (List (String × String)) := do
  let mut found := []
  for key in Credentials.Key.all do
    if let some value := ← IO.getEnv key.variableName then
      found := found ++ [(key.variableName, value)]
  return found

def Cli.Request.paths : Cli.Request → List String
  | .compile o => o.file :: o.interpreter :: o.out.toList ++ o.credentials.toList
  | _ => []

def Cli.Request.written : Cli.Request → List String
  | .compile o => o.out.toList
  | _ => []

end Plic

/-- Runs the command line and ends with its status. -/
def main (args : List String) : IO UInt32 := do
  match Plic.Cli.read args with
  | none =>
    (← IO.getStderr).putStr Plic.Cli.usage
    return 2
  | some request =>
    let directory ← Plic.withNew (← Plic.loadAll request.paths) request.written
    let wanted := request.paths.any Plic.isInputPath || match request with
      | .compile o => o.run
      | _ => false
    let input ← if wanted then Plic.loadInput (← IO.getStdin) [] else pure []
    -- no program is started from here: what cannot be told of the outside is refused
    let setting : Plic.Machine.Setting := ⟨directory, ← Plic.loadVariables, input, fun _ => none⟩
    match Plic.Cli.main? setting args with
    | none => return 2
    | some result =>
      for (path, file) in directory.changes result.directory do
        IO.FS.writeBinFile path ⟨file.bytes.toArray⟩
      (← IO.getStdout).putStr result.stdout
      (← IO.getStderr).putStr result.stderr
      return UInt32.ofNat result.exit
