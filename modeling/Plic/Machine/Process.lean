import Plic.Machine.Directory

/-!
# Processes

Starting a program on a machine that has one directory of its own. Which program a name stands for,
and what is asked of the first line of a script, is the machine's business and said here. What a
program of the system then does is not: a setting comes with its programs.
-/

namespace Plic.Machine

/-- What is left of a process. -/
structure Ended where
  directory : Directory
  status : Nat
  stdout : List UInt8
  stderr : List UInt8

/-- What a process leaves, as the texts that it wrote. -/
def Ended.output (e : Ended) : RunOutput :=
  ⟨some e.status, Text.decodeLossy e.stdout, Text.decodeLossy e.stderr⟩

/-- What a program of the system is started with: the name that it is called by, its arguments, and
what it finds around it. -/
structure Call where
  name : String
  args : List String
  directory : Directory
  environment : List (String × String)
  input : List UInt8

/-- A program of the system, as what it makes of a call. -/
abbrev Program := Call → Ended

/-- What a process is started with. The programs of the system are those that can be started. -/
structure Setting where
  directory : Directory
  environment : List (String × String)
  input : List UInt8
  programs : String → Option Program

/-! ## Finding programs -/

/-- The directories in which programs are looked for, unless others are named. -/
def standardPath : String := "/usr/local/sbin:/usr/local/bin:/usr/sbin:/usr/bin:/sbin:/bin"

/-- A program by the path that it was found at, and what is there. -/
structure Found where
  path : String
  target : Target

namespace Directory

/-- Whether what is at a path can be run. -/
def runnable (d : Directory) : Target → Except SystemError Unit
  | .program _ => .ok ()
  | .file name =>
    match d.find? name with
    | some f => if f.executable then .ok () else .error .permissionDenied
    | none => .error .notFound
  | _ => .error .permissionDenied

/-- The program at a path. -/
def programAt (d : Directory) (path : String) : Except SystemError Found := do
  let target ← d.locateFrom .start path
  d.runnable target
  return ⟨path, target⟩

/-- The program with a name in one of some directories. What keeps a program from being run there
is told if it is in none of the others. -/
def programIn (d : Directory) (name : String) :
    List String → SystemError → Except SystemError Found
  | [], e => .error e
  | dir :: rest, e =>
    match d.programAt (if dir = "" then name else dir ++ "/" ++ name) with
    | .ok f => .ok f
    | .error .notFound => d.programIn name rest e
    | .error .notADirectory => d.programIn name rest e
    | .error e => d.programIn name rest e

/-- The program that a name stands for. A name with a slash is a path. -/
def findProgram (d : Directory) (path : Option String) (name : String) :
    Except SystemError Found :=
  if name = "" then .error .notFound
  else if '/' ∈ name.toList then d.programAt name
  else d.programIn name ((path.getD standardPath).splitOn ":") .notFound

end Directory

/-! ## Scripts -/

def longestArgument : Nat := 131071

def fitArguments (args : List String) : Bool := args.all fun a => a.utf8ByteSize ≤ longestArgument

/-- How much of a script the system looks at for the name of its interpreter. -/
def firstBytes : Nat := 256

/-- The first line of a script behind its mark. One that is longer than what is looked at is cut,
but not in the name of the interpreter. -/
def firstLine (bytes : List UInt8) : Except SystemError (List UInt8) :=
  let isBlank := fun (b : UInt8) => b = 32 || b = 9
  let seen := bytes.take (firstBytes - 2)
  if 10 ∈ seen || bytes.length < firstBytes - 2 then .ok (seen.takeWhile (· ≠ 10))
  else
    let cut := seen.dropLast
    if (cut.dropWhile isBlank).any isBlank then .ok cut else .error .formatError

/-- The interpreter that the first line of a script names, and its argument. -/
def interpreterOf (bytes : List UInt8) : Except SystemError (String × Option String) :=
  match bytes with
  | 35 :: 33 :: rest => do
    let isBlank := fun (b : UInt8) => b = 32 || b = 9
    let line := ((← firstLine rest).reverse.dropWhile isBlank).reverse.dropWhile isBlank
    let name := line.takeWhile fun b => !isBlank b
    let argument := (line.drop name.length).dropWhile isBlank
    if name.isEmpty then throw .formatError
    else
      return (Text.decodeLossy name,
        if argument.isEmpty then none else some (Text.decodeLossy argument))
  | _ => .error .formatError

/-- What the system runs for a program: one of its own, with its name and arguments. A script gives
way to its interpreter, which may be a script in turn. -/
def Directory.resolve (d : Directory) :
    Nat → Found → String → List String → Except SystemError (String × String × List String)
  | 0, _, _, _ => .error .formatError
  | n + 1, f, name, args =>
    match f.target with
    | .program program => .ok (program, name, args)
    | .file file => do
      let (interpreter, argument) ← interpreterOf (((d.find? file).map (·.bytes)).getD [])
      let g ← d.programAt interpreter
      d.resolve n g interpreter (argument.toList ++ f.path :: args)
    | _ => .error .permissionDenied

/-- How many scripts may be interpreted by one another. -/
def scriptDepth : Nat := 6

namespace Setting

/-! ## Files -/

/-- The bytes that are read at a path. -/
def read (w : Setting) (path : String) : Except SystemError (List UInt8) := do
  match ← w.directory.locateFrom .start path with
  | .file name =>
    match w.directory.find? name with
    | some f => return f.bytes
    | none => throw .notFound
  | .folder _ => throw .isADirectory
  | .program _ => return Directory.programBytes
  | .record text => return Text.encode text
  | .device .input => return w.input
  | .device .terminal => throw .noDevice
  | .device _ => return []

/-- The text that is read at a path. -/
def readText (w : Setting) (path : String) : Except SystemError String := do
  match Text.decode? (← w.read path) with
  | some text => return text
  | none => throw .invalidText

/-- The setting after a path was read. The input is there only once. -/
def afterRead (w : Setting) (path : String) : Setting :=
  match w.directory.locateFrom .start path with
  | .ok (.device .input) => { w with input := [] }
  | _ => w

/-- The setting after a text was written, and what of it went to the streams. -/
structure Written where
  setting : Setting
  stdout : String := ""
  stderr : String := ""

/-- Writes a text at a path. -/
def write (w : Setting) (path text : String) : Except SystemError Written := do
  match ← w.directory.placeFrom .start path with
  | .file name =>
    let d := w.directory.overwrite name (Text.encode text)
    return { setting := { w with directory := d } }
  | .folder _ => throw .isADirectory
  | .program _ => throw .permissionDenied
  | .record _ => throw .permissionDenied
  | .device .output => return { setting := w, stdout := text }
  | .device .errors => return { setting := w, stderr := text }
  | .device .full => if text = "" then return { setting := w } else throw .noSpace
  | .device .terminal => throw .noDevice
  | .device .null => return { setting := w }
  | .device .endless => return { setting := w }
  | .device .input => return { setting := w }

/-! ## Programs -/

/-- Starts a program: one of the system by its name or path, or a script of the directory. -/
def start (w : Setting) (program : String) (args : List String) : Except SystemError Ended := do
  if (program :: args).any fun a => '\x00' ∈ a.toList then throw .nullInArgument
  let found ← w.directory.findProgram (w.environment.lookup "PATH") program
  if !fitArguments (program :: args) then throw .argumentsTooLong
  let (own, name, args) ← w.directory.resolve scriptDepth found program args
  match w.programs own with
  | some p => return p ⟨name, args, w.directory, w.environment, w.input⟩
  | none => throw .permissionDenied

/-- Runs code with an interpreter, which is told how to encode what it writes. -/
def execute (w : Setting) (interpreter code : String) : Except RunFault Ended :=
  let others := w.environment.filter fun v => v.1 ≠ "PYTHONIOENCODING"
  let w := { w with environment := ("PYTHONIOENCODING", "utf-8") :: others }
  match w.start interpreter ["-c", code] with
  | .ok e => .ok e
  | .error reason => .error (.notStarted interpreter reason)

/-- Whether an interpreter can be started and tells its version. -/
def isAvailable (w : Setting) (interpreter : String) : Bool :=
  match w.start interpreter ["--version"] with
  | .ok e => e.status = 0
  | .error _ => false

/-- The interpreter with a name, as the viewer uses it. -/
def interpreter (w : Setting) (name : String) : Interpreter :=
  ⟨name, fun code => (w.execute name code).map Ended.output⟩

end Setting

end Plic.Machine
