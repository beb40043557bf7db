import Plic.Compile
import Plic.Machine.Process

/-!
# The command line

Arguments are read into options from left to right, and the first one that cannot be read ends the
reading. What a command then does is a function of the options and of the machine: the files, the
environment and the input.
-/

namespace Plic.Cli

/-- What the arguments ask for. -/
structure Options where
  file : String
  /-- Where the code goes, unless it is written to the output. -/
  out : Option String := none
  /-- Whether the code is run. -/
  run : Bool := false
  /-- Whether the code is looked at in the viewer. -/
  view : Bool := false
  credentials : Option String := none
  interpreter : String := "python3"
  indent : Option Nat := none
  verbose : Bool := false

/-- A reading of the arguments. -/
inductive Request where
  | compile (options : Options)
  | version
  | help

/-! ## Reading arguments -/

/-- The options that can be given, by their long names. -/
inductive Name where
  | out | run | tui | credentials | python | indent | verbose | version | help
deriving DecidableEq

def Name.ofLong? (s : String) : Option Name :=
  [("out", Name.out), ("run", .run), ("tui", .tui), ("credentials", .credentials),
    ("python", .python), ("indent", .indent), ("verbose", .verbose), ("version", .version),
    ("help", .help)].lookup s

def Name.ofShort? (c : Char) : Option Name :=
  [('o', Name.out), ('v', .verbose), ('V', .version), ('h', .help)].lookup c

/-- Whether an option has a value. -/
def Name.hasValue : Name → Bool
  | out => true
  | credentials => true
  | python => true
  | indent => true
  | _ => false

/-- The arguments read so far: the options with their values, and the file. -/
structure Reading where
  given : List (Name × String) := []
  file : Option String := none

/-- The reading with one option more; none if it was given before. -/
def Reading.add (r : Reading) (name : Name) (value : String) : Option Reading :=
  if (r.given.lookup name).isSome then none else some { r with given := r.given ++ [(name, value)] }

/-- The greatest width that can be written. -/
def maxWord : Nat := 0xFFFFFFFFFFFFFFFF

/-- The number that digits spell, behind an optional plus sign. -/
def number? (s : String) : Option Nat :=
  let digits := match s.toList with
    | '+' :: cs => cs
    | cs => cs
  if digits ≠ [] ∧ digits.all Char.isDigit then
    let n := Lexer.digitsValue digits
    if n ≤ maxWord then some n else none
  else none

/-- Whether a value is good for an option. -/
def Name.accepts : Name → String → Bool
  | indent, value => (number? value).isSome
  | _, value => value ≠ ""

/-- The reading with the value of an option, or none if the value is not good. -/
def Reading.addValue (r : Reading) (name : Name) (value : String) : Option Reading :=
  if name.accepts value then r.add name value else none

/-- Whether an argument cannot be the value of the option before it. -/
def looksLikeOption (arg : String) : Bool :=
  match arg.toList with
  | '-' :: _ :: _ => true
  | _ => false

/-- The parts of a long option at its equals sign. -/
def splitLong (cs : List Char) : String × Option String :=
  if '=' ∈ cs then
    (String.ofList (cs.takeWhile (· ≠ '=')), some (String.ofList (cs.dropWhile (· ≠ '=')).tail))
  else (String.ofList cs, none)

/-- The value written in one argument with a short option; the equals sign may be there or not. -/
def attachedValue (cs : List Char) : String :=
  match cs with
  | '=' :: rest => String.ofList rest
  | _ => String.ofList cs

/-- What a step of reading says. -/
inductive Outcome where
  /-- Go on; an option may wait for its value. -/
  | more (reading : Reading) (waiting : Option Name)
  | stop (request : Request)
  /-- The arguments cannot be read. -/
  | refused

/-- What a reading means that may have been refused. -/
def Outcome.ofReading : Option Reading → Outcome
  | some r => .more r none
  | none => .refused

/-- Takes an option without value. -/
def flag (r : Reading) (name : Name) : Outcome :=
  match name with
  | .version => .stop .version
  | .help => .stop .help
  | _ => .ofReading (r.add name "")

/-- Reads a long option behind its two hyphens. -/
def long (r : Reading) (cs : List Char) : Outcome :=
  let (text, value) := splitLong cs
  match Name.ofLong? text, value with
  | none, _ => .refused
  | some name, some v => if name.hasValue then .ofReading (r.addValue name v) else .refused
  | some name, none => if name.hasValue then .more r (some name) else flag r name

/-- Reads short options behind their hyphen. -/
def short (r : Reading) : List Char → Outcome
  | [] => .more r none
  | c :: cs =>
    match Name.ofShort? c with
    | none => .refused
    | some name =>
      if name.hasValue then
        if cs.isEmpty then .more r (some name) else .ofReading (r.addValue name (attachedValue cs))
      else
        match flag r name with
        | .more r' _ => short r' cs
        | outcome => outcome

/-- Takes the name of the file, of which there is only one. -/
def positional (r : Reading) (arg : String) : Outcome :=
  if r.file.isNone ∧ arg ≠ "" then .more { r with file := some arg } none else .refused

def argument (r : Reading) (arg : String) : Outcome :=
  match arg.toList with
  | '-' :: '-' :: cs => long r cs
  | '-' :: c :: cs => short r (c :: cs)
  | _ => positional r arg

/-- Reads the arguments behind a reading; `plain` says that options are no longer looked for. -/
def readFrom : Bool → Option Name → Reading → List String → Option (Reading ⊕ Request)
  | _, some _, _, [] => none
  | _, none, r, [] => some (.inl r)
  | plain, some name, r, arg :: rest =>
    if looksLikeOption arg then none
    else
      match r.addValue name arg with
      | some r' => readFrom plain none r' rest
      | none => none
  | true, none, r, arg :: rest =>
    match positional r arg with
    | .more r' _ => readFrom true none r' rest
    | _ => none
  | false, none, r, arg :: rest =>
    if arg = "--" then readFrom true none r rest
    else
      match argument r arg with
      | .more r' waiting => readFrom false waiting r' rest
      | .stop request => some (.inr request)
      | .refused => none

def Reading.options (r : Reading) : Option Options :=
  r.file.map fun file =>
    { file := file
      out := r.given.lookup .out
      run := (r.given.lookup .run).isSome
      view := (r.given.lookup .tui).isSome
      credentials := r.given.lookup .credentials
      interpreter := (r.given.lookup .python).getD "python3"
      indent := (r.given.lookup .indent).bind number?
      verbose := (r.given.lookup .verbose).isSome }

/-- What the arguments ask for, unless they cannot be read. -/
def read (args : List String) : Option Request :=
  match readFrom false none {} args with
  | some (.inl r) => r.options.map .compile
  | some (.inr request) => some request
  | none => none

/-! ## Doing what is asked -/

/-- What a command leaves behind. -/
structure Result where
  exit : Nat
  stdout : String
  stderr : String
  directory : Machine.Directory

/-- What a command writes and does, or why it gives up. -/
abbrev Work (α : Type) := Except String α

/-- The reason for giving up, worded. -/
def orGiveUp {ε α : Type} (message : ε → String) : Except ε α → Work α
  | .ok a => .ok a
  | .error e => .error (message e)

def config (w : Machine.Setting) (o : Options) : Work Config := do
  let c ← match o.indent with
    | some width => orGiveUp ConfigFault.message (({} : Config).withIndent width)
    | none => .ok {}
  let found ← orGiveUp ConfigFault.message
    (Credentials.find w.readText (fun key => w.environment.lookup key) o.credentials)
  return { c with credentials := found.map Prod.fst }

/-- The code for the file that the options name. -/
def compiled (w : Machine.Setting) (o : Options) : Work Compiled := do
  let source ← orGiveUp (fun e => "cannot read '" ++ o.file ++ "': " ++ SystemError.message e)
    (w.readText o.file)
  let c ← config (w.afterRead o.file) o
  orGiveUp Fault.message (compile c source)

def afterReading (w : Machine.Setting) (o : Options) : Machine.Setting :=
  o.credentials.toList.foldl Machine.Setting.afterRead (w.afterRead o.file)

/-- What is changed by putting the code where the options say. -/
def store (w : Machine.Setting) (o : Options) (code : String) : Work Machine.Setting.Written :=
  match o.out with
  | none => .ok { setting := w }
  | some path =>
    orGiveUp (fun e => "cannot write '" ++ path ++ "': " ++ SystemError.message e)
      (w.write path code)

/-- The lines about what was dropped from the source. -/
def warnings (c : Compiled) : String :=
  Text.unlines (c.diagnostics.map fun d => "warning: " ++ d.display)

/-- The result of a command that gave up after it had written something. -/
def failed (d : Machine.Directory) (stdout stderr message : String) : Result :=
  ⟨1, stdout, stderr ++ "Error: " ++ message ++ "\n", d⟩

/-- Runs code that was stored already, after something had been written. -/
def runCode (w : Machine.Setting) (o : Options) (stdout stderr code : String) : Result :=
  match w.execute o.interpreter code with
  | .error f => failed w.directory stdout stderr f.message
  | .ok e => ⟨e.status, stdout ++ e.output.stdout, stderr ++ e.output.stderr, e.directory⟩

/-- Does what the options ask for. -/
def perform (w : Machine.Setting) (o : Options) : Result :=
  match compiled w o with
  | .error message => failed w.directory "" "" message
  | .ok c =>
    match store (afterReading w o) o c.code with
    | .error message => failed w.directory "" (warnings c) message
    | .ok t =>
      let stderr := warnings c ++ t.stderr
      if o.run then runCode t.setting o t.stdout stderr c.code
      else ⟨0, if o.out.isSome then t.stdout else c.code, stderr, t.setting.directory⟩

/-- How the program is called. -/
def usage : String :=
  Text.unlines [
    "Usage: plipy [OPTIONS] <FILE>",
    "",
    "  -o, --out <PATH>          write the generated program here",
    "      --run                 run the generated program",
    "      --credentials <PATH>  file with the credentials of the database",
    "      --python <PATH>       interpreter for --run [default: python3]",
    "      --indent <N>          blanks for a level of nesting",
    "  -v, --verbose             say more",
    "  -h, --help                print help",
    "  -V, --version             print version"]

/-- Does what the arguments ask for; nothing if they cannot be read. -/
def main? (w : Machine.Setting) (args : List String) : Option Result :=
  (read args).map fun
    | .version => ⟨0, version ++ "\n", "", w.directory⟩
    | .help => ⟨0, usage, "", w.directory⟩
    | .compile o => perform w o

end Plic.Cli
