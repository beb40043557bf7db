import Plic.Text.Blank
import Plic.Text.Display
import Plic.Text.Lines

/-!
# Credentials of a database

Credentials are read from lines `key = value`, or taken from the environment. Of several values for
a key the last one counts.
-/

namespace Plic

/-- What is needed to connect to a database. -/
structure Credentials where
  host : String
  user : String
  password : String
  database : String
deriving DecidableEq

namespace Credentials

/-- The credentials for a reader who must not see the password. -/
def summary (c : Credentials) : String :=
  "Credentials \x7b host: " ++ Text.display c.host ++ ", user: " ++ Text.display c.user
    ++ ", password: " ++ Text.display "<redacted>" ++ ", database: " ++ Text.display c.database
    ++ " \x7d"

/-- The parts of credentials. -/
inductive Key where
  | host | user | password | database
deriving DecidableEq

namespace Key

/-- The parts in the order in which they are asked for. -/
def all : List Key := [host, user, password, database]

/-- The spelling of a part. -/
def name : Key → String
  | host => "host"
  | user => "user"
  | password => "password"
  | database => "database"

/-- The variable of the environment that holds a part. -/
def variableName : Key → String
  | host => "PLIPY_DB_HOST"
  | user => "PLIPY_DB_USER"
  | password => "PLIPY_DB_PASSWORD"
  | database => "PLIPY_DB_NAME"

/-- The part with the given spelling. -/
def ofName? (s : String) : Option Key := all.find? fun k => k.name = s

end Key

/-- Why a text holds no credentials. -/
inductive Fault where
  | malformed (line : Nat) (text : String)
  | unknownKey (line : Nat) (key : String)
  | missingKey (key : Key)
deriving DecidableEq

def Fault.message : Fault → String
  | malformed line text =>
    "line " ++ toString line ++ ": expected 'key = value', found '" ++ text ++ "'"
  | unknownKey line key => "line " ++ toString line ++ ": unknown credentials key '" ++ key ++ "'"
  | missingKey key => "credentials are missing the '" ++ key.name ++ "' key"

/-- The credentials with the given parts, unless one is missing; the first missing one is told. -/
def ofParts {ε : Type} (missing : Key → ε) (part : Key → Option String) : Except ε Credentials := do
  let get (k : Key) : Except ε String :=
    match part k with
    | some v => .ok v
    | none => .error (missing k)
  return ⟨← get .host, ← get .user, ← get .password, ← get .database⟩

def between? (q : Char) (text : List Char) : Option (List Char) :=
  match text with
  | c :: cs => if c = q ∧ cs.getLast? = some q then some cs.dropLast else none
  | [] => none

/-- The text without one pair of quotes around it. -/
def unquote (text : List Char) : List Char :=
  match between? '\x22' text with
  | some inner => inner
  | none => (between? '\x27' text).getD text

/-- The parts of a line at its first equals sign. -/
def splitEntry (line : List Char) : Option (List Char × List Char) :=
  if '=' ∈ line then some (line.takeWhile (· ≠ '='), (line.dropWhile (· ≠ '=')).tail) else none

def entry (n : Nat) (line : List Char) : Except Fault (Key × String) :=
  match splitEntry line with
  | none => .error (.malformed n (String.ofList line))
  | some (key, value) =>
    let name := String.ofList ((Text.trim key).map Char.toLower)
    match Key.ofName? name with
    | some k => .ok (k, String.ofList (unquote (Text.trim value)))
    | none => .error (.unknownKey n name)

/-- Whether a trimmed line holds no entry: it is empty or a comment. -/
def isIdle (line : List Char) : Bool := line.isEmpty || line.head? = some '#'

/-- The entries of lines of which the first has number `n`. -/
def entries : Nat → List (List Char) → Except Fault (List (Key × String))
  | _, [] => .ok []
  | n, line :: rest => do
    let line := Text.trim line
    if isIdle line then entries (n + 1) rest
    else
      let e ← entry n line
      return e :: (← entries (n + 1) rest)

def lastValue (es : List (Key × String)) (k : Key) : Option String :=
  es.reverse.lookup k

def parse (text : String) : Except Fault Credentials := do
  let es ← entries 1 (Text.lines text.toList)
  ofParts .missingKey (lastValue es)

/-- The credentials of an environment in which all four variables are set. -/
def ofEnvironment (lookup : String → Option String) : Option Credentials :=
  (ofParts (fun _ => ()) fun k => lookup k.variableName).toOption

end Credentials

end Plic
