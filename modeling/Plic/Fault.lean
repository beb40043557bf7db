import Plic.Token
import Plic.Tree

/-!
# What can be wrong with a program

A fault is a cause and a place. The causes are kept as data; `Fault.message` is the only place where
they are worded.
-/

namespace Plic

/-- What the parser looks for at a token. -/
inductive Sought where
  | symbol (mark : Symbol)
  | keyword (word : Keyword)
  | name
  | identifier
  | integer
  | expression
  | statement
  | relation
  | attributes
  | fileName
  | queryText
  | inputOrOutput
  | skipOrList
  | firstWhen
  | loopHead
  | endOfInput

/-- The context that makes clear which occurrence of a token is meant. -/
inductive Place where
  | unspecified
  | procedureName | afterProc | afterOptions | inOptions | afterMain | procedureHeader
  | closingProcedure | procedureEnd | afterProcedure
  | factoredList | arrayExtentOpen | arrayExtent | characterLength | precisionOpen | precision
  | declaration
  | closingGroup | closingWhile | closingLoop | closingSelect | afterEnd
  | assignmentSign | assignment
  | condition | branch
  | afterDo | afterWhile | loopCondition | doWhile | controlVariable | inLoop | loop
  | afterSelect | selectSubject | select | afterWhen | whenValues | inSelect
  | afterList | listItems | afterPut | put | afterGet | getTargets | get
  | afterFileWord | fileName | afterFile | openFile | readFile | writeFile | closeFile
  | variableOpen | variableClose
  | afterExec | afterQuery | execSql
  | afterBuiltin (function : Builtin) | arguments | afterEndfile | parenthesis | subscripts

/-- Why a program is refused. -/
inductive Fault.Cause where
  /-- The parser found another token than the one it looked for. -/
  | expected (what : Sought) (place : Place) (found : Token)
  | lateDeclaration (found : Token)
  | whenAfterOther (found : Token)
  | endLabel (label procedure : String)
  | fileName (name : String)
  /-- A call was written with a number of arguments that its function does not take. -/
  | argumentCount (function : Builtin) (count : Nat)
  /-- A call has a number of arguments for which there is no code. -/
  | callShape (function : Builtin) (count : Nat)
  | characterLength (length : Nat)
  | repeatedAttribute (spelling : String)
  | repeatedPrecision
  | precision (value : Nat)
  | fractionalBinary
  | attributeCombination (spellings : List String)
  | dimensionCount (count : Nat)
  | extent (value : Int)
  | redeclared (name : String) (line : Nat)
  | undeclaredArray (name : String)
  | notAnArray (name : String)
  | subscriptCount (name : String) (rank count : Nat)

/-- The stage of the work that refuses a program. -/
inductive Fault.Kind where
  | syntactic | declaration | subscript
deriving DecidableEq

/-- A cause and the place it concerns. -/
structure Fault where
  cause : Fault.Cause
  loc : Location

/-- The words for what was looked for. -/
def Sought.phrase : Sought → String
  | symbol mark =>
    match Symbol.spellings.find? fun s => s.2 = mark with
    | some (text, _) => "'" ++ String.ofList text ++ "'"
    | none => ""
  | keyword word =>
    match Keyword.spellings.find? fun s => s.2 = word with
    | some (text, _) => "'" ++ text ++ "'"
    | none => ""
  | name => "a name"
  | identifier => "identifier"
  | integer => "integer constant"
  | expression => "expression"
  | statement => "statement"
  | relation => "relational operator"
  | attributes => "data attributes ('fixed bin' or 'char')"
  | fileName => "quoted file name"
  | queryText => "double-quoted query text"
  | inputOrOutput => "'input' or 'output'"
  | skipOrList => "'skip' or 'list'"
  | firstWhen => "at least one 'when'"
  | loopHead => "'while', ';' or a control variable"
  | endOfInput => "end of input"

/-- The words for a context, with a blank before them unless there are none. -/
def Place.phrase : Place → String
  | unspecified => ""
  | procedureName => " after procedure name"
  | afterProc => " after 'proc'"
  | afterOptions => " after 'options'"
  | inOptions => " in options"
  | afterMain => " after 'main'"
  | procedureHeader => " after procedure header"
  | closingProcedure => " to close the procedure"
  | procedureEnd => " after procedure 'end'"
  | afterProcedure => " after the procedure"
  | factoredList => " after factored declaration list"
  | arrayExtentOpen => " before array extent"
  | arrayExtent => " after array extent"
  | characterLength => " after character length"
  | precisionOpen => " before precision"
  | precision => " after precision"
  | declaration => " after declaration"
  | closingGroup => " to close group"
  | closingWhile => " to close 'do while'"
  | closingLoop => " to close iterative 'do'"
  | closingSelect => " to close 'select'"
  | afterEnd => " after 'end'"
  | assignmentSign => " in assignment"
  | assignment => " after assignment"
  | condition => " after condition"
  | branch => " branch"
  | afterDo => " after 'do'"
  | afterWhile => " after 'while'"
  | loopCondition => " after loop condition"
  | doWhile => " after 'do while'"
  | controlVariable => " after control variable"
  | inLoop => " in iterative 'do'"
  | loop => " after iterative 'do'"
  | afterSelect => " after 'select'"
  | selectSubject => " after select subject"
  | select => " after 'select'"
  | afterWhen => " after 'when'"
  | whenValues => " after 'when' values"
  | inSelect => " in 'select'"
  | afterList => " after 'list'"
  | listItems => " after 'list' items"
  | afterPut => " after 'put'"
  | put => " after 'put'"
  | afterGet => " after 'get'"
  | getTargets => " after 'get' targets"
  | get => " after 'get'"
  | afterFileWord => " after 'file'"
  | fileName => " after file name"
  | afterFile => " after file"
  | openFile => " after 'open'"
  | readFile => " after 'read'"
  | writeFile => " after 'write'"
  | closeFile => " after 'close'"
  | variableOpen => " before variable"
  | variableClose => " after variable"
  | afterExec => " after 'exec'"
  | afterQuery => " after query"
  | execSql => " after 'exec sql'"
  | afterBuiltin function => " after '" ++ function.name ++ "'"
  | arguments => " after arguments"
  | afterEndfile => " after 'endfile'"
  | parenthesis => " after expression"
  | subscripts => " after subscripts"

namespace Fault

/-- The stage that refuses a program for a cause. -/
def Cause.kind : Cause → Kind
  | expected .. | lateDeclaration _ | whenAfterOther _ | endLabel .. | fileName _
  | argumentCount .. | callShape .. => .syntactic
  | characterLength _ | repeatedAttribute _ | repeatedPrecision | precision _ | fractionalBinary
  | attributeCombination _ | dimensionCount _ | extent _ | redeclared .. => .declaration
  | undeclaredArray _ | notAnArray _ | subscriptCount .. => .subscript

/-- The ending of a noun for a number of things. -/
def plural (n : Nat) : String := if n = 1 then "" else "s"

/-- The words for the numbers of arguments that a function takes. -/
def arity (function : Builtin) : String :=
  if function.minArgs = function.maxArgs then toString function.minArgs
  else toString function.minArgs ++ " or " ++ toString function.maxArgs

def Cause.phrase : Cause → String
  | expected what place found =>
    "Expected " ++ what.phrase ++ place.phrase ++ ", found " ++ found.describe
  | lateDeclaration found =>
    "Declarations must precede executable statements, found " ++ found.describe
  | whenAfterOther found => "'when' must precede 'other', found " ++ found.describe
  | endLabel label procedure =>
    "END label '" ++ label ++ "' does not match procedure '" ++ procedure ++ "'"
  | fileName name => "Invalid file name '" ++ name ++ "'"
  | argumentCount function count =>
    function.name ++ " takes " ++ arity function ++ " arguments, found " ++ toString count
  | callShape function count => function.name ++ " called with " ++ toString count ++ " arguments"
  | characterLength length => "Invalid character length " ++ toString length
  | repeatedAttribute spelling => "Attribute '" ++ spelling ++ "' specified more than once"
  | repeatedPrecision => "Precision specified more than once"
  | precision value => "Invalid precision " ++ toString value
  | fractionalBinary => "FIXED BINARY with a fractional scale is not supported"
  | attributeCombination spellings =>
    "Unsupported attribute combination '" ++ " ".intercalate spellings ++ "'"
  | dimensionCount count =>
    "Arrays of " ++ toString count ++ " dimensions are not supported (at most 2)"
  | extent value => "Array extent must be at least 1, found " ++ toString value
  | redeclared name line => "'" ++ name ++ "' is already declared at line " ++ toString line
  | undeclaredArray name => "'" ++ name ++ "' is not declared as an array"
  | notAnArray name => "'" ++ name ++ "' is not an array and cannot be subscripted"
  | subscriptCount name rank count =>
    "'" ++ name ++ "' has " ++ toString rank ++ " dimension" ++ plural rank
      ++ " but is referenced with " ++ toString count ++ " subscript" ++ plural count

/-- The word for a stage. -/
def Kind.phrase : Kind → String
  | syntactic => "Syntax"
  | declaration => "Declaration"
  | subscript => "Subscript"

/-- The stage that refuses the program. -/
def kind (f : Fault) : Kind := f.cause.kind

def message (f : Fault) : String :=
  f.kind.phrase ++ " error at " ++ f.loc.cite ++ ": " ++ f.cause.phrase

end Fault

end Plic
