import Plic.Source.Location

/-!
# Programs as trees

The syntax of the PL/I subset: declarations, expressions, conditions and statements. Every node
holds the place it was read from. `SELECT` keeps its branches as a chain that ends with or without
an `OTHER` branch.
-/

namespace Plic

/-- The type that a list of data attributes denotes. -/
inductive DataType where
  /-- Integers, declared `FIXED BINARY (p)`. -/
  | fixedBinary (precision : Option Nat)
  /-- Decimal numbers, declared `FIXED DECIMAL (p, q)`. -/
  | fixedDecimal (precision scale : Option Nat)
  /-- Texts, declared `CHARACTER (n) VARYING`. -/
  | character (length : Nat) (varying : Bool)
deriving DecidableEq

/-- Whether values of the type are numbers. -/
def DataType.isNumeric : DataType → Bool
  | fixedBinary _ => true
  | fixedDecimal _ _ => true
  | character _ _ => false

/-- One declared name with its extents as written; none for a scalar. -/
structure Item where
  name : String
  dims : List Int
  loc : Location
deriving DecidableEq

/-- A `DCL` statement: names that share a type. -/
structure Declaration where
  items : List Item
  type : DataType
  loc : Location
deriving DecidableEq

inductive Operator where
  | add | sub | mul | div
  /-- One text behind another, written `||`. -/
  | concat
deriving DecidableEq

inductive Relation where
  | eq | ne | lt | le | gt | ge
deriving DecidableEq

/-- The functions that expressions can call. -/
inductive Builtin where
  | substr | index | decimal | mod
deriving DecidableEq

/-- The spelling of a function in messages. -/
def Builtin.name : Builtin → String
  | substr => "SUBSTR"
  | index => "INDEX"
  | decimal => "DECIMAL"
  | mod => "MOD"

/-- The least number of arguments of a function. -/
def Builtin.minArgs : Builtin → Nat
  | substr => 2
  | index => 2
  | decimal => 1
  | mod => 2

/-- The greatest number of arguments of a function. -/
def Builtin.maxArgs : Builtin → Nat
  | substr => 3
  | index => 2
  | decimal => 1
  | mod => 2

/-- Expressions. The place of an operation is that of its operator. -/
inductive Expr where
  | number (value : Int) (loc : Location)
  | text (value : String) (loc : Location)
  /-- A variable with its subscripts; none for a scalar. -/
  | var (name : String) (subscripts : List Expr) (loc : Location)
  | neg (operand : Expr) (loc : Location)
  | binary (op : Operator) (left right : Expr) (loc : Location)
  | call (function : Builtin) (args : List Expr) (loc : Location)
  /-- The value of `ENDFILE`: 1 when a `READ` has met the end of the file, else 0. -/
  | endfile (file : String) (loc : Location)

def Expr.loc : Expr → Location
  | number _ loc => loc
  | text _ loc => loc
  | var _ _ loc => loc
  | neg _ loc => loc
  | binary _ _ _ loc => loc
  | call _ _ loc => loc
  | endfile _ loc => loc

/-- A variable that a statement stores into or reads from, with its subscripts. -/
structure Reference where
  name : String
  subscripts : List Expr
  loc : Location

def Reference.toExpr (r : Reference) : Expr := .var r.name r.subscripts r.loc

/-- A comparison of two expressions. -/
structure Condition where
  left : Expr
  op : Relation
  right : Expr
  loc : Location

/-- The direction in which a file is opened. -/
inductive FileMode where
  | input | output
deriving DecidableEq

mutual

/-- Statements. -/
inductive Stmt where
  | assign (target : Reference) (value : Expr) (loc : Location)
  | ifElse (condition : Condition) (yes no : List Stmt) (loc : Location)
  | doWhile (condition : Condition) (body : List Stmt) (loc : Location)
  | doLoop (var : Reference) (start limit : Expr) (step : Option Expr) (body : List Stmt)
      (loc : Location)
  | select (subject : Expr) (branches : Branches) (loc : Location)
  | put (items : List Expr) (loc : Location)
  | get (targets : List Reference) (loc : Location)
  | openFile (file : String) (mode : FileMode) (loc : Location)
  | read (file : String) (target : Reference) (loc : Location)
  | write (file : String) (source : Reference) (loc : Location)
  | closeFile (file : String) (loc : Location)
  | query (sql : String) (target : Reference) (loc : Location)

inductive Branches where
  /-- No further branch. -/
  | done
  /-- The last branch, taken when no value is equal. -/
  | other (body : List Stmt)
  | when (values : List Expr) (body : List Stmt) (loc : Location) (rest : Branches)

end

/-- A procedure with its declarations and statements. -/
structure Program where
  name : String
  declarations : List Declaration
  statements : List Stmt
  loc : Location

end Plic
