import Plic.Fault
import Plic.Python.Stmt
import Plic.Python.Name

/-!
# Storage of variables

A scalar is one value. An array is a list, or a list of rows, with one slot more at each end of a
dimension than its extent says. Subscripts count from 1, so a subscript within the extent selects a
slot directly and never one of the outer slots.
-/

namespace Plic

/-- The dimensions of a variable. -/
inductive Shape where
  | scalar
  | vector (extent : Nat)
  | matrix (rows columns : Nat)
deriving DecidableEq

namespace Shape

/-- The number of subscripts that select a value. -/
def rank : Shape → Nat
  | scalar => 0
  | vector _ => 1
  | matrix _ _ => 2

def slots (extent : Nat) : Nat := extent + 2

/-- The number of slots in each dimension; a scalar has no dimensions. -/
def physical : Shape → List Nat
  | scalar => []
  | vector n => [slots n]
  | matrix n m => [slots n, slots m]

/-- The shape with the given extents: at most two of them, and each at least 1. -/
def ofExtents (dims : List Int) : Except Fault.Cause Shape :=
  if 2 < dims.length then .error (.dimensionCount dims.length)
  else
    match dims.find? (· < 1), dims with
    | some n, _ => .error (.extent n)
    | none, [] => .ok scalar
    | none, [n] => .ok (vector n.toNat)
    | none, n :: m :: _ => .ok (matrix n.toNat m.toNat)

end Shape

structure Variable where
  name : String
  type : DataType
  shape : Shape
  loc : Location
deriving DecidableEq

namespace Variable

def ofItem (type : DataType) (item : Item) : Except Fault Variable :=
  match Shape.ofExtents item.dims with
  | .ok shape => .ok ⟨item.name, type, shape, item.loc⟩
  | .error cause => .error ⟨cause, item.loc⟩

/-- What each slot holds at first. -/
def initialElement (v : Variable) : Python.Expr :=
  if v.type.isNumeric then .int 0 else .str ""

/-- What the variable holds at first. The rows of a matrix are computed one by one, so that no two
are the same list. -/
def initialValue (v : Variable) : Python.Expr :=
  match v.shape with
  | .scalar => v.initialElement
  | .vector n => .binary .mul (.single v.initialElement) (.int (Shape.slots n))
  | .matrix n m =>
    .replicate (.binary .mul (.single v.initialElement) (.int (Shape.slots m)))
      (.int (Shape.slots n))

/-- The statement that gives the variable its first value. -/
def initialise (v : Variable) : Python.Stmt :=
  .assign (.name (Python.safeName v.name)) v.initialValue

end Variable

/-- The declared variables, in order. -/
structure Scope where
  declared : List Variable

namespace Scope

/-- No variables. -/
def empty : Scope := ⟨[]⟩

def find? (s : Scope) (name : String) : Option Variable :=
  s.declared.find? fun v => v.name = name

/-- Adds a declared item, whose name must be new. -/
def declare (s : Scope) (type : DataType) (item : Item) : Except Fault Scope := do
  let v ← Variable.ofItem type item
  match s.find? item.name with
  | some earlier => .error ⟨.redeclared item.name earlier.loc.line, item.loc⟩
  | none => return ⟨s.declared ++ [v]⟩

/-- Adds the items of a declaration. -/
def declareAll (s : Scope) (d : Declaration) : Except Fault Scope :=
  d.items.foldlM (fun s item => s.declare d.type item) s

def ofDeclarations (ds : List Declaration) : Except Fault Scope :=
  ds.foldlM declareAll empty

/-- The number of subscripts that a name asks for; none for a name that is not declared. -/
def rank (s : Scope) (name : String) : Nat :=
  match s.find? name with
  | some v => v.shape.rank
  | none => 0

/-- Refuses a reference with another number of subscripts than its name asks for. -/
def checkSubscripts (s : Scope) (name : String) (count : Nat) (loc : Location) :
    Except Fault Unit :=
  if s.rank name = count then .ok ()
  else
    match s.find? name with
    | none => .error ⟨.undeclaredArray name, loc⟩
    | some v =>
      if v.shape.rank = 0 then .error ⟨.notAnArray name, loc⟩
      else .error ⟨.subscriptCount name v.shape.rank count, loc⟩

end Scope

end Plic
