import Plic.Lowering.Helpers
import Plic.Storage

/-!
# Expressions of the program as expressions of Python

`||` becomes `+` and the string functions become slices and searches, with every operand that may
not be a string made one. `SUBSTR` counts from 1 and gives a length where a slice counts from 0 and
gives an end; bounds that are literals are computed here, as long as they stay within 64 bits.

The references are checked from left to right.
-/

namespace Plic

/-- The integers of 64 bits with sign. -/
def fitsInt64 (n : Int) : Bool := -0x8000000000000000 ≤ n && n < 0x8000000000000000

/-- The integer if it has at most 64 bits. -/
def int64? (n : Int) : Option Int := if fitsInt64 n then some n else none

/-- The value of a literal behind any number of signs. -/
def Expr.literal? : Expr → Option Int
  | .number n _ => some n
  | .neg e _ => e.literal?.bind fun n => int64? (-n)
  | _ => none

/-- The code for an operand that has to be a string, from the code for its value. -/
def Expr.asText (e : Expr) (code : Python.Expr) : Python.Expr :=
  if e.isText then code else .call .text [code]

/-- The lower bound of the slice for a `SUBSTR` that starts at a literal. -/
def Expr.literalLow? (start : Expr) : Option Int :=
  start.literal?.bind fun s => int64? (s - 1)

/-- The upper bound of the slice for a `SUBSTR` whose start and length are literals. -/
def Expr.literalHigh? (start length : Expr) : Option Int :=
  start.literalLow?.bind fun low => length.literal?.bind fun n => int64? (low + n)

def Operator.lower : Operator → Python.Operator
  | add => .add
  | sub => .sub
  | mul => .mul
  | div => .div
  | concat => .add

mutual

def Expr.lower (scope : Scope) : Expr → Except Fault Python.Expr
  | .number n _ => return .int n
  | .text s _ => return .str s
  | .var name subscripts loc => do
    scope.checkSubscripts name subscripts.length loc
    let codes ← lowerAll scope subscripts
    return codes.foldl .index (.name (Python.safeName name))
  | .neg e _ => return .neg (← e.lower scope)
  | .binary .concat l r _ =>
    return .binary .add (l.asText (← l.lower scope)) (r.asText (← r.lower scope))
  | .binary op l r _ => return .binary op.lower (← l.lower scope) (← r.lower scope)
  | .call .substr (s :: start :: []) _ => do
    let text := s.asText (← s.lower scope)
    let low ← match start.literalLow? with
      | some n => .ok (.int n)
      | none => (start.lower scope).map fun code => .binary .sub code (.int 1)
    return .sliceFrom text low
  | .call .substr (s :: start :: length :: _) _ => do
    let text := s.asText (← s.lower scope)
    let low ← match start.literalLow? with
      | some n => .ok (.int n)
      | none => (start.lower scope).map fun code => .binary .sub code (.int 1)
    let high ← match start.literalHigh? length with
      | some n => .ok (.int n)
      | none => (length.lower scope).map fun code => .binary .add low code
    return .slice text low high
  | .call .index (s :: part :: []) _ => do
    let text := s.asText (← s.lower scope)
    return .binary .add (.find text (part.asText (← part.lower scope))) (.int 1)
  | .call .decimal (e :: []) _ => return .call .str [← e.lower scope]
  | .call .mod (l :: r :: []) _ => return .binary .mod (← l.lower scope) (← r.lower scope)
  | .call function args _ =>
    .error ⟨.callShape function args.length, (args.head?.map Expr.loc).getD .nowhere⟩
  | .endfile file _ => return .call .endfile [.str file]

def lowerAll (scope : Scope) : List Expr → Except Fault (List Python.Expr)
  | [] => return []
  | e :: es => return (← e.lower scope) :: (← lowerAll scope es)

end

def Reference.lower (scope : Scope) (r : Reference) : Except Fault Python.Expr :=
  r.toExpr.lower scope

def Relation.lower : Relation → Python.Relation
  | eq => .eq
  | ne => .ne
  | lt => .lt
  | le => .le
  | gt => .gt
  | ge => .ge

def Condition.lower (scope : Scope) (c : Condition) : Except Fault Python.Comparison :=
  return ⟨← c.left.lower scope, c.op.lower, ← c.right.lower scope⟩

end Plic
