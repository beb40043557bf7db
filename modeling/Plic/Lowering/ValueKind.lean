import Plic.Storage

/-!
# Kinds of values

What can be said about the value of an expression from the declarations alone. It settles where a
quotient has to be cut to an integer.
-/

namespace Plic

/-- The kind of a value, as far as declarations tell. -/
inductive ValueKind where
  | integer | decimal | text | unknown
deriving DecidableEq

namespace ValueKind

/-- Whether the value is a number. -/
def isNumeric : ValueKind → Bool
  | integer => true
  | decimal => true
  | _ => false

def ofType : DataType → ValueKind
  | .fixedBinary _ => integer
  | .fixedDecimal _ (some (_ + 1)) => decimal
  | .fixedDecimal _ _ => integer
  | .character _ _ => text

/-- The kind of a sum, difference, product or remainder. -/
def arithmetic : ValueKind → ValueKind → ValueKind
  | integer, integer => integer
  | l, r => if l.isNumeric && r.isNumeric then decimal else unknown

def quotient (l r : ValueKind) : ValueKind :=
  if l.isNumeric && r.isNumeric then decimal else unknown

def negated (k : ValueKind) : ValueKind :=
  if k.isNumeric then k else unknown

end ValueKind

def Scope.kindOf (s : Scope) (name : String) : ValueKind :=
  match s.find? name with
  | some v => .ofType v.type
  | none => .unknown

def Expr.valueKind (scope : Scope) : Expr → ValueKind
  | .number _ _ => .integer
  | .text _ _ => .text
  | .var name _ _ => scope.kindOf name
  | .neg e _ => (e.valueKind scope).negated
  | .binary .concat _ _ _ => .text
  | .binary .div l r _ => .quotient (l.valueKind scope) (r.valueKind scope)
  | .binary _ l r _ => .arithmetic (l.valueKind scope) (r.valueKind scope)
  | .call .substr _ _ => .text
  | .call .decimal _ _ => .text
  | .call .index _ _ => .integer
  | .call .mod [a, b] _ => .arithmetic (a.valueKind scope) (b.valueKind scope)
  | .call .mod _ _ => .unknown
  | .endfile _ _ => .integer

end Plic
