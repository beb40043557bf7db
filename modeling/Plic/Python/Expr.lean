import Plic.Python.Literal

/-!
# Expressions of Python

The expressions that generated code is made of, and their text. An operand stands in parentheses
exactly when its operator binds less tightly than its place asks for, so that the text groups as the
tree does. A sign in front of a sign stands in parentheses too.
-/

namespace Plic.Python

/-- The functions that generated code calls. -/
inductive Function where
  | print | int | str
  /-- Any value as a string. -/
  | text
  /-- One line of input for a variable. -/
  | get
  | openFile | read | write | close | endfile
  /-- The first value of a query's first row. -/
  | sql
deriving DecidableEq

def Function.name : Function → String
  | print => "print"
  | int => "int"
  | str => "str"
  | text => "_pli_str"
  | get => "_pli_get"
  | openFile => "_pli_open"
  | read => "_pli_read"
  | write => "_pli_write"
  | close => "_pli_close"
  | endfile => "_pli_endfile"
  | sql => "_pli_sql"

inductive Operator where
  | add | sub | mul | div | mod
deriving DecidableEq

/-- How tightly an expression holds together, from loose to tight. -/
inductive Level where
  | sum | product | sign | atom
deriving DecidableEq

def Level.rank : Level → Nat
  | sum => 0
  | product => 1
  | sign => 2
  | atom => 3

def Operator.text : Operator → String
  | add => "+"
  | sub => "-"
  | mul => "*"
  | div => "/"
  | mod => "%"

def Operator.level : Operator → Level
  | add => .sum
  | sub => .sum
  | mul => .product
  | div => .product
  | mod => .product

inductive Expr where
  | int (value : Int)
  | str (value : String)
  | name (id : String)
  | neg (operand : Expr)
  | binary (op : Operator) (left right : Expr)
  | index (base subscript : Expr)
  /-- The elements from an index on, written `base[low:]`. -/
  | sliceFrom (base low : Expr)
  /-- The elements from one index to before another, written `base[low:high]`. -/
  | slice (base low high : Expr)
  | call (function : Function) (args : List Expr)
  /-- Where a part begins, counted from 0, or -1, written `text.find(part)`. -/
  | find (text part : Expr)
  | single (item : Expr)
  /-- An item computed anew for each place, written `[item for _ in range(count)]`. -/
  | replicate (item count : Expr)

/-- How tightly an expression holds together. -/
def Expr.level : Expr → Level
  | neg _ => .sign
  | binary op _ _ => op.level
  | _ => .atom

def enclose (needed : Bool) (text : String) : String :=
  if needed then "(" ++ text ++ ")" else text

mutual

def Expr.render : Expr → String
  | .int n => toString n
  | .str s => quote s
  | .name id => id
  | .neg e => "-" ++ enclose (e.level.rank ≤ Level.sign.rank) e.render
  | .binary op l r =>
    enclose (l.level.rank < op.level.rank) l.render ++ " " ++ op.text ++ " "
      ++ enclose (r.level.rank ≤ op.level.rank) r.render
  | .index b i => enclose (b.level.rank < Level.atom.rank) b.render ++ "[" ++ i.render ++ "]"
  | .sliceFrom b lo => enclose (b.level.rank < Level.atom.rank) b.render ++ "[" ++ lo.render ++ ":]"
  | .slice b lo hi =>
    enclose (b.level.rank < Level.atom.rank) b.render ++ "[" ++ lo.render ++ ":" ++ hi.render ++ "]"
  | .call f args => f.name ++ "(" ++ ", ".intercalate (renderAll args) ++ ")"
  | .find t p => enclose (t.level.rank < Level.atom.rank) t.render ++ ".find(" ++ p.render ++ ")"
  | .single e => "[" ++ e.render ++ "]"
  | .replicate e n => "[" ++ e.render ++ " for _ in range(" ++ n.render ++ ")]"

def renderAll : List Expr → List String
  | [] => []
  | e :: es => e.render :: renderAll es

end

inductive Relation where
  | eq | ne | lt | le | gt | ge
deriving DecidableEq

def Relation.text : Relation → String
  | eq => "=="
  | ne => "!="
  | lt => "<"
  | le => "<="
  | gt => ">"
  | ge => ">="

/-- A comparison of two expressions. -/
structure Comparison where
  left : Expr
  op : Relation
  right : Expr

/-- The text of a comparison. Relations bind less tightly than all operators, so no parentheses are
needed. -/
def Comparison.render (c : Comparison) : String :=
  c.left.render ++ " " ++ c.op.text ++ " " ++ c.right.render

/-- What decides about a branch or a further round of a loop. -/
inductive Test where
  | holds (comparison : Comparison)
  /-- Whether the value is equal to one of some others. -/
  | oneOf (value : Expr) (others : List Expr)
  /-- The first comparison if the second holds, else the third. -/
  | choice (yes condition no : Comparison)

def Test.render : Test → String
  | holds c => c.render
  | oneOf e es => e.render ++ " in (" ++ ", ".intercalate (renderAll es) ++ ")"
  | choice yes condition no =>
    "(" ++ yes.render ++ " if " ++ condition.render ++ " else " ++ no.render ++ ")"

end Plic.Python
