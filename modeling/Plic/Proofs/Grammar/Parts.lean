import Mathlib
import Plic.Tree

/-!
# Parts of a program

All expressions that an expression is made of, all statements that a statement
holds at any depth, and from these every expression of a program, wherever it
stands: as a target, an operand, a subscript, an argument, a bound of a loop, in
a condition or as a value of a `WHEN`.

Main result: `Expr.mem_parts_iff`, a part is the expression itself or a part of
an operand.
-/

namespace Plic

/-! ## Expressions -/

mutual

/-- An expression and everything it is made of. -/
def Expr.parts : Expr → List Expr
  | .number n loc => [.number n loc]
  | .text s loc => [.text s loc]
  | .var name subscripts loc => .var name subscripts loc :: partsOfAll subscripts
  | .neg e loc => .neg e loc :: e.parts
  | .binary op l r loc => .binary op l r loc :: (l.parts ++ r.parts)
  | .call f args loc => .call f args loc :: partsOfAll args
  | .endfile file loc => [.endfile file loc]

/-- The parts of the expressions of a list. -/
def partsOfAll : List Expr → List Expr
  | [] => []
  | e :: es => e.parts ++ partsOfAll es

end

/-- The operands of an expression, from left to right. -/
def Expr.operands : Expr → List Expr
  | .number _ _ => []
  | .text _ _ => []
  | .var _ subscripts _ => subscripts
  | .neg e _ => [e]
  | .binary _ l r _ => [l, r]
  | .call _ args _ => args
  | .endfile _ _ => []

/-- The parts of a list are those of its expressions. -/
theorem mem_partsOfAll {x : Expr} {es : List Expr} :
    x ∈ partsOfAll es ↔ ∃ e ∈ es, x ∈ e.parts := by
  induction es with
  | nil => simp [partsOfAll]
  | cons e es ih => simp [partsOfAll, ih]

/-- A part is the whole or a part of an operand. -/
theorem Expr.mem_parts_iff {x e : Expr} :
    x ∈ e.parts ↔ x = e ∨ ∃ o ∈ e.operands, x ∈ o.parts := by
  cases e <;> simp [Expr.parts, Expr.operands, mem_partsOfAll]

theorem Expr.mem_parts_self (e : Expr) : e ∈ e.parts := Expr.mem_parts_iff.mpr (.inl rfl)

/-! ## Statements -/

/-- The values of all branches. -/
def Branches.values : Branches → List Expr
  | .done => []
  | .other _ => []
  | .when values _ _ rest => values ++ rest.values

/-- The expressions of a statement, those in its bodies aside. -/
def Stmt.roots : Stmt → List Expr
  | .assign target value _ => [target.toExpr, value]
  | .ifElse c _ _ _ => [c.left, c.right]
  | .doWhile c _ _ => [c.left, c.right]
  | .doLoop var start limit step _ _ => var.toExpr :: start :: limit :: step.toList
  | .select subject branches _ => subject :: branches.values
  | .put items _ => items
  | .get targets _ => targets.map Reference.toExpr
  | .openFile _ _ _ => []
  | .read _ target _ => [target.toExpr]
  | .write _ source _ => [source.toExpr]
  | .closeFile _ _ => []
  | .query _ target _ => [target.toExpr]

mutual

/-- A statement and all statements in its bodies. -/
def Stmt.nested : Stmt → List Stmt
  | .ifElse c yes no loc => .ifElse c yes no loc :: (nestedOfAll yes ++ nestedOfAll no)
  | .doWhile c body loc => .doWhile c body loc :: nestedOfAll body
  | .doLoop var start limit step body loc =>
    .doLoop var start limit step body loc :: nestedOfAll body
  | .select subject branches loc => .select subject branches loc :: branches.nested
  | s => [s]

/-- The statements in a row and all statements in their bodies. -/
def nestedOfAll : List Stmt → List Stmt
  | [] => []
  | s :: ss => s.nested ++ nestedOfAll ss

/-- All statements in the branches of a `SELECT`. -/
def Branches.nested : Branches → List Stmt
  | .done => []
  | .other body => nestedOfAll body
  | .when _ body _ rest => nestedOfAll body ++ rest.nested

end

/-- The expressions of a statement at every depth. -/
def Stmt.parts (s : Stmt) : List Expr := partsOfAll s.roots

/-- The statements of a program, at whatever depth. -/
def Program.nested (p : Program) : List Stmt := nestedOfAll p.statements

/-- The expressions of a program, with all their parts. -/
def Program.parts (p : Program) : List Expr := p.nested.flatMap Stmt.parts

end Plic
