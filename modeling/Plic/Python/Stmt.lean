import Plic.Python.Expr
import Plic.Python.Outline

/-!
# Statements of Python

The statements that generated code is made of, and their lines. A chain of branches is kept as a
chain: its first test is written with `if`, the further ones with `elif`.
-/

namespace Plic.Python

mutual

/-- Statements. -/
inductive Stmt where
  | assign (target value : Expr)
  /-- An update in place, `target += value` or `target -= value` by the operator. -/
  | update (target : Expr) (op : Operator) (value : Expr)
  /-- An expression for the sake of its effect. -/
  | run (call : Expr)
  | branch (arms : Arms)
  | loop (test : Test) (body : List Stmt)

/-- The branches of a chain from some branch on. -/
inductive Arms where
  /-- No further branch. -/
  | done
  /-- The last branch, without test. -/
  | otherwise (body : List Stmt)
  | arm (test : Test) (body : List Stmt) (rest : Arms)

end

mutual

/-- The lines of a statement. -/
def Stmt.outline : Stmt → Outline
  | .assign t v => .line (t.render ++ " = " ++ v.render)
  | .update t op v => .line (t.render ++ " " ++ op.text ++ "= " ++ v.render)
  | .run e => .line e.render
  | .branch arms => arms.outline "if "
  | .loop t body => Outline.empty.nest ("while " ++ t.render ++ ":") (outlineAll body)

/-- The lines of statements in a row. -/
def outlineAll : List Stmt → Outline
  | [] => .empty
  | s :: ss => s.outline.append (outlineAll ss)

/-- The lines of a chain whose first test is written behind the given word. -/
def Arms.outline (word : String) : Arms → Outline
  | .done => .empty
  | .otherwise body => Outline.empty.nest "else:" (outlineAll body)
  | .arm t body rest =>
    (Outline.empty.nest (word ++ t.render ++ ":") (outlineAll body)).append (rest.outline "elif ")

end

/-- A procedure without parameters. -/
structure Procedure where
  name : String
  body : List Stmt

/-- The lines of a procedure, and of its call when the module is run as a program. -/
def Procedure.outline (p : Procedure) : Outline :=
  ((Outline.empty.nest ("def " ++ p.name ++ "():") (outlineAll p.body)).blank.blank).nest
    "if __name__ == '__main__':" (.line (p.name ++ "()"))

end Plic.Python
