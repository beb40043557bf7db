import Plic.Lowering.Expr
import Plic.Lowering.ValueKind

/-!
# Statements of the program as statements of Python

An iterative `DO` becomes an assignment and a loop with its test in front. Its limit and step are
computed once, into temporaries, unless they are literals; the sign of the step settles the
direction of the test, when the code is written for a literal and when it runs otherwise.
-/

namespace Plic

/-- Work that can be refused and counts the temporaries in use. -/
abbrev Lowering (α : Type) := StateT Nat (Except Fault) α

def Lowering.temporary (role : String) : Lowering Python.Expr := do
  modify (· + 1)
  return .name (Python.temporaryName role (← get))

/-- The code for a value that is computed ahead of a loop: the statements that compute it, and what
stands for it in the loop. A literal stands for itself. -/
def Expr.hoist (scope : Scope) (role : String) (e : Expr) :
    Lowering (List Python.Stmt × Python.Expr) := do
  let code ← (e.lower scope : Except Fault Python.Expr)
  if e.literal?.isSome then return ([], code)
  else
    let t ← Lowering.temporary role
    return ([.assign t code], t)

/-- The code for the step of a loop over `var` up to `limit`: the statements ahead of the loop, its
test, and the statement that ends each round. -/
def lowerStep (scope : Scope) (var limit : Python.Expr) :
    Option Expr → Lowering (List Python.Stmt × Python.Test × Python.Stmt)
  | none => return ([], .holds ⟨var, .le, limit⟩, .update var .add (.int 1))
  | some step =>
    match step.literal? with
    | some k =>
      if k < 0 then
        return ([], .holds ⟨var, .ge, limit⟩, .update var .sub (.int k.natAbs))
      else return ([], .holds ⟨var, .le, limit⟩, .update var .add (.int k))
    | none => do
      let (setup, by_) ← step.hoist scope "by"
      return (setup, .choice ⟨var, .le, limit⟩ ⟨by_, .ge, .int 0⟩ ⟨var, .ge, limit⟩,
        .update var .add by_)

def whenTest (subject : Python.Expr) : List Python.Expr → Python.Test
  | [value] => .holds ⟨subject, .eq, value⟩
  | values => .oneOf subject values

/-- The code for an assignment. A quotient is cut to an integer for an integer variable. -/
def lowerAssign (scope : Scope) (target : Reference) (value : Expr) :
    Except Fault Python.Stmt := do
  let t ← target.lower scope
  let v ← value.lower scope
  if scope.kindOf target.name = .integer ∧ value.valueKind scope = .decimal then
    return .assign t (.call .int [v])
  else return .assign t v

/-- The code for reading a variable from the input. -/
def lowerGet (scope : Scope) (target : Reference) : Except Fault Python.Stmt := do
  return .assign (← target.lower scope) (.call .get [.str target.name])

/-- What follows the first branch of an `IF`: an `ELSE` that is another `IF` continues the chain. -/
def elseArms (no : List Stmt) (code : List Python.Stmt) : Python.Arms :=
  match no, code with
  | [.ifElse ..], [.branch arms] => arms
  | _, body => .otherwise body

/-- The word for the direction in which a file is opened. -/
def FileMode.lower : FileMode → Python.Expr
  | input => .str "r"
  | output => .str "w"

mutual

/-- The code for a statement. -/
def Stmt.lower (scope : Scope) : Stmt → Lowering (List Python.Stmt)
  | .assign target value _ => return [← (lowerAssign scope target value : Except Fault _)]
  | .ifElse c yes no _ => do
    let test ← (c.lower scope : Except Fault _)
    let yesCode ← lowerBlock scope yes
    let noCode ← lowerBlock scope no
    return [.branch (.arm (.holds test) yesCode (elseArms no noCode))]
  | .doWhile c body _ => do
    let test ← (c.lower scope : Except Fault _)
    return [.loop (.holds test) (← lowerBlock scope body)]
  | .doLoop var start limit step body _ => do
    let v ← (var.lower scope : Except Fault _)
    let s ← (start.lower scope : Except Fault _)
    let (limitSetup, l) ← limit.hoist scope "to"
    let (stepSetup, test, advance) ← lowerStep scope v l step
    let code ← lowerBlock scope body
    return .assign v s :: limitSetup ++ stepSetup ++ [.loop test (code ++ [advance])]
  | .select subject branches _ => do
    let s ← (subject.lower scope : Except Fault _)
    return [.branch (← branches.lower scope s)]
  | .put items _ => return [.run (.call .print (← (lowerAll scope items : Except Fault _)))]
  | .get targets _ => (targets.mapM (lowerGet scope) : Except Fault _)
  | .openFile file mode _ => return [.run (.call .openFile [.str file, mode.lower])]
  | .read file target _ =>
    return [.assign (← (target.lower scope : Except Fault _)) (.call .read [.str file])]
  | .write file source _ =>
    return [.run (.call .write [.str file, ← (source.lower scope : Except Fault _)])]
  | .closeFile file _ => return [.run (.call .close [.str file])]
  | .query sql target _ =>
    return [.assign (← (target.lower scope : Except Fault _)) (.call .sql [.str sql])]

/-- The code for statements in a row. -/
def lowerBlock (scope : Scope) : List Stmt → Lowering (List Python.Stmt)
  | [] => return []
  | s :: ss => do
    let code ← s.lower scope
    return code ++ (← lowerBlock scope ss)

/-- The code for the branches of a `SELECT` whose subject has the given code. -/
def Branches.lower (scope : Scope) (subject : Python.Expr) : Branches → Lowering Python.Arms
  | .done => return .done
  | .other body => return .otherwise (← lowerBlock scope body)
  | .when values body _ rest => do
    let vs ← (lowerAll scope values : Except Fault _)
    let code ← lowerBlock scope body
    return .arm (whenTest subject vs) code (← rest.lower scope subject)

end

end Plic
