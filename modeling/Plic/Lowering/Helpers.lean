import Plic.Python.Support
import Plic.Tree

/-!
# Helpers that a program needs

Each part of a program says for itself which groups of support code the code for it calls.
-/

namespace Plic

open Python (Helpers)

/-- Whether the value of an expression is a string whatever its variables hold. -/
def Expr.isText : Expr → Bool
  | .text _ _ => true
  | .binary .concat _ _ _ => true
  | .call .substr _ _ => true
  | .call .decimal _ _ => true
  | _ => false

/-- What is needed to use an expression as a string. -/
def Expr.conversionHelpers (e : Expr) : Helpers := { text := !e.isText }

mutual

def Expr.helpers : Expr → Helpers
  | .number _ _ => .none
  | .text _ _ => .none
  | .var _ subscripts _ => helpersOfAll subscripts
  | .neg e _ => e.helpers
  | .binary .concat l r _ =>
    (l.helpers.union l.conversionHelpers).union (r.helpers.union r.conversionHelpers)
  | .binary _ l r _ => l.helpers.union r.helpers
  | .call .substr (s :: start :: length :: _) _ =>
    (s.helpers.union s.conversionHelpers).union (start.helpers.union length.helpers)
  | .call .substr (s :: start :: []) _ => (s.helpers.union s.conversionHelpers).union start.helpers
  | .call .index (s :: part :: []) _ =>
    (s.helpers.union s.conversionHelpers).union (part.helpers.union part.conversionHelpers)
  | .call _ args _ => helpersOfAll args
  | .endfile _ _ => { files := true }

def helpersOfAll : List Expr → Helpers
  | [] => .none
  | e :: es => e.helpers.union (helpersOfAll es)

end

def Reference.helpers (r : Reference) : Helpers := helpersOfAll r.subscripts

def Condition.helpers (c : Condition) : Helpers := c.left.helpers.union c.right.helpers

mutual

/-- What a statement needs. -/
def Stmt.helpers : Stmt → Helpers
  | .assign target value _ => target.helpers.union value.helpers
  | .ifElse c yes no _ => c.helpers.union ((blockHelpers yes).union (blockHelpers no))
  | .doWhile c body _ => c.helpers.union (blockHelpers body)
  | .doLoop var start limit step body _ =>
    (var.helpers.union (start.helpers.union limit.helpers)).union
      ((match step with | some k => k.helpers | none => .none).union (blockHelpers body))
  | .select subject branches _ => subject.helpers.union branches.helpers
  | .put items _ => helpersOfAll items
  | .get targets _ =>
    targets.foldr (fun t h => t.helpers.union h) { get := true }
  | .openFile _ _ _ => { files := true }
  | .read _ target _ => target.helpers.union { files := true }
  | .write _ source _ => source.helpers.union { files := true }
  | .closeFile _ _ => { files := true }
  | .query _ target _ => target.helpers.union { sql := true }

/-- What statements in a row need. -/
def blockHelpers : List Stmt → Helpers
  | [] => .none
  | s :: ss => s.helpers.union (blockHelpers ss)

/-- What the branches of a `SELECT` need. -/
def Branches.helpers : Branches → Helpers
  | .done => .none
  | .other body => blockHelpers body
  | .when values body _ rest =>
    (helpersOfAll values).union ((blockHelpers body).union rest.helpers)

end

def Program.helpers (p : Program) : Helpers := blockHelpers p.statements

end Plic
