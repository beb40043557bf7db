import Plic.Grammar.Basic
import Plic.Text.Blank

/-!
# Expressions and conditions

Operators bind in four tiers, from loose to tight: concatenation, sum, product, sign. Every tier of
binary operators groups to the left. A sign of plus changes nothing and leaves no node.

A condition may stand in one pair of parentheses. An opening parenthesis may also belong to the left
side of the condition, so the parser first takes it for the condition's own and, when that fails,
reads again without it.
-/

namespace Plic.Grammar

open Plic.Parser

/-- Whether a text is good as the name of a file. -/
def isFileName : List Char → Bool
  | [] => false
  | c :: cs => (c.isAlpha || c = '_') && cs.all fun d => d.isAlphanum || d = '_'

/-- Reads a character constant that names a file; blanks around the name do not count. -/
def fileName : Parser String := do
  let t ← peek
  match t.kind with
  | .text value =>
    let trimmed := Text.trim value.toList
    if isFileName trimmed then
      advance
      return String.ofList trimmed
    else refuse t.loc (.fileName (String.ofList trimmed))
  | _ => unexpected .fileName .unspecified

def concatOperator : Token.Kind → Option Operator
  | .symbol .concat => some .concat
  | _ => none

def sumOperator : Token.Kind → Option Operator
  | .symbol .plus => some .add
  | .symbol .minus => some .sub
  | _ => none

def productOperator : Token.Kind → Option Operator
  | .symbol .star => some .mul
  | .symbol .slash => some .div
  | _ => none

/-- Operands joined by the operators of one tier, grouped to the left. -/
def tier (operator : Token.Kind → Option Operator) (operand : Parser Expr) : Parser Expr := do
  let first ← operand
  let rest ← many do
    let t ← peek
    match operator t.kind with
    | none => return none
    | some op => advance; return some (op, t.loc, ← operand)
  return rest.foldl (fun left (op, loc, right) => .binary op left right loc) first

/-- An operand behind any number of signs. -/
def signed (operand : Parser Expr) : Parser Expr := do
  let signs ← many do
    let t ← peek
    match t.kind with
    | .symbol .minus => advance; return some (some t.loc)
    | .symbol .plus => advance; return some none
    | _ => return none
  let e ← operand
  return signs.foldr (fun sign e => match sign with | some loc => .neg e loc | none => e) e

/-- A variable with subscripts read by `nested`. -/
def referenceOf (nested : Parser Expr) : Parser Reference := do
  let loc := (← peek).loc
  let name ← identifier
  if ← accept (.symbol .lparen) then
    let subscripts ← commaList nested
    symbol .rparen .subscripts
    return ⟨name, subscripts, loc⟩
  else
    return ⟨name, [], loc⟩

/-- The function that a keyword calls. -/
def builtinOf : Keyword → Option Builtin
  | .SUBSTR => some .substr
  | .INDEX => some .index
  | .DECIMAL => some .decimal
  | .MOD => some .mod
  | _ => none

/-- The call of a function at the front, with arguments read by `nested`. -/
def callOf (nested : Parser Expr) (function : Builtin) : Parser Expr := do
  let loc := (← peek).loc
  advance
  symbol .lparen (.afterBuiltin function)
  let args ← commaList nested
  symbol .rparen .arguments
  if function.minArgs ≤ args.length ∧ args.length ≤ function.maxArgs then
    return .call function args loc
  else refuse loc (.argumentCount function args.length)

/-- The test for the end of a file, at the front. -/
def endfile : Parser Expr := do
  let loc := (← peek).loc
  advance
  symbol .lparen .afterEndfile
  let file ← fileName
  symbol .rparen .fileName
  return .endfile file loc

/-- An operand without sign, whose inner expressions are read by `nested`. -/
def primary (nested : Parser Expr) : Parser Expr := do
  let t ← peek
  match t.kind with
  | .number n => advance; return .number n t.loc
  | .text value => advance; return .text value t.loc
  | .name _ => return (← referenceOf nested).toExpr
  | .symbol .lparen =>
    advance
    let e ← nested
    symbol .rparen .parenthesis
    return e
  | .keyword .ENDFILE => endfile
  | .keyword word =>
    match builtinOf word with
    | some function => callOf nested function
    | none => unexpected .expression .unspecified
  | _ => unexpected .expression .unspecified

/-- An expression with at most `depth` expressions inside one another. -/
def exprWithin : (depth : Nat) → Parser Expr
  | 0 => unexpected .expression .unspecified
  | depth + 1 =>
    tier concatOperator <| tier sumOperator <| tier productOperator <| signed <|
      primary (exprWithin depth)

/-- An expression. An inner one stands behind a token of the outer one, so there are no more inside
one another than tokens. -/
def expr : Parser Expr := fun ts => exprWithin ts.length ts

/-- A variable, with or without subscripts. -/
def reference : Parser Reference := referenceOf expr

/-- The relation that a token stands for. -/
def relationOf : Token.Kind → Option Relation
  | .symbol .eq => some .eq
  | .symbol .eqEq => some .eq
  | .symbol .ne => some .ne
  | .symbol .lt => some .lt
  | .symbol .le => some .le
  | .symbol .gt => some .gt
  | .symbol .ge => some .ge
  | _ => none

/-- Two expressions with a relation between them. -/
def comparison : Parser Condition := do
  let loc := (← peek).loc
  let left ← expr
  match relationOf (← peek).kind with
  | some op =>
    advance
    let right ← expr
    return ⟨left, op, right, loc⟩
  | none => unexpected .relation .unspecified

/-- A comparison in parentheses of its own. -/
def enclosedComparison : Parser Condition := do
  symbol .lparen .unspecified
  let c ← comparison
  symbol .rparen .unspecified
  return c

/-- A comparison, in parentheses of its own or without. -/
def condition : Parser Condition := fun ts =>
  match enclosedComparison ts with
  | .ok c rest => .ok c rest
  | .error _ _ => comparison ts

end Plic.Grammar
