import Plic.Grammar.Expr

/-!
# Statements

Where one statement can stand, a group `DO; … END;` can stand too; its statements become part of the
surrounding ones. Compound statements take the reader of the groups inside them as an argument, and
`group` closes the circle.
-/

namespace Plic.Grammar

open Plic.Parser

/-- The end of a compound statement. -/
def closing (place : Place) : Parser Unit := do
  keyword .END place
  symbol .semicolon .afterEnd

/-- The statements up to the next `END`, which is not read. -/
def statementsOf (nested : Parser (List Stmt)) : Parser (List Stmt) := do
  let groups ← many do
    let t ← peek
    match t.kind with
    | .keyword .END | .eof => return none
    | .keyword .DCL => refuse t.loc (.lateDeclaration t)
    | _ => return some (← nested)
  return groups.flatten

/-- Reads the name of a file, written `FILE('name')`. -/
def file : Parser String := do
  keyword .FILE .unspecified
  symbol .lparen .afterFileWord
  let name ← fileName
  symbol .rparen .fileName
  return name

/-- A variable in parentheses. -/
def enclosedReference : Parser Reference := do
  symbol .lparen .variableOpen
  let r ← reference
  symbol .rparen .variableClose
  return r

/-- The rest of an `IF` behind its keyword. -/
def ifRest (nested : Parser (List Stmt)) (loc : Location) : Parser Stmt := do
  let c ← condition
  keyword .THEN .condition
  let yes ← nested
  keyword .ELSE .branch
  let no ← nested
  return .ifElse c yes no loc

/-- The rest of a `DO WHILE` behind its keywords. -/
def whileRest (nested : Parser (List Stmt)) (loc : Location) : Parser Stmt := do
  symbol .lparen .afterWhile
  let c ← condition
  symbol .rparen .loopCondition
  symbol .semicolon .doWhile
  let body ← statementsOf nested
  closing .closingWhile
  return .doWhile c body loc

/-- The step of an iterative `DO`, if one is written. -/
def loopStep : Parser (Option Expr) := do
  if ← accept (.keyword .BY) then return some (← expr) else return none

/-- The rest of an iterative `DO` behind its keyword. -/
def loopRest (nested : Parser (List Stmt)) (loc : Location) : Parser Stmt := do
  match (← peek).kind with
  | .name _ =>
    let var ← reference
    symbol .eq .controlVariable
    let start ← expr
    keyword .TO .inLoop
    let limit ← expr
    let step ← loopStep
    symbol .semicolon .loop
    let body ← statementsOf nested
    closing .closingLoop
    return .doLoop var start limit step body loc
  | _ => unexpected .loopHead .afterDo

/-- A `WHEN` branch without those behind it, if one is at the front. -/
def when? (nested : Parser (List Stmt)) :
    Parser (Option (List Expr × List Stmt × Location)) := do
  let loc := (← peek).loc
  if ← accept (.keyword .WHEN) then
    symbol .lparen .afterWhen
    let values ← commaList expr
    symbol .rparen .whenValues
    return some (values, ← nested, loc)
  else return none

/-- The end of the branches of a `SELECT`, with `OTHER` or without. -/
def lastBranch (nested : Parser (List Stmt)) : Parser Branches := do
  if ← accept (.keyword .OTHER) then return .other (← nested) else return .done

/-- The rest of a `SELECT` behind its keyword. -/
def selectRest (nested : Parser (List Stmt)) (loc : Location) : Parser Stmt := do
  symbol .lparen .afterSelect
  let subject ← expr
  symbol .rparen .selectSubject
  symbol .semicolon .select
  let whens ← many (when? nested)
  if whens.isEmpty then unexpected .firstWhen .inSelect
  let last ← lastBranch nested
  let t ← peek
  if t.kind = .keyword .WHEN then refuse t.loc (.whenAfterOther t)
  closing .closingSelect
  return .select subject
    (whens.foldr (fun (values, body, loc) rest => .when values body loc rest) last) loc

/-- The items of a `PUT`, which may be left out behind `SKIP`. -/
def putItems (skip : Bool) : Parser (List Expr) := do
  if ← accept (.keyword .LIST) then
    symbol .lparen .afterList
    let items ← commaList expr
    symbol .rparen .listItems
    return items
  else if skip then return []
  else unexpected .skipOrList .afterPut

/-- The rest of a `PUT` behind its keyword. -/
def putRest (loc : Location) : Parser Stmt := do
  let skip ← accept (.keyword .SKIP)
  let items ← putItems skip
  symbol .semicolon .put
  return .put items loc

/-- The rest of a `GET` behind its keyword. -/
def getRest (loc : Location) : Parser Stmt := do
  keyword .LIST .afterGet
  symbol .lparen .afterList
  let targets ← commaList reference
  symbol .rparen .getTargets
  symbol .semicolon .get
  return .get targets loc

/-- The direction in which a file is opened. -/
def fileMode : Parser FileMode := do
  match (← peek).kind with
  | .keyword .INPUT => advance; return .input
  | .keyword .OUTPUT => advance; return .output
  | _ => unexpected .inputOrOutput .afterFile

/-- The rest of an `OPEN` behind its keyword. -/
def openRest (loc : Location) : Parser Stmt := do
  let name ← file
  let mode ← fileMode
  symbol .semicolon .openFile
  return .openFile name mode loc

/-- The rest of a `READ` behind its keyword. -/
def readRest (loc : Location) : Parser Stmt := do
  let name ← file
  keyword .INTO .afterFile
  let target ← enclosedReference
  symbol .semicolon .readFile
  return .read name target loc

/-- The rest of a `WRITE` behind its keyword. -/
def writeRest (loc : Location) : Parser Stmt := do
  let name ← file
  keyword .FROM .afterFile
  let source ← enclosedReference
  symbol .semicolon .writeFile
  return .write name source loc

/-- The rest of a `CLOSE` behind its keyword. -/
def closeRest (loc : Location) : Parser Stmt := do
  let name ← file
  symbol .semicolon .closeFile
  return .closeFile name loc

/-- The rest of an `EXEC SQL` behind its first keyword. -/
def execRest (loc : Location) : Parser Stmt := do
  keyword .SQL .afterExec
  match (← peek).kind with
  | .query sql =>
    advance
    keyword .INTO .afterQuery
    let _ ← accept (.symbol .colon)
    let target ← reference
    symbol .semicolon .execSql
    return .query sql target loc
  | _ => unexpected .queryText .unspecified

def assignment (loc : Location) : Parser Stmt := do
  let target ← reference
  symbol .eq .assignmentSign
  let value ← expr
  symbol .semicolon .assignment
  return .assign target value loc

/-- One statement, the groups inside which are read by `nested`. -/
def statementOf (nested : Parser (List Stmt)) : Parser Stmt := do
  let t ← peek
  match t.kind with
  | .keyword .IF => advance; ifRest nested t.loc
  | .keyword .DO =>
    advance
    if ← accept (.keyword .WHILE) then whileRest nested t.loc else loopRest nested t.loc
  | .keyword .SELECT => advance; selectRest nested t.loc
  | .keyword .PUT => advance; putRest t.loc
  | .keyword .GET => advance; getRest t.loc
  | .keyword .OPEN => advance; openRest t.loc
  | .keyword .READ => advance; readRest t.loc
  | .keyword .WRITE => advance; writeRest t.loc
  | .keyword .CLOSE => advance; closeRest t.loc
  | .keyword .EXEC => advance; execRest t.loc
  | .name _ => assignment t.loc
  | _ => unexpected .statement .unspecified

/-- Whether a group rather than a statement is at the front. -/
def atGroup : Parser Bool := fun ts =>
  .ok ((front ts).kind = .keyword .DO ∧ (front (behind ts)).kind = .symbol .semicolon) ts

/-- A group or one statement, the groups inside which are read by `nested`. -/
def groupOf (nested : Parser (List Stmt)) : Parser (List Stmt) := do
  if ← atGroup then
    advance
    advance
    let body ← statementsOf nested
    closing .closingGroup
    return body
  else return [← statementOf nested]

/-- A group or one statement with at most `depth` of them inside one another. -/
def groupWithin : (depth : Nat) → Parser (List Stmt)
  | 0 => unexpected .statement .unspecified
  | depth + 1 => groupOf (groupWithin depth)

/-- A group or one statement. An inner one stands behind a token of the outer one, so there are no
more inside one another than tokens. -/
def group : Parser (List Stmt) := fun ts => groupWithin ts.length ts

/-- The statements up to the next `END`, which is not read. -/
def statements : Parser (List Stmt) := statementsOf group

end Plic.Grammar
