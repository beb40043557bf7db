import Plic.Grammar.Declaration
import Plic.Grammar.Stmt
import Plic.Token.Lexer

/-!
# Programs

`name: PROC OPTIONS(MAIN); declarations statements END name;` and nothing behind it. A `Reader`
holds a source that is being read: each request for a program goes on at the token where the one
before it stopped.
-/

namespace Plic

namespace Grammar

open Plic.Parser

/-- The head of a procedure: its name. -/
def header : Parser String := do
  let name ← Parser.name
  symbol .colon .procedureName
  keyword .PROC .unspecified
  keyword .OPTIONS .afterProc
  symbol .lparen .afterOptions
  keyword .MAIN .inOptions
  symbol .rparen .afterMain
  symbol .semicolon .procedureHeader
  return name

/-- The declarations at the front. -/
def declarations : Parser (List Declaration) :=
  many do
    if ← check (.keyword .DCL) then return some (← declaration) else return none

/-- The end of a procedure, which may repeat its name. -/
def ending (name : String) : Parser Unit := do
  keyword .END .closingProcedure
  let t ← peek
  unless t.kind = .symbol .semicolon do
    let label ← Parser.name
    if label ≠ name then refuse t.loc (.endLabel label name)
  symbol .semicolon .procedureEnd

def program : Parser Program := do
  let loc := (← peek).loc
  let name ← header
  let ds ← declarations
  let ss ← statements
  ending name
  unless ← check .eof do unexpected .endOfInput .afterProcedure
  return ⟨name, ds, ss, loc⟩

end Grammar

/-- A source being read: the tokens that are left, and the reports on what was dropped. -/
structure Reader where
  rest : List Token
  diagnostics : List Diagnostic

namespace Reader

/-- A source before its first token. -/
def ofSource (source : String) : Reader :=
  let (tokens, lexer) := (Lexer.ofSource source).tokenize
  ⟨tokens, lexer.diagnostics⟩

def program (r : Reader) : Except Fault Program × Reader :=
  match Grammar.program r.rest with
  | .ok p rest => (.ok p, { r with rest := rest })
  | .error f rest => (.error f, { r with rest := rest })

/-- Hands out the reports, of which none are left then. -/
def takeDiagnostics (r : Reader) : List Diagnostic × Reader :=
  (r.diagnostics, { r with diagnostics := [] })

end Reader

end Plic
