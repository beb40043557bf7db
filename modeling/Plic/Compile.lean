import Plic.Config
import Plic.Grammar.Program
import Plic.Lowering.Stmt

/-!
# Compilation

A source becomes a module of Python: a comment that names the procedure, the support code that it
needs, the procedure itself, and its call.
-/

namespace Plic

/-- The name and version of this program, as it gives them itself. -/
def version : String := "plipy 0.1.0"

/-- The procedure for a program: the declared variables get their first values, then the statements
follow. -/
def Program.lower (p : Program) : Except Fault Python.Procedure := do
  let scope ← Scope.ofDeclarations p.declarations
  let (body, _) ← (lowerBlock scope p.statements).run 0
  return ⟨Python.safeName p.name, scope.declared.map Variable.initialise ++ body⟩

/-- The text of the module for a procedure with the given name in the source. -/
def moduleText (config : Config) (name : String) (helpers : Python.Helpers)
    (procedure : Python.Procedure) : String :=
  let support := Python.supportCode helpers config.credentials
  "# Generated by " ++ version ++ " from PL/I procedure '" ++ name ++ "'\n\n"
    ++ (if support = "" then "" else support ++ "\n\n")
    ++ procedure.outline.render config.indent.width

/-- The text of the module for a program. -/
def Program.generate (config : Config) (p : Program) : Except Fault String := do
  return moduleText config p.name p.helpers (← p.lower)

structure Compiled where
  /-- The name of the procedure in small letters. -/
  name : String
  /-- The text of the module. -/
  code : String
  /-- The reports on what was dropped from the source. -/
  diagnostics : List Diagnostic

/-- Compiles a source. The first fault ends the work. -/
def compile (config : Config) (source : String) : Except Fault Compiled := do
  let (result, reader) := (Reader.ofSource source).program
  let p ← result
  return ⟨p.name, ← p.generate config, reader.diagnostics⟩

end Plic
