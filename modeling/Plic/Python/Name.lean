/-!
# Names of the generated code

Variables and the procedure keep their names as far as Python allows. The names that the generated
code itself introduces begin with an underscore and do not end with one.
-/

namespace Plic.Python

/-- The keywords of Python, and the built-in functions and modules that generated code uses. -/
def reserved : List String :=
  ["False", "None", "True", "and", "as", "assert", "async", "await", "break", "class", "continue",
    "def", "del", "elif", "else", "except", "finally", "for", "from", "global", "if", "import",
    "in", "is", "lambda", "nonlocal", "not", "or", "pass", "raise", "return", "try", "while",
    "with", "yield", "match", "case",
    "print", "str", "int", "input", "range", "open", "len", "sys", "os", "mysql"]

/-- The name in generated code of a variable or procedure: one more underscore at the end of a
reserved name and of a name with an underscore at either end, and any other name unchanged. -/
def safeName (name : String) : String :=
  if name ∈ reserved ∨ name.toList.head? = some '_' ∨ name.toList.getLast? = some '_' then
    name ++ "_"
  else name

/-- The `n`th name for a value that is computed ahead of a loop. -/
def temporaryName (role : String) (n : Nat) : String :=
  "_pli_" ++ role ++ toString n

end Plic.Python
