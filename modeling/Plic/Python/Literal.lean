/-!
# String literals

A text is written between single quotes. Backslash, single quote, line feed, carriage return and tab
are written with a backslash; every other character stands for itself. So a literal never holds a
raw line break or an unescaped quote.
-/

namespace Plic.Python

/-- The spelling of a character inside a literal. -/
def escape (c : Char) : List Char :=
  if c = '\\' then ['\\', '\\']
  else if c = '\x27' then ['\\', '\x27']
  else if c = '\n' then ['\\', 'n']
  else if c = '\r' then ['\\', 'r']
  else if c = '\t' then ['\\', 't']
  else [c]

def quote (text : String) : String :=
  String.ofList ('\x27' :: text.toList.flatMap escape ++ ['\x27'])

end Plic.Python
