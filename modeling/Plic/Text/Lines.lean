/-!
# Lines of a text

A line ends at a line feed, or at a carriage return with a line feed behind it. Nothing behind the
last end of a line is no line; a carriage return without a line feed is a character of its line.
-/

namespace Plic.Text

/-- The lines of a text, without their ends. -/
def lines : List Char → List (List Char)
  | [] => []
  | '\n' :: cs => [] :: lines cs
  | '\r' :: '\n' :: cs => [] :: lines cs
  | c :: cs =>
    match lines cs with
    | [] => [[c]]
    | l :: ls => (c :: l) :: ls

def linesOf (s : String) : List String :=
  (lines s.toList).map String.ofList

/-- The text of some lines, each with its end. -/
def unlines (ls : List String) : String :=
  String.join (ls.map (· ++ "\n"))

end Plic.Text
