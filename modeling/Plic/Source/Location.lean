/-!
# Places in a source text

A `Location` is a line and a column, both counted from one; columns count characters. The place of
a character is found by walking over the text before it, one `step` per character.
-/

namespace Plic

/-- A line and a column of a source text. -/
structure Location where
  line : Nat
  column : Nat
deriving DecidableEq

namespace Location

/-- The place of the first character. -/
def start : Location := ⟨1, 1⟩

/-- The place of a node that was not read from a text. -/
def nowhere : Location := ⟨0, 0⟩

/-- The place after the character `c` at `l`: a line feed opens the next line. -/
def step (l : Location) (c : Char) : Location :=
  if c = '\n' then ⟨l.line + 1, 1⟩ else ⟨l.line, l.column + 1⟩

def after (l : Location) (text : List Char) : Location :=
  text.foldl step l

/-- How messages cite a place. -/
def cite (l : Location) : String :=
  "line " ++ toString l.line ++ ", column " ++ toString l.column

@[simp] theorem after_nil (l : Location) : l.after [] = l := rfl

@[simp] theorem after_cons (l : Location) (c : Char) (cs : List Char) :
    l.after (c :: cs) = (l.step c).after cs := rfl

@[simp] theorem after_append (l : Location) (xs ys : List Char) :
    l.after (xs ++ ys) = (l.after xs).after ys := by
  simp [after]

end Location

end Plic
