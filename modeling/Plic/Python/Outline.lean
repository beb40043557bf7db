/-!
# Nested lines

Code is put together as an outline: lines, each with its depth relative to the outline's own margin.
A block is nested under its header as a whole, so depth is settled when the outline is built and
never read off the text; the width of a level enters only when an outline is written out.
-/

namespace Plic.Python

structure Line where
  depth : Nat
  text : String
deriving DecidableEq

def Line.deeper (l : Line) : Line := { l with depth := l.depth + 1 }

/-- The line with `width` blanks for each level. A line without text has none, so that no blanks
stand at the end of a line. -/
def Line.render (width : Nat) (l : Line) : String :=
  if l.text = "" then "\n"
  else String.ofList (List.replicate (l.depth * width) ' ') ++ l.text ++ "\n"

/-- Lines of code in order. -/
structure Outline where
  lines : List Line
deriving DecidableEq

namespace Outline

/-- No lines. -/
def empty : Outline := ⟨[]⟩

/-- Whether there are no lines. -/
def isEmpty (o : Outline) : Bool := o.lines.isEmpty

/-- Adds a line at the margin. -/
def push (o : Outline) (text : String) : Outline := ⟨o.lines ++ [⟨0, text⟩]⟩

def line (text : String) : Outline := empty.push text

/-- Adds a line without text. -/
def blank (o : Outline) : Outline := o.push ""

/-- Adds the lines of another outline. -/
def append (o p : Outline) : Outline := ⟨o.lines ++ p.lines⟩

/-- What stands under a header: the body one level deeper, or `pass` for an empty body. -/
def block (body : Outline) : List Line :=
  if body.lines = [] then [⟨1, "pass"⟩] else body.lines.map Line.deeper

def nest (o : Outline) (header : String) (body : Outline) : Outline :=
  ⟨o.lines ++ ⟨0, header⟩ :: block body⟩

/-- The text of an outline with `width` blanks for each level. -/
def render (o : Outline) (width : Nat) : String :=
  String.join (o.lines.map (Line.render width))

/-! ## The lines of an outline -/

@[simp] theorem lines_empty : empty.lines = [] := rfl

@[simp] theorem lines_push (o : Outline) (text : String) :
    (o.push text).lines = o.lines ++ [⟨0, text⟩] := rfl

@[simp] theorem lines_line (text : String) : (line text).lines = [⟨0, text⟩] := rfl

@[simp] theorem lines_blank (o : Outline) : o.blank.lines = o.lines ++ [⟨0, ""⟩] := rfl

@[simp] theorem lines_append (o p : Outline) : (o.append p).lines = o.lines ++ p.lines := rfl

@[simp] theorem lines_nest (o : Outline) (header : String) (body : Outline) :
    (o.nest header body).lines = o.lines ++ ⟨0, header⟩ :: block body := rfl

/-- A header never stands alone. -/
theorem block_ne_nil (body : Outline) : block body ≠ [] := by
  unfold block
  split <;> simp_all

end Outline

end Plic.Python
