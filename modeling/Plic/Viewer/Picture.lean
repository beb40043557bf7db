import Plic.Text.Cluster
import Plic.Text.Width
import Plic.Viewer.Style

/-!
# Pictures

A picture is a list of rows of cells. A cell shows a character as a reader perceives it, with its
marks; one that is wider than a cell leaves the cells behind it open. Pictures of a fixed size are
put together from smaller ones, side by side or one above the other.
-/

namespace Plic.Viewer

structure Cell where
  symbol : List Char
  style : Style
deriving DecidableEq

/-- Text in one style. -/
structure Span where
  text : List Char
  style : Style
deriving DecidableEq

/-- A perceived character in a style. -/
structure Glyph where
  symbol : List Char
  style : Style
deriving DecidableEq

abbrev Row := List Cell

/-- Rows from top to bottom. -/
abbrev Picture := List Row

/-- A cell that shows nothing. -/
def Cell.blank (style : Style) : Cell := ⟨[' '], style⟩

/-- The columns that a cell's symbol takes. -/
def Cell.width (c : Cell) : Nat := Text.width c.symbol

def Span.ofString (s : String) (style : Style) : Span := ⟨s.toList, style⟩

/-- The glyphs of a span. A line feed that stands alone is none. -/
def Span.glyphs (s : Span) : List Glyph :=
  ((Text.clusters s.text).filter (· ≠ ['\n'])).map fun c => ⟨c, s.style⟩

namespace Glyph

/-- The columns that a glyph takes. -/
def width (g : Glyph) : Nat := Text.width g.symbol

/-- The columns that some glyphs take. -/
def widthOf (gs : List Glyph) : Nat := gs.foldr (fun g n => g.width + n) 0

/-- The cells of a glyph: its own, and those that it leaves open behind it. One without width has
none. -/
def cells (g : Glyph) : Row :=
  if g.width = 0 then [] else ⟨g.symbol, g.style⟩ :: List.replicate (g.width - 1) (.blank .plain)

/-- The glyphs that find place in `room` columns of a row of `width`, up to the first one that does
not. One that is wider than the whole row is left out. -/
def fitting (width : Nat) : Nat → List Glyph → List Glyph
  | _, [] => []
  | room, g :: gs =>
    if width < g.width then fitting width room gs
    else if room < g.width then []
    else g :: fitting width (room - g.width) gs

end Glyph

def cellsOf (gs : List Glyph) : Row := gs.flatMap Glyph.cells

/-- The cells of some spans, as far as they find place in a width. -/
def rowOf (width : Nat) (spans : List Span) : Row :=
  cellsOf (Glyph.fitting width width (spans.flatMap Span.glyphs))

namespace Row

/-- The row on top of a style: what its cells leave open is taken from there. -/
def onTopOf (base : Style) (r : Row) : Row :=
  r.map fun c => { c with style := c.style.onTopOf base }

def blank (width : Nat) (style : Style) : Row := List.replicate width (.blank style)

/-- The row on top of a style, cut or filled up to a width. -/
def fit (width : Nat) (base : Style) (r : Row) : Row :=
  Row.onTopOf base (r.take width) ++ blank (width - r.length) base

/-- The row at the right end of a width, or its beginning if it is too long. -/
def fitRight (width : Nat) (base : Style) (r : Row) : Row :=
  blank (width - r.length) base ++ Row.onTopOf base (r.take width)

@[simp] theorem length_onTopOf (base : Style) (r : Row) : (onTopOf base r).length = r.length := by
  simp [onTopOf]

@[simp] theorem length_blank (width : Nat) (style : Style) :
    (blank width style).length = width := by
  simp [blank]

/-- A row that was cut or filled up has the width asked for. -/
@[simp] theorem length_fit (width : Nat) (base : Style) (r : Row) :
    (fit width base r).length = width := by
  simp only [fit, List.length_append, length_onTopOf, length_blank, List.length_take]
  omega

@[simp] theorem length_fitRight (width : Nat) (base : Style) (r : Row) :
    (fitRight width base r).length = width := by
  simp only [fitRight, List.length_append, length_onTopOf, length_blank, List.length_take]
  omega

end Row

namespace Picture

/-- The rows on top of a style, cut or filled up to a size. -/
def fit (width height : Nat) (base : Style) (rows : List Row) : Picture :=
  (rows.take height).map (Row.fit width base)
    ++ List.replicate (height - rows.length) (Row.blank width base)

/-- Two pictures of one height side by side. -/
def beside (left right : Picture) : Picture := List.zipWith (· ++ ·) left right

/-- The cells of a border. -/
def edge (style : Style) (c : Char) (count : Nat) : Row := List.replicate count ⟨[c], style⟩

/-- The top of a border that has a title between its corners. -/
def topEdge (width : Nat) (style : Style) (title : String) : Row :=
  let name := (title.toList.take (width - 2)).map fun c => (⟨[c], style⟩ : Cell)
  let line := edge style '─' (width - 2 - name.length)
  (edge style '┌' 1 ++ name ++ line ++ edge style '┐' 1).take width

def bottomEdge (width : Nat) (style : Style) : Row :=
  (edge style '└' 1 ++ edge style '─' (width - 2) ++ edge style '┘' 1).take width

/-- A border with a title around a picture that is two cells smaller each way. When there is too
little room, the left edge and then the top edge go before the others. -/
def framed (width height : Nat) (style : Style) (title : String) (inner : Picture) : Picture :=
  let sides (r : Row) : Row := (edge style '│' 1 ++ r ++ edge style '│' 1).take width
  let middle := (inner.take (height - 2)).map sides
  (topEdge width style title :: middle ++ [bottomEdge width style]).take height

end Picture

end Plic.Viewer
