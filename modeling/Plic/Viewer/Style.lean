/-!
# Colours and styles

A style says as much about a cell as it wants to; what it leaves open is settled by the style under
it.
-/

namespace Plic.Viewer

inductive Colour where
  | black | white
  | rgb (red green blue : Nat)
deriving DecidableEq

/-- What is asked of a cell: its colours, where they are not left open, and whether it is bold. -/
structure Style where
  foreground : Option Colour := none
  background : Option Colour := none
  bold : Bool := false
deriving DecidableEq

namespace Style

/-- Nothing is asked. -/
def plain : Style := {}

def ofForeground (c : Colour) : Style := { foreground := some c }

def onTopOf (top base : Style) : Style :=
  ⟨top.foreground.or base.foreground, top.background.or base.background, top.bold || base.bold⟩

def strong (s : Style) : Style := { s with bold := true }

def onto (s : Style) (c : Colour) : Style := { s with background := some c }

end Style

/-! ## The colours of the viewer -/

namespace Theme

def text : Colour := .rgb 205 214 244

/-- Keywords, and the name of the procedure. -/
def primary : Colour := .rgb 137 180 250

/-- Literals, and the number of reports. -/
def secondary : Colour := .rgb 250 179 135

/-- Comments and all that should stay in the background. -/
def muted : Colour := .rgb 108 112 134

def success : Colour := .rgb 166 227 161

/-- Faults. -/
def error : Colour := .rgb 243 139 168

/-- Functions, and the border of the pane in focus. -/
def accent : Colour := .rgb 249 226 175

def attributes : Colour := .rgb 148 226 213

def bar : Colour := .rgb 50 50 70

def border (focused : Bool) : Style :=
  if focused then (Style.ofForeground accent).strong else .ofForeground muted

end Theme

end Plic.Viewer
