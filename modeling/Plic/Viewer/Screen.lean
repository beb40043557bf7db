import Plic.Viewer.Picture

/-!
# Screens

A screen is not painted anew for each picture: only cells that are different from those of the last
picture are. The cell behind one that shows a wide character is never painted, since the character
covers it, so it keeps what was last painted there.
-/

namespace Plic.Viewer

/-- A screen: what each of its cells was last painted with, and the last picture. -/
structure Screen where
  painted : Picture
  last : Picture
deriving DecidableEq

namespace Screen

/-- A row of the screen after the row `new` followed the row `old`. `covered` says that the cell
before shows a wide character, and `stale` for how many cells a wide character may have to be
painted over. -/
def repaintRow : (covered : Bool) → (stale : Nat) → (painted old new : Row) → Row
  | covered, stale, p :: ps, o :: os, n :: ns =>
    let cell := if !covered && (n ≠ o || 0 < stale) then n else p
    cell :: repaintRow (1 < n.width) (max (max n.width o.width) stale - 1) ps os ns
  | _, _, _, _, _ => []

/-- The rows of the screen after new ones followed old ones. -/
def repaint : (painted old new : Picture) → Picture
  | p :: ps, o :: os, n :: ns => repaintRow false 0 p o n :: repaint ps os ns
  | _, _, _ => []

def paint (s : Screen) (p : Picture) : Screen := ⟨repaint s.painted s.last p, p⟩

def blank (width height : Nat) : Screen :=
  let rows := List.replicate height (Row.blank width .plain)
  ⟨rows, rows⟩

end Screen

end Plic.Viewer
