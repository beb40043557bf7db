import Plic.Text.Blank
import Plic.Viewer.Picture

/-!
# Broken lines

A line that is too long for its pane is broken between words; a word that is too long by itself is
broken where the room ends. Blanks are kept, except those that would stand where a line was broken.
-/

namespace Plic.Viewer

/-- Whether a line can be broken at a glyph: at a blank of zero width, and at any other blank but
the one that keeps words together. -/
def Glyph.isGap (g : Glyph) : Bool :=
  g.symbol = ['\u200b'] || (g.symbol.all Text.isBlank && g.symbol ≠ ['\u00a0'])

namespace Wrap

/-- The work on a line: the lines that are finished, the one being filled, and the blanks and the
word that wait for their place; whether the last glyph was part of a word. -/
structure State where
  done : List (List Glyph)
  line : List Glyph
  space : List Glyph
  word : List Glyph
  inWord : Bool

/-- Before the first glyph. -/
def State.start : State := ⟨[], [], [], [], false⟩

/-- Puts what waits into the line. -/
def State.place (s : State) : State :=
  { s with line := s.line ++ s.space ++ s.word, space := [], word := [] }

def State.push (s : State) (g : Glyph) : State :=
  if g.isGap then { s with space := s.space ++ [g], inWord := false }
  else { s with word := s.word ++ [g], inWord := true }

/-- Places a word that is complete, and one that alone fills the line. -/
def State.settle (width : Nat) (s : State) (g : Glyph) : State :=
  let fills := s.line.isEmpty && width < Glyph.widthOf s.word + Glyph.widthOf s.space + g.width
  if (s.inWord && g.isGap) || fills then s.place else s

/-- Drops the glyphs at the front that find place in `room` columns. -/
def dropFitting : Nat → List Glyph → List Glyph
  | _, [] => []
  | room, g :: gs => if g.width ≤ room then dropFitting (room - g.width) gs else g :: gs

/-- Whether the line has to be finished before a glyph is taken in: it is full, or what waits fills
it. -/
def State.isFull (width : Nat) (s : State) (g : Glyph) : Bool :=
  let filled := Glyph.widthOf s.line
  width ≤ filled
    || (0 < g.width && width ≤ filled + Glyph.widthOf s.space + Glyph.widthOf s.word)

/-- One glyph more. A full line is finished, and the blanks that would have stood at its end are
dropped. -/
def State.take (width : Nat) (s : State) (g : Glyph) : State :=
  let s := s.settle width g
  if s.isFull width g then
    let t : State :=
      { s with
        done := s.done ++ [s.line]
        line := []
        space := dropFitting (width - Glyph.widthOf s.line) s.space }
    if g.isGap && t.space.isEmpty then t else t.push g
  else s.push g

/-- One glyph more, unless it is wider than a line. -/
def State.step (width : Nat) (s : State) (g : Glyph) : State :=
  if width < g.width then s else s.take width g

/-- The lines when the last glyph was taken in. -/
def State.finish (s : State) : List (List Glyph) :=
  let blank := s.line.isEmpty && s.word.isEmpty && !s.space.isEmpty
  let done := if blank then s.done ++ [[]] else s.done
  let last := s.line ++ s.space ++ s.word
  let lines := if last.isEmpty then done else done ++ [last]
  if lines.isEmpty then [[]] else lines

end Wrap

def wrap (width : Nat) (line : List Glyph) : List (List Glyph) :=
  (line.foldl (Wrap.State.step width) Wrap.State.start).finish

end Plic.Viewer
