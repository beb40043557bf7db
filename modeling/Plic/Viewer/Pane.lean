import Plic.Compile
import Plic.Viewer.Highlight
import Plic.Viewer.Wrap

/-!
# Panes

The parts of the screen: the source, the generated code, the output of the last run, and the bar at
the bottom. A pane that can be scrolled draws itself from a line on, and says from which line it
drew: never from one so far down that rows stay empty which the lines above could fill.
-/

namespace Plic.Viewer

structure Drawn where
  picture : Picture
  scroll : Nat

/-- The number of rows inside a border, counted as at least 1. -/
def visibleRows (height : Nat) : Nat := max 1 (height - 2)

def clampScroll (offset total visible : Nat) : Nat :=
  if visible < total then min offset (total - visible) else 0

/-- The number of a line in front of it. -/
def numberText (n : Nat) : String :=
  let digits := toString n
  String.ofList (List.replicate (4 - digits.length) ' ') ++ digits ++ " "

/-- Lines with their numbers, counted from `n`. -/
def numbered {α : Type} : Nat → List α → List (Nat × α)
  | _, [] => []
  | n, a :: as => (n, a) :: numbered (n + 1) as

def numberStyle : Style := .ofForeground Theme.muted

def codeSpans (language : Language) (n : Nat) (line : List Char) : List Span :=
  Span.ofString (numberText n) numberStyle :: highlight language line

def faultSpans (n : Nat) (line : List Char) : List Span :=
  let mark : Style := ⟨some .white, some Theme.error, true⟩
  Span.ofString (numberText n) (Style.ofForeground Theme.error).strong
    :: (highlight .pli line).map fun s => { s with style := mark }

def framedRows (width height : Nat) (focused : Bool) (title : String) (base : Style)
    (rows : List Row) : Picture :=
  Picture.framed width height (Theme.border focused) title
    (Picture.fit (width - 2) (height - 2) base rows)

/-- A pane of lines that can be scrolled. -/
def scrolled {α : Type} (width height : Nat) (focused : Bool) (title : String) (offset : Nat)
    (lines : List α) (row : Nat → α → Row) : Drawn :=
  let visible := visibleRows height
  let scroll := clampScroll offset lines.length visible
  let shown := ((numbered 1 lines).drop scroll).take visible
  ⟨framedRows width height focused title .plain (shown.map fun l => row l.1 l.2), scroll⟩

/-- The source, with the line at fault marked. -/
def sourcePane (width height : Nat) (focused : Bool) (offset : Nat) (source : String)
    (faultLine : Option Nat) : Drawn :=
  scrolled width height focused " PL/I Source " offset (Text.lines source.toList) fun n line =>
    rowOf (width - 2) (if faultLine = some n then faultSpans n line else codeSpans .pli n line)

/-- The rows that tell why there is no code, broken to a width. -/
def faultRows (width : Nat) (f : Fault) : List Row :=
  let style : Style := .ofForeground Theme.error
  let lines := [Span.ofString "Translation failed" style.strong, Span.ofString "" style,
    Span.ofString f.message style]
  (lines.flatMap fun s => wrap width s.glyphs).map cellsOf

/-- The generated code, or the fault for which there is none. -/
def codePane (width height : Nat) (focused : Bool) (offset : Nat)
    (result : Except Fault Compiled) : Drawn :=
  match result with
  | .ok c =>
    scrolled width height focused " Python " offset (Text.lines c.code.toList) fun n line =>
      rowOf (width - 2) (codeSpans .python n line)
  | .error f => ⟨framedRows width height focused " Python " .plain (faultRows (width - 2) f), 0⟩

/-- The lines of a run's output with their styles, and the line that tells how it ended. -/
def outputLines (o : RunOutput) : List (List Char × Style) :=
  let ending : String × Colour :=
    match o.status with
    | some 0 => ("[exit status 0]", Theme.success)
    | some n => ("[exit status " ++ toString n ++ "]", Theme.error)
    | none => ("[terminated by signal]", Theme.error)
  (Text.lines o.stdout.toList).map (fun l => (l, Style.ofForeground Theme.text))
    ++ (Text.lines o.stderr.toList).map (fun l => (l, Style.ofForeground Theme.error))
    ++ [(ending.1.toList, (Style.ofForeground ending.2).strong)]

/-- The cells of a line of output behind those that are `done`, the last first, in the `room` that
is left. A glyph without width is a mark on the cell before it, be it only left open there. -/
def itemCells (style : Style) : (room : Nat) → (done : Row) → List Glyph → Row
  | _, done, [] => done.reverse
  | room, done, g :: gs =>
    if room < g.width then done.reverse
    else
      match g.width, done with
      | 0, c :: cs => itemCells style room ({ c with symbol := c.symbol ++ g.symbol } :: cs) gs
      | _, _ => itemCells style (room - g.width) (g.cells.reverse ++ done) gs

/-- The cells of a line of output. Marks in front of the first character that has a width share its
cell. -/
def itemRow (style : Style) (width : Nat) (line : List Char) : Row :=
  let glyphs := (⟨line, style⟩ : Span).glyphs
  let marks := (glyphs.takeWhile fun g => g.width = 0).flatMap Glyph.symbol
  match glyphs.dropWhile fun g => g.width = 0 with
  | [] => []
  | g :: gs =>
    if g.width ≤ width then
      match g.cells with
      | c :: open_ => itemCells style (width - g.width)
          (open_ ++ [{ c with symbol := marks ++ c.symbol }]) gs
      | [] => []
    else if marks.isEmpty then [] else [⟨marks, style⟩]

/-- A line of output: one blank cell, and the line in its style up to the end of the row. -/
def outputRow (width : Nat) (line : List Char × Style) : Row :=
  let cells := if Text.width line.1 = 0 then [] else itemRow line.2 (width - 3) line.1
  Row.blank 1 .plain ++ cells ++ Row.blank (width - 3 - cells.length) line.2

/-- What the output pane says before the first run. -/
def runHint (canRun : Bool) : String :=
  if canRun then "(press r to run)" else "(execution disabled; start with --run)"

/-- The output of the last run, or a hint when there was none. -/
def outputPane (width height : Nat) (focused : Bool) (offset : Nat) (output : Option RunOutput)
    (canRun : Bool) : Drawn :=
  match output with
  | some o =>
    scrolled width height focused " Output " offset (outputLines o) fun _ line =>
      outputRow width line
  | none =>
    ⟨framedRows width height focused " Output " (.ofForeground Theme.muted)
      [rowOf (width - 2) [Span.ofString (runHint canRun) .plain]], offset⟩

/-- What the bar at the bottom shows. -/
structure Status where
  message : String
  /-- The name of the procedure, if there is code. -/
  procedure : Option String
  /-- The number of reports on dropped pieces of the source. -/
  diagnostics : Nat
  canRun : Bool

def barStyle : Style := ⟨none, some Theme.bar, false⟩

/-- The left half of the bar. -/
def statusSpans (s : Status) : List Span :=
  let badge : Style := ⟨some .black, none, true⟩
  (match s.procedure with
    | some name => Span.ofString (" " ++ name ++ " ") (badge.onto Theme.primary)
    | none => Span.ofString " ERROR " (badge.onto Theme.error))
    :: Span.ofString " | " ((Style.ofForeground Theme.muted).onto Theme.bar)
    :: Span.ofString (" " ++ s.message ++ " ") ((Style.ofForeground Theme.text).onto Theme.bar)
    :: (if 0 < s.diagnostics then
        [Span.ofString (" " ++ toString s.diagnostics ++ " warning(s) ")
          ⟨some .black, some Theme.secondary, false⟩]
      else [])

def keySpans (key action : String) : List Span :=
  [Span.ofString key ⟨some .black, some Theme.muted, false⟩,
    Span.ofString action ((Style.ofForeground Theme.text).onto Theme.bar)]

/-- What stands between two keys. -/
def keySeparator : List Span :=
  [Span.ofString "│" ((Style.ofForeground Theme.muted).onto Theme.bar),
    Span.ofString " " ((Style.ofForeground Theme.text).onto Theme.bar)]

/-- The right half of the bar. -/
def keyBar (canRun : Bool) : List Span :=
  keySpans " ⇥ " " focus " ++ keySeparator ++ keySpans " ↑/↓ " " scroll " ++ keySeparator
    ++ (if canRun then keySpans " r " " run " ++ keySeparator else [])
    ++ keySpans " q " " quit "

/-- A share of a length in hundredths, rounded to whole cells with a half rounded up. -/
def share (percent length : Nat) : Nat := (percent * length + 50) / 100

def statusBar (width height : Nat) (s : Status) : Picture :=
  let left := share 50 width
  let right := width - left
  let top := Row.fit left barStyle (rowOf left (statusSpans s))
    ++ Row.fitRight right barStyle (rowOf right (keyBar s.canRun))
  (top :: List.replicate (height - 1) (Row.blank width barStyle)).take height

end Plic.Viewer
