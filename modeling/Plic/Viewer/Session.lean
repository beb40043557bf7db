import Plic.Viewer.Pane

/-!
# Sessions of the viewer

A session holds what the viewer shows and where each pane stands. A key changes the session; drawing
it settles the offsets, which keys move freely.
-/

namespace Plic.Viewer

inductive Focus where
  | source | code | output
deriving DecidableEq

namespace Focus

def next : Focus → Focus
  | source => code
  | code => output
  | output => source

/-- The pane before. -/
def previous : Focus → Focus
  | source => output
  | code => source
  | output => code

end Focus

/-- The keys that mean something, and characters. -/
inductive Key where
  | escape | tab | backTab | up | down | pageUp | pageDown | home | toEnd
  | char (c : Char)
  | other
deriving DecidableEq

structure Offsets where
  source : Nat := 0
  code : Nat := 0
  output : Nat := 0
deriving DecidableEq

namespace Offsets

def get (o : Offsets) : Focus → Nat
  | .source => o.source
  | .code => o.code
  | .output => o.output

def set (o : Offsets) (pane : Focus) (n : Nat) : Offsets :=
  match pane with
  | .source => { o with source := n }
  | .code => { o with code := n }
  | .output => { o with output := n }

def greatest : Nat := 0xFFFFFFFFFFFFFFFF

/-- The number of lines that a page key moves by. -/
def page : Nat := 10

end Offsets

/-- The state of the viewer. -/
structure Session where
  source : String
  result : Except Fault Compiled
  /-- The interpreter, if running programs was allowed. -/
  interpreter : Option Interpreter
  output : Option RunOutput
  focus : Focus
  offsets : Offsets
  quit : Bool
  message : String

namespace Session

/-- The state at the beginning. -/
def start (source : String) (result : Except Fault Compiled) (interpreter : Option Interpreter) :
    Session where
  source := source
  result := result
  interpreter := interpreter
  output := none
  focus := .source
  offsets := {}
  quit := false
  message :=
    match result with
    | .ok _ => "Translated"
    | .error f => f.message

/-- Whether there is code and it may be run. -/
def canRun (s : Session) : Bool := s.interpreter.isSome && s.result.toOption.isSome

/-- Moves the pane in focus. -/
def moveTo (s : Session) (offset : Nat) : Session :=
  { s with offsets := s.offsets.set s.focus (min offset Offsets.greatest) }

/-- The offset of the pane in focus. -/
def offset (s : Session) : Nat := s.offsets.get s.focus

def runMessage (interpreter : String) (o : RunOutput) : String :=
  match o.status with
  | some n => interpreter ++ " finished with exit status " ++ toString n
  | none => interpreter ++ " terminated by signal"

def run (s : Session) : Session :=
  match s.interpreter, s.result with
  | none, _ => { s with message := "Execution disabled; start with --run" }
  | some _, .error _ => { s with message := "Nothing to run" }
  | some i, .ok c =>
    match i.run c.code with
    | .error f => { s with message := f.message }
    | .ok o =>
      { s with
        output := some o
        message := runMessage i.name o
        offsets := { s.offsets with output := 0 }
        focus := .output }

def press (s : Session) : Key → Session
  | .escape | .char 'q' | .char 'Q' => { s with quit := true }
  | .tab => { s with focus := s.focus.next }
  | .backTab => { s with focus := s.focus.previous }
  | .up => s.moveTo (s.offset - 1)
  | .down => s.moveTo (s.offset + 1)
  | .pageUp => s.moveTo (s.offset - Offsets.page)
  | .pageDown => s.moveTo (s.offset + Offsets.page)
  | .home => s.moveTo 0
  | .toEnd => s.moveTo Offsets.greatest
  | .char 'r' | .char 'R' => s.run
  | .char _ | .other => s

def faultLine (s : Session) : Option Nat :=
  match s.result with
  | .ok _ => none
  | .error f => some f.loc.line

/-- What the bar shows. -/
def status (s : Session) : Status where
  message := s.message
  procedure := s.result.toOption.map (·.name)
  diagnostics := (s.result.toOption.map (·.diagnostics.length)).getD 0
  canRun := s.canRun

/-- The screen, and the session with the offsets from which its panes were drawn. The source is on
the left; the code is above the output on the right; the bar is the last row. -/
def draw (s : Session) (width height : Nat) : Picture × Session :=
  let barHeight := min 1 height
  let body := height - barHeight
  let left := share 45 width
  let right := width - left
  let upper := share 70 body
  let source := sourcePane left body (s.focus = .source) s.offsets.source s.source s.faultLine
  let code := codePane right upper (s.focus = .code) s.offsets.code s.result
  let output :=
    outputPane right (body - upper) (s.focus = .output) s.offsets.output s.output s.canRun
  (Picture.beside source.picture (code.picture ++ output.picture)
      ++ statusBar width barHeight s.status,
    { s with offsets := ⟨source.scroll, code.scroll, output.scroll⟩ })

end Session

end Plic.Viewer
