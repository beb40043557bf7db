import Mathlib
import Plic.Viewer.Session

/-!
# Sessions stay consistent

Keys move an offset freely, down to the greatest number there is, and only drawing brings it back:
each pane for itself, with its own count of lines and its own height. A run replaces the output,
the focus and one offset at once. So what has to be excluded is that some order of keys, runs,
draws and changes of size leaves a pane beyond its lines, or shows an output that nobody was
allowed to produce.

Programs answer a run as they like: every key is pressed at a time when the interpreter makes
something of programs, which need not be what it made of them before (`Event`).

Main results:

* `Session.press_cases`, `Session.run_cases` — all that a key can do.
* `Session.settled_drawIn` — a pane that was drawn is full or shows everything.
* `Session.kept_after` — what every event keeps, and so every session.
* `sessions_stay_consistent` — the state of the viewer after any events.
-/

namespace Plic.Viewer

/-! ## Events -/

/-- What happens to a session. -/
inductive Event where
  /-- A key is pressed, at a time when the interpreter makes `answer` of programs. -/
  | press (key : Key) (answer : String → Except RunFault RunOutput)
  /-- Each pane is drawn in an area of some width and height. -/
  | draw (area : Focus → Nat × Nat)

namespace Session

/-- The session at a time when its interpreter, if it has one, makes `answer` of programs. -/
def answering (s : Session) (answer : String → Except RunFault RunOutput) : Session :=
  { s with interpreter := s.interpreter.map fun i => { i with run := answer } }

/-- The session with the offsets from which its panes were drawn in their areas. -/
def drawIn (s : Session) (area : Focus → Nat × Nat) : Session :=
  { s with
    offsets := {
      source := (sourcePane (area .source).1 (area .source).2 (s.focus = .source) s.offsets.source
        s.source s.faultLine).scroll
      code := (codePane (area .code).1 (area .code).2 (s.focus = .code) s.offsets.code
        s.result).scroll
      output := (outputPane (area .output).1 (area .output).2 (s.focus = .output) s.offsets.output
        s.output s.canRun).scroll } }

/-- A session behind an event: a key with what would be answered to a run, or a drawing. -/
def after (s : Session) : Event → Session
  | .press key answer => (s.answering answer).press key
  | .draw area => s.drawIn area

/-- The areas of the panes on a screen. -/
def areas (width height : Nat) : Focus → Nat × Nat
  | .source => (share 45 width, height - min 1 height)
  | .code => (width - share 45 width, share 70 (height - min 1 height))
  | .output => (width - share 45 width,
      height - min 1 height - share 70 (height - min 1 height))

/-- A screen is drawn by drawing its panes. -/
theorem draw_eq_drawIn (s : Session) (width height : Nat) :
    (s.draw width height).2 = s.drawIn (areas width height) := rfl

/-! ## What a pane shows -/

/-- The lines of a pane. There are none of code when there is no code, and none of output before the
first run. -/
def paneLines (s : Session) : Focus → List (List Char)
  | .source => Text.lines s.source.toList
  | .code =>
    match s.result with
    | .ok c => Text.lines c.code.toList
    | .error _ => []
  | .output =>
    match s.output with
    | some o => (outputLines o).map Prod.fst
    | none => []

/-- The lines that a pane of a height shows from its offset on. -/
def window (s : Session) (pane : Focus) (height : Nat) : List (List Char) :=
  ((s.paneLines pane).drop (s.offsets.get pane)).take (visibleRows height)

/-- The pane stands no further down than its rows can be filled, so they are all taken or hold all
of its lines. -/
structure Settled (s : Session) (pane : Focus) (height : Nat) : Prop where
  bounded : s.offsets.get pane ≤ (s.paneLines pane).length - visibleRows height
  filled  : (s.window pane height).length = visibleRows height ∨
    s.window pane height = s.paneLines pane

/-- No pane is scrolled beyond its last row. -/
theorem clampScroll_le (offset total visible : Nat) :
    clampScroll offset total visible ≤ total - visible := by
  unfold clampScroll
  split <;> omega

theorem settled_of_bounded {s : Session} {pane : Focus} {height : Nat}
    (h : s.offsets.get pane ≤ (s.paneLines pane).length - visibleRows height) :
    s.Settled pane height := by
  refine ⟨h, ?_⟩
  unfold window
  by_cases hlong : visibleRows height < (s.paneLines pane).length
  · -- there are more lines than rows, and enough of them behind the offset
    left
    rw [List.length_take, List.length_drop]
    omega
  · -- all lines find place, and the offset is 0
    right
    have hzero : s.offsets.get pane = 0 := by omega
    rw [hzero, List.drop_zero]
    exact List.take_of_length_le (by omega)

/-- A pane that was drawn is settled; the output only if there is one, since what is shown without
one has no lines. -/
theorem settled_drawIn (s : Session) (area : Focus → Nat × Nat) {pane : Focus}
    (houtput : pane = .output → s.output.isSome) :
    (s.drawIn area).Settled pane (area pane).2 := by
  apply settled_of_bounded
  cases pane with
  | source => exact clampScroll_le _ _ _
  | code =>
    cases hresult : s.result with
    | ok c =>
      simp only [drawIn, Offsets.get, paneLines, codePane, hresult]
      exact clampScroll_le _ _ _
    | error f =>
      -- a fault is shown from its first line
      simp only [drawIn, Offsets.get, codePane, hresult]
      exact Nat.zero_le _
  | output =>
    obtain ⟨o, ho⟩ := Option.isSome_iff_exists.mp (houtput rfl)
    simp only [drawIn, Offsets.get, paneLines, outputPane, ho, List.length_map]
    exact clampScroll_le _ _ _

/-! ## What a key does -/

/-- The key runs the program, and the run has a result. -/
structure RunsTo (s : Session) (key : Key) (answer : String → Except RunFault RunOutput)
    (o : RunOutput) : Prop where
  key     : key = .char 'r' ∨ key = .char 'R'
  allowed : s.interpreter.isSome
  code    : ∃ c, s.result = .ok c ∧ answer c.code = .ok o

/-- A session behind a run. -/
def ranWith (s : Session) (message : String) (o : RunOutput) : Session :=
  { s with
    output := some o
    message := message
    offsets := { s.offsets with output := 0 }
    focus := .output }

/-- A key moves the pane in focus, or runs the program, or concerns neither offsets nor output. -/
theorem press_cases (s : Session) (key : Key) :
    (¬ (key = .char 'r' ∨ key = .char 'R') ∧ ∃ n, s.press key = s.moveTo n) ∨
    ((key = .char 'r' ∨ key = .char 'R') ∧ s.press key = s.run) ∨
    (¬ (key = .char 'r' ∨ key = .char 'R') ∧
      ∃ focus quit, s.press key = { s with focus := focus, quit := quit }) := by
  cases key with
  | up | down | pageUp | pageDown | home | toEnd => exact .inl ⟨by simp, _, rfl⟩
  | escape | tab | backTab | other => exact .inr (.inr ⟨by simp, _, _, rfl⟩)
  | char c =>
    by_cases hrun : c = 'r' ∨ c = 'R'
    · rcases hrun with rfl | rfl
      · exact .inr (.inl ⟨.inl rfl, rfl⟩)
      · exact .inr (.inl ⟨.inr rfl, rfl⟩)
    · refine .inr (.inr ⟨by simpa using hrun, ?_⟩)
      -- any other letter quits or does nothing
      by_cases hquit : c = 'q' ∨ c = 'Q'
      · rcases hquit with rfl | rfl <;> exact ⟨_, _, rfl⟩
      · refine ⟨s.focus, s.quit, ?_⟩
        unfold press
        split <;> simp_all

/-- A run has a result, or all that it leaves is a message. -/
theorem run_cases (s : Session) :
    (∃ i c o, s.interpreter = some i ∧ s.result = .ok c ∧ i.run c.code = .ok o ∧
      s.run = s.ranWith (runMessage i.name o) o) ∨
    ((∀ i c o, s.interpreter = some i → s.result = .ok c → i.run c.code ≠ .ok o) ∧
      ∃ message, s.run = { s with message := message }) := by
  rcases Option.eq_none_or_eq_some s.interpreter with hi | ⟨i, hi⟩
  · exact .inr ⟨by simp [hi], "Execution disabled; start with --run", by simp only [run, hi]⟩
  obtain ⟨f, hresult⟩ | ⟨c, hresult⟩ : (∃ f, s.result = .error f) ∨ ∃ c, s.result = .ok c := by
    cases s.result <;> simp
  · exact .inr ⟨by simp [hresult], "Nothing to run", by simp only [run, hi, hresult]⟩
  obtain ⟨f, hrun⟩ | ⟨o, hrun⟩ : (∃ f, i.run c.code = .error f) ∨ ∃ o, i.run c.code = .ok o := by
    cases i.run c.code <;> simp
  · refine .inr ⟨?_, f.message, by simp only [run, hi, hresult, hrun]⟩
    intro j d o hj hd
    obtain rfl := Option.some.inj (hi.symm.trans hj)
    obtain rfl := Except.ok.inj (hresult.symm.trans hd)
    simp [hrun]
  · exact .inl ⟨i, c, o, hi, hresult, hrun, by simp only [run, ranWith, hi, hresult, hrun]⟩

/-- What is left of a key that is pressed at a time when the interpreter answers as it does then. -/
theorem after_press_cases (s : Session) (key : Key) (answer : String → Except RunFault RunOutput) :
    (∃ o message, s.RunsTo key answer o ∧
      s.after (.press key answer) = (s.answering answer).ranWith message o) ∨
    ((∀ o, ¬ s.RunsTo key answer o) ∧
      ((∃ n, s.after (.press key answer) = (s.answering answer).moveTo n) ∨
        ∃ focus quit message, s.after (.press key answer) =
          { s.answering answer with focus := focus, quit := quit, message := message })) := by
  rcases (s.answering answer).press_cases key with
    ⟨hkey, n, hmove⟩ | ⟨hkey, hrun⟩ | ⟨hkey, focus, quit, hpress⟩
  · exact .inr ⟨fun o h => hkey h.key, .inl ⟨n, hmove⟩⟩
  -- a run needs an interpreter, a translation and an answer
  · rcases (s.answering answer).run_cases with ⟨i, c, o, hi, hc, ho, hran⟩ | ⟨hnone, message, hran⟩
    · obtain ⟨j, hj, rfl⟩ := Option.map_eq_some_iff.mp hi
      exact .inl ⟨o, _, ⟨hkey, by rw [hj]; rfl, c, hc, ho⟩, hrun.trans hran⟩
    · refine .inr ⟨?_, .inr ⟨_, _, message, hrun.trans hran⟩⟩
      rintro o ⟨-, hallowed, c, hc, ho⟩
      obtain ⟨j, hj⟩ := Option.isSome_iff_exists.mp hallowed
      exact hnone _ c o (by rw [answering, hj]; rfl) hc ho
  · exact .inr ⟨fun o h => hkey h.key, .inr ⟨focus, quit, _, hpress⟩⟩

/-- A key that runs nothing to an end moves at most the pane in focus. -/
theorem offsets_after_press {s : Session} {key : Key} {answer : String → Except RunFault RunOutput}
    (h : ∀ o, ¬ s.RunsTo key answer o) {pane : Focus} (hpane : pane ≠ s.focus) :
    (s.after (.press key answer)).offsets.get pane = s.offsets.get pane := by
  rcases s.after_press_cases key answer with ⟨o, _, hruns, -⟩ | ⟨-, ⟨n, hmove⟩ | ⟨_, _, _, hrest⟩⟩
  · exact absurd hruns (h o)
  · rw [hmove]
    unfold moveTo Offsets.set
    -- the focus is that of the session itself
    cases hfocus : s.focus <;> cases pane <;> simp_all [answering, Offsets.get]
  · rw [hrest]
    rfl

/-! ## What every event keeps -/

/-- What a session that began as `start` has in common with it at all times. -/
structure Kept (start s : Session) : Prop where
  source : s.source = start.source
  result : s.result = start.result
  allowed : s.interpreter.isSome = start.interpreter.isSome
  output : s.output.isSome → start.canRun

/-- A session keeps what it starts with. -/
theorem kept_start (source : String) (result : Except Fault Compiled)
    (interpreter : Option Interpreter) :
    Kept (start source result interpreter) (start source result interpreter) :=
  ⟨rfl, rfl, rfl, by simp [start]⟩

/-- Whether a run is possible does not change. -/
theorem Kept.canRun_eq {start s : Session} (h : Kept start s) : s.canRun = start.canRun := by
  rw [canRun, canRun, h.allowed, h.result]

/-- What would be answered is not part of what is kept. -/
theorem kept_answering {start s : Session} (h : Kept start s)
    (answer : String → Except RunFault RunOutput) : Kept start (s.answering answer) :=
  ⟨h.source, h.result, by rw [← h.allowed, answering, Option.isSome_map], h.output⟩

/-- A step: what a session keeps, it keeps through one more event. -/
theorem kept_after {start s : Session} (h : Kept start s) (e : Event) : Kept start (s.after e) := by
  cases e with
  | draw area => exact ⟨h.source, h.result, h.allowed, h.output⟩
  | press key answer =>
    have hkept := kept_answering h answer
    rcases s.after_press_cases key answer with
      ⟨o, _, hruns, hran⟩ | ⟨-, ⟨n, hmove⟩ | ⟨_, _, _, hrest⟩⟩
    · -- only here does an output come in, and only where there is something to run
      rw [hran]
      refine ⟨hkept.source, hkept.result, hkept.allowed, fun _ => ?_⟩
      obtain ⟨c, hc, -⟩ := hruns.code
      rw [← h.canRun_eq, canRun, hruns.allowed, hc]
      rfl
    · rw [hmove]
      exact ⟨hkept.source, hkept.result, hkept.allowed, hkept.output⟩
    · rw [hrest]
      exact ⟨hkept.source, hkept.result, hkept.allowed, hkept.output⟩

/-- A run: what a session keeps, it keeps through any events. -/
theorem kept_foldl {start s : Session} (h : Kept start s) (events : List Event) :
    Kept start (events.foldl after s) := by
  induction events generalizing s with
  | nil => exact h
  | cons e events ih => exact ih (kept_after h e)

/-- A run is possible exactly if there is an interpreter and code. -/
theorem canRun_start (source : String) (result : Except Fault Compiled)
    (interpreter : Option Interpreter) :
    (start source result interpreter).canRun ↔ interpreter.isSome ∧ ∃ c, result = .ok c := by
  rw [canRun, Bool.and_eq_true]
  refine and_congr Iff.rfl ?_
  cases result <;> simp [start, Except.toOption]

end Session

/-- **Sessions stay consistent.** After any keys, runs and draws: source, result and the permission
to run are those of the beginning, and there is an output only where running was allowed and there
is code to run. Whatever is drawn next, in panes of any heights, every pane is settled, the output
if there is one; and a screen is drawn as such panes. Whatever key is pressed next, only the pane
in focus can move, unless the key runs the program to an end; then the output starts at its first
line and no other pane moves. -/
theorem sessions_stay_consistent (source : String) (result : Except Fault Compiled)
    (interpreter : Option Interpreter) (events : List Event) :
    let s := events.foldl Session.after (.start source result interpreter)
    (s.source = source ∧ s.result = result ∧
      s.canRun = (Session.start source result interpreter).canRun) ∧
    (s.output.isSome → interpreter.isSome ∧ ∃ c, result = .ok c) ∧
    (∀ area pane, (pane = .output → s.output.isSome) →
      (s.after (.draw area)).Settled pane (area pane).2) ∧
    (∀ width height, ∃ area, (s.draw width height).2 = s.after (.draw area)) ∧
    ∀ key answer,
      ((∀ o, ¬ s.RunsTo key answer o) → ∀ pane, pane ≠ s.focus →
        (s.after (.press key answer)).offsets.get pane = s.offsets.get pane) ∧
      ∀ o, s.RunsTo key answer o →
        (s.after (.press key answer)).output = some o ∧
        (s.after (.press key answer)).offsets = s.offsets.set .output 0 := by
  intro s
  have hkept : Session.Kept (.start source result interpreter) s :=
    Session.kept_foldl (Session.kept_start source result interpreter) events
  refine ⟨⟨hkept.source, hkept.result, hkept.canRun_eq⟩, ?_, ?_, ?_, ?_⟩
  · intro houtput
    exact (Session.canRun_start source result interpreter).mp (hkept.output houtput)
  · intro area pane houtput
    exact s.settled_drawIn area houtput
  · intro width height
    exact ⟨Session.areas width height, s.draw_eq_drawIn width height⟩
  · intro key answer
    refine ⟨fun h pane hpane => Session.offsets_after_press h hpane, fun o ho => ?_⟩
    rcases s.after_press_cases key answer with ⟨o', _, ho', hran⟩ | ⟨hnone, -⟩
    · -- programs have one answer at a time
      obtain ⟨c, hc, hanswer⟩ := ho.code
      obtain ⟨c', hc', hanswer'⟩ := ho'.code
      obtain rfl := Except.ok.inj (hc.symm.trans hc')
      obtain rfl := Except.ok.inj (hanswer.symm.trans hanswer')
      rw [hran]
      exact ⟨rfl, rfl⟩
    · exact absurd ho (hnone o)

/-- Output of five lines, moved to its end and drawn in two rows, is drawn again in four; then a key
moves it, and a further run begins it anew. -/
theorem sessions_stay_consistent_resized :
    let answer : String → Except RunFault RunOutput := fun _ => .ok ⟨some 0, "1\n2\n3\n4\n", ""⟩
    let s := [Event.press (.char 'r') answer, .press .toEnd answer, .draw fun _ => (20, 4)].foldl
      Session.after (.start "" (.ok ⟨"p", "pass\n", []⟩) (some ⟨"python3", answer⟩))
    s.offsets = ⟨0, 0, 3⟩ ∧ (s.after (.draw fun _ => (20, 6))).Settled .output 6 ∧
      (s.after (.press .up answer)).offsets.get .source = s.offsets.get .source ∧
      (s.after (.press (.char 'R') answer)).offsets = s.offsets.set .output 0 := by
  intro answer s
  obtain ⟨-, -, hdraw, -, hpress⟩ := sessions_stay_consistent "" (.ok ⟨"p", "pass\n", []⟩)
    (some ⟨"python3", answer⟩)
    [.press (.char 'r') answer, .press .toEnd answer, .draw fun _ => (20, 4)]
  -- the cursor key starts no run
  have hup : ∀ o, ¬ s.RunsTo .up answer o := by
    rintro o ⟨hkey | hkey, -, -⟩ <;> cases hkey
  refine ⟨by decide +kernel, hdraw (fun _ => (20, 6)) .output fun _ => rfl,
    (hpress .up answer).1 hup .source (by decide +kernel), ?_⟩
  exact ((hpress (.char 'R') answer).2 _ ⟨.inr rfl, rfl, _, rfl, rfl⟩).2

end Plic.Viewer
