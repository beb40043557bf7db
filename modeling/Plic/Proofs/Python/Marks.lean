import Plic.Proofs.Python.Lines
import Plic.Proofs.Python.Literal

/-!
# Literals and line ends of a text

A text of code is scanned from its start: outside of literals a line feed ends a
line and a quote opens a literal, which is read by the rules for literals. What
the scan finds are the marks of the text. It stops at what may give a quote or a
line end another meaning: double quotes, `#`, a backslash, a carriage return, a
quote directly behind a name, which would be a prefix of the literal, and three
quotes in a row.

The marks of the code for an expression are the texts in it, and the marks of
the code for statements are the texts of each line with the end of the line. The
leaves of the code tell them: its texts and its names.

Main results:

* `marks_feed`, `marks_code`, `marks_literal` — what the scan does with the next
  character.
* `marks_word` — a word has no marks.
-/

namespace Plic.Python

open Lexer (isNameRest IsWord)

/-! ## The scan -/

/-- What a scan looks for. -/
inductive Mark where
  | literal (value : String)
  /-- The end of a line. -/
  | feed
deriving DecidableEq

/-- Whether the character can stand in code and be nothing but itself. -/
def isCode (c : Char) : Bool := c ∉ ['\x27', '\x22', '#', '\\', '\n', '\r']

/-- The marks of a text, after `skip` characters that an earlier literal covers. -/
def marksAfter : Nat → List Char → Option (List Mark)
  | _, [] => some []
  | skip + 1, _ :: cs => marksAfter skip cs
  | 0, c :: cs =>
    if c = '\n' then (marksAfter 0 cs).map (.feed :: ·)
    else if c = '\x27' then
      -- three quotes would open a literal of another kind
      if ['\x27', '\x27'] <+: cs then none
      else
        match Literal.read (c :: cs) with
        | some (value, rest) =>
          (marksAfter (cs.length - rest.length) cs).map (.literal value :: ·)
        | none => none
    else if isCode c ∧ ¬ (isNameRest c ∧ cs.head? = some '\x27') then marksAfter 0 cs
    else none

/-- The marks of a text, or nothing if the scan stops. -/
def marks (cs : List Char) : Option (List Mark) := marksAfter 0 cs

example : marks "print('a\\'b', x)\ny = ''\n".toList =
    some [.literal "a'b", .feed, .literal "", .feed] := by decide +kernel

/-- Skipping is the same as scanning what is left. -/
theorem marksAfter_eq (skip : Nat) (cs : List Char) :
    marksAfter skip cs = marks (cs.drop skip) := by
  induction skip generalizing cs with
  | zero => rfl
  | succ skip ih =>
    cases cs with
    | nil => rfl
    | cons c cs => rw [marksAfter, ih, List.drop_succ_cons]

theorem marks_feed (cs : List Char) : marks ('\n' :: cs) = (marks cs).map (.feed :: ·) := by
  rw [marks, marksAfter, if_pos rfl]
  rfl

/-- Code is passed over, unless it would be a prefix of a literal. -/
theorem marks_code {c : Char} {cs : List Char} (hc : isCode c)
    (hjoin : isNameRest c → cs.head? ≠ some '\x27') : marks (c :: cs) = marks cs := by
  have hfeed : c ≠ '\n' := by
    rintro rfl
    exact absurd hc (by decide)
  have hquote : c ≠ '\x27' := by
    rintro rfl
    exact absurd hc (by decide)
  rw [marks, marksAfter, if_neg hfeed, if_neg hquote, if_pos ⟨hc, fun h => hjoin h.1 h.2⟩]
  rfl

/-- A literal is a mark with its value, and the scan goes on behind it. -/
theorem marks_literal {cs rest : List Char} {value : String}
    (htriple : ¬ ['\x27', '\x27'] <+: cs) (h : Literal.read ('\x27' :: cs) = some (value, rest)) :
    marks ('\x27' :: cs) = (marks rest).map (.literal value :: ·) := by
  rw [marks, marksAfter, if_neg (by decide), if_pos rfl, if_neg htriple, h]
  show (marksAfter (cs.length - rest.length) cs).map _ = _
  obtain ⟨front, rfl⟩ := Literal.suffix_of_read h
  rw [marksAfter_eq, List.length_append, Nat.add_sub_cancel, List.drop_left]

theorem isCode_of_isNameRest {c : Char} (h : isNameRest c) : isCode c := by
  apply decide_eq_true
  intro hc
  simp only [List.mem_cons, List.not_mem_nil, or_false] at hc
  rcases hc with rfl | rfl | rfl | rfl | rfl | rfl <;> exact absurd h (by decide)

/-- A word is passed over, unless a quote stands behind it. -/
theorem marks_word {w rest : List Char} (hw : ∀ c ∈ w, isNameRest c)
    (hrest : rest.head? ≠ some '\x27') : marks (w ++ rest) = marks rest := by
  induction w with
  | nil => rfl
  | cons c w ih =>
    rw [List.forall_mem_cons] at hw
    rw [List.cons_append, marks_code (isCode_of_isNameRest hw.1), ih hw.2]
    -- no quote follows directly, so no character is the prefix of a literal
    intro _
    cases w with
    | nil => exact hrest
    | cons d w =>
      rw [List.forall_mem_cons] at hw
      intro hd
      obtain rfl : d = '\x27' := Option.some.inj hd
      exact absurd hw.2.1 (by decide)

/-! ## Leaves -/

/-- What an expression is made of in the end, numbers aside. -/
inductive Leaf where
  | text (value : String)
  | name (id : String)

/-- The mark of a leaf: a text is a literal, and a name is none. -/
def Leaf.mark? : Leaf → Option Mark
  | text value => some (.literal value)
  | name _ => none

/-- The names are words. -/
def Leaf.Fit : Leaf → Prop
  | text _ => True
  | name id => IsWord id.toList

mutual

/-- The texts and names of an expression, in the order of its text. -/
def Expr.leaves : Expr → List Leaf
  | .int _ => []
  | .str s => [.text s]
  | .name id => [.name id]
  | .neg e => e.leaves
  | .binary _ l r => l.leaves ++ r.leaves
  | .index b i => b.leaves ++ i.leaves
  | .sliceFrom b lo => b.leaves ++ lo.leaves
  | .slice b lo hi => b.leaves ++ lo.leaves ++ hi.leaves
  | .call _ args => leavesAll args
  | .find t p => t.leaves ++ p.leaves
  | .single e => e.leaves
  | .replicate e n => e.leaves ++ n.leaves

/-- The leaves of the expressions of a list. -/
def leavesAll : List Expr → List Leaf
  | [] => []
  | e :: es => e.leaves ++ leavesAll es

end

/-- The marks among the leaves. -/
def leafMarks (ls : List Leaf) : List Mark := ls.filterMap Leaf.mark?

@[simp] theorem leafMarks_append (ls ms : List Leaf) :
    leafMarks (ls ++ ms) = leafMarks ls ++ leafMarks ms := List.filterMap_append

/-- The leaves of a comparison. -/
def Comparison.leaves (c : Comparison) : List Leaf := c.left.leaves ++ c.right.leaves

/-- The leaves of a test, in the order of its text. -/
def Test.leaves : Test → List Leaf
  | holds c => c.leaves
  | oneOf e es => e.leaves ++ leavesAll es
  | choice yes condition no => yes.leaves ++ condition.leaves ++ no.leaves

/-- The leaves of the lines under a header: a line without leaves stands for an
empty body. -/
def orPassLeaves : List (List Leaf) → List (List Leaf)
  | [] => [[]]
  | lines => lines

mutual

/-- The leaves of each line of a statement. -/
def Stmt.leaves : Stmt → List (List Leaf)
  | .assign t v => [t.leaves ++ v.leaves]
  | .update t _ v => [t.leaves ++ v.leaves]
  | .run e => [e.leaves]
  | .branch arms => arms.leaves
  | .loop t body => t.leaves :: orPassLeaves (blockLeaves body)

/-- The leaves of each line of statements in a row. -/
def blockLeaves : List Stmt → List (List Leaf)
  | [] => []
  | s :: ss => s.leaves ++ blockLeaves ss

/-- The leaves of each line of a chain. -/
def Arms.leaves : Arms → List (List Leaf)
  | .done => []
  | .otherwise body => [] :: orPassLeaves (blockLeaves body)
  | .arm t body rest => t.leaves :: orPassLeaves (blockLeaves body) ++ rest.leaves

end

/-- The leaves of a procedure line by line. -/
def Procedure.leaves (p : Procedure) : List (List Leaf) :=
  [.name p.name] :: orPassLeaves (blockLeaves p.body) ++ [[], [], [.text "__main__"], [.name p.name]]

/-- The names on all lines are words. -/
def Fit (lines : List (List Leaf)) : Prop := ∀ ls ∈ lines, ∀ l ∈ ls, l.Fit

theorem fit_cons {ls : List Leaf} {lines : List (List Leaf)} :
    Fit (ls :: lines) ↔ (∀ l ∈ ls, l.Fit) ∧ Fit lines := List.forall_mem_cons

theorem fit_append {lines more : List (List Leaf)} :
    Fit (lines ++ more) ↔ Fit lines ∧ Fit more := List.forall_mem_append

theorem fit_singleton {ls : List Leaf} : Fit [ls] ↔ ∀ l ∈ ls, l.Fit := List.forall_mem_singleton

/-- The word for an empty body has no leaves. -/
theorem fit_orPassLeaves {lines : List (List Leaf)} : Fit (orPassLeaves lines) ↔ Fit lines := by
  cases lines with
  | nil => simp [orPassLeaves, Fit]
  | cons ls lines => rfl

/-- The marks of lines, each with its end. -/
def lineMarks (lines : List (List Leaf)) : List Mark :=
  lines.flatMap fun ls => leafMarks ls ++ [.feed]

end Plic.Python
