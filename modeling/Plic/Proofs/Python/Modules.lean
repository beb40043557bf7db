import Plic.Text.Lines
import Plic.Proofs.Python.Uses

/-!
# The names of a module

Where a line stands decides which names it means. A function begins at the margin
and owns the deeper lines behind it. Its parameters, and the names that its lines
define or store into, are its own. Every other name in it is one of the module,
and so are all names in the lines outside of functions.

Main results:

* `moduleUses_append` — the names of a module are those of its pieces.
* `Coded.codeLines_eq` — a text of whole lines has the code of its lines.
* `Procedure.boundNames_render` — the lines of a procedure and its call bind the
  name of the procedure in the module, and nothing else.
-/

namespace Plic.Python

open Layout (breakLines breakLines_append Tidy Unbroken)
open Lexer (takeWhile_append_of_head)

/-! ## Lines of code -/

/-- A line of code: how far it is indented, and its lexemes. -/
structure CodeLine where
  indent : Nat
  lexemes : List Lexeme
deriving DecidableEq

/-- Whether there is anything on the line. -/
def CodeLine.isFilled (l : CodeLine) : Bool := !l.lexemes.isEmpty

/-- A line of a text as code, with the blanks at its start counted. -/
def codeLine (line : List Char) : Option CodeLine :=
  (lex line).map (CodeLine.mk (line.takeWhile (· = ' ')).length)

/-- The lines of a text that have anything on them. -/
def codeLines (text : String) : Option (List CodeLine) :=
  ((breakLines text.toList).mapM codeLine).map (List.filter CodeLine.isFilled)

/-! ## Names of the module -/

/-- Whether the use gives the name a meaning. -/
def Use.binds (u : Use) : Bool := u.role = .defined || u.role = .stored

/-- The names that uses bind. -/
def boundNames (us : List Use) : List String := (us.filter Use.binds).map Use.name

/-- The uses of names in some lines. -/
def lineUses (ls : List CodeLine) : List Use := ls.flatMap fun l => uses l.lexemes

/-- The uses of names of the module in a line at the margin and the deeper lines behind it. A
function has the names in its header, and those that its lines give a meaning, for itself. -/
def pieceUses (head : CodeLine) (body : List CodeLine) : List Use :=
  let header := uses head.lexemes
  let inner := lineUses body
  if head.lexemes.head? = some (.word "def") then
    header.take 1 ++ inner.filter fun u => u.name ∉ header.tail.map Use.name ++ boundNames inner
  else header ++ inner

/-- The uses of module names: each line at the margin is taken together with the deeper lines behind
it. -/
def moduleUses : List CodeLine → List Use
  | [] => []
  | l :: ls =>
    (if l.indent = 0 then pieceUses l (ls.takeWhile (0 < ·.indent)) else []) ++ moduleUses ls

/-- A function that reads a name of the module and has two names of its own. -/
example : (codeLines "import re\ndef f(x):\n    y = re.sub(x)\n    return y\n").map moduleUses =
    some [⟨"re", .defined⟩, ⟨"f", .defined⟩, ⟨"re", .read⟩] := by
  decide +kernel

/-- The first line, if there is one, stands at the margin. -/
def AtMargin (ls : List CodeLine) : Prop := ∀ l ∈ ls.head?, l.indent = 0

/-- A new piece begins at the margin. -/
theorem moduleUses_append {as bs : List CodeLine} (h : AtMargin bs) :
    moduleUses (as ++ bs) = moduleUses as ++ moduleUses bs := by
  induction as with
  | nil => rfl
  | cons a as ih =>
    -- what the line owns ends before the new piece
    have htake : (as ++ bs).takeWhile (0 < ·.indent) = as.takeWhile (0 < ·.indent) := by
      rw [List.takeWhile_append]
      split
      · have hbs : bs.takeWhile (0 < ·.indent) = [] := by
          cases bs with
          | nil => rfl
          | cons b bs =>
            have hb : b.indent = 0 := h b rfl
            exact List.takeWhile_cons_of_neg (by simp [hb])
        rename_i hall
        rw [hbs, List.append_nil, (List.takeWhile_prefix _).eq_of_length hall]
      · rfl
    rw [List.cons_append, moduleUses, moduleUses, htake, ih, List.append_assoc]

/-- Lines that belong to a piece begin none. -/
theorem moduleUses_deep {ls : List CodeLine} (h : ∀ l ∈ ls, 0 < l.indent) : moduleUses ls = [] := by
  induction ls with
  | nil => rfl
  | cons l ls ih =>
    rw [List.forall_mem_cons] at h
    rw [moduleUses, if_neg (by omega), ih h.2, List.append_nil]

/-- A line at the margin with its deeper lines is one piece. -/
theorem moduleUses_piece {l : CodeLine} {body : List CodeLine} (hl : l.indent = 0)
    (hbody : ∀ b ∈ body, 0 < b.indent) : moduleUses (l :: body) = pieceUses l body := by
  have htake : body.takeWhile (0 < ·.indent) = body :=
    List.takeWhile_eq_self_iff.mpr fun b hb => by simpa using hbody b hb
  rw [moduleUses, if_pos hl, moduleUses_deep hbody, htake, List.append_nil]

/-! ## Texts of whole lines -/

/-- Lines that are put together have their texts one after the other. -/
theorem unlines_append (ls ms : List String) :
    Text.unlines (ls ++ ms) = Text.unlines ls ++ Text.unlines ms := by
  simp [Text.unlines, String.join_append]

/-- The text is made of whole lines with the given code, blank lines included. -/
def Coded (text : String) (cs : List CodeLine) : Prop :=
  ∃ ls, text = Text.unlines ls ∧
    List.Forall₂ (fun l c => Unbroken l ∧ codeLine l.toList = some c) ls cs

theorem coded_nil : Coded "" [] := ⟨[], rfl, .nil⟩

theorem coded_line {l : String} {c : CodeLine} (hl : Unbroken l) (hc : codeLine l.toList = some c) :
    Coded (l ++ "\n") [c] := by
  refine ⟨[l], ?_, .cons ⟨hl, hc⟩ .nil⟩
  simp [Text.unlines]

variable {cs : List CodeLine} {text : String} {width : Nat} {p : Procedure}

/-- Texts of whole lines can be put together. -/
theorem Coded.append {a b : String} {ds : List CodeLine} (ha : Coded a cs) (hb : Coded b ds) :
    Coded (a ++ b) (cs ++ ds) := by
  obtain ⟨ls, rfl, hls⟩ := ha
  obtain ⟨ms, rfl, hms⟩ := hb
  exact ⟨ls ++ ms, (unlines_append ls ms).symm, List.rel_append hls hms⟩

/-- A text of whole lines has the code of its lines. -/
theorem Coded.codeLines_eq (h : Coded text cs) :
    codeLines text = some (cs.filter CodeLine.isFilled) := by
  obtain ⟨ls, rfl, hls⟩ := h
  -- behind the last line end there is one more line, which is empty
  have hlines : (breakLines (Text.unlines ls).toList).mapM codeLine = some (cs ++ [⟨0, []⟩]) := by
    induction hls with
    | nil => rfl
    | @cons l c ls cs hl _ ih =>
      have htext : (Text.unlines (l :: ls)).toList =
          l.toList ++ '\n' :: (Text.unlines ls).toList := by
        simp [Text.unlines, String.join_cons]
      rw [htext, breakLines_append hl.1, List.mapM_cons, hl.2, ih]
      rfl
  rw [codeLines, hlines]
  simp [CodeLine.isFilled]

/-- Whole lines in front of a text have their lexemes in a row. -/
theorem Coded.lexed {rest : String} {ms : List Lexeme} (h : Coded text cs) (hrest : Lexed rest ms) :
    Lexed (text ++ rest) (textLexemes (cs.map CodeLine.lexemes) ++ ms) := by
  obtain ⟨ls, rfl, hls⟩ := h
  induction hls with
  | nil => simpa [Text.unlines, textLexemes] using hrest
  | @cons l c ls cs hl _ ih =>
    obtain ⟨found, hfound, rfl⟩ := Option.map_eq_some_iff.mp hl.2
    have htext : Text.unlines (l :: ls) ++ rest = l ++ "\n" ++ (Text.unlines ls ++ rest) := by
      simp [Text.unlines, String.join_cons, String.append_assoc]
    have hline : Lexed l found := hfound
    rw [htext, List.map_cons, textLexemes, List.flatMap_cons, List.append_assoc]
    exact hline.line ih

/-! ## Procedures -/

/-- How far a line is indented; a line without text is not. -/
def Line.indent (width : Nat) (l : Line) : Nat := if l.text = "" then 0 else l.depth * width

/-- A line below another one is indented. -/
theorem Line.indent_pos {l : Line} (hne : l.text ≠ "") (hdepth : 0 < l.depth)
    (hwidth : 0 < width) : 0 < l.indent width := by
  rw [Line.indent, if_neg hne]
  exact Nat.mul_pos hdepth hwidth

/-- A line has the code of its text, indented by its depth. -/
theorem Line.coded_render {l : Line} (htidy : l.text ≠ "" → Tidy l.text) {ls : List Lexeme}
    (h : Lexed l.text ls) (width : Nat) : Coded (l.render width) [⟨l.indent width, ls⟩] := by
  unfold Line.render Line.indent
  split
  case isTrue hempty =>
    rw [hempty, Lexed] at h
    refine coded_line (l := "") (by simp [Unbroken]) ?_
    rw [codeLine, h]
    rfl
  case isFalse hfilled =>
    obtain ⟨hunbroken, c, cs, htext, hc⟩ := htidy hfilled
    have hmargin : Unbroken (String.ofList (List.replicate (l.depth * width) ' ')) := by
      intro d hd
      rw [String.toList_ofList] at hd
      rw [List.eq_of_mem_replicate hd]
      decide
    refine coded_line (hmargin.append hunbroken) ?_
    -- the blanks that are counted end where the text begins
    have hhead : ∀ d ∈ l.text.toList.head?, decide (d = ' ') = false := by simp [htext, hc]
    obtain ⟨htake, -⟩ :=
      takeWhile_append_of_head (w := List.replicate (l.depth * width) ' ') (by simp) hhead
    have hlexed := lexed_indented (l.depth * width) h
    rw [Lexed, String.toList_append, String.toList_ofList] at hlexed
    rw [codeLine, String.toList_append, String.toList_ofList, hlexed, htake, List.length_replicate]
    rfl

/-- At the margin a line has no indent, whatever the width. -/
theorem coded_margin (htidy : text ≠ "" → Tidy text) {ls : List Lexeme}
    (h : Lexed text ls) (width : Nat) : Coded (Line.render width ⟨0, text⟩) [⟨0, ls⟩] := by
  have hcoded := Line.coded_render (l := ⟨0, text⟩) htidy h width
  rwa [Line.indent, Nat.zero_mul, ite_self] at hcoded

/-- Lines below a header. -/
theorem exists_coded_deep {ls : List Line} {lexemes : List (List Lexeme)}
    (h : LinesLexed ls lexemes) (htidy : ∀ l ∈ ls, l.text ≠ "" → Tidy l.text)
    (hdeep : ∀ l ∈ ls, 0 < l.depth) (hwidth : 0 < width) :
    ∃ cs, Coded (String.join (ls.map (Line.render width))) cs ∧
      ∀ c ∈ cs.filter CodeLine.isFilled, 0 < c.indent := by
  induction h with
  | nil => exact ⟨[], coded_nil, by simp⟩
  | @cons l line ls lines hl _ ih =>
    rw [List.forall_mem_cons] at htidy hdeep
    obtain ⟨cs, hcs, hindent⟩ := ih htidy.2 hdeep.2
    refine ⟨⟨l.indent width, line⟩ :: cs, ?_, ?_⟩
    · rw [List.map_cons, String.join_cons]
      exact (Line.coded_render htidy.1 hl width).append hcs
    · intro c hc
      rw [List.filter_cons] at hc
      split at hc
      · rcases List.mem_cons.mp hc with rfl | hc
        · -- a line without text has no lexemes
          rename_i hfilled
          have hne : l.text ≠ "" := by
            intro hempty
            rw [hempty] at hl
            obtain rfl : line = [] := (Option.some.inj hl).symm
            simp [CodeLine.isFilled] at hfilled
          exact Line.indent_pos hne hdeep.1 hwidth
        · exact hindent c hc
      · exact hindent c hc

/-- The lines of a block are below the line that opens it. -/
theorem Outline.depth_pos_of_mem_block {o : Outline} : ∀ l ∈ o.block, 0 < l.depth := by
  unfold Outline.block
  split
  · simp
  · intro l hl
    obtain ⟨m, -, rfl⟩ := List.mem_map.mp hl
    exact Nat.succ_pos _

/-- Uses that are put together bind one after the other. -/
theorem boundNames_append (us vs : List Use) :
    boundNames (us ++ vs) = boundNames us ++ boundNames vs := by
  simp [boundNames]

/-- A function gives a meaning to its own name in the module only. -/
theorem boundNames_pieceUses {name : String} (hname : isNameWord name) (n : Nat)
    (body : List CodeLine) :
    boundNames (pieceUses ⟨n, [.word "def", .word name, .mark '(', .mark ')', .mark ':']⟩ body) =
      [name] := by
  -- what the lines of the body bind is local to them
  have hinner : boundNames ((lineUses body).filter
      fun u => u.name ∉ boundNames (lineUses body)) = [] := by
    rw [boundNames, List.map_eq_nil_iff, List.filter_eq_nil_iff]
    intro u hu hbinds
    rw [List.mem_filter, decide_eq_true_eq] at hu
    exact hu.2 (List.mem_map.mpr ⟨u, List.mem_filter.mpr ⟨hu.1, hbinds⟩, rfl⟩)
  rw [pieceUses, if_pos (by rfl), uses_header_def hname, boundNames_append]
  exact congrArg ([name] ++ ·) hinner

/-- The lines of a legible procedure are tidy. -/
theorem Procedure.Legible.tidy_lines (h : p.Legible) :
    ∀ l ∈ p.outline.lines, l.text ≠ "" → Tidy l.text := by
  intro l hl hne
  rw [p.lines_outline, List.mem_append, List.mem_append] at hl
  rcases hl with (hl | hl) | hl
  · exact h.tidy_node 0 l hl
  · obtain rfl : l = ⟨0, ""⟩ := by simpa using hl
    exact absurd rfl hne
  · exact h.tidy_callNode 0 l hl

/-- The text of a procedure in its three pieces: the procedure, two empty lines, and the call. -/
theorem Procedure.render_eq (p : Procedure) (width : Nat) :
    p.outline.render width =
      Line.render width ⟨0, "def " ++ p.name ++ "():"⟩
        ++ String.join ((outlineAll p.body).block.map (Line.render width))
        ++ (Line.render width ⟨0, ""⟩ ++ Line.render width ⟨0, ""⟩
          ++ (Line.render width ⟨0, "if __name__ == '__main__':"⟩
            ++ Line.render width ⟨1, p.name ++ "()"⟩)) := by
  rw [Outline.render, p.lines_eq, List.map_append, String.join_append, List.map_cons,
    String.join_cons]
  simp only [List.map_cons, List.map_nil, String.join_cons, String.join_nil, String.append_empty,
    String.append_assoc]

/-- The lines of a procedure and its call are two pieces. -/
theorem Procedure.exists_pieces (h : p.Legible) (hfit : Fit p.leaves) (hwidth : 0 < width) :
    ∃ (body : List CodeLine) (n : Nat), (∀ c ∈ body, 0 < c.indent) ∧ 0 < n ∧
      codeLines (p.outline.render width) =
        some ((⟨0, [.word "def", .word p.name, .mark '(', .mark ')', .mark ':']⟩ :: body)
          ++ [⟨0, [.word "if", .word "__name__", .mark '=', .mark '=', .literal "__main__",
              .mark ':']⟩,
            ⟨n, [.word p.name, .mark '(', .mark ')']⟩]) := by
  have htidy := h.tidy_lines
  rw [p.lines_eq, List.forall_mem_append, List.forall_mem_cons] at htidy
  simp only [List.forall_mem_cons] at htidy
  obtain ⟨⟨hheader, hbody⟩, hblank, -, hmain, hcall, -⟩ := htidy
  -- the body is deeper than its header, so none of its lines starts at the margin
  obtain ⟨cs, hcs, hindent⟩ := exists_coded_deep (Procedure.lexed_block hfit) hbody
    Outline.depth_pos_of_mem_block hwidth
  have hlexed := Procedure.lexed_name hfit
  -- the two empty lines have no tokens
  have hgap := coded_margin hblank lexed_empty width
  have hinvocation := Line.coded_render (l := ⟨1, p.name ++ "()"⟩) hcall
    (lexed_invocation hlexed) width
  have hcoded := ((coded_margin hheader (lexed_header hlexed) width).append hcs).append
    ((hgap.append hgap).append ((coded_margin hmain lexed_main width).append hinvocation))
  rw [← p.render_eq] at hcoded
  refine ⟨_, _, hindent,
    Line.indent_pos (l := ⟨1, p.name ++ "()"⟩) (by simp) Nat.one_pos hwidth, ?_⟩
  rw [hcoded.codeLines_eq]
  simp only [List.filter_append]
  rfl

/-- The lines of a procedure and its call bind the name of the procedure in the module, and nothing
else. -/
theorem Procedure.boundNames_render (h : p.Legible) (hfit : Fit p.leaves)
    (hname : isNameWord p.name) (hwidth : 0 < width) :
    ∃ lines, codeLines (p.outline.render width) = some lines ∧
      boundNames (moduleUses lines) = [p.name] := by
  obtain ⟨body, n, hbody, hn, hlines⟩ := Procedure.exists_pieces h hfit hwidth
  refine ⟨_, hlines, ?_⟩
  -- the condition and the call use names, but give none a meaning
  have hcall : boundNames (pieceUses ⟨0, [.word "if", .word "__name__", .mark '=', .mark '=',
      .literal "__main__", .mark ':']⟩ [⟨n, [.word p.name, .mark '(', .mark ')']⟩]) = [] := by
    rw [pieceUses, if_neg (by simp), uses_main, lineUses, List.flatMap_singleton,
      uses_invocation hname]
    rfl
  rw [moduleUses_append (by simp [AtMargin]), moduleUses_piece rfl hbody,
    moduleUses_piece rfl (by simpa using hn), boundNames_append, boundNames_pieceUses hname, hcall]
  rfl

end Plic.Python
