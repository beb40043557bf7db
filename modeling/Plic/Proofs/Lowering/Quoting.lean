import Plic.Proofs.Lowering.Atoms
import Plic.Proofs.Python.Supply

/-!
# Quoted text stays quoted

Character constants, names of files, texts of queries and credentials are written
as literals. The text of a compiled source is scanned for its literals and line
ends: they are exactly those of the support code and of the lines of the
procedure, so no text ends its literal early or begins a line of its own.

Main results:

* `whole_supportSections` — the marks of the support code.
* `quoted_text_stays_quoted` — the marks of a compiled source.
-/

namespace Plic

open Python (CodeLine Coded Lexeme Mark lexemeMarks lineMarks marks textLexemes)

/-! ## Support code -/

/-- The marks of an entry in the table of the connection: its key, and the
credential itself or the question to the environment. -/
def entryMarks (credentials : Option Credentials) (key : Credentials.Key) : List Mark :=
  .literal key.name ::
    (match credentials with
      | some c => [.literal (c.part key)]
      | none => [.literal key.variableName, .literal ""])
    ++ [.feed]

/-- The marks of the table of the connection: its keys, its values and its lines. -/
def tableMarks (credentials : Option Credentials) : List Mark :=
  .feed :: Credentials.Key.all.flatMap (entryMarks credentials) ++ [.feed]

/-- The marks of a text that does not depend on the program. -/
def fixedMarks (text : String) : List Mark := (marks text.toList).getD []

/-- The marks of the support code, section by section. -/
def supportMarks (h : Python.Helpers) (credentials : Option Credentials) : List (List Mark) :=
  (match h.imports credentials.isSome with
    | [] => []
    | imports => [fixedMarks (Text.unlines imports)])
    ++ (if h.text then [fixedMarks Python.textSupport] else [])
    ++ (if h.get then [fixedMarks Python.getSupport] else [])
    ++ (if h.files then [fixedMarks Python.fileSupport] else [])
    ++ (if h.sql then [tableMarks credentials, fixedMarks Python.sqlSupport] else [])

/-- The text is made of whole lines with the given marks. -/
def Whole (text : String) (ms : List Mark) : Prop :=
  ∃ cs, Coded text cs ∧ lexemeMarks (textLexemes (cs.map CodeLine.lexemes)) = ms

theorem whole_fixed {text : String} (h : ∃ cs, Coded text cs) : Whole text (fixedMarks text) := by
  obtain ⟨cs, hcs⟩ := h
  refine ⟨cs, hcs, ?_⟩
  have hlexed := hcs.lexed Python.lexed_empty
  rw [String.append_empty, List.append_nil] at hlexed
  rw [fixedMarks, Python.marks_of_lex hlexed, Option.getD_some]

theorem Python.Supplies.whole {text : String} {binds names : String → Prop}
    (h : Python.Supplies text binds names) : Whole text (fixedMarks text) := by
  obtain ⟨cs, hcs, -⟩ := h
  exact whole_fixed ⟨cs, hcs⟩

theorem whole_connectionTable (credentials : Option Credentials) :
    Whole (Python.connectionTable credentials) (tableMarks credentials) := by
  refine ⟨_, Python.coded_connectionTable credentials, ?_⟩
  cases credentials <;> rfl

/-- The sections of the support code have their marks. -/
theorem whole_supportSections (h : Python.Helpers) (credentials : Option Credentials) :
    List.Forall₂ Whole (Python.supportSections h credentials) (supportMarks h credentials) := by
  have hif : ∀ (c : Bool) {texts : List String} {mss : List (List Mark)},
      List.Forall₂ Whole texts mss →
      List.Forall₂ Whole (if c then texts else []) (if c then mss else []) := by
    intro c texts mss h
    cases c with
    | false => exact .nil
    | true => exact h
  -- section by section, in the order in which they are put together
  refine List.rel_append (List.rel_append (List.rel_append (List.rel_append ?_ ?_) ?_) ?_) ?_
  · have himports := (Python.supplies_imports h credentials.isSome).whole
    cases hlines : h.imports credentials.isSome with
    | nil => exact .nil
    | cons line lines =>
      rw [hlines] at himports
      exact .cons himports .nil
  · exact hif h.text (.cons (Python.supplies_textSupport true).whole .nil)
  · exact hif h.get (.cons (Python.supplies_getSupport true).whole .nil)
  · exact hif h.files (.cons (Python.supplies_fileSupport true).whole .nil)
  · exact hif h.sql (.cons (whole_connectionTable credentials)
      (.cons Python.supplies_sqlSupport.whole .nil))

/-- The marks of texts with two blank lines behind each. -/
theorem whole_join {texts : List String} {mss : List (List Mark)}
    (h : List.Forall₂ Whole texts mss) :
    Whole (String.join (texts.map (· ++ "\n\n"))) (mss.flatMap (· ++ [.feed, .feed])) := by
  induction h with
  | nil => exact ⟨[], Python.coded_nil, rfl⟩
  | cons htext _ ih =>
    obtain ⟨cs, hcs, rfl⟩ := htext
    obtain ⟨ds, hds, hmarks⟩ := ih
    rw [List.map_cons, String.join_cons, List.flatMap_cons, ← hmarks]
    refine ⟨_, (hcs.append Python.coded_gap).append hds, ?_⟩
    simp [textLexemes, lexemeMarks, Lexeme.mark?]

/-! ## Modules -/

/-- The marks of a module, which may begin with a comment of one line. -/
def moduleMarks : List Char → Option (List Mark)
  | '#' :: cs => marks (cs.dropWhile fun c => c ≠ '\n' && c ≠ '\r')
  | cs => marks cs

/-- The line in front of the code is a comment, whatever the name of the procedure is. -/
theorem moduleMarks_comment {name code : String} (hname : IsSmallWord name) {ms : List Mark}
    (hcode : marks code.toList = some ms) :
    moduleMarks ("# Generated by " ++ version ++ " from PL/I procedure '" ++ name ++ "'\n\n"
      ++ code).toList = some ([.feed, .feed] ++ ms) := by
  -- a name has no line end in it, so the comment ends where its line does
  have hfront : Python.Layout.Unbroken
      (" Generated by " ++ version ++ " from PL/I procedure '" ++ name ++ "'") :=
    ((((Python.unbroken_of_all rfl).append (Python.unbroken_of_all rfl)).append
      (Python.unbroken_of_all rfl)).append (fun c hc => Python.isNameRest_ne
        (Python.isNameRest_of_isWord (Python.isWord_of_isSmallWord hname) c hc))).append
      (Python.unbroken_of_all rfl)
  have hlist : ("# Generated by " ++ version ++ " from PL/I procedure '" ++ name ++ "'\n\n"
      ++ code).toList = '#' ::
        ((" Generated by " ++ version ++ " from PL/I procedure '" ++ name ++ "'").toList
          ++ '\n' :: '\n' :: code.toList) := by
    simp
  rw [hlist, moduleMarks, List.dropWhile_append_of_pos, List.dropWhile_cons_of_neg (by simp),
    Python.marks_feed, Python.marks_feed, hcode]
  · rfl
  · intro c hc
    simpa using hfront c hc

/-- The marks of a compiled source: those of the sections of its support code,
and those of the lines of its procedure. -/
theorem moduleMarks_eq (config : Config) {p : Program} (h : p.Formed) {code : Python.Procedure}
    (hlower : p.lower = .ok code) :
    moduleMarks (p.preamble config ++ code.outline.render config.indent.width).toList =
      some ([.feed, .feed]
        ++ ((supportMarks p.helpers config.credentials).flatMap (· ++ [.feed, .feed])
          ++ lineMarks code.leaves)) := by
  -- the lexemes of the procedure tell its marks, whatever its texts hold
  have hprocedure := Python.Outline.lexed_render (code.lexed_outline (h.fit hlower))
    config.indent.width
  obtain ⟨cs, hcs, hsupport⟩ := whole_join (whole_supportSections p.helpers config.credentials)
  have hmarks := Python.marks_of_lex (hcs.lexed hprocedure)
  rw [Python.lexemeMarks_append, hsupport, code.marks_lexemes] at hmarks
  -- comment and support code, with the gaps behind the sections
  have hpreamble : p.preamble config =
      "# Generated by " ++ version ++ " from PL/I procedure '" ++ p.name ++ "'\n\n"
        ++ String.join ((Python.supportSections p.helpers config.credentials).map (· ++ "\n\n")) :=
    congrArg (_ ++ ·) (Python.supportCode_eq_join p.helpers config.credentials)
  rw [hpreamble, String.append_assoc]
  exact moduleMarks_comment h.name hmarks

/-- **No text leaves its literal.** Whatever stands behind it, the literal of a
text is read back as the text and no further; so different texts have different
literals, and none holds a raw line break. The literals and line ends of a
compiled source are those of the sections of its support code, the credentials
among them, and those of the lines of its procedure. -/
theorem quoted_text_stays_quoted :
    (∀ (text : String) (rest : List Char),
      Python.Literal.read ((Python.quote text).toList ++ rest) = some (text, rest)) ∧
    Function.Injective Python.quote ∧
    (∀ text : String, Python.Layout.Unbroken (Python.quote text)) ∧
    ∀ (config : Config) (source : String) (c : Compiled), compile config source = .ok c →
      ∃ p code, (Reader.ofSource source).program.1 = .ok p ∧ p.lower = .ok code ∧
        moduleMarks c.code.toList =
          some ([.feed, .feed]
            ++ ((supportMarks p.helpers config.credentials).flatMap (· ++ [.feed, .feed])
              ++ lineMarks code.leaves)) := by
  refine ⟨Python.Literal.read_quote, Python.Literal.quote_injective, Python.unbroken_quote, ?_⟩
  intro config source c h
  obtain ⟨p, code, hp, hcode, rfl⟩ := compile_eq_ok_iff.mp h
  exact ⟨p, code, hp, hcode, moduleMarks_eq config (Reader.program_formed hp) hcode⟩

/-- A quote, a backslash and a number sign in a constant, and a quote in a password. -/
theorem quoted_text_stays_quoted_password :
    ∃ config source c,
      config = { credentials := some ⟨"h", "u", "'\n#", "d"⟩ : Config } ∧
      source = "p: PROC OPTIONS(MAIN); EXEC SQL \"it's \" INTO x; PUT LIST('a''\\#'); END p;" ∧
      compile config source = .ok c ∧
      ∃ p code, (Reader.ofSource source).program.1 = .ok p ∧ p.lower = .ok code ∧
        moduleMarks c.code.toList =
          some ([.feed, .feed]
            ++ ((supportMarks p.helpers config.credentials).flatMap (· ++ [.feed, .feed])
              ++ lineMarks code.leaves)) := by
  -- quotes, a backslash, a line feed and a number sign, in every place that is quoted
  have hok : (compile { credentials := some ⟨"h", "u", "'\n#", "d"⟩ }
      "p: PROC OPTIONS(MAIN); EXEC SQL \"it's \" INTO x; PUT LIST('a''\\#'); END p;").isOk := by
    decide +kernel
  obtain ⟨c, hc⟩ := exists_of_isOk hok
  exact ⟨_, _, c, rfl, rfl, hc, quoted_text_stays_quoted.2.2.2 _ _ c hc⟩

end Plic
