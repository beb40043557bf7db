import Plic.Proofs.Compile.Case
import Plic.Proofs.Compile.Support

/-!
# Credentials stay in the table of the connection

Credentials are part of the settings that all work is done under, and whether
they are written at all depends on a query that may stand at any depth. So what
has to be excluded is that they have a part in anything else. Two compilations of
a source that differ in their credentials are compared line by line here.

A module with a query is a `Frame`, lines that are the same for all credentials,
and two gaps in it. One holds the import of `os`, which only a module without
credentials needs; the other holds the table of the connection. No line of the
frame, and no line of the table whatever the credentials are, can be mistaken for
the import.

Main results:

* `supportBlock_congr` — without queries, credentials have no part in the support
  code.
* `exists_frame` — with a query, the module is a frame around the table.
* `credentials_stay_in_table` — what two compilations have in common.
-/

namespace Plic

open Python (Helpers Line Procedure connectionTable connectionValue supportBlock unbroken_of_all)
open Python.Layout (Unbroken Tidy breakLines)

/-! ## Lines that do not depend on credentials -/

/-- The text is one line, and not the import of `os`. -/
structure Neutral (line : String) : Prop where
  unbroken : Unbroken line
  other : line ≠ "import os"

/-- Whether a line is neutral can be computed for a line that is known. -/
theorem Neutral.of_all {line : String}
    (h : (line.toList.all (fun c => c ≠ '\n' && c ≠ '\r') && line ≠ "import os") = true) :
    Neutral line := by
  obtain ⟨hunbroken, hother⟩ := Bool.and_eq_true_iff.mp h
  exact ⟨unbroken_of_all hunbroken, of_decide_eq_true hother⟩

/-- The import begins with a letter of its own. -/
theorem Neutral.of_head {line : String} (hunbroken : Unbroken line) {c : Char}
    (hhead : line.toList.head? = some c) (hc : c ≠ 'i') : Neutral line := by
  refine ⟨hunbroken, ?_⟩
  rintro rfl
  exact hc (Option.some.inj hhead).symm

/-- Lines that are given by their characters, on which they are tested. -/
theorem neutral_of_chars {ls : List String} {css : List (List Char)}
    (hlines : List.Forall₂ (fun l cs => l = String.ofList cs) ls css)
    (h : (css.all fun cs => cs.all (fun c => c ≠ '\n' && c ≠ '\r') && cs ≠ "import os".toList) = true) :
    ∀ l ∈ ls, Neutral l := by
  induction hlines with
  | nil => simp
  | @cons l cs ls css hl _ ih =>
    rw [List.all_cons, Bool.and_eq_true, Bool.and_eq_true] at h
    obtain ⟨⟨hunbroken, hother⟩, hrest⟩ := h
    have htext : l.toList = cs := by rw [hl, String.toList_ofList]
    rw [← htext] at hunbroken hother
    refine List.forall_mem_cons.mpr ⟨⟨unbroken_of_all hunbroken, ?_⟩, ih hrest⟩
    -- the one line that is looked for is the import
    rintro rfl
    exact of_decide_eq_true hother rfl

/-- The text is made of whole lines that do not depend on credentials. -/
def Lined (text : String) : Prop := ∃ ls, text = Text.unlines ls ∧ ∀ l ∈ ls, Neutral l

namespace Lined

theorem unlines {ls : List String} (h : ∀ l ∈ ls, Neutral l) : Lined (Text.unlines ls) :=
  ⟨ls, rfl, h⟩

theorem line {l : String} (h : Neutral l) : Lined (l ++ "\n") :=
  ⟨[l], by simp [Text.unlines], by simpa using h⟩

theorem empty : Lined "" := ⟨[], rfl, by simp⟩

/-- Texts of neutral lines can be put together. -/
theorem append {a b : String} (ha : Lined a) (hb : Lined b) : Lined (a ++ b) := by
  obtain ⟨ls, rfl, hls⟩ := ha
  obtain ⟨ms, rfl, hms⟩ := hb
  exact ⟨ls ++ ms, (Python.unlines_append ls ms).symm, List.forall_mem_append.mpr ⟨hls, hms⟩⟩

theorem join {ts : List String} (h : ∀ t ∈ ts, Lined t) : Lined (String.join ts) := by
  induction ts with
  | nil => exact empty
  | cons t ts ih =>
    rw [List.forall_mem_cons] at h
    rw [String.join_cons]
    exact h.1.append (ih h.2)

theorem blank : Lined "\n" := ⟨[""], rfl, by simpa using Neutral.of_all rfl⟩

theorem gap : Lined "\n\n" := blank.append blank

end Lined

/-! ## The procedure -/

/-- A line under a header begins with a blank. -/
theorem Python.Line.lined_render {l : Line} (htidy : l.text ≠ "" → Tidy l.text)
    (hmargin : l.depth = 0 → l.text ≠ "import os") {width : Nat} (hwidth : 0 < width) :
    Lined (l.render width) := by
  unfold Python.Line.render
  by_cases hempty : l.text = ""
  · rw [if_pos hempty]
    exact .blank
  · rw [if_neg hempty]
    have hunbroken : Unbroken (String.ofList (List.replicate (l.depth * width) ' ') ++ l.text) := by
      refine Unbroken.append ?_ (htidy hempty).unbroken
      intro c hc
      rw [String.toList_ofList] at hc
      rw [List.eq_of_mem_replicate hc]
      decide
    refine .line ?_
    -- at the margin the text is asked; below it the line begins with a blank, and the import does
    -- not
    by_cases hdepth : l.depth = 0
    · refine ⟨hunbroken, ?_⟩
      simpa [hdepth] using hmargin hdepth
    · have hpos : l.depth * width ≠ 0 := Nat.mul_ne_zero hdepth (by omega)
      obtain ⟨n, hn⟩ := Nat.exists_eq_succ_of_ne_zero hpos
      refine .of_head hunbroken (c := ' ') ?_ (by decide)
      simp [hn, List.replicate_succ]

/-- The lines of a procedure and its call do not import anything. -/
theorem Python.Procedure.Legible.lined_render {code : Procedure} (h : code.Legible) {width : Nat}
    (hwidth : 0 < width) : Lined (code.outline.render width) := by
  refine .join ?_
  rw [List.forall_mem_map]
  intro l hl
  refine Python.Line.lined_render (h.tidy_lines l hl) ?_ hwidth
  intro hdepth
  -- at the margin there are the two headers and the blank lines between them
  rw [code.lines_eq, List.mem_append, List.mem_cons] at hl
  rcases hl with (rfl | hl) | hl
  · intro himport
    have hhead := congrArg (·.toList.head?) himport
    simp [String.toList_append] at hhead
  · exact absurd hdepth (Nat.ne_of_gt (Python.Outline.depth_pos_of_mem_block l hl))
  · simp only [List.mem_cons, List.not_mem_nil, or_false] at hl
    rcases hl with rfl | rfl | rfl | rfl
    · decide
    · decide
    · decide
    · cases hdepth

/-! ## The support code -/

/-- The lines of the table of the connection. -/
def tableBlock (credentials : Option Credentials) : List String :=
  ("_PLI_DB = \x7b" :: Credentials.Key.all.map fun k =>
    "    '" ++ k.name ++ "': " ++ connectionValue credentials k ++ ",") ++ ["\x7d"]

/-- The table of the connection, line by line. -/
theorem unlines_tableBlock (credentials : Option Credentials) :
    Text.unlines (tableBlock credentials) = connectionTable credentials := by
  apply String.toList_inj.mp
  simp [tableBlock, connectionTable, Text.unlines, Credentials.Key.all, String.append_assoc]

/-- Nothing in the table is another line of the module, whatever the credentials are. -/
theorem neutral_tableBlock (credentials : Option Credentials) :
    ∀ l ∈ tableBlock credentials, Neutral l := by
  unfold tableBlock
  rw [List.forall_mem_append, List.forall_mem_cons, List.forall_mem_map, List.forall_mem_singleton]
  refine ⟨⟨.of_all (by decide +kernel), ?_⟩, .of_all (by decide +kernel)⟩
  intro key _
  have hkey : Unbroken ("    '" ++ key.name ++ "': ") := by
    cases key <;> exact unbroken_of_all (by decide +kernel)
  have hcomma : Unbroken "," := unbroken_of_all (by decide)
  -- an entry begins with a blank
  refine .of_head ((hkey.append (Python.unbroken_connectionValue credentials key)).append hcomma)
    (c := ' ') ?_ (by decide)
  simp [String.toList_append]

/-- The import that only a module without credentials has. -/
def osImport (credentials : Option Credentials) : List String :=
  if credentials.isSome then [] else ["import os"]

/-- Without queries, credentials have no part in the support code. -/
theorem supportBlock_congr {h : Helpers} (hsql : h.sql = false) (x y : Option Credentials) :
    supportBlock h x = supportBlock h y := by
  simp [supportBlock, Python.supportCode, Python.supportSections, Helpers.imports, hsql]

/-- The groups between the imports and the table. -/
def groupTexts (h : Helpers) : List String :=
  (if h.text then [Python.textSupport] else []) ++ (if h.get then [Python.getSupport] else [])
    ++ (if h.files then [Python.fileSupport] else [])

/-- The code of the groups has neutral lines. -/
theorem lined_groupTexts (h : Helpers) : ∀ t ∈ groupTexts h, Lined t := by
  -- each text is there or not; the program decides which
  have hif : ∀ (c : Bool) {text : String}, Lined text → ∀ t ∈ (if c then [text] else []), Lined t := by
    intro c text htext t ht
    cases c with
    | false => cases ht
    | true => exact List.mem_singleton.mp ht ▸ htext
  have htext : Lined Python.textSupport :=
    .unlines (neutral_of_chars (by repeat constructor) (by decide +kernel))
  have hget : Lined Python.getSupport :=
    .unlines (neutral_of_chars (by repeat constructor) (by decide +kernel))
  have hfiles : Lined Python.fileSupport :=
    .unlines (neutral_of_chars (by repeat constructor) (by decide +kernel))
  unfold groupTexts
  rw [List.forall_mem_append, List.forall_mem_append]
  exact ⟨⟨hif _ htext, hif _ hget⟩, hif _ hfiles⟩

theorem lined_sqlSupport : Lined Python.sqlSupport :=
  .unlines (neutral_of_chars (by repeat constructor) (by decide +kernel))

/-- With queries, the support code is the same for all credentials but for one import and the
table. -/
theorem supportBlock_eq {h : Helpers} (hsql : h.sql = true) (credentials : Option Credentials) :
    supportBlock h credentials =
      Text.unlines (if h.get then ["import re"] else []) ++ Text.unlines (osImport credentials)
        ++ (Text.unlines ["import sys"] ++ "\n\n"
          ++ String.join ((groupTexts h).map (· ++ "\n\n")))
        ++ Text.unlines (tableBlock credentials) ++ ("\n\n" ++ Python.sqlSupport ++ "\n\n") := by
  -- the imports of `re` and `sys` stand around the one that depends on the credentials
  have himports : h.imports credentials.isSome =
      (if h.get then ["import re"] else []) ++ osImport credentials ++ ["import sys"] := by
    cases credentials <;> simp [Helpers.imports, hsql, osImport]
  -- the sections in their order, of which only the table depends on them
  have hsections : Python.supportSections h credentials =
      Text.unlines (h.imports credentials.isSome) :: groupTexts h
        ++ [connectionTable credentials, Python.sqlSupport] := by
    have hsome : h.imports credentials.isSome ≠ [] := by simp [himports]
    unfold Python.supportSections groupTexts
    split
    · contradiction
    · simp [hsql]
  rw [supportBlock, Python.supportCode_eq_join, hsections, himports, unlines_tableBlock]
  simp only [Python.unlines_append, List.map_append, List.map_cons, List.map_nil, String.join_append,
    String.join_cons, String.join_nil, String.append_empty, String.append_assoc]

/-! ## Modules -/

/-- The lines of a module that are the same for all credentials: those in front of the place where
`os` is imported, those between it and the table, and those behind the table. -/
structure Frame where
  before : List String
  middle : List String
  behind : List String
  neutral : ∀ l ∈ before ++ middle ++ behind, Neutral l

/-- The lines of a module with a query: those of its frame with the import and the table put in. -/
def Frame.lines (frame : Frame) (credentials : Option Credentials) : List String :=
  frame.before ++ osImport credentials ++ frame.middle ++ tableBlock credentials ++ frame.behind

/-- Breaking a text at its line ends gives its lines back. -/
theorem breakLines_unlines {ls : List String} (h : ∀ l ∈ ls, Unbroken l) :
    breakLines (Text.unlines ls).toList = ls.map String.toList ++ [[]] := by
  induction ls with
  | nil => rfl
  | cons l ls ih =>
    rw [List.forall_mem_cons] at h
    have htext : (Text.unlines (l :: ls)).toList = l.toList ++ '\n' :: (Text.unlines ls).toList := by
      simp [Text.unlines, String.join_cons]
    rw [htext, Python.Layout.breakLines_append h.1, ih h.2, List.map_cons, List.cons_append]

/-- The import is a line of the module exactly if there are no credentials. -/
theorem Frame.imports_iff (frame : Frame) (credentials : Option Credentials) :
    "import os".toList ∈ breakLines (Text.unlines (frame.lines credentials)).toList ↔
      credentials = none := by
  have hneutral := frame.neutral
  rw [List.forall_mem_append, List.forall_mem_append] at hneutral
  obtain ⟨⟨hbefore, hmiddle⟩, hbehind⟩ := hneutral
  have htable := neutral_tableBlock credentials
  have hos : ∀ l ∈ osImport credentials, Unbroken l := by
    cases credentials with
    | none => exact List.forall_mem_singleton.mpr (unbroken_of_all (by decide +kernel))
    | some c => simp [osImport]
  have hunbroken : ∀ l ∈ frame.lines credentials, Unbroken l := by
    simp only [Frame.lines, List.forall_mem_append]
    exact ⟨⟨⟨⟨fun l hl => (hbefore l hl).unbroken, hos⟩, fun l hl => (hmiddle l hl).unbroken⟩,
      fun l hl => (htable l hl).unbroken⟩, fun l hl => (hbehind l hl).unbroken⟩
  -- the line is in none of the neutral parts
  have hapart : ∀ {ls : List String}, (∀ l ∈ ls, Neutral l) → "import os" ∉ ls :=
    fun h hmem => (h _ hmem).other rfl
  rw [breakLines_unlines hunbroken, List.mem_append, List.mem_singleton,
    List.mem_map_of_injective fun _ _ h => String.toList_injective h]
  simp only [Frame.lines, List.mem_append, hapart hbefore, hapart hmiddle, hapart htable,
    hapart hbehind, false_or, or_false]
  cases credentials with
  | none => simp [osImport]
  | some c => simp [osImport]

/-- The first line has the name of the program, which is neutral. -/
theorem Program.lined_comment {p : Program} (h : p.Formed) : Lined p.comment := by
  have hname : Unbroken p.name := fun c hc => Python.isNameRest_ne
    (Python.isNameRest_of_isWord (Python.isWord_of_isSmallWord h.name) c hc)
  have hunbroken : Unbroken ("# Generated by " ++ version ++ " from PL/I procedure '" ++ p.name
      ++ "'") :=
    ((((unbroken_of_all rfl).append (unbroken_of_all rfl)).append (unbroken_of_all rfl)).append
      hname).append (unbroken_of_all rfl)
  -- whatever the program is called, the line begins with a hash
  have hhead : ("# Generated by " ++ version ++ " from PL/I procedure '" ++ p.name
      ++ "'").toList.head? = some '#' := by
    simp
  have hlined := (Lined.line (.of_head hunbroken hhead (by decide))).append .blank
  have hcomment : p.comment = "# Generated by " ++ version ++ " from PL/I procedure '" ++ p.name
      ++ "'" ++ "\n" ++ "\n" := by
    have hend : ("'\n\n" : String) = "'" ++ "\n" ++ "\n" := by decide
    unfold Program.comment
    rw [hend]
    simp only [String.append_assoc]
  rw [hcomment]
  exact hlined

/-- A source asks for queries exactly if there is one in it, at whatever depth. -/
theorem Program.asks_sql_iff (p : Program) :
    p.asks .sql ↔ ∃ sql target loc, .query sql target loc ∈ p.nested := by
  -- only a statement asks for a connection
  have hexpr : ∀ e : Expr, e.asks .sql = false := by
    intro e
    cases e <;> simp [Expr.asks]
  have hstmt : ∀ s : Stmt, s.asks .sql ↔ ∃ sql target loc, s = .query sql target loc := by
    intro s
    cases s <;> simp [Stmt.asks]
  simp only [Program.asks, Bool.or_eq_true, List.any_eq_true, hexpr, hstmt]
  constructor
  · rintro (⟨e, -, he⟩ | ⟨s, hs, sql, target, loc, rfl⟩)
    · cases he
    · exact ⟨sql, target, loc, hs⟩
  · rintro ⟨sql, target, loc, hs⟩
    exact .inr ⟨_, hs, sql, target, loc, rfl⟩

/-- With a query, the module is a frame around the table, for all credentials alike. -/
theorem Program.Formed.exists_frame {p : Program} (h : p.Formed) {code : Procedure}
    (hlower : p.lower = .ok code) (hsql : p.asks .sql) (indent : Indent) :
    ∃ frame : Frame, ∀ credentials, p.preamble ⟨indent, credentials⟩
      ++ code.outline.render indent.width = Text.unlines (frame.lines credentials) := by
  obtain ⟨_, _, _, hcarried⟩ := h.lower_ok hlower
  have hre : ∀ l ∈ (if p.needs.get then ["import re"] else []), Neutral l := by
    cases p.needs.get with
    | false => simp
    | true => exact List.forall_mem_singleton.mpr (.of_all (by decide +kernel))
  have hsys : Lined (Text.unlines ["import sys"]) :=
    .unlines (List.forall_mem_singleton.mpr (.of_all (by decide +kernel)))
  have hgroups : Lined (String.join ((groupTexts p.needs).map (· ++ "\n\n"))) := by
    refine .join ?_
    rw [List.forall_mem_map]
    exact fun t ht => (lined_groupTexts p.needs t ht).append .gap
  -- three stretches of neutral lines: before the import, up to the table, and behind it
  obtain ⟨before, hbefore, hbeforeNeutral⟩ := (Program.lined_comment h).append (.unlines hre)
  obtain ⟨middle, hmiddle, hmiddleNeutral⟩ := (hsys.append .gap).append hgroups
  obtain ⟨behind, hbehind, hbehindNeutral⟩ := ((Lined.gap.append lined_sqlSupport).append .gap).append
    (hcarried.legible.lined_render indent.positive)
  refine ⟨⟨before, middle, behind, ?_⟩, fun credentials => ?_⟩
  · rw [List.forall_mem_append, List.forall_mem_append]
    exact ⟨⟨hbeforeNeutral, hmiddleNeutral⟩, hbehindNeutral⟩
  · rw [h.preamble_eq, supportBlock_eq hsql]
    simp only [Frame.lines, Python.unlines_append, ← hbefore, ← hmiddle, ← hbehind,
      String.append_assoc]

/-! ## Compilations -/

/-- Whether a source is compiled does not depend on the settings, nor does the procedure. -/
theorem compile_cases (source : String) :
    (∃ f, ∀ config, compile config source = .error f) ∨
    ∃ p code reports, (Reader.ofSource source).program.1 = .ok p ∧ p.lower = .ok code ∧
      ∀ config, compile config source =
        .ok ⟨p.name, p.preamble config ++ code.outline.render config.indent.width, reports⟩ := by
  -- both stages that can refuse are passed without the settings
  cases hp : (Reader.ofSource source).program.1 with
  | error f =>
    refine .inl ⟨f, fun config => ?_⟩
    rw [compile_eq_bind, hp]
    rfl
  | ok p =>
    cases hcode : p.lower with
    | error f =>
      refine .inl ⟨f, fun config => ?_⟩
      rw [compile_eq_bind, hp]
      show p.assemble config _ = _
      rw [Program.assemble, Program.generate, hcode]
      rfl
    | ok code =>
      refine .inr ⟨p, code, (Reader.ofSource source).program.2.diagnostics, rfl, hcode, ?_⟩
      intro config
      exact compile_eq_ok_iff.mpr ⟨p, code, hp, hcode, rfl⟩

/-- **Credentials do not leak.** Two compilations of a source that differ at most in their
credentials fail for the same fault, or give the same name and the same reports. Without a query in
the program their codes are the same. With a query, at whatever depth, both codes are the lines of
one frame; in it there are the tables of the connection, and the import of `os` exactly where
credentials are not embedded. -/
theorem credentials_stay_in_table (source : String) (a b : Config) (h : a.indent = b.indent) :
    (∃ f, compile a source = .error f ∧ compile b source = .error f) ∨
    ∃ p c d, (Reader.ofSource source).program.1 = .ok p ∧
      compile a source = .ok c ∧ compile b source = .ok d ∧
      c.name = d.name ∧ c.diagnostics = d.diagnostics ∧
      ((∀ sql target loc, .query sql target loc ∉ p.nested) → c.code = d.code) ∧
      ((∃ sql target loc, .query sql target loc ∈ p.nested) → ∃ frame : Frame,
        c.code = Text.unlines (frame.lines a.credentials) ∧
        d.code = Text.unlines (frame.lines b.credentials) ∧
        ("import os".toList ∈ breakLines c.code.toList ↔ a.credentials = none) ∧
        ("import os".toList ∈ breakLines d.code.toList ↔ b.credentials = none)) := by
  obtain ⟨indent, x⟩ := a
  obtain ⟨indent', y⟩ := b
  subst h
  rcases compile_cases source with ⟨f, hf⟩ | ⟨p, code, reports, hp, hcode, hcompile⟩
  · exact .inl ⟨f, hf _, hf _⟩
  · have hformed := Reader.program_formed hp
    refine .inr ⟨p, _, _, hp, hcompile _, hcompile _, rfl, rfl, ?_, ?_⟩
    -- without a query the support code is the same
    · intro hnone
      have hsql : p.needs.sql = false := by
        rw [Bool.eq_false_iff]
        intro hasks
        obtain ⟨sql, target, loc, hmem⟩ := p.asks_sql_iff.mp hasks
        exact hnone sql target loc hmem
      simp only [hformed.preamble_eq, supportBlock_congr hsql x y]
    -- with one, both modules fill the same frame
    · intro hsome
      obtain ⟨frame, hframe⟩ := hformed.exists_frame hcode (p.asks_sql_iff.mpr hsome) indent
      refine ⟨frame, hframe x, hframe y, ?_, ?_⟩
      · rw [← frame.imports_iff, ← hframe x]
      · rw [← frame.imports_iff, ← hframe y]

/-- A query stands in a loop, and a host is spelled as an import on a line of its own. -/
theorem credentials_stay_in_table_nested :
    ∃ source b c d, source = "p: proc options(main); do while (n < 1); " ++
        "exec sql \"SELECT 1\" into n; end; end p;" ∧
      b = ({ credentials := some ⟨"h\nimport os\n", "u", "p", "d"⟩ } : Config) ∧
      compile {} source = .ok c ∧ compile b source = .ok d ∧
      c.name = d.name ∧ c.diagnostics = d.diagnostics ∧
      ∃ frame : Frame, c.code = Text.unlines (frame.lines none) ∧
        d.code = Text.unlines (frame.lines b.credentials) ∧
        "import os".toList ∈ breakLines c.code.toList ∧
        "import os".toList ∉ breakLines d.code.toList := by
  -- the host has the import in it, on lines of its own
  have hok : (compile {} ("p: proc options(main); do while (n < 1); " ++
      "exec sql \"SELECT 1\" into n; end; end p;")).isOk = true := by
    decide +kernel
  have hasks : (match (Reader.ofSource ("p: proc options(main); do while (n < 1); " ++
      "exec sql \"SELECT 1\" into n; end; end p;")).program.1 with
      | .ok p => p.asks .sql
      | .error _ => false) = true := by
    decide +kernel
  rcases credentials_stay_in_table ("p: proc options(main); do while (n < 1); " ++
      "exec sql \"SELECT 1\" into n; end; end p;") {}
      { credentials := some ⟨"h\nimport os\n", "u", "p", "d"⟩ } rfl with
    ⟨f, hf, -⟩ | ⟨p, c, d, hp, hc, hd, hname, hreports, -, hquery⟩
  · rw [hf] at hok
    cases hok
  · rw [hp] at hasks
    obtain ⟨frame, hcode, hcode', himport, himport'⟩ := hquery (p.asks_sql_iff.mp hasks)
    refine ⟨_, _, c, d, rfl, rfl, hc, hd, hname, hreports, frame, hcode, hcode',
      himport.mpr rfl, ?_⟩
    intro hmem
    cases himport'.mp hmem

end Plic
