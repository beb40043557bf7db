import Plic.Proofs.Python.Modules
import Plic.Proofs.Python.Naming

/-!
# The names of the support code

The support code consists of sections, each of which begins at the margin. So its
names in the module are those of its sections, and the names of a section can be
read off its lines, which are the same for every program. Only the table of the
connection is not: with credentials its lines hold their literals, whatever these
are, and without credentials they ask the environment.

Main result: `supplies_supportBlock`, the names that the support code binds and
those that it uses are told from the groups that it is made of.
-/

namespace Plic

/-- The value for a key of the connection. -/
def Credentials.part (c : Credentials) : Key → String
  | .host => c.host
  | .user => c.user
  | .password => c.password
  | .database => c.database

end Plic

namespace Plic.Python

open Layout (Unbroken)

/-! ## Groups -/

/-- The groups of support code. -/
inductive Group where
  | text | get | files | sql
deriving DecidableEq

namespace Group

theorem exists_iff {P : Group → Prop} : (∃ g, P g) ↔ P text ∨ P get ∨ P files ∨ P sql := by
  constructor
  · rintro ⟨g, h⟩
    cases g <;> grind
  · rintro (h | h | h | h) <;> exact ⟨_, h⟩

/-- The names that the code of a group binds in the module. -/
def defines : Group → List String
  | text => ["_pli_str"]
  | get => ["_pli_get"]
  | files => ["_pli_files", "_pli_eof", "_pli_file_error", "_pli_open", "_pli_read", "_pli_write",
      "_pli_close", "_pli_endfile"]
  | sql => ["_PLI_DB", "_pli_sql"]

/-- The modules that the group imports. With credentials there is nothing to ask the environment
for. -/
def imports (embedded : Bool) : Group → List String
  | text => []
  | get => ["re"]
  | files => ["sys"]
  | sql => if embedded then ["sys"] else ["os", "sys"]

/-- The functions and exceptions that the group takes as they are built in. -/
def builtins : Group → List String
  | text => ["str"]
  | get => ["EOFError", "input", "int"]
  | files => ["OSError", "ValueError", "open", "print", "str"]
  | sql => ["ImportError", "print", "str"]

/-- What a group defines begins as the names do that generated code introduces. -/
theorem isIntroduced_of_mem_defines {g : Group} {n : String} (h : n ∈ g.defines) :
    IsIntroduced n := by
  have hsupport : g.defines ⊆ supportNames := by cases g <;> decide
  exact isIntroduced_of_mem_supportNames (hsupport h)

/-- The names of the module that the code of a group uses; the table of the connection asks `os`
only without credentials. -/
def names (embedded : Bool) (g : Group) : List String :=
  g.defines ++ g.imports embedded ++ g.builtins

end Group

/-- The group that a function belongs to; built-in functions have none. -/
def Function.group? : Function → Option Group
  | print => none
  | int => none
  | str => none
  | text => some .text
  | get => some .get
  | openFile => some .files
  | read => some .files
  | write => some .files
  | close => some .files
  | endfile => some .files
  | sql => some .sql

/-- Whether a group is among those needed. -/
def Helpers.has (h : Helpers) : Group → Bool
  | .text => h.text
  | .get => h.get
  | .files => h.files
  | .sql => h.sql

/-! ## Texts and their names -/

/-- The text is made of whole lines from the margin on, and these bind and use the given names of
the module. -/
def Supplies (text : String) (binds names : String → Prop) : Prop :=
  ∃ cs, Coded text cs ∧ AtMargin (cs.filter CodeLine.isFilled) ∧
    (∀ n, n ∈ boundNames (moduleUses (cs.filter CodeLine.isFilled)) ↔ binds n) ∧
    ∀ n, n ∈ (moduleUses (cs.filter CodeLine.isFilled)).map Use.name ↔ names n

section

variable {a b : String} {B N B' N' : String → Prop}

/-- Texts that begin at the margin can be put together. -/
theorem AtMargin.append {ls ms : List CodeLine} (hl : AtMargin ls) (hm : AtMargin ms) :
    AtMargin (ls ++ ms) := by
  cases ls with
  | nil => exact hm
  | cons l ls => exact hl

/-- The empty text binds and uses nothing. -/
theorem supplies_nil : Supplies "" (fun _ => False) fun _ => False :=
  ⟨[], coded_nil, by simp [AtMargin], by simp [boundNames, moduleUses], by simp [moduleUses]⟩

/-- A text of two parts binds what one of them binds, and uses what one of them uses. -/
theorem Supplies.append (ha : Supplies a B N) (hb : Supplies b B' N') :
    Supplies (a ++ b) (fun n => B n ∨ B' n) fun n => N n ∨ N' n := by
  obtain ⟨cs, hcs, hcsMargin, hcsBinds, hcsNames⟩ := ha
  obtain ⟨ds, hds, hdsMargin, hdsBinds, hdsNames⟩ := hb
  refine ⟨cs ++ ds, hcs.append hds, ?_, fun n => ?_, fun n => ?_⟩
  · rw [List.filter_append]
    exact hcsMargin.append hdsMargin
  · rw [List.filter_append, moduleUses_append hdsMargin, boundNames_append, List.mem_append,
      hcsBinds, hdsBinds]
  · rw [List.filter_append, moduleUses_append hdsMargin, List.map_append, List.mem_append,
      hcsNames, hdsNames]

/-- The names may be described in another way. -/
theorem Supplies.congr (h : Supplies a B N) (hB : ∀ n, B n ↔ B' n) (hN : ∀ n, N n ↔ N' n) :
    Supplies a B' N' := by
  obtain ⟨cs, hcs, hmargin, hbinds, hnames⟩ := h
  exact ⟨cs, hcs, hmargin, fun n => (hbinds n).trans (hB n), fun n => (hnames n).trans (hN n)⟩

/-- The lines between two sections are empty. -/
theorem coded_gap : Coded "\n\n" [⟨0, []⟩, ⟨0, []⟩] := by
  refine ⟨["", ""], rfl, ?_⟩
  exact .cons ⟨by simp [Unbroken], rfl⟩ (.cons ⟨by simp [Unbroken], rfl⟩ .nil)

/-- Blank lines hold no names. -/
theorem Supplies.gap (h : Supplies a B N) : Supplies (a ++ "\n\n") B N := by
  obtain ⟨cs, hcs, hrest⟩ := h
  refine ⟨_, hcs.append coded_gap, ?_⟩
  rwa [List.filter_append, show [CodeLine.mk 0 [], ⟨0, []⟩].filter CodeLine.isFilled = [] from rfl,
    List.append_nil]

/-- A section that is written on a condition. -/
theorem Supplies.of_if (c : Bool) {texts : List String}
    (h : Supplies (String.join (texts.map (· ++ "\n\n"))) B N) :
    Supplies (String.join ((if c then texts else []).map (· ++ "\n\n")))
      (fun n => c ∧ B n) fun n => c ∧ N n := by
  cases c with
  | false => exact supplies_nil.congr (by simp) (by simp)
  | true => exact h.congr (by simp) (by simp)

theorem Supplies.single (h : Supplies a B N) :
    Supplies (String.join ([a].map (· ++ "\n\n"))) B N := by
  simpa using h.gap

end

/-- The code of lines that are given by their characters, on which it is evaluated. -/
theorem forall₂_codeLine {ls : List String} {css : List (List Char)}
    (hlines : List.Forall₂ (fun l cs => l = String.ofList cs) ls css)
    (hunbroken : css.all fun cs => cs.all fun c => c ≠ '\n' && c ≠ '\r') {cs : List CodeLine}
    (h : css.mapM codeLine = some cs) :
    List.Forall₂ (fun l c => Unbroken l ∧ codeLine l.toList = some c) ls cs := by
  induction hlines generalizing cs with
  | nil =>
    obtain rfl : cs = [] := (Option.some.inj h).symm
    exact .nil
  | @cons l chars ls css hl _ ih =>
    rw [List.all_cons, Bool.and_eq_true] at hunbroken
    rw [List.mapM_cons, Option.bind_eq_bind, Option.bind_eq_some_iff] at h
    obtain ⟨c, hc, h⟩ := h
    rw [Option.bind_eq_bind, Option.bind_eq_some_iff] at h
    obtain ⟨rest, hrest, h⟩ := h
    obtain rfl : cs = c :: rest := (Option.some.inj h).symm
    -- the lines are known as characters, so that they can be computed with
    have htext : l.toList = chars := by rw [hl, String.toList_ofList]
    refine .cons ⟨unbroken_of_all (by rw [htext]; exact hunbroken.1), by rw [htext, hc]⟩ ?_
    exact ih hunbroken.2 hrest

/-- The names of lines that are the same for every program. -/
theorem supplies_unlines {ls : List String} {css : List (List Char)}
    (hlines : List.Forall₂ (fun l cs => l = String.ofList cs) ls css)
    (hunbroken : css.all fun cs => cs.all fun c => c ≠ '\n' && c ≠ '\r') {binds names : List String}
    (h : (css.mapM codeLine).map (fun cs =>
        let us := moduleUses (cs.filter CodeLine.isFilled)
        ((cs.filter CodeLine.isFilled).head?.all (·.indent = 0), boundNames us,
          (us.map Use.name).dedup)) = some (true, binds, names)) :
    Supplies (Text.unlines ls) (· ∈ binds) (· ∈ names) := by
  obtain ⟨cs, hcs, heq⟩ := Option.map_eq_some_iff.mp h
  simp only [Prod.mk.injEq] at heq
  obtain ⟨hmargin, rfl, rfl⟩ := heq
  refine ⟨cs, ⟨ls, rfl, forall₂_codeLine hlines hunbroken hcs⟩, ?_, fun n => Iff.rfl,
    fun n => List.mem_dedup.symm⟩
  intro l hl
  rw [Option.mem_def.mp hl] at hmargin
  simpa using hmargin

/-! ## Sections -/

/-- Names are told up to order and repetition. -/
theorem Supplies.of_subset {text : String} {B : String → Prop} {ls ms : List String}
    (h : Supplies text B (· ∈ ls)) (hls : ls ⊆ ms) (hms : ms ⊆ ls) : Supplies text B (· ∈ ms) :=
  h.congr (fun _ => Iff.rfl) fun _ => ⟨fun hn => hls hn, fun hn => hms hn⟩

/-- The names of the conversion to text. -/
theorem supplies_textSupport (embedded : Bool) :
    Supplies textSupport (· ∈ Group.text.defines) (· ∈ Group.text.names embedded) := by
  have hnames : Supplies textSupport (· ∈ Group.text.defines) (· ∈ ["_pli_str", "str"]) :=
    supplies_unlines (by repeat constructor) (by decide +kernel) (by decide +kernel)
  exact hnames.of_subset (by decide +revert) (by decide +revert)

theorem supplies_getSupport (embedded : Bool) :
    Supplies getSupport (· ∈ Group.get.defines) (· ∈ Group.get.names embedded) := by
  have hnames : Supplies getSupport (· ∈ Group.get.defines)
      (· ∈ ["_pli_get", "input", "EOFError", "re", "int"]) :=
    supplies_unlines (by repeat constructor) (by decide +kernel) (by decide +kernel)
  exact hnames.of_subset (by decide +revert) (by decide +revert)

theorem supplies_fileSupport (embedded : Bool) :
    Supplies fileSupport (· ∈ Group.files.defines) (· ∈ Group.files.names embedded) := by
  have hnames : Supplies fileSupport (· ∈ Group.files.defines)
      (· ∈ ["print", "sys", "_pli_open", "open", "_pli_read", "_pli_write", "str", "ValueError",
        "_pli_close", "_pli_files", "OSError", "_pli_file_error", "_pli_endfile", "_pli_eof"]) :=
    supplies_unlines (by repeat constructor) (by decide +kernel) (by decide +kernel)
  exact hnames.of_subset (by decide +revert) (by decide +revert)

/-- The names of the code for queries, without its table. -/
theorem supplies_sqlSupport :
    Supplies sqlSupport (· ∈ ["_pli_sql"])
      (· ∈ ["_pli_sql", "ImportError", "_PLI_DB", "print", "str", "sys"]) :=
  supplies_unlines (by repeat constructor) (by decide +kernel) (by decide +kernel)

/-- The lexemes of what the table of the connection holds for a part of the credentials. -/
def connectionLexemes (credentials : Option Credentials) (key : Credentials.Key) : List Lexeme :=
  match credentials with
  | some c => [.literal (c.part key)]
  | none => [.word "os", .mark '.', .word "environ", .mark '.', .word "get", .mark '(',
      .literal key.variableName, .mark ',', .literal "", .mark ')']

/-- A line of the table of the connection. -/
def entryLine (credentials : Option Credentials) (key : Credentials.Key) : CodeLine :=
  ⟨4, [.literal key.name, .mark ':'] ++ connectionLexemes credentials key ++ [.mark ',']⟩

/-- The value of an entry is a literal or a call of the environment. -/
theorem lexed_connectionValue (credentials : Option Credentials) (key : Credentials.Key) :
    Lexed (connectionValue credentials key) (connectionLexemes credentials key) := by
  cases credentials with
  | some c => cases key <;> exact lexed_quote _
  | none => cases key <;> decide +kernel

/-- Whatever the credentials are, the value stays on its line. -/
theorem unbroken_connectionValue (credentials : Option Credentials) (key : Credentials.Key) :
    Unbroken (connectionValue credentials key) := by
  cases credentials with
  | some c => cases key <;> exact unbroken_quote _
  | none => cases key <;> exact unbroken_of_all (by decide +kernel)

theorem coded_entry (credentials : Option Credentials) (key : Credentials.Key) :
    Coded ("    '" ++ key.name ++ "': " ++ connectionValue credentials key ++ ",\n")
      [entryLine credentials key] := by
  have hkey : Lexed ("    '" ++ key.name ++ "': ") [.literal key.name, .mark ':'] := by
    cases key <;> decide +kernel
  have hkeyUnbroken : Unbroken ("    '" ++ key.name ++ "': ") := by
    cases key <;> exact unbroken_of_all (by decide +kernel)
  have hahead : isAhead ("    '" ++ key.name ++ "': ") := by cases key <;> decide +kernel
  have hcomma : Bridge "," [.mark ','] := by decide +kernel
  have hlexed := ((lexed_connectionValue credentials key).after hkey hahead).behind hcomma
  have hcommaUnbroken : Unbroken "," := unbroken_of_all (by decide)
  have hunbroken := (hkeyUnbroken.append (unbroken_connectionValue credentials key)).append
    hcommaUnbroken
  rw [show (",\n" : String) = "," ++ "\n" from rfl, ← String.append_assoc]
  refine coded_line hunbroken ?_
  rw [Lexed] at hlexed
  rw [codeLine, hlexed]
  -- the fifth character of the line is a quote
  have hmargin : (("    '" ++ key.name ++ "': " ++ connectionValue credentials key
      ++ ",").toList.takeWhile (· = ' ')).length = 4 := by
    simp [String.toList_append]
  rw [hmargin]
  rfl

/-- Lines that are made from the items of a list. -/
theorem coded_join {α : Type} {f : α → String} {g : α → CodeLine} (h : ∀ a, Coded (f a) [g a])
    (as : List α) : Coded (String.join (as.map f)) (as.map g) := by
  induction as with
  | nil => exact coded_nil
  | cons a as ih =>
    rw [List.map_cons, String.join_cons]
    exact (h a).append ih

/-- With credentials the entries use no names; without any, each of the four reads `os`. -/
theorem lineUses_entries (credentials : Option Credentials) :
    lineUses (Credentials.Key.all.map (entryLine credentials)) =
      if credentials.isSome then [] else List.replicate 4 ⟨"os", .read⟩ := by
  cases credentials with
  | some c => rfl
  | none => decide +kernel

/-- The lines of the table of the connection. -/
def tableLines (credentials : Option Credentials) : List CodeLine :=
  [⟨0, [.word "_PLI_DB", .mark '=', .mark '\x7b']⟩]
    ++ Credentials.Key.all.map (entryLine credentials) ++ [⟨0, [.mark '\x7d']⟩]

theorem coded_connectionTable (credentials : Option Credentials) :
    Coded (connectionTable credentials) (tableLines credentials) := by
  have hopening : Coded "_PLI_DB = \x7b\n" [⟨0, [.word "_PLI_DB", .mark '=', .mark '\x7b']⟩] :=
    coded_line (l := "_PLI_DB = \x7b") (unbroken_of_all (by decide +kernel)) (by decide +kernel)
  have hclosing : Coded "\x7d\n" [⟨0, [.mark '\x7d']⟩] :=
    coded_line (l := "\x7d") (unbroken_of_all (by decide +kernel)) (by decide +kernel)
  exact (hopening.append (coded_join (coded_entry credentials) Credentials.Key.all)).append hclosing

/-- The names of the table in the order of its text. -/
theorem moduleUses_tableLines (credentials : Option Credentials) :
    moduleUses (tableLines credentials) =
      ⟨"_PLI_DB", .stored⟩ ::
        if credentials.isSome then [] else List.replicate 4 ⟨"os", .read⟩ := by
  have hname : uses [.word "_PLI_DB", .mark '=', .mark '\x7b'] = [⟨"_PLI_DB", .stored⟩] := by
    decide +kernel
  rw [tableLines, moduleUses_append (by simp [AtMargin]), List.singleton_append,
    moduleUses_piece rfl (by simp [entryLine]), pieceUses, lineUses_entries, if_neg (by simp),
    hname, show moduleUses [⟨0, [.mark '\x7d']⟩] = [] from rfl, List.append_nil]
  rfl

/-- The table binds its own name and uses `os` where there are no credentials. -/
theorem supplies_connectionTable (credentials : Option Credentials) :
    Supplies (connectionTable credentials) (· ∈ ["_PLI_DB"])
      (· ∈ "_PLI_DB" :: if credentials.isSome then [] else ["os"]) := by
  -- the table has no empty lines
  have hfilled : (tableLines credentials).filter CodeLine.isFilled = tableLines credentials := by
    rw [List.filter_eq_self]
    intro l hl
    simp only [tableLines, List.mem_append, List.mem_singleton, List.mem_map] at hl
    rcases hl with (rfl | ⟨k, -, rfl⟩) | rfl <;> rfl
  refine ⟨_, coded_connectionTable credentials, ?_⟩
  rw [hfilled, moduleUses_tableLines]
  refine ⟨by simp [AtMargin, tableLines], ?_, ?_⟩
  · cases credentials <;> simp [boundNames, Use.binds]
  · cases credentials <;> simp

/-- The table of the connection with the function for queries. -/
theorem supplies_queries (credentials : Option Credentials) :
    Supplies (String.join ([connectionTable credentials, sqlSupport].map (· ++ "\n\n")))
      (· ∈ Group.sql.defines) (· ∈ Group.sql.names credentials.isSome) := by
  have hboth := ((supplies_connectionTable credentials).gap.append supplies_sqlSupport.single).congr
    (fun n => List.mem_append.symm) fun n => List.mem_append.symm
  generalize credentials.isSome = embedded at hboth ⊢
  cases embedded with
  | false | true => exact hboth.of_subset (by decide) (by decide)

/-- A module that is imported on a condition. -/
theorem supplies_import (c : Bool) {line name : String}
    (h : Supplies (Text.unlines [line]) (· ∈ [name]) (· ∈ [name])) :
    Supplies (Text.unlines (if c then [line] else [])) (fun n => c ∧ n = name)
      fun n => c ∧ n = name := by
  cases c with
  | false => exact supplies_nil.congr (by simp) (by simp)
  | true => exact h.congr (by simp) (by simp)

/-- The condition for a module to be imported. -/
def Helpers.Imports (h : Helpers) (embedded : Bool) (n : String) : Prop :=
  ∃ g, h.has g ∧ n ∈ g.imports embedded

/-- The lines of the imports bind what they import. -/
theorem supplies_imports (h : Helpers) (embedded : Bool) :
    Supplies (Text.unlines (h.imports embedded)) (h.Imports embedded) (h.Imports embedded) := by
  have hre : Supplies (Text.unlines ["import re"]) (· ∈ ["re"]) (· ∈ ["re"]) :=
    supplies_unlines (by repeat constructor) (by decide +kernel) (by decide +kernel)
  have hos : Supplies (Text.unlines ["import os"]) (· ∈ ["os"]) (· ∈ ["os"]) :=
    supplies_unlines (by repeat constructor) (by decide +kernel) (by decide +kernel)
  have hsys : Supplies (Text.unlines ["import sys"]) (· ∈ ["sys"]) (· ∈ ["sys"]) :=
    supplies_unlines (by repeat constructor) (by decide +kernel) (by decide +kernel)
  -- which groups need which import, over all choices of groups
  have hmeaning : ∀ n, ((h.get ∧ n = "re") ∨ ((h.sql && !embedded) ∧ n = "os")) ∨
      ((h.files || h.sql) ∧ n = "sys") ↔ h.Imports embedded n := by
    intro n
    rw [Helpers.Imports, Group.exists_iff]
    cases embedded <;> simp [Helpers.has, Group.imports] <;> grind
  unfold Helpers.imports
  rw [unlines_append, unlines_append]
  exact (((supplies_import _ hre).append (supplies_import _ hos)).append
    (supplies_import _ hsys)).congr hmeaning hmeaning

/-- The section of imports, which is left out if there are none. -/
theorem supplies_importSection (h : Helpers) (embedded : Bool) :
    Supplies (String.join
      ((match h.imports embedded with
        | [] => []
        | imports => [Text.unlines imports]).map (· ++ "\n\n")))
      (h.Imports embedded) (h.Imports embedded) := by
  have hsupplies := supplies_imports h embedded
  -- with nothing to import there is no section, and no empty lines for it
  cases hlines : h.imports embedded with
  | nil =>
    rw [hlines] at hsupplies
    exact hsupplies
  | cons line lines =>
    rw [hlines] at hsupplies
    exact hsupplies.single

/-! ## The support code -/

/-- Sections are separated by a gap; with one at the end each section has its own. -/
theorem intercalate_append (sep t : String) (ts : List String) :
    sep.intercalate (t :: ts) ++ sep = String.join ((t :: ts).map (· ++ sep)) := by
  induction ts generalizing t with
  | nil => simp
  | cons u us ih =>
    rw [List.map_cons, String.join_cons, ← ih, String.intercalate_cons_cons, String.append_assoc]

/-- Sections that are not empty make a text that is not empty. -/
theorem intercalate_ne_empty {t : String} (h : t ≠ "") (sep : String) (ts : List String) :
    sep.intercalate (t :: ts) ≠ "" := by
  cases ts with
  | nil => simpa using h
  | cons u us =>
    rw [String.intercalate_cons_cons]
    simp [h]

theorem ne_empty_of_mem_supportSections {h : Helpers} {credentials : Option Credentials}
    {t : String} (ht : t ∈ supportSections h credentials) : t ≠ "" := by
  have hif : ∀ {c : Bool} {ts : List String}, (∀ t ∈ ts, t ≠ "") →
      t ∈ (if c then ts else []) → t ≠ "" := by
    intro c ts hts ht
    cases c with
    | false => simp at ht
    | true => exact hts t ht
  -- the imports are a section only if there are any; the others are fixed texts
  simp only [supportSections, List.mem_append] at ht
  rcases ht with (((ht | ht) | ht) | ht) | ht
  · split at ht
    · simp at ht
    · rename_i hlines
      obtain rfl := List.mem_singleton.mp ht
      obtain ⟨l, ls, hls⟩ := List.exists_cons_of_ne_nil hlines
      simp [hls, Text.unlines, String.join_cons]
  · exact hif (by decide +kernel) ht
  · exact hif (by decide +kernel) ht
  · exact hif (by decide +kernel) ht
  · refine hif (List.forall_mem_cons.mpr ⟨?_, by decide +kernel⟩) ht
    simp [connectionTable]

/-- The support code with the blank lines behind each of its sections. -/
theorem supportCode_eq_join (h : Helpers) (credentials : Option Credentials) :
    (if supportCode h credentials = "" then "" else supportCode h credentials ++ "\n\n") =
      String.join ((supportSections h credentials).map (· ++ "\n\n")) := by
  have hsections : ∀ t ∈ supportSections h credentials, t ≠ "" :=
    fun t ht => ne_empty_of_mem_supportSections ht
  unfold supportCode
  cases hs : supportSections h credentials with
  | nil => simp
  | cons t ts =>
    rw [hs] at hsections
    rw [if_neg (intercalate_ne_empty (hsections t List.mem_cons_self) _ _), intercalate_append]

/-- The support code with the blank lines behind it, if there is any. -/
def supportBlock (h : Helpers) (credentials : Option Credentials) : String :=
  if supportCode h credentials = "" then "" else supportCode h credentials ++ "\n\n"

/-- The support code binds what its groups define and import, and uses the names of its groups. -/
theorem supplies_supportBlock (h : Helpers) (credentials : Option Credentials) :
    Supplies (supportBlock h credentials)
      (fun n => ∃ g, h.has g ∧ (n ∈ g.defines ∨ n ∈ g.imports credentials.isSome))
      (fun n => ∃ g, h.has g ∧ n ∈ g.names credentials.isSome) := by
  have hall := (((((supplies_importSection h credentials.isSome).append
    ((supplies_textSupport credentials.isSome).single.of_if h.text)).append
    ((supplies_getSupport credentials.isSome).single.of_if h.get)).append
    ((supplies_fileSupport credentials.isSome).single.of_if h.files)).append
    ((supplies_queries credentials).of_if h.sql))
  rw [← String.join_append, ← String.join_append, ← String.join_append, ← String.join_append,
    ← List.map_append, ← List.map_append, ← List.map_append, ← List.map_append] at hall
  rw [supportBlock, supportCode_eq_join]
  -- the conditions of the sections are those of the groups
  refine hall.congr (fun n => ?_) (fun n => ?_)
  · simp only [and_or_left, exists_or, or_assoc]
    rw [or_comm]
    exact or_congr_left (Group.exists_iff (P := fun g => h.has g ∧ n ∈ g.defines)).symm
  · -- what is imported is used as well
    have himported : h.Imports credentials.isSome n →
        ∃ g, h.has g ∧ n ∈ g.names credentials.isSome := by
      rintro ⟨g, hg, hn⟩
      exact ⟨g, hg, List.mem_append_left _ (List.mem_append_right _ hn)⟩
    rw [Group.exists_iff] at himported ⊢
    simp only [or_assoc]
    exact or_iff_right_of_imp himported

end Plic.Python
