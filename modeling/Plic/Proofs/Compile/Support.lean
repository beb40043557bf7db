import Plic.Proofs.Lowering.Calls

/-!
# The support code of a compiled source

A compiled source has the support code of the groups that its source asks for. So
each group is defined exactly if the procedure calls one of its functions, and
nothing but these groups and the credentials has a part in the support code.

Main result: `support_defines_what_is_called`.
-/

namespace Plic

open Python (Group Use boundNames moduleUses supportBlock)

/-! ## Groups -/

/-- A name is defined by one group at most, and is none of the modules that are imported. -/
theorem Python.Group.mem_defines_iff {g g' : Group} {n : String} (hn : n ∈ g.defines)
    (embedded : Bool) : n ∈ g'.defines ∨ n ∈ g'.imports embedded ↔ g' = g := by
  have hapart : ∀ n ∈ g.defines, n ∈ g'.defines ∨ n ∈ g'.imports embedded → g' = g := by
    cases g <;> cases g' <;> cases embedded <;> decide
  refine ⟨hapart n hn, ?_⟩
  rintro rfl
  exact .inl hn

/-- A function is defined by the code of its group. -/
theorem Python.Function.name_mem_defines_iff {f : Python.Function} {g : Group} :
    f.name ∈ g.defines ↔ f.group? = some g := by
  cases f <;> cases g <;> decide

/-! ## Programs -/

/-- The groups that a source asks for. -/
def Program.needs (p : Program) : Python.Helpers :=
  ⟨p.asks .text, p.asks .get, p.asks .files, p.asks .sql⟩

/-- What a well-formed program is given is what it needs. -/
theorem Program.Formed.helpers_eq {p : Program} (h : p.Formed) : p.helpers = p.needs := by
  have htext := h.has_helpers (g := .text)
  have hget := h.has_helpers (g := .get)
  have hfiles := h.has_helpers (g := .files)
  have hsql := h.has_helpers (g := .sql)
  unfold Program.needs
  rw [← htext, ← hget, ← hfiles, ← hsql]
  rfl

theorem Program.needs_has (p : Program) (g : Group) : p.needs.has g = p.asks g := by
  cases g <;> rfl

/-- The comment in front of the support code. -/
def Program.comment (p : Program) : String :=
  "# Generated by " ++ version ++ " from PL/I procedure '" ++ p.name ++ "'\n\n"

/-- What stands before the procedure: a comment and the support code. -/
theorem Program.Formed.preamble_eq {p : Program} (h : p.Formed) (config : Config) :
    p.preamble config = p.comment ++ supportBlock p.needs config.credentials := by
  rw [← h.helpers_eq]
  rfl

/-- The procedure calls a function that a group defines exactly if the source asks for the group. -/
theorem Program.Formed.called_iff {p : Program} (h : p.Formed) {code : Python.Procedure}
    (hlower : p.lower = .ok code) (g : Group) :
    (∃ n ∈ g.defines, ⟨n, .called⟩ ∈ code.uses) ↔ p.asks g := by
  rw [← h.has_helpers, ← h.calls hlower]
  constructor
  · rintro ⟨n, hn, hmem⟩
    have hintroduced := Group.isIntroduced_of_mem_defines hn
    have hname : n ≠ code.name := by
      rintro rfl
      rw [Program.name_of_lower hlower] at hintroduced
      exact Python.not_isIntroduced_safeName _ hintroduced
    -- what is called is a function, the counter of rounds or the procedure itself
    simp only [Python.Procedure.uses, List.cons_append, List.mem_cons, List.mem_append,
      Python.Use.mk.injEq, hname, false_and, reduceCtorEq, and_false, List.not_mem_nil, or_false,
      false_or, List.mem_map] at hmem
    obtain ⟨a, ha, huse⟩ := hmem
    cases a with
    | function f =>
      injection huse with hf
      exact ⟨f, Python.Function.name_mem_defines_iff.mp (hf ▸ hn), ha⟩
    | range =>
      injection huse with hf
      subst hf
      exact absurd hintroduced (by decide)
    | _ => injection huse with _ hrole; exact absurd hrole (by decide)
  · rintro ⟨f, hgroup, hmem⟩
    refine ⟨f.name, Python.Function.name_mem_defines_iff.mpr hgroup, ?_⟩
    refine List.mem_append_left _ (List.mem_cons_of_mem _ ?_)
    exact List.mem_map.mpr ⟨_, hmem, rfl⟩

/-- **Support code is there exactly for what is called.** A compiled source is a comment, the
support code and the procedure. The support code is that of the groups that the source asks for,
with the configured credentials. A name that a group defines is bound in the support code exactly if
the source asks for the group, and exactly then the text of the procedure, its literals aside, calls
a function of the group. -/
theorem support_defines_what_is_called (config : Config) (source : String) (c : Compiled)
    (h : compile config source = .ok c) :
    ∃ p code lines lexemes, (Reader.ofSource source).program.1 = .ok p ∧ p.lower = .ok code ∧
      c.code = p.comment ++ supportBlock p.needs config.credentials
        ++ code.outline.render config.indent.width ∧
      Python.codeLines (supportBlock p.needs config.credentials) = some lines ∧
      Python.lex (code.outline.render config.indent.width).toList = some lexemes ∧
      ∀ g : Group,
        (∀ n ∈ g.defines, n ∈ boundNames (moduleUses lines) ↔ p.asks g) ∧
        ((∃ n ∈ g.defines, ⟨n, .called⟩ ∈ Python.uses lexemes) ↔ p.asks g) := by
  obtain ⟨p, code, hp, hcode, rfl⟩ := compile_eq_ok_iff.mp h
  have hformed := Reader.program_formed hp
  -- the procedure is read back as tokens, so no text literal counts as a call
  obtain ⟨lexemes, hlexemes, huses⟩ := hformed.uses_render hcode config.indent.width
  obtain ⟨cs, hcoded, -, hbinds, -⟩ :=
    Python.supplies_supportBlock p.needs config.credentials
  refine ⟨p, code, _, lexemes, hp, hcode, ?_, hcoded.codeLines_eq, hlexemes, fun g => ⟨?_, ?_⟩⟩
  · rw [hformed.preamble_eq]
  · intro n hn
    rw [hbinds n]
    simp only [Group.mem_defines_iff hn, Program.needs_has, exists_eq_right]
  · rw [huses]
    exact hformed.called_iff hcode g

/-- A call of a function for queries stands in a literal only, and a variable is used as a
string. -/
theorem support_defines_what_is_called_literal :
    ∃ source c p code lines lexemes,
      source = "p: PROC OPTIONS(MAIN); GET LIST(x); PUT LIST('_pli_sql(' || x); END p;" ∧
      compile {} source = .ok c ∧ (Reader.ofSource source).program.1 = .ok p ∧
      p.lower = .ok code ∧
      c.code = p.comment ++ supportBlock p.needs none ++ code.outline.render 4 ∧
      Python.codeLines (supportBlock p.needs none) = some lines ∧
      Python.lex (code.outline.render 4).toList = some lexemes ∧
      p.needs = { text := true, get := true } ∧
      ∀ g : Group,
        (∀ n ∈ g.defines, n ∈ boundNames (moduleUses lines) ↔ p.asks g) ∧
        ((∃ n ∈ g.defines, ⟨n, .called⟩ ∈ Python.uses lexemes) ↔ p.asks g) := by
  have hok : (compile {}
      "p: PROC OPTIONS(MAIN); GET LIST(x); PUT LIST('_pli_sql(' || x); END p;").isOk := by
    decide +kernel
  -- the literal contains the name of a helper, which is not asked for
  have hneeds : ((Reader.ofSource
      "p: PROC OPTIONS(MAIN); GET LIST(x); PUT LIST('_pli_sql(' || x); END p;").program.1.toOption.map
        Program.needs) = some { text := true, get := true } := by
    decide +kernel
  obtain ⟨c, hc⟩ := exists_of_isOk hok
  obtain ⟨p, code, lines, lexemes, hp, hcode, htext, hlines, hlexemes, hgroups⟩ :=
    support_defines_what_is_called {} _ c hc
  rw [hp] at hneeds
  exact ⟨_, c, p, code, lines, lexemes, rfl, hc, hp, hcode, htext, hlines, hlexemes,
    Option.some.inj hneeds, hgroups⟩

end Plic
