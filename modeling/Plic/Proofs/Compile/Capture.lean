import Plic.Proofs.Compile.Support

/-!
# Names that a procedure takes from the support code

The definition of the procedure stands behind the support code and binds its name
in the same module. If the support code uses that name, a helper that is called
later finds the procedure in place of what it means. Reserved names are written
differently, so this can happen only with a name that the support code uses and
that is not reserved. There is one: `re`, which the group for input imports.

Main result: `procedure_captures_iff`.
-/

namespace Plic

open Python (Group boundNames moduleUses reserved safeName supportBlock)

/-- A name that a group uses is introduced by generated code, reserved, begins with a capital
letter, or is `re`. -/
theorem Python.Group.name_cases {g : Group} {embedded : Bool} {n : String}
    (h : n ∈ g.names embedded) :
    n ∈ g.defines ∨ n ∈ reserved ∨ n.toList.head?.any Char.isUpper ∨ n = "re" ∧ g = .get := by
  revert n
  cases g <;> cases embedded <;> decide

/-- No letter is both small and capital. -/
theorem isUpper_of_isLower {c : Char} (h : c.isLower) : c.isUpper = false := by
  simp only [Char.isLower, Char.isUpper, Bool.and_eq_true, decide_eq_true_eq,
    decide_eq_false_iff_not, UInt32.le_iff_toNat_le] at h ⊢
  have hlow : 'a'.val.toNat = 97 := rfl
  have hhigh : 'Z'.val.toNat = 90 := rfl
  omega

/-- A name in small letters is not written with a capital letter at its front. -/
theorem head_safeName_of_isSmallWord {n : String} (h : IsSmallWord n) :
    (safeName n).toList.head?.any Char.isUpper = false := by
  unfold IsSmallWord at h
  cases hn : n.toList with
  | nil => simp [hn] at h
  | cons c cs =>
    rw [hn] at h
    have hc : c.isUpper = false := by
      rcases h.1 with hlower | rfl
      · exact isUpper_of_isLower hlower
      · decide
    unfold safeName
    split <;> simp [hn, hc]

/-- What the support code uses under the name of a procedure. -/
theorem safeName_mem_names_iff {name : String} (hname : IsSmallWord name) (g : Group)
    (embedded : Bool) : safeName name ∈ g.names embedded ↔ name = "re" ∧ g = .get := by
  constructor
  · intro hmem
    rcases Group.name_cases hmem with hdefined | hreserved | hupper | ⟨hre, hget⟩
    · have hintroduced := Group.isIntroduced_of_mem_defines hdefined
      exact absurd hintroduced (Python.not_isIntroduced_safeName name)
    · exact absurd hreserved (Python.safeName_not_mem_reserved name)
    · rw [head_safeName_of_isSmallWord hname] at hupper
      exact absurd hupper (by decide)
    · -- the name is kept as it is, so it was the same in the source
      have hkept : safeName "re" = "re" := by decide
      exact ⟨Python.safeName_injective (hre.trans hkept.symm), hget⟩
  · rintro ⟨rfl, rfl⟩
    cases embedded <;> decide

/-- The names that the support code of a program uses. -/
theorem Program.exists_supportLines (p : Program) (credentials : Option Credentials) :
    ∃ support, Python.codeLines (supportBlock p.needs credentials) = some support ∧
      ∀ n, n ∈ (moduleUses support).map Python.Use.name ↔
        ∃ g, p.asks g ∧ n ∈ g.names credentials.isSome := by
  obtain ⟨cs, hcoded, -, -, hnames⟩ := Python.supplies_supportBlock p.needs credentials
  refine ⟨_, hcoded.codeLines_eq, fun n => ?_⟩
  simp only [hnames, Program.needs_has]

/-- The name that the procedure for a program binds. -/
theorem Program.Formed.exists_procedureLines {p : Program} (h : p.Formed) {code : Python.Procedure}
    (hlower : p.lower = .ok code) (indent : Indent) :
    ∃ lines, Python.codeLines (code.outline.render indent.width) = some lines ∧
      boundNames (moduleUses lines) = [safeName p.name] := by
  obtain ⟨scope, body, n, hcarried⟩ := h.lower_ok hlower
  rw [← Program.name_of_lower hlower]
  exact Python.Procedure.boundNames_render hcarried.legible (h.fit hlower)
    (h.isNameWord_name hlower) indent.positive

/-- **A procedure captures a name of the support code only as `re`.** The text of the procedure
binds one name in the module. The support code imports, defines or uses this name exactly if the
procedure is called `re` and the source asks for input. -/
theorem procedure_captures_iff (config : Config) (source : String) (c : Compiled)
    (h : compile config source = .ok c) :
    ∃ p code support lines, (Reader.ofSource source).program.1 = .ok p ∧ p.lower = .ok code ∧
      c.code = p.comment ++ supportBlock p.needs config.credentials
        ++ code.outline.render config.indent.width ∧
      Python.codeLines (supportBlock p.needs config.credentials) = some support ∧
      Python.codeLines (code.outline.render config.indent.width) = some lines ∧
      boundNames (moduleUses lines) = [safeName p.name] ∧
      (safeName p.name ∈ (moduleUses support).map Python.Use.name ↔
        p.name = "re" ∧ p.asks .get) := by
  obtain ⟨p, code, hp, hcode, rfl⟩ := compile_eq_ok_iff.mp h
  have hformed := Reader.program_formed hp
  -- what the support code uses is told by the groups that the program asks for
  obtain ⟨support, hsupport, hnames⟩ := p.exists_supportLines config.credentials
  obtain ⟨lines, hlines, hbound⟩ := hformed.exists_procedureLines hcode config.indent
  refine ⟨p, code, support, lines, hp, hcode, ?_, hsupport, hlines, hbound, ?_⟩
  · rw [hformed.preamble_eq]
  · rw [hnames]
    -- of all those names, one alone can be that of a procedure
    simp only [safeName_mem_names_iff hformed.name]
    constructor
    · rintro ⟨g, hasks, hre, rfl⟩
      exact ⟨hre, hasks⟩
    · rintro ⟨hre, hasks⟩
      exact ⟨.get, hasks, hre, rfl⟩

/-- A procedure that is called like a module, in a program with input and a query. -/
theorem procedure_captures_iff_module :
    ∃ source c p code support lines,
      source = "sys: PROC OPTIONS(MAIN); GET LIST(x); EXEC SQL \"q\" INTO x; END sys;" ∧
      compile {} source = .ok c ∧ (Reader.ofSource source).program.1 = .ok p ∧
      p.lower = .ok code ∧
      c.code = p.comment ++ supportBlock p.needs none ++ code.outline.render 4 ∧
      Python.codeLines (supportBlock p.needs none) = some support ∧
      Python.codeLines (code.outline.render 4) = some lines ∧
      boundNames (moduleUses lines) = ["sys_"] ∧
      "sys_" ∉ (moduleUses support).map Python.Use.name := by
  have hok : (compile {}
      "sys: PROC OPTIONS(MAIN); GET LIST(x); EXEC SQL \"q\" INTO x; END sys;").isOk := by
    decide +kernel
  -- the name of a module that is imported is reserved, so the procedure gets another
  have hname : ((Reader.ofSource
      "sys: PROC OPTIONS(MAIN); GET LIST(x); EXEC SQL \"q\" INTO x; END sys;").program.1.toOption.map
        Program.name) = some "sys" := by
    decide +kernel
  obtain ⟨c, hc⟩ := exists_of_isOk hok
  obtain ⟨p, code, support, lines, hp, hcode, htext, hsupport, hlines, hbound, hcapture⟩ :=
    procedure_captures_iff {} _ c hc
  rw [hp] at hname
  rw [Option.some.inj hname] at hbound hcapture
  refine ⟨_, c, p, code, support, lines, rfl, hc, hp, hcode, htext, hsupport, hlines, hbound, ?_⟩
  intro hmem
  exact absurd (hcapture.mp hmem).1 (by decide)

/-- The procedure `re` of a program with input takes the name of the module that the support code
imports. -/
theorem procedure_captures_re :
    ∃ source c p code support lines,
      source = "re: proc options(main); get list(x); end re;" ∧
      compile {} source = .ok c ∧ (Reader.ofSource source).program.1 = .ok p ∧
      p.lower = .ok code ∧
      c.code = p.comment ++ supportBlock p.needs none ++ code.outline.render 4 ∧
      Python.codeLines (supportBlock p.needs none) = some support ∧
      Python.codeLines (code.outline.render 4) = some lines ∧
      boundNames (moduleUses lines) = ["re"] ∧
      "re" ∈ (moduleUses support).map Python.Use.name := by
  have hok : (compile {} "re: proc options(main); get list(x); end re;").isOk := by decide +kernel
  -- `re` is imported, but not reserved
  have hvalues : ((Reader.ofSource
      "re: proc options(main); get list(x); end re;").program.1.toOption.map
        fun p => (p.name, p.asks .get)) = some ("re", true) := by
    decide +kernel
  obtain ⟨c, hc⟩ := exists_of_isOk hok
  obtain ⟨p, code, hp, hcode, rfl⟩ := compile_eq_ok_iff.mp hc
  rw [hp] at hvalues
  obtain ⟨hname, hasks⟩ := Prod.mk.inj (Option.some.inj hvalues)
  have hformed := Reader.program_formed hp
  obtain ⟨support, hsupport, hnames⟩ := p.exists_supportLines none
  obtain ⟨lines, hlines, hbound⟩ := hformed.exists_procedureLines hcode ({} : Config).indent
  rw [hname] at hbound
  refine ⟨_, _, p, code, support, lines, rfl, hc, hp, hcode, ?_, hsupport, hlines, hbound, ?_⟩
  · rw [hformed.preamble_eq]
    rfl
  · exact (hnames "re").mpr ⟨.get, hasks, by decide⟩

end Plic
