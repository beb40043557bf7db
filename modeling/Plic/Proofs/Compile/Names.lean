import Plic.Proofs.Lowering.Atoms
import Plic.Proofs.Python.Supply

/-!
# The names in a compiled procedure

Variables keep different names, none of which is reserved or begins as the names
of the support code and of temporaries do. The temporaries count through the whole
program. So every name in the text of a procedure has one origin.

Main result: `names_stay_apart`.
-/

namespace Plic

open Python (Group Origin keywords numbered reserved safeName storedTemporaries temporaryName)

/-- What generated code names is a variable, a temporary or a function. -/
theorem Python.Atom.Known.exists_origin {a : Python.Atom} (h : a.Known) :
    ∃ o : Origin, o.name = a.use.name := by
  have hknown : ∀ {id : String}, Python.IsKnown id → ∃ o : Origin, o.name = id := by
    rintro id (⟨n, -, rfl⟩ | ⟨role, n, rfl⟩)
    · exact ⟨.variable n, rfl⟩
    · exact ⟨.temporary role n, rfl⟩
  cases a with
  | name id => exact hknown h
  | place id => exact hknown h
  | function f => exact ⟨.function f, rfl⟩
  | each => exact ⟨.each, rfl⟩
  | range => exact ⟨.range, rfl⟩

/-- The name of the procedure and that of the module are no temporaries. -/
theorem Program.storedTemporaries_uses {p : Program} {code : Python.Procedure}
    (hlower : p.lower = .ok code) : storedTemporaries code.uses = numbered 0 p.hoists := by
  have hbody := Program.storedTemporaries_of_lower hlower
  rw [Python.Procedure.uses, Python.storedTemporaries_append, ← List.singleton_append,
    Python.storedTemporaries_append, hbody]
  simp [storedTemporaries]

/-- **Names stay apart.** Different names of the source stay different. None of them becomes a
keyword, a reserved built-in function or module, a name of the support code, or a temporary. In the
text of a compiled procedure the temporaries are stored into in the order of their numbers, each at
one place only, and every name that the procedure uses has exactly one origin: it is that of one
variable, one temporary or one function. -/
theorem names_stay_apart :
    Function.Injective safeName ∧
    (∀ a, safeName a ∉ keywords ∧ safeName a ∉ reserved ∧ (∀ g : Group, safeName a ∉ g.defines) ∧
      ∀ role n, safeName a ≠ temporaryName role n) ∧
    ∀ (config : Config) (source : String) (c : Compiled), compile config source = .ok c →
      ∃ p code lexemes body, (Reader.ofSource source).program.1 = .ok p ∧ p.lower = .ok code ∧
        c.code = p.preamble config ++ code.outline.render config.indent.width ∧
        Python.lex (code.outline.render config.indent.width).toList = some lexemes ∧
        Python.uses lexemes = ⟨safeName p.name, .defined⟩ :: body
          ++ [⟨"__name__", .read⟩, ⟨safeName p.name, .called⟩] ∧
        storedTemporaries (Python.uses lexemes) = numbered 0 p.hoists ∧
        (storedTemporaries (Python.uses lexemes)).Nodup ∧
        ∀ u ∈ body, ∃! o : Origin, o.name = u.name := by
  refine ⟨Python.safeName_injective, fun a => ⟨?_, ?_, ?_, ?_⟩, ?_⟩
  · exact fun hmem => Python.safeName_not_mem_reserved a (Python.keywords_subset_reserved hmem)
  · exact Python.safeName_not_mem_reserved a
  · intro g hmem
    exact Python.not_isIntroduced_safeName a (Group.isIntroduced_of_mem_defines hmem)
  · exact Python.safeName_ne_temporary a
  · intro config source c h
    obtain ⟨p, code, hp, hcode, rfl⟩ := compile_eq_ok_iff.mp h
    have hformed := Reader.program_formed hp
    obtain ⟨lexemes, hlexemes, huses⟩ := hformed.uses_render hcode config.indent.width
    have hstored := Program.storedTemporaries_uses hcode
    refine ⟨p, code, lexemes, (Python.blockAtoms code.body).map Python.Atom.use, hp, hcode, rfl,
      hlexemes, ?_, ?_, ?_, ?_⟩
    · rw [huses, Python.Procedure.uses, Program.name_of_lower hcode]
    · rw [huses, hstored]
    · rw [huses, hstored]
      exact Python.nodup_numbered 0 p.hoists
    · intro u hu
      obtain ⟨a, ha, rfl⟩ := List.mem_map.mp hu
      -- there is an origin because the tree names nothing else, and only one because no two
      -- origins have the same name
      obtain ⟨o, ho⟩ := ((hformed.proper hcode).known a ha).exists_origin
      exact ⟨o, ho, fun o' ho' => Origin.name_injective (ho'.trans ho.symm)⟩

/-- Nested loops whose limits and steps are stored ahead, and variables that are named like a
temporary and like a built-in function. -/
theorem names_stay_apart_nested :
    ∃ source c p code lexemes body,
      source = "p: PROC OPTIONS(MAIN); DO i = 1 TO n; DO j = 1 TO n BY k; _pli_to1 = print; END; " ++
        "END; DO i = 1 TO k; END; END p;" ∧
      compile {} source = .ok c ∧ (Reader.ofSource source).program.1 = .ok p ∧
      p.lower = .ok code ∧ c.code = p.preamble {} ++ code.outline.render 4 ∧
      Python.lex (code.outline.render 4).toList = some lexemes ∧
      Python.uses lexemes = ⟨safeName p.name, .defined⟩ :: body
        ++ [⟨"__name__", .read⟩, ⟨safeName p.name, .called⟩] ∧
      storedTemporaries (Python.uses lexemes) =
        ["_pli_to1", "_pli_to2", "_pli_by3", "_pli_to4"] ∧
      (storedTemporaries (Python.uses lexemes)).Nodup ∧
      ∀ u ∈ body, ∃! o : Origin, o.name = u.name := by
  -- the program has a variable that is named like a temporary, and one like a function
  have hok : (compile {} ("p: PROC OPTIONS(MAIN); DO i = 1 TO n; DO j = 1 TO n BY k; " ++
      "_pli_to1 = print; END; " ++ "END; DO i = 1 TO k; END; END p;")).isOk := by
    decide +kernel
  have hhoists : ((Reader.ofSource ("p: PROC OPTIONS(MAIN); DO i = 1 TO n; DO j = 1 TO n BY k; " ++
      "_pli_to1 = print; END; " ++ "END; DO i = 1 TO k; END; END p;")).program.1.toOption.map
        Program.hoists) = some [.limit, .limit, .step, .limit] := by
    decide +kernel
  obtain ⟨c, hc⟩ := exists_of_isOk hok
  obtain ⟨p, code, lexemes, body, hp, hcode, htext, hlexemes, huses, hstored, hnodup, horigin⟩ :=
    names_stay_apart.2.2 {} _ c hc
  rw [hp] at hhoists
  rw [Option.some.inj hhoists] at hstored
  exact ⟨_, c, p, code, lexemes, body, rfl, hc, hp, hcode, htext, hlexemes, huses, hstored, hnodup,
    horigin⟩

end Plic
