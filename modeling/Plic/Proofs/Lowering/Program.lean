import Plic.Proofs.Lowering.Declarations
import Plic.Proofs.Lowering.Stmt

/-!
# Block structure is preserved

A compiled source is its preamble and, behind it, the text of one procedure and
its call. The body of the procedure begins with a line for each declared item,
in the order of the declarations; the statements follow as they are shown.

Main results:

* `Program.Formed.lower_ok` — the procedure for a program, when there is one.
* `compile_layout` — how the text behind the preamble is read, whatever the
  width of a level is.
-/

namespace Plic

open Python.Layout (Block orPass)

/-! ## Initial values -/

/-- The line that gives a declared item its first value. -/
def initialLine (type : DataType) (item : Item) : Block :=
  .line (Python.safeName item.name ++ " = " ++ initialText type item.dims)

/-- The lines that give the declared items their first values. -/
def Program.initialLines (p : Program) : List Block :=
  p.declarations.flatMap fun d => d.items.map (initialLine d.type)

/-- The first value of a variable is written on one line. -/
theorem unbroken_initialText (type : DataType) (dims : List Int) :
    Python.Layout.Unbroken (initialText type dims) := by
  have hint : ∀ n : Int, Python.Layout.Unbroken (toString n) :=
    fun n => (Python.Plain.int n).unbroken
  have helement : Python.Layout.Unbroken (elementText type) := by
    unfold elementText
    split <;> exact Python.unbroken_of_all rfl
  -- no more than two extents are shown
  match dims with
  | [] => exact helement
  | [n] =>
    exact (((Python.unbroken_of_all rfl).append helement).append
      (Python.unbroken_of_all rfl)).append (hint _)
  | n :: m :: _ =>
    exact ((((((Python.unbroken_of_all rfl).append helement).append
      (Python.unbroken_of_all rfl)).append (hint _)).append (Python.unbroken_of_all rfl)).append
      (hint _)).append (Python.unbroken_of_all rfl)

/-- There is a line for each declared item, in order. -/
theorem Program.initialLines_eq (p : Program) :
    p.initialLines = (declaredItems p.declarations).map fun i => initialLine i.1 i.2 := by
  rw [Program.initialLines, declaredItems, List.map_flatMap]
  simp only [List.map_map]
  rfl

/-- The variables get their first values on the lines of their items. -/
theorem Scope.Records.begins {s : Scope} {items : List (DataType × Item)} (h : s.Records items)
    (hshaped : ∀ i ∈ items, i.2.WellShaped) (hnames : ∀ i ∈ items, IsIdentifier i.2.name) :
    (∀ v ∈ s.declared, v.initialise.Legible) ∧
      Python.blocksAll (s.declared.map Variable.initialise) =
        items.map fun i => initialLine i.1 i.2 := by
  obtain ⟨vs⟩ := s
  unfold Scope.Records at h
  simp only at h ⊢
  -- along the declared items, each of which has one variable and one line
  induction h with
  | nil => exact ⟨by simp, rfl⟩
  | @cons v i vs items hv _ ih =>
    rw [List.forall_mem_cons] at hshaped hnames ⊢
    obtain ⟨hlegible, hblocks⟩ := ih hshaped.2 hnames.2
    obtain ⟨hname, hvalue⟩ := Variable.ofItem_ok (hv.ofItem_eq hshaped.1)
    refine ⟨⟨Python.legible_assign (Python.Expr.isTarget_name ?_) ?_, hlegible⟩, ?_⟩
    · rw [hname]
      exact Python.isName_safeName hnames.1.word
    · rw [hvalue]
      exact unbroken_initialText i.1 i.2.dims
    · rw [List.map_cons, List.map_cons, Python.blocksAll, hblocks, Variable.initialise,
        Python.Stmt.blocks, Python.Expr.render, hname, hvalue]
      rfl

/-! ## Programs -/

/-- What a program becomes. -/
structure Program.Carried (p : Program) (code : Python.Procedure) (scope : Scope)
    (body : List Block) (n : Nat) : Prop where
  declared : Scope.ofDeclarations p.declarations = .ok scope
  shown    : ShownAll scope 0 p.statements body n
  legible  : code.Legible
  name     : code.name = Python.safeName p.name
  blocks   : Python.blocksAll code.body = p.initialLines ++ body

theorem Program.Formed.declaredNames {p : Program} (h : p.Formed) :
    ∀ i ∈ declaredItems p.declarations, IsIdentifier i.2.name := by
  intro i hi
  obtain ⟨d, hd, hi⟩ := List.mem_flatMap.mp hi
  obtain ⟨item, hitem, rfl⟩ := List.mem_map.mp hi
  exact h.items d hd item hitem

/-- The procedure for a program has first values and then the code for its statements. -/
theorem Program.Formed.lower_ok {p : Program} (h : p.Formed) {code : Python.Procedure}
    (hlower : p.lower = .ok code) : ∃ scope body n, p.Carried code scope body n := by
  obtain ⟨scope, body, n, hscope, hbody, rfl⟩ := Program.hasCodes_of_lower hlower
  obtain ⟨hrecords, hitems⟩ := Scope.records_ofDeclarations hscope
  -- first the lines of the variables, then those of the statements
  obtain ⟨hbegins, hlines⟩ := hrecords.begins hitems.shaped h.declaredNames
  obtain ⟨hlegible, hshown⟩ := hbody.shown h.statements
  have hname := Python.isName_safeName h.name
  refine ⟨scope, Python.blocksAll body, n, hscope, hshown, ⟨?_, ?_⟩, rfl, ?_⟩
  · exact (hname.led.append (by simp; decide)).simple
      (hname.unbroken.append (Python.unbroken_of_all rfl))
  · rw [List.forall_mem_append, List.forall_mem_map]
    exact ⟨hbegins, hlegible⟩
  · rw [Python.blocksAll_append, hlines, p.initialLines_eq]

/-- The text in front of the procedure: a comment with its name, and the
support code that it needs. -/
def Program.preamble (config : Config) (p : Program) : String :=
  let support := Python.supportCode p.helpers config.credentials
  "# Generated by " ++ version ++ " from PL/I procedure '" ++ p.name ++ "'\n\n"
    ++ (if support = "" then "" else support ++ "\n\n")

/-- A source is compiled exactly if it is a program and there is a procedure
for the program. -/
theorem compile_eq_ok_iff {config : Config} {source : String} {c : Compiled} :
    compile config source = .ok c ↔
      ∃ p code, (Reader.ofSource source).program.1 = .ok p ∧ p.lower = .ok code ∧
        c = ⟨p.name, p.preamble config ++ code.outline.render config.indent.width,
          (Reader.ofSource source).program.2.diagnostics⟩ := by
  show ((Reader.ofSource source).program.1 >>= fun p => p.generate config >>= fun text =>
    pure (Compiled.mk p.name text (Reader.ofSource source).program.2.diagnostics)) = _ ↔ _
  simp only [bind_eq_ok_iff, Program.generate]
  constructor
  · rintro ⟨p, hp, _, ⟨code, hcode, htext⟩, hc⟩
    injection htext with htext
    injection hc with hc
    subst htext hc
    exact ⟨p, code, hp, hcode, rfl⟩
  · rintro ⟨p, code, hp, hcode, rfl⟩
    exact ⟨p, hp, _, ⟨code, hcode, rfl⟩, rfl⟩

/-- **Block structure is preserved.** The text of a compiled source is a
preamble and a part that is read, whatever the width of a level is, as one
procedure and its call. The body of the procedure is a line for each declared
item and the blocks that the statements of the program are shown as. -/
theorem compile_layout {config : Config} {source : String} {c : Compiled}
    (h : compile config source = .ok c) :
    ∃ p scope body n, (Reader.ofSource source).program.1 = .ok p ∧
      Scope.ofDeclarations p.declarations = .ok scope ∧ ShownAll scope 0 p.statements body n ∧
      ∀ indent : Indent, ∃ c' part, compile { config with indent } source = .ok c' ∧
        c'.code = p.preamble config ++ part ∧
        Python.Layout.read part =
          some [.procedure (Python.safeName p.name ++ "()") (orPass (p.initialLines ++ body)),
            .branch "__name__ == '__main__'" [.line (Python.safeName p.name ++ "()")] none] := by
  obtain ⟨p, code, hp, hcode, -⟩ := compile_eq_ok_iff.mp h
  obtain ⟨scope, body, n, hcarried⟩ := (Reader.program_formed hp).lower_ok hcode
  refine ⟨p, scope, body, n, hp, hcarried.declared, hcarried.shown, fun indent => ?_⟩
  -- neither the program nor its procedure depends on the width
  refine ⟨_, _, compile_eq_ok_iff.mpr ⟨p, code, hp, hcode, rfl⟩, rfl, ?_⟩
  rw [hcarried.legible.read_render indent.positive, hcarried.name, hcarried.blocks]

/-- A chain of branches with an empty body, and a loop whose limit is stored
ahead of it. -/
theorem compile_layout_chain :
    ∃ source c, source = "p: PROC OPTIONS(MAIN); DCL a(2) FIXED BIN; IF x < 1 THEN DO; END; " ++
        "ELSE IF x = 2 THEN a(1) = 3; ELSE DO i = 1 TO n; x = i; END; END p;" ∧
      compile {} source = .ok c ∧
      ∃ p scope body n, (Reader.ofSource source).program.1 = .ok p ∧
        ShownAll scope 0 p.statements body n ∧
        ∀ indent : Indent, ∃ c' part, compile { indent } source = .ok c' ∧
          c'.code = p.preamble {} ++ part ∧
          Python.Layout.read part =
            some [.procedure (Python.safeName p.name ++ "()") (orPass (p.initialLines ++ body)),
              .branch "__name__ == '__main__'" [.line (Python.safeName p.name ++ "()")] none] := by
  -- an empty branch, a chain of conditions and a loop, under one procedure
  have hok : (compile {} ("p: PROC OPTIONS(MAIN); DCL a(2) FIXED BIN; IF x < 1 THEN DO; END; " ++
      "ELSE IF x = 2 THEN a(1) = 3; ELSE DO i = 1 TO n; x = i; END; END p;")).isOk := by
    decide +kernel
  cases hc : compile {} ("p: PROC OPTIONS(MAIN); DCL a(2) FIXED BIN; IF x < 1 THEN DO; END; " ++
      "ELSE IF x = 2 THEN a(1) = 3; ELSE DO i = 1 TO n; x = i; END; END p;") with
  | ok c =>
    obtain ⟨p, scope, body, n, hp, -, hshown, hread⟩ := compile_layout hc
    exact ⟨_, c, rfl, hc, p, scope, body, n, hp, hshown, hread⟩
  | error f =>
    rw [hc] at hok
    exact absurd hok (by simp [Except.isOk, Except.toBool])

end Plic
