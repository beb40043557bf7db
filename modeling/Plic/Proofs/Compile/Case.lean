import Plic.Compile
import Plic.Proofs.Grammar.Alike
import Plic.Proofs.Token.Case

/-!
# Case does not matter

Names, keywords and whatever else is written in letters mean the same in either
case, apart from character constants and queries. Not even messages show the case:
a word that was not expected there is cited in small letters.

Main results:

* `Reader.program_recased` — recased tokens are read as the same program, or refused
  with the same words.
* `compile_recased` — recased sources are compiled to the same, or refused with the
  same words.
-/

namespace Plic

/-- A message names a recased token in the same way. -/
theorem Token.Recased.describe_eq {t u : Token} (h : t.Recased u) : t.describe = u.describe := by
  have hlower : Text.lower t.lexeme = Text.lower u.lexeme :=
    congrArg String.ofList h.lexeme.map_toLower
  have hsame := h.same
  unfold Token.describe
  rw [← h.kind]
  generalize t.kind = kind at hsame
  -- words are told in small letters or by their name, everything else as it is written
  cases kind with
  | number n => rfl
  | text value => rw [hsame id]
  | query value => rw [hsame id]
  | name n => rfl
  | keyword word => rw [hlower]
  | symbol mark => rw [hsame id]
  | eof => rfl

/-- Tokens with their places, and words in either case. -/
def Likeness.caseless : Likeness where
  left := id
  right := id
  alike := Token.Recased
  kind h := h.kind
  loc h := h.loc
  spelling h _ := congrArg String.ofList h.lexeme.map_toLower

/-- What is told of a fault: the stage, the place, the words for the cause, and the
report as a whole. -/
structure Fault.Told where
  kind    : Fault.Kind
  loc     : Location
  phrase  : String
  message : String

/-- What is told of a fault. -/
def Fault.told (f : Fault) : Fault.Told := ⟨f.kind, f.loc, f.cause.phrase, f.message⟩

/-- Causes that differ in case are told in the same words. -/
theorem Fault.Cause.Same.phrase {c d : Fault.Cause} (h : c.Same .caseless d) :
    c.phrase = d.phrase := by
  have hshown {t u : Token} (htu : t.Recased u) : t.describe = u.describe := htu.describe_eq
  cases h with
  | refl => rfl
  | expected what place htu | lateDeclaration htu | whenAfterOther htu =>
    exact congrArg (_ ++ ·) (hshown htu)

theorem Fault.Same.told {f g : Fault} (h : f.Same .caseless g) : f.told = g.told := by
  have hkind : f.kind = g.kind := h.cause.kind
  have hloc : f.loc = g.loc := h.loc
  rw [Fault.told, Fault.told, Fault.message, Fault.message, hkind, hloc, h.cause.phrase]

/-- Recased tokens are read as the same program, or refused with the same words. -/
theorem Reader.program_recased {source source' : String}
    (h : List.Forall₂ Token.Recased (Lexer.ofSource source).tokenize.1
      (Lexer.ofSource source').tokenize.1) :
    (Reader.ofSource source).program.1.mapError Fault.told =
      (Reader.ofSource source').program.1.mapError Fault.told := by
  have hresult := Grammar.alike_program (Parser.rows_tokens (k := .caseless) h)
  rw [Reader.program, Reader.program, Reader.ofSource, Reader.ofSource]
  generalize Grammar.program (Lexer.ofSource source).tokenize.1 = x at hresult
  generalize Grammar.program (Lexer.ofSource source').tokenize.1 = y at hresult
  cases hresult with
  | @ok p q _ _ hpq _ =>
    -- no place is forgotten, so the programs are equal
    have hpq : p.relocate id = q.relocate id := hpq
    rw [Program.relocate_id, Program.relocate_id] at hpq
    exact congrArg Except.ok hpq
  | error hfault _ => exact congrArg Except.error hfault.told

theorem Reader.diagnostics_program (r : Reader) : r.program.2.diagnostics = r.diagnostics := by
  rw [Reader.program]
  split <;> rfl

/-- Results that tell the same are the same value or faults of which the same is told. -/
theorem mapError_eq_cases {ε δ α : Type} {f : ε → δ} {x y : Except ε α}
    (h : x.mapError f = y.mapError f) :
    (∃ a, x = .ok a ∧ y = .ok a) ∨ ∃ d e, x = .error d ∧ y = .error e ∧ f d = f e := by
  cases x with
  | ok a =>
    cases y with
    | ok b => exact .inl ⟨a, rfl, by rw [Except.ok.inj h]⟩
    | error e => exact absurd h (by simp [Except.mapError])
  | error d =>
    cases y with
    | ok b => exact absurd h (by simp [Except.mapError])
    | error e => exact .inr ⟨d, e, rfl, rfl, Except.error.inj h⟩

/-- Results that tell the same go on to tell the same. -/
theorem mapError_bind_eq {ε δ α β : Type} {f : ε → δ} {x y : Except ε α}
    (h : x.mapError f = y.mapError f) (g : α → Except ε β) :
    (x >>= g).mapError f = (y >>= g).mapError f := by
  obtain ⟨a, rfl, rfl⟩ | ⟨d, e, rfl, rfl, htold⟩ := mapError_eq_cases h
  · rfl
  · exact congrArg Except.error htold

/-- The compiled source for a program, with the reports on its text. -/
def Program.assemble (config : Config) (reports : List Diagnostic) (p : Program) :
    Except Fault Compiled := do
  return ⟨p.name, ← p.generate config, reports⟩

/-- What comes behind the reading depends on the program and the reports alone. -/
theorem compile_eq_bind (config : Config) (source : String) :
    compile config source = (Reader.ofSource source).program.1 >>=
      Program.assemble config (Lexer.ofSource source).tokenize.2.diagnostics := by
  have hreports := (Reader.ofSource source).diagnostics_program
  show (Reader.ofSource source).program.1 >>=
    Program.assemble config (Reader.ofSource source).program.2.diagnostics = _
  rw [hreports]
  rfl

/-- **Case does not matter.** A source and one that differs from it in the case of
letters alone, and not inside its character constants and queries, are both
compiled to the same name and code with the same reports, or both refused with the
same words for the same place. -/
theorem compile_recased (config : Config) (source source' : String)
    (h : SameUpToCase source source') :
    (compile config source).mapError Fault.told = (compile config source').mapError Fault.told := by
  obtain ⟨htokens, hreports⟩ := Lexer.tokenize_recased h
  have hprogram : (Reader.ofSource source).program.1.mapError Fault.told =
      (Reader.ofSource source').program.1.mapError Fault.told := Reader.program_recased htokens
  rw [compile_eq_bind, compile_eq_bind, hreports]
  exact mapError_bind_eq hprogram _

/-- A constant stays as it is, and all else is in the other case; a word that is not
expected is cited alike. -/
theorem compile_recased_constant :
    (SameUpToCase "p: PROC OPTIONS(MAIN); PUT LIST('Ab', x); END P;"
        "P: proc options(main); put list('Ab', X); end p;" ∧
      ∃ c, compile {} "p: PROC OPTIONS(MAIN); PUT LIST('Ab', x); END P;" = .ok c ∧
        compile {} "P: proc options(main); put list('Ab', X); end p;" = .ok c) ∧
    (compile {} "p: PROC; PUT LIST('Ab'); END p;").mapError Fault.told =
      (compile {} "P: Proc; pUT list('Ab'); end P;").mapError Fault.told := by
  have hsame : SameUpToCase "p: PROC OPTIONS(MAIN); PUT LIST('Ab', x); END P;"
      "P: proc options(main); put list('Ab', X); end p;" :=
    ⟨by decide +kernel, by decide +kernel⟩
  have hok : (compile {} "p: PROC OPTIONS(MAIN); PUT LIST('Ab', x); END P;").isOk := by
    decide +kernel
  -- two programs that compile, and two that are refused with the same text
  refine ⟨⟨hsame, ?_⟩, compile_recased {} _ _ ⟨by decide +kernel, by decide +kernel⟩⟩
  obtain hcode | ⟨d, e, hrefused, -, -⟩ := mapError_eq_cases (compile_recased {} _ _ hsame)
  · exact hcode
  · rw [hrefused] at hok
    exact absurd hok (by simp [Except.isOk, Except.toBool])

end Plic
