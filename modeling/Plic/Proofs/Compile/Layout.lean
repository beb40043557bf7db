import Plic.Proofs.Grammar.Alike
import Plic.Proofs.Lowering.Relocate
import Plic.Proofs.Token.Exact

/-!
# Layout does not matter

Of a token the code depends on its kind alone and, where a keyword stands for a
name, on its spelling in small letters. Where the token stands and what stands
around it has no bearing on the code: blanks, line breaks and comments between
tokens can be put in and taken out as long as the tokens stay.

Main results:

* `compile_agrees` — sources whose tokens agree in this sense have the same code.
* `compile_layout_free` — so have sources that are cut into the same tokens.
-/

namespace Plic

/-- The tokens are of the same kind and, if they are keywords, spelled alike up
to the case of letters. -/
def Token.SameWord (t u : Token) : Prop :=
  t.kind = u.kind ∧ (t.isKeyword → Text.lower t.lexeme = Text.lower u.lexeme)

instance (t u : Token) : Decidable (t.SameWord u) := inferInstanceAs (Decidable (_ ∧ _))

/-- The names and the texts of two compiled sources are the same. -/
structure Compiled.SameCode (c d : Compiled) : Prop where
  name : c.name = d.name
  code : c.code = d.code

/-- Tokens as words, with all places forgotten. -/
def Likeness.words : Likeness where
  left _ := .nowhere
  right _ := .nowhere
  alike := Token.SameWord
  kind h := h.1
  loc _ := rfl
  spelling h := h.2

theorem Agrees.symm {α : Type} {x y : Except Fault α} (h : Agrees (· = ·) x y) :
    Agrees (· = ·) y x := by
  cases h with
  | ok hab => exact .ok hab.symm
  | error hkind => exact .error hkind.symm

theorem Agrees.trans {α : Type} {x y z : Except Fault α} (h : Agrees (· = ·) x y)
    (h' : Agrees (· = ·) y z) : Agrees (· = ·) x z := by
  cases h with
  | ok hab =>
    cases h' with
    | ok hbc => exact .ok (hab.trans hbc)
  | error hkind =>
    cases h' with
    | error hkind' => exact .error (hkind.trans hkind')

/-- If one of the two gives a value, both do. -/
theorem Agrees.exists_ok {α β : Type} {R : α → β → Prop} {x : Except Fault α}
    {y : Except Fault β} (h : Agrees R x y) (hok : x.isOk) :
    ∃ a b, x = .ok a ∧ y = .ok b ∧ R a b := by
  cases h with
  | ok hab => exact ⟨_, _, rfl, rfl, hab⟩
  | error _ => exact absurd hok (by simp [Except.isOk, Except.toBool])

variable {source source' : String}

/-- Sources with the same words are read as programs that differ in places, or refused alike. -/
theorem Reader.program_agrees (h : List.Forall₂ Token.SameWord (Lexer.ofSource source).tokenize.1
      (Lexer.ofSource source').tokenize.1) :
    Agrees (Likeness.words.Same Program.relocate) (Reader.ofSource source).program.1
      (Reader.ofSource source').program.1 := by
  have hresult := Grammar.alike_program (Parser.rows_tokens (k := .words) h)
  rw [Reader.program, Reader.program, Reader.ofSource, Reader.ofSource]
  generalize Grammar.program (Lexer.ofSource source).tokenize.1 = x at hresult
  generalize Grammar.program (Lexer.ofSource source').tokenize.1 = y at hresult
  cases hresult with
  | ok hp _ => exact .ok hp
  | error hfault _ => exact .error hfault.cause.kind

/-- Programs that differ in places give the same code. -/
theorem Program.generate_agrees {p q : Program} {f : Location → Location}
    (h : p.relocate f = q.relocate f) (config : Config) :
    Agrees (· = ·) (p.generate config) (q.generate config) := by
  have hq := (q.relocate_generate f config).symm
  rw [← h] at hq
  exact (p.relocate_generate f config).trans hq

theorem compile_agrees (h : List.Forall₂ Token.SameWord (Lexer.ofSource source).tokenize.1
      (Lexer.ofSource source').tokenize.1) (config : Config) :
    Agrees Compiled.SameCode (compile config source) (compile config source') := by
  refine (Reader.program_agrees h).bind fun p q hpq => ?_
  -- the name of a program is kept when its places are forgotten
  obtain ⟨hname, -⟩ := Program.mk.inj hpq
  exact (Program.generate_agrees hpq config).bind_eq fun _ => .ok ⟨hname, rfl⟩

/-! ## Tokens of a cut -/

/-- The kind and the characters of a token. -/
def Piece.word? : Piece → Option (Token.Kind × List Char)
  | .token kind text => some (kind, text)
  | _ => none

/-- The words of tokens do not depend on where the text starts. -/
theorem words_placed (l : Location) (ps : List Piece) :
    ((Lexer.placed l ps).filterMap Lexer.tokenOf).map (fun t => (t.kind, t.lexeme)) =
      (ps.filterMap Piece.word?).map fun w => (w.1, String.ofList w.2) := by
  induction ps generalizing l with
  | nil => rfl
  | cons p ps ih =>
    rw [Lexer.placed]
    cases p with
    | token kind text => simp [Lexer.tokenOf, Piece.word?, ih]
    | _ => rw [List.filterMap_cons_none rfl, List.filterMap_cons_none rfl, ih]

/-- Two texts with the same words have the same tokens up to places. -/
theorem sameWord_of_words {ps ps' : List Piece}
    (h : Cut source.toList ps) (h' : Cut source'.toList ps')
    (hwords : ps.filterMap Piece.word? = ps'.filterMap Piece.word?) :
    List.Forall₂ Token.SameWord (Lexer.ofSource source).tokenize.1
      (Lexer.ofSource source').tokenize.1 := by
  have heof : ∀ l m, Token.SameWord (.endOfSource l) (.endOfSource m) :=
    fun _ _ => ⟨rfl, fun _ => rfl⟩
  -- blanks and comments give no tokens, so the same words are the same tokens
  have htokens : List.Forall₂ (fun t u : Token => (t.kind, t.lexeme) = (u.kind, u.lexeme))
      ((Lexer.placed .start ps).filterMap Lexer.tokenOf)
      ((Lexer.placed .start ps').filterMap Lexer.tokenOf) := by
    have hmap := words_placed .start ps
    rw [hwords, ← words_placed .start ps', ← List.forall₂_eq_eq_eq, List.forall₂_map_left_iff,
      List.forall₂_map_right_iff] at hmap
    exact hmap
  simp only [Lexer.tokenize, Lexer.ofSource, Lexer.pieces_of_cut h, Lexer.pieces_of_cut h']
  refine List.rel_append (htokens.imp fun t u htu => ?_) (.cons (heof _ _) .nil)
  obtain ⟨hkind, hlexeme⟩ := Prod.mk.inj htu
  exact ⟨hkind, fun _ => by rw [hlexeme]⟩

/-- **Layout does not matter.** Two sources whose tokens are of the same kinds,
with keywords spelled alike up to the case of letters, are both compiled to the
same name and the same code, or both refused at the same stage. So are two
sources that are cut into the same tokens with other blanks, line breaks and
comments between them. -/
theorem compile_layout_free (config : Config) (source source' : String) :
    (List.Forall₂ Token.SameWord (Lexer.ofSource source).tokenize.1
        (Lexer.ofSource source').tokenize.1 →
      Agrees Compiled.SameCode (compile config source) (compile config source')) ∧
    ∀ ps ps', Cut source.toList ps → Cut source'.toList ps' →
      ps.filterMap Piece.word? = ps'.filterMap Piece.word? →
      Agrees Compiled.SameCode (compile config source) (compile config source') :=
  ⟨fun h => compile_agrees h config,
    fun _ _ h h' hwords => compile_agrees (sameWord_of_words h h' hwords) config⟩

/-- Other line breaks, comments and cases of keywords. -/
theorem compile_layout_free_breaks :
    (∃ c d, compile {} "p: PROC OPTIONS(MAIN); PUT LIST(x); END p;" = .ok c ∧
      compile {} "P:proc/*\n*/options (main) ;\n put list(X);end\tp;" = .ok d ∧
      c.SameCode d) ∧
    ∃ c d, compile {} "p: PROC OPTIONS(MAIN); PUT LIST(x); END p;" = .ok c ∧
      compile {} "p:PROC OPTIONS(MAIN)/* */;\nPUT\nLIST( x );END p;" = .ok d ∧ c.SameCode d := by
  have hok : (compile {} "p: PROC OPTIONS(MAIN); PUT LIST(x); END p;").isOk := by decide +kernel
  exact ⟨((compile_layout_free {} _ _).1 (by decide +kernel)).exists_ok hok,
    ((compile_layout_free {} _ _).2 _ _ (Lexer.cut_pieces _) (Lexer.cut_pieces _)
      (by decide +kernel)).exists_ok hok⟩

end Plic
