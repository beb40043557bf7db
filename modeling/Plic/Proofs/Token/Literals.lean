import Plic.Proofs.Grammar.Program
import Plic.Proofs.Token.Exact

/-!
# Literals and their values

Every text without a line feed can be written as a character constant, with each
of its quotes doubled, and as a query, with a backslash in front of each double
quote and each backslash. Both spellings are read back: one token with the text
as its value, which covers the spelling and no more, and no report.

A character constant has no other spelling, so its lexeme can be told from its
value. A query has: `"a\b"` and `"a\\b"` are the same text.

Main result: `literals_round_trip`.
-/

namespace Plic.Lexer

/-! ## Spellings -/

/-- The text as a character constant. -/
def quoted (value : List Char) : List Char := '\x27' :: doubled value ++ ['\x27']

/-- The text with a backslash in front of each double quote and each backslash. -/
def escaped (value : List Char) : List Char :=
  value.flatMap fun c => if c = '\\' ∨ c = '\x22' then ['\\', c] else [c]

/-- The text as a query. -/
def queried (value : List Char) : List Char := '\x22' :: escaped value ++ ['\x22']

/-- A text with its double quotes and backslashes escaped is one of the spellings of the text. -/
theorem querySpelling_escaped {value : List Char} (h : '\n' ∉ value) :
    QuerySpelling value (escaped value ++ ['\x22']) := by
  induction value with
  | nil => exact .close
  | cons c cs ih =>
    rw [List.mem_cons, not_or] at h
    obtain ⟨hfeed, hcs⟩ := h
    by_cases hc : c = '\\' ∨ c = '\x22'
    · have hspell : escaped (c :: cs) = '\\' :: c :: escaped cs := by
        simp [escaped, hc]
      rw [hspell]
      exact .escaped hc.symm (ih hcs)
    · -- any other character is its own spelling, and no backslash
      have hspell : escaped (c :: cs) = c :: escaped cs := by
        simp [escaped, hc]
      rw [not_or] at hc
      rw [hspell]
      exact .plain hc.2 (Ne.symm hfeed) (fun hback => absurd hback hc.1) (ih hcs)

/-- The spelling of a character constant settles its value. -/
theorem Spells.eq_quoted {value : String} {text behind : List Char}
    (h : Spells (.text value) text behind) : text = quoted value.toList := by
  generalize hkind : Token.Kind.text value = kind at h
  cases h with
  | @text letters _ hline hnext =>
    injection hkind with hvalue
    rw [hvalue, String.toList_ofList, quoted]
  | _ => cases hkind

/-! ## Reading -/

/-- A token at the front is read first, and reading goes on behind it as if it started there. -/
theorem tokenize_of_spells {kind : Token.Kind} {c : Char} {cs behind : List Char}
    (h : Spells kind (c :: cs) behind) (l : Location) (reports : List Diagnostic) :
    tokenize ⟨c :: cs ++ behind, l, reports⟩ =
      (⟨kind, String.ofList (c :: cs), l⟩ :: (tokenize ⟨behind, l.after (c :: cs), reports⟩).1,
        (tokenize ⟨behind, l.after (c :: cs), reports⟩).2) := by
  have hpiece : firstPiece c (cs ++ behind) = .token kind (c :: cs) := firstPiece_of_spells h
  have hpieces : pieces (c :: cs ++ behind) = .token kind (c :: cs) :: pieces behind := by
    have happend : (firstPiece c (cs ++ behind)).text ++ behind = c :: (cs ++ behind) := by
      rw [hpiece]
      rfl
    have hne : (firstPiece c (cs ++ behind)).text ≠ [] := by
      rw [hpiece]
      exact List.cons_ne_nil c cs
    rw [List.cons_append, pieces_append happend hne, hpiece]
  -- the places behind the token are counted over its characters
  have hplaced : placed l (pieces (c :: cs ++ behind)) =
      (l, .token kind (c :: cs)) :: placed (l.after (c :: cs)) (pieces behind) := by
    rw [hpieces]
    rfl
  have hfinish : l.after (c :: cs ++ behind) = (l.after (c :: cs)).after behind :=
    Location.after_append l (c :: cs) behind
  simp only [tokenize, hplaced, hfinish]
  rfl

/-- **Literals are read back.** A text without a line feed, written as a character constant that no
further quote follows, is read as one token with this value, which covers exactly the constant; what
stands behind it is read as if the source began there, and nothing else is reported. The same holds
for the text written as a query, whatever follows. Conversely the characters of every character
constant that is read are the text of its value with each quote doubled, in quotes. -/
theorem literals_round_trip :
    (∀ value : String, '\n' ∉ value.toList →
      ∀ (behind : List Char) (l : Location) (reports : List Diagnostic),
        (behind.head? ≠ some '\x27' →
          tokenize ⟨quoted value.toList ++ behind, l, reports⟩ =
            (⟨.text value, String.ofList (quoted value.toList), l⟩ ::
                (tokenize ⟨behind, l.after (quoted value.toList), reports⟩).1,
              (tokenize ⟨behind, l.after (quoted value.toList), reports⟩).2)) ∧
        tokenize ⟨queried value.toList ++ behind, l, reports⟩ =
          (⟨.query value, String.ofList (queried value.toList), l⟩ ::
              (tokenize ⟨behind, l.after (queried value.toList), reports⟩).1,
            (tokenize ⟨behind, l.after (queried value.toList), reports⟩).2)) ∧
    ∀ (lexer : Lexer) (value : String), ∀ t ∈ lexer.tokenize.1, t.kind = .text value →
      t.lexeme = String.ofList (quoted value.toList) := by
  refine ⟨fun value hline behind l reports => ⟨fun hnext => ?_, ?_⟩, fun lexer value t ht hkind => ?_⟩
  · have hspells : Spells (.text value) (quoted value.toList) behind := by
      simpa [quoted] using Spells.text hline hnext
    exact tokenize_of_spells hspells l reports
  · have hspells : Spells (.query value) (queried value.toList) behind := by
      simpa [queried] using Spells.query (querySpelling_escaped hline)
    exact tokenize_of_spells hspells l reports
  · rw [tokenize] at ht
    rcases List.mem_append.mp ht with ht | ht
    · obtain ⟨behind, hspells⟩ := spelled_of_cut (cut_pieces lexer.rest) lexer.loc t ht
      rw [hkind] at hspells
      rw [← hspells.eq_quoted, String.ofList_toList]
    · -- the end of the source is no constant
      obtain rfl := List.mem_singleton.mp ht
      cases hkind

/-- A constant that begins and ends with a quote and has two of them in a row, with a query directly
behind it whose text ends with a backslash and a double quote. -/
theorem literals_round_trip_mixed :
    (ofSource "'''it''''s'''\"a\\\\b\\\\\\\"\"").tokenize.1 =
      [⟨.text "'it''s'", "'''it''''s'''", ⟨1, 1⟩⟩,
        ⟨.query "a\\b\\\"", "\"a\\\\b\\\\\\\"\"", ⟨1, 14⟩⟩, .endOfSource ⟨1, 24⟩] ∧
    (ofSource "'''it''''s'''\"a\\\\b\\\\\\\"\"").tokenize.2.diagnostics = [] := by
  have hsource : ofSource "'''it''''s'''\"a\\\\b\\\\\\\"\"" =
      ⟨quoted "'it''s'".toList ++ queried "a\\b\\\"".toList, .start, []⟩ := rfl
  have hplace : Location.start.after (quoted "'it''s'".toList) = ⟨1, 14⟩ := by decide
  -- a quote does not follow the first literal, so the second starts behind it
  have hconstant := (literals_round_trip.1 "'it''s'" (by decide)
    (queried "a\\b\\\"".toList) .start []).1 (by decide)
  have hquery := (literals_round_trip.1 "a\\b\\\"" (by decide) [] ⟨1, 14⟩ []).2
  rw [List.append_nil] at hquery
  rw [hsource, hconstant, hplace, hquery]
  exact ⟨by decide, rfl⟩

end Plic.Lexer
