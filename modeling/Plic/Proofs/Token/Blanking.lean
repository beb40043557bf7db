import Plic.Proofs.Token.Cover
import Plic.Proofs.Token.Exact

/-!
# Dropping is blanking

A source in which everything outside the tokens is made blank has the same
tokens, at the same places, and nothing is dropped from it. So a dropped quote,
an illegal character and a comment have no other effect than the blanks that
could stand in their place: none of them opens or closes a literal, and none of
them joins its neighbours.

Every piece that is not a token becomes blanks, and every token still fits what
comes behind it: its first character, if there is one, is the old one or a blank.

Main results:

* `blanked_toList` — blanking a source is blanking its pieces one by one.
* `Cut.blanked` — the pieces of the blanked source are the tokens with blanks
  between them.
* `tokenize_blanked` — scanning it gives the same tokens and no reports.
-/

namespace Plic

/-! ## Blanking a source -/

namespace Lexer

/-- The source with a blank for every character that stands inside no token; line
feeds are kept. -/
def blanked (source : String) : String :=
  String.ofList (source.toList.mapIdx fun i c =>
    if c = '\n' ∨ ∃ t ∈ (ofSource source).tokenize.1, t.Covers source.toList i then c else ' ')

/-- What is put in place of a character: line feeds stay, so that places stay. -/
def blankFor (c : Char) : Char := if c = '\n' then '\n' else ' '

theorem isBlank_blankFor (c : Char) : Text.isBlank (blankFor c) := by
  unfold blankFor
  split <;> decide

/-- A blank takes as much room as the character in whose place it stands. -/
theorem step_blankFor (l : Location) (c : Char) : l.step (blankFor c) = l.step c := by
  unfold Location.step blankFor
  by_cases hc : c = '\n'
  · rw [if_pos hc, hc]
  · rw [if_neg hc, if_neg hc, if_neg (by decide)]

theorem after_map_blankFor (l : Location) (text : List Char) :
    l.after (text.map blankFor) = l.after text := by
  induction text generalizing l with
  | nil => rfl
  | cons c cs ih => rw [List.map_cons, Location.after_cons, Location.after_cons, step_blankFor, ih]

end Lexer

open Lexer

namespace Piece

/-- Whether the piece is a token. -/
def IsToken (p : Piece) : Prop := ∃ kind text, p = .token kind text

/-- A piece with its characters blanked, unless it is a token. -/
def blanked : Piece → List Char
  | .token _ text => text
  | p => p.text.map blankFor

/-- The pieces of a blanked source that come from a piece. -/
def remains : Piece → List Piece
  | .token kind text => [.token kind text]
  | p => (p.text.map blankFor).map .blank

theorem blanked_of_not_isToken {p : Piece} (h : ¬ p.IsToken) :
    p.blanked = p.text.map blankFor := by
  cases p with
  | token kind text => exact absurd ⟨kind, text, rfl⟩ h
  | blank c => rfl
  | comment text => rfl
  | dropped problem text => rfl

theorem remains_of_not_isToken {p : Piece} (h : ¬ p.IsToken) :
    p.remains = (p.text.map blankFor).map .blank := by
  cases p with
  | token kind text => exact absurd ⟨kind, text, rfl⟩ h
  | blank c => rfl
  | comment text => rfl
  | dropped problem text => rfl

/-- A blanked piece ends where the piece ended. -/
theorem after_blanked (l : Location) (p : Piece) : l.after p.blanked = l.after p.text := by
  by_cases h : p.IsToken
  · obtain ⟨kind, text, rfl⟩ := h
    rfl
  · rw [blanked_of_not_isToken h, after_map_blankFor]

end Piece

namespace Lexer

/-- Within one piece either all characters stand inside a token, or none does. -/
theorem mapIdx_piece (p : Piece) {covered : Nat → Prop} [DecidablePred covered]
    (h : ∀ i < p.text.length, covered i ↔ p.IsToken) :
    p.text.mapIdx (fun i c => if c = '\n' ∨ covered i then c else ' ') = p.blanked := by
  -- a piece is covered as a whole or not at all
  by_cases htoken : p.IsToken
  · have hkeep : p.text.mapIdx (fun i c => if c = '\n' ∨ covered i then c else ' ') = p.text := by
      apply List.ext_getElem (by simp)
      intro i _ hi
      rw [List.getElem_mapIdx, if_pos (.inr ((h i hi).mpr htoken))]
    rw [hkeep]
    obtain ⟨kind, text, rfl⟩ := htoken
    rfl
  · rw [Piece.blanked_of_not_isToken htoken]
    apply List.ext_getElem (by simp)
    intro i hi _
    have hfree : ¬ covered i := fun hc => htoken ((h i (by simpa using hi)).mp hc)
    rw [List.getElem_mapIdx, List.getElem_map, blankFor]
    simp only [hfree, or_false]
    split
    · rename_i hfeed
      exact hfeed
    · rfl

/-- Blanking the characters that are in no range of a token blanks the pieces one
by one. -/
theorem mapIdx_cut {cs : List Char} {ps : List Piece} (h : Cut cs ps) (n : Nat)
    {covered : Nat → Prop} [DecidablePred covered]
    (hcovered : ∀ i < cs.length, covered (n + i) ↔
      ∃ tile ∈ tilesFrom n ps, tile.piece.IsToken ∧ tile.start ≤ n + i ∧ n + i < tile.stop) :
    cs.mapIdx (fun i c => if c = '\n' ∨ covered (n + i) then c else ' ') =
      ps.flatMap Piece.blanked := by
  induction h generalizing n with
  | nil => rfl
  | @cons p rest ps _ _ hcut ih =>
    have hlater := (row_tilesFrom hcut (n + p.text.length)).le_start
    rw [List.mapIdx_append, List.flatMap_cons]
    congr 1
    · apply mapIdx_piece
      intro i hi
      rw [hcovered i (by simp; omega)]
      simp only [tilesFrom, List.mem_cons, exists_eq_or_imp]
      constructor
      · rintro (⟨htoken, -⟩ | ⟨tile, htile, -, hstart, -⟩)
        · exact htoken
        -- the other tiles start behind the piece
        · have := hlater tile htile
          omega
      · intro htoken
        exact .inl ⟨htoken, by omega, by omega⟩
    · rw [← ih (n + p.text.length)]
      · congr 1
        funext i c
        rw [show n + (i + p.text.length) = n + p.text.length + i by omega]
      · intro i hi
        have hrest := hcovered (p.text.length + i) (by simp; omega)
        simp only [← Nat.add_assoc, tilesFrom, List.mem_cons, exists_eq_or_imp] at hrest
        rw [hrest]
        -- the first tile ends before the rest
        exact or_iff_right fun h => absurd h.2.2 (by simp)

/-- The characters of a blanked source, piece by piece. -/
theorem blanked_toList (source : String) :
    (blanked source).toList = (pieces source.toList).flatMap Piece.blanked := by
  rw [blanked, String.toList_ofList]
  have hcut := @mapIdx_cut _ _ (cut_pieces source.toList) 0
    (fun i => ∃ t ∈ (ofSource source).tokenize.1, t.Covers source.toList i) _ ?_
  · simpa only [Nat.zero_add] using hcut
  · intro i hi
    have hcovers := exists_covers_iff (P := fun _ => True) hi
    simp only [true_and, and_true, Nat.zero_add] at hcovers ⊢
    exact hcovers

/-! ## The pieces of a blanked source -/

/-- Instead of the first character of one text another one begins with the same or
with a blank, or is empty. -/
def Softens (behind behind' : List Char) : Prop :=
  ∀ c ∈ behind'.head?, Text.isBlank c ∨ c ∈ behind.head?

/-- What holds of blanks holds of what became blank. -/
theorem Softens.imp {behind behind' : List Char} (h : Softens behind behind') {p : Char → Prop}
    (hblank : ∀ c, Text.isBlank c → p c) (hp : ∀ c ∈ behind.head?, p c) :
    ∀ c ∈ behind'.head?, p c := by
  intro c hc
  rcases h c hc with hsoft | hsame
  · exact hblank c hsoft
  · exact hp c hsame

/-- One or two characters that reach into the softened text stood there before. -/
theorem Softens.front {behind behind' text w : List Char} (h : Softens behind behind')
    (htext : text ≠ []) (hshort : w.length ≤ 2) (hw : ∀ c ∈ w, ¬ Text.isBlank c)
    (hfront : w <+: text ++ behind') : w <+: text ++ behind := by
  obtain ⟨a, text, rfl⟩ := List.exists_cons_of_ne_nil htext
  match w, text with
  | [], _ => exact List.nil_prefix
  | [b], _ => simpa using hfront
  | [b, c], [] =>
    rw [List.singleton_append, List.cons_prefix_cons] at hfront ⊢
    refine ⟨hfront.1, ?_⟩
    obtain ⟨rest, hrest⟩ := hfront.2
    -- the second of them is no blank, so it is the old first character
    rcases h c (by rw [← hrest]; rfl) with hsoft | hsame
    · exact absurd hsoft (hw c (by simp))
    · obtain ⟨more, rfl⟩ := List.head?_eq_some_iff.mp hsame
      simp
  | [b, c], d :: text => simpa using hfront
  | _ :: _ :: _ :: _, _ => simp at hshort

theorem not_isNameRest_of_isBlank {c : Char} (h : Text.isBlank c) : ¬ isNameRest c := by
  intro hrest
  rw [isNameRest, Bool.or_eq_true] at hrest
  rcases hrest with hstart | hdigit
  · simp [(ordinary_of_isNameStart hstart).blank] at h
  · simp [(ordinary_of_isDigit hdigit).blank] at h

theorem not_isDigit_of_isBlank {c : Char} (h : Text.isBlank c) : ¬ c.isDigit := by
  intro hdigit
  simp [(ordinary_of_isDigit hdigit).blank] at h

/-- A token stays one when the text behind it is softened. -/
theorem Spells.soften {kind : Token.Kind} {text behind behind' : List Char}
    (h : Spells kind text behind) (hsoft : Softens behind behind') : Spells kind text behind' := by
  cases h with
  | number hne hdigits hend hmax =>
    exact .number hne hdigits (hsoft.imp (fun _ => not_isDigit_of_isBlank) hend) hmax
  | text hline hnext =>
    refine .text hline fun hquote => ?_
    -- a quote behind a text would belong to it, and a blank is no quote
    have hhead : ∀ c ∈ behind'.head?, c ≠ '\x27' := by
      refine hsoft.imp ?_ ?_
      · rintro c hblank rfl
        exact absurd hblank (by decide)
      · rintro c hc rfl
        exact hnext hc
    exact hhead _ hquote rfl
  | query hspells => exact .query hspells
  | name hword hend hfree =>
    exact .name hword (hsoft.imp (fun _ => not_isNameRest_of_isBlank) hend) hfree
  | keyword hword hend hkeyword =>
    exact .keyword hword (hsoft.imp (fun _ => not_isNameRest_of_isBlank) hend) hkeyword
  | symbol hmem hlongest hopen =>
    -- a longer mark would need another character of marks, and a blank is none
    have hshort : (Symbol.spellings.all fun s => s.1 ≠ [] && s.1.length ≤ 2) = true := rfl
    have hsize : ∀ s ∈ Symbol.spellings, s.1 ≠ [] ∧ s.1.length ≤ 2 := fun s hs => by
      simpa using List.all_eq_true.mp hshort s hs
    refine .symbol hmem (fun s hs hfront => ?_) fun hcomment => ?_
    · refine hlongest s hs (hsoft.front (hsize _ hmem).1 (hsize s hs).2 ?_ hfront)
      exact fun c hc => (isMark_of_mem hs c hc).blank
    · have hmarks : ∀ c ∈ ['/', '*'], ¬ Text.isBlank c :=
        List.forall_mem_cons.mpr ⟨by decide, List.forall_mem_singleton.mpr (by decide)⟩
      exact hopen (hsoft.front (hsize _ hmem).1 (by simp) hmarks hcomment)

end Lexer

namespace Cut

variable {cs : List Char} {ps : List Piece}

/-- What a blanked text begins with. -/
theorem softens (h : Cut cs ps) : Softens cs (ps.flatMap Piece.blanked) := by
  cases h with
  | nil => simp [Softens]
  | @cons p rest ps hne _ _ =>
    obtain ⟨d, ds, htext⟩ := List.exists_cons_of_ne_nil hne
    intro c hc
    -- a token keeps its first character, and all else starts with a blank
    by_cases htoken : p.IsToken
    · obtain ⟨kind, text, rfl⟩ := htoken
      rw [Piece.text] at htext
      subst htext
      exact .inr hc
    · rw [List.flatMap_cons, Piece.blanked_of_not_isToken htoken, htext] at hc
      obtain rfl : blankFor d = c := by simpa using hc
      exact .inl (isBlank_blankFor d)

/-- Blanks in front of a text are pieces of their own. -/
theorem blanks (h : Cut cs ps) (text : List Char) :
    Cut (text.map blankFor ++ cs) ((text.map blankFor).map .blank ++ ps) := by
  induction text with
  | nil => exact h
  | cons c text ih =>
    have hne : (Piece.blank (blankFor c)).text ≠ [] := by simp [Piece.text]
    exact .cons hne (.blank (isBlank_blankFor c)) ih

/-- The pieces of a blanked text are its tokens with blanks between them. -/
theorem blanked (h : Cut cs ps) :
    Cut (ps.flatMap Piece.blanked) (ps.flatMap Piece.remains) := by
  induction h with
  | nil => exact .nil
  | @cons p rest ps hne hfits hcut ih =>
    rw [List.flatMap_cons, List.flatMap_cons]
    by_cases htoken : p.IsToken
    · obtain ⟨kind, text, rfl⟩ := htoken
      cases hfits with
      | token hspells => exact .cons hne (.token (hspells.soften hcut.softens)) ih
    · rw [Piece.blanked_of_not_isToken htoken, Piece.remains_of_not_isToken htoken]
      exact ih.blanks p.text

/-- Blanking moves nothing. -/
theorem after_blanked (h : Cut cs ps) (l : Location) :
    l.after (ps.flatMap Piece.blanked) = l.after cs := by
  induction h generalizing l with
  | nil => rfl
  | @cons p rest ps _ _ _ ih =>
    rw [List.flatMap_cons, Location.after_append, Location.after_append, Piece.after_blanked, ih]

end Cut

namespace Lexer

/-! ## Tokens and reports -/

/-- What is read off pieces and never off a blank is read off those behind some
blanks. -/
theorem filterMap_placed_blanks {α : Type} {f : Location × Piece → Option α}
    (hf : ∀ l c, f (l, .blank c) = none) (l : Location) (text : List Char) (ps : List Piece) :
    (placed l (text.map .blank ++ ps)).filterMap f = (placed (l.after text) ps).filterMap f := by
  induction text generalizing l with
  | nil => rfl
  | cons c text ih =>
    rw [List.map_cons, List.cons_append, placed, List.filterMap_cons_none (hf l c), ih]
    rfl

/-- The tokens of a blanked source are those of the source, at the same places. -/
theorem tokens_remains (l : Location) (ps : List Piece) :
    (placed l (ps.flatMap Piece.remains)).filterMap tokenOf =
      (placed l ps).filterMap tokenOf := by
  induction ps generalizing l with
  | nil => rfl
  | cons p ps ih =>
    rw [List.flatMap_cons, placed, List.filterMap_cons]
    -- a token stays; anything else becomes blanks, which give no tokens and keep the place
    by_cases htoken : p.IsToken
    · obtain ⟨kind, text, rfl⟩ := htoken
      simp only [Piece.remains, List.singleton_append, placed, List.filterMap_cons, tokenOf, ih]
    · have hnone : tokenOf (l, p) = none := by
        cases p with
        | token kind text => exact absurd ⟨kind, text, rfl⟩ htoken
        | blank c => rfl
        | comment text => rfl
        | dropped problem text => rfl
      rw [Piece.remains_of_not_isToken htoken, filterMap_placed_blanks (fun _ _ => rfl),
        after_map_blankFor, ih, hnone]

/-- Nothing is dropped from what remains. -/
theorem reports_remains (l : Location) (ps : List Piece) :
    (placed l (ps.flatMap Piece.remains)).filterMap diagnosticOf = [] := by
  induction ps generalizing l with
  | nil => rfl
  | cons p ps ih =>
    rw [List.flatMap_cons]
    by_cases htoken : p.IsToken
    · obtain ⟨kind, text, rfl⟩ := htoken
      simp only [Piece.remains, List.singleton_append, placed, List.filterMap_cons, diagnosticOf,
        ih]
    · rw [Piece.remains_of_not_isToken htoken, filterMap_placed_blanks (fun _ _ => rfl), ih]

/-- **Dropping is blanking.** A source in which every character outside its tokens
is made blank, line feeds apart, has exactly the tokens of the source, with their
kinds, lexemes and places and with the end of the source behind them, and there
is nothing to report on it. -/
theorem tokenize_blanked (source : String) :
    (ofSource (blanked source)).tokenize.1 = (ofSource source).tokenize.1 ∧
      (ofSource (blanked source)).tokenize.2.diagnostics = [] := by
  have hcut := cut_pieces source.toList
  -- the rules alone tell the pieces of the blanked source
  have hpieces : pieces (blanked source).toList = (pieces source.toList).flatMap Piece.remains := by
    rw [blanked_toList]
    exact pieces_of_cut hcut.blanked
  have hfinish : Location.start.after (blanked source).toList =
      Location.start.after source.toList := by
    rw [blanked_toList, hcut.after_blanked]
  simp only [tokenize, ofSource, hpieces, hfinish, tokens_remains, reports_remains, List.append_nil,
    and_self]

end Lexer

end Plic
