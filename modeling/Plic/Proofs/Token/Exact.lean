import Plic.Proofs.Token.Pieces

/-!
# The scanner follows the lexical rules

The rules leave no choice: a text that is cut into pieces, each of which fits
the characters behind it, is cut as the scanner cuts it. So a source can be
changed and the pieces of the new text be told from the rules alone, without
running the scanner again.

Main results:

* `firstPiece_of_fits` — a piece that fits what comes behind it is taken off the
  front.
* `pieces_of_cut` — a text has one cut, and its pieces are those of the cut.
-/

namespace Plic.Lexer

/-! ## Comments -/

/-- A comment that is closed is read up to its first end mark. -/
theorem commentBody_append {inner : List Char} (h : ¬ ['*', '/'] <:+: inner ++ ['*'])
    (behind : List Char) :
    commentBody (inner ++ '*' :: '/' :: behind) = some (inner ++ ['*', '/']) := by
  induction inner with
  | nil => simp [commentBody]
  | cons c inner ih =>
    rw [List.cons_append, List.infix_cons_iff, not_or] at h
    obtain ⟨hfront, hinner⟩ := h
    rw [List.cons_append, commentBody, if_neg, ih hinner]
    · rfl
    · -- an end mark here would stand inside the comment
      rw [← endMark_front_iff]
      intro hmark
      apply hfront
      cases inner with
      | nil => simp at hmark
      | cons d inner => simpa using hmark

variable {cs behind : List Char} {c : Char}

/-- A comment without an end mark is not closed. -/
theorem commentBody_eq_none (h : ¬ ['*', '/'] <:+: cs) : commentBody cs = none := by
  rw [Option.eq_none_iff_forall_ne_some]
  intro body hbody
  obtain ⟨inner, rfl, hfront, -⟩ := commentBody_ends hbody
  exact h ((List.infix_append' inner ['*', '/'] []).trans (by simpa using hfront.isInfix))

/-! ## Literals that are not closed -/

/-- A text is not closed if no quote on its line ends it. -/
theorem textBody_eq_none (h : ∀ value rest, '\n' ∉ value → rest.head? ≠ some '\x27' →
      cs ≠ doubled value ++ '\x27' :: rest) : textBody cs = none := by
  rw [Option.eq_none_iff_forall_ne_some]
  rintro ⟨value, body⟩ hbody
  obtain ⟨behind, rfl, rfl, hline, hnext⟩ := textBody_spells hbody
  exact h value behind hline hnext (by simp)

/-- A query is not closed if none of its spellings is in front. -/
theorem queryBody_eq_none
    (h : ∀ value body, QuerySpelling value body → ¬ body <+: cs) : queryBody cs = none := by
  rw [Option.eq_none_iff_forall_ne_some]
  rintro ⟨value, body⟩ hbody
  obtain ⟨hfront, hspells⟩ := queryBody_spells hbody
  exact h value body hspells hfront

/-! ## Words and symbols -/

/-- A word that spells a keyword is one. -/
theorem wordKind_of_keyword {letters : List Char} {k : Keyword}
    (h : (String.ofList (letters.map Char.toLower), k) ∈ Keyword.spellings) :
    wordKind letters = .keyword k := by
  rw [wordKind, ofSpelling?_eq_some_iff.mpr h]

theorem wordKind_of_name {letters : List Char}
    (h : ∀ k, (String.ofList (letters.map Char.toLower), k) ∉ Keyword.spellings) :
    wordKind letters = .name (String.ofList (letters.map Char.toLower)) := by
  have hnone : Keyword.ofSpelling? (String.ofList (letters.map Char.toLower)) = none := by
    rw [Option.eq_none_iff_forall_ne_some]
    exact fun k hk => h k (ofSpelling?_eq_some_iff.mp hk)
  rw [wordKind, hnone]

/-- The longest symbol at the front of a text is the one that is found. -/
theorem find_symbol {text : List Char} {mark : Symbol} (hmem : (text, mark) ∈ Symbol.spellings)
    (hfront : text <+: cs)
    (hlongest : ∀ s ∈ Symbol.spellings, s.1 <+: cs → s.1.length ≤ text.length) :
    Symbol.spellings.find? (fun s => s.1.isPrefixOf cs) = some (text, mark) := by
  cases hfind : Symbol.spellings.find? fun s => s.1.isPrefixOf cs with
  | none =>
    have hmiss := List.find?_eq_none.mp hfind _ hmem
    exact absurd (List.isPrefixOf_iff_prefix.mpr hfront) hmiss
  | some s =>
    obtain ⟨text', mark'⟩ := s
    have hmem' := List.mem_of_find?_eq_some hfind
    have hfound := List.find?_some hfind
    have hfront' : text' <+: cs := List.isPrefixOf_iff_prefix.mp hfound
    -- both are the longest that stand there, so they are of one length
    have hlength : text'.length = text.length :=
      Nat.le_antisymm (hlongest _ hmem' hfront') (length_le_of_find hfind _ hmem hfront)
    have htext : text' = text :=
      (List.prefix_of_prefix_length_le hfront' hfront hlength.le).eq_of_length hlength
    subst htext
    -- no spelling stands twice in the table
    have hunique : ∀ s ∈ Symbol.spellings, ∀ t ∈ Symbol.spellings, s.1 = t.1 → s = t := by decide
    rw [hunique _ hmem _ hmem' rfl]

/-! ## Classes of characters -/

/-- The characters of symbols belong to no other class. -/
structure IsMark (c : Char) : Prop where
  blank  : ¬ Text.isBlank c
  quote  : c ≠ '\x27'
  double : c ≠ '\x22'
  word   : ¬ isNameRest c

/-- Marks are written with characters of marks. -/
theorem isMark_of_mem {text : List Char} {mark : Symbol} (h : (text, mark) ∈ Symbol.spellings) :
    ∀ c ∈ text, IsMark c := by
  have hall : (Symbol.spellings.all fun s => s.1.all fun c =>
      !Text.isBlank c && c != '\x27' && c != '\x22' && !isNameRest c) = true := rfl
  intro c hc
  have hmark := List.all_eq_true.mp (List.all_eq_true.mp hall _ h) c hc
  simp only [Bool.and_eq_true, Bool.not_eq_true', bne_iff_ne] at hmark
  obtain ⟨⟨⟨hblank, hquote⟩, hdouble⟩, hword⟩ := hmark
  exact ⟨by simp [hblank], hquote, hdouble, by simp [hword]⟩

theorem IsMark.not_isDigit (h : IsMark c) : ¬ c.isDigit := by
  intro hdigit
  exact h.word (by rw [isNameRest, hdigit, Bool.or_true])

theorem IsMark.not_isNameStart (h : IsMark c) : ¬ isNameStart c := by
  intro hstart
  exact h.word (by rw [isNameRest, hstart, Bool.true_or])

/-- A character that is no blank, no quote and no slash. -/
structure Ordinary (c : Char) : Prop where
  blank  : Text.isBlank c = false
  slash  : c ≠ '/'
  quote  : c ≠ '\x27'
  double : c ≠ '\x22'

/-- The printable characters that are not blank. -/
theorem isBlank_of_ascii (h : 33 ≤ c.toNat) (h' : c.toNat < 128) : Text.isBlank c = false := by
  rw [Bool.eq_false_iff]
  intro hblank
  simp only [Text.isBlank, Text.blankRanges, List.any_cons, List.any_nil, Bool.or_eq_true,
    Bool.and_eq_true, decide_eq_true_eq, Bool.or_false] at hblank
  omega

/-- A digit begins no comment and no literal and is not blank. -/
theorem ordinary_of_isDigit (h : c.isDigit) : Ordinary c := by
  have hrange := isDigit_range h
  refine ⟨isBlank_of_ascii (by omega) (by omega), ?_, ?_, ?_⟩ <;>
  · rintro rfl
    exact absurd h (by decide)

theorem ordinary_of_isNameStart (h : isNameStart c) : Ordinary c := by
  refine ⟨?_, ?_, ?_, ?_⟩
  · have hcases := h
    rw [isNameStart, Bool.or_eq_true, decide_eq_true_eq] at hcases
    obtain ha | rfl := hcases
    · have hrange := isAlpha_range ha
      exact isBlank_of_ascii (by omega) (by omega)
    · decide
  all_goals
    rintro rfl
    exact absurd h (by decide)

/-- Blanks, comments and literals do not begin with such a character. -/
theorem firstPiece_of_ordinary (h : Ordinary c) (rest : List Char) : firstPiece c rest =
      if c.isDigit then numberPiece (c :: rest.takeWhile Char.isDigit)
      else if isNameStart c then
        .token (wordKind (c :: rest.takeWhile isNameRest)) (c :: rest.takeWhile isNameRest)
      else
        match Symbol.spellings.find? fun s => s.1.isPrefixOf (c :: rest) with
        | some (text, mark) => .token (.symbol mark) text
        | none => .dropped (.illegalCharacter c) [c] := by
  rw [firstPiece, if_neg (by simp [h.blank]), if_neg (by simp [h.slash]), if_neg h.quote]
  exact if_neg h.double

/-! ## The first piece

One lemma for each class of pieces. -/

/-- A comment is read up to its first end mark. -/
theorem firstPiece_comment {inner : List Char} (h : ¬ ['*', '/'] <:+: inner ++ ['*'])
    (behind : List Char) :
    firstPiece '/' ('*' :: (inner ++ '*' :: '/' :: behind)) =
      .comment ('/' :: '*' :: inner ++ ['*', '/']) := by
  have hbody := commentBody_append h behind
  simp [firstPiece, hbody, show Text.isBlank '/' = false by decide]

/-- Without one, all that is left is dropped. -/
theorem firstPiece_open_comment {body : List Char} (h : ¬ ['*', '/'] <:+: body) :
    firstPiece '/' ('*' :: body) = .dropped .unterminatedComment ('/' :: '*' :: body) := by
  simp [firstPiece, commentBody_eq_none h, show Text.isBlank '/' = false by decide]

/-- A quote begins a text, or is dropped by itself. -/
theorem firstPiece_quote (rest : List Char) :
    firstPiece '\x27' rest =
      match textBody rest with
      | some (value, body) => .token (.text (String.ofList value)) ('\x27' :: body)
      | none => .dropped .unterminatedText ['\x27'] := by
  rw [firstPiece, if_neg (by decide), if_neg (by simp)]
  exact if_pos rfl

/-- A double quote begins a query, or is dropped by itself. -/
theorem firstPiece_double (rest : List Char) :
    firstPiece '\x22' rest =
      match queryBody rest with
      | some (value, body) => .token (.query (String.ofList value)) ('\x22' :: body)
      | none => .dropped .unterminatedQuery ['\x22'] := by
  rw [firstPiece, if_neg (by decide), if_neg (by simp), if_neg (by decide)]
  exact if_pos rfl

/-- Digits are read up to the first character that is none. -/
theorem firstPiece_number (hdigits : ∀ d ∈ c :: cs, d.isDigit)
    (hend : ∀ d ∈ behind.head?, ¬ d.isDigit) :
    firstPiece c (cs ++ behind) = numberPiece (c :: cs) := by
  rw [List.forall_mem_cons] at hdigits
  obtain ⟨htake, -⟩ := takeWhile_append_of_head hdigits.2 fun d hd => by simpa using hend d hd
  rw [firstPiece_of_ordinary (ordinary_of_isDigit hdigits.1), if_pos hdigits.1, htake]

/-- A word is read up to the first character that is not one of names. -/
theorem firstPiece_word (hword : IsWord (c :: cs)) (hend : ∀ d ∈ behind.head?, ¬ isNameRest d) :
    firstPiece c (cs ++ behind) = .token (wordKind (c :: cs)) (c :: cs) := by
  obtain ⟨hstart, hrest⟩ := hword
  obtain ⟨htake, -⟩ := takeWhile_append_of_head hrest fun d hd => by simpa using hend d hd
  rw [firstPiece_of_ordinary (ordinary_of_isNameStart hstart),
    if_neg (by simp [isDigit_of_isNameStart hstart]), if_pos hstart, htake]

/-- Where no comment begins, a character of no other class is looked up among the
symbols. -/
theorem firstPiece_mark {rest : List Char} (hblank : ¬ Text.isBlank c)
    (hopen : ¬ ['/', '*'] <+: c :: rest) (hquote : c ≠ '\x27') (hdouble : c ≠ '\x22')
    (hdigit : ¬ c.isDigit) (hletter : ¬ isNameStart c) : firstPiece c rest =
      match Symbol.spellings.find? fun s => s.1.isPrefixOf (c :: rest) with
      | some (text, mark) => .token (.symbol mark) text
      | none => .dropped (.illegalCharacter c) [c] := by
  -- the tests for other pieces are passed in the order in which they are made
  have hcomment : ¬ (c = '/' && rest.head? = some '*') = true := by
    intro hmark
    rw [Bool.and_eq_true, decide_eq_true_eq, decide_eq_true_eq] at hmark
    obtain ⟨rfl, hhead⟩ := hmark
    obtain ⟨cs, rfl⟩ := List.head?_eq_some_iff.mp hhead
    exact hopen ⟨cs, rfl⟩
  rw [firstPiece, if_neg hblank, if_neg hcomment, if_neg hquote, if_neg hdouble, if_neg hdigit]
  exact if_neg hletter

theorem firstPiece_of_spells {kind : Token.Kind}
    (h : Spells kind (c :: cs) behind) : firstPiece c (cs ++ behind) = .token kind (c :: cs) := by
  generalize htext : c :: cs = text at h
  cases h with
  | number _ hdigits hend hmax =>
    subst htext
    rw [firstPiece_number hdigits hend, numberPiece, digitsValue_eq_decimal,
      if_pos (show _ ≤ maxNumber from hmax)]
  | text hline hnext =>
    rw [List.cons_append] at htext
    obtain ⟨rfl, rfl⟩ := List.cons.inj htext
    -- the doubled quotes inside are read as single ones
    have hbody := textBody_doubled hline hnext
    rw [firstPiece_quote, List.append_assoc, List.singleton_append, hbody]
    rfl
  | query hspells =>
    obtain ⟨rfl, rfl⟩ := List.cons.inj htext
    rw [firstPiece_double, queryBody_of_spelling hspells]
  | name hword hend hfree =>
    subst htext
    rw [firstPiece_word hword hend, wordKind_of_name hfree]
  | keyword hword hend hkeyword =>
    subst htext
    rw [firstPiece_word hword hend, wordKind_of_keyword hkeyword]
  | symbol hmem hlongest hopen =>
    subst htext
    -- a mark starts no piece of another kind, and the table gives the longest that is in front
    have hmark := isMark_of_mem hmem c List.mem_cons_self
    rw [List.cons_append] at hlongest hopen
    rw [firstPiece_mark hmark.blank hopen hmark.quote hmark.double hmark.not_isDigit
      hmark.not_isNameStart, find_symbol hmem (by simp) hlongest]

theorem firstPiece_of_drops {problem : Problem} (h : Drops problem (c :: cs) behind) :
    firstPiece c (cs ++ behind) = .dropped problem (c :: cs) := by
  generalize htext : c :: cs = text at h
  cases h with
  | @illegalCharacter d _ hblank hdigit hletter hquote hdouble hfree =>
    obtain ⟨rfl, rfl⟩ := List.cons.inj htext
    have hnone : Symbol.spellings.find? (fun s => s.1.isPrefixOf (c :: behind)) = none := by
      rw [List.find?_eq_none]
      exact fun s hs hfront => hfree s hs (List.isPrefixOf_iff_prefix.mp hfront)
    -- a slash is a symbol, so no comment begins here either
    have hopen : ¬ ['/', '*'] <+: c :: behind := by
      intro hopen
      exact hfree (['/'], .slash) (by decide) ((by simp : ['/'] <+: ['/', '*']).trans hopen)
    rw [List.nil_append, firstPiece_mark hblank hopen hquote hdouble hdigit hletter, hnone]
  | unterminatedText hopen =>
    obtain ⟨rfl, rfl⟩ := List.cons.inj htext
    rw [firstPiece_quote, List.nil_append, textBody_eq_none hopen]
  | unterminatedQuery hopen =>
    obtain ⟨rfl, rfl⟩ := List.cons.inj htext
    rw [firstPiece_double, List.nil_append, queryBody_eq_none hopen]
  | numberOutOfRange _ hdigits hend hmax =>
    subst htext
    rw [firstPiece_number hdigits hend, numberPiece, digitsValue_eq_decimal,
      if_neg (show ¬ _ ≤ maxNumber from Nat.not_le_of_lt hmax)]
  | unterminatedComment hopen =>
    obtain ⟨rfl, rfl⟩ := List.cons.inj htext
    rw [List.append_nil, firstPiece_open_comment hopen]

/-- A piece that fits what comes behind it is taken off the front. -/
theorem firstPiece_of_fits {p : Piece}
    (htext : p.text = c :: cs) (h : p.Fits behind) : firstPiece c (cs ++ behind) = p := by
  cases h with
  | blank hblank =>
    obtain ⟨rfl, rfl⟩ := List.cons.inj htext
    rw [firstPiece, if_pos hblank]
  | @comment inner _ hfirst =>
    obtain ⟨rfl, rfl⟩ := List.cons.inj htext
    simpa using firstPiece_comment hfirst behind
  | token hspells =>
    rw [Piece.text] at htext
    subst htext
    exact firstPiece_of_spells hspells
  | dropped hdrops =>
    rw [Piece.text] at htext
    subst htext
    exact firstPiece_of_drops hdrops

/-! ## All pieces -/

/-- The pieces of a text are those of its only cut. The cut is followed from the front: its first
piece fits what comes behind it, so the scanner takes that piece off. -/
theorem pieces_of_cut {ps : List Piece} (h : Cut cs ps) : pieces cs = ps := by
  induction h with
  | nil => rfl
  | @cons p rest ps hne hfits _ ih =>
    obtain ⟨c, cs, htext⟩ := List.exists_cons_of_ne_nil hne
    have hfirst := firstPiece_of_fits htext hfits
    have happend : (firstPiece c (cs ++ rest)).text ++ rest = c :: (cs ++ rest) := by
      rw [hfirst, htext]
      rfl
    rw [htext, List.cons_append, pieces_append happend (by rwa [hfirst]), hfirst, ih]

end Plic.Lexer
