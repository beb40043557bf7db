import Mathlib
import Plic.Token.Lexer

/-!
# What a piece of a source is

The lexical rules, said without the scanner. `Piece.Fits p behind` says that
the characters of `p`, when the characters `behind` come after them, are a
piece of the kind that `p` claims to be: which characters spell it, and that
no more of them belong to it.

Main results:

* `firstPiece_starts` — what the scanner takes off the front of a text is not
  empty, stands at the front of that text, and fits what it leaves behind.
* `cut_pieces` — the pieces of a text, put together, are the text again, and
  each of them fits the characters behind it.
-/

namespace Plic

namespace Lexer

/-! ## Spellings -/

/-- A text with each of its quotes written twice. -/
def doubled (value : List Char) : List Char :=
  value.flatMap fun c => if c = '\x27' then ['\x27', '\x27'] else [c]

/-- The spellings of a query behind its opening quote, with the closing quote.
A backslash that stands for itself is followed by neither of the characters
that it would escape. -/
inductive QuerySpelling : (value body : List Char) → Prop where
  | close : QuerySpelling [] ['\x22']
  | escaped {c : Char} {value body : List Char} :
      c = '\x22' ∨ c = '\\' → QuerySpelling value body →
      QuerySpelling (c :: value) ('\\' :: c :: body)
  | plain {c : Char} {value body : List Char} :
      c ≠ '\x22' → c ≠ '\n' →
      (c = '\\' → body.head? ≠ some '\x22' ∧ body.head? ≠ some '\\') →
      QuerySpelling value body → QuerySpelling (c :: value) (c :: body)

/-- The number that a run of decimal digits denotes, as a sum of powers of ten. -/
def decimal (digits : List Char) : Nat :=
  Nat.ofDigits 10 (digits.reverse.map fun d => d.toNat - '0'.toNat)

/-- A word: a letter or underscore and what can follow it. -/
def IsWord : List Char → Prop
  | [] => False
  | c :: cs => isNameStart c ∧ ∀ d ∈ cs, isNameRest d

/-- The spellings of a token that is followed by `behind`. -/
inductive Spells : Token.Kind → (text behind : List Char) → Prop where
  | number {digits behind : List Char} :
      -- all digits that stand there
      digits ≠ [] → (∀ d ∈ digits, d.isDigit) → (∀ d ∈ behind.head?, ¬ d.isDigit) →
      decimal digits ≤ 2 ^ 63 - 1 →
      Spells (.number (decimal digits)) digits behind
  | text {value behind : List Char} :
      -- a second quote behind the closing one would belong to the value
      '\n' ∉ value → behind.head? ≠ some '\x27' →
      Spells (.text (String.ofList value)) ('\x27' :: doubled value ++ ['\x27']) behind
  | query {value body behind : List Char} :
      QuerySpelling value body →
      Spells (.query (String.ofList value)) ('\x22' :: body) behind
  | name {letters behind : List Char} :
      -- no keyword, in whatever case it is written
      IsWord letters → (∀ d ∈ behind.head?, ¬ isNameRest d) →
      (∀ k, (String.ofList (letters.map Char.toLower), k) ∉ Keyword.spellings) →
      Spells (.name (String.ofList (letters.map Char.toLower))) letters behind
  | keyword {letters behind : List Char} {k : Keyword} :
      IsWord letters → (∀ d ∈ behind.head?, ¬ isNameRest d) →
      (String.ofList (letters.map Char.toLower), k) ∈ Keyword.spellings →
      Spells (.keyword k) letters behind
  | symbol {text behind : List Char} {mark : Symbol} :
      (text, mark) ∈ Symbol.spellings →
      -- no longer symbol stands here, nor the beginning of a comment
      (∀ s ∈ Symbol.spellings, s.1 <+: text ++ behind → s.1.length ≤ text.length) →
      ¬ ['/', '*'] <+: text ++ behind →
      Spells (.symbol mark) text behind

/-- What is dropped from a source, when `behind` follows it. -/
inductive Drops : Problem → (text behind : List Char) → Prop where
  | illegalCharacter {c : Char} {behind : List Char} :
      ¬ Text.isBlank c → ¬ c.isDigit → ¬ isNameStart c → c ≠ '\x27' → c ≠ '\x22' →
      (∀ s ∈ Symbol.spellings, ¬ s.1 <+: c :: behind) →
      Drops (.illegalCharacter c) [c] behind
  | unterminatedText {behind : List Char} :
      -- nothing behind the quote closes it on its line
      (∀ value rest, '\n' ∉ value → rest.head? ≠ some '\x27' →
        behind ≠ doubled value ++ '\x27' :: rest) →
      Drops .unterminatedText ['\x27'] behind
  | unterminatedQuery {behind : List Char} :
      (∀ value body, QuerySpelling value body → ¬ body <+: behind) →
      Drops .unterminatedQuery ['\x22'] behind
  | numberOutOfRange {digits behind : List Char} :
      digits ≠ [] → (∀ d ∈ digits, d.isDigit) → (∀ d ∈ behind.head?, ¬ d.isDigit) →
      2 ^ 63 - 1 < decimal digits →
      Drops (.numberOutOfRange (String.ofList digits)) digits behind
  | unterminatedComment {body : List Char} :
      ¬ ['*', '/'] <:+: body →
      Drops .unterminatedComment ('/' :: '*' :: body) []

end Lexer

open Lexer

/-- The characters of the piece, followed by `behind`, are what the piece
claims to be. A comment runs to the first end mark behind its opening. -/
inductive Piece.Fits : Piece → (behind : List Char) → Prop where
  | blank {c : Char} {behind : List Char} : Text.isBlank c → Fits (.blank c) behind
  | comment {inner behind : List Char} :
      ¬ ['*', '/'] <:+: inner ++ ['*'] →
      Fits (.comment ('/' :: '*' :: inner ++ ['*', '/'])) behind
  | token {kind : Token.Kind} {text behind : List Char} :
      Spells kind text behind → Fits (.token kind text) behind
  | dropped {problem : Problem} {text behind : List Char} :
      Drops problem text behind → Fits (.dropped problem text) behind

/-- The piece stands at the front of a text and fits what comes after it. -/
def Piece.Starts (p : Piece) (cs : List Char) : Prop :=
  ∃ behind, p.text ++ behind = cs ∧ p.text ≠ [] ∧ p.Fits behind

/-- A text cut into pieces, each of which fits the characters behind it. -/
inductive Cut : List Char → List Piece → Prop where
  | nil : Cut [] []
  | cons {p : Piece} {rest : List Char} {ps : List Piece} :
      p.text ≠ [] → p.Fits rest → Cut rest ps → Cut (p.text ++ rest) (p :: ps)

namespace Lexer

/-! ## Letters and digits -/

/-- A stretch of one class is taken whole, and no more. -/
theorem takeWhile_append_of_head {α : Type} {p : α → Bool} {w rest : List α} (hw : ∀ c ∈ w, p c)
    (hrest : ∀ c ∈ rest.head?, p c = false) :
    (w ++ rest).takeWhile p = w ∧ (w ++ rest).dropWhile p = rest := by
  rw [List.takeWhile_append_of_pos hw, List.dropWhile_append_of_pos hw]
  cases rest with
  | nil => simp
  | cons c cs => simp [hrest c rfl]

variable {c : Char} {cs value body behind : List Char}

theorem isAlpha_range (h : c.isAlpha) :
    65 ≤ c.toNat ∧ c.toNat ≤ 90 ∨ 97 ≤ c.toNat ∧ c.toNat ≤ 122 := by
  simp [Char.isAlpha, Char.isUpper, Char.isLower, UInt32.le_iff_toNat_le] at h
  exact h

theorem isDigit_range (h : c.isDigit) : 48 ≤ c.toNat ∧ c.toNat ≤ 57 := by
  simp [Char.isDigit, UInt32.le_iff_toNat_le] at h
  exact h

theorem isDigit_of_isNameStart (h : isNameStart c) : c.isDigit = false := by
  rw [Bool.eq_false_iff]
  intro hdigit
  have hrange := isDigit_range hdigit
  simp only [isNameStart, Bool.or_eq_true, decide_eq_true_eq] at h
  obtain ha | rfl := h
  · have := isAlpha_range ha
    omega
  · exact absurd hdigit (by decide)

/-! ## Literals -/

theorem doubled_cons_quote (value : List Char) :
    doubled ('\x27' :: value) = '\x27' :: '\x27' :: doubled value := rfl

theorem doubled_cons_plain (h : c ≠ '\x27') (value : List Char) :
    doubled (c :: value) = c :: doubled value := by
  simp [doubled, h]

/-- What is read as the rest of a character constant spells its value. -/
theorem textBody_spells (h : textBody cs = some (value, body)) :
    ∃ behind, cs = body ++ behind ∧ body = doubled value ++ ['\x27'] ∧
      '\n' ∉ value ∧ behind.head? ≠ some '\x27' := by
  fun_induction textBody cs generalizing value body with
  | case1 => simp at h
  | case2 cs ih =>
    -- two quotes are one of the value
    obtain ⟨⟨v, t⟩, hvt, heq⟩ := Option.map_eq_some_iff.mp h
    obtain ⟨rfl, rfl⟩ := Prod.mk.inj heq
    obtain ⟨behind, rfl, rfl, hline, hnext⟩ := ih hvt
    exact ⟨behind, rfl, by rw [doubled_cons_quote]; rfl, by simpa using hline, hnext⟩
  | case3 cs hdouble =>
    obtain ⟨rfl, rfl⟩ := Prod.mk.inj (Option.some.inj h)
    refine ⟨cs, rfl, rfl, by simp, ?_⟩
    -- a second quote would have been read as part of the value
    intro hhead
    obtain ⟨cs', rfl⟩ := List.head?_eq_some_iff.mp hhead
    exact hdouble cs' rfl rfl
  | case4 => simp at h
  | case5 c cs _ hquote hline ih =>
    obtain ⟨⟨v, t⟩, hvt, heq⟩ := Option.map_eq_some_iff.mp h
    obtain ⟨rfl, rfl⟩ := Prod.mk.inj heq
    obtain ⟨behind, rfl, rfl, hv, hnext⟩ := ih hvt
    refine ⟨behind, rfl, by rw [doubled_cons_plain hquote]; rfl, ?_, hnext⟩
    rw [List.mem_cons, not_or]
    exact ⟨Ne.symm hline, hv⟩

/-- A character constant that closes on its line is read as such. -/
theorem textBody_doubled {rest : List Char} (hline : '\n' ∉ value)
    (hnext : rest.head? ≠ some '\x27') :
    textBody (doubled value ++ '\x27' :: rest) = some (value, doubled value ++ ['\x27']) := by
  induction value with
  | nil =>
    -- a single quote ends the literal unless another one follows
    cases rest with
    | nil => rfl
    | cons d ds =>
      have hd : d ≠ '\x27' := by simpa using hnext
      simp [doubled, textBody, hd]
  | cons c value ih =>
    rw [List.mem_cons, not_or] at hline
    -- the two quotes for one are taken together
    by_cases hc : c = '\x27'
    · subst hc
      rw [doubled_cons_quote, List.cons_append, List.cons_append, textBody, ih hline.2]
      rfl
    · have hn : c ≠ '\n' := Ne.symm hline.1
      rw [doubled_cons_plain hc, List.cons_append, textBody, if_neg hc, if_neg hn, ih hline.2]
      · rfl
      · intro cs h _
        exact hc h

theorem QuerySpelling.ne_nil (h : QuerySpelling value body) : body ≠ [] := by
  cases h <;> simp

/-- What is read as the rest of a query spells its value. -/
theorem queryBody_spells (h : queryBody cs = some (value, body)) :
    body <+: cs ∧ QuerySpelling value body := by
  fun_induction queryBody cs generalizing value body with
  | case1 => simp at h
  | case2 cs ih =>
    obtain ⟨⟨v, t⟩, hvt, heq⟩ := Option.map_eq_some_iff.mp h
    obtain ⟨rfl, rfl⟩ := Prod.mk.inj heq
    obtain ⟨hfront, hspell⟩ := ih hvt
    exact ⟨by simpa using hfront, .escaped (.inl rfl) hspell⟩
  | case3 cs ih =>
    obtain ⟨⟨v, t⟩, hvt, heq⟩ := Option.map_eq_some_iff.mp h
    obtain ⟨rfl, rfl⟩ := Prod.mk.inj heq
    obtain ⟨hfront, hspell⟩ := ih hvt
    exact ⟨by simpa using hfront, .escaped (.inr rfl) hspell⟩
  | case4 cs =>
    obtain ⟨rfl, rfl⟩ := Prod.mk.inj (Option.some.inj h)
    exact ⟨by simp, .close⟩
  | case5 => simp at h
  | case6 c cs hquote hback hclose hline ih =>
    obtain ⟨⟨v, t⟩, hvt, heq⟩ := Option.map_eq_some_iff.mp h
    obtain ⟨rfl, rfl⟩ := Prod.mk.inj heq
    obtain ⟨⟨rest, rfl⟩, hspell⟩ := ih hvt
    refine ⟨by simp, .plain hclose hline ?_ hspell⟩
    -- the two escapes were tried before
    rintro rfl
    cases t with
    | nil => exact absurd rfl hspell.ne_nil
    | cons d t =>
      rw [List.head?_cons, Ne, Ne, Option.some.injEq, Option.some.injEq]
      exact ⟨fun hd => hquote (t ++ rest) rfl (by rw [hd]; rfl),
        fun hd => hback (t ++ rest) rfl (by rw [hd]; rfl)⟩

/-- A query that closes on its line is read as such. -/
theorem queryBody_of_spelling (h : QuerySpelling value body)
    (rest : List Char) : queryBody (body ++ rest) = some (value, body) := by
  induction h with
  | close => rfl
  | escaped hc _ ih =>
    rcases hc with rfl | rfl
    · rw [List.cons_append, List.cons_append, queryBody, ih]
      rfl
    · rw [List.cons_append, List.cons_append, queryBody, ih]
      rfl
  | @plain c value body hclose hline hback hspell ih =>
    -- the scanner tries the two escapes first, and neither of them is here
    have hquote : ∀ cs, c = '\\' → body ++ rest = '\x22' :: cs → False := by
      intro cs hc hcs
      have hhead := congrArg List.head? hcs
      rw [List.head?_append_of_ne_nil _ hspell.ne_nil] at hhead
      exact (hback hc).1 hhead
    have hescape : ∀ cs, c = '\\' → body ++ rest = '\\' :: cs → False := by
      intro cs hc hcs
      have hhead := congrArg List.head? hcs
      rw [List.head?_append_of_ne_nil _ hspell.ne_nil] at hhead
      exact (hback hc).2 hhead
    rw [List.cons_append, queryBody, if_neg hclose, if_neg hline, ih]
    · rfl
    · exact hquote
    · exact hescape

/-! ## Comments -/

/-- The test for an end mark at the front of a text. -/
theorem endMark_front_iff (c : Char) (cs : List Char) :
    ['*', '/'] <+: c :: cs ↔ (c = '*' && cs.head? = some '/') = true := by
  rw [Bool.and_eq_true, decide_eq_true_eq, decide_eq_true_eq, List.cons_prefix_cons,
    List.head?_eq_some_iff]
  constructor
  · rintro ⟨rfl, rest, rfl⟩
    exact ⟨rfl, rest, rfl⟩
  · rintro ⟨rfl, rest, rfl⟩
    exact ⟨rfl, rest, rfl⟩

/-- What is read as the rest of a comment ends at its first end mark. -/
theorem commentBody_ends (h : commentBody cs = some body) :
    ∃ inner, body = inner ++ ['*', '/'] ∧ body <+: cs ∧ ¬ ['*', '/'] <:+: inner ++ ['*'] := by
  fun_induction commentBody cs generalizing body with
  | case1 => simp at h
  | case2 c cs hmark =>
    -- the end mark is at the front, so nothing is inside
    obtain rfl := Option.some.inj h
    rw [Bool.and_eq_true, decide_eq_true_eq, decide_eq_true_eq] at hmark
    obtain ⟨rfl, hslash⟩ := hmark
    obtain ⟨cs', rfl⟩ := List.head?_eq_some_iff.mp hslash
    exact ⟨[], rfl, by simp, by decide⟩
  | case3 c cs hmark ih =>
    obtain ⟨body', hbody, rfl⟩ := Option.map_eq_some_iff.mp h
    obtain ⟨inner, rfl, hfront, hfirst⟩ := ih hbody
    refine ⟨c :: inner, rfl, by simpa using hfront, ?_⟩
    rw [List.cons_append, List.infix_cons_iff, not_or]
    refine ⟨?_, hfirst⟩
    -- an end mark at the front would have been taken
    intro hfound
    apply hmark
    rw [← endMark_front_iff]
    have hshort : c :: (inner ++ ['*']) <+: c :: cs := by
      rw [List.cons_prefix_cons]
      exact ⟨rfl, ((List.prefix_append_right_inj inner).mpr (by simp)).trans hfront⟩
    exact hfound.trans hshort

/-- Where no end mark is found there is none. -/
theorem commentBody_none (h : commentBody cs = none) : ¬ ['*', '/'] <:+: cs := by
  fun_induction commentBody cs with
  | case1 => simp
  | case2 => simp at h
  | case3 c cs hmark ih =>
    rw [Option.map_eq_none_iff] at h
    rw [List.infix_cons_iff, not_or]
    exact ⟨fun hfound => hmark ((endMark_front_iff c cs).mp hfound), ih h⟩

/-! ## Numbers, words and symbols -/

/-- The value of digits is the number that they write. -/
theorem digitsValue_eq_decimal (digits : List Char) : digitsValue digits = decimal digits := by
  -- from the last digit: the scanner folds from the left, and the sum of powers
  -- starts with the unit digit
  induction digits using List.reverseRecOn with
  | nil => rfl
  | append_singleton ds d ih =>
    rw [digitsValue, List.foldl_append, ← digitsValue, ih]
    simp [decimal, Nat.ofDigits_cons]
    omega

/-- A run taken from the front of a text is not continued behind it. -/
theorem head?_dropWhile_not {p : Char → Bool} (cs : List Char) :
    ∀ d ∈ (cs.dropWhile p).head?, ¬ p d := by
  intro d hd
  have h := List.head?_dropWhile_not p cs
  rw [Option.mem_def.mp hd] at h
  simpa using h

/-- Digits that fit a word are a number, and others are dropped. -/
theorem numberPiece_fits {digits : List Char} (hne : digits ≠ [])
    (hdigits : ∀ d ∈ digits, d.isDigit) (hend : ∀ d ∈ behind.head?, ¬ d.isDigit) :
    (numberPiece digits).Fits behind := by
  rw [numberPiece, digitsValue_eq_decimal]
  split
  · rename_i hmax
    exact .token (.number hne hdigits hend hmax)
  · rename_i hmax
    exact .dropped (.numberOutOfRange hne hdigits hend (Nat.lt_of_not_le hmax))

/-- In both cases the piece has their characters. -/
theorem text_numberPiece (digits : List Char) : (numberPiece digits).text = digits := by
  rw [numberPiece]
  split <;> rfl

/-- A keyword is looked up in the table of spellings. -/
theorem ofSpelling?_eq_some_iff {word : String} {k : Keyword} :
    Keyword.ofSpelling? word = some k ↔ (word, k) ∈ Keyword.spellings := by
  rw [Keyword.ofSpelling?, List.lookup_eq_some_iff]
  constructor
  · rintro ⟨earlier, later, hsplit, -⟩
    rw [hsplit]
    simp
  · intro hmem
    obtain ⟨earlier, later, hsplit⟩ := List.append_of_mem hmem
    refine ⟨earlier, later, hsplit, fun entry hentry => ?_⟩
    -- no spelling stands twice in the table
    have hnodup : (Keyword.spellings.map Prod.fst).Nodup := by decide
    rw [hsplit, List.map_append, List.map_cons, List.nodup_append] at hnodup
    have hne := hnodup.2.2 entry.1 (List.mem_map_of_mem hentry) word (List.mem_cons_self ..)
    simpa using Ne.symm hne

theorem wordKind_spells {letters : List Char} (hword : IsWord letters)
    (hend : ∀ d ∈ behind.head?, ¬ isNameRest d) : Spells (wordKind letters) letters behind := by
  rw [wordKind]
  split
  · rename_i k hk
    exact .keyword hword hend (ofSpelling?_eq_some_iff.mp hk)
  · rename_i hnone
    refine .name hword hend fun k hk => ?_
    rw [← ofSpelling?_eq_some_iff, hnone] at hk
    exact absurd hk (by simp)

/-- A longer symbol stands before a shorter one in the table. -/
theorem spellings_pairwise_length :
    Symbol.spellings.Pairwise fun s t => t.1.length ≤ s.1.length := by
  decide

/-- The symbol that is found at the front of a text is the longest one there. -/
theorem length_le_of_find {text : List Char} {mark : Symbol}
    (h : Symbol.spellings.find? (fun s => s.1.isPrefixOf cs) = some (text, mark)) :
    ∀ s ∈ Symbol.spellings, s.1 <+: cs → s.1.length ≤ text.length := by
  intro s hs hfront
  obtain ⟨-, earlier, later, hsplit, hearlier⟩ := List.find?_eq_some_iff_append.mp h
  have hsorted := spellings_pairwise_length
  rw [hsplit] at hs hsorted
  rcases List.mem_append.mp hs with hmem | hmem
  -- an entry before the one that was found was tried and is not there
  · have hmiss := hearlier s hmem
    rw [List.isPrefixOf_iff_prefix.mpr hfront] at hmiss
    exact absurd hmiss (by simp)
  · rcases List.mem_cons.mp hmem with rfl | hmem
    · exact Nat.le_refl _
    -- an entry behind it is not longer
    · exact (List.pairwise_cons.mp (List.pairwise_append.mp hsorted).2.1).1 s hmem

/-! ## The first piece

One lemma for each way in which the scanner can go on; the names of the
lemmas follow the branches of `firstPiece`. -/

/-- A comment at the front, closed or not. -/
theorem comment_starts (cs : List Char) :
    Piece.Starts
      (match commentBody cs with
        | some body => .comment ('/' :: '*' :: body)
        | none => .dropped .unterminatedComment ('/' :: '*' :: cs))
      ('/' :: '*' :: cs) := by
  split
  · rename_i body hbody
    obtain ⟨inner, rfl, ⟨behind, rfl⟩, hfirst⟩ := commentBody_ends hbody
    exact ⟨behind, rfl, by simp [Piece.text], .comment hfirst⟩
  · rename_i hbody
    refine ⟨[], by simp [Piece.text], by simp [Piece.text], ?_⟩
    exact .dropped (.unterminatedComment (commentBody_none hbody))

/-- A quote at the front, with a text behind it or not. -/
theorem text_starts (rest : List Char) :
    Piece.Starts
      (match textBody rest with
        | some (value, body) => .token (.text (String.ofList value)) ('\x27' :: body)
        | none => .dropped .unterminatedText ['\x27'])
      ('\x27' :: rest) := by
  split
  · rename_i value body hbody
    obtain ⟨behind, rfl, rfl, hline, hnext⟩ := textBody_spells hbody
    exact ⟨behind, rfl, by simp [Piece.text], .token (.text hline hnext)⟩
  · rename_i hbody
    refine ⟨rest, rfl, by simp [Piece.text], .dropped (.unterminatedText ?_)⟩
    -- a constant that closes would have been read
    rintro value tail hline hnext rfl
    rw [textBody_doubled hline hnext] at hbody
    exact absurd hbody (by simp)

/-- A double quote at the front, with a query behind it or not. -/
theorem query_starts (rest : List Char) :
    Piece.Starts
      (match queryBody rest with
        | some (value, body) => .token (.query (String.ofList value)) ('\x22' :: body)
        | none => .dropped .unterminatedQuery ['\x22'])
      ('\x22' :: rest) := by
  split
  · rename_i value body hbody
    obtain ⟨⟨behind, rfl⟩, hspell⟩ := queryBody_spells hbody
    exact ⟨behind, rfl, by simp [Piece.text], .token (.query hspell)⟩
  · rename_i hbody
    refine ⟨rest, rfl, by simp [Piece.text], .dropped (.unterminatedQuery ?_)⟩
    -- a query that closes would have been read
    rintro value body hspell ⟨tail, rfl⟩
    rw [queryBody_of_spelling hspell] at hbody
    exact absurd hbody (by simp)

theorem number_starts (hdigit : c.isDigit) (rest : List Char) :
    (numberPiece (c :: rest.takeWhile Char.isDigit)).Starts (c :: rest) := by
  refine ⟨rest.dropWhile Char.isDigit, ?_, ?_, ?_⟩
  · rw [text_numberPiece, List.cons_append, List.takeWhile_append_dropWhile]
  · rw [text_numberPiece]
    simp
  · apply numberPiece_fits (by simp) _ (head?_dropWhile_not rest)
    intro d hd
    rcases List.mem_cons.mp hd with rfl | hd
    · exact hdigit
    · exact List.mem_takeWhile_imp hd

theorem word_starts (hletter : isNameStart c) (rest : List Char) : Piece.Starts
      (.token (wordKind (c :: rest.takeWhile isNameRest)) (c :: rest.takeWhile isNameRest))
      (c :: rest) := by
  refine ⟨rest.dropWhile isNameRest, ?_, by simp [Piece.text], ?_⟩
  · rw [Piece.text, List.cons_append, List.takeWhile_append_dropWhile]
  · exact .token (wordKind_spells ⟨hletter, fun d hd => List.mem_takeWhile_imp hd⟩
      (head?_dropWhile_not rest))

/-- A mark at the front: the first in the table that fits is the longest. -/
theorem symbol_starts {text : List Char} {mark : Symbol}
    (hfind : Symbol.spellings.find? (fun s => s.1.isPrefixOf cs) = some (text, mark))
    (hopen : ¬ ['/', '*'] <+: cs) : Piece.Starts (.token (.symbol mark) text) cs := by
  have hmem := List.mem_of_find?_eq_some hfind
  have hfront : text.isPrefixOf cs = true := by
    have hfound := List.find?_some hfind
    exact hfound
  have hlongest := length_le_of_find hfind
  obtain ⟨behind, rfl⟩ := List.isPrefixOf_iff_prefix.mp hfront
  refine ⟨behind, rfl, ?_, .token (.symbol hmem hlongest hopen)⟩
  have hall : ∀ s ∈ Symbol.spellings, s.1 ≠ [] := by decide
  exact hall _ hmem

/-- What the scanner takes off the front of a text stands there and fits what
it leaves behind. -/
theorem firstPiece_starts (c : Char) (rest : List Char) :
    (firstPiece c rest).Starts (c :: rest) := by
  -- the branches in the order of the scanner: each that is not taken leaves a
  -- fact, and the last one, which drops a character, needs them all
  rw [firstPiece]
  by_cases hblank : Text.isBlank c
  · rw [if_pos hblank]
    exact ⟨rest, rfl, by simp [Piece.text], .blank hblank⟩
  rw [if_neg hblank]
  by_cases hopen : ['/', '*'] <+: c :: rest
  · obtain ⟨cs, hcs⟩ := hopen
    obtain ⟨rfl, rfl⟩ := List.cons.inj hcs
    exact comment_starts cs
  rw [if_neg]
  swap
  · intro hmark
    rw [Bool.and_eq_true, decide_eq_true_eq, decide_eq_true_eq] at hmark
    obtain ⟨cs, rfl⟩ := List.head?_eq_some_iff.mp hmark.2
    exact hopen ⟨cs, by rw [hmark.1]; rfl⟩
  by_cases hquote : c = '\x27'
  · subst hquote
    exact text_starts rest
  rw [if_neg hquote]
  by_cases hdouble : c = '\x22'
  · subst hdouble
    exact query_starts rest
  rw [if_neg hdouble]
  by_cases hdigit : c.isDigit
  · rw [if_pos hdigit]
    exact number_starts hdigit rest
  rw [if_neg hdigit]
  by_cases hletter : isNameStart c
  · rw [if_pos hletter]
    exact word_starts hletter rest
  rw [if_neg hletter]
  split
  · rename_i hfind
    exact symbol_starts hfind hopen
  · rename_i hfind
    refine ⟨rest, rfl, by simp [Piece.text], .dropped (.illegalCharacter hblank hdigit hletter
      hquote hdouble fun s hs hfront => ?_)⟩
    exact List.find?_eq_none.mp hfind s hs (List.isPrefixOf_iff_prefix.mpr hfront)

/-! ## All pieces -/

/-- Skipping is the same as cutting what is left. -/
theorem piecesAfter_eq (skip : Nat) (cs : List Char) :
    piecesAfter skip cs = pieces (cs.drop skip) := by
  induction cs generalizing skip with
  | nil => simp [piecesAfter, pieces]
  | cons c cs ih =>
    cases skip with
    | zero => rfl
    | succ skip => rw [piecesAfter, ih, List.drop_succ_cons]

/-- One step of the scanner. -/
theorem pieces_append
    (h : (firstPiece c cs).text ++ behind = c :: cs) (hne : (firstPiece c cs).text ≠ []) :
    pieces (c :: cs) = firstPiece c cs :: pieces behind := by
  -- the scanner passes over the characters of the piece behind the first
  obtain ⟨d, ds, htext⟩ := List.exists_cons_of_ne_nil hne
  have hrest : ds ++ behind = cs := by
    rw [htext, List.cons_append] at h
    exact (List.cons.inj h).2
  rw [pieces, piecesAfter, piecesAfter_eq, htext]
  congr 2
  rw [← hrest]
  simp

/-- The pieces of a text are a cut of it. -/
theorem cut_pieces (cs : List Char) : Cut cs (pieces cs) := by
  -- on the length: what a piece leaves behind is shorter than the text
  induction hn : cs.length using Nat.strong_induction_on generalizing cs with
  | _ n ih =>
    cases cs with
    | nil => exact .nil
    | cons c cs =>
      obtain ⟨behind, happend, hne, hfits⟩ := firstPiece_starts c cs
      rw [pieces_append happend hne, ← happend]
      refine .cons hne hfits (ih behind.length ?_ behind rfl)
      have hlength := congrArg List.length happend
      have hpos := List.length_pos_iff.mpr hne
      rw [List.length_append] at hlength
      omega

end Lexer

end Plic
