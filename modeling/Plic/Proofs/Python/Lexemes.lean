import Plic.Proofs.Python.Marks

/-!
# The words of a text

A text of code is cut into words, literals, single characters and line ends;
blanks stand between them. A word goes as far as there are letters, digits and
underscores. What may give a quote or a line end another meaning is refused, as
in the scan for marks, and so is a character outside of literals that is not
printable.

The lexemes of generated code are said on its tree, so that which names a text
uses can be told from the tree. So can its marks, which are the literals and line
ends among the lexemes: whatever a text holds, it stays inside its literal.

Main results:

* `Lexed.append` — the lexemes of a text put together from two.
* `Expr.lexed_render` — the lexemes of an expression.
* `Procedure.lexed_outline`, `Outline.lexed_render` — the lexemes of a procedure,
  for every width of a level.
* `marks_of_lex`, `Procedure.marks_lexemes` — the marks of a text and of a procedure.
-/

namespace Plic.Python

open Lexer (isNameRest IsWord takeWhile_append_of_head)

/-! ## The cut -/

/-- The pieces of a text that are not blank. -/
inductive Lexeme where
  /-- A keyword, a name or a number. -/
  | word (text : String)
  | literal (value : String)
  | mark (c : Char)
  /-- The end of a line. -/
  | feed
deriving DecidableEq

/-- Whether the character can stand alone. -/
def isPunctuation (c : Char) : Bool := isCode c && '!' ≤ c && c ≤ '~'

/-- The lexemes of a text, after `skip` characters that an earlier one covers. -/
def lexAfter : Nat → List Char → Option (List Lexeme)
  | _, [] => some []
  | skip + 1, _ :: cs => lexAfter skip cs
  | 0, c :: cs =>
    if c = '\n' then (lexAfter 0 cs).map (.feed :: ·)
    else if c = ' ' then lexAfter 0 cs
    else if c = '\x27' then
      -- three quotes would open a literal of another kind
      if ['\x27', '\x27'] <+: cs then none
      else
        match Literal.read (c :: cs) with
        | some (value, rest) => (lexAfter (cs.length - rest.length) cs).map (.literal value :: ·)
        | none => none
    else if isNameRest c then
      -- a word directly in front of a quote would be the prefix of a literal
      if (cs.dropWhile isNameRest).head? = some '\x27' then none
      else
        (lexAfter (cs.takeWhile isNameRest).length cs).map
          (.word (String.ofList (c :: cs.takeWhile isNameRest)) :: ·)
    else if isPunctuation c then (lexAfter 0 cs).map (.mark c :: ·)
    else none

/-- The lexemes of a text, or nothing if some character cannot stand where it does. -/
def lex (cs : List Char) : Option (List Lexeme) := lexAfter 0 cs

example : lex "x1 = f('a b', -2)\n".toList =
    some [.word "x1", .mark '=', .word "f", .mark '(', .literal "a b", .mark ',', .mark '-',
      .word "2", .mark ')', .feed] := by decide +kernel

/-- Skipping is the same as cutting what is left, so `lex` can be unfolded one lexeme at a time. -/
theorem lexAfter_eq (skip : Nat) (cs : List Char) : lexAfter skip cs = lex (cs.drop skip) := by
  induction skip generalizing cs with
  | zero => rfl
  | succ skip ih =>
    cases cs with
    | nil => rfl
    | cons c cs => rw [lexAfter, ih, List.drop_succ_cons]

theorem lex_feed (cs : List Char) : lex ('\n' :: cs) = (lex cs).map (.feed :: ·) := by
  rw [lex, lexAfter, if_pos rfl]
  rfl

theorem lex_blank (cs : List Char) : lex (' ' :: cs) = lex cs := by
  rw [lex, lexAfter, if_neg (by decide), if_pos rfl]
  rfl

variable {cs a b : List Char} {c : Char} {text : String} {lines : List (List Lexeme)}

/-- A literal is read to its closing quote, and the cut goes on behind it. -/
theorem lex_literal {rest : List Char} {value : String}
    (htriple : ¬ ['\x27', '\x27'] <+: cs) (h : Literal.read ('\x27' :: cs) = some (value, rest)) :
    lex ('\x27' :: cs) = (lex rest).map (.literal value :: ·) := by
  rw [lex, lexAfter, if_neg (by decide), if_neg (by decide), if_pos rfl, if_neg htriple, h]
  show (lexAfter (cs.length - rest.length) cs).map _ = _
  obtain ⟨front, rfl⟩ := Literal.suffix_of_read h
  rw [lexAfter_eq, List.length_append, Nat.add_sub_cancel, List.drop_left]

/-- A character of a name is neither a line end, a blank nor a quote. -/
theorem ne_of_isNameRest (h : isNameRest c) : c ≠ '\n' ∧ c ≠ ' ' ∧ c ≠ '\x27' := by
  refine ⟨?_, ?_, ?_⟩ <;>
  · rintro rfl
    exact absurd h (by decide)

theorem drop_length_takeWhile {α : Type} (p : α → Bool) (l : List α) :
    l.drop (l.takeWhile p).length = l.dropWhile p := by
  have hsplit : l.takeWhile p ++ l.dropWhile p = l := List.takeWhile_append_dropWhile
  have hdrop : (l.takeWhile p ++ l.dropWhile p).drop (l.takeWhile p).length = l.dropWhile p :=
    List.drop_left
  rwa [hsplit] at hdrop

/-- A word is taken as far as it goes, unless a quote behind it would make it a prefix of a literal.
-/
theorem lex_word (hc : isNameRest c) (hquote : (cs.dropWhile isNameRest).head? ≠ some '\x27') :
    lex (c :: cs) = (lex (cs.dropWhile isNameRest)).map
      (.word (String.ofList (c :: cs.takeWhile isNameRest)) :: ·) := by
  obtain ⟨hfeed, hblank, hopen⟩ := ne_of_isNameRest hc
  rw [lex, lexAfter, if_neg hfeed, if_neg hblank, if_neg hopen, if_pos hc, if_neg hquote,
    lexAfter_eq, drop_length_takeWhile]

/-- Any other character that may stand in code is a lexeme by itself. -/
theorem lex_mark (hname : isNameRest c = false) (hc : isPunctuation c)
    (cs : List Char) : lex (c :: cs) = (lex cs).map (.mark c :: ·) := by
  have hne : ∀ d, isPunctuation d = false → c ≠ d := by
    rintro d hd rfl
    rw [hc] at hd
    exact absurd hd (by decide)
  rw [lex, lexAfter, if_neg (hne '\n' rfl), if_neg (hne ' ' rfl), if_neg (hne '\x27' rfl),
    if_neg (by simp [hname]), if_pos hc]
  rfl

/-- What a text with lexemes begins with. -/
theorem lex_cons_eq_some {ls : List Lexeme} (h : lex (c :: cs) = some ls) :
    (c = '\n' ∧ ∃ more, lex cs = some more ∧ ls = .feed :: more) ∨ (c = ' ' ∧ lex cs = some ls) ∨
    (c = '\x27' ∧ ¬ ['\x27', '\x27'] <+: cs ∧ ∃ value rest more,
      Literal.read ('\x27' :: cs) = some (value, rest) ∧ lex rest = some more ∧
        ls = .literal value :: more) ∨
    (isNameRest c ∧ (cs.dropWhile isNameRest).head? ≠ some '\x27' ∧ ∃ more,
      lex (cs.dropWhile isNameRest) = some more ∧
        ls = .word (String.ofList (c :: cs.takeWhile isNameRest)) :: more) ∨
    (isNameRest c = false ∧ isPunctuation c ∧
      ∃ more, lex cs = some more ∧ ls = .mark c :: more) := by
  have hlex := h
  rw [lex, lexAfter] at h
  -- one case for each way in which the cut may go on
  split_ifs at h with hfeed hblank hquote htriple hname hprefix hmark
  · obtain ⟨more, hmore, rfl⟩ := Option.map_eq_some_iff.mp h
    exact .inl ⟨hfeed, more, hmore, rfl⟩
  · exact .inr (.inl ⟨hblank, h⟩)
  · subst hquote
    cases hread : Literal.read ('\x27' :: cs) with
    | none => simp [hread] at h
    | some found =>
      obtain ⟨value, rest⟩ := found
      rw [lex_literal htriple hread] at hlex
      obtain ⟨more, hmore, rfl⟩ := Option.map_eq_some_iff.mp hlex
      exact .inr (.inr (.inl ⟨rfl, htriple, value, rest, more, rfl, hmore, rfl⟩))
  · rw [lex_word hname hprefix] at hlex
    obtain ⟨more, hmore, rfl⟩ := Option.map_eq_some_iff.mp hlex
    exact .inr (.inr (.inr (.inl ⟨hname, hprefix, more, hmore, rfl⟩)))
  · obtain ⟨more, hmore, rfl⟩ := Option.map_eq_some_iff.mp h
    exact .inr (.inr (.inr (.inr ⟨by simpa using hname, hmark, more, hmore, rfl⟩)))

/-! ## Texts put together -/

/-- Nothing goes over the border of two texts: neither a word, nor a word that
would belong to a literal, nor a quote that would join another one. -/
def Loose (a b : List Char) : Prop :=
  ∀ c ∈ a.getLast?, ∀ d ∈ b.head?,
    (isNameRest c → isNameRest d = false ∧ d ≠ '\x27') ∧ (c = '\x27' → d ≠ '\x27')

/-- Whether two texts can be joined is decided at the seam, so the front of the first one does not
matter. -/
theorem Loose.of_append (front : List Char) (h : Loose (front ++ a) b) : Loose a b := by
  intro c hc
  refine h c ?_
  rw [List.getLast?_append, Option.mem_def.mp hc]
  rfl

/-- A literal that opens with one quote does so before any further text: an empty
literal at the end is kept apart from a quote behind it. -/
theorem not_triple_append {rest : List Char} {value : String}
    (hread : Literal.read ('\x27' :: cs) = some (value, rest))
    (htriple : ¬ ['\x27', '\x27'] <+: cs) (h : Loose ('\x27' :: cs) b) :
    ¬ ['\x27', '\x27'] <+: cs ++ b := by
  intro hprefix
  match cs with
  | [] => simp [Literal.read, Literal.extent] at hread
  -- only the empty literal ends early enough for a third quote to be in the text behind
  | [d] =>
    obtain ⟨rfl, htail⟩ := List.cons_prefix_cons.mp hprefix
    obtain ⟨more, rfl⟩ := htail
    exact (h '\x27' rfl '\x27' rfl).2 rfl rfl
  | d :: e :: cs =>
    obtain ⟨rfl, htail⟩ := List.cons_prefix_cons.mp hprefix
    obtain ⟨rfl, -⟩ := List.cons_prefix_cons.mp htail
    exact htriple (by simp)

/-- A word at the end of the first text ends there. -/
theorem Loose.takeWhile {c : Char} {cs b : List Char} (hc : isNameRest c)
    (h : Loose (c :: cs) b) :
    (cs ++ b).takeWhile isNameRest = cs.takeWhile isNameRest ∧
      (cs ++ b).dropWhile isNameRest = cs.dropWhile isNameRest ++ b := by
  have hsplit : cs.takeWhile isNameRest ++ cs.dropWhile isNameRest = cs :=
    List.takeWhile_append_dropWhile
  have hword : ∀ d ∈ cs.takeWhile isNameRest, isNameRest d := fun d hd => List.mem_takeWhile_imp hd
  -- what follows the word is the rest of the first text, or else the second one
  have hhead : ∀ d ∈ (cs.dropWhile isNameRest ++ b).head?, isNameRest d = false := by
    cases hrest : cs.dropWhile isNameRest with
    | cons d rest =>
      intro e he
      obtain rfl : d = e := by simpa using he
      have hdrop := List.head_dropWhile_not isNameRest (l := cs) (by simp [hrest])
      simpa [hrest] using hdrop
    | nil =>
      intro e he
      rw [hrest, List.append_nil] at hsplit
      obtain ⟨last, hlast⟩ : ∃ last, (c :: cs).getLast? = some last := by
        simp [List.getLast?_cons]
      have hname : isNameRest last := by
        rcases List.mem_cons.mp (List.mem_of_getLast? hlast) with rfl | hmem
        · exact hc
        · exact hword last (by rwa [hsplit])
      exact ((h last hlast e he).1 hname).1
  have hcut := takeWhile_append_of_head hword hhead
  rw [← List.append_assoc, hsplit] at hcut
  exact hcut

/-- The cut goes from one text into the next without a trace. -/
theorem lex_append {ls ms : List Lexeme} (ha : lex a = some ls)
    (hb : lex b = some ms) (h : Loose a b) : lex (a ++ b) = some (ls ++ ms) := by
  -- words and literals take many characters at once, so the induction is on their number
  induction hn : a.length using Nat.strong_induction_on generalizing a ls with
  | _ n ih =>
  cases a with
  | nil =>
    obtain rfl := Option.some.inj ha
    exact hb
  | cons c cs =>
    rw [List.cons_append]
    rcases lex_cons_eq_some ha with ⟨rfl, more, hmore, rfl⟩ | ⟨rfl, hmore⟩ |
      ⟨rfl, htriple, value, rest, more, hread, hmore, rfl⟩ | ⟨hc, hquote, more, hmore, rfl⟩ |
      ⟨hname, hc, more, hmore, rfl⟩
    · rw [lex_feed, ih cs.length (by simp [← hn]) hmore (Loose.of_append ['\n'] h) rfl]
      rfl
    · rw [lex_blank, ih cs.length (by simp [← hn]) hmore (Loose.of_append [' '] h) rfl]
    · obtain ⟨front, rfl⟩ := Literal.suffix_of_read hread
      have hrest : rest.length < n := by simp [← hn]
      rw [lex_literal (not_triple_append hread htriple h) (Literal.read_append hread b),
        ih rest.length hrest hmore (Loose.of_append ('\x27' :: front) h) rfl]
      rfl
    · obtain ⟨htake, hdrop⟩ := h.takeWhile hc
      have hsplit : c :: cs = (c :: cs.takeWhile isNameRest) ++ cs.dropWhile isNameRest := by
        rw [List.cons_append, List.takeWhile_append_dropWhile]
      have hloose : Loose (cs.dropWhile isNameRest) b := by
        rw [hsplit] at h
        exact Loose.of_append _ h
      have hrest : (cs.dropWhile isNameRest).length < n := by
        have hle := (List.dropWhile_suffix isNameRest (l := cs)).length_le
        simp only [List.length_cons] at hn
        omega
      rw [lex_word hc, htake, hdrop, ih _ hrest hmore hloose rfl]
      · rfl
      · rw [hdrop]
        cases hrest' : cs.dropWhile isNameRest with
        | cons d rest => rwa [hrest'] at hquote
        | nil =>
          intro hhead
          -- the word is the whole of the first text, so the border keeps the quote away
          have hall : ∀ d ∈ c :: cs, isNameRest d := by
            have htakes : cs.takeWhile isNameRest = cs := by
              have := List.takeWhile_append_dropWhile (p := isNameRest) (l := cs)
              rwa [hrest', List.append_nil] at this
            rw [List.forall_mem_cons]
            exact ⟨hc, fun d hd => List.mem_takeWhile_imp (htakes ▸ hd)⟩
          obtain ⟨last, hlast⟩ : ∃ last, (c :: cs).getLast? = some last := by
            simp [List.getLast?_cons]
          exact ((h last hlast _ hhead).1 (hall last (List.mem_of_getLast? hlast))).2 rfl
    · rw [lex_mark hname hc, ih cs.length (by simp [← hn]) hmore (Loose.of_append [c] h) rfl]
      rfl

/-- The text has the given lexemes. -/
def Lexed (text : String) (ls : List Lexeme) : Prop := lex text.toList = some ls

instance (text : String) (ls : List Lexeme) : Decidable (Lexed text ls) :=
  inferInstanceAs (Decidable (_ = _))

/-- Whether the character may join what stands beside it. -/
def isJoint (c : Char) : Bool := isNameRest c || c = '\x27'

/-- A second text that starts with a blank or a mark joins with nothing. -/
theorem loose_of_head {d : Char} (h : b.head? = some d) (hd : isJoint d = false) : Loose a b := by
  intro c _ e he
  obtain rfl : d = e := Option.some.inj (h.symm.trans he)
  rw [isJoint, Bool.or_eq_false_iff, decide_eq_false_iff_not] at hd
  exact ⟨fun _ => hd, fun _ => hd.2⟩

theorem loose_of_last (h : a.getLast? = some c) (hc : isJoint c = false) : Loose a b := by
  intro d hd e _
  obtain rfl : c = d := Option.some.inj (h.symm.trans hd)
  rw [isJoint, Bool.or_eq_false_iff, decide_eq_false_iff_not] at hc
  refine ⟨fun hname => ?_, fun hquote => absurd hquote hc.2⟩
  rw [hc.1] at hname
  exact absurd hname (by decide)

/-- Code that joins nothing behind it. -/
def isAhead (code : String) : Bool := code.toList.getLast?.any (!isJoint ·)

/-- Code with the given lexemes that joins nothing beside it. -/
def Bridge (code : String) (cs : List Lexeme) : Prop :=
  Lexed code cs ∧ code.toList.head?.any (!isJoint ·) ∧ isAhead code

instance (code : String) (cs : List Lexeme) : Decidable (Bridge code cs) :=
  inferInstanceAs (Decidable (_ ∧ _ ∧ _))

section

variable {a b code : String} {ls ms cs : List Lexeme}

/-- The lexemes of two texts put together, if no word or literal goes over the seam. -/
theorem Lexed.append (ha : Lexed a ls) (hb : Lexed b ms) (h : Loose a.toList b.toList) :
    Lexed (a ++ b) (ls ++ ms) := by
  rw [Lexed, String.toList_append]
  exact lex_append ha hb h

/-- A piece of fixed code that joins with nothing can be put behind any text. -/
theorem Lexed.behind (ha : Lexed a ls) (hcode : Bridge code cs) : Lexed (a ++ code) (ls ++ cs) := by
  obtain ⟨hlexed, hhead, -⟩ := hcode
  cases hfirst : code.toList.head? with
  | none => simp [hfirst] at hhead
  | some d =>
    rw [hfirst] at hhead
    exact ha.append hlexed (loose_of_head hfirst (by simpa using hhead))

/-- What comes behind such code never runs into it. -/
theorem loose_of_isAhead (h : isAhead code) : Loose (a ++ code).toList b.toList := by
  unfold isAhead at h
  cases hlast : code.toList.getLast? with
  | none => simp [hlast] at h
  | some d =>
    refine loose_of_last (c := d) ?_ (by simpa [hlast] using h)
    rw [String.toList_append, List.getLast?_append, hlast]
    rfl

/-- Nor is there anything to check where such code stands in front. -/
theorem Lexed.after (hb : Lexed b ms) (hcode : Lexed code cs) (h : isAhead code) :
    Lexed (code ++ b) (cs ++ ms) := by
  have hloose : Loose ("" ++ code).toList b.toList := loose_of_isAhead h
  rw [String.empty_append] at hloose
  exact hcode.append hb hloose

/-- Two texts with code between them. -/
theorem Lexed.around (ha : Lexed a ls) (hb : Lexed b ms) (hcode : Bridge code cs) :
    Lexed (a ++ code ++ b) (ls ++ cs ++ ms) :=
  (ha.behind hcode).append hb (loose_of_isAhead hcode.2.2)

end

/-! ## Expressions -/

/-- The lexemes of a text that is put in parentheses where they are needed. -/
def encloseLexemes (needed : Bool) (ls : List Lexeme) : List Lexeme :=
  if needed then .mark '(' :: ls ++ [.mark ')'] else ls

/-- The lexemes of a number: the sign of a negative one is a mark, and its digits are a word. -/
def intLexemes (n : Int) : List Lexeme :=
  if n < 0 then [.mark '-', .word (toString n.natAbs)] else [.word (toString n.natAbs)]

/-- The one character that an operator is written with. -/
def Operator.char : Operator → Char
  | add => '+'
  | sub => '-'
  | mul => '*'
  | div => '/'
  | mod => '%'

mutual

/-- The lexemes of an expression, following its text piece by piece. Parentheses are said with the
same condition on levels as in the text. -/
def Expr.lexemes : Expr → List Lexeme
  | .int n => intLexemes n
  | .str s => [.literal s]
  | .name id => [.word id]
  | .neg e => [.mark '-'] ++ encloseLexemes (e.level.rank ≤ Level.sign.rank) e.lexemes
  | .binary op l r =>
    encloseLexemes (l.level.rank < op.level.rank) l.lexemes ++ [.mark op.char]
      ++ encloseLexemes (r.level.rank ≤ op.level.rank) r.lexemes
  | .index b i =>
    encloseLexemes (b.level.rank < Level.atom.rank) b.lexemes ++ [.mark '['] ++ i.lexemes
      ++ [.mark ']']
  | .sliceFrom b lo =>
    encloseLexemes (b.level.rank < Level.atom.rank) b.lexemes ++ [.mark '['] ++ lo.lexemes
      ++ [.mark ':', .mark ']']
  | .slice b lo hi =>
    encloseLexemes (b.level.rank < Level.atom.rank) b.lexemes ++ [.mark '['] ++ lo.lexemes
      ++ [.mark ':'] ++ hi.lexemes ++ [.mark ']']
  | .call f args => [.word f.name] ++ [.mark '('] ++ lexemesAll args ++ [.mark ')']
  | .find t p =>
    encloseLexemes (t.level.rank < Level.atom.rank) t.lexemes
      ++ [.mark '.', .word "find", .mark '('] ++ p.lexemes ++ [.mark ')']
  | .single e => [.mark '['] ++ e.lexemes ++ [.mark ']']
  | .replicate e n =>
    [.mark '['] ++ e.lexemes ++ [.word "for", .word "_", .word "in", .word "range", .mark '(']
      ++ n.lexemes ++ [.mark ')', .mark ']']

/-- The lexemes of a list of expressions with commas between them. -/
def lexemesAll : List Expr → List Lexeme
  | [] => []
  | [e] => e.lexemes
  | e :: e' :: es => e.lexemes ++ [.mark ','] ++ lexemesAll (e' :: es)

end

/-- A text of name characters is one word. -/
theorem lexed_word {id : String} (hne : id.toList ≠ []) (h : ∀ c ∈ id.toList, isNameRest c) :
    Lexed id [.word id] := by
  unfold Lexed
  cases hid : id.toList with
  | nil => exact absurd hid hne
  | cons c cs =>
    rw [hid, List.forall_mem_cons] at h
    have htake : cs.takeWhile isNameRest = cs := List.takeWhile_eq_self_iff.mpr h.2
    have hdrop : cs.dropWhile isNameRest = [] := List.dropWhile_eq_nil_iff.mpr h.2
    rw [lex_word h.1 (by simp [hdrop]), htake, hdrop, ← hid, String.ofList_toList]
    rfl

theorem lexed_name {id : String} (h : IsWord id.toList) : Lexed id [.word id] := by
  refine lexed_word ?_ (isNameRest_of_isWord h)
  rintro hnil
  rw [hnil] at h
  exact h

/-- So are the digits of a number, which are characters of names too. -/
theorem lexed_nat (n : Nat) : Lexed (toString n) [.word (toString n)] := by
  refine lexed_word ?_ (isNameRest_of_nat n)
  rw [Nat.toString_eq_ofList_toDigits, String.toList_ofList]
  exact Nat.toDigits_ne_nil

/-- A number that is not negative is one word; the sign of a negative one stands in front. -/
theorem lexed_int (n : Int) : Lexed (Expr.int n).render (intLexemes n) := by
  rw [render_int, intLexemes]
  split
  · have hminus : Lexed "-" [.mark '-'] := by decide +kernel
    exact (lexed_nat _).after hminus (by decide +kernel)
  · exact lexed_nat _

/-- A quoted text is one literal, whose value is the text, whatever characters are in it. -/
theorem lexed_quote (text : String) : Lexed (quote text) [.literal text] := by
  have hread := Literal.read_quote text []
  have hlist : (quote text).toList = '\x27' :: (text.toList.flatMap escape ++ ['\x27']) := by
    simp [quote]
  rw [List.append_nil, hlist] at hread
  rw [Lexed, hlist, lex_literal (not_triple_quote text.toList (by simp)) hread]
  rfl

/-- Parentheses add their two marks and change nothing between them. -/
theorem lexed_enclose {ls : List Lexeme} (h : Lexed text ls) (needed : Bool) :
    Lexed (enclose needed text) (encloseLexemes needed ls) := by
  cases needed with
  | false => exact h
  | true =>
    have hopen : Bridge "(" [.mark '('] := by decide +kernel
    have hclose : Bridge ")" [.mark ')'] := by decide +kernel
    exact (h.after hopen.1 hopen.2.2).behind hclose

/-- An operator has blanks around it, so it can stand between any two texts. -/
theorem bridge_operator (op : Operator) : Bridge (" " ++ op.text ++ " ") [.mark op.char] := by
  cases op <;> decide +kernel

theorem bridge_open : Bridge "(" [.mark '('] := by decide +kernel

theorem bridge_close : Bridge ")" [.mark ')'] := by decide +kernel

theorem bridge_openIndex : Bridge "[" [.mark '['] := by decide +kernel

theorem bridge_closeIndex : Bridge "]" [.mark ']'] := by decide +kernel

mutual

/-- The lexemes of the text of an expression. -/
theorem Expr.lexed_render (e : Expr) (h : ∀ l ∈ e.leaves, l.Fit) : Lexed e.render e.lexemes := by
  match e with
  | .int n => exact lexed_int n
  | .str s => exact lexed_quote s
  | .name id => exact lexed_name (h (.name id) List.mem_cons_self)
  | .neg e =>
    have hminus : Lexed "-" [.mark '-'] := by decide +kernel
    exact (lexed_enclose (e.lexed_render h) _).after hminus (by decide +kernel)
  | .binary op l r =>
    rw [Expr.leaves, List.forall_mem_append] at h
    -- blanks are part of the bridge, and the text is grouped to the left
    have hlexed := (lexed_enclose (l.lexed_render h.1) (l.level.rank < op.level.rank)).around
      (lexed_enclose (r.lexed_render h.2) (r.level.rank ≤ op.level.rank)) (bridge_operator op)
    rw [← String.append_assoc, ← String.append_assoc] at hlexed
    exact hlexed
  | .index b i =>
    rw [Expr.leaves, List.forall_mem_append] at h
    exact ((lexed_enclose (b.lexed_render h.1) _).around (i.lexed_render h.2)
      bridge_openIndex).behind bridge_closeIndex
  | .sliceFrom b lo =>
    have hclose : Bridge ":]" [.mark ':', .mark ']'] := by decide +kernel
    rw [Expr.leaves, List.forall_mem_append] at h
    exact ((lexed_enclose (b.lexed_render h.1) _).around (lo.lexed_render h.2)
      bridge_openIndex).behind hclose
  | .slice b lo hi =>
    have hcolon : Bridge ":" [.mark ':'] := by decide +kernel
    simp only [Expr.leaves, List.forall_mem_append] at h
    exact (((lexed_enclose (b.lexed_render h.1.1) _).around (lo.lexed_render h.1.2)
      bridge_openIndex).around (hi.lexed_render h.2) hcolon).behind bridge_closeIndex
  | .call f args =>
    have hname : Lexed f.name [.word f.name] := lexed_name (isName_function f).1
    exact (hname.around (lexed_renderAll args h) bridge_open).behind bridge_close
  | .find t p =>
    have hfind : Bridge ".find(" [.mark '.', .word "find", .mark '('] := by decide +kernel
    rw [Expr.leaves, List.forall_mem_append] at h
    exact ((lexed_enclose (t.lexed_render h.1) _).around (p.lexed_render h.2) hfind).behind
      bridge_close
  | .single e =>
    exact ((e.lexed_render h).after bridge_openIndex.1 bridge_openIndex.2.2).behind
      bridge_closeIndex
  | .replicate e n =>
    have hfor : Bridge " for _ in range(" [.word "for", .word "_", .word "in", .word "range",
        .mark '('] := by decide +kernel
    have hclose : Bridge ")]" [.mark ')', .mark ']'] := by decide +kernel
    rw [Expr.leaves, List.forall_mem_append] at h
    exact (((e.lexed_render h.1).after bridge_openIndex.1 bridge_openIndex.2.2).around
      (n.lexed_render h.2) hfor).behind hclose

/-- The texts of the expressions of a list are joined with commas, and so are their lexemes. -/
theorem lexed_renderAll (es : List Expr) (h : ∀ l ∈ leavesAll es, l.Fit) :
    Lexed (", ".intercalate (renderAll es)) (lexemesAll es) := by
  match es with
  | [] => rfl
  | [e] =>
    rw [leavesAll, leavesAll, List.append_nil] at h
    simpa [renderAll, lexemesAll] using e.lexed_render h
  | e :: e' :: es =>
    have hcomma : Bridge ", " [.mark ','] := by decide +kernel
    rw [leavesAll, List.forall_mem_append] at h
    rw [renderAll, renderAll, String.intercalate_cons_cons]
    exact (e.lexed_render h.1).around (lexed_renderAll (e' :: es) h.2) hcomma

end

/-! ## Lines -/

/-- A relation of two characters is two marks. -/
def Relation.lexemes : Relation → List Lexeme
  | eq => [.mark '=', .mark '=']
  | ne => [.mark '!', .mark '=']
  | lt => [.mark '<']
  | le => [.mark '<', .mark '=']
  | gt => [.mark '>']
  | ge => [.mark '>', .mark '=']

/-- The lexemes of a comparison. -/
def Comparison.lexemes (c : Comparison) : List Lexeme :=
  c.left.lexemes ++ c.op.lexemes ++ c.right.lexemes

/-- The lexemes of a test, with the words that it is spelled with. -/
def Test.lexemes : Test → List Lexeme
  | holds c => c.lexemes
  | oneOf e es => e.lexemes ++ [.word "in", .mark '('] ++ lexemesAll es ++ [.mark ')']
  | choice yes condition no =>
    [.mark '('] ++ yes.lexemes ++ [.word "if"] ++ condition.lexemes ++ [.word "else"]
      ++ no.lexemes ++ [.mark ')']

/-- The lexemes of the lines under a header: `pass` stands for an empty body. -/
def orPassLexemes : List (List Lexeme) → List (List Lexeme)
  | [] => [[.word "pass"]]
  | lines => lines

mutual

/-- The lexemes of each line of a statement. -/
def Stmt.lexemes : Stmt → List (List Lexeme)
  | .assign t v => [t.lexemes ++ [.mark '='] ++ v.lexemes]
  | .update t op v => [t.lexemes ++ [.mark op.char, .mark '='] ++ v.lexemes]
  | .run e => [e.lexemes]
  | .branch arms => arms.lexemes "if"
  | .loop t body =>
    ([.word "while"] ++ t.lexemes ++ [.mark ':']) :: orPassLexemes (blockLexemes body)

/-- The lexemes of each line of statements in a row. -/
def blockLexemes : List Stmt → List (List Lexeme)
  | [] => []
  | s :: ss => s.lexemes ++ blockLexemes ss

/-- The lexemes of each line of a chain whose first test is written behind the given word. -/
def Arms.lexemes (word : String) : Arms → List (List Lexeme)
  | .done => []
  | .otherwise body => [.word "else", .mark ':'] :: orPassLexemes (blockLexemes body)
  | .arm t body rest =>
    (([.word word] ++ t.lexemes ++ [.mark ':']) :: orPassLexemes (blockLexemes body))
      ++ rest.lexemes "elif"

end

/-- The lexemes of a procedure line by line: its header, its body, two empty lines and the call at
the end. -/
def Procedure.lexemes (p : Procedure) : List (List Lexeme) :=
  [.word "def", .word p.name, .mark '(', .mark ')', .mark ':']
      :: orPassLexemes (blockLexemes p.body)
    ++ [[], [],
      [.word "if", .word "__name__", .mark '=', .mark '=', .literal "__main__", .mark ':'],
      [.word p.name, .mark '(', .mark ')']]

/-- Each line has the given lexemes. -/
def LinesLexed : List Line → List (List Lexeme) → Prop :=
  List.Forall₂ fun line ls => Lexed line.text ls

/-- Lines are cut one by one, so blocks of them can be put together. -/
theorem LinesLexed.append {ls ms : List Line} {more : List (List Lexeme)}
    (h : LinesLexed ls lines) (hmore : LinesLexed ms more) :
    LinesLexed (ls ++ ms) (lines ++ more) := List.rel_append h hmore

/-- A block without statements is a line with the word that stands for nothing to do. -/
theorem LinesLexed.block {body : Outline} {lines : List (List Lexeme)}
    (h : LinesLexed body.lines lines) : LinesLexed body.block (orPassLexemes lines) := by
  unfold Outline.block
  split
  -- an empty body is shown as `pass`
  case isTrue hempty =>
    rw [hempty] at h
    cases h
    have hpass : Lexed "pass" [.word "pass"] := by decide +kernel
    exact .cons hpass .nil
  case isFalse hlines =>
    have hdeeper : LinesLexed (body.lines.map Line.deeper) lines :=
      List.forall₂_map_left_iff.mpr h
    cases lines with
    | nil => exact absurd (List.forall₂_nil_right_iff.mp h) hlines
    | cons ls lines => exact hdeeper

/-- A relation has blanks around it, as an operator has. -/
theorem bridge_relation (op : Relation) : Bridge (" " ++ op.text ++ " ") op.lexemes := by
  cases op <;> decide +kernel

/-- The lexemes of a comparison are those of its text. -/
theorem Comparison.lexed_render (c : Comparison) (h : ∀ l ∈ c.leaves, l.Fit) :
    Lexed c.render c.lexemes := by
  rw [Comparison.leaves, List.forall_mem_append] at h
  have hlexed := (c.left.lexed_render h.1).around (c.right.lexed_render h.2) (bridge_relation c.op)
  rw [← String.append_assoc, ← String.append_assoc] at hlexed
  exact hlexed

/-- The lexemes of a test are those of its text. -/
theorem Test.lexed_render (t : Test) (h : ∀ l ∈ t.leaves, l.Fit) : Lexed t.render t.lexemes := by
  cases t with
  | holds c => exact c.lexed_render h
  | oneOf e es =>
    -- blanks and parentheses keep the words on both sides apart
    have hin : Bridge " in (" [.word "in", .mark '('] := by decide +kernel
    rw [Test.leaves, List.forall_mem_append] at h
    exact ((e.lexed_render h.1).around (lexed_renderAll es h.2) hin).behind bridge_close
  | choice yes condition no =>
    have hif : Bridge " if " [.word "if"] := by decide +kernel
    have helse : Bridge " else " [.word "else"] := by decide +kernel
    simp only [Test.leaves, List.forall_mem_append] at h
    exact ((((yes.lexed_render h.1.1).after bridge_open.1 bridge_open.2.2).around
      (condition.lexed_render h.1.2) hif).around (no.lexed_render h.2) helse).behind bridge_close

/-- The word of a header with the blank behind it. -/
def IsHeaderWord (word : String) : Prop := Lexed (word ++ " ") [.word word] ∧ isAhead (word ++ " ")

instance (word : String) : Decidable (IsHeaderWord word) := inferInstanceAs (Decidable (_ ∧ _))

/-- A header and the lines under it. -/
theorem linesLexed_nest (word : String) (hword : IsHeaderWord word) {t : Test} {body : List Stmt}
    (h : ∀ l ∈ t.leaves, l.Fit)
    (hbody : LinesLexed (outlineAll body).lines (blockLexemes body)) :
    LinesLexed (Outline.empty.nest (word ++ " " ++ t.render ++ ":") (outlineAll body)).lines
      (([.word word] ++ t.lexemes ++ [.mark ':']) :: orPassLexemes (blockLexemes body)) := by
  have hcolon : Bridge ":" [.mark ':'] := by decide +kernel
  exact .cons (((t.lexed_render h).after hword.1 hword.2).behind hcolon) hbody.block

mutual

/-- The lines of a statement have its lexemes. -/
theorem Stmt.lexed_outline (s : Stmt) (h : Fit s.leaves) :
    LinesLexed s.outline.lines s.lexemes := by
  match s with
  | .assign t v =>
    have hassign : Bridge " = " [.mark '='] := by decide +kernel
    rw [Stmt.leaves, fit_singleton, List.forall_mem_append] at h
    exact .cons ((t.lexed_render h.1).around (v.lexed_render h.2) hassign) .nil
  | .update t op v =>
    -- the sign of an update is two marks, whichever operator it has
    have hupdate : Bridge (" " ++ op.text ++ "= ") [.mark op.char, .mark '='] := by
      cases op <;> decide +kernel
    rw [Stmt.leaves, fit_singleton, List.forall_mem_append] at h
    have hlexed := (t.lexed_render h.1).around (v.lexed_render h.2) hupdate
    rw [← String.append_assoc, ← String.append_assoc] at hlexed
    exact .cons hlexed .nil
  | .run e => exact .cons (e.lexed_render (fit_singleton.mp h)) .nil
  | .branch arms => exact arms.lexed_outline "if" (by decide +kernel) h
  | .loop t body =>
    rw [Stmt.leaves, fit_cons, fit_orPassLeaves] at h
    exact linesLexed_nest "while" (by decide +kernel) h.1 (lexed_outlineAll body h.2)

theorem lexed_outlineAll (ss : List Stmt) (h : Fit (blockLeaves ss)) :
    LinesLexed (outlineAll ss).lines (blockLexemes ss) := by
  match ss with
  | [] => exact .nil
  | s :: ss =>
    rw [blockLeaves, fit_append] at h
    exact (s.lexed_outline h.1).append (lexed_outlineAll ss h.2)

/-- So have the lines of the arms, whichever word opens the first of them. -/
theorem Arms.lexed_outline (arms : Arms) (word : String) (hword : IsHeaderWord word)
    (h : Fit arms.leaves) : LinesLexed (arms.outline (word ++ " ")).lines (arms.lexemes word) := by
  match arms with
  | .done => exact .nil
  | .otherwise body =>
    have helse : Lexed "else:" [.word "else", .mark ':'] := by decide +kernel
    rw [Arms.leaves, fit_cons, fit_orPassLeaves] at h
    exact .cons helse (lexed_outlineAll body h.2).block
  | .arm t body rest =>
    rw [Arms.leaves, fit_append, fit_cons, fit_orPassLeaves] at h
    exact (linesLexed_nest word hword h.1.1 (lexed_outlineAll body h.1.2)).append
      (rest.lexed_outline "elif" (by decide +kernel) h.2)

end

/-- The lines of a procedure, spelled out. -/
theorem Procedure.lines_eq (p : Procedure) :
    p.outline.lines = ⟨0, "def " ++ p.name ++ "():"⟩ :: (outlineAll p.body).block
      ++ [⟨0, ""⟩, ⟨0, ""⟩, ⟨0, "if __name__ == '__main__':"⟩, ⟨1, p.name ++ "()"⟩] := by
  simp [Procedure.outline, Outline.block, Line.deeper]

/-- The header of a procedure. -/
theorem lexed_header {name : String} (h : Lexed name [.word name]) :
    Lexed ("def " ++ name ++ "():") [.word "def", .word name, .mark '(', .mark ')', .mark ':'] := by
  have hdef : Lexed "def " [.word "def"] := by decide +kernel
  have hparameters : Bridge "():" [.mark '(', .mark ')', .mark ':'] := by decide +kernel
  exact (h.after hdef (by decide +kernel)).behind hparameters

/-- The call of a procedure. -/
theorem lexed_invocation {name : String} (h : Lexed name [.word name]) :
    Lexed (name ++ "()") [.word name, .mark '(', .mark ')'] := by
  have harguments : Bridge "()" [.mark '(', .mark ')'] := by decide +kernel
  exact h.behind harguments

theorem lexed_empty : Lexed "" [] := by decide +kernel

/-- The one fixed line with a literal in it. -/
theorem lexed_main : Lexed "if __name__ == '__main__':" [.word "if", .word "__name__", .mark '=',
    .mark '=', .literal "__main__", .mark ':'] := by decide +kernel

/-- The name of a procedure is one of its leaves, so it is a word. -/
theorem Procedure.lexed_name {p : Procedure} (h : Fit p.leaves) : Lexed p.name [.word p.name] := by
  simp only [Procedure.leaves, fit_append, fit_cons] at h
  exact Python.lexed_name (h.1.1 (.name p.name) List.mem_cons_self)

/-- The body of a procedure is a block. -/
theorem Procedure.lexed_block {p : Procedure} (h : Fit p.leaves) :
    LinesLexed (outlineAll p.body).block (orPassLexemes (blockLexemes p.body)) := by
  simp only [Procedure.leaves, fit_append, fit_cons, fit_orPassLeaves] at h
  exact (lexed_outlineAll p.body h.1.2).block

/-- The lines of a procedure have its lexemes, if its names are words and its texts are fit. -/
theorem Procedure.lexed_outline (p : Procedure) (h : Fit p.leaves) :
    LinesLexed p.outline.lines p.lexemes := by
  have hname := Procedure.lexed_name h
  rw [p.lines_eq]
  refine LinesLexed.append (.cons (lexed_header hname) (Procedure.lexed_block h)) ?_
  exact .cons lexed_empty (.cons lexed_empty (.cons lexed_main
    (.cons (lexed_invocation hname) .nil)))

/-! ## Whole texts -/

/-- The lexemes of a text of lines, each with its end. -/
def textLexemes (lines : List (List Lexeme)) : List Lexeme := lines.flatMap (· ++ [.feed])

/-- A line in front of other lines. -/
theorem Lexed.line {rest : String} {ls ms : List Lexeme} (h : Lexed text ls)
    (hrest : Lexed rest ms) : Lexed (text ++ "\n" ++ rest) (ls ++ [.feed] ++ ms) :=
  h.around hrest (by decide +kernel)

/-- The blanks in front of a line are no lexemes. -/
theorem lexed_margin (n : Nat) : Lexed (String.ofList (List.replicate n ' ')) [] := by
  rw [Lexed, String.toList_ofList]
  induction n with
  | zero => rfl
  | succ n ih => rw [List.replicate_succ, lex_blank, ih]

/-- Blanks in front of a text are no lexemes. -/
theorem lexed_indented (n : Nat) {ls : List Lexeme} (h : Lexed text ls) :
    Lexed (String.ofList (List.replicate n ' ') ++ text) ls := by
  refine (lexed_margin n).append h ?_
  intro c hc d _
  rw [String.toList_ofList] at hc
  obtain rfl := List.eq_of_mem_replicate (List.mem_of_getLast? hc)
  exact ⟨fun hname => absurd hname (by decide), fun hquote => absurd hquote (by decide)⟩

/-- A line has the lexemes of its text and its end, however far it is moved to the right. -/
theorem Line.lexed_render {l : Line} {ls : List Lexeme} (h : Lexed l.text ls) (width : Nat)
    {rest : String} {ms : List Lexeme} (hrest : Lexed rest ms) :
    Lexed (l.render width ++ rest) (ls ++ [.feed] ++ ms) := by
  unfold Line.render
  split
  case isTrue hempty =>
    rw [hempty] at h
    exact h.line hrest
  case isFalse _ => exact (lexed_indented _ h).line hrest

/-- The lexemes of a text of lines are those of each line in turn, whatever the
width of a level is. -/
theorem Outline.lexed_render {o : Outline} {lines : List (List Lexeme)}
    (h : LinesLexed o.lines lines) (width : Nat) : Lexed (o.render width) (textLexemes lines) := by
  rw [Outline.render, textLexemes]
  generalize o.lines = ls at h
  induction h with
  | nil => rfl
  | cons hline _ ih =>
    rw [List.map_cons, String.join_cons, List.flatMap_cons]
    exact Line.lexed_render hline width ih

/-! ## Marks -/

/-- What a lexeme is to the scan for marks, which looks at literals and line ends only. -/
def Lexeme.mark? : Lexeme → Option Mark
  | literal value => some (.literal value)
  | feed => some .feed
  | word _ | mark _ => none

/-- The marks among the lexemes. -/
def lexemeMarks (ls : List Lexeme) : List Mark := ls.filterMap Lexeme.mark?

/-- The scan for marks finds the literals and line ends among the lexemes. -/
theorem marks_of_lex {ls : List Lexeme} (h : lex cs = some ls) :
    marks cs = some (lexemeMarks ls) := by
  -- words and literals take many characters at once, so the induction is on their number
  induction hn : cs.length using Nat.strong_induction_on generalizing cs ls with
  | _ n ih =>
  cases cs with
  | nil =>
    obtain rfl := Option.some.inj h
    rfl
  | cons c cs =>
    rcases lex_cons_eq_some h with ⟨rfl, more, hmore, rfl⟩ | ⟨rfl, hmore⟩ |
      ⟨rfl, htriple, value, rest, more, hread, hmore, rfl⟩ | ⟨hc, hquote, more, hmore, rfl⟩ |
      ⟨hname, hc, more, hmore, rfl⟩
    · rw [marks_feed, ih cs.length (by simp [← hn]) hmore rfl]
      rfl
    · rw [marks_code (by decide) (fun hname => absurd hname (by decide)),
        ih cs.length (by simp [← hn]) hmore rfl]
    · have hrest : rest.length < n := by
        obtain ⟨front, rfl⟩ := Literal.suffix_of_read hread
        simp [← hn]
      rw [marks_literal htriple hread, ih rest.length hrest hmore rfl]
      rfl
    · have hrest : (cs.dropWhile isNameRest).length < n := by
        have hle := (List.dropWhile_suffix isNameRest (l := cs)).length_le
        simp only [List.length_cons] at hn
        omega
      have hword : ∀ d ∈ c :: cs.takeWhile isNameRest, isNameRest d :=
        List.forall_mem_cons.mpr ⟨hc, fun d hd => List.mem_takeWhile_imp hd⟩
      have hmarks := marks_word hword hquote
      rw [List.cons_append, List.takeWhile_append_dropWhile, ih _ hrest hmore rfl] at hmarks
      exact hmarks
    · rw [isPunctuation, Bool.and_eq_true, Bool.and_eq_true] at hc
      rw [marks_code hc.1.1 (fun h => absurd h (by simp [hname])),
        ih cs.length (by simp [← hn]) hmore rfl]
      rfl

@[simp] theorem lexemeMarks_append (ls ms : List Lexeme) :
    lexemeMarks (ls ++ ms) = lexemeMarks ls ++ lexemeMarks ms := List.filterMap_append

@[simp] theorem lexemeMarks_nil : lexemeMarks [] = [] := rfl

@[simp] theorem lexemeMarks_word (w : String) (ls : List Lexeme) :
    lexemeMarks (.word w :: ls) = lexemeMarks ls := rfl

@[simp] theorem lexemeMarks_mark (c : Char) (ls : List Lexeme) :
    lexemeMarks (.mark c :: ls) = lexemeMarks ls := rfl

@[simp] theorem lexemeMarks_enclose (needed : Bool) (ls : List Lexeme) :
    lexemeMarks (encloseLexemes needed ls) = lexemeMarks ls := by
  cases needed <;> simp [encloseLexemes]

@[simp] theorem lexemeMarks_int (n : Int) : lexemeMarks (intLexemes n) = [] := by
  unfold intLexemes
  split <;> rfl

@[simp] theorem lexemeMarks_relation (op : Relation) : lexemeMarks op.lexemes = [] := by
  cases op <;> rfl

mutual

/-- The literals of an expression stand in its text in the order of its leaves. -/
@[simp] theorem Expr.marks_lexemes (e : Expr) : lexemeMarks e.lexemes = leafMarks e.leaves := by
  match e with
  | .int _ => simp [Expr.lexemes, Expr.leaves, leafMarks]
  | .str _ | .name _ => rfl
  | .neg e => simpa [Expr.lexemes, Expr.leaves] using e.marks_lexemes
  | .binary _ l r | .index l r | .sliceFrom l r | .find l r | .replicate l r =>
    simp [Expr.lexemes, Expr.leaves, l.marks_lexemes, r.marks_lexemes]
  | .slice b lo hi =>
    simp [Expr.lexemes, Expr.leaves, b.marks_lexemes, lo.marks_lexemes, hi.marks_lexemes]
  | .call _ args => simpa [Expr.lexemes, Expr.leaves] using marks_lexemesAll args
  | .single e => simpa [Expr.lexemes, Expr.leaves] using e.marks_lexemes

@[simp] theorem marks_lexemesAll (es : List Expr) :
    lexemeMarks (lexemesAll es) = leafMarks (leavesAll es) := by
  match es with
  | [] => rfl
  | [e] => simpa [lexemesAll, leavesAll] using e.marks_lexemes
  | e :: e' :: es =>
    have hrest := marks_lexemesAll (e' :: es)
    rw [lexemesAll, leavesAll, leafMarks_append, lexemeMarks_append, lexemeMarks_append, hrest,
      e.marks_lexemes]
    simp

end

@[simp] theorem Comparison.marks_lexemes (c : Comparison) :
    lexemeMarks c.lexemes = leafMarks c.leaves := by
  simp [Comparison.lexemes, Comparison.leaves]

@[simp] theorem Test.marks_lexemes (t : Test) : lexemeMarks t.lexemes = leafMarks t.leaves := by
  cases t <;> simp [Test.lexemes, Test.leaves]

/-- Under a header, a line without marks stands for an empty body. -/
theorem marks_orPassLexemes {leaves : List (List Leaf)}
    (h : lines.map lexemeMarks = leaves.map leafMarks) :
    (orPassLexemes lines).map lexemeMarks = (orPassLeaves leaves).map leafMarks := by
  cases lines <;> cases leaves <;> simp_all [orPassLexemes, orPassLeaves, leafMarks]

mutual

/-- The marks of each line of a statement. -/
theorem Stmt.marks_lexemes (s : Stmt) : s.lexemes.map lexemeMarks = s.leaves.map leafMarks := by
  match s with
  | .assign t v | .update t _ v => simp [Stmt.lexemes, Stmt.leaves]
  | .run e => simp [Stmt.lexemes, Stmt.leaves]
  | .branch arms => exact arms.marks_lexemes "if"
  | .loop t body =>
    simp [Stmt.lexemes, Stmt.leaves, marks_orPassLexemes (marks_blockLexemes body)]

theorem marks_blockLexemes (ss : List Stmt) :
    (blockLexemes ss).map lexemeMarks = (blockLeaves ss).map leafMarks := by
  match ss with
  | [] => rfl
  | s :: ss => simp [blockLexemes, blockLeaves, s.marks_lexemes, marks_blockLexemes ss]

/-- The same line by line for arms, since the words that open them are no marks. -/
theorem Arms.marks_lexemes (arms : Arms) (word : String) :
    (arms.lexemes word).map lexemeMarks = arms.leaves.map leafMarks := by
  match arms with
  | .done => rfl
  | .otherwise body =>
    simp [Arms.lexemes, Arms.leaves, leafMarks, marks_orPassLexemes (marks_blockLexemes body)]
  | .arm t body rest =>
    simp [Arms.lexemes, Arms.leaves, marks_orPassLexemes (marks_blockLexemes body),
      rest.marks_lexemes "elif"]

end

/-- The marks of lines, each with its end. -/
theorem marks_textLexemes {leaves : List (List Leaf)}
    (h : lines.map lexemeMarks = leaves.map leafMarks) :
    lexemeMarks (textLexemes lines) = lineMarks leaves := by
  have hlines : lexemeMarks (textLexemes lines) =
      (lines.map lexemeMarks).flatMap (· ++ [.feed]) := by
    rw [lexemeMarks, textLexemes, List.filterMap_flatMap, List.flatMap_map]
    exact congrArg (lines.flatMap ·) (funext fun ls => lexemeMarks_append ls [.feed])
  rw [hlines, h, List.flatMap_map, lineMarks]

/-- The marks of a procedure are those of its leaves, line after line. -/
theorem Procedure.marks_lexemes (p : Procedure) :
    lexemeMarks (textLexemes p.lexemes) = lineMarks p.leaves := by
  apply marks_textLexemes
  simp only [Procedure.lexemes, Procedure.leaves, List.map_append, List.map_cons,
    marks_orPassLexemes (marks_blockLexemes p.body)]
  rfl

end Plic.Python
